import OsByAi.KernelMain
import OsByAi.ElfPlacement
import OsByAi.LoaderHandover
import OsByAi.PmmAcceptance

set_option autoImplicit false

namespace OsByAi.BootContract
open CallTree ByteMemory PackedBitmap BootInformation ElfModel ElfSegments ElfPlacement LoaderModel LoaderInfo
open LoaderHandover (isEntry)
open PmmAcceptance hiding attempts
open PmmModel PmmInvariant PmmBootMap KernelMain

def AddressKept (t : Trace) : Prop :=
  ∀ (memoryType pages address : ℕ) (m : Memory) (r : Output),
    (⟨⟨.allocatePages 2 memoryType pages address, m⟩, r⟩ : Exchange Call Call.Reply) ∈ t →
      efiError r.status = false → r.value = address

def Placed (kernel : LoadedKernel) : Prop :=
  ∃ m data size kernel₀ t status m', data + size ≤ Word64.size ∧ size < Word64.size ∧
    Returns (placeKernelCall m data size kernel₀) t (status, kernel, m') ∧ efiError status = false ∧ AddressKept t

structure KernelRange (kernel : LoadedKernel) : Prop where
  aligned : kernel.base % 4096 = 0
  above : 0x100000 ≤ kernel.base
  nonempty : kernel.pages ≠ 0
  below : kernel.base + 4096 * kernel.pages ≤ 2 ^ 32

theorem Placed.range {kernel : LoadedKernel} (h : Placed kernel) : KernelRange kernel := by
  obtain ⟨m, data, size, kernel₀, t, status, m', hbuf, hlt, hret, hok, hkept⟩ := h
  have hload : efiError efiLoadError = true := by decide
  unfold placeKernelCall at hret
  split at hret
  · rw [returns_pure] at hret
    obtain ⟨rfl, -⟩ := Prod.mk.inj hret.2
    rw [hload] at hok
    exact absurd hok (by decide)
  · rename_i hroom
    simp only at hret
    cases hvalid : (validElfHeader (headerAt m data) size).value with
    | false =>
      rw [hvalid, if_pos (by decide), returns_pure] at hret
      obtain ⟨rfl, -⟩ := Prod.mk.inj hret.2
      rw [hload] at hok
      exact absurd hok (by decide)
    | true =>
      rw [hvalid, if_neg (by decide)] at hret
      obtain ⟨range, hins, hval⟩ | ⟨-, st, hrej, hval⟩ := value_inspectSegments hbuf hlt (by omega) hvalid
      · rw [hval] at hret
        obtain ⟨r, t', rfl, hrun⟩ := returns_ask_bind.mp hret
        have hproper := hins.proper hlt
        have hsub : Word64.sub range.stop range.base = range.stop - range.base := by
          have hbelow := hproper.below
          exact Word64.sub_eq hins.nonempty.le (by unfold Word64.size; simp only at hbelow; omega)
        cases hr : efiError (Output.status r) with
        | true =>
          rw [hr, if_pos rfl, returns_pure] at hrun
          obtain ⟨rfl, -⟩ := Prod.mk.inj hrun.2
          rw [hr] at hok
          exact absurd hok (by decide)
        | false =>
          rw [hr, if_neg (by decide), returns_pure] at hrun
          obtain ⟨-, hrest⟩ := Prod.mk.inj hrun.2
          obtain ⟨rfl, -⟩ := Prod.mk.inj hrest
          have hbase := hkept 1 _ _ m r List.mem_cons_self hr
          have hne := hins.nonempty
          obtain ⟨hlow, hhigh, habove, hbelow⟩ := hproper
          simp only at hlow hhigh habove hbelow
          constructor
          · simp only [hbase]
            exact hlow
          · simp only [hbase]
            exact habove
          · simp only [hsub]
            omega
          · simp only [hsub, hbase]
            omega
      · rw [hval, returns_pure] at hret
        obtain ⟨rfl, -⟩ := Prod.mk.inj hret.2
        rcases hrej with rfl | rfl
        · exact absurd hok (by decide)
        · exact absurd hok (by decide)

/-- BOOT_INFO without the fields that `GetMemoryMap` fills. -/
def fixedPart (b : BootInfo) : BootInfo := { b with memoryMapSize := 0, descriptorSize := 0, descriptorVersion := 0 }

theorem fixedPart_withMap (b : BootInfo) (r : MapReply) : fixedPart (BootInfo.withMap b r) = fixedPart b := rfl

/-- The map that the last but one exchange returned. -/
def FinalMap (t : Trace) (r : MapReply) : Prop :=
  ∃ (t₀ : Trace) (size buffer : ℕ) (m : Memory) (e : Exchange Call Call.Reply),
    t = t₀ ++ [⟨⟨.getMemoryMap size buffer, m⟩, r⟩] ++ [e]

/-- A call that enters the kernel is made in memory where the final map lies in its buffer and
    the fields of BOOT_INFO are set. -/
def EntryMemory (kernel : LoadedKernel) (t : Trace) (c : Call) : Prop :=
  ∀ entry info top, c.service = .enterKernel entry info top → ∃ (r : MapReply) (m : Memory), FinalMap t r ∧
    c.memory = setFlags info (recordMap info r (put m (Word64.add info 4096) (min r.size.toNat mapCapacity) r.data)) ∧
    fixedPart (bootInfoAt m info) = freshInfo kernel info ∧
    top = Word64.add (bootInfoAt c.memory info).stackBase (bootInfoAt c.memory info).stackSize

section Entry

variable {image info : ℕ} {table : SystemTable} {kernel : LoadedKernel} {t : Trace} {m : Memory}

theorem entryMemory_other {s : Service} (h : isEntry s = false) : EntryMemory kernel t ⟨s, m⟩ := by
  rintro entry info top hs
  simp only at hs
  rw [hs] at h
  exact absurd h (by simp [isEntry])

theorem outputAll_entry (output : ℕ) (texts : List String) :
    Safe (EntryMemory kernel) (fun _ _ => True) t (outputAll output m texts) := by
  induction texts generalizing t with
  | nil => trivial
  | cons text texts ih =>
    rw [outputAll, safe_ask_bind]
    exact ⟨entryMemory_other rfl, fun _ => ih⟩

theorem reportError_entry (operation : String) (status : ℕ) :
    Safe (EntryMemory kernel) (fun _ _ => True) t (reportError table operation status m) := by
  unfold reportError
  split
  · exact safe_bind (outputAll_entry _ _) fun _ _ _ => safe_pure.mpr trivial
  · exact safe_pure.mpr trivial

theorem attempts_entry (left status : ℕ) (h : fixedPart (bootInfoAt m info) = freshInfo kernel info) :
    Safe (EntryMemory kernel) (fun _ _ => True) t (attempts image table kernel info left status m) := by
  induction left generalizing status m t with
  | zero => exact safe_pure.mpr trivial
  | succ left ih =>
    have hfield := congrArg BootInfo.memoryMap h
    have hbuffer : load m (info + 16) 8 = Word64.add info 4096 := hfield
    rw [attempts, hbuffer, safe_ask_bind]
    refine ⟨entryMemory_other rfl, fun r => ?_⟩
    split
    · split
      · rw [safe_ask_bind]
        refine ⟨entryMemory_other rfl, fun _ => ?_⟩
        rw [safe_ask_bind]
        refine ⟨entryMemory_other rfl, fun _ => ?_⟩
        exact safe_bind (reportError_entry _ _) fun _ _ _ => safe_pure.mpr trivial
      · exact safe_pure.mpr trivial
    · rw [safe_ask_bind]
      refine ⟨entryMemory_other rfl, fun answer => ?_⟩
      split
      · rw [safe_ask_bind]
        refine ⟨?_, fun _ => safe_pure.mpr trivial⟩
        intro entry i top hc
        obtain ⟨rfl, rfl, rfl⟩ := Service.enterKernel.inj hc
        exact ⟨r, m, ⟨t, _, _, _, _, rfl⟩, rfl, h, rfl⟩
      · split
        · exact safe_pure.mpr trivial
        · refine ih answer ?_
          rw [bootInfoAt_recordMap, bootInfoAt_put (Nat.min_le_right _ _), fixedPart_withMap]
          exact h

theorem startKernel_entry : Safe (EntryMemory kernel) (fun _ _ => True) t (startKernel image table kernel m) := by
  have halloc : Safe (EntryMemory kernel) (fun _ r => ∀ info, r.1 = .ok info → r.2 = fillInfo kernel info m) t
      (allocateHandoff kernel m) := by
    rw [allocateHandoff, safe_ask_bind]
    refine ⟨entryMemory_other rfl, fun r => ?_⟩
    split
    · exact safe_pure.mpr fun _ hc => absurd hc (by simp)
    · refine safe_pure.mpr fun info hc => ?_
      rw [← Except.ok.inj hc]
  refine safe_bind halloc fun now r hr => ?_
  obtain ⟨result, m'⟩ := r
  cases result with
  | error status =>
    rw [safe_ask_bind]
    refine ⟨entryMemory_other rfl, fun _ => ?_⟩
    exact safe_bind (reportError_entry _ _) fun _ _ _ => safe_pure.mpr trivial
  | ok info =>
    obtain rfl : m' = fillInfo kernel info m := hr info rfl
    have hfresh : fixedPart (bootInfoAt (fillInfo kernel info m) info) = freshInfo kernel info := by
      rw [bootInfoAt_fillInfo]
      rfl
    exact attempts_entry 8 efiSuccess hfresh

end Entry

structure HandoffBase (info : ℕ) : Prop where
  nonnull : info ≠ 0
  aligned : info % 4096 = 0
  room : info + handoffPages * 4096 ≤ Word64.size

def entryCount (r : MapReply) : ℕ := r.size.toNat / r.descriptorSize.toNat

/-- The `i`-th descriptor of a map that the firmware returned. -/
def entryOf (r : MapReply) (i : ℕ) : Descriptor := descriptorAt r.data (i * r.descriptorSize.toNat)

/-- A map as UEFI prescribes it, of at most 64 KiB. -/
structure Conforms (r : MapReply) : Prop where
  nonempty : r.size.toNat ≠ 0
  capacity : r.size.toNat ≤ mapCapacity
  version : r.descriptorVersion.toNat = 1
  stride : sizeofDescriptor ≤ r.descriptorSize.toNat
  strideAligned : r.descriptorSize.toNat % 8 = 0
  whole : r.size.toNat % r.descriptorSize.toNat = 0
  aligned : ∀ i < entryCount r, (entryOf r i).physicalStart % 4096 = 0
  pages : ∀ i < entryCount r, (entryOf r i).numberOfPages ≠ 0
  bounded : ∀ i < entryCount r, (entryOf r i).physicalStart + 4096 * (entryOf r i).numberOfPages < 2 ^ 64
  disjoint : Set.PairwiseDisjoint {i | i < entryCount r} fun i => bytes (entryOf r i)

/-- Whole pages that follow one another from `start` to `stop`. -/
def Tiles (start : ℕ) : List (ℕ × ℕ) → ℕ → Prop
  | [], stop => start = stop
  | region :: regions, stop =>
    region.1 = start ∧ region.1 % 4096 = 0 ∧ region.2 % 4096 = 0 ∧ 0 < region.2 ∧
      Tiles (start + region.2) regions stop

/-- Everything that the kernel expects of what the loader left in memory. -/
structure Contract (kernel : LoadedKernel) (m : Memory) (info top : ℕ) : Prop where
  header : validBootHeader m info = true
  map : validMemoryMap m info = true
  stack : ∀ rsp, kernelInitialRsp top - 65536 ≤ rsp → rsp < kernelInitialRsp top →
    validStack m info rsp (kernelInitialRsp top) = true
  pmm : (pmmInit m info bss).1 = true
  layout : Tiles info [(info, 4096), ((bootInfoAt m info).memoryMap, mapCapacity),
    ((bootInfoAt m info).stackBase - 4096, 4096), ((bootInfoAt m info).stackBase, (bootInfoAt m info).stackSize),
    ((bootInfoAt m info).stackBase + (bootInfoAt m info).stackSize, 4096)] (info + handoffPages * 4096)
  mapFits : (bootInfoAt m info).memoryMapSize ≤ mapCapacity
  kernelRange : (bootInfoAt m info).kernelBase = kernel.base ∧ (bootInfoAt m info).kernelSize = 4096 * kernel.pages
  spared : ∀ calls, ∀ page ∈ (PmmRefinement.run (.init m info :: calls)).2.outstanding,
    Spares info 4096 page ∧ Spares (bootInfoAt m info).memoryMap (bootInfoAt m info).memoryMapSize page ∧
    Spares (bootInfoAt m info).stackBase (bootInfoAt m info).stackSize page ∧
    Spares kernel.base (4096 * kernel.pages) page

/-- The stack lies past BOOT_INFO, the map and a guard. -/
def handoffStack (info : ℕ) : ℕ := info + 18 * 4096

def handoffStackSize : ℕ := 16 * 4096

def finalInfo (kernel : LoadedKernel) (info : ℕ) (r : MapReply) : BootInfo where
  magic := bootInfoMagic
  version := bootInfoVersion
  size := sizeofBootInfo
  memoryMap := info + 4096
  memoryMapSize := r.size.toNat
  descriptorSize := r.descriptorSize.toNat
  descriptorVersion := r.descriptorVersion.toNat
  reserved := 0
  kernelBase := kernel.base
  kernelSize := 4096 * kernel.pages
  stackBase := handoffStack info
  stackSize := handoffStackSize
  flags := bootServicesExited

section Final

variable {kernel : LoadedKernel} {info : ℕ} {r : MapReply} {m m' : Memory}

theorem bootInfo_final (hk : KernelRange kernel) (hb : HandoffBase info)
    (hm : fixedPart (bootInfoAt m info) = freshInfo kernel info)
    (hm' : m' = setFlags info (recordMap info r (put m (Word64.add info 4096) (min r.size.toNat mapCapacity) r.data))) :
    bootInfoAt m' info = finalInfo kernel info r := by
  have hroom := hb.room
  have hbelow := hk.below
  have hbuffer : Word64.add info 4096 = info + 4096 := Word64.add_eq (by unfold handoffPages at hroom; omega)
  have hstack : Word64.add (info + 4096) (mapCapacity + 4096) = info + 18 * 4096 := by
    rw [Word64.add_eq (by unfold handoffPages at hroom; unfold mapCapacity; omega)]
    unfold mapCapacity
    omega
  have hbase : kernel.base % Word64.size = kernel.base := Nat.mod_eq_of_lt (by unfold Word64.size; omega)
  have hsize : Word64.mul kernel.pages 4096 = 4096 * kernel.pages := by
    rw [Word64.mul_eq (by unfold Word64.size; omega), Nat.mul_comm]
  have hfield : bootInfoAt m info = { freshInfo kernel info with
      memoryMapSize := (bootInfoAt m info).memoryMapSize
      descriptorSize := (bootInfoAt m info).descriptorSize
      descriptorVersion := (bootInfoAt m info).descriptorVersion } := by
    rw [← hm]
    rfl
  rw [hm', bootInfoAt_setFlags, bootInfoAt_recordMap, bootInfoAt_put (Nat.min_le_right _ _), hfield]
  simp only [BootInfo.withMap, freshInfo, finalInfo, handoffStack, handoffStackSize, hbuffer, hstack, hbase, hsize]

theorem load_shift {m m' : Memory} {a b n : ℕ} (h : ∀ k < n, m (a + k) = m' (b + k)) : load m a n = load m' b n := by
  induction n generalizing a b with
  | zero => rfl
  | succ n ih =>
    have hfirst := h 0 (by omega)
    rw [Nat.add_zero, Nat.add_zero] at hfirst
    have hrest : load m (a + 1) n = load m' (b + 1) n := by
      refine ih fun k hk => ?_
      rw [show a + 1 + k = a + (k + 1) by omega, show b + 1 + k = b + (k + 1) by omega]
      exact h (k + 1) (by omega)
    rw [load, load, hfirst, hrest]

theorem descriptorAt_shift {m m' : Memory} {a b : ℕ} (h : ∀ k < sizeofDescriptor, m (a + k) = m' (b + k)) :
    descriptorAt m a = descriptorAt m' b := by
  have field : ∀ o n, o + n ≤ sizeofDescriptor → load m (a + o) n = load m' (b + o) n := by
    intro o n hn
    exact load_shift fun k hk => by rw [Nat.add_assoc, Nat.add_assoc]; exact h (o + k) (by omega)
  have first := field 0 4 (by decide)
  rw [Nat.add_zero, Nat.add_zero] at first
  unfold descriptorAt
  rw [first, field 8 8 (by decide), field 24 8 (by decide), field 32 8 (by decide)]

theorem memory_final (hb : HandoffBase info) (hr : Conforms r)
    (hm' : m' = setFlags info (recordMap info r (put m (Word64.add info 4096) (min r.size.toNat mapCapacity) r.data)))
    {k : ℕ} (hk : k < r.size.toNat) : m' (info + 4096 + k) = r.data k := by
  have hroom := hb.room
  have hcap := hr.capacity
  have hbuffer : Word64.add info 4096 = info + 4096 := Word64.add_eq (by unfold handoffPages at hroom; omega)
  rw [hm', hbuffer, setFlags, recordMap, store_of_outside _ _ _ _ _ (by omega), store_of_outside _ _ _ _ _ (by omega),
    store_of_outside _ _ _ _ _ (by omega), store_of_outside _ _ _ _ _ (by omega), put, Nat.min_eq_left hcap,
    if_pos (by omega), show info + 4096 + k - (info + 4096) = k by omega]

theorem entry_room {i : ℕ} (hi : i < entryCount r) :
    i * r.descriptorSize.toNat + r.descriptorSize.toNat ≤ r.size.toNat := by
  have hle : (i + 1) * r.descriptorSize.toNat ≤ entryCount r * r.descriptorSize.toNat := Nat.mul_le_mul_right _ hi
  have hdiv : entryCount r * r.descriptorSize.toNat ≤ r.size.toNat := Nat.div_mul_le_self _ _
  rw [Nat.add_mul, Nat.one_mul] at hle
  omega

theorem descriptor_final (hb : HandoffBase info) (hr : Conforms r) (hinfo : bootInfoAt m' info = finalInfo kernel info r)
    (hm' : m' = setFlags info (recordMap info r (put m (Word64.add info 4096) (min r.size.toNat mapCapacity) r.data)))
    {i : ℕ} (hi : i < entryCount r) : descriptor m' info i = entryOf r i := by
  have hroom := hb.room
  have hcap := hr.capacity
  have hstride := hr.stride
  have hfit := entry_room hi
  unfold handoffPages at hroom
  unfold mapCapacity at hcap
  have hmul : Word64.mul i r.descriptorSize.toNat = i * r.descriptorSize.toNat :=
    Word64.mul_eq (by unfold Word64.size; omega)
  have hadd : Word64.add (info + 4096) (i * r.descriptorSize.toNat) = info + 4096 + i * r.descriptorSize.toNat :=
    Word64.add_eq (by unfold Word64.size at *; omega)
  rw [descriptor, hinfo, entryOf]
  simp only [finalInfo, hmul, hadd]
  refine descriptorAt_shift fun k hk => ?_
  rw [Nat.add_assoc (info + 4096)]
  exact memory_final hb hr hm' (by omega)

theorem mapCount_final (hinfo : bootInfoAt m' info = finalInfo kernel info r) : mapCount m' info = entryCount r := by
  rw [mapCount, hinfo]
  rfl

theorem validBootInfo_final (hk : KernelRange kernel) (hb : HandoffBase info) (hr : Conforms r)
    (hinfo : bootInfoAt m' info = finalInfo kernel info r) : validBootInfo m' info = true := by
  have hroom := hb.room
  have hcap := hr.capacity
  have hbelow := hk.below
  have hkne := hk.nonempty
  have haligned := hb.aligned
  unfold handoffPages Word64.size at hroom
  unfold mapCapacity at hcap
  unfold validBootInfo
  simp only [hinfo, finalInfo, validRange, Bool.and_eq_true, bne_iff_ne, beq_iff_eq, decide_eq_true_eq, ne_eq,
    Word64.size, sizeofBootInfo]
  refine ⟨⟨⟨⟨⟨⟨⟨⟨⟨⟨⟨⟨⟨⟨⟨hb.nonnull, trivial⟩, trivial⟩, trivial⟩, trivial⟩, ?_⟩, ?_⟩, hr.stride⟩, hr.strideAligned⟩,
    hr.version⟩, ⟨hr.nonempty, ?_⟩⟩, ?_⟩, hr.whole⟩, ⟨?_, ?_⟩⟩, ⟨?_, ?_⟩⟩, ⟨?_, ?_⟩⟩
  · omega
  · omega
  · omega
  · exact hcap
  · omega
  · omega
  · decide
  · unfold handoffStack handoffStackSize
    omega
  · decide
  · apply decide_eq_true
    omega

theorem wellFormed_final (hb : HandoffBase info) (hr : Conforms r) (hinfo : bootInfoAt m' info = finalInfo kernel info r)
    (hm' : m' = setFlags info (recordMap info r (put m (Word64.add info 4096) (min r.size.toNat mapCapacity) r.data))) :
    WellFormedMap m' info := by
  have hcount := mapCount_final hinfo
  have hdesc : ∀ i < entryCount r, descriptor m' info i = entryOf r i := fun i hi => descriptor_final hb hr hinfo hm' hi
  refine ⟨fun i hi => ?_, fun i hi => ?_, fun i hi => ?_, fun i hi j hj hne => ?_⟩
  · rw [hcount] at hi
    rw [hdesc i hi]
    exact hr.aligned i hi
  · rw [hcount] at hi
    rw [hdesc i hi]
    exact hr.pages i hi
  · rw [hcount] at hi
    rw [hdesc i hi]
    exact Nat.le_sub_one_of_lt (hr.bounded i hi)
  · simp only [Set.mem_ofPred_eq, hcount] at hi hj
    simp only [Function.onFun, hdesc i hi, hdesc j hj]
    exact hr.disjoint hi hj hne

end Final

theorem run_eligible {m : Memory} {info : ℕ} (h : ValidMap m info) (calls : List PmmRefinement.Call) :
    (PmmRefinement.run (.init m info :: calls)).1.ready = true ∧
      (PmmRefinement.run (.init m info :: calls)).1.eligible = bootEligible m info := by
  have hfirst : (PmmRefinement.next (bss, ⟨false, ∅, ∅⟩) (.init m info)).1 = initialised (bootEligible m info) := by
    obtain ⟨-, hno⟩ | ⟨-, -, he⟩ := init_cases bss_inv m info
    · exact absurd ⟨rfl, h⟩ hno
    · simp only [PmmRefinement.next, PmmRefinement.call, he]
  have hstep : ∀ (x : Pmm × PmmRefinement.Ledger) (c : PmmRefinement.Call),
      x.1.ready = true ∧ x.1.eligible = bootEligible m info →
        (PmmRefinement.next x c).1.ready = true ∧ (PmmRefinement.next x c).1.eligible = bootEligible m info := by
    rintro ⟨s, l⟩ c ⟨hr, he⟩
    simp only at hr he
    cases c with
    | init m' info' => simp [PmmRefinement.next, PmmRefinement.call, pmmInit, hr, he]
    | alloc a =>
      simp only [PmmRefinement.next, PmmRefinement.call, pmmAlloc]
      split
      · exact ⟨hr, he⟩
      · split
        · exact ⟨hr, he⟩
        · exact ⟨hr, he⟩
    | free a =>
      simp only [PmmRefinement.next, PmmRefinement.call, pmmFree]
      split
      · exact ⟨hr, he⟩
      · split
        · exact ⟨hr, he⟩
        · exact ⟨hr, he⟩
    | isAllocated a => exact ⟨hr, he⟩
    | total => exact ⟨hr, he⟩
    | available => exact ⟨hr, he⟩
  have key : ∀ x : Pmm × PmmRefinement.Ledger, x.1.ready = true ∧ x.1.eligible = bootEligible m info →
      (calls.foldl PmmRefinement.next x).1.ready = true ∧
        (calls.foldl PmmRefinement.next x).1.eligible = bootEligible m info := by
    induction calls with
    | nil => exact fun x hx => hx
    | cons c calls ih => exact fun x hx => ih _ (hstep x c hx)
  refine key (PmmRefinement.next (bss, ⟨false, ∅, ∅⟩) (.init m info)) ?_
  rw [hfirst]
  simp only [initialised, and_self]

theorem outstanding_managed {m : Memory} {info : ℕ} (h : ValidMap m info) (calls : List PmmRefinement.Call) {page : ℕ}
    (hp : page ∈ (PmmRefinement.run (.init m info :: calls)).2.outstanding) : Managed m info page := by
  have hmatch : PmmRefinement.Matches (PmmRefinement.run (.init m info :: calls)).1
      (PmmRefinement.run (.init m info :: calls)).2 := PmmRefinement.foldl_matches _ PmmRefinement.start_matches
  rw [hmatch.mem_outstanding] at hp
  have helig := hmatch.inv.sub page hp
  rw [← managed_iff h, ← (run_eligible h calls).2]
  exact helig

theorem spares_page {info page : ℕ} (ha : info % 4096 = 0) (h : Spares info sizeofBootInfo page) : Spares info 4096 page := by
  rw [spares_iff (by decide)] at h ⊢
  unfold Touches sizeofBootInfo at *
  omega

theorem aligned_add {a b : ℕ} (ha : a % 4096 = 0) (hb : b % 4096 = 0) : (a + b) % 4096 = 0 := by omega

theorem tiles_cons {start size stop : ℕ} {regions : List (ℕ × ℕ)} (ha : start % 4096 = 0) (hs : size % 4096 = 0)
    (hp : 0 < size) (h : Tiles (start + size) regions stop) : Tiles start ((start, size) :: regions) stop :=
  ⟨rfl, ha, hs, hp, h⟩

theorem handoff_tiles {info : ℕ} (ha : info % 4096 = 0) :
    Tiles info [(info, 4096), (info + 4096, mapCapacity), (info + 18 * 4096 - 4096, 4096),
      (info + 18 * 4096, 16 * 4096), (info + 18 * 4096 + 16 * 4096, 4096)] (info + handoffPages * 4096) := by
  have hlow : info + 18 * 4096 - 4096 = info + 4096 + mapCapacity := by
    unfold mapCapacity
    omega
  have hstack : info + 18 * 4096 = info + 4096 + mapCapacity + 4096 := by
    unfold mapCapacity
    omega
  have hend : info + handoffPages * 4096 = info + 4096 + mapCapacity + 4096 + 16 * 4096 + 4096 := by
    unfold mapCapacity handoffPages
    omega
  have hcap : mapCapacity % 4096 = 0 := by decide
  have hpos : 0 < mapCapacity := by decide
  rw [hlow, hstack, hend]
  generalize mapCapacity = capacity at hcap hpos ⊢
  have hmap := aligned_add ha (show 4096 % 4096 = 0 by decide)
  have hguard := aligned_add hmap hcap
  have hbase := aligned_add hguard (show 4096 % 4096 = 0 by decide)
  have htop := aligned_add hbase (show 16 * 4096 % 4096 = 0 by decide)
  refine tiles_cons ha (by decide) (by decide) ?_
  refine tiles_cons hmap hcap hpos ?_
  refine tiles_cons hguard (by decide) (by decide) ?_
  refine tiles_cons hbase (by decide) (by decide) ?_
  exact tiles_cons htop (by decide) (by decide) rfl

section Contract

variable {kernel : LoadedKernel} {info top : ℕ} {r : MapReply} {m' : Memory}

theorem stack_final (hb : HandoffBase info) : handoffStack info + handoffStackSize = info + 34 * 4096 ∧
    handoffStack info + handoffStackSize < Word64.size ∧ (info + 34 * 4096) % 16 = 0 := by
  have hroom := hb.room
  have haligned := hb.aligned
  unfold handoffStack handoffStackSize
  unfold handoffPages at hroom
  omega

theorem top_final (hb : HandoffBase info) (hinfo : bootInfoAt m' info = finalInfo kernel info r)
    (htop : top = Word64.add (bootInfoAt m' info).stackBase (bootInfoAt m' info).stackSize) : top = info + 34 * 4096 := by
  rw [htop, hinfo, ← (stack_final hb).1]
  exact Word64.add_eq (stack_final hb).2.1

theorem validBootHeader_final (hb : HandoffBase info) (hinfo : bootInfoAt m' info = finalInfo kernel info r) :
    validBootHeader m' info = true := by
  have hnull := hb.nonnull
  unfold validBootHeader
  rw [hinfo]
  simp only [finalInfo, Bool.and_eq_true, bne_iff_ne, beq_self_eq_true, and_true]
  exact hnull

theorem validMemoryMap_final (hr : Conforms r) (hinfo : bootInfoAt m' info = finalInfo kernel info r) :
    validMemoryMap m' info = true := by
  have hbuffer : info + 4096 ≠ 0 := by omega
  unfold validMemoryMap
  rw [hinfo]
  simp only [finalInfo, Bool.and_eq_true, bne_iff_ne, beq_iff_eq]
  exact ⟨⟨⟨⟨hbuffer, hr.nonempty⟩, decide_eq_true hr.stride⟩, hr.whole⟩, hr.version⟩

theorem validStack_final (hinfo : bootInfoAt m' info = finalInfo kernel info r) {rsp stop : ℕ}
    (hstop : handoffStack info + handoffStackSize = stop) (hfit : stop < Word64.size) (hsixteen : stop % 16 = 0)
    (hlo : handoffStack info ≤ rsp) (hhi : rsp < stop) : validStack m' info rsp stop = true := by
  have hsmall : 4096 ≤ handoffStackSize := by decide
  rw [validStack_iff, hinfo]
  simp only [finalInfo]
  generalize handoffStackSize = size at hstop hsmall ⊢
  generalize handoffStack info = start at hstop hlo ⊢
  subst hstop
  exact ⟨hsmall, hfit, hlo, hhi, rfl, hsixteen⟩

theorem layout_final (hb : HandoffBase info) (hinfo : bootInfoAt m' info = finalInfo kernel info r) :
    Tiles info [(info, 4096), ((bootInfoAt m' info).memoryMap, mapCapacity),
      ((bootInfoAt m' info).stackBase - 4096, 4096), ((bootInfoAt m' info).stackBase, (bootInfoAt m' info).stackSize),
      ((bootInfoAt m' info).stackBase + (bootInfoAt m' info).stackSize, 4096)] (info + handoffPages * 4096) := by
  rw [hinfo]
  simp only [finalInfo]
  exact handoff_tiles hb.aligned

end Contract

theorem contract_final {kernel : LoadedKernel} {info top : ℕ} {r : MapReply} {m m' : Memory} (hk : KernelRange kernel)
    (hb : HandoffBase info) (hr : Conforms r) (hm : fixedPart (bootInfoAt m info) = freshInfo kernel info)
    (hm' : m' = setFlags info (recordMap info r (put m (Word64.add info 4096) (min r.size.toNat mapCapacity) r.data)))
    (htop : top = Word64.add (bootInfoAt m' info).stackBase (bootInfoAt m' info).stackSize) :
    Contract kernel m' info top := by
  have hinfo := bootInfo_final hk hb hm hm'
  have hheader := validBootInfo_final hk hb hr hinfo
  have hwell := wellFormed_final hb hr hinfo hm'
  have hvalid : ValidMap m' info := ⟨hheader, (wellFormed_iff hheader).mpr hwell⟩
  have hrsp : kernelInitialRsp top = info + 34 * 4096 := by
    have hroom := hb.room
    have haligned := hb.aligned
    unfold handoffPages at hroom
    rw [top_final hb hinfo htop]
    exact kernelInitialRsp_eq (by omega) (by omega)
  constructor
  · exact validBootHeader_final hb hinfo
  · exact validMemoryMap_final hr hinfo
  · intro rsp hlo hhi
    rw [hrsp] at hlo hhi ⊢
    obtain ⟨hend, hfit, hsixteen⟩ := stack_final hb
    rw [hend] at hfit
    have hsize : handoffStackSize = 65536 := by decide
    exact validStack_final hinfo hend hfit hsixteen (by omega) hhi
  · obtain ⟨-, hno⟩ | ⟨-, -, he⟩ := init_cases bss_inv m' info
    · exact absurd ⟨rfl, hvalid⟩ hno
    · rw [he]
  · exact layout_final hb hinfo
  · rw [hinfo]
    exact hr.capacity
  · rw [hinfo]
    exact ⟨rfl, rfl⟩
  · intro calls page hp
    have hmanaged := outstanding_managed hvalid calls hp
    obtain ⟨-, -, -, hkernel, hinformation, hmap, hstack⟩ := hmanaged
    refine ⟨spares_page hb.aligned hinformation, hmap, hstack, ?_⟩
    rw [hinfo] at hkernel
    exact hkernel

/-- What the loader hands over is what the kernel accepts, whatever the firmware answered. -/
theorem boot_contract (image : ℕ) (table : SystemTable) (kernel : LoadedKernel) (m₀ : Memory) (hk : Placed kernel)
    (t : Trace) (entry info top : ℕ) (m : Memory)
    (hentered : Issues (startKernel image table kernel m₀) t ⟨.enterKernel entry info top, m⟩)
    (hbase : HandoffBase info) (hmap : ∀ r, FinalMap t r → Conforms r) : Contract kernel m info top := by
  obtain ⟨r, m', hfinal, hm', hm, htop⟩ := (startKernel_entry (t := [])).issues hentered entry info top rfl
  exact contract_final hk.range hbase (hmap r hfinal) hm hm' htop

theorem finalMap_second {e₁ e₃ : Exchange Call Call.Reply} {size buffer : ℕ} {m : Memory} {r r' : MapReply}
    (h : FinalMap [e₁, ⟨⟨.getMemoryMap size buffer, m⟩, r⟩, e₃] r') : r' = r := by
  obtain ⟨t₀, size', buffer', m', e, ht⟩ := h
  cases t₀ with
  | nil => exact absurd (congrArg List.length ht) (by simp)
  | cons e₀ t₀ =>
    cases t₀ with
    | nil =>
      have hmid := (List.cons.inj (List.cons.inj ht).2).1
      injection hmid with hcall hreply
      exact hreply.symm
    | cons e₁ t₀ => exact absurd (congrArg List.length ht) (by simp)

theorem issues_along {α β : Type} {service : Service} {m : Memory} {g : service.Reply → Loader α} {d : β → Call}
    {P : Trace → Prop} (r : service.Reply) (h : ∃ t x, Issues (g r) t (d x) ∧ P (⟨⟨service, m⟩, r⟩ :: t)) :
    ∃ t x, Issues (ask service m >>= g) t (d x) ∧ P t := by
  obtain ⟨t, x, h, hp⟩ := h
  exact ⟨_, x, issues_call_bind.mpr (.inr ⟨r, t, rfl, h⟩), hp⟩

/-- A firmware that grants everything sees the kernel entered with the map that it returned. -/
theorem entered_with_map (image : ℕ) (table : SystemTable) (kernel : LoadedKernel) (m : Memory) (base : ℕ) (r : MapReply)
    (hr : efiError r.status = false) :
    ∃ t, ∃ x : ℕ × Memory, Issues (startKernel image table kernel m) t ⟨.enterKernel kernel.entry base x.1, x.2⟩ ∧
      ∀ r', FinalMap t r' → r' = r := by
  have hsuccess : efiError efiSuccess = false := by decide
  have halloc : Returns (allocateHandoff kernel m) [⟨⟨.allocatePages 0 2 handoffPages 0, m⟩, (⟨efiSuccess, base⟩ : Output)⟩]
      (.ok base, fillInfo kernel base m) := by
    rw [allocateHandoff, returns_ask_bind]
    refine ⟨⟨efiSuccess, base⟩, [], rfl, ?_⟩
    rw [if_neg (by rw [hsuccess]; decide), returns_pure]
    exact ⟨rfl, rfl⟩
  have hloop : ∃ t, ∃ x : ℕ × Memory, Issues (attempts image table kernel base 8 efiSuccess (fillInfo kernel base m)) t
      ⟨.enterKernel kernel.entry base x.1, x.2⟩ ∧
      ∀ r', FinalMap (⟨⟨.allocatePages 0 2 handoffPages 0, m⟩, (⟨efiSuccess, base⟩ : Output)⟩ :: t) r' → r' = r := by
    rw [attempts]
    refine issues_along r (d := fun x : ℕ × Memory => ⟨.enterKernel kernel.entry base x.1, x.2⟩)
      (P := fun t => ∀ r', FinalMap (⟨⟨.allocatePages 0 2 handoffPages 0, m⟩, (⟨efiSuccess, base⟩ : Output)⟩ :: t) r' → r' = r) ?_
    rw [if_neg (by rw [hr]; decide)]
    refine issues_along efiSuccess (d := fun x : ℕ × Memory => ⟨.enterKernel kernel.entry base x.1, x.2⟩)
      (P := fun t => ∀ r', FinalMap (_ :: _ :: t) r' → r' = r) ?_
    rw [if_pos rfl]
    exact ⟨[], (_, _), issues_call_bind.mpr (.inl ⟨rfl, rfl⟩), fun r' h => finalMap_second h⟩
  obtain ⟨t, x, hissue, hfinal⟩ := hloop
  exact ⟨_, x, issues_bind.mpr (.inr ⟨_, t, _, rfl, halloc, hissue⟩), hfinal⟩

theorem addressKept_single {memoryType pages address status : ℕ} {m : Memory} :
    AddressKept [⟨⟨.allocatePages 2 memoryType pages address, m⟩, (⟨status, address⟩ : Output)⟩] := by
  intro memoryType' pages' address' m' r hr _
  have heq := List.mem_singleton.mp hr
  injection heq with hcall hreply
  injection hcall with hservice hm
  injection hservice with halloc htype hpages haddress
  rw [hreply, haddress]

theorem placed_of_spans {m : Memory} {data size : ℕ} {range : ImageRange} (hbuf : data + size ≤ Word64.size)
    (hlt : size < Word64.size) (hroom : sizeofHeader ≤ size) (hvalid : (validElfHeader (headerAt m data) size).value = true)
    (hspan : (inspectSegments m data (headerAt m data) size).value = .ok range) (hout : Outside data size range) :
    Placed ⟨range.base, Word64.sub range.stop range.base / 4096, (headerAt m data).entry⟩ := by
  have hsuccess : efiError efiSuccess = false := by decide
  have hins : Inspected m data size range := by
    obtain ⟨range', hins, hval⟩ | ⟨-, st, -, hval⟩ := value_inspectSegments hbuf hlt hroom hvalid
    · rw [hspan] at hval
      rw [Except.ok.inj hval]
      exact hins
    · rw [hspan] at hval
      exact absurd hval (by simp)
  have himage := value_copySegments hins hbuf hlt hout
  have hhead : headerAt (copySegments m data range).value data = headerAt m data := by
    apply headerAt_congr hroom
    intro a hlow hhigh
    apply himage.outside
    rcases hout with ho | ho
    · omega
    · omega
  refine ⟨m, data, size, ⟨0, 0, 0⟩,
    [⟨⟨.allocatePages 2 1 (Word64.sub range.stop range.base / 4096) range.base, m⟩, (⟨efiSuccess, range.base⟩ : Output)⟩],
    efiSuccess, (copySegments m data range).value, hbuf, hlt, ?_, hsuccess, addressKept_single⟩
  unfold placeKernelCall
  rw [if_neg (by omega)]
  simp only [hvalid, hspan]
  rw [if_neg (by decide), returns_ask_bind]
  refine ⟨⟨efiSuccess, range.base⟩, [], rfl, ?_⟩
  rw [if_neg (by rw [hsuccess]; decide), returns_pure, hhead]
  exact ⟨rfl, rfl⟩

def sampleKernel : LoadedKernel := ⟨0x100000, 10, 0x100000⟩

theorem sample_placed : Placed sampleKernel := by
  have hpages : Word64.sub 0x10a000 0x100000 / 4096 = 10 := by decide
  have hplaced := placed_of_spans (by decide) (by decide) (by decide) sample_valid sample_span (.inl (by decide))
  rw [sample_entry, hpages] at hplaced
  exact hplaced

/-- The kernel, the hand-off range at `base` and 16 MiB of conventional memory at 16 MiB. -/
def sampleMap (base : ℕ) : MapReply where
  status := efiSuccess
  size := 120
  key := 1
  descriptorSize := 40
  descriptorVersion := 1
  data := layWords 0 [1, 0x100000, 0, 10, 8, 2, base, 0, 35, 8, 7, 0x1000000, 0, 4096, 8]

structure SampleBase (base : ℕ) : Prop where
  aligned : base % 4096 = 0
  apart : base + 35 * 4096 ≤ 0x100000 ∨ (0x10a000 ≤ base ∧ base + 35 * 4096 ≤ 0x1000000)
  nonnull : base ≠ 0
  kernel : entryOf (sampleMap base) 0 = ⟨1, 0x100000, 10, 8⟩
  handoff : entryOf (sampleMap base) 1 = ⟨2, base, 35, 8⟩
  ram : entryOf (sampleMap base) 2 = ⟨7, 0x1000000, 4096, 8⟩

theorem sample_size (base : ℕ) : (sampleMap base).size.toNat = 120 := rfl

theorem sample_stride (base : ℕ) : (sampleMap base).descriptorSize.toNat = 40 := rfl

theorem sample_version (base : ℕ) : (sampleMap base).descriptorVersion.toNat = 1 := rfl

theorem sample_count (base : ℕ) : entryCount (sampleMap base) = 3 := by
  rw [entryCount, sample_size, sample_stride]

theorem SampleBase.conforms {base : ℕ} (h : SampleBase base) : Conforms (sampleMap base) := by
  have haligned := h.aligned
  have hapart := h.apart
  have each : ∀ P : Descriptor → Prop, P ⟨1, 0x100000, 10, 8⟩ → P ⟨2, base, 35, 8⟩ → P ⟨7, 0x1000000, 4096, 8⟩ →
      ∀ i < entryCount (sampleMap base), P (entryOf (sampleMap base) i) := by
    intro P h0 h1 h2 i hi
    rw [sample_count] at hi
    obtain rfl | rfl | rfl : i = 0 ∨ i = 1 ∨ i = 2 := by omega
    · rw [h.kernel]
      exact h0
    · rw [h.handoff]
      exact h1
    · rw [h.ram]
      exact h2
  have hsize := sample_size base
  have hstride := sample_stride base
  refine ⟨by omega, by rw [hsize]; decide, sample_version base, by rw [hstride]; decide, by omega,
    by rw [hsize, hstride], ?_, ?_, ?_, ?_⟩
  · exact each (fun d => d.physicalStart % 4096 = 0) (by decide) haligned (by decide)
  · exact each (fun d => d.numberOfPages ≠ 0) (by decide) (by simp) (by decide)
  · exact each (fun d => d.physicalStart + 4096 * d.numberOfPages < 2 ^ 64) (by decide) (by simp only; omega) (by decide)
  · intro i hi j hj hne
    rw [Set.mem_ofPred_eq, sample_count] at hi hj
    simp only [Function.onFun, PmmAcceptance.bytes, Set.Ico_disjoint_Ico]
    obtain rfl | rfl | rfl : i = 0 ∨ i = 1 ∨ i = 2 := by omega
    all_goals
      obtain rfl | rfl | rfl : j = 0 ∨ j = 1 ∨ j = 2 := by omega
      all_goals
        simp only [h.kernel, h.handoff, h.ram]
        omega

theorem high_sample : SampleBase 0x200000 :=
  ⟨by decide, .inr (by decide), by decide, by decide +kernel, by decide +kernel, by decide +kernel⟩

/-- The kernel is entered with a BOOT_INFO at 2 MiB. -/
theorem sample_contract : ∃ top m, Contract sampleKernel m 0x200000 top := by
  obtain ⟨t, x, hentered, hmap⟩ := entered_with_map 1 ⟨0, 0⟩ sampleKernel sampleImage 0x200000 (sampleMap 0x200000) (by decide)
  exact ⟨_, _, boot_contract 1 ⟨0, 0⟩ _ _ sample_placed t _ _ _ _ hentered ⟨by decide, by decide, by decide⟩
    fun r hr => hmap r hr ▸ high_sample.conforms⟩

end OsByAi.BootContract
