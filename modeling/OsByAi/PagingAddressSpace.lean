import OsByAi.KernelRuns

set_option autoImplicit false

namespace OsByAi.PagingAddressSpace
open ByteMemory PackedBitmap BootInformation PmmModel PmmInvariant PmmBootMap
open Word64 (Canonical)
open PagingModel PagingEntries PagingTree PagingWalk PagingBuild PagingInit KernelRuns

structure Translation where
  physical : ℕ
  writable : Bool
  executable : Bool
  user : Bool
deriving DecidableEq

/-- The entries met on the way down, or `none` when one is not present. -/
def walkEntries (m : Memory) (v : ℕ) : List ℕ → ℕ → Option (List ℕ)
  | [], _ => some []
  | shift :: shifts, table =>
    let entry := load m (slot table v shift) 8
    if entry &&& 1 == 0 then none
    else (walkEntries m v shifts (entry &&& addressMask)).map (entry :: ·)

/-- Rights are the conjunction over all levels; the last entry names the page. -/
def rights (entries : List ℕ) : Translation where
  physical := entries.getLastD 0 &&& addressMask
  writable := entries.all fun e => e &&& 2 != 0
  executable := entries.all fun e => e &&& nx == 0
  user := entries.all fun e => e &&& 4 != 0

def translate (m : Memory) (root v : ℕ) : Option Translation :=
  if Canonical v then (walkEntries m v (tableShifts ++ [12]) root).map rights else none

theorem linkEntry_rights {c : ℕ} (hc : c < 2 ^ 40) :
    (linkEntry c &&& 2 != 0) = true ∧ (linkEntry c &&& nx == 0) = true ∧
      (linkEntry c &&& 4 != 0) = false := by
  have bit : ∀ k, linkEntry c &&& 2 ^ k ≠ 0 ↔ linkEntry c / 2 ^ k % 2 = 1 :=
    fun k => Word64.and_bit_ne_zero _ k
  refine ⟨?_, ?_, ?_⟩
  · rw [bne_iff_ne, show (2 : ℕ) = 2 ^ 1 from rfl, bit, linkEntry]
    omega
  · rw [beq_iff_eq]
    by_contra hne
    have := (bit 63).mp hne
    rw [linkEntry] at this
    omega
  · rw [bne_eq_false_iff_eq]
    by_contra hne
    have := (bit 2).mp hne
    rw [linkEntry] at this
    omega

section Walk

variable {s : Machine} {held : Finset ℕ}

theorem walkEntries_eq (h : TreeInv s held) (v : ℕ) (shifts : List ℕ) {p : Path} {n : ℕ}
    (hn : node s p = some n) (hlen : p.length + shifts.length = 3) :
    (leafOf s v % 2 = 0 → upper v = p ++ indices v shifts →
      walkEntries s.mem v (shifts ++ [12]) (4096 * n) = none) ∧
    (leafOf s v % 2 = 1 → upper v = p ++ indices v shifts →
      ∃ links : List ℕ, links.length = shifts.length ∧ (∀ c ∈ links, c < 2 ^ 40) ∧
        walkEntries s.mem v (shifts ++ [12]) (4096 * n) =
          some (links.map linkEntry ++ [leafOf s v])) := by
  induction shifts generalizing p n with
  | nil =>
    have hload : upper v = p → load s.mem (slot (4096 * n) v 12) 8 = leafOf s v := by
      rintro rfl
      exact load_entry hn
    refine ⟨fun heven hp => ?_, fun hodd hp => ⟨[], rfl, by simp, ?_⟩⟩
    · rw [indices, List.map_nil, List.append_nil] at hp
      simp only [List.nil_append, walkEntries, hload hp, absent_iff, heven, if_true]
    · rw [indices, List.map_nil, List.append_nil] at hp
      have : ¬ leafOf s v % 2 = 0 := by omega
      simp [walkEntries, hload hp, this]
  | cons shift shifts ih =>
    have hp : p.length ≤ 2 := by
      simp at hlen
      omega
    have hpath : p ++ indices v (shift :: shifts) =
        (p ++ [pageIndex v shift]) ++ indices v shifts := by
      simp [indices]
    have hload : load s.mem (slot (4096 * n) v shift) 8 = entryAt s p (pageIndex v shift) :=
      load_entry hn
    rw [hpath]
    simp only [List.cons_append, walkEntries, hload, absent_iff]
    obtain hz | ⟨c, hc, he⟩ := h.inner p (pageIndex v shift) hp
    · -- no table below, so no leaf either
      have hnone := (h.inner_zero_iff hp).mp hz
      have hleaf : upper v = p ++ [pageIndex v shift] ++ indices v shifts → leafOf s v = 0 := by
        intro hu
        rw [leafOf, hu]
        exact entryAt_below hnone (List.prefix_append _ _) _
      rw [hz]
      refine ⟨fun _ _ => by simp, fun hodd hu => ?_⟩
      rw [hleaf hu] at hodd
      exact absurd hodd (by decide)
    · have hchild : node s (p ++ [pageIndex v shift]) = some c := by
        rw [node_concat, he, child_linkEntry hc]
      have hodd : ¬ entryAt s p (pageIndex v shift) % 2 = 0 := by
        rw [he, linkEntry]
        omega
      obtain ⟨hnone, hsome⟩ := ih hchild (by simp at hlen ⊢; omega)
      rw [if_neg hodd, he, linkEntry_mask hc]
      refine ⟨fun heven hu => by rw [hnone heven hu]; rfl, fun ho hu => ?_⟩
      obtain ⟨links, hl, hlt, hw⟩ := hsome ho hu
      refine ⟨c :: links, by simp [hl], ?_, by rw [hw]; rfl⟩
      intro x hx
      rcases List.mem_cons.mp hx with rfl | hx
      · exact hc
      · exact hlt x hx

theorem rights_eq {links : List ℕ} (hne : links ≠ []) (hlt : ∀ c ∈ links, c < 2 ^ 40) (leaf : ℕ) :
    rights (links.map linkEntry ++ [leaf]) =
      ⟨leaf &&& addressMask, leaf &&& 2 != 0, leaf &&& nx == 0, false⟩ := by
  have hw : (links.map linkEntry).all (fun e => e &&& 2 != 0) = true := by
    simp only [List.all_map, List.all_eq_true]
    exact fun c hc => (linkEntry_rights (hlt c hc)).1
  have hx : (links.map linkEntry).all (fun e => e &&& nx == 0) = true := by
    simp only [List.all_map, List.all_eq_true]
    exact fun c hc => (linkEntry_rights (hlt c hc)).2.1
  have hu : (links.map linkEntry).all (fun e => e &&& 4 != 0) = false := by
    rw [List.all_eq_false]
    obtain ⟨c, rest, rfl⟩ := List.exists_cons_of_ne_nil hne
    exact ⟨linkEntry c, by simp, by simp [(linkEntry_rights (hlt c (by simp))).2.2]⟩
  simp only [rights, List.all_append, hw, hx, hu, List.all_cons, List.all_nil, Bool.true_and,
    Bool.false_and, Bool.and_true, List.getLastD_concat]

theorem translate_eq (h : TreeInv s held) (v : ℕ) :
    translate s.mem s.pagingRoot v =
      if Canonical v ∧ leafOf s v % 2 = 1 then
        some ⟨leafOf s v &&& addressMask, leafOf s v &&& 2 != 0, leafOf s v &&& nx == 0, false⟩
      else none := by
  obtain ⟨hnone, hsome⟩ := walkEntries_eq h v tableShifts (node_nil s) rfl
  unfold translate
  rw [h.root_eq]
  by_cases hc : Canonical v
  · rw [if_pos hc]
    by_cases hodd : leafOf s v % 2 = 1
    · obtain ⟨links, hl, hlt, hw⟩ := hsome hodd rfl
      have hne : links ≠ [] := by
        rintro rfl
        simp [tableShifts] at hl
      rw [if_pos ⟨hc, hodd⟩, hw, Option.map_some, rights_eq hne hlt]
    · rw [if_neg fun hx => hodd hx.2, hnone (by omega) rfl]
      rfl
  · rw [if_neg hc, if_neg fun hx => hc hx.1]

end Walk

theorem leafOf_low (s : Machine) (v : ℕ) : leafOf s v = leafOf s (v % 2 ^ 48) := by
  have index : ∀ shift, shift + 9 ≤ 48 → pageIndex v shift = pageIndex (v % 2 ^ 48) shift := by
    intro shift hs
    apply Fin.ext
    change v / 2 ^ shift % 512 = v % 2 ^ 48 / 2 ^ shift % 512
    obtain ⟨k, hk⟩ := Nat.exists_eq_add_of_le hs
    rw [hk, Nat.pow_add, Nat.pow_add, Nat.mul_assoc, Nat.mod_mul_right_div_self,
      show (2 : ℕ) ^ 9 = 512 from rfl, Nat.mod_mul_right_mod]
  rw [leafOf, leafOf, upper, upper, indices, indices, index 12 (by decide)]
  congr 1
  apply List.map_congr_left
  intro shift hs
  simp only [tableShifts, List.mem_cons, List.not_mem_nil, or_false] at hs
  exact index shift (by omega)

theorem bootRam_lt {m : Memory} {info v : ℕ} (h : BootRam m info v) : 0x100000 ≤ v ∧ v < pmmLimit := by
  obtain ⟨i, -, -, hc⟩ := h
  exact ⟨hc.1, hc.2.1⟩

/-- The pages mapped by `paging_init`: boot RAM, without the page of any stack guard. -/
def Mapped (L : Layout) (m : Memory) (info v : ℕ) : Prop :=
  Without (BootRam m info) (stackGuards L (bootInfoAt m info)) v

theorem Installed.translate_eq {L : Layout} {info : ℕ} {s s' : Machine} {held : Finset ℕ}
    (h : Installed L info s s' held) {v : ℕ} (hv : v % 4096 = 0) :
    (Mapped L s.mem info v ∧ translate s'.mem s'.pagingRoot v =
      some ⟨v, identityWrite L v, identityExec L v, false⟩) ∨
    (¬ Mapped L s.mem info v ∧ translate s'.mem s'.pagingRoot v = none) := by
  rw [PagingAddressSpace.translate_eq h.built.tree]
  by_cases hm : Mapped L s.mem info v
  · refine .inl ⟨hm, ?_⟩
    have hlow := (bootRam_lt hm.1).2
    unfold pmmLimit at hlow
    rw [h.built.mapped v hv (by omega) hm, identityEntry,
      if_pos ⟨.inl (by omega), leafEntry_mod_two _ _ _⟩, leafEntry_mask (by omega), leafEntry_write]
    have hpage : v / 4096 < 2 ^ 40 := by omega
    have hnx := leafEntry_nx hpage (identityWrite L v) (!identityExec L v)
    have hx : (leafEntry (v / 4096) (identityWrite L v) (!identityExec L v) &&& nx == 0) =
        identityExec L v := Bool.not_inj hnx
    rw [hx, show 4096 * (v / 4096) = v by omega]
  · refine .inr ⟨hm, if_neg ?_⟩
    rintro ⟨hc, hodd⟩
    rw [leafOf_low] at hodd
    -- a high canonical address is not below 4 GiB, and neither is what the walk makes of it
    have hnot : ¬ Mapped L s.mem info (v % 2 ^ 48) := by
      intro hmm
      have hlow := (bootRam_lt hmm.1).2
      unfold pmmLimit at hlow
      rcases hc with hc | ⟨hc, hc'⟩
      · rw [Nat.mod_eq_of_lt (by omega)] at hmm
        exact hm hmm
      · omega
    rw [h.built.unmapped (v % 2 ^ 48) (by omega) (Nat.mod_lt _ (by decide)) hnot] at hodd
    exact absurd hodd (by decide)

/-- After a successful `paging_init` a page-aligned address is present exactly when it is boot
    RAM and not a stack guard; it then maps to itself with the rights of its section. -/
theorem paging_init_address_space {L : Layout} {info : ℕ} {before after : World}
    (h : Booted L info before after) {v : ℕ} (hv : v % 4096 = 0) :
    (translate after.machine.mem after.machine.pagingRoot v ≠ none ↔
      (∃ i, i < mapCount before.machine.mem info ∧
        Mappable (descriptor before.machine.mem info i) ∧
        Clipped (descriptor before.machine.mem info i) v) ∧
      ∀ g ∈ stackGuards L (bootInfoAt before.machine.mem info), v ≠ 4096 * (g / 4096)) ∧
    ∀ t, translate after.machine.mem after.machine.pagingRoot v = some t →
      t.physical = v ∧ t.user = false ∧
      (InText L v → t.writable = false ∧ t.executable = true) ∧
      (InRodata L v → t.writable = false ∧ t.executable = false) ∧
      (¬ InText L v → ¬ InRodata L v → t.writable = true ∧ t.executable = false) := by
  obtain ⟨-, -, hinst, -⟩ := h.cases
  obtain ⟨hm, ht⟩ | ⟨hm, ht⟩ := Installed.translate_eq hinst hv
  · rw [ht]
    refine ⟨iff_of_true (by simp) hm, ?_⟩
    rintro t ⟨⟩
    have hdisj : InRodata L v → ¬ InText L v := by
      have := L.ordered
      unfold InRodata InText
      omega
    refine ⟨rfl, rfl, fun hin => ?_, fun hin => ?_, fun ht hr => ?_⟩
    · simp [identityWrite, identityExec, hin]
    · simp [identityWrite, identityExec, hin, hdisj hin]
    · simp [identityWrite, identityExec, ht, hr]
  · rw [ht]
    exact ⟨iff_of_false (by simp) hm, fun t hc => absurd hc (by simp)⟩

/-- The machine after power-on and a `pmm_init` that accepted the map. -/
def prepared (m : Memory) (cpu : Cpu) (info : ℕ) : Machine :=
  { powerOn m cpu with pmm := initialised (bootEligible m info) }

theorem run_pmmInit (L : Layout) (cpu : Cpu) {m : Memory} {info : ℕ} (h : ValidMap m info) :
    run L info (World.powerOn m cpu) [.pmmInit] = ⟨prepared m cpu info, Ledger.blank⟩ := by
  obtain ⟨-, hno⟩ | ⟨-, -, hi⟩ := init_cases bss_inv m info
  · exact absurd ⟨rfl, h⟩ hno
  · change (⟨{ powerOn m cpu with pmm := (pmmInit m info bss).2 }, Ledger.blank⟩ : World) = _
    rw [hi, prepared]

theorem prepared_idle (cpu : Cpu) {m : Memory} {info : ℕ} (h : ValidMap m info) : Idle (prepared m cpu info) ∅ info where
  pmm := h.initialised_inv
  count := rfl
  inactive := rfl
  owned := by
    intro page
    change bit empty page = true ↔ page ∈ (∅ : Finset ℕ)
    simp
  boot _ := ⟨h, initialised_eligible _⟩

theorem booted_of_bootable {L : Layout} {m : Memory} {cpu : Cpu} {info : ℕ} (h : ValidMap m info)
    (hb : Bootable L (prepared m cpu info) ∅ info) :
    Booted L info ⟨prepared m cpu info, Ledger.blank⟩
      (next L info ⟨prepared m cpu info, Ledger.blank⟩ .pagingInit) := by
  refine ⟨⟨m, cpu, [.pmmInit], ⟨trivial, trivial⟩, (run_pmmInit L cpu h).symm⟩, ?_, rfl⟩
  obtain ⟨-, -, -, -, hno⟩ | ⟨s', hi, -⟩ := pagingInit_cases (L := L) (prepared_idle cpu h)
  · exact absurd hb hno
  · rw [hi]

section Small

def smallLayout : Layout where
  kernelTextStart := 0x100000
  kernelTextEnd := 0x102000
  kernelRodataStart := 0x102000
  kernelRodataEnd := 0x103000
  doubleFaultGuardLow := 0x104000
  doubleFaultGuardHigh := 0x109000
  textStart_aligned := rfl
  textEnd_aligned := rfl
  rodataStart_aligned := rfl
  rodataEnd_aligned := rfl
  guardLow_aligned := rfl
  guardHigh_eq := rfl
  ordered := by decide
  guardHigh_lt := by decide

def smallCpu : Cpu where
  rflags := 2
  cr0 := 0x80000011
  cr3 := 0x1000
  cr4 := 0x20
  msr := fun i => if i = 0x277 then 0x0007040600070406 else 0
  cpuid := fun leaf _ => if leaf = 0x80000000 then ⟨0x80000008, 0⟩ else ⟨0, 2 ^ 20⟩

theorem smallCpu_supported : supportedCpuState smallCpu smallCpu.cr4 = true := by
  decide +kernel

section LaidOut

variable {m : Memory} {mapAt stack size : ℕ}

theorem LaidOut.bootRam_iff (h : LaidOut m mapAt stack size) (v : ℕ) : BootRam m smallInfo v ↔
    (0x100000 ≤ v ∧ v < 0x110000) ∨ (0x200000 ≤ v ∧ v < 0x223000) ∨ (0x1000000 ≤ v ∧ v < 0x2000000) := by
  obtain ⟨hkernel, hhandoff, hram⟩ := h.map
  unfold BootRam RamBelow Clipped pmmLimit
  rw [h.count]
  constructor
  · rintro ⟨i, hi, -, hclip⟩
    obtain rfl | rfl | rfl : i = 0 ∨ i = 1 ∨ i = 2 := by omega
    · rw [hkernel] at hclip
      unfold Spans at hclip
      simp only at hclip
      omega
    · rw [hhandoff] at hclip
      unfold Spans at hclip
      simp only at hclip
      omega
    · rw [hram] at hclip
      unfold Spans at hclip
      simp only at hclip
      omega
  · rintro (hv | hv | hv)
    · refine ⟨0, by decide, ?_⟩
      rw [hkernel]
      exact ⟨⟨.inr (.inl rfl), rfl⟩, by omega, by omega, by simp only; omega, by simp only; omega⟩
    · refine ⟨1, by decide, ?_⟩
      rw [hhandoff]
      exact ⟨⟨.inr (.inl rfl), rfl⟩, by omega, by omega, by simp only; omega, by simp only; omega⟩
    · refine ⟨2, by decide, ?_⟩
      rw [hram]
      exact ⟨⟨.inr (.inr rfl), rfl⟩, by omega, by omega, by simp only; omega, by simp only; omega⟩

theorem LaidOut.inRam (h : LaidOut m mapAt stack size) {base n : ℕ} (hne : n ≠ 0)
    (hin : (0x100000 ≤ base ∧ base + n ≤ 0x110000) ∨ (0x200000 ≤ base ∧ base + n ≤ 0x223000)) :
    InSet (BootRam m smallInfo) base n where
  nonempty := hne
  low := by omega
  high := by
    unfold pmmLimit
    omega
  pages := by
    intro v hv hlo hhi
    rw [LaidOut.bootRam_iff h]
    omega

theorem LaidOut.total (h : LaidOut m mapAt stack size) : countPages (bootEligible m smallInfo) = 4096 := by
  have hpages : pagesOf (bootEligible m smallInfo) = Finset.Ico 4096 8192 := by
    ext page
    rw [mem_pagesOf, pageCount_eq, h.eligible_iff, Finset.mem_Ico]
    omega
  rw [countPages_eq, hpages, Nat.card_Ico]

theorem LaidOut.regions (h : LaidOut m mapAt stack size) : RegionsIn m smallInfo (BootRam m smallInfo) := by
  have hmap := h.mapIn
  have hstack := h.stackIn
  refine ⟨?_, ?_, ?_, ?_⟩
  · rw [h.bootInfo]
    exact LaidOut.inRam h (by simp only; omega) (by simp only; omega)
  · rw [h.bootInfo]
    exact LaidOut.inRam h (by simp only; omega) (by simp only; omega)
  · exact LaidOut.inRam h (by decide) (by decide)
  · rw [h.bootInfo]
    exact LaidOut.inRam h (by simp only; omega) (by simp only; omega)

theorem LaidOut.writeBack (h : LaidOut m mapAt stack size) : AllWriteBack m smallInfo := by
  obtain ⟨hkernel, hhandoff, hram⟩ := h.map
  intro i hi _ _
  rw [h.count] at hi
  obtain rfl | rfl | rfl : i = 0 ∨ i = 1 ∨ i = 2 := by omega
  · rw [hkernel]
    rfl
  · rw [hhandoff]
    rfl
  · rw [hram]
    rfl

theorem LaidOut.stackGuards_eq (h : LaidOut m mapAt stack size) (hstack : 4096 ≤ stack) :
    stackGuards smallLayout (bootInfoAt m smallInfo) = [stack - 4096, stack + size, 0x104000, 0x109000] := by
  have hin := h.stackIn
  have hlow : Word64.sub stack 4096 = stack - 4096 := Word64.sub_eq hstack (by unfold Word64.size; omega)
  have hhigh : Word64.add stack size = stack + size := Word64.add_eq (by unfold Word64.size; omega)
  rw [h.bootInfo]
  unfold stackGuards
  simp only
  rw [hlow, hhigh]
  rfl

theorem LaidOut.guardsOk (h : LaidOut m mapAt stack size) (hlo : 0x201000 ≤ stack) (hsize : 4096 ≤ size)
    (hhi : stack + size + 4096 ≤ 0x223000) :
    GuardsOk (BootRam m smallInfo) (stackGuards smallLayout (bootInfoAt m smallInfo)) := by
  rw [LaidOut.stackGuards_eq h (by omega)]
  have ram : ∀ v, (0x100000 ≤ v ∧ v < 0x110000) ∨ (0x200000 ≤ v ∧ v < 0x223000) → BootRam m smallInfo v := by
    intro v hv
    rw [LaidOut.bootRam_iff h]
    omega
  -- an unaligned guard is checked in two pages, of which the first is cleared
  have guard : ∀ (S : ℕ → Prop) g, 0x100000 ≤ g → g + 4096 ≤ pmmLimit →
      (∀ v, v % 4096 = 0 → 4096 * (g / 4096) ≤ v → v < g + 4096 → S v) → InSet S g 4096 :=
    fun S g hlo hhi hall => ⟨by decide, hlo, hhi, hall⟩
  have hlimit : 0x223000 ≤ pmmLimit := by decide
  refine ⟨guard _ _ (by omega) (by omega) fun v hv hlo hhi => ram v (by omega),
    guard _ _ (by omega) (by omega) fun v hv hlo hhi => ⟨ram v (by omega), ?_⟩,
    guard _ _ (by decide) (by decide) fun v hv hlo hhi => ⟨⟨ram v (by omega), ?_⟩, ?_⟩,
    guard _ _ (by decide) (by decide) fun v hv hlo hhi => ⟨⟨⟨ram v (by omega), ?_⟩, ?_⟩, ?_⟩, trivial⟩
  all_goals
    intro g hg
    rw [List.mem_singleton] at hg
    omega

theorem LaidOut.ample (h : LaidOut m mapAt stack size) (cpu : Cpu) : Ample (prepared m cpu smallInfo) ∅ := by
  change 2057 + 0 ≤ countPages (bootEligible m smallInfo)
  rw [LaidOut.total h]
  decide

theorem LaidOut.bootable (h : LaidOut m mapAt stack size) (hlo : 0x201000 ≤ stack) (hsize : 4096 ≤ size)
    (hhi : stack + size + 4096 ≤ 0x223000) : Bootable smallLayout (prepared m smallCpu smallInfo) ∅ smallInfo where
  cpu := smallCpu_supported
  ample := LaidOut.ample h smallCpu
  writeBack := LaidOut.writeBack h
  regions := LaidOut.regions h
  guards := LaidOut.guardsOk h hlo hsize hhi

end LaidOut

def smallBefore : World := ⟨prepared smallMemory smallCpu smallInfo, Ledger.blank⟩

def smallAfter : World := next smallLayout smallInfo smallBefore .pagingInit

theorem small_bootRam {v : ℕ}
    (h : (0x100000 ≤ v ∧ v < 0x110000) ∨ (0x200000 ≤ v ∧ v < 0x223000)) :
    BootRam smallMemory smallInfo v := by
  rw [LaidOut.bootRam_iff small_laidOut]
  omega

theorem small_bootable : Bootable smallLayout (prepared smallMemory smallCpu smallInfo) ∅ smallInfo :=
  LaidOut.bootable small_laidOut (by decide) (by decide) (by decide)

theorem small_booted : Booted smallLayout smallInfo smallBefore smallAfter :=
  booted_of_bootable small_valid small_bootable

theorem small_address_space : Booted smallLayout smallInfo smallBefore smallAfter ∧
    translate smallAfter.machine.mem smallAfter.machine.pagingRoot 0x103000 ≠ none ∧
    translate smallAfter.machine.mem smallAfter.machine.pagingRoot 0x211000 = none := by
  refine ⟨small_booted, ?_, ?_⟩
  · refine (paging_init_address_space small_booted (v := 0x103000) rfl).1.mpr ⟨?_, ?_⟩
    · exact small_bootRam (by decide)
    · change ∀ g ∈ stackGuards smallLayout (bootInfoAt smallMemory smallInfo), _
      rw [small_bootInfo]
      decide
  · by_contra hne
    have := ((paging_init_address_space small_booted (v := 0x211000) rfl).1.mp hne).2
    refine this 0x211000 ?_ rfl
    change _ ∈ stackGuards smallLayout (bootInfoAt smallMemory smallInfo)
    rw [small_bootInfo]
    decide

theorem small_room : 2042 ≤ smallAfter.machine.pmm.freePages ∧ smallAfter.machine.pagingTableCount ≤ 2054 := by
  obtain ⟨-, hledger, hinst, hact⟩ := small_booted.cases
  have htotal : smallAfter.machine.pmm.totalPages = 4096 := hinst.frame.total.trans (LaidOut.total small_laidOut)
  have hheld : smallAfter.ledger.held.card = 0 := by
    rw [hledger]
    rfl
  have hsum := accounting hact.dyn.tree
  have hcount := hinst.built.count_le
  omega

/-- The page that `pmm_alloc` gives right after the start. -/
def smallPage : ℕ := (pmmAlloc smallAfter.machine.pmm (some 0)).2.1.getD 0

def smallCalls : List Call := [.pmmAlloc (some 0), .pagingMap 0xffff800000000000 (BitVec.ofNat 64 smallPage) 3]

theorem small_granted : (run smallLayout smallInfo smallAfter smallCalls).ledger =
    ⟨insert (smallPage / 4096) ∅, Function.update (fun _ => none) 0xffff800000000000 (some (smallPage, 3))⟩ := by
  obtain ⟨-, hledger, -, hact⟩ := small_booted.cases
  obtain ⟨hfree, hcount⟩ := small_room
  have hblank : smallAfter.ledger = Ledger.blank := hledger
  have hgranted := @ActiveWorld.alloc_map smallLayout smallInfo smallAfter.machine smallAfter hact (by omega) (by unfold maxTables; omega)
    0xffff800000000000 (by decide) 3 (by decide) (by rw [hblank]; rfl) smallPage rfl
  rw [hblank] at hgranted
  exact hgranted

theorem small_mapped : (run smallLayout smallInfo smallAfter smallCalls).ledger.mapping 0xffff800000000000 =
    some (smallPage, 3) := by
  rw [small_granted]
  simp only [Function.update_self]

def bootCalls : List Call := .pmmInit :: .pagingInit :: smallCalls

theorem run_bootCalls : run smallLayout smallInfo (World.powerOn smallMemory smallCpu) bootCalls =
    run smallLayout smallInfo smallAfter smallCalls := by
  have hstep : next smallLayout smallInfo (World.powerOn smallMemory smallCpu) .pmmInit = smallBefore :=
    run_pmmInit smallLayout smallCpu small_valid
  change run smallLayout smallInfo (next smallLayout smallInfo (next smallLayout smallInfo (World.powerOn smallMemory smallCpu)
    .pmmInit) .pagingInit) smallCalls = _
  rw [hstep]
  rfl

end Small

end OsByAi.PagingAddressSpace
