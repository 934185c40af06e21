import OsByAi.LoggedWord
import OsByAi.PmmRefinement

set_option autoImplicit false

namespace OsByAi.PmmAcceptance
open ByteMemory PackedBitmap BootInformation PmmModel PmmInvariant PmmBootMap PmmRefinement

def validRangeLogged (base size : ℕ) : Logged Bool :=
  Logged.both (pure (size != 0)) do
    let room ← Logged.sub (Word64.size - 1) size
    pure (decide (base ≤ room))

/-- `info->memory_map_size % info->descriptor_size == 0` -/
def wholeStrides (b : BootInfo) : Logged Bool := do
  let rest ← Logged.mod b.memoryMapSize b.descriptorSize
  pure (rest == 0)

def validBootInfoLogged (m : Memory) (info : ℕ) : Logged Bool :=
  let b := bootInfoAt m info
  Logged.both (pure (info != 0 && b.magic == bootInfoMagic && b.version == bootInfoVersion &&
    b.size == sizeofBootInfo && b.flags == bootServicesExited && b.memoryMap != 0 &&
    b.memoryMap % 8 == 0 && decide (sizeofDescriptor ≤ b.descriptorSize) &&
    b.descriptorSize % 8 == 0 && b.descriptorVersion == 1))
  (Logged.both (validRangeLogged b.memoryMap b.memoryMapSize)
  (Logged.both (pure (decide (b.memoryMapSize ≤ 65536)))
  (Logged.both (wholeStrides b)
  (Logged.both (validRangeLogged b.kernelBase b.kernelSize)
  (Logged.both (validRangeLogged b.stackBase b.stackSize)
    (validRangeLogged info sizeofBootInfo))))))

def descriptorLogged (m : Memory) (info index : ℕ) : Logged Descriptor := do
  let offset ← Logged.mul index (bootInfoAt m info).descriptorSize
  let address ← Logged.add (bootInfoAt m info).memoryMap offset
  pure (descriptorAt m address)

def validDescriptorLogged (d : Descriptor) : Logged Bool :=
  Logged.both (pure (d.physicalStart % pageSize == 0 && d.numberOfPages != 0)) do
    let room ← Logged.sub (Word64.size - 1) d.physicalStart
    let pages ← Logged.div room pageSize
    pure (decide (d.numberOfPages ≤ pages))

def limitLogged (d : Descriptor) : Logged ℕ := do
  let bytes ← Logged.mul d.numberOfPages 4096
  Logged.add d.physicalStart bytes

def apartLogged (m : Memory) (info : ℕ) (d : Descriptor) (stop j : ℕ) : Logged Bool := do
  let other ← descriptorLogged m info j
  let otherStop ← limitLogged other
  pure (!(decide (d.physicalStart < otherStop) && decide (other.physicalStart < stop)))

def validEntryLogged (m : Memory) (info i : ℕ) : Logged Bool := do
  let d ← descriptorLogged m info i
  Logged.both (validDescriptorLogged d) do
    let stop ← limitLogged d
    Logged.allBelow i (apartLogged m info d stop)

def countLogged (m : Memory) (info : ℕ) : Logged ℕ :=
  Logged.div (bootInfoAt m info).memoryMapSize (bootInfoAt m info).descriptorSize

def validMapRangesLogged (m : Memory) (info : ℕ) : Logged Bool := do
  let count ← countLogged m info
  Logged.allBelow count (validEntryLogged m info)

def markDescriptorLogged (m : Memory) (info : ℕ) (map : Bitmap) (i : ℕ) : Logged Bitmap := do
  let d ← descriptorLogged m info i
  if d.type != 7 || d.runtime then pure map else do
    let stop ← limitLogged d
    let stop := if stop > pmmLimit then pmmLimit else stop
    pure (setFrom map (clipBegin d / 4096) (stop / 4096 - clipBegin d / 4096))

def markUsablePagesLogged (m : Memory) (info : ℕ) (map : Bitmap) : Logged Bitmap := do
  let count ← countLogged m info
  Logged.foldBelow count (markDescriptorLogged m info) map

def reserveLogged (map : Bitmap) (base size : ℕ) : Logged Bitmap :=
  if base ≥ pmmLimit then pure map else do
    let sum ← Logged.add base size
    let up ← Logged.add (if sum > pmmLimit then pmmLimit else sum) 4095
    pure (clearFrom map (base / pageSize) (up / 4096 - base / pageSize))

def reserveBootRegionsLogged (m : Memory) (info : ℕ) (map : Bitmap) : Logged Bitmap := do
  let b := bootInfoAt m info
  let map ← reserveLogged map b.kernelBase b.kernelSize
  let map ← reserveLogged map info sizeofBootInfo
  let map ← reserveLogged map b.memoryMap b.memoryMapSize
  reserveLogged map b.stackBase b.stackSize

/-- The two validation steps at the head of `pmm_init`. -/
def acceptsLogged (m : Memory) (info : ℕ) (s : Pmm) : Logged Bool :=
  Logged.both (pure (!s.ready)) (Logged.both (validBootInfoLogged m info) (validMapRangesLogged m info))

def pmmInitLogged (m : Memory) (info : ℕ) (s : Pmm) : Logged (Bool × Pmm) := do
  let ok ← acceptsLogged m info s
  if !ok then pure (false, s) else do
    let eligible ← markUsablePagesLogged m info s.eligible
    let eligible ← reserveBootRegionsLogged m info eligible
    let total ← Logged.add s.totalPages (countPages eligible)
    pure (true, { s with eligible := eligible, totalPages := total, freePages := total, ready := true })

theorem value_validRange {base size : ℕ} (h : size < Word64.size) :
    (validRangeLogged base size).value = validRange base size := by
  have e : Word64.sub (Word64.size - 1) size = Word64.size - 1 - size :=
    Word64.sub_eq (by omega) (by decide)
  simp [validRangeLogged, validRange, e]

theorem value_validBootInfo (m : Memory) (info : ℕ) :
    (validBootInfoLogged m info).value = validBootInfo m info := by
  have hmap : (bootInfoAt m info).memoryMapSize < Word64.size := load_lt m (info + 24) 8
  have hkernel : (bootInfoAt m info).kernelSize < Word64.size := load_lt m (info + 56) 8
  have hstack : (bootInfoAt m info).stackSize < Word64.size := load_lt m (info + 72) 8
  simp only [validBootInfoLogged, validBootInfo, wholeStrides, Logged.value_both, Logged.value_pure,
    Logged.value_bind, Logged.value_mod]
  rw [value_validRange hmap, value_validRange hkernel, value_validRange hstack,
    value_validRange (by decide)]
  simp only [Bool.and_assoc]

theorem value_descriptor (m : Memory) (info i : ℕ) :
    (descriptorLogged m info i).value = descriptor m info i := by
  simp only [descriptorLogged, descriptor, Logged.value_bind, Logged.value_mul, Logged.value_add,
    Logged.value_pure]

theorem value_limit (d : Descriptor) : (limitLogged d).value = d.limit := by
  simp only [limitLogged, Descriptor.limit, Logged.value_bind, Logged.value_mul, Logged.value_add]

theorem value_count (m : Memory) (info : ℕ) : (countLogged m info).value = mapCount m info := by
  rw [countLogged, Logged.value_div, mapCount]

theorem value_validDescriptor {d : Descriptor} (h : d.physicalStart < Word64.size) :
    (validDescriptorLogged d).value = validDescriptor d := by
  have e : Word64.sub (Word64.size - 1) d.physicalStart = Word64.size - 1 - d.physicalStart :=
    Word64.sub_eq (by omega) (by decide)
  simp only [validDescriptorLogged, validDescriptor, Logged.value_both, Logged.value_pure,
    Logged.value_bind, Logged.value_sub, Logged.value_div, e]

theorem value_apart (m : Memory) (info : ℕ) (d : Descriptor) (j : ℕ) :
    (apartLogged m info d d.limit j).value = !overlaps d (descriptor m info j) := by
  unfold apartLogged overlaps
  rw [Logged.value_bind, value_descriptor, Logged.value_bind, value_limit, Logged.value_pure]

theorem value_validEntry (m : Memory) (info i : ℕ) :
    (validEntryLogged m info i).value = (validDescriptor (descriptor m info i) &&
      (List.range i).all fun j => !overlaps (descriptor m info i) (descriptor m info j)) := by
  have hd : (descriptor m info i).physicalStart < Word64.size := descriptorAt_start_lt _ _
  simp only [validEntryLogged, Logged.value_bind, value_descriptor, Logged.value_both,
    Logged.value_allBelow, value_validDescriptor hd, value_limit, value_apart]

theorem value_validMapRanges (m : Memory) (info : ℕ) :
    (validMapRangesLogged m info).value = validMapRanges m info := by
  simp only [validMapRangesLogged, validMapRanges, Logged.value_bind, Logged.value_allBelow,
    value_validEntry, value_count]

theorem value_markDescriptor (m : Memory) (info : ℕ) (map : Bitmap) (i : ℕ) :
    (markDescriptorLogged m info map i).value = markDescriptor map (descriptor m info i) := by
  unfold markDescriptorLogged markDescriptor
  rw [Logged.value_bind, value_descriptor]
  by_cases hskip : ((descriptor m info i).type != 7 || (descriptor m info i).runtime) = true
  · rw [if_pos hskip, if_pos hskip, Logged.value_pure]
  · rw [if_neg hskip, if_neg hskip, Logged.value_bind, value_limit, Logged.value_pure, clipEnd]

theorem value_markUsablePages (m : Memory) (info : ℕ) (map : Bitmap) :
    (markUsablePagesLogged m info map).value = markUsablePages m info map := by
  simp only [markUsablePagesLogged, markUsablePages, Logged.value_bind, Logged.value_foldBelow,
    value_markDescriptor, value_count]

theorem value_reserve (map : Bitmap) (base size : ℕ) :
    (reserveLogged map base size).value = reserve map base size := by
  unfold reserveLogged reserve
  split
  · rw [Logged.value_pure]
  · rw [Logged.value_bind, Logged.value_add, Logged.value_bind, Logged.value_add, Logged.value_pure]

theorem value_reserveBootRegions (m : Memory) (info : ℕ) (map : Bitmap) :
    (reserveBootRegionsLogged m info map).value = reserveBootRegions m info map := by
  simp only [reserveBootRegionsLogged, reserveBootRegions, Logged.value_bind, value_reserve]

theorem value_accepts (m : Memory) (info : ℕ) (s : Pmm) :
    (acceptsLogged m info s).value = (pmmInit m info s).1 := by
  simp only [acceptsLogged, Logged.value_both, Logged.value_pure, value_validBootInfo,
    value_validMapRanges, pmmInit]
  cases s.ready <;> cases validBootInfo m info <;> cases validMapRanges m info <;> rfl

def committed (m : Memory) (info : ℕ) (s : Pmm) : Pmm :=
  let eligible := reserveBootRegions m info (markUsablePages m info s.eligible)
  let total := Word64.add s.totalPages (countPages eligible)
  { s with eligible := eligible, totalPages := total, freePages := total, ready := true }

theorem init_split (m : Memory) (info : ℕ) (s : Pmm) :
    (¬ (s.ready = false ∧ ValidMap m info) ∧ pmmInit m info s = (false, s)) ∨
      ((s.ready = false ∧ ValidMap m info) ∧ pmmInit m info s = (true, committed m info s)) := by
  by_cases hr : s.ready = true
  · exact .inl ⟨by simp [hr], by simp [pmmInit, hr]⟩
  · have hr' : s.ready = false := by simpa using hr
    by_cases hb : validBootInfo m info = true
    · by_cases hm : validMapRanges m info = true
      · exact .inr ⟨⟨hr', hb, hm⟩, by simp [pmmInit, hr', hb, hm, committed]⟩
      · exact .inl ⟨fun hc => hm hc.2.ranges, by simp [pmmInit, hr', hb, hm]⟩
    · exact .inl ⟨fun hc => hb hc.2.header, by simp [pmmInit, hr', hb]⟩

theorem value_pmmInit (m : Memory) (info : ℕ) (s : Pmm) :
    (pmmInitLogged m info s).value = pmmInit m info s := by
  simp only [pmmInitLogged, Logged.value_bind, value_accepts]
  obtain ⟨-, he⟩ | ⟨-, he⟩ := init_split m info s
  · rw [he]
    simp only [Bool.not_false, if_true, Logged.value_pure]
  · rw [he]
    simp only [Bool.not_true, Bool.false_eq_true, if_false, Logged.value_bind,
      value_markUsablePages, value_reserveBootRegions, Logged.value_add, Logged.value_pure, committed]

section Clean

variable {m : Memory} {info : ℕ} {P : Logged.Event → Prop}

theorem only_validRange {base size : ℕ} (h : size < Word64.size) :
    Logged.Only P (validRangeLogged base size) := by
  refine Logged.only_both (Logged.only_pure _) fun _ => ?_
  exact Logged.only_bind (Logged.only_sub (by omega)) (Logged.only_pure _)

theorem only_wholeStrides {b : BootInfo} (h : b.descriptorSize ≠ 0) :
    Logged.Only P (wholeStrides b) :=
  Logged.only_bind (Logged.only_mod h) (Logged.only_pure _)

theorem only_validBootInfo (m : Memory) (info : ℕ) : Logged.Only P (validBootInfoLogged m info) := by
  have hmap : (bootInfoAt m info).memoryMapSize < Word64.size := load_lt m (info + 24) 8
  have hkernel : (bootInfoAt m info).kernelSize < Word64.size := load_lt m (info + 56) 8
  have hstack : (bootInfoAt m info).stackSize < Word64.size := load_lt m (info + 72) 8
  refine Logged.only_both (Logged.only_pure _) fun hhead => ?_
  simp only [Logged.value_pure, Bool.and_eq_true, decide_eq_true_eq] at hhead
  have hstride : (bootInfoAt m info).descriptorSize ≠ 0 := by
    have := hhead.1.1.2
    unfold sizeofDescriptor at this
    omega
  refine Logged.only_both (only_validRange hmap) fun _ => ?_
  refine Logged.only_both (Logged.only_pure _) fun _ => ?_
  refine Logged.only_both (only_wholeStrides hstride) fun _ => ?_
  refine Logged.only_both (only_validRange hkernel) fun _ => ?_
  refine Logged.only_both (only_validRange hstack) fun _ => ?_
  exact only_validRange (by decide)

theorem only_descriptor (h : validBootInfo m info = true) {i : ℕ} (hi : i < mapCount m info) :
    Logged.Only P (descriptorLogged m info i) := by
  obtain ⟨-, -, -, ⟨-, hend⟩, -⟩ := header_fields h
  obtain ⟨-, hfit⟩ := descriptor_address h hi
  have hmul : i * (bootInfoAt m info).descriptorSize < Word64.size := by omega
  refine Logged.only_bind (Logged.only_mul hmul) ?_
  rw [Logged.value_mul, Word64.mul_eq hmul]
  exact Logged.only_bind (Logged.only_add (by omega)) (Logged.only_pure _)

theorem only_validDescriptor {d : Descriptor} (hs : d.physicalStart < Word64.size) :
    Logged.Only P (validDescriptorLogged d) := by
  refine Logged.only_both (Logged.only_pure _) fun _ => ?_
  refine Logged.only_bind (Logged.only_sub (by omega)) ?_
  exact Logged.only_bind (Logged.only_div (by decide)) (Logged.only_pure _)

theorem only_limit {d : Descriptor} (hv : validDescriptor d = true)
    (hs : d.physicalStart < Word64.size) : Logged.Only P (limitLogged d) := by
  obtain ⟨-, -, hn⟩ := validDescriptor_iff hv
  have hle := (Nat.le_div_iff_mul_le (by decide)).mp hn
  have hmul : d.numberOfPages * 4096 < Word64.size := by omega
  refine Logged.only_bind (Logged.only_mul hmul) ?_
  rw [Logged.value_mul, Word64.mul_eq hmul]
  exact Logged.only_add (by omega)

/-- The sums over an earlier descriptor are safe because its own iteration accepted it. -/
theorem only_validEntry (h : validBootInfo m info = true) {i : ℕ} (hi : i < mapCount m info)
    (hprev : ∀ j, j < i → validDescriptor (descriptor m info j) = true) :
    Logged.Only P (validEntryLogged m info i) := by
  have hstart : ∀ j, (descriptor m info j).physicalStart < Word64.size :=
    fun j => descriptorAt_start_lt _ _
  refine Logged.only_bind (only_descriptor h hi) ?_
  rw [value_descriptor]
  refine Logged.only_both (only_validDescriptor (hstart i)) fun hv => ?_
  rw [value_validDescriptor (hstart i)] at hv
  refine Logged.only_bind (only_limit hv (hstart i)) ?_
  apply Logged.only_allBelow
  intro j hj _
  refine Logged.only_bind (only_descriptor h (hj.trans hi)) ?_
  rw [value_descriptor]
  exact Logged.only_bind (only_limit (hprev j hj) (hstart j)) (Logged.only_pure _)

theorem only_count (h : validBootInfo m info = true) : Logged.Only P (countLogged m info) := by
  have hd := (header_fields h).1
  unfold sizeofDescriptor at hd
  exact Logged.only_div (by omega)

theorem only_validMapRanges (h : validBootInfo m info = true) :
    Logged.Only P (validMapRangesLogged m info) := by
  refine Logged.only_bind (only_count h) ?_
  rw [value_count]
  apply Logged.only_allBelow
  intro i hi hprev
  refine only_validEntry h hi ?_
  intro j hj
  have := hprev j hj
  rw [value_validEntry, Bool.and_eq_true] at this
  exact this.1

theorem only_accepts (m : Memory) (info : ℕ) (s : Pmm) : Logged.Only P (acceptsLogged m info s) := by
  refine Logged.only_both (Logged.only_pure _) fun _ => ?_
  refine Logged.only_both (only_validBootInfo m info) fun hb => ?_
  rw [value_validBootInfo] at hb
  exact only_validMapRanges hb

theorem only_markUsablePages (h : ValidMap m info) (map : Bitmap) :
    Logged.Only P (markUsablePagesLogged m info map) := by
  refine Logged.only_bind (only_count h.header) ?_
  rw [value_count]
  apply Logged.only_foldBelow
  intro acc i hi
  refine Logged.only_bind (only_descriptor h.header hi) ?_
  rw [value_descriptor]
  split
  · exact Logged.only_pure _
  · exact Logged.only_bind (only_limit (h.descriptor_valid hi) (descriptorAt_start_lt _ _))
      (Logged.only_pure _)

theorem only_reserve (map : Bitmap) {base size : ℕ} (h : base + size < Word64.size) :
    Logged.Only P (reserveLogged map base size) := by
  unfold reserveLogged
  split
  · exact Logged.only_pure _
  · refine Logged.only_bind (Logged.only_add h) (Logged.only_bind (Logged.only_add ?_)
      (Logged.only_pure _))
    unfold pmmLimit Word64.size
    split <;> omega

theorem only_reserveBootRegions (h : ValidMap m info) (map : Bitmap) :
    Logged.Only P (reserveBootRegionsLogged m info map) := by
  obtain ⟨-, -, -, hmap, hker, hst, hinf⟩ := header_fields h.header
  refine Logged.only_bind (only_reserve _ hker.2) ?_
  refine Logged.only_bind (only_reserve _ hinf) ?_
  exact Logged.only_bind (only_reserve _ hmap.2) (only_reserve _ hst.2)

theorem only_pmmInit {s : Pmm} (h : Inv s) (m : Memory) (info : ℕ) :
    Logged.Only P (pmmInitLogged m info s) := by
  refine Logged.only_bind (only_accepts m info s) ?_
  rw [value_accepts]
  obtain ⟨-, he⟩ | ⟨⟨hr, hv⟩, he⟩ := init_split m info s
  · rw [he]
    exact Logged.only_pure _
  · rw [he]
    refine Logged.only_bind (only_markUsablePages hv _) ?_
    refine Logged.only_bind (only_reserveBootRegions hv _) ?_
    refine Logged.only_bind (Logged.only_add ?_) (Logged.only_pure _)
    have hzero : s.totalPages = 0 := by rw [h.cold hr, bss]
    have := pageCount_lt_size
    rw [hzero, countPages_eq]
    exact (Nat.zero_add _).trans_lt ((card_pagesOf_le _).trans_lt this)

end Clean

def bytes (d : Descriptor) : Set ℕ :=
  Set.Ico d.physicalStart (d.physicalStart + 4096 * d.numberOfPages)

def pageBytes (page : ℕ) : Set ℕ := Set.Ico (4096 * page) (4096 * (page + 1))

def Spares (base size page : ℕ) : Prop := Disjoint (pageBytes page) (Set.Ico base (base + size))

structure Managed (m : Memory) (info page : ℕ) : Prop where
  low : 0x100000 ≤ 4096 * page
  high : 4096 * page < 0x100000000
  conventional : ∃ i, i < mapCount m info ∧ (descriptor m info i).type = 7 ∧
    (descriptor m info i).runtime = false ∧ pageBytes page ⊆ bytes (descriptor m info i)
  kernel : Spares (bootInfoAt m info).kernelBase (bootInfoAt m info).kernelSize page
  information : Spares info sizeofBootInfo page
  memoryMap : Spares (bootInfoAt m info).memoryMap (bootInfoAt m info).memoryMapSize page
  stack : Spares (bootInfoAt m info).stackBase (bootInfoAt m info).stackSize page

theorem spares_iff {base size page : ℕ} (hs : size ≠ 0) :
    Spares base size page ↔ ¬ Touches base size page := by
  unfold Spares pageBytes Touches
  rw [Set.Ico_disjoint_Ico]
  omega

theorem pageBytes_subset (d : Descriptor) (page : ℕ) :
    pageBytes page ⊆ bytes d ↔ Descriptor.Covers d page := by
  unfold pageBytes bytes Descriptor.Covers
  rw [Set.Ico_subset_Ico_iff (by omega)]

theorem managed_iff {m : Memory} {info : ℕ} (h : ValidMap m info) (page : ℕ) :
    bit (bootEligible m info) page = true ↔ Managed m info page := by
  obtain ⟨-, -, -, hmap, hker, hst, -⟩ := header_fields h.header
  have hregion : ¬ BootRegion m info page ↔
      Spares (bootInfoAt m info).kernelBase (bootInfoAt m info).kernelSize page ∧
      Spares info sizeofBootInfo page ∧
      Spares (bootInfoAt m info).memoryMap (bootInfoAt m info).memoryMapSize page ∧
      Spares (bootInfoAt m info).stackBase (bootInfoAt m info).stackSize page := by
    unfold BootRegion
    rw [spares_iff hker.1, spares_iff (by decide), spares_iff hmap.1, spares_iff hst.1]
    simp only [not_or]
  rw [bit_bootEligible h, hregion, pageCount_eq]
  constructor
  · rintro ⟨hlo, hhi, ⟨i, hi, ht, hr, hc⟩, hk, hin, hm, hs⟩
    exact ⟨by omega, by omega, ⟨i, hi, ht, hr, (pageBytes_subset _ _).mpr hc⟩, hk, hin, hm, hs⟩
  · rintro ⟨hlo, hhi, ⟨i, hi, ht, hr, hc⟩, hk, hin, hm, hs⟩
    exact ⟨by omega, by omega, ⟨i, hi, ht, hr, (pageBytes_subset _ _).mp hc⟩, hk, hin, hm, hs⟩

/-- Whenever `pmm_init` accepts, in whatever run, it manages exactly the pages that are whole,
    conventional and not in use, and its arithmetic is that of the integers. -/
theorem pmm_init_manages (calls : List Call) (m : Memory) (info : ℕ)
    (hok : (pmmInit m info (run calls).1).1 = true) :
    (∀ page, bit (pmmInit m info (run calls).1).2.eligible page = true ↔ Managed m info page) ∧
    (pmmInitLogged m info (run calls).1).value = pmmInit m info (run calls).1 ∧
    Logged.Only (· ≠ .fault) (pmmInitLogged m info (run calls).1) := by
  have hmatch : Matches (run calls).1 (run calls).2 := foldl_matches calls start_matches
  refine ⟨?_, value_pmmInit m info _, only_pmmInit hmatch.inv m info⟩
  intro page
  obtain ⟨hno, -⟩ | ⟨-, hv, he⟩ := init_cases hmatch.inv m info
  · rw [hno] at hok
    exact absurd hok (by simp)
  · rw [he, ← managed_iff hv page]
    simp only [initialised]

theorem small_manages : (pmmInit smallMemory smallInfo (run []).1).1 = true ∧
    ∀ page, bit (pmmInit smallMemory smallInfo (run []).1).2.eligible page = true ↔
      Managed smallMemory smallInfo page := by
  have hok : (pmmInit smallMemory smallInfo (run []).1).1 = true := by
    obtain ⟨-, hno⟩ | ⟨-, -, he⟩ := init_cases bss_inv smallMemory smallInfo
    · exact absurd ⟨rfl, small_valid⟩ hno
    · exact congrArg Prod.fst he
  exact ⟨hok, (pmm_init_manages [] smallMemory smallInfo hok).1⟩

/-- The descriptors as intervals of unbounded integers, in no particular order. -/
structure WellFormedMap (m : Memory) (info : ℕ) : Prop where
  aligned : ∀ i < mapCount m info, (descriptor m info i).physicalStart % 4096 = 0
  nonempty : ∀ i < mapCount m info, (descriptor m info i).numberOfPages ≠ 0
  bounded : ∀ i < mapCount m info, (descriptor m info i).physicalStart +
    4096 * (descriptor m info i).numberOfPages ≤ 2 ^ 64 - 1
  disjoint : Set.PairwiseDisjoint {i | i < mapCount m info} fun i => bytes (descriptor m info i)

theorem validDescriptor_of {d : Descriptor} (ha : d.physicalStart % 4096 = 0)
    (hn : d.numberOfPages ≠ 0) (hb : d.physicalStart + 4096 * d.numberOfPages ≤ 2 ^ 64 - 1) :
    validDescriptor d = true := by
  have hpages : d.numberOfPages ≤ (Word64.size - 1 - d.physicalStart) / pageSize := by
    rw [Nat.le_div_iff_mul_le (by decide)]
    unfold Word64.size pageSize
    omega
  simp only [validDescriptor, Bool.and_eq_true, beq_iff_eq, bne_iff_ne]
  exact ⟨⟨ha, hn⟩, decide_eq_true hpages⟩

theorem wellFormed_iff {m : Memory} {info : ℕ} (hb : validBootInfo m info = true) :
    validMapRanges m info = true ↔ WellFormedMap m info := by
  constructor
  · intro hr
    have h : ValidMap m info := ⟨hb, hr⟩
    refine ⟨fun i hi => h.aligned hi, fun i hi => (validDescriptor_iff (h.descriptor_valid hi)).2.1,
      ?_, ?_⟩
    · intro i hi
      obtain ⟨heq, hlt⟩ := limit_eq (h.descriptor_valid hi) (descriptorAt_start_lt _ _)
      rw [heq] at hlt
      unfold Word64.size at hlt
      exact Nat.le_sub_one_of_lt hlt
    · intro i hi j hj hij
      have := h.disjoint hi hj hij
      rw [h.limit hi, h.limit hj] at this
      change Disjoint (bytes _) (bytes _)
      unfold bytes
      rw [Set.Ico_disjoint_Ico]
      omega
  · intro h
    have hvalid : ∀ i < mapCount m info, validDescriptor (descriptor m info i) = true :=
      fun i hi => validDescriptor_of (h.aligned i hi) (h.nonempty i hi) (h.bounded i hi)
    rw [validMapRanges, List.all_eq_true]
    intro i hi
    have hi' := List.mem_range.mp hi
    rw [Bool.and_eq_true, List.all_eq_true]
    refine ⟨hvalid i hi', ?_⟩
    intro j hj
    have hj' := List.mem_range.mp hj
    have hdis : Disjoint (bytes (descriptor m info i)) (bytes (descriptor m info j)) :=
      h.disjoint hi' (hj'.trans hi') (by omega)
    unfold bytes at hdis
    rw [Set.Ico_disjoint_Ico] at hdis
    have hni := h.nonempty i hi'
    have hnj := h.nonempty j (hj'.trans hi')
    simp only [overlaps, Bool.not_eq_true', Bool.and_eq_false_iff, decide_eq_false_iff_not, Nat.not_lt]
    rw [(limit_eq (hvalid i hi') (descriptorAt_start_lt _ _)).1,
      (limit_eq (hvalid j (hj'.trans hi')) (descriptorAt_start_lt _ _)).1]
    omega

def attempts (s : Pmm) (calls : List (Memory × ℕ)) : Pmm :=
  calls.foldl (fun s c => (pmmInit c.1 c.2 s).2) s

theorem attempts_rejected {s : Pmm} (calls : List (Memory × ℕ))
    (h : ∀ c ∈ calls, (pmmInit c.1 c.2 s).1 = false) : attempts s calls = s := by
  induction calls with
  | nil => rfl
  | cons c calls ih =>
    have hs : (pmmInit c.1 c.2 s).2 = s := by
      obtain ⟨-, he⟩ | ⟨-, he⟩ := init_split c.1 c.2 s
      · rw [he]
      · have := h c List.mem_cons_self
        rw [he] at this
        exact absurd this (by simp)
    rw [attempts, List.foldl_cons, hs]
    exact ih fun c' hc' => h c' (List.mem_cons_of_mem c hc')

/-- `pmm_init` accepts exactly the well-formed maps, decides without a wrap or a division by
    zero, and leaves no trace of the maps that it rejects. -/
theorem pmm_init_accepts (s : Pmm) (m : Memory) (info : ℕ) :
    ((pmmInit m info s).1 = true ↔
      s.ready = false ∧ validBootInfo m info = true ∧ WellFormedMap m info) ∧
    (acceptsLogged m info s).value = (pmmInit m info s).1 ∧
    Logged.Only (· ≠ .fault) (acceptsLogged m info s) ∧
    ((pmmInit m info s).1 = false → (pmmInit m info s).2 = s) ∧
    ∀ calls : List (Memory × ℕ), (∀ c ∈ calls, (pmmInit c.1 c.2 s).1 = false) →
      pmmInit m info (attempts s calls) = pmmInit m info s := by
  refine ⟨?_, value_accepts m info s, only_accepts m info s, ?_, ?_⟩
  · obtain ⟨hno, he⟩ | ⟨⟨hr, hv⟩, he⟩ := init_split m info s
    · rw [he]
      constructor
      · exact fun h => absurd h (by simp)
      · rintro ⟨hr, hb, hw⟩
        exact absurd ⟨hr, hb, (wellFormed_iff hb).mpr hw⟩ hno
    · rw [he]
      exact ⟨fun _ => ⟨hr, hv.header, (wellFormed_iff hv.header).mp hv.ranges⟩, fun _ => rfl⟩
  · intro hf
    obtain ⟨-, he⟩ | ⟨-, he⟩ := init_split m info s
    · rw [he]
    · rw [he] at hf
      exact absurd hf (by simp)
  · intro calls h
    rw [attempts_rejected calls h]

end OsByAi.PmmAcceptance
