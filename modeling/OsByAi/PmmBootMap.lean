import OsByAi.PmmInvariant

set_option autoImplicit false

namespace OsByAi.PmmBootMap
open ByteMemory PackedBitmap BootInformation PmmModel PmmInvariant

/-- The checks of `pmm_init` that do not concern its own state. -/
structure ValidMap (m : Memory) (info : ℕ) : Prop where
  header : validBootInfo m info = true
  ranges : validMapRanges m info = true

def bootEligible (m : Memory) (info : ℕ) : Bitmap :=
  reserveBootRegions m info (markUsablePages m info empty)

def Touches (base size page : ℕ) : Prop := base < 4096 * (page + 1) ∧ 4096 * page < base + size

def Descriptor.Covers (d : Descriptor) (page : ℕ) : Prop :=
  d.physicalStart ≤ 4096 * page ∧ 4096 * (page + 1) ≤ d.physicalStart + 4096 * d.numberOfPages

theorem descriptorAt_start_lt (m : Memory) (a : ℕ) : (descriptorAt m a).physicalStart < Word64.size :=
  load_lt m (a + 8) 8

theorem validDescriptor_iff {d : Descriptor} (h : validDescriptor d = true) :
    d.physicalStart % 4096 = 0 ∧ d.numberOfPages ≠ 0 ∧
      d.numberOfPages ≤ (Word64.size - 1 - d.physicalStart) / 4096 := by
  simp only [validDescriptor, pageSize, Bool.and_eq_true, beq_iff_eq, bne_iff_ne] at h
  exact ⟨h.1.1, h.1.2, of_decide_eq_true h.2⟩

theorem limit_eq {d : Descriptor} (h : validDescriptor d = true) (hs : d.physicalStart < Word64.size) :
    d.limit = d.physicalStart + 4096 * d.numberOfPages ∧ d.limit < Word64.size := by
  obtain ⟨-, -, hn⟩ := validDescriptor_iff h
  have hle : 4096 * d.numberOfPages ≤ Word64.size - 1 - d.physicalStart := by
    have := (Nat.le_div_iff_mul_le (by decide)).mp hn
    omega
  have hsum : d.physicalStart + d.numberOfPages * 4096 < Word64.size := by omega
  have e : d.limit = d.physicalStart + d.numberOfPages * 4096 := by
    unfold Descriptor.limit
    rw [Word64.mul_eq (by omega), Word64.add_eq hsum]
  omega

theorem clipBegin_aligned {d : Descriptor} (h : validDescriptor d = true) : clipBegin d % 4096 = 0 := by
  obtain ⟨hal, -, -⟩ := validDescriptor_iff h
  unfold clipBegin
  split <;> omega

theorem clipEnd_le (d : Descriptor) : clipEnd d ≤ pmmLimit := by
  unfold clipEnd
  split <;> omega

theorem clipEnd_aligned {d : Descriptor} (h : validDescriptor d = true) (hs : d.physicalStart < Word64.size) :
    clipEnd d % 4096 = 0 := by
  obtain ⟨hal, -, -⟩ := validDescriptor_iff h
  obtain ⟨hl, -⟩ := limit_eq h hs
  unfold clipEnd
  rw [hl]
  unfold pmmLimit
  split <;> omega

theorem ValidMap.descriptor_valid {m : Memory} {info i : ℕ} (h : ValidMap m info)
    (hi : i < mapCount m info) : validDescriptor (descriptor m info i) = true := by
  have hr := h.ranges
  rw [validMapRanges, List.all_eq_true] at hr
  have := hr i (List.mem_range.mpr hi)
  rw [Bool.and_eq_true] at this
  exact this.1

theorem ValidMap.limit {m : Memory} {info i : ℕ} (h : ValidMap m info) (hi : i < mapCount m info) :
    (descriptor m info i).limit =
      (descriptor m info i).physicalStart + 4096 * (descriptor m info i).numberOfPages :=
  (limit_eq (h.descriptor_valid hi) (descriptorAt_start_lt _ _)).1

theorem ValidMap.aligned {m : Memory} {info i : ℕ} (h : ValidMap m info) (hi : i < mapCount m info) :
    (descriptor m info i).physicalStart % 4096 = 0 :=
  (validDescriptor_iff (h.descriptor_valid hi)).1

theorem ValidMap.disjoint {m : Memory} {info i j : ℕ} (h : ValidMap m info)
    (hi : i < mapCount m info) (hj : j < mapCount m info) (hij : i ≠ j) :
    (descriptor m info i).limit ≤ (descriptor m info j).physicalStart ∨
      (descriptor m info j).limit ≤ (descriptor m info i).physicalStart := by
  have key : ∀ a b, a < b → b < mapCount m info →
      (descriptor m info a).limit ≤ (descriptor m info b).physicalStart ∨
        (descriptor m info b).limit ≤ (descriptor m info a).physicalStart := by
    intro a b hab hb
    have hr := h.ranges
    rw [validMapRanges, List.all_eq_true] at hr
    have hb' := hr b (List.mem_range.mpr hb)
    rw [Bool.and_eq_true, List.all_eq_true] at hb'
    have hno := hb'.2 a (List.mem_range.mpr hab)
    simp only [overlaps, Bool.not_eq_true', Bool.and_eq_false_iff, decide_eq_false_iff_not,
      Nat.not_lt] at hno
    exact hno
  rcases Nat.lt_or_gt_of_ne hij with hlt | hlt
  · exact key i j hlt hj
  · exact (key j i hlt hi).symm

theorem bit_markDescriptor (map : Bitmap) {d : Descriptor} (hv : validDescriptor d = true)
    (hs : d.physicalStart < Word64.size) (page : ℕ) :
    bit (markDescriptor map d) page = true ↔
      (d.type = 7 ∧ d.runtime = false ∧ 256 ≤ page ∧ page < pageCount ∧ Descriptor.Covers d page) ∨
        bit map page = true := by
  unfold markDescriptor
  by_cases hskip : (d.type != 7 || d.runtime) = true
  · rw [if_pos hskip]
    simp only [Bool.or_eq_true, bne_iff_ne] at hskip
    constructor
    · exact .inr
    · rintro (⟨ht, hr, -⟩ | hb)
      · rcases hskip with hne | hrt
        · exact absurd ht hne
        · rw [hr] at hrt
          exact absurd hrt (by simp)
      · exact hb
  · rw [if_neg hskip, bit_setFrom]
    simp only [Bool.or_eq_true, bne_iff_ne, not_or, not_not, Bool.not_eq_true] at hskip
    obtain ⟨hal, -, -⟩ := validDescriptor_iff hv
    obtain ⟨hl, -⟩ := limit_eq hv hs
    have hrange : (clipBegin d / 4096 ≤ page ∧
          page < clipBegin d / 4096 + (clipEnd d / 4096 - clipBegin d / 4096)) ↔
        256 ≤ page ∧ page < pageCount ∧ Descriptor.Covers d page := by
      rw [pageCount_eq, Descriptor.Covers, clipBegin, clipEnd, hl]
      unfold pmmLimit
      split <;> split <;> omega
    rw [hrange]
    simp [hskip.1, hskip.2]

theorem bit_markUsablePages {m : Memory} {info : ℕ} (h : ValidMap m info) (map : Bitmap) (page : ℕ) :
    bit (markUsablePages m info map) page = true ↔
      (∃ i, i < mapCount m info ∧ (descriptor m info i).type = 7 ∧
        (descriptor m info i).runtime = false ∧ 256 ≤ page ∧ page < pageCount ∧
        Descriptor.Covers (descriptor m info i) page) ∨ bit map page = true := by
  have key : ∀ n, n ≤ mapCount m info →
      (bit ((List.range n).foldl (fun map i => markDescriptor map (descriptor m info i)) map) page =
        true ↔ (∃ i, i < n ∧ (descriptor m info i).type = 7 ∧
          (descriptor m info i).runtime = false ∧ 256 ≤ page ∧ page < pageCount ∧
          Descriptor.Covers (descriptor m info i) page) ∨ bit map page = true) := by
    intro n hn
    induction n with
    | zero => simp
    | succ n ih =>
      rw [List.range_succ, List.foldl_append, List.foldl_cons, List.foldl_nil,
        bit_markDescriptor _ (h.descriptor_valid (by omega)) (descriptorAt_start_lt _ _),
        ih (by omega)]
      constructor
      · rintro (hd | ⟨i, hi, hd⟩ | hb)
        · exact .inl ⟨n, by omega, hd⟩
        · exact .inl ⟨i, by omega, hd⟩
        · exact .inr hb
      · rintro (⟨i, hi, hd⟩ | hb)
        · by_cases he : i = n
          · subst i
            exact .inl hd
          · exact .inr (.inl ⟨i, by omega, hd⟩)
        · exact .inr (.inr hb)
  exact key _ (le_refl _)

theorem validRange_iff {base size : ℕ} (h : validRange base size = true) (hs : size < Word64.size) :
    size ≠ 0 ∧ base + size < Word64.size := by
  simp only [validRange, Bool.and_eq_true, bne_iff_ne, decide_eq_true_eq] at h
  exact ⟨h.1, by omega⟩

theorem bit_reserve (map : Bitmap) {base size page : ℕ} (h : base + size < Word64.size)
    (hp : page < pageCount) :
    bit (reserve map base size) page = true ↔ ¬ Touches base size page ∧ bit map page = true := by
  rw [pageCount_eq] at hp
  unfold reserve Touches
  by_cases hb : base ≥ pmmLimit
  · rw [if_pos hb]
    unfold pmmLimit at hb
    constructor
    · exact fun hm => ⟨by omega, hm⟩
    · exact fun hm => hm.2
  · rw [if_neg hb]
    have hstop : ∀ stop, stop ≤ pmmLimit → Word64.add stop 4095 = stop + 4095 := by
      intro stop hle
      apply Word64.add_eq
      unfold pmmLimit at hle
      unfold Word64.size
      omega
    simp only [Word64.add_eq h, pageSize]
    rw [hstop _ (by split <;> omega), bit_clearFrom]
    have hiff : (base / 4096 ≤ page ∧ page < base / 4096 +
          (((if base + size > pmmLimit then pmmLimit else base + size) + 4095) / 4096 - base / 4096)) ↔
        (base < 4096 * (page + 1) ∧ 4096 * page < base + size) := by
      unfold pmmLimit
      split <;> omega
    rw [hiff]

theorem header_fields {m : Memory} {info : ℕ} (hv : validBootInfo m info = true) :
    sizeofDescriptor ≤ (bootInfoAt m info).descriptorSize ∧
    (bootInfoAt m info).memoryMapSize ≤ 65536 ∧
    (bootInfoAt m info).memoryMapSize % (bootInfoAt m info).descriptorSize = 0 ∧
    ((bootInfoAt m info).memoryMapSize ≠ 0 ∧
      (bootInfoAt m info).memoryMap + (bootInfoAt m info).memoryMapSize < Word64.size) ∧
    ((bootInfoAt m info).kernelSize ≠ 0 ∧
      (bootInfoAt m info).kernelBase + (bootInfoAt m info).kernelSize < Word64.size) ∧
    ((bootInfoAt m info).stackSize ≠ 0 ∧
      (bootInfoAt m info).stackBase + (bootInfoAt m info).stackSize < Word64.size) ∧
    info + sizeofBootInfo < Word64.size := by
  simp only [validBootInfo, Bool.and_eq_true, bne_iff_ne, beq_iff_eq, decide_eq_true_eq] at hv
  obtain ⟨⟨⟨⟨⟨⟨⟨⟨⟨_, hd⟩, _⟩, _⟩, hm⟩, hm64⟩, hmod⟩, hk⟩, hst⟩, hi⟩ := hv
  exact ⟨hd, hm64, hmod, validRange_iff hm (load_lt _ _ 8), validRange_iff hk (load_lt _ _ 8),
    validRange_iff hst (load_lt _ _ 8), (validRange_iff hi (by decide)).2⟩

theorem info_ne_zero {m : Memory} {info : ℕ} (hv : validBootInfo m info = true) : info ≠ 0 := by
  simp only [validBootInfo, Bool.and_eq_true, bne_iff_ne] at hv
  exact hv.1.1.1.1.1.1.1.1.1.1.1.1.1.1.1

/-- Page `page` meets one of the four regions that the kernel is using. -/
def BootRegion (m : Memory) (info page : ℕ) : Prop :=
  Touches (bootInfoAt m info).kernelBase (bootInfoAt m info).kernelSize page ∨
    Touches info sizeofBootInfo page ∨
    Touches (bootInfoAt m info).memoryMap (bootInfoAt m info).memoryMapSize page ∨
    Touches (bootInfoAt m info).stackBase (bootInfoAt m info).stackSize page

/-- Page `page` lies in a descriptor of conventional memory without the runtime attribute. -/
def Conventional (m : Memory) (info page : ℕ) : Prop :=
  ∃ i, i < mapCount m info ∧ (descriptor m info i).type = 7 ∧
    (descriptor m info i).runtime = false ∧ Descriptor.Covers (descriptor m info i) page

theorem bit_bootEligible {m : Memory} {info : ℕ} (h : ValidMap m info) (page : ℕ) :
    bit (bootEligible m info) page = true ↔
      256 ≤ page ∧ page < pageCount ∧ Conventional m info page ∧ ¬ BootRegion m info page := by
  obtain ⟨-, -, -, hmap, hker, hst, hinf⟩ := header_fields h.header
  have hmark : bit (markUsablePages m info empty) page = true ↔
      256 ≤ page ∧ page < pageCount ∧ Conventional m info page := by
    rw [bit_markUsablePages h, bit_empty, Conventional]
    constructor
    · rintro (⟨i, hi, ht, hr, hlo, hhi, hc⟩ | hf)
      · exact ⟨hlo, hhi, i, hi, ht, hr, hc⟩
      · exact absurd hf (by simp)
    · rintro ⟨hlo, hhi, i, hi, ht, hr, hc⟩
      exact .inl ⟨i, hi, ht, hr, hlo, hhi, hc⟩
  by_cases hp : page < pageCount
  · simp only [bootEligible, reserveBootRegions]
    rw [bit_reserve _ hst.2 hp, bit_reserve _ hmap.2 hp, bit_reserve _ hinf hp,
      bit_reserve _ hker.2 hp, hmark]
    constructor
    · rintro ⟨hs, hm, hi, hk, hlo, hhi, hc⟩
      refine ⟨hlo, hhi, hc, ?_⟩
      rintro (ht | ht | ht | ht)
      · exact hk ht
      · exact hi ht
      · exact hm ht
      · exact hs ht
    · rintro ⟨hlo, hhi, hc, hn⟩
      exact ⟨fun ht => hn (.inr (.inr (.inr ht))), fun ht => hn (.inr (.inr (.inl ht))),
        fun ht => hn (.inr (.inl ht)), fun ht => hn (.inl ht), hlo, hhi, hc⟩
  · constructor
    · intro hb
      -- clearing never sets a bit, so a bit beyond the limit would have been marked
      exfalso
      have hsub : ∀ (map : Bitmap) (base size : ℕ), bit (reserve map base size) page = true →
          bit map page = true := by
        intro map base size hbit
        unfold reserve at hbit
        split at hbit
        · exact hbit
        · exact ((bit_clearFrom _ _ _ _).mp hbit).2
      simp only [bootEligible, reserveBootRegions] at hb
      exact hp (hmark.mp (hsub _ _ _ (hsub _ _ _ (hsub _ _ _ (hsub _ _ _ hb))))).2.1
    · exact fun hb => absurd hb.2.1 hp

theorem touches_of_mem {base size a : ℕ} (hlo : base ≤ a) (hhi : a < base + size) :
    Touches base size (a / 4096) := by
  unfold Touches
  omega

theorem not_eligible_of_bootRegion {m : Memory} {info page : ℕ} (h : ValidMap m info)
    (hb : BootRegion m info page) : bit (bootEligible m info) page = false := by
  rw [← Bool.not_eq_true, bit_bootEligible h]
  exact fun hc => hc.2.2.2 hb

/-- Memory is the same wherever `pmm_init` made no page eligible. -/
def KeepsBoot (m m' : Memory) (info : ℕ) : Prop :=
  ∀ a, bit (bootEligible m info) (a / 4096) = false → m' a = m a

section Stability

variable {m m' : Memory} {info : ℕ}

theorem bootInfoAt_stable (h : ValidMap m info) (hm : KeepsBoot m m' info) :
    bootInfoAt m' info = bootInfoAt m info := by
  apply bootInfoAt_congr
  intro a hlo hhi
  exact hm a (not_eligible_of_bootRegion h (.inr (.inl (touches_of_mem hlo hhi))))

theorem descriptor_address (h : validBootInfo m info = true) {i : ℕ} (hi : i < mapCount m info) :
    Word64.add (bootInfoAt m info).memoryMap (Word64.mul i (bootInfoAt m info).descriptorSize) =
        (bootInfoAt m info).memoryMap + i * (bootInfoAt m info).descriptorSize ∧
      i * (bootInfoAt m info).descriptorSize + sizeofDescriptor ≤
        (bootInfoAt m info).memoryMapSize := by
  obtain ⟨hd, -, hmod, ⟨-, hend⟩, -⟩ := header_fields h
  have hfit : (i + 1) * (bootInfoAt m info).descriptorSize ≤ (bootInfoAt m info).memoryMapSize :=
    (Nat.le_div_iff_mul_le (by unfold sizeofDescriptor at hd; omega)).mp hi
  rw [Nat.add_mul, Nat.one_mul] at hfit
  refine ⟨?_, by omega⟩
  rw [Word64.mul_eq (by omega), Word64.add_eq (by omega)]

theorem descriptor_stable (h : ValidMap m info) (hm : KeepsBoot m m' info) {i : ℕ}
    (hi : i < mapCount m info) : descriptor m' info i = descriptor m info i := by
  obtain ⟨haddr, hfit⟩ := descriptor_address h.header hi
  unfold descriptor
  rw [bootInfoAt_stable h hm, haddr]
  apply descriptorAt_congr
  intro a hlo hhi
  exact hm a (not_eligible_of_bootRegion h (.inr (.inr (.inl (touches_of_mem (by omega) (by omega))))))

theorem mapCount_stable (h : ValidMap m info) (hm : KeepsBoot m m' info) :
    mapCount m' info = mapCount m info := by
  rw [mapCount, mapCount, bootInfoAt_stable h hm]

theorem validMap_stable (h : ValidMap m info) (hm : KeepsBoot m m' info) : ValidMap m' info := by
  refine ⟨?_, ?_⟩
  · have := h.header
    unfold validBootInfo at this ⊢
    rw [bootInfoAt_stable h hm]
    exact this
  · have hr := h.ranges
    rw [validMapRanges, List.all_eq_true] at hr ⊢
    rw [mapCount_stable h hm]
    intro i hi
    have hlt := List.mem_range.mp hi
    have hone := hr i hi
    rw [Bool.and_eq_true, List.all_eq_true] at hone ⊢
    rw [descriptor_stable h hm hlt]
    refine ⟨hone.1, ?_⟩
    intro j hj
    rw [descriptor_stable h hm ((List.mem_range.mp hj).trans hlt)]
    exact hone.2 j hj

theorem bootEligible_stable (h : ValidMap m info) (hm : KeepsBoot m m' info) :
    bootEligible m' info = bootEligible m info := by
  have hmark : markUsablePages m' info empty = markUsablePages m info empty := by
    unfold markUsablePages
    rw [mapCount_stable h hm]
    apply List.foldl_ext
    intro map i hi
    rw [descriptor_stable h hm (List.mem_range.mp hi)]
  unfold bootEligible reserveBootRegions
  rw [hmark, bootInfoAt_stable h hm]

end Stability

def initialised (map : Bitmap) : Pmm where
  eligible := map
  allocated := empty
  totalPages := countPages map
  freePages := countPages map
  cursor := 0
  ready := true

theorem init_cases {s : Pmm} (h : Inv s) (m : Memory) (info : ℕ) :
    (pmmInit m info s = (false, s) ∧ ¬ (s.ready = false ∧ ValidMap m info)) ∨
    (s = bss ∧ ValidMap m info ∧ pmmInit m info s = (true, initialised (bootEligible m info))) := by
  unfold pmmInit
  by_cases hr : s.ready = true
  · simp [hr]
  · have hr' : s.ready = false := by simpa using hr
    have hcold := h.cold hr'
    by_cases hb : validBootInfo m info = true
    · by_cases hm : validMapRanges m info = true
      · refine .inr ⟨hcold, ⟨hb, hm⟩, ?_⟩
        have hcount : countPages (bootEligible m info) < Word64.size := by
          have := card_pagesOf_le (bootEligible m info)
          have := pageCount_lt_size
          rw [countPages_eq]
          omega
        have hzero : Word64.add 0 (countPages (bootEligible m info)) =
            countPages (bootEligible m info) := by
          rw [Word64.add_eq (by omega), Nat.zero_add]
        subst hcold
        rw [initialised, ← hzero]
        simp [bss, hb, hm, bootEligible]
      · refine .inl ⟨by simp [hr', hb, hm], fun hc => hm hc.2.ranges⟩
    · refine .inl ⟨by simp [hr', hb], fun hc => hb hc.2.header⟩

theorem initialised_inv {map : Bitmap}
    (hb : ∀ page, bit map page = true → 256 ≤ page ∧ page < pageCount) : Inv (initialised map) where
  cold hr := absurd hr (by simp [initialised])
  bounds page hp := hb page hp
  sub page hp := by
    rw [show (initialised map).allocated = empty from rfl, bit_empty] at hp
    exact absurd hp (by simp)
  total := countPages_eq map
  free := by
    rw [show (initialised map).allocated = empty from rfl, pagesOf_empty, Finset.card_empty,
      Nat.add_zero]
    exact countPages_eq map
  cursor_lt := by
    rw [show (initialised map).cursor = 0 from rfl, pageCount_eq]
    omega
  firstFit page _ := Nat.zero_le _

theorem ValidMap.initialised_inv {m : Memory} {info : ℕ} (h : ValidMap m info) :
    Inv (initialised (bootEligible m info)) := by
  apply PmmBootMap.initialised_inv
  intro page hp
  obtain ⟨hlo, hhi, -⟩ := (bit_bootEligible h page).mp hp
  exact ⟨hlo, hhi⟩

def smallInfo : ℕ := 0x200000

/-- A machine with 16 MiB of conventional memory at 16 MiB. The kernel is at 1 MiB; BOOT_INFO,
    the map and the stack share the 35 pages from 2 MiB on. -/
def handoffMemory (mapAt stack size : ℕ) : Memory := fun a =>
  if 0x200000 ≤ a ∧ a < 0x200058 then
    layWords 0x200000 [bootInfoMagic, 2 + 88 * 2 ^ 32, mapAt, 120, 40, 1, 0x100000, 0x10000, stack, size, 1] a
  else if mapAt ≤ a ∧ a < mapAt + 120 then
    layWords mapAt [2, 0x100000, 0, 16, 8, 2, 0x200000, 0, 35, 8, 7, 0x1000000, 0, 4096, 8] a
  else 0

structure LaidOut (m : Memory) (mapAt stack size : ℕ) : Prop where
  bootInfo : bootInfoAt m smallInfo =
    ⟨bootInfoMagic, 2, 88, mapAt, 120, 40, 1, 0, 0x100000, 0x10000, stack, size, 1⟩
  map : descriptor m smallInfo 0 = ⟨2, 0x100000, 16, 8⟩ ∧ descriptor m smallInfo 1 = ⟨2, 0x200000, 35, 8⟩ ∧
    descriptor m smallInfo 2 = ⟨7, 0x1000000, 4096, 8⟩
  header : validBootInfo m smallInfo = true
  mapIn : 0x200000 ≤ mapAt ∧ mapAt + 120 ≤ 0x223000
  stackIn : 0x200000 ≤ stack ∧ size ≠ 0 ∧ stack + size ≤ 0x223000

theorem laidOut_of_bytes {m : Memory} {mapAt stack size : ℕ}
    (hinfo : bootInfoAt m smallInfo =
      ⟨bootInfoMagic, 2, 88, mapAt, 120, 40, 1, 0, 0x100000, 0x10000, stack, size, 1⟩)
    (hmap : descriptorAt m mapAt = ⟨2, 0x100000, 16, 8⟩ ∧ descriptorAt m (mapAt + 40) = ⟨2, 0x200000, 35, 8⟩ ∧
      descriptorAt m (mapAt + 80) = ⟨7, 0x1000000, 4096, 8⟩)
    (hmapIn : 0x200000 ≤ mapAt ∧ mapAt + 120 ≤ 0x223000 ∧ mapAt % 8 = 0)
    (hstackIn : 0x200000 ≤ stack ∧ size ≠ 0 ∧ stack + size ≤ 0x223000) : LaidOut m mapAt stack size := by
  obtain ⟨hmapLo, hmapHi, halign⟩ := hmapIn
  have hindex : ∀ i < 3, Word64.add mapAt (Word64.mul i 40) = mapAt + i * 40 := by
    intro i hi
    have hsize : mapAt + i * 40 < Word64.size := by
      unfold Word64.size
      omega
    rw [Word64.mul_eq (by omega), Word64.add_eq hsize]
  refine ⟨hinfo, ?_, ?_, ⟨hmapLo, hmapHi⟩, hstackIn⟩
  · unfold descriptor
    rw [hinfo]
    simp only
    rw [hindex 0 (by decide), hindex 1 (by decide), hindex 2 (by decide)]
    exact hmap
  · have hrange : ∀ base length : ℕ, length ≠ 0 → base + length ≤ 0x223000 → validRange base length = true := by
      intro base length hne hle
      rw [validRange, Bool.and_eq_true, bne_iff_ne, decide_eq_true_eq]
      exact ⟨hne, by unfold Word64.size; omega⟩
    have hne : mapAt ≠ 0 := by omega
    rw [validBootInfo, hinfo]
    simp only [hrange mapAt 120 (by decide) hmapHi, hrange stack size hstackIn.2.1 hstackIn.2.2,
      hrange 0x100000 0x10000 (by decide) (by decide), hrange smallInfo sizeofBootInfo (by decide) (by decide), halign,
      bne_iff_ne.mpr hne]
    rfl

section LaidOut

variable {m : Memory} {mapAt stack size : ℕ}

theorem LaidOut.count (h : LaidOut m mapAt stack size) : mapCount m smallInfo = 3 := by
  rw [mapCount, h.bootInfo]
  exact Nat.div_eq_of_eq_mul_left (Nat.zero_lt_succ 39) rfl

theorem LaidOut.valid (h : LaidOut m mapAt stack size) : ValidMap m smallInfo := by
  obtain ⟨hkernel, hhandoff, hram⟩ := h.map
  refine ⟨h.header, ?_⟩
  rw [validMapRanges, h.count, List.all_eq_true]
  intro i hi
  obtain rfl | rfl | rfl : i = 0 ∨ i = 1 ∨ i = 2 := by
    have hlt := List.mem_range.mp hi
    omega
  · rw [hkernel]
    rfl
  · rw [hhandoff, List.range_succ, List.all_append, List.all_cons, hkernel]
    rfl
  · rw [hram, List.range_succ, List.range_succ, List.all_append, List.all_append, List.all_cons, List.all_cons,
      hkernel, hhandoff]
    rfl

theorem LaidOut.eligible_iff (h : LaidOut m mapAt stack size) (page : ℕ) :
    bit (bootEligible m smallInfo) page = true ↔ 4096 ≤ page ∧ page < 8192 := by
  obtain ⟨hkernel, hhandoff, hram⟩ := h.map
  have hmap := h.mapIn
  have hstack := h.stackIn
  have hinfo : smallInfo = 0x200000 := rfl
  rw [bit_bootEligible h.valid]
  constructor
  · rintro ⟨-, -, ⟨i, hi, htype, -, hcov⟩, -⟩
    rw [h.count] at hi
    obtain rfl | rfl | rfl : i = 0 ∨ i = 1 ∨ i = 2 := by omega
    · rw [hkernel] at htype
      exact absurd htype (by decide)
    · rw [hhandoff] at htype
      exact absurd htype (by decide)
    · rw [hram] at hcov
      obtain ⟨hstart, hstop⟩ := hcov
      simp only at hstart hstop
      omega
  · rintro ⟨hlo, hhi⟩
    refine ⟨by omega, by rw [pageCount_eq]; omega, ⟨2, by rw [h.count]; decide, ?_⟩, ?_⟩
    · rw [hram]
      exact ⟨rfl, rfl, by simp only; omega, by simp only; omega⟩
    · unfold BootRegion Touches sizeofBootInfo
      rw [h.bootInfo]
      simp only
      omega

end LaidOut

def smallMemory : Memory := handoffMemory 0x201000 0x212000 0x10000

theorem small_laidOut : LaidOut smallMemory 0x201000 0x212000 0x10000 :=
  laidOut_of_bytes (by decide +kernel) (by decide +kernel) (by decide) (by decide)

theorem small_bootInfo : bootInfoAt smallMemory smallInfo =
    ⟨bootInfoMagic, 2, 88, 0x201000, 120, 40, 1, 0, 0x100000, 0x10000, 0x212000, 0x10000, 1⟩ :=
  small_laidOut.bootInfo

theorem small_count : mapCount smallMemory smallInfo = 3 := small_laidOut.count

theorem small_kernel : descriptor smallMemory smallInfo 0 = ⟨2, 0x100000, 16, 8⟩ := small_laidOut.map.1

theorem small_handoff : descriptor smallMemory smallInfo 1 = ⟨2, 0x200000, 35, 8⟩ := small_laidOut.map.2.1

theorem small_valid : ValidMap smallMemory smallInfo := small_laidOut.valid

end OsByAi.PmmBootMap
