import OsByAi.PagingCheckCalls

set_option autoImplicit false

namespace OsByAi.PagingBootCheck
open ByteMemory PackedBitmap BootInformation PmmModel PmmInvariant PmmBootMap PagingModel PagingEntries PagingTree
open PagingWalk PagingGrowth PagingDynamic PagingBuild PagingInit KernelRuns PagingAddressSpace PagingOwnership
open PagingIsolation PagingBlocks BootChecks PagingCheckCalls

section Checks

variable {L : Layout} {info : ℕ} {base s t : Machine} {held : Finset ℕ} {M : Mapping} {v p page a : ℕ} {f : Flags}

/-- What the checks rely on, for good once `paging_init` is done. -/
structure Ground (L : Layout) (info : ℕ) (base : Machine) : Prop where
  fresh : Fresh base
  cr3 : base.cpu.cr3 = base.pagingRoot
  ram : RamReached base
  spared : ∀ s held M, At base s held M → ∀ a, a = L.kernelTextStart ∨ a = L.kernelRodataStart ∨
    a = Word64.sub (bootInfoAt s.mem info).stackBase 4096 ∨ a = L.doubleFaultGuardLow →
    bit base.pmm.eligible (a / 4096) = false

theorem unmanaged_refused (h : At base s held M) (hp : bit base.pmm.eligible (p / 4096) = false) (v : ℕ) (f : Flags) :
    ¬ MapAllowed s v p f := by
  intro hok
  obtain ⟨-, hb⟩ := (h.dyn.tree.pmm.isAllocated_iff p).mp hok.allocated
  have he := h.dyn.tree.pmm.sub _ hb
  rw [show s.pmm.eligible = base.pmm.eligible from h.frame.eligible, hp] at he
  exact absurd he (by simp)

theorem unaligned_refused (h : At base s held M) (hp : p % 4096 ≠ 0) (v : ℕ) (f : Flags) : ¬ MapAllowed s v p f :=
  fun hok => hp ((h.dyn.tree.pmm.isAllocated_iff p).mp hok.allocated).1

theorem refusesMap_reaches (h : At base s held M) (hv : v < Word64.size) (hno : ¬ MapAllowed s v p f) :
    (refusesMap v p f).Reaches s fun _ t => At base t held M := by
  refine (mapping_refused h hv hno).bind fun ok t ht => ?_
  exact ⟨(), t, if_pos (by rw [ht.1]; rfl), ht.2.1⟩

theorem base_lt : pagingDynamicBase < Word64.size := by
  unfold pagingDynamicBase Word64.size
  omega

theorem window_base : Window pagingDynamicBase := by decide

/-- The tables let the check read the field of BOOT_INFO that it needs. -/
def Readable (info : ℕ) (base : Machine) : Prop :=
  ∀ s held M, At base s held M → (loadAcross (info + 64)).Reaches s fun x t => (bootInfoAt s.mem info).stackBase = x ∧ s = t

def Unreadable (info : ℕ) (base : Machine) : Prop :=
  ∀ s held M, At base s held M → (loadAcross (info + 64)).Stops s .pageFault

theorem rejectsInvalidMappings_stops (hg : Ground L info base) (hread : Unreadable info base)
    (h : At base s held fun _ => none) : (rejectsInvalidMappings L info page).Stops s .pageFault := by
  unfold rejectsInvalidMappings
  dsimp only
  refine (refusesMap_reaches h base_lt (unmanaged_refused h (hg.spared _ _ _ h _ (.inl rfl)) _ _)).stops fun _ t h => ?_
  refine (refusesMap_reaches h base_lt (unmanaged_refused h (hg.spared _ _ _ h _ (.inr (.inl rfl))) _ _)).stops
    fun _ t h => ?_
  exact (hread t _ _ h).bind

theorem rejectsInvalidMappings_reaches (hg : Ground L info base) (hread : Readable info base)
    (h : At base s held fun _ => none) (hp : page ∈ held) :
    (rejectsInvalidMappings L info (4096 * page)).Reaches s fun _ t => At base t held fun _ => none := by
  have hbounds := h.dyn.tree.pmm.bounds page (h.dyn.tree.pmm.sub _ ((h.dyn.tree.owned page).mpr (.inr hp)))
  rw [pageCount_eq] at hbounds
  unfold rejectsInvalidMappings
  dsimp only
  -- frames of the kernel and of its guards
  refine (refusesMap_reaches h base_lt (unmanaged_refused h (hg.spared _ _ _ h _ (.inl rfl)) _ _)).bind fun _ t h => ?_
  refine (refusesMap_reaches h base_lt (unmanaged_refused h (hg.spared _ _ _ h _ (.inr (.inl rfl))) _ _)).bind
    fun _ t h => ?_
  refine (hread t _ _ h).bind fun x u hu => ?_
  obtain ⟨rfl, rfl⟩ := hu
  refine (refusesMap_reaches h base_lt
    (unmanaged_refused h (hg.spared _ _ _ h _ (.inr (.inr (.inl rfl)))) _ _)).bind fun _ t h => ?_
  refine (refusesMap_reaches h base_lt
    (unmanaged_refused h (hg.spared _ _ _ h _ (.inr (.inr (.inr rfl)))) _ _)).bind fun _ t h => ?_
  -- addresses that are no pages of the window
  have outside : ∀ {v : ℕ} {s : Machine}, ¬ Window v → ¬ MapAllowed s v (4096 * page) 0 := fun hw hok => hw hok.window
  refine (refusesMap_reaches h (by decide) (outside (by decide))).bind fun _ t h => ?_
  refine (refusesMap_reaches h (by decide) (outside (by decide))).bind fun _ t h => ?_
  refine (refusesMap_reaches h (by decide) (outside (by decide))).bind fun _ t h => ?_
  refine (refusesMap_reaches h (by decide) (outside (by decide))).bind fun _ t h => ?_
  -- addresses that are no frames of a caller
  have hnext : Word64.add (4096 * page) 1 = 4096 * page + 1 := Word64.add_eq (by unfold Word64.size; omega)
  refine (refusesMap_reaches h base_lt (unaligned_refused h (by rw [hnext]; omega) _ _)).bind fun _ t h => ?_
  have hzero : bit base.pmm.eligible (0 / 4096) = false := by
    rw [← Bool.not_eq_true, ← show t.pmm.eligible = base.pmm.eligible from h.frame.eligible]
    intro he
    have := (h.dyn.tree.pmm.bounds _ he).1
    omega
  refine (refusesMap_reaches h base_lt (unmanaged_refused h hzero _ _)).bind fun _ t h => ?_
  refine (refusesMap_reaches h base_lt fun hok => absurd hok.flags (by decide)).bind fun _ t h => ?_
  -- an address that is not mapped
  refine (unmapping_refused h base_lt rfl).deny fun u hu => ?_
  subst hu
  refine (protecting_refused h base_lt rfl).deny fun u hu => ?_
  subst hu
  refine (querying_refused h base_lt rfl 123 123).bind fun answer u hu => ?_
  obtain ⟨rfl, rfl⟩ := hu
  exact Attempt.Reaches.require rfl (Attempt.Reaches.require rfl ⟨(), t, if_pos rfl, h⟩)

def two (x y : Option (ℕ × Flags)) : Mapping := fun w =>
  if w = pagingDynamicBase then x else if w = pagingDynamicBase + 0x200000 then y else none

theorem two_none : two none none = fun _ => none := by
  funext w
  unfold two
  split
  · rfl
  · split <;> rfl

variable {x y z : Option (ℕ × Flags)} {m : ℕ × Flags}

theorem two_base : two x y pagingDynamicBase = x := if_pos rfl

theorem two_other : two x y (pagingDynamicBase + 0x200000) = y := by
  unfold two
  rw [if_neg (by decide), if_pos rfl]

theorem update_base : Function.update (two x y) pagingDynamicBase z = two z y := by
  funext w
  unfold two
  by_cases hw : w = pagingDynamicBase
  · rw [hw, Function.update_self, if_pos rfl]
  · rw [Function.update_of_ne hw, if_neg hw, if_neg hw]

theorem update_other : Function.update (two x y) (pagingDynamicBase + 0x200000) z = two x z := by
  funext w
  unfold two
  by_cases hw : w = pagingDynamicBase + 0x200000
  · rw [hw, Function.update_self, if_neg (by decide), if_pos rfl]
  · rw [Function.update_of_ne hw, if_neg hw, if_neg hw]

theorem mapped_base (m : ℕ × Flags) : {w | two (some m) none w ≠ none} = {pagingDynamicBase} := by
  ext w
  rw [Set.mem_ofPred_eq, Set.mem_singleton_iff]
  unfold two
  by_cases hw : w = pagingDynamicBase
  · simp [hw]
  · simp [hw]

theorem mapped_other (m : ℕ × Flags) : {w | two none (some m) w ≠ none} = {pagingDynamicBase + 0x200000} := by
  ext w
  rw [Set.mem_ofPred_eq, Set.mem_singleton_iff]
  by_cases hw : w = pagingDynamicBase + 0x200000
  · rw [hw, two_other]
    simp
  · unfold two
    simp [hw]

theorem other_lt : pagingDynamicBase + 0x200000 < Word64.size := by decide

theorem window_other : Window (pagingDynamicBase + 0x200000) := by decide

theorem same_gib : pageIndex pagingDynamicBase 30 = pageIndex (pagingDynamicBase + 0x200000) 30 := by decide

theorem allowed (h : At base s held M) (hw : Window v) (hf : validFlags f = true) (hp : page ∈ held) (hm : M v = none)
    (hfits : Fits s (missing s [] (upper v))) : MapAllowed s v (4096 * page) f where
  window := hw
  flags := hf
  allocated := by
    refine (h.dyn.tree.pmm.isAllocated_iff _).mpr ⟨Nat.mul_mod_right _ _, ?_⟩
    rw [Nat.mul_div_cancel_left _ (by decide)]
    exact (h.dyn.tree.owned page).mpr (.inr hp)
  notTable := h.dyn.tree.disjoint page hp
  unmapped := by
    rw [h.map]
    exact hm
  fits := hfits

/-- The tables and pages that the check may need: `held` counts the pages taken by now. -/
def Enough (base : Machine) (held : Finset ℕ) : Prop :=
  base.pagingTableCount + 4 ≤ maxTables ∧ held.card + base.pagingTableCount + 4 ≤ base.pmm.totalPages

theorem map_first (hg : Ground L info base) (h : At base s held fun _ => none) (hroom : Enough base held)
    (hp : page ∈ held) (hf : validFlags f = true) :
    (mapping pagingDynamicBase (4096 * page) f).Reaches s fun ok t => ok = true ∧
      At base t held (two (some (4096 * page, f)) none) ∧ KeepsHeld held s t := by
  have hfree := At.free_eq hg.fresh h
  have hcount := At.count_none hg.fresh h
  have hmissing := missing_none h window_base
  obtain ⟨hbudget, hpages⟩ := hroom
  have hreach := mapping_reaches h base_lt (allowed h window_base hf hp rfl ⟨by omega, by omega⟩)
  rw [← two_none, update_base] at hreach
  exact hreach

theorem map_second (hg : Ground L info base) (h : At base s held (two (some m) none)) (hroom : Enough base held)
    (hp : page ∈ held) (hf : validFlags f = true) :
    (mapping (pagingDynamicBase + 0x200000) (4096 * page) f).Reaches s fun ok t => ok = true ∧
      At base t held (two (some m) (some (4096 * page, f))) ∧ KeepsHeld held s t := by
  have hfree := At.free_eq hg.fresh h
  have hcount := At.count_one hg.fresh h (mapped_base m)
  have hmissing := missing_le_one h window_base window_other (by rw [two_base]; simp) same_gib
  obtain ⟨hbudget, hpages⟩ := hroom
  have hreach := mapping_reaches h other_lt (allowed h window_other hf hp two_other ⟨by omega, by omega⟩)
  rw [update_other] at hreach
  exact hreach

theorem map_again (hg : Ground L info base) (h : At base s held (two none (some m))) (hroom : Enough base held)
    (hp : page ∈ held) (hf : validFlags f = true) :
    (mapping pagingDynamicBase (4096 * page) f).Reaches s fun ok t => ok = true ∧
      At base t held (two (some (4096 * page, f)) (some m)) ∧ KeepsHeld held s t := by
  have hfree := At.free_eq hg.fresh h
  have hcount := At.count_one hg.fresh h (mapped_other m)
  have hmissing := missing_le_one h window_other window_base (by rw [two_other]; simp) same_gib.symm
  obtain ⟨hbudget, hpages⟩ := hroom
  have hreach := mapping_reaches h base_lt (allowed h window_base hf hp two_base ⟨by omega, by omega⟩)
  rw [update_base] at hreach
  exact hreach

theorem load_managed (hg : Ground L info base) (h : At base s held M) (hp : page ∈ held) :
    (loadAt (4096 * page)).Reaches s fun x t => load s.mem (4096 * page) 8 = x ∧ s = t := by
  have hdiv : 4096 * page / 4096 = page := Nat.mul_div_cancel_left _ (by decide)
  have hr := hg.ram s held M h (4096 * page) (by rw [hdiv]; exact At.held_eligible h hp)
  have hload := loadAt_reaches hr
  rw [Nat.mul_mod_right, hdiv] at hload
  exact hload

theorem load_window (hg : Ground L info base) (h : At base s held M) (hv : v < Word64.size) (ha : v % 4096 = 0)
    (hm : M v = some (4096 * page, f)) :
    (loadAt v).Reaches s fun x t => load s.mem (4096 * page) 8 = x ∧ s = t := by
  have hload := loadAt_reaches (reached_window hg.cr3 h hv hm)
  rw [ha] at hload
  exact hload

theorem store_window (hg : Ground L info base) (h : At base s held M) (hm : M pagingDynamicBase = some (4096 * page, pagingWrite))
    (hp : page ∈ held) (x : ℕ) :
    (storeAt pagingDynamicBase x).Reaches s fun _ t => At base t held M ∧ t.mem = store s.mem (4096 * page) 8 x :=
  storeAt_reaches h (reached_window hg.cr3 h base_lt hm) rfl rfl hp (by decide) x

theorem keeps_word (h : KeepsHeld held s t) (hp : page ∈ held) : load t.mem (4096 * page) 8 = load s.mem (4096 * page) 8 := by
  apply load_congr
  intro x hlo hhi
  apply h
  rw [show x / 4096 = page by omega]
  exact hp

theorem aliases_agree {x : ℕ} {k : Check Unit} {Q : Unit → Machine → Prop} (hg : Ground L info base) (h : At base s held M)
    (hp : page ∈ held) (hbase : M pagingDynamicBase = some (4096 * page, pagingWrite))
    (hother : M (pagingDynamicBase + 0x200000) = some (4096 * page, f)) (hk : ∀ t, At base t held M → k.Reaches t Q) :
    Attempt.Reaches (do
      storeAt pagingDynamicBase x
      let viaPhysical ← loadAt (4096 * page)
      let viaAlias ← loadAt pagingDynamicBase
      Attempt.require (viaPhysical == viaAlias)
      let viaOther ← loadAt (pagingDynamicBase + 0x200000)
      let viaAlias ← loadAt pagingDynamicBase
      Attempt.require (viaOther == viaAlias)
      k) s Q := by
  refine (store_window hg h hbase hp x).bind fun _ t ht => ?_
  refine (load_managed hg ht.1 hp).bind fun y u hy => ?_
  obtain ⟨rfl, rfl⟩ := hy
  refine (load_window hg ht.1 base_lt (by decide) hbase).bind fun y u hy => ?_
  obtain ⟨rfl, rfl⟩ := hy
  refine Attempt.Reaches.require (beq_self_eq_true _) ?_
  refine (load_window hg ht.1 other_lt (by decide) hother).bind fun y u hy => ?_
  obtain ⟨rfl, rfl⟩ := hy
  refine (load_window hg ht.1 base_lt (by decide) hbase).bind fun y u hy => ?_
  obtain ⟨rfl, rfl⟩ := hy
  exact Attempt.Reaches.require (beq_self_eq_true _) (hk t ht.1)

theorem permissions_follow {k : Check Unit} {Q : Unit → Machine → Prop}
    (h : At base s held (two (some (4096 * page, pagingWrite)) (some m)))
    (hk : ∀ t, At base t held (two (some (4096 * page, pagingWrite)) (some m)) → k.Reaches t Q) :
    Attempt.Reaches (do
      let answer ← querying pagingDynamicBase 0 0
      Attempt.require answer.1
      Attempt.require (answer.2.1 == some (4096 * page))
      Attempt.require (answer.2.2 == some pagingWrite)
      Attempt.require (← protecting pagingDynamicBase 0)
      let answer ← querying pagingDynamicBase (4096 * page) pagingWrite
      Attempt.require answer.1
      Attempt.require (answer.2.2 == some 0)
      Attempt.require (← protecting pagingDynamicBase pagingWrite)
      k) s Q := by
  refine (querying_reaches h base_lt two_base 0 0).bind fun answer u hu => ?_
  obtain ⟨rfl, rfl⟩ := hu
  refine Attempt.Reaches.require rfl (Attempt.Reaches.require (beq_self_eq_true _)
    (Attempt.Reaches.require (beq_self_eq_true _) ?_))
  refine (protecting_reaches h base_lt two_base (by decide)).expect fun t ht => ?_
  rw [update_base] at ht
  refine (querying_reaches ht.1 base_lt two_base (4096 * page) pagingWrite).bind fun answer u hu => ?_
  obtain ⟨rfl, rfl⟩ := hu
  refine Attempt.Reaches.require rfl (Attempt.Reaches.require (beq_self_eq_true _) ?_)
  refine (protecting_reaches ht.1 base_lt two_base (by decide)).expect fun t' ht' => ?_
  rw [update_base] at ht'
  exact hk t' ht'.1

/-- Once the address is mapped to `q`, what is stored there no longer reaches `p`. -/
theorem remapped {p q : ℕ} {k : Check Unit} {Q : Unit → Machine → Prop} (hg : Ground L info base)
    (h : At base s held (two (some (4096 * p, pagingWrite)) (some m))) (hroom : Enough base held) (hp : p ∈ held)
    (hq : q ∈ held) (hne : p ≠ q)
    (hk : ∀ t, At base t held (two (some (4096 * q, pagingWrite)) (some m)) → k.Reaches t Q) :
    Attempt.Reaches (do
      storeAt pagingDynamicBase 42
      Attempt.require (← unmapping pagingDynamicBase)
      let answer ← querying pagingDynamicBase (4096 * p) 0
      Attempt.require (!answer.1)
      Attempt.require (!(← unmapping pagingDynamicBase))
      Attempt.require (← mapping pagingDynamicBase (4096 * q) pagingWrite)
      storeAt pagingDynamicBase 99
      let ofQ ← loadAt (4096 * q)
      Attempt.require (ofQ == 99)
      let ofP ← loadAt (4096 * p)
      Attempt.require (ofP == 42)
      k) s Q := by
  refine (store_window hg h two_base hp 42).bind fun _ s1 h1 => ?_
  refine (unmapping_reaches h1.1 base_lt (by rw [two_base]; simp)).expect fun s2 h2 => ?_
  rw [update_base] at h2
  refine (querying_refused h2.1 base_lt two_base (4096 * p) 0).bind fun answer u hu => ?_
  obtain ⟨rfl, rfl⟩ := hu
  refine Attempt.Reaches.require rfl ?_
  refine (unmapping_refused h2.1 base_lt two_base).deny fun u hu => ?_
  subst hu
  refine (map_again hg h2.1 hroom hq (by decide)).expect fun s3 h3 => ?_
  refine (store_window hg h3.1 two_base hq 99).bind fun _ s4 h4 => ?_
  refine (load_managed hg h4.1 hq).bind fun x u hx => ?_
  obtain ⟨rfl, rfl⟩ := hx
  have hninetynine : load s4.mem (4096 * q) 8 = 99 := by
    rw [h4.2, load_store_same _ _ _ _ (by decide)]
  refine Attempt.Reaches.require (beq_iff_eq.mpr hninetynine) ?_
  refine (load_managed hg h4.1 hp).bind fun x u hx => ?_
  obtain ⟨rfl, rfl⟩ := hx
  have hkept : load s4.mem (4096 * p) 8 = load s1.mem (4096 * p) 8 := by
    rw [h4.2, load_store_of_disjoint _ _ _ _ _ _ (by omega), keeps_word h3.2 hp, keeps_word h2.2 hp]
  have hfortytwo : load s4.mem (4096 * p) 8 = 42 := by
    rw [hkept, h1.2, load_store_same _ _ _ _ (by decide)]
  exact Attempt.Reaches.require (beq_iff_eq.mpr hfortytwo) (hk s4 h4.1)

theorem availablePages_reaches (hg : Ground L info base) (h : At base s held M) :
    availablePages.Reaches s fun n t => n + s.pagingTableCount + held.card = base.pmm.totalPages ∧ s = t :=
  Attempt.reaches_inspect ⟨At.free_eq hg.fresh h, rfl⟩

theorem erase_two {q : ℕ} (hp : p ∉ held) (hq : q ∉ insert p held) :
    ((insert q (insert p held)).erase p).erase q = held := by
  rw [Finset.mem_insert, not_or] at hq
  ext r
  simp only [Finset.mem_erase, Finset.mem_insert]
  constructor
  · rintro ⟨hne, hne', he | he | he⟩
    · exact absurd he hne
    · exact absurd he hne'
    · exact he
  · intro hr
    exact ⟨fun he => hq.2 (he ▸ hr), fun he => hp (he ▸ hr), .inr (.inr hr)⟩

/-- The check starts with room for its tables and pages, and with nothing mapped. -/
structure Start (L : Layout) (info : ℕ) (base s : Machine) (held : Finset ℕ) : Prop where
  ground : Ground L info base
  here : At base s held fun _ => none
  free : 6 ≤ s.pmm.freePages
  tables : s.pagingTableCount ≤ 4092

theorem Start.enough (h : Start L info base s held) {taken : Finset ℕ} (hcard : taken.card ≤ held.card + 2) :
    Enough base taken := by
  have hfree := At.free_eq h.ground.fresh h.here
  have hcount := At.count_none h.ground.fresh h.here
  have hlow := h.free
  have htables := h.tables
  refine ⟨?_, by omega⟩
  unfold maxTables
  omega

theorem checkAliasesAndPermissions_stops (hstart : Start L info base s held) (hread : Unreadable info base) :
    (checkAliasesAndPermissions L info).Stops s .pageFault := by
  have hfree := hstart.free
  unfold checkAliasesAndPermissions
  dsimp only
  refine (availablePages_reaches hstart.ground hstart.here).stops fun before u hu => ?_
  obtain ⟨-, rfl⟩ := hu
  refine (allocPage_reaches hstart.here (by omega)).stops fun a s1 h1 => ?_
  obtain ⟨p, -, -, hp, h1, -⟩ := h1
  have hone := At.free_eq hstart.ground.fresh h1
  have htotal := At.free_eq hstart.ground.fresh hstart.here
  have hcount := At.count_none hstart.ground.fresh hstart.here
  have hcount1 := At.count_none hstart.ground.fresh h1
  rw [Finset.card_insert_of_notMem hp] at hone
  refine (allocPage_reaches h1 (by omega)).stops fun a s2 h2 => ?_
  obtain ⟨q, -, -, -, h2, -⟩ := h2
  exact (rejectsInvalidMappings_stops hstart.ground hread h2).bind

theorem checkAliasesAndPermissions_reaches (hstart : Start L info base s held) (hread : Readable info base) :
    (checkAliasesAndPermissions L info).Reaches s fun _ t => At base t held fun _ => none := by
  have hg := hstart.ground
  have hfree := hstart.free
  have hempty := At.count_none hg.fresh hstart.here
  have htotal := At.free_eq hg.fresh hstart.here
  unfold checkAliasesAndPermissions
  dsimp only
  refine (availablePages_reaches hg hstart.here).bind fun before u hu => ?_
  obtain ⟨hbefore, rfl⟩ := hu
  refine (allocPage_reaches hstart.here (by omega)).bind fun a s1 h1 => ?_
  obtain ⟨p, rfl, -, hp, h1, -⟩ := h1
  have hone := At.free_eq hg.fresh h1
  have hcount1 := At.count_none hg.fresh h1
  rw [Finset.card_insert_of_notMem hp] at hone
  refine (allocPage_reaches h1 (by omega)).bind fun a s2 h2 => ?_
  obtain ⟨q, rfl, -, hq, h2, -⟩ := h2
  have hroom : Enough base (insert q (insert p held)) := by
    apply hstart.enough
    rw [Finset.card_insert_of_notMem hq, Finset.card_insert_of_notMem hp]
  have hmem : p ∈ insert q (insert p held) ∧ q ∈ insert q (insert p held) := by simp
  have hpq : p ≠ q := fun he => hq (he ▸ Finset.mem_insert_self p held)
  have hback := erase_two hp hq
  generalize insert q (insert p held) = taken at h2 hroom hmem hback
  refine (rejectsInvalidMappings_reaches hg hread h2 hmem.1).bind fun _ s3 h3 => ?_
  -- two mappings of `p`, and none of `q` in place of one of them
  refine (map_first hg h3 hroom hmem.1 (by decide)).expect fun s4 h4 => ?_
  refine (mapping_refused h4.1 base_lt fun hok => ?_).deny fun s5 h5 => ?_
  · have hunmapped := hok.unmapped
    rw [h4.1.map] at hunmapped
    change two (some (4096 * p, pagingWrite)) none pagingDynamicBase = none at hunmapped
    rw [two_base] at hunmapped
    exact absurd hunmapped (by simp)
  refine (map_second hg h5.1 hroom hmem.1 (by decide)).expect fun s6 h6 => ?_
  refine aliases_agree hg h6.1 hmem.1 two_base two_other fun s7 h7 => ?_
  refine permissions_follow h7 fun s8 h8 => ?_
  refine remapped hg h8 hroom hmem.1 hmem.2 hpq fun s9 h9 => ?_
  -- everything goes back
  refine (unmapping_reaches h9 base_lt (by rw [two_base]; simp)).expect fun s10 h10 => ?_
  rw [update_base] at h10
  refine (unmapping_reaches h10.1 other_lt (by rw [two_other]; simp)).expect fun s11 h11 => ?_
  rw [update_other, two_none] at h11
  refine (freeingPage_reaches h11.1 p hmem.1).expect fun s12 h12 => ?_
  refine (freeingPage_reaches h12.1 q (Finset.mem_erase.mpr ⟨Ne.symm hpq, hmem.2⟩)).expect fun s13 h13 => ?_
  rw [hback] at h13
  refine (availablePages_reaches hg h13.1).bind fun left u hu => ?_
  obtain ⟨hleft, rfl⟩ := hu
  have hcount13 := At.count_none hg.fresh h13.1
  exact ⟨(), s13, if_pos (beq_iff_eq.mpr (by omega)), h13.1⟩

end Checks

section Cleanup

variable {L : Layout} {info : ℕ} {base s t : Machine} {held : Finset ℕ} {l : List ℕ} {page head : ℕ}

/-- The pages of a list that is linked through their first words. -/
def Chain (m : Memory) : List ℕ → ℕ → Prop
  | [], head => head = 0
  | page :: rest, head => head = 4096 * page ∧ Chain m rest (load m (4096 * page) 8)

theorem Chain.congr {m m' : Memory} (hload : ∀ page ∈ l, load m' (4096 * page) 8 = load m (4096 * page) 8)
    (h : Chain m l head) : Chain m' l head := by
  induction l generalizing head with
  | nil => exact h
  | cons page l ih =>
    refine ⟨h.1, ?_⟩
    rw [hload page (List.mem_cons_self ..)]
    exact ih (fun r hr => hload r (List.mem_cons_of_mem _ hr)) h.2

structure Holding (base s : Machine) (held : Finset ℕ) (l : List ℕ) (head : ℕ) : Prop where
  here : At base s (held ∪ l.toFinset) fun _ => none
  nodup : l.Nodup
  apart : ∀ page ∈ l, page ∉ held
  chain : Chain s.mem l head

theorem Holding.page_bounds (h : Holding base s held l head) (hp : page ∈ l) : 0 < page ∧ 4096 * page < Word64.size := by
  have hheld : page ∈ held ∪ l.toFinset := Finset.mem_union_right _ (List.mem_toFinset.mpr hp)
  have hb := h.here.dyn.tree.pmm.bounds page (h.here.dyn.tree.pmm.sub _ ((h.here.dyn.tree.owned page).mpr (.inr hheld)))
  rw [pageCount_eq] at hb
  unfold Word64.size
  omega

theorem Holding.head_lt (h : Holding base s held l head) : head < Word64.size := by
  cases l with
  | nil =>
    rw [h.chain]
    decide
  | cons page l =>
    rw [h.chain.1]
    exact (h.page_bounds (List.mem_cons_self ..)).2

theorem Holding.push (h : Holding base s held l head) (hp : page ∉ held ∪ l.toFinset)
    (ht : At base t (insert page (held ∪ l.toFinset)) fun _ => none)
    (hmem : t.mem = store s.mem (4096 * page) 8 head) : Holding base t held (page :: l) (4096 * page) := by
  rw [Finset.mem_union, List.mem_toFinset, not_or] at hp
  refine ⟨?_, List.nodup_cons.mpr ⟨hp.2, h.nodup⟩, ?_, rfl, ?_⟩
  · rw [List.toFinset_cons, Finset.union_insert]
    exact ht
  · intro r hr
    rcases List.mem_cons.mp hr with rfl | hr
    · exact hp.1
    · exact h.apart r hr
  · rw [hmem, load_store_same _ _ _ _ h.head_lt]
    refine h.chain.congr fun r hr => load_store_of_disjoint _ _ _ _ _ _ ?_
    have : r ≠ page := fun he => hp.2 (he ▸ hr)
    omega

theorem holdPages_reaches (hg : Ground L info base) (fuel : ℕ) (h : Holding base s held l head)
    (htwo : 2 ≤ s.pmm.freePages) (hfuel : s.pmm.freePages < fuel + 2) :
    (holdPages fuel head).Reaches s fun top t => ∃ more, Holding base t held more top ∧ t.pmm.freePages = 2 := by
  induction fuel generalizing s l head with
  | zero => omega
  | succ fuel ih =>
    have hfree := At.free_eq hg.fresh h.here
    have hcount := At.count_none hg.fresh h.here
    unfold holdPages
    refine Attempt.Reaches.bind (R := fun n u => s.pmm.freePages = n ∧ s = u) (Attempt.reaches_inspect ⟨rfl, rfl⟩)
      fun n u hu => ?_
    obtain ⟨rfl, rfl⟩ := hu
    by_cases hmore : s.pmm.freePages > 2
    · rw [if_pos hmore]
      refine (allocPage_reaches h.here (by omega)).bind fun a u hu => ?_
      obtain ⟨page, rfl, -, hp, hu, hmem⟩ := hu
      have hinsert := Finset.mem_insert_self page (held ∪ l.toFinset)
      have hdiv : 4096 * page / 4096 = page := Nat.mul_div_cancel_left _ (by decide)
      have hreached := hg.ram _ _ _ hu (4096 * page) (by rw [hdiv]; exact At.held_eligible hu hinsert)
      rw [hdiv] at hreached
      refine (storeAt_reaches hu hreached rfl rfl hinsert (Nat.mul_mod_right _ _) head).bind fun _ t ht => ?_
      have hnext := h.push hp ht.1 (by rw [ht.2, hmem])
      have hfree' := At.free_eq hg.fresh ht.1
      have hcount' := At.count_none hg.fresh ht.1
      rw [Finset.card_insert_of_notMem hp] at hfree'
      exact ih hnext (by omega) (by omega)
    · rw [if_neg hmore]
      exact Attempt.reaches_pure ⟨l, h, by omega⟩

theorem releaseHeld_reaches (hg : Ground L info base) (fuel : ℕ) (h : Holding base s held l head) (hfuel : l.length < fuel) :
    (releaseHeld fuel head).Reaches s fun _ t => At base t held fun _ => none := by
  induction l generalizing s head fuel with
  | nil =>
    obtain ⟨fuel, rfl⟩ := Nat.exists_eq_succ_of_ne_zero (by omega : fuel ≠ 0)
    have hnil := h.chain
    have hhere := h.here
    rw [List.toFinset_nil, Finset.union_empty] at hhere
    unfold releaseHeld
    rw [if_neg (by rw [hnil]; decide)]
    exact Attempt.reaches_pure hhere
  | cons page l ih =>
    obtain ⟨fuel, rfl⟩ := Nat.exists_eq_succ_of_ne_zero (by omega : fuel ≠ 0)
    obtain ⟨rfl, hchain⟩ := h.chain
    have hpos := (h.page_bounds (List.mem_cons_self ..)).1
    have hin : page ∈ held ∪ (page :: l).toFinset := by simp
    unfold releaseHeld
    rw [if_pos (bne_iff_ne.mpr (by omega))]
    refine (load_managed hg h.here hin).bind fun next u hu => ?_
    obtain ⟨rfl, rfl⟩ := hu
    refine (freeingPage_reaches h.here page hin).expect fun u hu => ?_
    have hnodup := List.nodup_cons.mp h.nodup
    have hrest : (held ∪ (page :: l).toFinset).erase page = held ∪ l.toFinset := by
      have hnot := h.apart page (List.mem_cons_self ..)
      ext r
      simp only [Finset.mem_erase, Finset.mem_union, List.mem_toFinset, List.mem_cons]
      constructor
      · rintro ⟨hne, hr | he | hr⟩
        · exact .inl hr
        · exact absurd he hne
        · exact .inr hr
      · rintro (hr | hr)
        · exact ⟨fun he => hnot (he ▸ hr), .inl hr⟩
        · exact ⟨fun he => hnodup.1 (he ▸ hr), .inr (.inr hr)⟩
    rw [hrest] at hu
    refine ih fuel ⟨hu.1, hnodup.2, fun r hr => h.apart r (List.mem_cons_of_mem _ hr), ?_⟩ (by simp at hfuel; omega)
    rw [hu.2]
    exact hchain

theorem Holding.length_le (hg : Ground L info base) (h : Holding base s held l head) : l.length ≤ pageCount := by
  have hfree := At.free_eq hg.fresh h.here
  have hle : l.toFinset.card ≤ (held ∪ l.toFinset).card := Finset.card_le_card Finset.subset_union_right
  rw [List.toFinset_card_of_nodup h.nodup] at hle
  obtain ⟨_, htree⟩ := hg.fresh.tree
  have htotal := htree.pmm.total
  have := card_pagesOf_le base.pmm.eligible
  omega

theorem checkFailedMapCleanup_reaches (hstart : Start L info base s held) :
    checkFailedMapCleanup.Reaches s fun _ t => At base t held fun _ => none := by
  have hg := hstart.ground
  have hsix := hstart.free
  have hempty := At.count_none hg.fresh hstart.here
  have htotal := At.free_eq hg.fresh hstart.here
  unfold checkFailedMapCleanup
  dsimp only
  refine (availablePages_reaches hg hstart.here).bind fun before u hu => ?_
  obtain ⟨hbefore, rfl⟩ := hu
  refine (allocPage_reaches hstart.here (by omega)).bind fun a s1 h1 => ?_
  obtain ⟨p, rfl, -, hp, h1, -⟩ := h1
  have hone := At.free_eq hg.fresh h1
  have hcount1 := At.count_none hg.fresh h1
  have hcard := Finset.card_insert_of_notMem hp
  have hroom : Enough base (insert p held) := hstart.enough (by omega)
  have hmem := Finset.mem_insert_self p held
  have hback : (insert p held).erase p = held := Finset.erase_insert hp
  generalize insert p held = taken at h1 hone hcard hroom hmem hback
  have hbound := h1.dyn.tree.pmm.freePages_le
  have hnone : Holding base s1 taken [] 0 := ⟨by rw [List.toFinset_nil, Finset.union_empty]; exact h1, List.nodup_nil,
    fun _ hr => absurd hr (List.not_mem_nil), rfl⟩
  refine (holdPages_reaches hg (pageCount + 1) hnone (by omega) (by simp only at hbound; omega)).bind fun head s2 h2 => ?_
  obtain ⟨l, h2, htwo⟩ := h2
  -- three tables are missing, and two pages are free
  have hmissing := missing_none h2.here window_base
  refine (mapping_refused h2.here base_lt fun hok => ?_).deny fun s3 h3 => ?_
  · have hfits := hok.fits.2
    omega
  have hchain := h2.chain.congr fun r hr =>
    keeps_word h3.2 (show r ∈ taken ∪ l.toFinset from Finset.mem_union_right _ (List.mem_toFinset.mpr hr))
  have hholding : Holding base s3 taken l head := ⟨h3.1, h2.nodup, h2.apart, hchain⟩
  refine (availablePages_reaches hg h3.1).bind fun left u hu => ?_
  obtain ⟨hleft, rfl⟩ := hu
  refine Attempt.Reaches.require (beq_iff_eq.mpr ?_) ?_
  · have hcount2 := At.count_none hg.fresh h2.here
    have hcount3 := At.count_none hg.fresh h3.1
    have hfree2 := At.free_eq hg.fresh h2.here
    omega
  refine (querying_refused h3.1 base_lt rfl 0 0).bind fun answer u hu => ?_
  obtain ⟨rfl, rfl⟩ := hu
  refine Attempt.Reaches.require rfl ?_
  -- with the pages back, the same call succeeds
  have hlength := hholding.length_le hg
  refine (releaseHeld_reaches hg (pageCount + 1) hholding (by omega)).bind fun _ s4 h4 => ?_
  refine (map_first hg h4 hroom hmem (by decide)).expect fun s5 h5 => ?_
  refine (unmapping_reaches h5.1 base_lt (by rw [two_base]; simp)).expect fun s6 h6 => ?_
  rw [update_base, two_none] at h6
  refine (freeingPage_reaches h6.1 p hmem).expect fun s7 h7 => ?_
  rw [hback] at h7
  refine (availablePages_reaches hg h7.1).bind fun left u hu => ?_
  obtain ⟨hleft', rfl⟩ := hu
  have hcount7 := At.count_none hg.fresh h7.1
  exact ⟨(), s7, if_pos (beq_iff_eq.mpr (by omega)), h7.1⟩

end Cleanup

end OsByAi.PagingBootCheck
