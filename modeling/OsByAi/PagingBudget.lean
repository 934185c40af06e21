import OsByAi.PagingFill
import OsByAi.PagingOwnership

set_option autoImplicit false

namespace OsByAi.PagingBudget
open ByteMemory PackedBitmap BootInformation PmmModel PmmInvariant PmmBootMap
open PagingModel PagingEntries PagingTree PagingWalk PagingGrowth PagingBuild PagingInit PagingFill
open KernelRuns PagingAddressSpace PagingOwnership RadixTree

def bootPages (m : Memory) (info : ℕ) : Set ℕ := {a | a % 4096 = 0 ∧ BootRam m info a}

theorem bootPages_lt {m : Memory} {info a : ℕ} (h : a ∈ bootPages m info) : a < 2 ^ 32 := (bootRam_lt h.2).2

theorem bootPages_finite (m : Memory) (info : ℕ) : (bootPages m info).Finite :=
  (Set.finite_lt_nat (2 ^ 32)).subset fun _ ha => bootPages_lt ha

section Tables

variable {L : Layout} {s : Machine} {held : Finset ℕ} {info : ℕ}

theorem activate_node (cr4 : ℕ) (s : Machine) (q : Path) : node (activatePageTables cr4 s) q = node s q := by
  obtain ⟨hmem, -, -, -, hroot, -⟩ := activate_fields cr4 s
  unfold node rootFrame
  rw [hmem, hroot]

theorem installed_nodes (h : Idle s held info) (hok : (pagingInit L info s).1 = true) {q : Path}
    (hq : q.length ≤ 3) :
    node (pagingInit L info s).2 q ≠ none ↔ q = [] ∨ ∃ v ∈ bootPages s.mem info, q <+: upper v := by
  obtain ⟨hb, c, s1, s2, hfree, hmin, hmap, -, hun, hres⟩ := pagingInit_true h hok
  have hplanted := planted_built (L := L) h hfree hmin
  have hmemory := planted_memFrame (s := s) hfree
  have hfilled := mapBootRam_filled (L := L) hb 65537 0 hplanted.tree hmemory (Nat.zero_le _)
  have hbuilt := (mapBootRam_outcome hb hmemory hplanted).done (by rw [hmap])
  rw [Nat.zero_mul, ← mapBootRam, hmap] at hfilled
  rw [hmap] at hbuilt
  have hguards := (unmapGuards_filled (stackGuards L (bootInfoAt s1.mem info)) hfilled.inv (stackGuards_lt L _)).2
  rw [unmapStackGuards] at hun
  rw [hun] at hguards
  rw [hres, activate_node, hguards q hq]
  constructor
  · intro hsome
    by_cases hnil : q = []
    · exact .inl hnil
    · obtain ⟨v, hv, hpre⟩ := hfilled.fresh q hq (planted_node s c hnil) hsome
      exact .inr ⟨v, hv, hpre⟩
  · rintro (rfl | ⟨v, hv, hpre⟩)
    · rw [node_nil]
      simp
    · have hlt := bootPages_lt hv
      have hleaf := hbuilt.mapped v hv.1 (by omega) hv.2
      intro hnone
      have hzero : leafOf s1 v = 0 := entryAt_below hnone hpre _
      rw [hleaf] at hzero
      exact leafEntry_ne_zero _ _ _ hzero

/-- A table has 512 entries; named, so that the indices below all refer to one proof. -/
local instance entriesOfTable : NeZero 512 := ⟨by decide⟩

theorem upper_low {v : ℕ} (hv : v < 2 ^ 32) :
    upper v = [0, Fin.ofNat 512 (v / 2 ^ 30), Fin.ofNat 512 (v / 2 ^ 21)] := by
  have h39 : pageIndex v 39 = 0 := by
    apply Fin.ext
    change v / 2 ^ 39 % 512 = 0
    omega
  rw [upper, indices, tableShifts, List.map_cons, List.map_cons, List.map_cons, List.map_nil, h39]
  rfl

/-- The paths of the tables for the pages in `M`, by depth. -/
def neededPaths (M : Set ℕ) : Set Path :=
  {[], [0]} ∪ ((fun x : ℕ => ([0, Fin.ofNat 512 x] : Path)) '' ((fun v => v / 2 ^ 30) '' M) ∪
    (fun x : ℕ => ([0, Fin.ofNat 512 (x / 512), Fin.ofNat 512 x] : Path)) '' ((fun v => v / 2 ^ 21) '' M))

theorem needed_iff {M : Set ℕ} (hM : ∀ v ∈ M, v < 2 ^ 32) (hne : M.Nonempty) (q : Path) :
    (q.length ≤ 3 ∧ (q = [] ∨ ∃ v ∈ M, q <+: upper v)) ↔ q ∈ neededPaths M := by
  have h512 : ∀ v : ℕ, v / 2 ^ 21 / 512 = v / 2 ^ 30 := by
    intro v
    omega
  constructor
  · rintro ⟨hlen, rfl | ⟨v, hv, hpre⟩⟩
    · exact .inl (.inl rfl)
    · rw [upper_low (hM v hv)] at hpre
      rcases List.prefix_cons_iff.mp hpre with rfl | ⟨t, rfl, ht⟩
      · exact .inl (.inl rfl)
      rcases List.prefix_cons_iff.mp ht with rfl | ⟨u, rfl, hu⟩
      · exact .inl (.inr rfl)
      rcases List.prefix_cons_iff.mp hu with rfl | ⟨r, rfl, hr⟩
      · exact .inr (.inl ⟨_, ⟨v, hv, rfl⟩, rfl⟩)
      rw [List.prefix_nil.mp hr]
      exact .inr (.inr ⟨_, ⟨v, hv, rfl⟩, by simp only [h512]⟩)
  · obtain ⟨u, hu⟩ := hne
    rintro ((rfl | rfl) | ⟨x, ⟨v, hv, rfl⟩, rfl⟩ | ⟨x, ⟨v, hv, rfl⟩, rfl⟩)
    · exact ⟨by simp, .inl rfl⟩
    · exact ⟨by simp, .inr ⟨u, hu, by rw [upper_low (hM u hu)]; simp⟩⟩
    · exact ⟨by simp, .inr ⟨v, hv, by rw [upper_low (hM v hv)]; simp⟩⟩
    · exact ⟨by simp, .inr ⟨v, hv, by simp only [upper_low (hM v hv), h512]; exact List.prefix_refl _⟩⟩

theorem ncard_neededPaths {M : Set ℕ} (hfin : M.Finite) (hM : ∀ v ∈ M, v < 2 ^ 32) :
    (neededPaths M).ncard = 2 + ((fun v => v / 2 ^ 30) '' M).ncard + ((fun v => v / 2 ^ 21) '' M).ncard := by
  have htwo : Set.InjOn (fun x : ℕ => ([0, Fin.ofNat 512 x] : Path)) ((fun v => v / 2 ^ 30) '' M) := by
    rintro _ ⟨v, hv, rfl⟩ _ ⟨u, hu, rfl⟩ heq
    have hvlt := hM v hv
    have hult := hM u hu
    simp only [List.cons.injEq, and_true, true_and] at heq
    have hval := congrArg Fin.val heq
    simp only [Fin.val_ofNat] at hval ⊢
    omega
  have hthree : Set.InjOn (fun x : ℕ => ([0, Fin.ofNat 512 (x / 512), Fin.ofNat 512 x] : Path))
      ((fun v => v / 2 ^ 21) '' M) := by
    rintro _ ⟨v, hv, rfl⟩ _ ⟨u, hu, rfl⟩ heq
    have hvlt := hM v hv
    have hult := hM u hu
    simp only [List.cons.injEq, and_true, true_and] at heq
    have h1 := congrArg Fin.val heq.1
    have h2 := congrArg Fin.val heq.2
    simp only [Fin.val_ofNat] at h1 h2 ⊢
    omega
  have hfin2 := ((hfin.image fun v => v / 2 ^ 30).image fun x : ℕ => ([0, Fin.ofNat 512 x] : Path))
  have hfin3 := ((hfin.image fun v => v / 2 ^ 21).image
    fun x : ℕ => ([0, Fin.ofNat 512 (x / 512), Fin.ofNat 512 x] : Path))
  unfold neededPaths
  rw [Set.ncard_union_eq ?_ (Set.toFinite _) (hfin2.union hfin3), Set.ncard_union_eq ?_ hfin2 hfin3,
    Set.ncard_pair (by simp), Set.InjOn.ncard_image htwo, Set.InjOn.ncard_image hthree, Nat.add_assoc]
  · rw [Set.disjoint_left]
    rintro _ ⟨x, -, rfl⟩ ⟨y, -, heq⟩
    exact absurd heq (by simp)
  · rw [Set.disjoint_left]
    rintro _ (rfl | rfl) (⟨y, -, heq⟩ | ⟨y, -, heq⟩)
    · exact absurd heq (by simp)
    · exact absurd heq (by simp)
    · exact absurd heq (by simp)
    · exact absurd heq (by simp)

/-- The tables for boot RAM: the root, the table of slot 0, and one for each GiB and each 2 MiB in use. -/
noncomputable def tablesNeeded (m : Memory) (info : ℕ) : ℕ :=
  2 + ((fun a => a / 2 ^ 30) '' bootPages m info).ncard + ((fun a => a / 2 ^ 21) '' bootPages m info).ncard

theorem bootPages_nonempty (h : RegionsIn s.mem info (BootRam s.mem info)) : (bootPages s.mem info).Nonempty := by
  have hk := h.kernel
  have hne := hk.nonempty
  exact ⟨4096 * ((bootInfoAt s.mem info).kernelBase / 4096), by omega, hk.pages _ (by omega) (le_refl _) (by omega)⟩

theorem Installed.count_eq {s' : Machine} (h : Idle s held info) (hres : pagingInit L info s = (true, s'))
    (hinst : Installed L info s s' held) : s'.pagingTableCount = tablesNeeded s.mem info := by
  have hpaths : tablePaths s' = neededPaths (bootPages s.mem info) := by
    ext q
    rw [← needed_iff (fun v => bootPages_lt) (bootPages_nonempty hinst.regions)]
    constructor
    · rintro ⟨hlen, hn⟩
      have hnodes := installed_nodes (L := L) h (by rw [hres]) hlen
      rw [hres] at hnodes
      exact ⟨hlen, hnodes.mp hn⟩
    · rintro ⟨hlen, hn⟩
      have hnodes := installed_nodes (L := L) h (by rw [hres]) hlen
      rw [hres] at hnodes
      exact ⟨hlen, hnodes.mpr hn⟩
  rw [count_eq_ncard hinst.built.tree, hpaths, ncard_neededPaths (bootPages_finite _ _) fun v => bootPages_lt]
  rfl

end Tables

section With

variable {L : Layout} {s : Machine} {held : Finset ℕ} {info : ℕ} {new : Machine → ℕ × Machine}

theorem newTable_count_le (s : Machine) : (newTable s).2.pagingTableCount ≤ s.pagingTableCount + 1 := by
  unfold newTable
  split
  · exact Nat.le_succ _
  · split
    · rw [zeroFrom_count]
    · exact Nat.le_succ _

theorem descendWith_eq (hnew : ∀ t, t.pagingTableCount ≠ maxTables → new t = newTable t) (address : ℕ) (shifts : List ℕ)
    (table : ℕ) (s : Machine) (hcount : s.pagingTableCount + shifts.length ≤ maxTables) :
    descendWith new address shifts table s = descend address shifts table s := by
  induction shifts generalizing table s with
  | nil => rfl
  | cons shift shifts ih =>
    rw [List.length_cons] at hcount
    have hle := newTable_count_le s
    rw [descendWith, descend_cons, hnew s (by omega)]
    simp only
    split
    · exact ih _ s (by omega)
    · split
      · rfl
      · exact ih _ _ (by rw [store64_count]; omega)

theorem mapPageWith_eq (hnew : ∀ t, t.pagingTableCount ≠ maxTables → new t = newTable t)
    (hcount : s.pagingTableCount ≤ 2054) (v : ℕ) : mapPageWith new L v s = mapPage L v s := by
  have hwith := descendWith_eq hnew v tableShifts s.pagingRoot s (by unfold maxTables; simp [tableShifts]; omega)
  rcases hd : descend v tableShifts s.pagingRoot s with ⟨table, t⟩
  rw [hd] at hwith
  cases table with
  | none => simp only [mapPageWith, mapPage_eq, hwith, hd]
  | some table => simp only [mapPageWith, mapPage_eq, hwith, hd]

theorem mapPagesWith_eq (hnew : ∀ t, t.pagingTableCount ≠ maxTables → new t = newTable t) (n : ℕ) {S : ℕ → Prop}
    (h : Built L s held S) {page : ℕ} (hp : page % 4096 = 0) (hlim : page + 4096 * n ≤ pmmLimit) :
    mapPagesWith new L n page s = mapPages L n page s := by
  induction n generalizing s page S with
  | zero => rfl
  | succ n ih =>
    have hpage := mapPage_outcome h hp (by omega)
    rw [mapPagesWith, mapPages_succ, mapPageWith_eq hnew h.count_le]
    rcases hres : mapPage L page s with ⟨ok, t⟩
    rw [hres] at hpage
    cases ok with
    | false => rfl
    | true => exact ih (hpage.done rfl) (by omega) (by omega)

theorem mapDescriptorWith_eq (hnew : ∀ t, t.pagingTableCount ≠ maxTables → new t = newTable t) {d : Descriptor}
    {S : ℕ → Prop} (h : Built L s held S) (hv : validDescriptor d = true) (hs : d.physicalStart < Word64.size) :
    mapDescriptorWith new L d s = mapDescriptor L d s := by
  rw [mapDescriptor_eq]
  unfold mapDescriptorWith
  split
  · rfl
  · split
    · rfl
    · split
      · rfl
      · have hbegin := clipBegin_aligned hv
        have hend := clipEnd_aligned hv hs
        have hlimit := clipEnd_le d
        exact mapPagesWith_eq hnew _ h hbegin (by omega)

theorem mapBootRamFromWith_eq (hnew : ∀ t, t.pagingTableCount ≠ maxTables → new t = newTable t) {s0 : Machine}
    (hb : BootOk s0 info) (fuel i : ℕ) (hf : MemFrame s0 s) (hi : i ≤ mapCount s0.mem info) {S : ℕ → Prop}
    (h : Built L s held S) :
    mapBootRamFromWith new L info fuel (i * (bootInfoAt s0.mem info).descriptorSize) s =
      mapBootRamFrom L info fuel (i * (bootInfoAt s0.mem info).descriptorSize) s := by
  induction fuel generalizing s i S with
  | zero => rfl
  | succ fuel ih =>
    rw [mapBootRamFromWith, mapBootRamFrom_succ]
    simp only [hb.bootInfo_eq hf]
    by_cases hlt : i < mapCount s0.mem info
    · have hvalid := hb.valid.descriptor_valid hlt
      rw [if_pos (offset_lt hb.valid hlt), if_pos (offset_lt hb.valid hlt), descriptor_read hb hf hlt,
        mapDescriptorWith_eq hnew h hvalid (descriptorAt_start_lt _ _)]
      have hone := mapDescriptor_outcome h hvalid (descriptorAt_start_lt _ _)
      rcases hres : mapDescriptor L (descriptor s0.mem info i) s with ⟨ok, t⟩
      rw [hres] at hone
      cases ok with
      | false => rfl
      | true =>
        have hf' : MemFrame s0 t := hf.trans (Frame.memFrame hone.frame)
        simp only [hb.bootInfo_eq hf', offset_next hb hlt]
        exact ih (i + 1) hf' hlt (hone.done rfl)
    · have hstop : ¬ i * (bootInfoAt s0.mem info).descriptorSize < (bootInfoAt s0.mem info).memoryMapSize := by
        rw [mapSize_eq hb.valid, show i = mapCount s0.mem info by omega]
        exact lt_irrefl _
      rw [if_neg hstop, if_neg hstop]

/-- Whatever `new_table` did with a full array, `paging_init` would not show it. -/
theorem pagingInitWith_eq (hnew : ∀ t, t.pagingTableCount ≠ maxTables → new t = newTable t) (h : Idle s held info) :
    pagingInitWith new 65537 L info s = pagingInit L info s := by
  have hroot : new s = newTable s := by
    apply hnew
    rw [h.count]
    decide
  obtain ⟨hnone, -⟩ | ⟨c, -, hfree, hmin, hsome⟩ := newTable_cases h.pmm
  · simp only [pagingInitWith_unfold, pagingInit_unfold, hroot, hnone, beq_self_eq_true, if_true]
  · have hready : s.pmm.ready = true := by
      by_contra hno
      exact h.pmm.not_free_of_cold (by simpa using hno) c hfree
    have hloop := mapBootRamFromWith_eq hnew (h.boot hready) 65537 0 (planted_memFrame hfree) (Nat.zero_le _)
      (planted_built (L := L) h hfree hmin)
    rw [Nat.zero_mul] at hloop
    have hfill : fillRootWith new 65537 L info s.cpu.cr4 (planted s c) = fillRoot L info s.cpu.cr4 (planted s c) := by
      rw [fillRoot, fillRootWith_eq, fillRootWith, hloop]
    have hplanted : rooted (newTable s).2 (newTable s).1 = planted s c := by rw [hsome, planted]
    rw [pagingInitWith_unfold, pagingInit_unfold, hroot, hplanted, hfill]

end With

end OsByAi.PagingBudget
