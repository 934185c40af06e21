import OsByAi.PagingBudget
import OsByAi.BootMapping

set_option autoImplicit false

namespace OsByAi.PagingAcceptance
open ByteMemory PackedBitmap BootInformation PmmModel PmmInvariant PmmBootMap PagingModel PagingEntries PagingTree
open PagingWalk PagingGrowth PagingBuild PagingInit PagingFill PagingBudget PagingOwnership KernelRuns
open PagingAddressSpace BootMapping RadixTree

section Stops

variable {L : Layout} {s s' : Machine} {held : Finset ℕ} {V W : ℕ → Prop} {v : ℕ}

/-- A build of tables for addresses in `V` that cannot go on to one of them. -/
def Stuck (s : Machine) (held : Finset ℕ) (V : ℕ → Prop) : Prop :=
  ∃ t v, Filled s t held V ∧ V v ∧ ¬ Fits t (missing t [] (upper v))

theorem Stuck.mono (h : Stuck s held V) (hVW : ∀ v, V v → W v) : Stuck s held W := by
  obtain ⟨t, v, ht, hv, hfits⟩ := h
  exact ⟨t, v, ht.mono hVW, hVW v hv, hfits⟩

theorem Stuck.after (h : Stuck s' held V) (hs : Filled s s' held V) : Stuck s held V := by
  obtain ⟨t, v, ht, hv, hfits⟩ := h
  exact ⟨t, v, hs.trans ht, hv, hfits⟩

theorem mapPage_stuck (h : TreeInv s held) (hno : (mapPage L v s).1 = false) : Stuck s held (· = v) := by
  obtain ⟨-, hgives, -⟩ := descend_spec v tableShifts h (node_nil s) rfl
  refine ⟨s, v, Filled.refl h _, rfl, hgives.mp ?_⟩
  rw [mapPage_eq] at hno
  rw [h.root_eq] at hno
  rcases hres : descend v tableShifts (4096 * rootFrame s) s with ⟨table, t⟩
  rw [hres] at hno
  cases table with
  | none => rfl
  | some table => exact absurd hno (by simp)

theorem mapPages_stuck (n : ℕ) (h : TreeInv s held) {page : ℕ} (hlim : page + 4096 * n ≤ Word64.size + 4095)
    (hno : (mapPages L n page s).1 = false) : Stuck s held fun w => ∃ k, k < n ∧ w = page + 4096 * k := by
  induction n generalizing s page with
  | zero => exact absurd hno (by simp [mapPages_zero])
  | succ n ih =>
    have hhere : ∀ w, w = page → ∃ k, k < n + 1 ∧ w = page + 4096 * k := fun w hw => ⟨0, by omega, by omega⟩
    obtain ⟨hpage, -⟩ := mapPage_filled (L := L) h (v := page) (by omega)
    have hstuck := mapPage_stuck (L := L) (v := page) h
    rw [mapPages_succ] at hno
    rcases hres : mapPage L page s with ⟨ok, t⟩
    rw [hres] at hno hpage hstuck
    cases ok with
    | false => exact (hstuck rfl).mono hhere
    | true =>
      have hlim' : page + 4096 + 4096 * n ≤ Word64.size + 4095 := by omega
      have hrest := ih hpage.inv hlim' hno
      refine Stuck.after (hrest.mono ?_) (hpage.mono hhere)
      rintro w ⟨k, hk, rfl⟩
      exact ⟨k + 1, by omega, by omega⟩

theorem mapDescriptor_refused {d : Descriptor} (h : TreeInv s held) (hv : validDescriptor d = true)
    (hs : d.physicalStart < Word64.size) :
    ((mapDescriptor L d s).1 = false → ¬ WriteBackOk d ∨ Stuck s held (Visits d)) ∧
      ((mapDescriptor L d s).1 = true → WriteBackOk d) := by
  have hclip := clip_iff hv hs
  rw [mapDescriptor_eq]
  split
  · rename_i hskip
    exact ⟨fun hno => absurd hno (by simp), fun _ hm => absurd hm ((skip_iff d).mp hskip)⟩
  · rename_i hskip
    have hm : Mappable d := by
      by_contra hno
      exact hskip ((skip_iff d).mpr hno)
    split
    · rename_i hempty
      refine ⟨fun hno => absurd hno (by simp), fun _ _ ⟨w, hw⟩ => ?_⟩
      have := (hclip w).mpr hw
      omega
    · rename_i hne
      have hsome : ∃ v, Clipped d v := ⟨clipBegin d, (hclip _).mp ⟨le_refl _, by omega⟩⟩
      split
      · rename_i hwb
        refine ⟨fun _ => .inl fun hok => ?_, fun hok => absurd hok (by simp)⟩
        rw [hok hm hsome] at hwb
        exact absurd hwb (by simp)
      · rename_i hwb
        have hend : clipEnd d ≤ pmmLimit := by
          unfold clipEnd
          split <;> omega
        unfold pmmLimit at hend
        refine ⟨fun hno => .inr ?_, fun _ _ _ => by simpa using hwb⟩
        refine (mapPages_stuck _ h (by unfold Word64.size; omega) hno).mono ?_
        rintro w ⟨k, hk, rfl⟩
        exact ⟨hm, k, rfl, by omega⟩

theorem visits_bootPages {s0 : Machine} {info i w : ℕ} (hb : BootOk s0 info) (hi : i < mapCount s0.mem info)
    (hw : Visits (descriptor s0.mem info i) w) : w ∈ bootPages s0.mem info := by
  have hvalid := hb.valid.descriptor_valid hi
  obtain ⟨hm, k, rfl, hlim⟩ := hw
  have hbegin := clipBegin_aligned hvalid
  refine ⟨by omega, i, hi, hm, ?_⟩
  exact (clip_iff hvalid (descriptorAt_start_lt _ _) _).mp ⟨by omega, hlim⟩

theorem mapBootRamFrom_refused {s0 : Machine} {info : ℕ} (hb : BootOk s0 info) (fuel i : ℕ) (h : TreeInv s held)
    (hf : MemFrame s0 s) (hfuel : mapCount s0.mem info < i + fuel) (hi : i ≤ mapCount s0.mem info)
    (hbefore : ∀ j, j < i → WriteBackOk (descriptor s0.mem info j)) :
    let r := mapBootRamFrom L info fuel (i * (bootInfoAt s0.mem info).descriptorSize) s
    (r.1 = false → ¬ AllWriteBack s0.mem info ∨ Stuck s held (· ∈ bootPages s0.mem info)) ∧
      (r.1 = true → AllWriteBack s0.mem info) := by
  induction fuel generalizing s i with
  | zero => omega
  | succ fuel ih =>
    simp only
    rw [mapBootRamFrom_succ]
    simp only [hb.bootInfo_eq hf]
    by_cases hlt : i < mapCount s0.mem info
    · rw [if_pos (offset_lt hb.valid hlt), descriptor_read hb hf hlt]
      have hram : ∀ w, Visits (descriptor s0.mem info i) w → w ∈ bootPages s0.mem info :=
        fun w hw => visits_bootPages hb hlt hw
      have hfilled := (mapDescriptor_filled (L := L) (descriptor s0.mem info i) h).mono hram
      obtain ⟨hstuck, hwb⟩ := mapDescriptor_refused (L := L) h (hb.valid.descriptor_valid hlt)
        (descriptorAt_start_lt _ _)
      rcases hres : mapDescriptor L (descriptor s0.mem info i) s with ⟨ok, t⟩
      rw [hres] at hfilled hstuck hwb
      cases ok with
      | false =>
        refine ⟨fun _ => ?_, fun hok => absurd hok (by simp)⟩
        rcases hstuck rfl with hno | hst
        · exact .inl fun hall => hno (hall i hlt)
        · exact .inr (hst.mono hram)
      | true =>
        have hf' : MemFrame s0 t := hf.trans (Frame.memFrame hfilled.frame)
        have hnext : ∀ j, j < i + 1 → WriteBackOk (descriptor s0.mem info j) := by
          intro j hj
          by_cases hji : j = i
          · rw [hji]
            exact hwb rfl
          · exact hbefore j (by omega)
        obtain ⟨hfail, hdone⟩ := ih (i + 1) hfilled.inv hf' (by omega) hlt hnext
        simp only [hb.bootInfo_eq hf', offset_next hb hlt]
        exact ⟨fun hno => (hfail hno).imp_right fun hst => hst.after hfilled, hdone⟩
    · have heq : i = mapCount s0.mem info := by omega
      rw [if_neg (by rw [mapSize_eq hb.valid, heq]; exact lt_irrefl _)]
      exact ⟨fun hno => absurd hno (by simp), fun _ j hj => hbefore j (by omega)⟩

end Stops

section Counting

variable {s t : Machine} {held : Finset ℕ} {M : Set ℕ} {v : ℕ}

/-- The paths from `p` along `q` at which there is no table. -/
def absentPaths (s : Machine) (p q : Path) : Set Path := {r | r ≠ [] ∧ r <+: q ∧ node s (p ++ r) = none}

theorem absentPaths_cons (s : Machine) (p q : Path) (i : Fin 512) :
    absentPaths s p (i :: q) = {r | r = [i] ∧ node s (p ++ [i]) = none} ∪ List.cons i '' absentPaths s (p ++ [i]) q := by
  ext r
  constructor
  · rintro ⟨hne, hpre, hnode⟩
    rcases List.prefix_cons_iff.mp hpre with rfl | ⟨u, rfl, hu⟩
    · exact absurd rfl hne
    · by_cases hnil : u = []
      · subst hnil
        exact .inl ⟨rfl, hnode⟩
      · exact .inr ⟨u, ⟨hnil, hu, by simpa using hnode⟩, rfl⟩
  · rintro (⟨rfl, hnode⟩ | ⟨u, ⟨-, hu, hnode⟩, rfl⟩)
    · exact ⟨by simp, by simp, hnode⟩
    · exact ⟨by simp, by simpa using hu, by simpa using hnode⟩

theorem absentPaths_finite (s : Machine) (p q : Path) : (absentPaths s p q).Finite := by
  refine (List.finite_toSet q.inits).subset fun r hr => ?_
  exact (List.mem_inits _ _).mpr hr.2.1

theorem ncard_absentPaths (s : Machine) (p q : Path) : (absentPaths s p q).ncard = missing s p q := by
  induction q generalizing p with
  | nil =>
    have hnone : absentPaths s p [] = ∅ := by
      ext r
      simp only [absentPaths, Set.mem_ofPred_eq, List.prefix_nil, Set.mem_empty_iff_false, iff_false]
      exact fun h => h.1 h.2.1
    rw [hnone, Set.ncard_empty]
    rfl
  | cons i q ih =>
    have hhead : ({r | r = [i] ∧ node s (p ++ [i]) = none} : Set Path).ncard =
        if node s (p ++ [i]) = none then 1 else 0 := by
      split
      · rename_i hnode
        simp only [hnode, and_true]
        exact Set.ncard_singleton [i]
      · rename_i hnode
        simp only [hnode, and_false]
        exact Set.ncard_empty Path
    have hfinite : ({r | r = [i] ∧ node s (p ++ [i]) = none} : Set Path).Finite :=
      (Set.finite_singleton [i]).subset fun r hr => hr.1
    rw [absentPaths_cons, Set.ncard_union_eq ?_ hfinite ((absentPaths_finite s _ q).image _),
      Set.ncard_image_of_injective _ (List.cons_injective), ih, hhead, missing]
    rw [Set.disjoint_left]
    rintro _ ⟨rfl, -⟩ ⟨u, ⟨hne, -, -⟩, heq⟩
    exact hne (by simpa using heq)

theorem count_add_missing_le (h : TreeInv t held) (hsub : tablePaths t ⊆ neededPaths M) (hfin : M.Finite)
    (hM : ∀ v ∈ M, v < 2 ^ 32) (hv : v ∈ M) :
    t.pagingTableCount + missing t [] (upper v) ≤
      2 + ((fun v => v / 2 ^ 30) '' M).ncard + ((fun v => v / 2 ^ 21) '' M).ncard := by
  have hfinite : (neededPaths M).Finite :=
    ((Set.toFinite _).union (((hfin.image _).image _).union ((hfin.image _).image _)))
  have habsent : absentPaths t [] (upper v) ⊆ neededPaths M := by
    rintro r ⟨-, hpre, -⟩
    exact (needed_iff hM ⟨v, hv⟩ r).mp ⟨hpre.length_le.trans (length_upper v).le, .inr ⟨v, hv, hpre⟩⟩
  have hdisjoint : Disjoint (tablePaths t) (absentPaths t [] (upper v)) := by
    rw [Set.disjoint_left]
    rintro r ⟨-, hnode⟩ ⟨-, -, hnone⟩
    exact hnode hnone
  rw [← ncard_neededPaths hfin hM, count_eq_ncard h, ← ncard_absentPaths,
    ← Set.ncard_union_eq hdisjoint (hfinite.subset hsub) (absentPaths_finite t [] _)]
  exact Set.ncard_le_ncard (Set.union_subset hsub habsent) hfinite

end Counting

section Init

variable {L : Layout} {s : Machine} {held : Finset ℕ} {info c : ℕ}

theorem tablesNeeded_le (m : Memory) (info : ℕ) : tablesNeeded m info ≤ 2054 := by
  have bound : ∀ k n, 2 ^ 32 ≤ 2 ^ k * n → ((fun a => a / 2 ^ k) '' bootPages m info).ncard ≤ n := by
    intro k n hn
    have hsub : (fun a => a / 2 ^ k) '' bootPages m info ⊆ Set.Iio n := by
      rintro _ ⟨a, ha, rfl⟩
      exact Nat.div_lt_of_lt_mul ((bootPages_lt ha).trans_le hn)
    have hle := Set.ncard_le_ncard hsub (Set.finite_Iio n)
    rwa [Set.ncard_Iio_nat] at hle
  have hgib := bound 30 4 (by decide)
  have hmib := bound 21 2048 (by decide)
  unfold tablesNeeded
  omega

theorem idle_accounting (h : Idle s held info) : s.pmm.freePages + held.card = s.pmm.totalPages := by
  have hcard : (pagesOf s.pmm.allocated).card = held.card := by
    congr 1
    ext page
    rw [h.pmm.mem_allocated, h.owned]
  have hsum := h.pmm.free
  have htotal := h.pmm.total
  omega

/-- A build that is stuck shows that too few pages were free at its start. -/
theorem stuck_planted (h : Idle s held info) (hfree : IsFree s.pmm c)
    (hstuck : Stuck (planted s c) held (· ∈ bootPages s.mem info)) : s.pmm.freePages < tablesNeeded s.mem info := by
  obtain ⟨t, v, ht, hv, hfits⟩ := hstuck
  have hlow : ∀ v ∈ bootPages s.mem info, v < 2 ^ 32 := fun v => bootPages_lt
  have hsub : tablePaths t ⊆ neededPaths (bootPages s.mem info) := by
    rintro q ⟨hlen, hnode⟩
    refine (needed_iff hlow ⟨v, hv⟩ q).mp ⟨hlen, ?_⟩
    by_cases hnil : q = []
    · exact .inl hnil
    · exact .inr (ht.fresh q hlen (planted_node s c hnil) hnode)
  have hcount : t.pagingTableCount + missing t [] (upper v) ≤ tablesNeeded s.mem info :=
    count_add_missing_le ht.inv hsub (bootPages_finite _ _) hlow hv
  have hsum := accounting ht.inv
  have hstart := idle_accounting h
  have htotal : t.pmm.totalPages = s.pmm.totalPages := by
    rw [ht.frame.total, (planted_memFrame hfree).total]
  have hle := tablesNeeded_le s.mem info
  unfold Fits maxTables at hfits
  omega

/-- What makes `paging_init` succeed, and nothing else does. -/
structure Accepts (L : Layout) (info : ℕ) (s : Machine) : Prop where
  inactive : s.active = false
  ready : s.pmm.ready = true
  cpu : supportedCpuState s.cpu s.cpu.cr4 = true
  pages : tablesNeeded s.mem info ≤ s.pmm.freePages
  writeBack : AllWriteBack s.mem info
  regions : RegionsIn s.mem info (BootRam s.mem info)
  guards : GuardsOk (BootRam s.mem info) (stackGuards L (bootInfoAt s.mem info))

theorem accepts_of_true (h : Idle s held info) (hok : (pagingInit L info s).1 = true) : Accepts L info s := by
  obtain ⟨hb, c, s1, s2, hfree, hmin, hmap, -⟩ := pagingInit_true h hok
  obtain ⟨s', hres, -⟩ | ⟨s', hres, hinst⟩ := pagingInit_cases (L := L) h
  · rw [hres] at hok
    exact absurd hok (by simp)
  · have hcount := Installed.count_eq h hres hinst
    have hsum := accounting hinst.built.tree
    have hstart := idle_accounting h
    rw [hinst.frame.total] at hsum
    refine ⟨h.inactive, ?_, ?_, by omega, ?_, hinst.regions, hinst.guards⟩
    · by_contra hno
      exact h.pmm.not_free_of_cold (by simpa using hno) c hfree
    · by_contra hno
      simp [pagingInit, pagingInitWith, Bool.eq_false_of_not_eq_true hno] at hok
    · have hplanted := planted_built (L := L) h hfree hmin
      have hwhole := mapBootRamFrom_refused (L := L) hb 65537 0 hplanted.tree (planted_memFrame hfree)
        (by have := mapCount_lt hb.valid; omega) (Nat.zero_le _) (fun j hj => absurd hj (Nat.not_lt_zero j))
      rw [Nat.zero_mul, ← mapBootRam, hmap] at hwhole
      exact hwhole.2 rfl

theorem true_of_accepts (h : Idle s held info) (ha : Accepts L info s) : (pagingInit L info s).1 = true := by
  have hb := h.boot ha.ready
  obtain ⟨-, hno⟩ | ⟨c, -, hfree, hmin, hnew⟩ := newTable_cases h.pmm
  · have hpages := ha.pages
    have hzero : s.pmm.freePages = 0 := by
      rcases hno with hno | hno
      · rw [h.count] at hno
        exact absurd hno (by decide)
      · exact h.pmm.freePages_eq_zero.mpr hno
    unfold tablesNeeded at hpages
    omega
  · have hbounds := h.pmm.bounds c hfree.1
    have hroot : 4096 * c ≠ 0 := by omega
    have hplanted := planted_built (L := L) h hfree hmin
    obtain ⟨hrefused, -⟩ := mapBootRamFrom_refused (L := L) hb 65537 0 hplanted.tree (planted_memFrame hfree)
      (by have := mapCount_lt hb.valid; omega) (Nat.zero_le _) (fun j hj => absurd hj (Nat.not_lt_zero j))
    rw [Nat.zero_mul, ← mapBootRam] at hrefused
    rcases hmap : mapBootRam L info (planted s c) with ⟨ok, s1⟩
    rw [hmap] at hrefused
    cases ok with
    | false =>
      rcases hrefused rfl with hno | hstuck
      · exact absurd ha.writeBack hno
      · have hlt := stuck_planted h hfree hstuck
        have hpages := ha.pages
        omega
    | true =>
      rw [planted] at hmap
      rw [pagingInit_of_built h hb ha.cpu hnew hroot hmap, checksPass_iff h hb hnew hroot hmap]
      exact ⟨ha.regions, ha.guards⟩

end Init

/-- Wherever well-behaved callers call it, `paging_init` succeeds just when the processor is set up
    for it, all boot RAM is write-back, the required regions and guards are boot RAM, and the
    tables for all boot RAM fit into the free pages. -/
theorem paging_init_accepts (L : Layout) (info : ℕ) (m : Memory) (cpu : Cpu) (calls : List Call)
    (hc : Follows OwnPages L info (World.powerOn m cpu) calls) :
    (pagingInit L info (run L info (World.powerOn m cpu) calls).machine).1 = true ↔
      Accepts L info (run L info (World.powerOn m cpu) calls).machine := by
  obtain hidle | ⟨base, hact⟩ := idle_or_active m cpu hc
  · exact ⟨accepts_of_true hidle.idle, true_of_accepts hidle.idle⟩
  · constructor
    · intro hok
      simp [pagingInit, pagingInitWith, hact.dyn.active] at hok
    · intro ha
      exact absurd (ha.inactive.symm.trans hact.dyn.active) (by simp)

/-- The sample machine has the pages for it. -/
theorem small_accepted : Accepts smallLayout smallInfo smallBefore.machine := by
  obtain ⟨m, cpu, calls, hc, hbefore⟩ := small_booted.reached
  have hok := small_booted.succeeded
  rw [hbefore] at hok ⊢
  exact (paging_init_accepts smallLayout smallInfo m cpu calls hc).mp hok

end OsByAi.PagingAcceptance
