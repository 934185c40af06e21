import OsByAi.PmmBootCheck
import OsByAi.PagingOwnership
import OsByAi.PagingBlocks
import OsByAi.PagingIsolation

set_option autoImplicit false

namespace OsByAi.PagingCheckCalls
open Word64 (Canonical)
open ByteMemory PackedBitmap BootInformation PmmModel PmmInvariant PmmBootMap PagingModel PagingEntries PagingTree
open PagingWalk PagingGrowth PagingDynamic PagingBuild PagingInit KernelRuns PagingAddressSpace PagingOwnership
open PagingIsolation PagingBlocks BootChecks

abbrev Mapping : Type := ℕ → Option (ℕ × Flags)

abbrev At (base s : Machine) (held : Finset ℕ) (M : Mapping) : Prop := ActiveWorld base ⟨s, ⟨held, M⟩⟩

section Counting

variable {base s t : Machine} {held held' : Finset ℕ} {M M' : Mapping} {v u : ℕ}

/-- `paging_init` left `base`: its tables are all below the window. -/
structure Fresh (base : Machine) : Prop where
  tree : ∃ held, TreeInv base held
  low : ∀ p ∈ tablePaths base, p.head? ≠ some 256

theorem At.owned (hb : Fresh base) (h : At base s held M) : TablesOwned base ⟨s, ⟨held, M⟩⟩ := by
  obtain ⟨_, htree⟩ := hb.tree
  exact ActiveWorld.tablesOwned htree hb.low h

theorem At.free_eq (hb : Fresh base) (h : At base s held M) :
    s.pmm.freePages + s.pagingTableCount + held.card = base.pmm.totalPages := by
  obtain ⟨hle, hsum⟩ := (At.owned hb h).accounting
  have htotal := h.frame.total
  simp only at hle hsum htotal
  omega

theorem At.count_none (hb : Fresh base) (h : At base s held fun _ => none) :
    s.pagingTableCount = base.pagingTableCount := (At.owned hb h).drained fun _ => rfl

theorem At.count_one (hb : Fresh base) (h : At base s held M) (hM : {w | M w ≠ none} = {v}) :
    s.pagingTableCount = base.pagingTableCount + 3 := by
  have hcount := (At.owned hb h).count
  simp only [hM, Set.image_singleton, Set.ncard_singleton, Set.singleton_nonempty, if_true] at hcount
  omega

theorem missing_le_one (h : At base s held M) (hv : Window v) (hu : Window u) (hm : M v ≠ none)
    (hgib : pageIndex v 30 = pageIndex u 30) : missing s [] (upper u) ≤ 1 := by
  have hmem : v ∈ mappedSet s := by
    change dynamicMap s v ≠ none
    rw [h.map]
    exact hm
  have hupper := Window.upper_eq hv
  have hpresent : ∀ q : Path, q.length ≤ 3 → q.head? = some 256 → q <+: upper v → node s q ≠ none :=
    fun q hq hhead hpre => (DynInv.node_iff h.dyn hq hhead).mpr ⟨v, hmem, hpre⟩
  have hone := hpresent [pageIndex u 39] (by simp) (by rw [hu.slot]; rfl) (by rw [hupper, hu.slot]; exact ⟨_, rfl⟩)
  have htwo := hpresent [pageIndex u 39, pageIndex u 30] (by simp) (by rw [hu.slot]; rfl)
    (by rw [hupper, hu.slot, hgib]; exact ⟨_, rfl⟩)
  have hshape : upper u = [pageIndex u 39, pageIndex u 30, pageIndex u 21] := rfl
  rw [hshape, missing, missing, missing, missing]
  simp only [List.nil_append, List.cons_append, hone, htwo, if_false]
  split <;> omega

theorem missing_none (h : At base s held fun _ => none) (hu : Window u) : missing s [] (upper u) = 3 := by
  refine missing_absent s fun q hq => ?_
  by_contra hn
  obtain ⟨w, hw, -⟩ := (DynInv.node_iff h.dyn (by simp; omega) (by rw [hu.slot]; rfl)).mp hn
  refine hw ?_
  rw [h.map]

end Counting

section Calls

variable {base s t : Machine} {held : Finset ℕ} {M : Mapping} {v p page a : ℕ} {f : Flags}

/-- A managed page is reached at its own address, for reading and writing. -/
def RamReached (base : Machine) : Prop :=
  ∀ s held M, At base s held M → ∀ a, bit base.pmm.eligible (a / 4096) = true →
    reached s a = some ⟨4096 * (a / 4096), true, false, false⟩

theorem At.held_eligible (h : At base s held M) (hp : page ∈ held) : bit base.pmm.eligible page = true := by
  have he := h.dyn.tree.pmm.sub _ ((h.dyn.tree.owned page).mpr (.inr hp))
  have := h.frame.eligible
  rw [← this]
  exact he

theorem allocPage_reaches (h : At base s held M) (hfree : s.pmm.freePages ≠ 0) :
    allocPage.Reaches s fun a t => ∃ page, a = 4096 * page ∧ 0 < page ∧ page ∉ held ∧
      At base t (insert page held) M ∧ t.mem = s.mem := by
  have hdyn := h.dyn
  obtain ⟨-, hno | hno⟩ | ⟨page, -, -, hf, hmin, ha⟩ := hdyn.tree.pmm.alloc_cases (some 0)
  · exact absurd hno (by simp)
  · exact absurd (hdyn.tree.pmm.freePages_eq_zero.mpr hno) hfree
  · refine ⟨4096 * page, { s with pmm := takePage s.pmm page }, ?_, page, rfl, ?_, ?_, ?_, rfl⟩
    · unfold allocPage
      rw [ha, Nat.mul_comm]
    · have := (hdyn.tree.pmm.bounds page hf.1).1
      omega
    · intro hh
      have := (hdyn.tree.owned page).mpr (.inr hh)
      rw [hf.2] at this
      exact absurd this (by simp)
    · exact h.elsewhere (DynInv.alloc hdyn hf hmin) (sameTables_pmm s _) ⟨rfl, rfl, rfl, fun _ _ => rfl⟩ rfl

theorem freeingPage_reaches (h : At base s held M) (page : ℕ) (hp : page ∈ held) :
    (freeingPage (4096 * page)).Reaches s fun ok t => ok = true ∧ At base t (held.erase page) M ∧ t.mem = s.mem := by
  have hdyn := h.dyn
  have hdiv : 4096 * page / 4096 = page := Nat.mul_div_cancel_left _ (by decide)
  have hb := (hdyn.tree.owned page).mpr (.inr hp)
  apply Attempt.reaches_perform
  obtain ⟨-, hno⟩ | ⟨-, -, hf⟩ := hdyn.tree.pmm.free_cases (4096 * page)
  · exact absurd ⟨Nat.mul_mod_right _ _, by rw [hdiv]; exact hb⟩ hno
  · rw [hdiv] at hf
    rw [hf]
    exact ⟨rfl, h.elsewhere (DynInv.free hdyn hp) (sameTables_pmm s _) ⟨rfl, rfl, rfl, fun _ _ => rfl⟩ rfl, rfl⟩

theorem mapping_reaches (h : At base s held M) (hv : v < Word64.size) (hok : MapAllowed s v p f) :
    (mapping v p f).Reaches s fun ok t => ok = true ∧
      At base t held (Function.update M v (some (p, f))) ∧ KeepsHeld held s t := by
  have hkeeps := (pagingMap_blocks (v := v) h.dyn.tree p f).keepsHeld
  apply Attempt.reaches_perform
  obtain ⟨s', hm, hno, -⟩ | ⟨s', hm, -, hch⟩ := map_cases h.dyn hv p f
  · exact absurd hok hno
  · simp only [hm] at hkeeps ⊢
    exact ⟨trivial, h.changed hch, hkeeps⟩

theorem mapping_refused (h : At base s held M) (hv : v < Word64.size) (hno : ¬ MapAllowed s v p f) :
    (mapping v p f).Reaches s fun ok t => ok = false ∧ At base t held M ∧ KeepsHeld held s t := by
  have hkeeps := (pagingMap_blocks (v := v) h.dyn.tree p f).keepsHeld
  apply Attempt.reaches_perform
  obtain ⟨s', hm, -, hag⟩ | ⟨s', hm, hok, -⟩ := map_cases h.dyn hv p f
  · simp only [hm] at hkeeps ⊢
    exact ⟨trivial, h.agree hag, hkeeps⟩
  · exact absurd hok hno

theorem unmapping_reaches (h : At base s held M) (hv : v < Word64.size) (hm : M v ≠ none) :
    (unmapping v).Reaches s fun ok t => ok = true ∧ At base t held (Function.update M v none) ∧ KeepsHeld held s t := by
  have hkeeps := (pagingUnmap_blocks (v := v) h.dyn hv).keepsHeld
  apply Attempt.reaches_perform
  obtain ⟨-, hno⟩ | ⟨s', hu, -, hch⟩ := unmap_cases h.dyn hv
  · rw [h.map] at hno
    exact absurd hno hm
  · simp only [hu] at hkeeps ⊢
    exact ⟨trivial, h.changed hch, hkeeps⟩

theorem unmapping_refused (h : At base s held M) (hv : v < Word64.size) (hm : M v = none) :
    (unmapping v).Reaches s fun ok t => ok = false ∧ s = t := by
  apply Attempt.reaches_perform
  obtain ⟨hu, -⟩ | ⟨s', -, hno, -⟩ := unmap_cases h.dyn hv
  · rw [hu]
    exact ⟨rfl, rfl⟩
  · rw [h.map] at hno
    exact absurd hm hno

theorem protecting_reaches (h : At base s held M) (hv : v < Word64.size) {g : Flags} (hm : M v = some (a, g))
    (hf : validFlags f = true) :
    (protecting v f).Reaches s fun ok t => ok = true ∧
      At base t held (Function.update M v (some (a, f))) ∧ KeepsHeld held s t := by
  have hkeeps := (pagingProtect_blocks (v := v) h.dyn hv f).keepsHeld
  apply Attempt.reaches_perform
  obtain ⟨-, hno | hno⟩ | ⟨b, g', s', hp, hmap, -, hch⟩ := protect_cases h.dyn hv f
  · rw [h.map] at hno
    exact absurd (hm.symm.trans hno) (by simp)
  · exact absurd (hf.symm.trans hno) (by simp)
  · rw [h.map] at hmap
    obtain rfl : b = a := congrArg Prod.fst (Option.some.inj (hmap.symm.trans hm))
    simp only [hp] at hkeeps ⊢
    exact ⟨trivial, h.changed hch, hkeeps⟩

theorem protecting_refused (h : At base s held M) (hv : v < Word64.size) (hm : M v = none) :
    (protecting v f).Reaches s fun ok t => ok = false ∧ s = t := by
  apply Attempt.reaches_perform
  obtain ⟨hp, -⟩ | ⟨b, g', s', -, hmap, -, -⟩ := protect_cases h.dyn hv f
  · rw [hp]
    exact ⟨rfl, rfl⟩
  · rw [h.map] at hmap
    exact absurd (hm.symm.trans hmap) (by simp)

theorem querying_reaches (h : At base s held M) (hv : v < Word64.size) (hm : M v = some (a, f)) (r : ℕ) (g : Flags) :
    (querying v r g).Reaches s fun answer t => (true, some a, some f) = answer ∧ s = t := by
  apply Attempt.reaches_inspect
  obtain ⟨hno, -⟩ | ⟨b, g', hmap, hq⟩ := query_cases h.dyn hv r g
  · rw [h.map] at hno
    exact absurd (hm.symm.trans hno) (by simp)
  · rw [h.map] at hmap
    obtain ⟨rfl, rfl⟩ := Prod.mk.inj (Option.some.inj (hmap.symm.trans hm))
    exact ⟨hq.symm, rfl⟩

theorem querying_refused (h : At base s held M) (hv : v < Word64.size) (hm : M v = none) (r : ℕ) (g : Flags) :
    (querying v r g).Reaches s fun answer t => (false, some r, some g) = answer ∧ s = t := by
  apply Attempt.reaches_inspect
  obtain ⟨-, hq⟩ | ⟨b, g', hmap, -⟩ := query_cases h.dyn hv r g
  · exact ⟨hq.symm, rfl⟩
  · rw [h.map] at hmap
    exact absurd (hm.symm.trans hmap) (by simp)

theorem loadAt_reaches {tr : Translation} (hr : reached s a = some tr) :
    (loadAt a).Reaches s fun x t => load s.mem (tr.physical + a % 4096) 8 = x ∧ s = t := by
  refine ⟨_, s, ?_, rfl, rfl⟩
  unfold loadAt
  rw [hr]
  rfl

theorem At.store64 (h : At base s held M) (hp : page ∈ held) (x : ℕ) : At base (s.store64 (4096 * page) x) held M := by
  have hother : ∀ y, y / 4096 ≠ page → (s.store64 (4096 * page) x).mem y = s.mem y := by
    intro y hy
    rw [store64_mem, store_of_outside]
    omega
  have hs : SameTables s (s.store64 (4096 * page) x) := by
    refine ⟨rfl, fun y hy => hother y ?_⟩
    rintro rfl
    exact h.dyn.tree.disjoint _ hp hy
  refine h.elsewhere (h.dyn.sameTables hs (hs.treeInv h.dyn.tree h.dyn.tree.pmm rfl h.dyn.tree.owned h.dyn.tree.disjoint)
    rfl rfl) hs ⟨rfl, rfl, rfl, fun y hy => hother y ?_⟩ rfl
  rintro rfl
  have hel := At.held_eligible h hp
  rw [← h.frame.eligible, hy] at hel
  exact absurd hel (by simp)

theorem storeAt_reaches (h : At base s held M) {tr : Translation} (hr : reached s a = some tr)
    (hw : tr.writable = true) (hpage : tr.physical = 4096 * page) (hp : page ∈ held) (ha : a % 4096 = 0) (x : ℕ) :
    (storeAt a x).Reaches s fun _ t => At base t held M ∧ t.mem = store s.mem (4096 * page) 8 x := by
  refine ⟨(), s.store64 (4096 * page) x, ?_, At.store64 h hp x, store64_mem s _ _⟩
  unfold storeAt
  simp only [hr, hw, hpage, ha, if_true, Nat.add_zero]

theorem reached_window (hcr3 : base.cpu.cr3 = base.pagingRoot) (h : At base s held M) (hv : v < Word64.size)
    (hm : M v = some (4096 * page, f)) :
    reached s v = some ⟨4096 * page, wantsWrite f, wantsExec f, false⟩ := by
  have hroot : s.cpu.cr3 = s.pagingRoot := by
    rw [show s.cpu = base.cpu from h.cpu, hcr3, show s.pagingRoot = base.pagingRoot from h.root]
  obtain ⟨hno, -⟩ | ⟨n1, n2, n3, q, g, hw, -, hq, hg, hl, hmap, -⟩ := h.dyn.find hv
  · rw [h.map] at hno
    exact absurd (hm.symm.trans hno) (by simp)
  · rw [h.map] at hmap
    obtain ⟨hpage, rfl⟩ := Prod.mk.inj (Option.some.inj (hmap.symm.trans hm))
    obtain rfl : q = page := by omega
    have hcanonical : Canonical v := by
      obtain ⟨-, hlo, hhi⟩ := hw
      unfold pagingDynamicBase at hlo
      exact .inr ⟨by omega, hv⟩
    have hnx := leafEntry_nx hq (wantsWrite g) (!wantsExec g)
    have hx : (leafEntry q (wantsWrite g) (!wantsExec g) &&& nx == 0) = wantsExec g := Bool.not_inj hnx
    rw [reached, hroot, PagingAddressSpace.translate_eq h.dyn.tree, hl, if_pos ⟨hcanonical, leafEntry_mod_two _ _ _⟩,
      leafEntry_mask hq, leafEntry_write, hx]

end Calls

end OsByAi.PagingCheckCalls
