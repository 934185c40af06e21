import OsByAi.PagingAddressSpace

set_option autoImplicit false

namespace OsByAi.PagingRefinement
open PmmModel PmmInvariant PmmBootMap PagingModel PagingEntries PagingTree PagingWalk PagingGrowth
open PagingDynamic KernelRuns PagingAddressSpace

def Answers (L : Layout) (info : ℕ) (s : Machine) (M : ℕ → Option (ℕ × Flags)) (c : Call) : Prop :=
  let r := (call L info s c).1
  match c with
  | .pagingQuery v physical flags =>
    (r.ok = true ↔ physical ≠ none ∧ flags ≠ none ∧ M v.toNat ≠ none) ∧
    (r.ok = true → ∀ a f, M v.toNat = some (a, f) → r.address = some a ∧ r.flags = some f) ∧
    (r.ok = false → r.address = physical ∧ r.flags = flags)
  | .pagingUnmap v => r.ok = true ↔ M v.toNat ≠ none
  | .pagingProtect v f => r.ok = true ↔ M v.toNat ≠ none ∧ f.toNat < 4
  | .pagingMap v p f =>
    r.ok = true ↔ Window v.toNat ∧ M v.toNat = none ∧ f.toNat < 4 ∧
      pmmIsAllocated s.pmm p.toNat = true ∧ p.toNat ∉ liveTables s ∧
      s.pagingTableCount + missing s [] (upper v.toNat) ≤ maxTables ∧
      missing s [] (upper v.toNat) ≤ s.pmm.freePages
  | _ => True

variable {L : Layout} {info : ℕ} {base : Machine} {w : World}

theorem answers_query (h : ActiveWorld base w) (v : BitVec 64) (physical : Option ℕ)
    (flags : Option Flags) :
    Answers L info w.machine w.ledger.mapping (.pagingQuery v physical flags) := by
  simp only [Answers, call]
  rw [← h.map]
  cases physical with
  | none => simp [pagingQuery]
  | some a =>
    cases flags with
    | none => simp [pagingQuery]
    | some f =>
      obtain ⟨hm, hq⟩ | ⟨b, g, hm, hq⟩ := query_cases h.dyn (toNat_lt_size v) a f
      · rw [hm, hq]
        simp
      · rw [hm, hq]
        refine ⟨by simp, ?_, by simp⟩
        rintro - b' g' ⟨⟩
        exact ⟨rfl, rfl⟩

theorem answers_unmap (h : ActiveWorld base w) (v : BitVec 64) :
    Answers L info w.machine w.ledger.mapping (.pagingUnmap v) := by
  simp only [Answers, call]
  rw [← h.map]
  obtain ⟨hu, hm⟩ | ⟨s', hu, hm, -⟩ := unmap_cases h.dyn (toNat_lt_size v)
  · rw [hu, hm]
    simp
  · rw [hu]
    exact iff_of_true rfl hm

theorem answers_protect (h : ActiveWorld base w) (v : BitVec 64) (f : Flags) :
    Answers L info w.machine w.ledger.mapping (.pagingProtect v f) := by
  simp only [Answers, call]
  rw [← h.map, ← validFlags_iff]
  obtain ⟨hp, hno⟩ | ⟨a, g, s', hp, hm, hf, -⟩ := protect_cases h.dyn (toNat_lt_size v) f
  · rw [hp]
    refine iff_of_false (by simp) ?_
    rintro ⟨hm, hf⟩
    rcases hno with hno | hno
    · exact hm hno
    · rw [hf] at hno
      exact absurd hno (by simp)
  · rw [hp, hm]
    exact iff_of_true rfl ⟨by simp, hf⟩

theorem answers_map (h : ActiveWorld base w) (v p : BitVec 64) (f : Flags) :
    Answers L info w.machine w.ledger.mapping (.pagingMap v p f) := by
  simp only [Answers, call]
  rw [← h.map, ← validFlags_iff]
  obtain ⟨s', hp, hno, -⟩ | ⟨s', hp, hok, -⟩ := map_cases h.dyn (toNat_lt_size v) p.toNat f
  · rw [hp]
    refine iff_of_false (by simp) ?_
    rintro ⟨hw, hm, hf, hall, hnot, hbudget, hfree⟩
    exact hno ⟨hw, hf, hall, hnot, hm, hbudget, hfree⟩
  · rw [hp]
    exact iff_of_true rfl ⟨hok.window, hok.unmapped, hok.flags, hok.allocated, hok.notTable,
      hok.fits.1, hok.fits.2⟩

theorem ActiveWorld.answers (h : ActiveWorld base w) (c : Call) :
    Answers L info w.machine w.ledger.mapping c := by
  cases c with
  | pagingQuery v physical flags => exact answers_query h v physical flags
  | pagingUnmap v => exact answers_unmap h v
  | pagingProtect v f => exact answers_protect h v f
  | pagingMap v p f => exact answers_map h v p f
  | _ => trivial

end OsByAi.PagingRefinement
