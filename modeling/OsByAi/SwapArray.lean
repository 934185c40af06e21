import Mathlib

set_option autoImplicit false

namespace SwapArray

variable {α : Type}

def contents (f : ℕ → α) (m : ℕ) : List α := (List.range m).map f

theorem mem_contents (f : ℕ → α) (m : ℕ) (x : α) : x ∈ contents f m ↔ ∃ k < m, f k = x := by
  simp [contents]

theorem length_contents (f : ℕ → α) (m : ℕ) : (contents f m).length = m := by
  simp [contents]

theorem contents_congr {f g : ℕ → α} {m : ℕ} (h : ∀ k < m, f k = g k) :
    contents f m = contents g m := by
  apply List.map_congr_left
  intro k hk
  exact h k (List.mem_range.mp hk)

theorem nodup_contents_iff (f : ℕ → α) (m : ℕ) :
    (contents f m).Nodup ↔ ∀ j < m, ∀ k < m, f j = f k → j = k := by
  rw [contents, List.nodup_map_iff_inj_on List.nodup_range]
  simp only [List.mem_range]

theorem contents_succ (f : ℕ → α) (m : ℕ) : contents f (m + 1) = contents f m ++ [f m] := by
  rw [contents, List.range_succ, List.map_append]
  rfl

theorem contents_push (f : ℕ → α) (m : ℕ) (x : α) :
    contents (Function.update f m x) (m + 1) = contents f m ++ [x] := by
  rw [contents_succ, Function.update_self]
  congr 1
  exact contents_congr fun k hk => Function.update_of_ne (by omega) _ _

def removeAt (f : ℕ → α) (m k : ℕ) : ℕ → α := Function.update f k (f (m - 1))

section Remove

variable {f : ℕ → α} {m k : ℕ}

theorem removeAt_last : contents (removeAt f m (m - 1)) (m - 1) = contents f (m - 1) :=
  contents_congr fun j hj => Function.update_of_ne (by omega) _ _

theorem mem_removeAt (h : (contents f m).Nodup) (hk : k < m) (x : α) :
    x ∈ contents (removeAt f m k) (m - 1) ↔ x ∈ contents f m ∧ x ≠ f k := by
  rw [nodup_contents_iff] at h
  rw [mem_contents, mem_contents]
  constructor
  · rintro ⟨j, hj, rfl⟩
    by_cases he : j = k
    · subst j
      rw [removeAt, Function.update_self]
      refine ⟨⟨m - 1, by omega, rfl⟩, fun hx => ?_⟩
      have := h (m - 1) (by omega) k hk hx
      omega
    · rw [removeAt, Function.update_of_ne he]
      exact ⟨⟨j, by omega, rfl⟩, fun hx => he (h j (by omega) k hk hx)⟩
  · rintro ⟨⟨j, hj, rfl⟩, hne⟩
    have hjk : j ≠ k := fun e => hne (by rw [e])
    by_cases hl : j = m - 1
    · refine ⟨k, by omega, ?_⟩
      rw [removeAt, Function.update_self, hl]
    · refine ⟨j, by omega, ?_⟩
      rw [removeAt, Function.update_of_ne hjk]

theorem mem_of_mem_removeAt (hk : k < m) {x : α} (h : x ∈ contents (removeAt f m k) (m - 1)) :
    x ∈ contents f m := by
  rw [mem_contents] at h ⊢
  obtain ⟨j, hj, rfl⟩ := h
  by_cases he : j = k
  · rw [removeAt, he, Function.update_self]
    exact ⟨m - 1, by omega, rfl⟩
  · rw [removeAt, Function.update_of_ne he]
    exact ⟨j, by omega, rfl⟩

theorem nodup_removeAt (h : (contents f m).Nodup) (hk : k < m) :
    (contents (removeAt f m k) (m - 1)).Nodup := by
  rw [nodup_contents_iff] at h ⊢
  intro a ha b hb hab
  unfold removeAt at hab
  by_cases hak : a = k <;> by_cases hbk : b = k
  · rw [hak, hbk]
  · rw [hak, Function.update_self, Function.update_of_ne hbk] at hab
    have := h (m - 1) (by omega) b (by omega) hab
    omega
  · rw [hbk, Function.update_self, Function.update_of_ne hak] at hab
    have := h a (by omega) (m - 1) (by omega) hab
    omega
  · rw [Function.update_of_ne hak, Function.update_of_ne hbk] at hab
    exact h a (by omega) b (by omega) hab

theorem find_position [DecidableEq α] (h : (contents f m).Nodup) (hk : k < m) :
    (List.range m).find? (fun i => f i == f k) = some k := by
  rw [nodup_contents_iff] at h
  cases hf : (List.range m).find? (fun i => f i == f k) with
  | none =>
    rw [List.find?_eq_none] at hf
    exact absurd (by simp) (hf k (List.mem_range.mpr hk))
  | some j =>
    have hj := List.mem_range.mp (List.mem_of_find?_eq_some hf)
    have he := List.find?_some hf
    rw [h j hj k hk (by simpa using he)]

end Remove

end SwapArray
