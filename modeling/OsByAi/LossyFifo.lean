import Mathlib

set_option autoImplicit false

/-!
# Bounded queues that report loss

A queue that overflows, or is told of a loss, forgets what it holds and refuses new
items until a reader has been told. `ring` reads such a queue out of a circular
array.
-/

inductive LossyFifo (α : Type) where
  | failed
  | items (l : List α)
deriving DecidableEq

namespace LossyFifo

variable {α : Type}

/-- What a reader gets: nothing, the news of a loss, or the oldest item. -/
inductive Answer (α : Type) where
  | empty
  | lost
  | item (x : α)
deriving DecidableEq

def push (capacity : ℕ) (x : α) : LossyFifo α → Bool × LossyFifo α
  | failed => (false, failed)
  | items l => if l.length < capacity then (true, items (l ++ [x])) else (false, failed)

def read : LossyFifo α → Answer α × LossyFifo α
  | failed => (.lost, items [])
  | items [] => (.empty, items [])
  | items (x :: l) => (.item x, items l)

section Ring

variable (capacity : ℕ)

/-- The `n` cells of the array from `tail` on. -/
def ring (data : ℕ → α) (tail n : ℕ) : List α :=
  (List.range n).map fun i => data ((tail + i) % capacity)

@[simp] theorem length_ring (data : ℕ → α) (tail n : ℕ) : (ring capacity data tail n).length = n := by
  simp [ring]

theorem ring_zero (data : ℕ → α) (tail : ℕ) : ring capacity data tail 0 = [] := rfl

theorem ring_succ {tail : ℕ} (ht : tail < capacity) (data : ℕ → α) (n : ℕ) :
    ring capacity data tail (n + 1) = data tail :: ring capacity data ((tail + 1) % capacity) n := by
  unfold ring
  rw [List.range_succ_eq_map, List.map_cons, List.map_map, Nat.add_zero, Nat.mod_eq_of_lt ht]
  congr 1
  apply List.map_congr_left
  intro i _
  simp only [Function.comp_apply, Nat.mod_add_mod]
  congr 2
  omega

theorem ring_update {tail n : ℕ} (hn : n < capacity) (data : ℕ → α) (x : α) :
    ring capacity (Function.update data ((tail + n) % capacity) x) tail (n + 1) =
      ring capacity data tail n ++ [x] := by
  unfold ring
  rw [List.range_succ, List.map_append, List.map_singleton, Function.update_self]
  congr 1
  apply List.map_congr_left
  intro i hi
  have hlt := List.mem_range.mp hi
  apply Function.update_of_ne
  intro he
  have hmod : i ≡ n [MOD capacity] := Nat.ModEq.add_left_cancel' tail he
  have := Nat.ModEq.eq_of_lt_of_lt hmod (by omega) hn
  omega

end Ring

end LossyFifo
