import Mathlib

set_option autoImplicit false

structure SetAllocator (α : Type) where
  eligible : Finset α
  allocated : Finset α
  sub : allocated ⊆ eligible

namespace SetAllocator

variable {α : Type}

theorem ext {a b : SetAllocator α} (he : a.eligible = b.eligible)
    (ha : a.allocated = b.allocated) : a = b := by
  cases a
  cases b
  cases he
  cases ha
  rfl

def fresh (eligible : Finset α) : SetAllocator α := ⟨eligible, ∅, Finset.empty_subset _⟩

variable [DecidableEq α]

def free (a : SetAllocator α) : Finset α := a.eligible \ a.allocated

def take (a : SetAllocator α) (x : α) (hx : x ∈ a.eligible) : SetAllocator α where
  eligible := a.eligible
  allocated := insert x a.allocated
  sub := Finset.insert_subset hx a.sub

def give (a : SetAllocator α) (x : α) : SetAllocator α where
  eligible := a.eligible
  allocated := a.allocated.erase x
  sub := (Finset.erase_subset _ _).trans a.sub

theorem mem_free (a : SetAllocator α) (x : α) :
    x ∈ a.free ↔ x ∈ a.eligible ∧ x ∉ a.allocated := Finset.mem_sdiff

theorem card_free (a : SetAllocator α) : a.free.card + a.allocated.card = a.eligible.card :=
  Finset.card_sdiff_add_card_eq_card a.sub

theorem free_eq_empty (a : SetAllocator α) : a.free = ∅ ↔ a.allocated = a.eligible := by
  rw [free, Finset.sdiff_eq_empty_iff_subset]
  exact ⟨fun h => Finset.Subset.antisymm a.sub h, fun h => h ▸ Finset.Subset.refl _⟩

theorem card_allocated_take (a : SetAllocator α) (x : α) (hx : x ∈ a.eligible)
    (hn : x ∉ a.allocated) : (a.take x hx).allocated.card = a.allocated.card + 1 :=
  Finset.card_insert_of_notMem hn

theorem card_allocated_give (a : SetAllocator α) (x : α) (hx : x ∈ a.allocated) :
    (a.give x).allocated.card + 1 = a.allocated.card :=
  Finset.card_erase_add_one hx

end SetAllocator
