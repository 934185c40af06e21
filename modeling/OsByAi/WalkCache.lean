import OsByAi.RadixTree

set_option autoImplicit false

/-!
# Caches of partial walks

A processor that walks a radix tree may keep what it read on the way, and may start a
later walk from any such record. `Extends` is everything it can come to hold: records
made from the root, records it has, and records one word longer, read in the heap as
it is now. The words on a record's path may change after it was made. A record is
current when they have not, and dead when nothing can be read on from it, so that a
cache of current and dead records never yields a new stale one.
-/
namespace WalkCache
open RadixTree

variable {N I W T : Type}

/-- The words read along a path. The tag tells records with the same words apart. -/
structure Record (I W T : Type) where
  path : List I
  words : List W
  tag : T

def target (child : W → Option N) (r : N) (words : List W) : Option N :=
  match words.getLast? with
  | none => some r
  | some w => child w

/-- A record that starts at the root gets the tag `t`; one that starts from a record keeps its tag. -/
inductive Extends (child : W → Option N) (h : N → I → W) (r : N) (d : ℕ) (t : T) (C : Set (Record I W T)) :
    Record I W T → Prop
  | root : Extends child h r d t C ⟨[], [], t⟩
  | cached {x : Record I W T} (hx : x ∈ C) : Extends child h r d t C x
  | step {x : Record I W T} {n : N} (i : I) (hx : Extends child h r d t C x) (hlen : x.path.length ≤ d)
      (hn : target child r x.words = some n) (hpresent : child (h n i) ≠ none) :
      Extends child h r d t C ⟨x.path ++ [i], x.words ++ [h n i], x.tag⟩

/-- The words of a record are the ones on its path now, and each leads on. -/
structure Current (child : W → Option N) (z : W) (h : N → I → W) (r : N) (x : Record I W T) : Prop where
  length : x.words.length = x.path.length
  words : ∀ q i, q ++ [i] <+: x.path → x.words[q.length]? = some (word child z h r q i) ∧
    child (word child z h r q i) ≠ none

/-- Nothing is read on from the record. -/
def Dead (child : W → Option N) (h : N → I → W) (r : N) (d : ℕ) (x : Record I W T) : Prop :=
  d < x.path.length ∨ ∀ n, target child r x.words = some n → ∀ i, child (h n i) = none

variable {child : W → Option N} {z w : W} {h h' : N → I → W} {r : N} {d : ℕ} {t : T}
variable {C : Set (Record I W T)} {x : Record I W T} {p : List I} {i : I}

theorem current_root : Current child z h r (⟨[], [], t⟩ : Record I W T) := by
  refine ⟨rfl, fun q i hq => ?_⟩
  have := hq.length_le
  simp at this

theorem Current.target_eq (hz : child z = none) (hx : Current child z h r x) :
    target child r x.words = walk child h r x.path := by
  obtain ⟨path, words, tag⟩ := x
  obtain ⟨hlen, hwords⟩ := hx
  simp only at hlen hwords ⊢
  rcases List.eq_nil_or_concat path with rfl | ⟨q, i, rfl⟩
  · have hnil : words = [] := List.eq_nil_of_length_eq_zero (by simpa using hlen)
    rw [hnil]
    rfl
  · rw [List.concat_eq_append] at hlen hwords ⊢
    obtain ⟨hword, -⟩ := hwords q i (List.prefix_refl _)
    have hlast : words.getLast? = some (word child z h r q i) := by
      rw [List.getLast?_eq_getElem?, ← hword, hlen]
      simp
    rw [target, hlast, walk_concat_word hz]

theorem Current.step (hz : child z = none) {n : N} (hx : Current child z h r x) (i : I)
    (hn : target child r x.words = some n) (hpresent : child (h n i) ≠ none) :
    Current child z h r ⟨x.path ++ [i], x.words ++ [h n i], x.tag⟩ := by
  have hword : word child z h r x.path i = h n i := by
    rw [hx.target_eq hz] at hn
    rw [word, hn]
  refine ⟨by simp [hx.length], ?_⟩
  intro q j hq
  rcases List.prefix_concat_iff.mp hq with heq | hpre
  · obtain ⟨rfl, hj⟩ := List.append_inj' heq rfl
    obtain rfl : j = i := by simpa using hj
    rw [hword, ← hx.length]
    exact ⟨List.getElem?_concat_length, hpresent⟩
  · obtain ⟨hget, hchild⟩ := hx.words q j hpre
    refine ⟨?_, hchild⟩
    have hlt : q.length < x.words.length := by
      have := hpre.length_le
      rw [hx.length]
      simp at this
      omega
    rw [List.getElem?_append_left hlt, hget]

theorem Extends.current_or (hz : child z = none)
    (hC : ∀ x ∈ C, Current child z h r x ∨ Dead child h r d x) (hx : Extends child h r d t C x) :
    Current child z h r x ∨ x ∈ C := by
  induction hx with
  | root => exact .inl current_root
  | cached hx => exact .inr hx
  | step i hx hlen hn hpresent ih =>
    rcases ih with hcur | hmem
    · exact .inl (hcur.step hz i hn hpresent)
    · rcases hC _ hmem with hcur | hdeep | hdead
      · exact .inl (hcur.step hz i hn hpresent)
      · omega
      · exact absurd (hdead _ hn i) hpresent

theorem Extends.length_le (hC : ∀ x ∈ C, x.path.length ≤ d + 1) (hx : Extends child h r d t C x) :
    x.path.length ≤ d + 1 := by
  induction hx with
  | root => simp
  | cached hx => exact hC _ hx
  | step i hx hlen hn hpresent ih => simpa using hlen

theorem Extends.tag_cases (hx : Extends child h r d t C x) : x.tag = t ∨ ∃ y ∈ C, y.tag = x.tag := by
  induction hx with
  | root => exact .inl rfl
  | cached hx => exact .inr ⟨_, hx, rfl⟩
  | step i hx hlen hn hpresent ih => exact ih

theorem Current.congr {h' : N → I → W} {r' : N} (hx : Current child z h r x)
    (hw : ∀ q i, q ++ [i] <+: x.path → word child z h' r' q i = word child z h r q i) :
    Current child z h' r' x := by
  refine ⟨hx.length, fun q i hq => ?_⟩
  rw [hw q i hq]
  exact hx.words q i hq

section Edit

variable [DecidableEq I]

def EditedAt (child : W → Option N) (z : W) (h h' : N → I → W) (r : N) (d : ℕ) (p : List I) (i : I) (w : W) :
    Prop := ∀ q j, q.length ≤ d → word child z h' r q j = if q = p ∧ j = i then w else word child z h r q j

variable (he : EditedAt child z h h' r d p i w)
include he

theorem Current.edited (hx : Current child z h r x) (hlen : x.path.length ≤ d + 1) (hoff : ¬ p ++ [i] <+: x.path) :
    Current child z h' r x := by
  refine hx.congr fun q j hq => ?_
  have hshort := hq.length_le
  simp at hshort
  rw [he q j (by omega), if_neg]
  rintro ⟨rfl, rfl⟩
  exact hoff hq

/-- No record goes through a word that leads nowhere, so filling it leaves every record current. -/
theorem Current.filled (hx : Current child z h r x) (hlen : x.path.length ≤ d + 1)
    (hold : child (word child z h r p i) = none) : Current child z h' r x :=
  hx.edited he hlen fun hpre => (hx.words p i hpre).2 hold

/-- Of the records through a word whose node is empty, only the one that ends there is left. -/
theorem Current.emptied (hx : Current child z h r x) (hlen : x.path.length ≤ d + 1)
    (hempty : ∀ j, child (word child z h r (p ++ [i]) j) = none) :
    Current child z h' r x ∨ x.path = p ++ [i] := by
  by_cases hpre : p ++ [i] <+: x.path
  · obtain ⟨rest, hrest⟩ := hpre
    cases rest with
    | nil => exact .inr (by rw [← hrest, List.append_nil])
    | cons j rest => exact absurd (hempty j) (hx.words (p ++ [i]) j ⟨rest, by rw [← hrest]; simp⟩).2
  · exact .inl (hx.edited he hlen hpre)

end Edit

end WalkCache
