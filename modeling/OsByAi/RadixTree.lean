import Mathlib

set_option autoImplicit false

/-!
# Radix trees stored in a heap of nodes

A node holds one word for each index and `child` decodes a word to the node below
it. Positions in the tree are paths from the root. Nodes are at depth at most `d`;
the words of a depth-`d` node are payload and are never decoded by `walk`.

A tree is separated when no node is reached along two paths. Three edits keep it
so: writing a payload word, linking a fresh empty node, unlinking an empty one.
Each acts on the tree of words as an update at a single position.
-/
namespace RadixTree

variable {N I W : Type}

def walk (child : W → Option N) (h : N → I → W) : N → List I → Option N
  | n, [] => some n
  | n, i :: p => (child (h n i)).bind fun c => walk child h c p

/-- The word at index `i` of the node at path `p`, or `z` when there is no such node. -/
def word (child : W → Option N) (z : W) (h : N → I → W) (r : N) (p : List I) (i : I) : W :=
  match walk child h r p with
  | some n => h n i
  | none => z

def Separated (child : W → Option N) (h : N → I → W) (r : N) (d : ℕ) : Prop :=
  ∀ p q n, p.length ≤ d → q.length ≤ d →
    walk child h r p = some n → walk child h r q = some n → p = q

def IsNode (child : W → Option N) (h : N → I → W) (r : N) (d : ℕ) (n : N) : Prop :=
  ∃ p, p.length ≤ d ∧ walk child h r p = some n

variable {child : W → Option N} {z w : W} {h h' : N → I → W} {r n c : N} {d : ℕ}
variable {p q : List I} {i j : I}

theorem walk_append (n : N) (p q : List I) :
    walk child h n (p ++ q) = (walk child h n p).bind fun c => walk child h c q := by
  induction p generalizing n with
  | nil => rfl
  | cons i p ih =>
    simp only [List.cons_append, walk]
    cases child (h n i) with
    | none => rfl
    | some c => exact ih c

theorem walk_concat (n : N) (p : List I) (i : I) :
    walk child h n (p ++ [i]) = (walk child h n p).bind fun c => child (h c i) := by
  rw [walk_append]
  congr 1
  funext c
  cases hc : child (h c i) <;> simp [walk, hc]

theorem walk_concat_word (hz : child z = none) (r : N) (p : List I) (i : I) :
    walk child h r (p ++ [i]) = child (word child z h r p i) := by
  rw [walk_concat, word]
  cases walk child h r p with
  | none => exact hz.symm
  | some n => rfl

theorem walk_none_below (hp : walk child h r p = none) (hq : p <+: q) :
    walk child h r q = none := by
  obtain ⟨t, rfl⟩ := hq
  rw [walk_append, hp]
  rfl

theorem walk_below_empty (hz : child z = none) (hempty : ∀ j, h c j = z) (k : I) (t : List I) :
    walk child h c (k :: t) = none := by
  rw [walk, hempty, hz]
  rfl

theorem walk_congr (q : List I)
    (hw : ∀ p i n, p ++ [i] <+: q → walk child h r p = some n → child (h' n i) = child (h n i)) :
    walk child h' r q = walk child h r q := by
  induction q using List.reverseRecOn with
  | nil => rfl
  | append_singleton q j ih =>
    have hq : walk child h' r q = walk child h r q :=
      ih fun p i n hp hn => hw p i n (hp.trans (List.prefix_append _ _)) hn
    rw [walk_concat, walk_concat, hq]
    cases hn : walk child h r q with
    | none => rfl
    | some m => exact hw q j m (List.prefix_refl _) hn

/-- Words of other positions are untouched by an edit at word `i` of node `n`. -/
def EditAt (child : W → Option N) (h h' : N → I → W) (r : N) (d : ℕ) (n : N) (i : I) (w : W) :
    Prop :=
  h' n i = w ∧ ∀ m j, IsNode child h r d m → (m ≠ n ∨ j ≠ i) → h' m j = h m j

theorem ne_of_off_path (hoff : ¬ p <+: q) : q ≠ p := by
  rintro rfl
  exact hoff (List.prefix_refl _)

theorem walk_edit_off (hs : Separated child h r d) (hp : walk child h r p = some n)
    (hpd : p.length ≤ d) (he : EditAt child h h' r d n i w) (hq : q.length ≤ d + 1)
    (hoff : ¬ p ++ [i] <+: q) : walk child h' r q = walk child h r q := by
  apply walk_congr
  intro p' j m hpre hm
  have hlen : p'.length ≤ d := by
    have := hpre.length_le
    simp at this
    omega
  rw [he.2 m j ⟨p', hlen, hm⟩]
  by_contra hne
  push Not at hne
  obtain ⟨rfl, rfl⟩ := hne
  exact hoff (hs p' p m hlen hpd hm hp ▸ hpre)

theorem walk_edit_on (hs : Separated child h r d) (hp : walk child h r p = some n)
    (hpd : p.length ≤ d) (he : EditAt child h h' r d n i w) (q : List I) :
    walk child h' r (p ++ [i] ++ q) = (child w).bind fun c => walk child h' c q := by
  have hpp : walk child h' r p = some n := by
    rw [walk_edit_off hs hp hpd he (by omega), hp]
    intro hpre
    have := hpre.length_le
    simp at this
  rw [walk_append, walk_concat, hpp]
  simp only [Option.bind_some, he.1]

variable [DecidableEq I]

/-- The common effect of the three edits: the walk changes at `p ++ [i]` alone. -/
structure Edited (child : W → Option N) (z : W) (h h' : N → I → W) (r : N) (d : ℕ)
    (p : List I) (i : I) (w : W) : Prop where
  walk_eq : ∀ q, q.length ≤ d →
    walk child h' r q = if q = p ++ [i] then child w else walk child h r q
  word_eq : ∀ q j, q.length ≤ d →
    word child z h' r q j = if q = p ∧ j = i then w else word child z h r q j
  separated : Separated child h' r d

theorem word_edit_off (hs : Separated child h r d) (hp : walk child h r p = some n)
    (hpd : p.length ≤ d) (he : EditAt child h h' r d n i w) (hq : q.length ≤ d)
    (hwalk : walk child h' r q = walk child h r q) :
    word child z h' r q j = if q = p ∧ j = i then w else word child z h r q j := by
  unfold word
  rw [hwalk]
  by_cases hqj : q = p ∧ j = i
  · obtain ⟨rfl, rfl⟩ := hqj
    simp [hp, he.1]
  · rw [if_neg hqj]
    cases hm : walk child h r q with
    | none => rfl
    | some m =>
      apply he.2 m j ⟨q, hq, hm⟩
      by_contra hne
      push Not at hne
      obtain ⟨rfl, rfl⟩ := hne
      exact hqj ⟨hs q p m hq hpd hm hp, rfl⟩

theorem edited_payload (hs : Separated child h r d) (hp : walk child h r p = some n)
    (hpd : p.length = d) (he : EditAt child h h' r d n i w) :
    Edited child z h h' r d p i w := by
  have hoff : ∀ q : List I, q.length ≤ d → ¬ p ++ [i] <+: q := by
    intro q hq hpre
    have := hpre.length_le
    simp at this
    omega
  have hwalk : ∀ q, q.length ≤ d → walk child h' r q = walk child h r q :=
    fun q hq => walk_edit_off hs hp hpd.le he (by omega) (hoff q hq)
  refine ⟨?_, fun q j hq => word_edit_off hs hp hpd.le he hq (hwalk q hq), ?_⟩
  · intro q hq
    rw [if_neg (ne_of_off_path (hoff q hq)), hwalk q hq]
  · intro a b m ha hb hma hmb
    rw [hwalk a ha] at hma
    rw [hwalk b hb] at hmb
    exact hs a b m ha hb hma hmb

/-- The node that hung from the word before the edit is empty, and so is a new one that hangs there
    after it. -/
theorem edited_inner (hz : child z = none) (hs : Separated child h r d)
    (hp : walk child h r p = some n) (hpd : p.length < d) (he : EditAt child h h' r d n i w)
    (hold : ∀ c, child (h n i) = some c → ∀ j, h c j = z)
    (hnew : ∀ c, child w = some c → (∀ j, h' c j = z) ∧ ¬ IsNode child h r d c) :
    Edited child z h h' r d p i w := by
  have hbefore : walk child h r (p ++ [i]) = child (h n i) := by
    rw [walk_concat, hp]
    rfl
  have hwalk : ∀ q, q.length ≤ d →
      walk child h' r q = if q = p ++ [i] then child w else walk child h r q := by
    intro q hq
    by_cases hpre : p ++ [i] <+: q
    · obtain ⟨t, rfl⟩ := hpre
      rw [walk_edit_on hs hp hpd.le he, walk_append, hbefore]
      cases t with
      | nil =>
        rw [List.append_nil, if_pos rfl]
        exact Option.bind_fun_some _
      | cons k t =>
        have hbelow : (child w).bind (fun c => walk child h' c (k :: t)) = none := by
          rw [Option.bind_eq_none_iff]
          exact fun c hc => walk_below_empty hz (hnew c hc).1 k t
        have hbelow' : (child (h n i)).bind (fun c => walk child h c (k :: t)) = none := by
          rw [Option.bind_eq_none_iff]
          exact fun c hc => walk_below_empty hz (hold c hc) k t
        rw [hbelow, hbelow', if_neg (by simp)]
    · rw [walk_edit_off hs hp hpd.le he (by omega) hpre, if_neg (ne_of_off_path hpre)]
  refine ⟨hwalk, ?_, ?_⟩
  · intro q j hq
    by_cases hqe : q = p ++ [i]
    · subst hqe
      rw [if_neg (by simp), word, word, hwalk _ hq, if_pos rfl, hbefore]
      cases hc : child w with
      | none =>
        cases hc' : child (h n i) with
        | none => rfl
        | some c' => exact (hold c' hc' j).symm
      | some c =>
        cases hc' : child (h n i) with
        | none => exact (hnew c hc).1 j
        | some c' => exact ((hnew c hc).1 j).trans (hold c' hc' j).symm
    · exact word_edit_off hs hp hpd.le he hq (by rw [hwalk q hq, if_neg hqe])
  · intro a b m ha hb hma hmb
    rw [hwalk a ha] at hma
    rw [hwalk b hb] at hmb
    by_cases hae : a = p ++ [i] <;> by_cases hbe : b = p ++ [i]
    · rw [hae, hbe]
    · rw [if_pos hae] at hma
      rw [if_neg hbe] at hmb
      exact absurd ⟨b, hb, hmb⟩ (hnew m hma).2
    · rw [if_neg hae] at hma
      rw [if_pos hbe] at hmb
      exact absurd ⟨a, ha, hma⟩ (hnew m hmb).2
    · rw [if_neg hae] at hma
      rw [if_neg hbe] at hmb
      exact hs a b m ha hb hma hmb

/-- Linking a node `c` that is not in the tree and whose words are all `z`. -/
theorem edited_link (hz : child z = none) (hs : Separated child h r d)
    (hp : walk child h r p = some n) (hpd : p.length < d) (he : EditAt child h h' r d n i w)
    (hold : child (h n i) = none) (hnew : child w = some c)
    (hfresh : ¬ IsNode child h r d c) (hempty : ∀ j, h' c j = z) :
    Edited child z h h' r d p i w := by
  apply edited_inner hz hs hp hpd he
  · intro c' hc'
    rw [hold] at hc'
    exact absurd hc' (by simp)
  · intro c' hc'
    obtain rfl := Option.some.inj (hnew.symm.trans hc')
    exact ⟨hempty, hfresh⟩

/-- Unlinking a node whose words are all `z`. -/
theorem edited_unlink (hz : child z = none) (hs : Separated child h r d)
    (hp : walk child h r p = some n) (hpd : p.length < d) (he : EditAt child h h' r d n i w)
    (hold : child (h n i) = some c) (hempty : ∀ j, h c j = z) (hnew : child w = none) :
    Edited child z h h' r d p i w := by
  apply edited_inner hz hs hp hpd he
  · intro c' hc'
    obtain rfl := Option.some.inj (hold.symm.trans hc')
    exact hempty
  · intro c' hc'
    rw [hnew] at hc'
    exact absurd hc' (by simp)

end RadixTree
