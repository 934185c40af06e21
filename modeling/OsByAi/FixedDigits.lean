import OsByAi.Word64

set_option autoImplicit false

namespace FixedDigits

/-- The last `n` digits of `v`. -/
def digitsOf (b n v : ℕ) : List ℕ := (List.range n).map fun i => v / b ^ (n - 1 - i) % b

def valueOf (b : ℕ) (ds : List ℕ) : ℕ := ds.foldl (fun a d => b * a + d) 0

@[simp] theorem length_digitsOf (b n v : ℕ) : (digitsOf b n v).length = n := by simp [digitsOf]

theorem digitsOf_succ (b n v : ℕ) : digitsOf b (n + 1) v = digitsOf b n (v / b) ++ [v % b] := by
  have hlast : v / b ^ (n + 1 - 1 - n) % b = v % b := by simp
  rw [digitsOf, List.range_succ, List.map_append, List.map_singleton, hlast, digitsOf]
  congr 1
  apply List.map_congr_left
  intro i hi
  have hlt := List.mem_range.mp hi
  rw [show n + 1 - 1 - i = n - 1 - i + 1 by omega, Nat.pow_succ', Nat.div_div_eq_div_mul]

theorem valueOf_snoc (b : ℕ) (ds : List ℕ) (d : ℕ) : valueOf b (ds ++ [d]) = b * valueOf b ds + d := by
  rw [valueOf, List.foldl_append]
  rfl

theorem valueOf_digitsOf (b n v : ℕ) : valueOf b (digitsOf b n v) = v % b ^ n := by
  induction n generalizing v with
  | zero => rw [Nat.pow_zero, Nat.mod_one]; rfl
  | succ n ih => rw [digitsOf_succ, valueOf_snoc, ih, Nat.pow_succ', Nat.mod_mul, Nat.add_comm]

theorem digitsOf_lt {b : ℕ} (hb : 0 < b) (n v : ℕ) : ∀ d ∈ digitsOf b n v, d < b := by
  intro d hd
  obtain ⟨i, -, rfl⟩ := List.mem_map.mp hd
  exact Nat.mod_lt _ hb

theorem digitsOf_shift (k n v : ℕ) :
    digitsOf (2 ^ k) n v = (List.range n).map fun i => v >>> ((n - 1 - i) * k) &&& (2 ^ k - 1) := by
  apply List.map_congr_left
  intro i _
  rw [Word64.and_low, Nat.shiftRight_eq_div_pow, ← Nat.pow_mul, Nat.mul_comm]

section Texts

variable {γ : Type} (table : ℕ → γ) (digit : γ → Option ℕ)

/-- Reading a fixed number of digit characters at the front. -/
def readDigits : ℕ → List γ → Option (List ℕ × List γ)
  | 0, cs => some ([], cs)
  | _ + 1, [] => none
  | n + 1, c :: cs =>
    match digit c, readDigits n cs with
    | some d, some (ds, rest) => some (d :: ds, rest)
    | _, _ => none

theorem readDigits_map {b : ℕ} (hdigit : ∀ d, d < b → digit (table d) = some d) (ds : List ℕ) (hds : ∀ d ∈ ds, d < b)
    (rest : List γ) : readDigits digit ds.length (ds.map table ++ rest) = some (ds, rest) := by
  induction ds with
  | nil => rfl
  | cons d ds ih =>
    have hhere := hdigit d (hds d (by simp))
    have hrest := ih fun x hx => hds x (List.mem_cons_of_mem _ hx)
    simp only [List.length_cons, List.map_cons, List.cons_append, readDigits, hhere, hrest]

theorem readDigits_digitsOf {b : ℕ} (hb : 0 < b) (hdigit : ∀ d, d < b → digit (table d) = some d) (n v : ℕ)
    (rest : List γ) :
    (readDigits digit n ((digitsOf b n v).map table ++ rest)).map (fun r => (valueOf b r.1, r.2)) =
      some (v % b ^ n, rest) := by
  have hread := readDigits_map table digit hdigit (digitsOf b n v) (digitsOf_lt hb n v) rest
  rw [length_digitsOf] at hread
  rw [hread, Option.map_some, valueOf_digitsOf]

end Texts

end FixedDigits
