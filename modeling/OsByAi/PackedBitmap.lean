import Mathlib

set_option autoImplicit false

namespace PackedBitmap

abbrev Bitmap := ℕ → BitVec 64

def empty : Bitmap := fun _ => 0

def bit (map : Bitmap) (page : ℕ) : Bool := (map (page / 64) &&& (1#64 <<< (page % 64))) != 0

def set (map : Bitmap) (page : ℕ) : Bitmap :=
  Function.update map (page / 64) (map (page / 64) ||| (1#64 <<< (page % 64)))

def clear (map : Bitmap) (page : ℕ) : Bitmap :=
  Function.update map (page / 64) (map (page / 64) &&& ~~~(1#64 <<< (page % 64)))

/-- `for (page = lo; n iterations; ++page) set(map, page)`. -/
def setFrom (map : Bitmap) : ℕ → ℕ → Bitmap
  | _, 0 => map
  | lo, n + 1 => setFrom (set map lo) (lo + 1) n

def clearFrom (map : Bitmap) : ℕ → ℕ → Bitmap
  | _, 0 => map
  | lo, n + 1 => clearFrom (clear map lo) (lo + 1) n

theorem and_one_shiftLeft (w : BitVec 64) (k : ℕ) (hk : k < 64) :
    ((w &&& (1#64 <<< k)) != 0) = w.getLsbD k := by
  have e : w &&& (1#64 <<< k) = if w.getLsbD k then 1#64 <<< k else 0 := by
    apply BitVec.eq_of_getLsbD_eq
    intro i hi
    by_cases hik : i = k
    · subst i
      cases h : w.getLsbD k <;> simp [h]
    · have hne : ¬ (i - k = 0 ∧ k ≤ i) := by omega
      cases h : w.getLsbD k <;> simp [BitVec.getLsbD_shiftLeft] <;> omega
  have hp : 1#64 <<< k ≠ 0#64 := by
    intro h
    have := congrArg (fun x => BitVec.getLsbD x k) h
    simp [hk] at this
  rw [e]
  cases w.getLsbD k <;> simp [hp]

theorem bit_eq (map : Bitmap) (page : ℕ) : bit map page = (map (page / 64)).getLsbD (page % 64) :=
  and_one_shiftLeft _ _ (Nat.mod_lt _ (by decide))

theorem getLsbD_one_shiftLeft (k i : ℕ) (hi : i < 64) :
    (1#64 <<< k).getLsbD i = decide (i = k) := by
  rw [BitVec.getLsbD_shiftLeft]
  by_cases h : i = k
  · simp [h, show k < 64 by omega]
  · by_cases hlt : i < k
    · simp [hlt, h]
    · simp [h, hlt]
      omega

@[simp] theorem bit_empty (page : ℕ) : bit empty page = false := by
  simp [bit_eq, empty]

@[simp] theorem bit_set (map : Bitmap) (page q : ℕ) :
    bit (set map page) q = (decide (q = page) || bit map q) := by
  have hq : q % 64 < 64 := Nat.mod_lt _ (by decide)
  rw [bit_eq, bit_eq, set]
  by_cases hw : q / 64 = page / 64
  · have hiff : (q % 64 = page % 64) ↔ q = page := by omega
    rw [hw, Function.update_self, BitVec.getLsbD_or, getLsbD_one_shiftLeft _ _ hq]
    simp only [hiff, Bool.or_comm]
  · have hne : q ≠ page := fun h => hw (by rw [h])
    rw [Function.update_of_ne hw]
    simp [hne]

@[simp] theorem bit_clear (map : Bitmap) (page q : ℕ) :
    bit (clear map page) q = (!decide (q = page) && bit map q) := by
  have hq : q % 64 < 64 := Nat.mod_lt _ (by decide)
  rw [bit_eq, bit_eq, clear]
  by_cases hw : q / 64 = page / 64
  · have hiff : (q % 64 = page % 64) ↔ q = page := by omega
    rw [hw, Function.update_self, BitVec.getLsbD_and, BitVec.getLsbD_not,
      getLsbD_one_shiftLeft _ _ hq]
    simp only [hq, hiff, decide_true, Bool.true_and, Bool.and_comm]
  · have hne : q ≠ page := fun h => hw (by rw [h])
    rw [Function.update_of_ne hw]
    simp [hne]

theorem bit_setFrom (map : Bitmap) (lo n q : ℕ) :
    bit (setFrom map lo n) q = true ↔ (lo ≤ q ∧ q < lo + n) ∨ bit map q = true := by
  induction n generalizing map lo with
  | zero => simp [setFrom]
  | succ n ih =>
    rw [setFrom, ih, bit_set]
    simp only [Bool.or_eq_true, decide_eq_true_eq]
    constructor
    · rintro (h | h | h)
      · exact .inl (by omega)
      · exact .inl (by omega)
      · exact .inr h
    · rintro (h | h)
      · by_cases hq : q = lo
        · exact .inr (.inl hq)
        · exact .inl (by omega)
      · exact .inr (.inr h)

theorem bit_clearFrom (map : Bitmap) (lo n q : ℕ) :
    bit (clearFrom map lo n) q = true ↔ ¬ (lo ≤ q ∧ q < lo + n) ∧ bit map q = true := by
  induction n generalizing map lo with
  | zero => simp [clearFrom]
  | succ n ih =>
    rw [clearFrom, ih, bit_clear]
    simp only [Bool.and_eq_true, Bool.not_eq_true', decide_eq_false_iff_not]
    constructor
    · rintro ⟨h, hq, hb⟩
      exact ⟨by omega, hb⟩
    · rintro ⟨h, hb⟩
      exact ⟨by omega, by omega, hb⟩

theorem ext_bit {map map' : Bitmap} (h : ∀ page, bit map page = bit map' page) : map = map' := by
  funext w
  apply BitVec.eq_of_getLsbD_eq
  intro i hi
  have hb := h (64 * w + i)
  rw [bit_eq, bit_eq, show (64 * w + i) / 64 = w by omega, show (64 * w + i) % 64 = i by omega] at hb
  exact hb

theorem clear_set {map : Bitmap} {page : ℕ} (h : bit map page = false) :
    clear (set map page) page = map := by
  apply ext_bit
  intro q
  rw [bit_clear, bit_set]
  by_cases hq : q = page
  · rw [hq, h]
    simp
  · simp [hq]

end PackedBitmap
