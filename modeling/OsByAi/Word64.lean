import Mathlib

set_option autoImplicit false

/-!
# Unsigned 64-bit arithmetic over the naturals

`add`, `sub` and `mul` wrap modulo `2 ^ 64`, as C's `uint64_t` does. The bit
operations are those of `ℕ`; the lemmas turn masks and shifts into division and
remainder, where `omega` applies.
-/
namespace Word64

def size : ℕ := 18446744073709551616

def add (a b : ℕ) : ℕ := (a + b) % size
def sub (a b : ℕ) : ℕ := (a + (size - b)) % size
def mul (a b : ℕ) : ℕ := a * b % size

theorem add_lt (a b : ℕ) : add a b < size := Nat.mod_lt _ (by decide)

theorem sub_lt (a b : ℕ) : sub a b < size := Nat.mod_lt _ (by decide)

theorem add_eq {a b : ℕ} (h : a + b < size) : add a b = a + b := Nat.mod_eq_of_lt h

theorem mul_eq {a b : ℕ} (h : a * b < size) : mul a b = a * b := Nat.mod_eq_of_lt h

theorem sub_eq {a b : ℕ} (h : b ≤ a) (ha : a < size) : sub a b = a - b := by
  unfold sub
  have e : a + (size - b) = (a - b) + size := by omega
  rw [e, Nat.add_mod_right, Nat.mod_eq_of_lt (by omega)]

/-- Bits 63 to 47 of a usable address are equal. -/
def Canonical (v : ℕ) : Prop := v < 2 ^ 47 ∨ (2 ^ 64 - 2 ^ 47 ≤ v ∧ v < 2 ^ 64)

instance (v : ℕ) : Decidable (Canonical v) := inferInstanceAs (Decidable (_ ∨ _ ∧ _))

theorem Canonical.lt {v : ℕ} (h : Canonical v) : v < size := by
  unfold Canonical at h
  unfold size
  omega

theorem and_low (x n : ℕ) : x &&& (2 ^ n - 1) = x % 2 ^ n := Nat.and_two_pow_sub_one_eq_mod x n

theorem and_field (x lo n : ℕ) :
    x &&& (2 ^ lo * (2 ^ n - 1)) = 2 ^ lo * (x / 2 ^ lo % 2 ^ n) := by
  apply Nat.eq_of_testBit_eq
  intro i
  rw [Nat.testBit_and, Nat.testBit_two_pow_mul, Nat.testBit_two_pow_mul,
    Nat.testBit_two_pow_sub_one, Nat.testBit_mod_two_pow, Nat.testBit_div_two_pow]
  by_cases h : lo ≤ i
  · have e : i - lo + lo = i := by omega
    simp [h, e, Bool.and_comm]
  · simp [h]

theorem and_page {x : ℕ} (h : x < size) : x &&& (size - 4096) = 4096 * (x / 4096) := by
  unfold size at h
  rw [show size - 4096 = 2 ^ 12 * (2 ^ 52 - 1) by decide, and_field]
  omega

theorem and_bit_ne_zero (x i : ℕ) : x &&& 2 ^ i ≠ 0 ↔ x / 2 ^ i % 2 = 1 := by
  rw [Nat.and_two_pow, Nat.testBit_eq_decide_div_mod_eq]
  by_cases h : x / 2 ^ i % 2 = 1 <;> simp [h]

theorem or_bit_ne_zero (x i : ℕ) : (x ||| 2 ^ i) &&& 2 ^ i ≠ 0 := by
  rw [Nat.and_two_pow, Nat.testBit_or, Nat.testBit_two_pow_self, Bool.or_true]
  simp

theorem or_disjoint {x i b : ℕ} (h : b < 2 ^ i) : 2 ^ i * x ||| b = 2 ^ i * x + b :=
  (Nat.two_pow_add_eq_or_of_lt h x).symm

end Word64
