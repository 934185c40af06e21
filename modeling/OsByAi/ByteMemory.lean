import Mathlib

set_option autoImplicit false

/-!
# Byte-addressed memory with little-endian accesses

Addresses are natural numbers and a cell is one byte. `load` and `store` move
`n` bytes at once; two accesses interfere only when their byte ranges meet.
-/
namespace ByteMemory

abbrev Memory := ℕ → UInt8

def load (m : Memory) : ℕ → ℕ → ℕ
  | _, 0 => 0
  | a, n + 1 => (m a).toNat + 256 * load m (a + 1) n

def store (m : Memory) : ℕ → ℕ → ℕ → Memory
  | _, 0, _ => m
  | a, n + 1, v => store (Function.update m a (UInt8.ofNat v)) (a + 1) n (v / 256)

theorem load_lt (m : Memory) (a n : ℕ) : load m a n < 256 ^ n := by
  induction n generalizing a with
  | zero => simp [load]
  | succ n ih =>
    have hb : (m a).toNat < 256 := (m a).toNat_lt
    have hr := ih (a + 1)
    rw [load, pow_succ]
    omega

theorem load_congr {m m' : Memory} {a n : ℕ}
    (h : ∀ x, a ≤ x → x < a + n → m x = m' x) : load m a n = load m' a n := by
  induction n generalizing a with
  | zero => rfl
  | succ n ih =>
    rw [load, load, h a (le_refl a) (by omega),
      ih (fun x hx hn => h x (by omega) (by omega))]

theorem load_shift (m : Memory) (k a n : ℕ) : load (fun i => m (k + i)) a n = load m (k + a) n := by
  induction n generalizing a with
  | zero => rfl
  | succ n ih => rw [load, load, ih, Nat.add_assoc]

theorem store_of_outside (m : Memory) (a n v x : ℕ) (h : x < a ∨ a + n ≤ x) :
    store m a n v x = m x := by
  induction n generalizing m a v with
  | zero => rfl
  | succ n ih =>
    rw [store, ih _ _ _ (by omega)]
    exact Function.update_of_ne (by omega) _ _

theorem store_zero (m : Memory) (a n x : ℕ) (h : a ≤ x ∧ x < a + n) : store m a n 0 x = 0 := by
  induction n generalizing m a with
  | zero => omega
  | succ n ih =>
    rw [store, Nat.zero_div]
    by_cases hx : x = a
    · rw [store_of_outside _ _ _ _ _ (by omega), hx, Function.update_self]
      rfl
    · exact ih _ _ (by omega)

theorem load_zero {m : Memory} {a n : ℕ} (h : ∀ x, a ≤ x → x < a + n → m x = 0) :
    load m a n = 0 := by
  induction n generalizing a with
  | zero => rfl
  | succ n ih =>
    rw [load, h a (le_refl a) (by omega), ih fun x hx hlt => h x (by omega) (by omega)]
    rfl

theorem load_store_same (m : Memory) (a n v : ℕ) (h : v < 256 ^ n) :
    load (store m a n v) a n = v := by
  induction n generalizing m a v with
  | zero => simp at h; simp [load, h]
  | succ n ih =>
    have hv : v / 256 < 256 ^ n := by
      rw [pow_succ] at h
      exact Nat.div_lt_of_lt_mul (by omega)
    rw [load, store, ih _ _ _ hv, store_of_outside _ _ _ _ _ (by omega), Function.update_self]
    simp only [UInt8.toNat_ofNat']
    omega

theorem load_store_of_disjoint (m : Memory) (a n v b k : ℕ) (h : b + k ≤ a ∨ a + n ≤ b) :
    load (store m a n v) b k = load m b k :=
  load_congr fun x hx hk => store_of_outside m a n v x (by omega)

theorem store_congr {m m' : Memory} {x : ℕ} (a n v : ℕ) (h : m x = m' x) :
    store m a n v x = store m' a n v x := by
  induction n generalizing m m' a v with
  | zero => exact h
  | succ n ih =>
    rw [store, store]
    apply ih
    by_cases hx : x = a
    · rw [hx, Function.update_self, Function.update_self]
    · rw [Function.update_of_ne hx, Function.update_of_ne hx, h]

theorem byte_zero_of_load {m : Memory} {a n x : ℕ} (h : load m a n = 0) (hx : a ≤ x ∧ x < a + n) :
    m x = 0 := by
  induction n generalizing a with
  | zero => omega
  | succ n ih =>
    rw [load] at h
    by_cases he : x = a
    · subst x
      apply UInt8.toNat_inj.mp
      change (m a).toNat = 0
      omega
    · exact ih (a := a + 1) (by omega) (by omega)

def layWords (base : ℕ) (words : List ℕ) (a : ℕ) : UInt8 :=
  UInt8.ofNat (words.getD ((a - base) / 8) 0 / 256 ^ ((a - base) % 8))

end ByteMemory
