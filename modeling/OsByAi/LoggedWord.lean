import OsByAi.Word64

set_option autoImplicit false

/-!
# 64-bit code that keeps a log

A computation returns its value together with everything notable that it did on
the way: sums that wrapped, divisions by zero, the bytes it read and wrote. The
values are those of the machine, wrapping included, so a statement about the log
is a statement about the code as it runs.
-/

inductive Logged.Event where
  | fault
  | read (address count : ℕ)
  | write (address : ℕ) (value : UInt8)
deriving DecidableEq

structure Logged (α : Type) where
  value : α
  log : List Logged.Event

namespace Logged

variable {α β : Type}

def pure (a : α) : Logged α := ⟨a, []⟩

def bind (x : Logged α) (f : α → Logged β) : Logged β := ⟨(f x.value).value, x.log ++ (f x.value).log⟩

instance : Monad Logged where
  pure := pure
  bind := bind

@[simp] theorem value_pure (a : α) : (Pure.pure a : Logged α).value = a := by
  simp only [Pure.pure, pure]

@[simp] theorem value_bind (x : Logged α) (f : α → Logged β) : (x >>= f).value = (f x.value).value := by
  simp only [Bind.bind, bind]

def Only (P : Event → Prop) (x : Logged α) : Prop := ∀ e ∈ x.log, P e

variable {P : Event → Prop}

theorem only_pure (a : α) : Only P (Pure.pure a : Logged α) := by
  intro e he
  exact absurd he List.not_mem_nil

theorem only_bind {x : Logged α} {f : α → Logged β} (hx : Only P x) (hf : Only P (f x.value)) :
    Only P (x >>= f) := by
  intro e he
  rcases List.mem_append.mp he with h | h
  · exact hx e h
  · exact hf e h

/-- The value `v`, with a fault unless `ok`. -/
def checked (ok : Bool) (v : α) : Logged α := ⟨v, if ok then [] else [.fault]⟩

theorem value_checked (ok : Bool) (v : α) : (checked ok v).value = v := by
  simp only [checked]

theorem only_checked {ok : Bool} {v : α} (h : ok = true) : Only P (checked ok v) := by
  subst h
  exact only_pure v

def add (a b : ℕ) : Logged ℕ := checked (decide (a + b < Word64.size)) (Word64.add a b)
def sub (a b : ℕ) : Logged ℕ := checked (decide (b ≤ a)) (Word64.sub a b)
def mul (a b : ℕ) : Logged ℕ := checked (decide (a * b < Word64.size)) (Word64.mul a b)
def div (a b : ℕ) : Logged ℕ := checked (b != 0) (a / b)
def mod (a b : ℕ) : Logged ℕ := checked (b != 0) (a % b)

@[simp] theorem value_add (a b : ℕ) : (add a b).value = Word64.add a b := by
  rw [add, value_checked]

@[simp] theorem value_sub (a b : ℕ) : (sub a b).value = Word64.sub a b := by
  rw [sub, value_checked]

@[simp] theorem value_mul (a b : ℕ) : (mul a b).value = Word64.mul a b := by
  rw [mul, value_checked]

@[simp] theorem value_div (a b : ℕ) : (div a b).value = a / b := by
  rw [div, value_checked]

@[simp] theorem value_mod (a b : ℕ) : (mod a b).value = a % b := by
  rw [mod, value_checked]

theorem only_add {a b : ℕ} (h : a + b < Word64.size) : Only P (add a b) :=
  only_checked (decide_eq_true h)

theorem only_sub {a b : ℕ} (h : b ≤ a) : Only P (sub a b) := only_checked (decide_eq_true h)

theorem only_mul {a b : ℕ} (h : a * b < Word64.size) : Only P (mul a b) :=
  only_checked (decide_eq_true h)

theorem only_div {a b : ℕ} (h : b ≠ 0) : Only P (div a b) := only_checked (bne_iff_ne.mpr h)

theorem only_mod {a b : ℕ} (h : b ≠ 0) : Only P (mod a b) := only_checked (bne_iff_ne.mpr h)

/-- `x && y`: `y` is evaluated only when `x` holds. -/
def both (x y : Logged Bool) : Logged Bool := x >>= fun a => if a then y else Pure.pure false

@[simp] theorem value_both (x y : Logged Bool) : (both x y).value = (x.value && y.value) := by
  unfold both
  rw [value_bind]
  cases x.value with
  | false => rfl
  | true => rfl

theorem only_both {x y : Logged Bool} (hx : Only P x) (hy : x.value = true → Only P y) :
    Only P (both x y) := by
  unfold both
  refine only_bind hx ?_
  cases hv : x.value with
  | false => exact only_pure false
  | true => exact hy hv

/-- `for (; left; ++i, --left) if (!f(i)) return false; return true;` -/
def allFrom (f : ℕ → Logged Bool) : ℕ → ℕ → Logged Bool
  | _, 0 => Pure.pure true
  | i, left + 1 => both (f i) (allFrom f (i + 1) left)

def allBelow (n : ℕ) (f : ℕ → Logged Bool) : Logged Bool := allFrom f 0 n

theorem value_allFrom (f : ℕ → Logged Bool) (i left : ℕ) :
    (allFrom f i left).value = (List.range' i left).all fun j => (f j).value := by
  induction left generalizing i with
  | zero => rfl
  | succ left ih =>
    rw [allFrom, value_both, ih, List.range'_succ, List.all_cons]

@[simp] theorem value_allBelow (n : ℕ) (f : ℕ → Logged Bool) :
    (allBelow n f).value = (List.range n).all fun j => (f j).value := by
  rw [allBelow, value_allFrom, List.range_eq_range']

theorem only_allFrom {f : ℕ → Logged Bool} {i left : ℕ}
    (h : ∀ j, i ≤ j → j < i + left → (∀ k, i ≤ k → k < j → (f k).value = true) → Only P (f j)) :
    Only P (allFrom f i left) := by
  induction left generalizing i with
  | zero => exact only_pure true
  | succ left ih =>
    rw [allFrom]
    refine only_both (h i le_rfl (by omega) fun k hk hlt => by omega) ?_
    intro hi
    apply ih
    intro j hj hlt hprev
    apply h j (by omega) (by omega)
    intro k hk hkj
    by_cases hki : k = i
    · rw [hki]
      exact hi
    · exact hprev k (by omega) hkj

theorem only_allBelow {n : ℕ} {f : ℕ → Logged Bool}
    (h : ∀ j, j < n → (∀ k, k < j → (f k).value = true) → Only P (f j)) :
    Only P (allBelow n f) := by
  apply only_allFrom
  intro j _ hlt hprev
  exact h j (by omega) fun k hk => hprev k (Nat.zero_le k) hk

/-- `for (; left; ++i, --left) acc = f(acc, i);` -/
def foldFrom (f : α → ℕ → Logged α) : ℕ → ℕ → α → Logged α
  | _, 0, acc => Pure.pure acc
  | i, left + 1, acc => f acc i >>= foldFrom f (i + 1) left

def foldBelow (n : ℕ) (f : α → ℕ → Logged α) (acc : α) : Logged α := foldFrom f 0 n acc

theorem value_foldFrom (f : α → ℕ → Logged α) (i left : ℕ) (acc : α) :
    (foldFrom f i left acc).value = (List.range' i left).foldl (fun a j => (f a j).value) acc := by
  induction left generalizing i acc with
  | zero => rfl
  | succ left ih =>
    rw [foldFrom, value_bind, ih, List.range'_succ, List.foldl_cons]

@[simp] theorem value_foldBelow (n : ℕ) (f : α → ℕ → Logged α) (acc : α) :
    (foldBelow n f acc).value = (List.range n).foldl (fun a j => (f a j).value) acc := by
  rw [foldBelow, value_foldFrom, List.range_eq_range']

theorem only_foldFrom {f : α → ℕ → Logged α} {i left : ℕ} {acc : α}
    (h : ∀ a j, i ≤ j → j < i + left → Only P (f a j)) : Only P (foldFrom f i left acc) := by
  induction left generalizing i acc with
  | zero => exact only_pure acc
  | succ left ih =>
    rw [foldFrom]
    refine only_bind (h acc i le_rfl (by omega)) (ih ?_)
    intro a j hj hlt
    exact h a j (by omega) (by omega)

theorem only_foldBelow {n : ℕ} {f : α → ℕ → Logged α} {acc : α}
    (h : ∀ a j, j < n → Only P (f a j)) : Only P (foldBelow n f acc) :=
  only_foldFrom fun a j _ hlt => h a j (by omega)

section Invariants

variable {n : ℕ} {f : α → ℕ → Logged α} {acc : α} {motive : ℕ → α → Prop}

variable (n f acc) in
theorem value_foldBelow_invariant (hzero : motive 0 acc)
    (hstep : ∀ i a, i < n → motive i a → motive (i + 1) (f a i).value) :
    motive n (foldBelow n f acc).value := by
  rw [value_foldBelow]
  induction n with
  | zero => exact hzero
  | succ n ih =>
    rw [List.range_succ, List.foldl_append, List.foldl_cons, List.foldl_nil]
    exact hstep n _ (by omega) (ih fun i a hi => hstep i a (by omega))

theorem only_foldFrom_invariant {i left : ℕ} (hstart : motive i acc)
    (hstep : ∀ j a, j < i + left → motive j a → motive (j + 1) (f a j).value)
    (h : ∀ j a, j < i + left → motive j a → Only P (f a j)) : Only P (foldFrom f i left acc) := by
  induction left generalizing i acc with
  | zero => exact only_pure acc
  | succ left ih =>
    rw [foldFrom]
    refine only_bind (h i acc (by omega) hstart) (ih (hstep i acc (by omega) hstart) ?_ ?_)
    · intro j a hj
      exact hstep j a (by omega)
    · intro j a hj
      exact h j a (by omega)

theorem only_foldBelow_invariant (hzero : motive 0 acc)
    (hstep : ∀ i a, i < n → motive i a → motive (i + 1) (f a i).value)
    (h : ∀ i a, i < n → motive i a → Only P (f a i)) : Only P (foldBelow n f acc) := by
  unfold foldBelow
  refine only_foldFrom_invariant hzero ?_ ?_
  · intro i a hi
    exact hstep i a (by omega)
  · intro i a hi
    exact h i a (by omega)

end Invariants

end Logged
