import OsByAi.PagingModel
import OsByAi.RadixTree

set_option autoImplicit false

namespace OsByAi.PagingEntries
open ByteMemory PagingModel RadixTree

theorem and_one (w : ℕ) : w &&& 1 = w % 2 := Word64.and_low w 1

theorem and_addressMask (w : ℕ) : w &&& addressMask = 4096 * (w / 4096 % 2 ^ 40) :=
  Word64.and_field w 12 40

theorem present_iff (w : ℕ) : (w &&& 1 != 0) = true ↔ w % 2 = 1 := by
  rw [and_one, bne_iff_ne]
  omega

theorem absent_iff (w : ℕ) : (w &&& 1 == 0) = true ↔ w % 2 = 0 := by
  rw [and_one, beq_iff_eq]

/-- The frame a present entry refers to. -/
def child (w : ℕ) : Option ℕ := if w % 2 = 0 then none else some (w / 4096 % 2 ^ 40)

def linkEntry (c : ℕ) : ℕ := 4096 * c + 3

theorem or_tableFlags (c : ℕ) : 4096 * c ||| tableFlags = linkEntry c :=
  Word64.or_disjoint (x := c) (i := 12) (b := 3) (by decide)

@[simp] theorem child_zero : child 0 = none := rfl

theorem child_linkEntry {c : ℕ} (h : c < 2 ^ 40) : child (linkEntry c) = some c := by
  unfold child linkEntry
  rw [if_neg (by omega)]
  congr 1
  omega

theorem child_of_even {w : ℕ} (h : w % 2 = 0) : child w = none := if_pos h

theorem child_of_odd {w : ℕ} (h : w % 2 = 1) : child w = some (w / 4096 % 2 ^ 40) :=
  if_neg (by omega)

theorem linkEntry_mask {c : ℕ} (h : c < 2 ^ 40) : linkEntry c &&& addressMask = 4096 * c := by
  rw [and_addressMask, linkEntry]
  congr 1
  omega

theorem linkEntry_lt {c : ℕ} (h : c < 2 ^ 40) : linkEntry c < Word64.size := by
  unfold linkEntry Word64.size
  omega

def leafEntry (page : ℕ) (w x : Bool) : ℕ := 4096 * page + 1 + 2 * w.toNat + 2 ^ 63 * x.toNat

theorem or_leaf {page : ℕ} (h : page < 2 ^ 40) (w x : Bool) (f : ℕ)
    (hf : f = (1 ||| (if w then 2 else 0) ||| (if x then nx else 0))) :
    4096 * page ||| f = leafEntry page w x := by
  have low : ∀ b, b < 2 ^ 12 → 4096 * page ||| b = 4096 * page + b :=
    fun b hb => Word64.or_disjoint (x := page) (i := 12) hb
  have high : ∀ b, b < 2 ^ 63 → b ||| nx = b + 2 ^ 63 := by
    intro b hb
    have := Word64.or_disjoint (x := 1) (i := 63) hb
    rw [Nat.mul_one] at this
    rw [Nat.or_comm, nx, this, Nat.add_comm]
  subst hf
  unfold leafEntry
  cases w <;> cases x <;> simp only [Bool.false_eq_true, if_false, if_true, Bool.toNat_true, Bool.toNat_false, Nat.or_zero, Nat.mul_zero, Nat.mul_one, Nat.add_zero]
  · exact low 1 (by decide)
  · rw [← Nat.or_assoc, low 1 (by decide), high _ (by omega)]
  · exact low 3 (by decide)
  · rw [show (1 ||| 2 : ℕ) = 3 from rfl, ← Nat.or_assoc, low 3 (by decide), high _ (by omega)]

theorem leafEntry_mod_two (page : ℕ) (w x : Bool) : leafEntry page w x % 2 = 1 := by
  unfold leafEntry
  cases x <;> simp <;> omega

theorem leafEntry_mask {page : ℕ} (h : page < 2 ^ 40) (w x : Bool) :
    leafEntry page w x &&& addressMask = 4096 * page := by
  rw [and_addressMask, leafEntry]
  congr 1
  cases w <;> cases x <;> simp <;> omega

theorem leafEntry_lt {page : ℕ} (h : page < 2 ^ 40) (w x : Bool) :
    leafEntry page w x < Word64.size := by
  unfold leafEntry Word64.size
  cases w <;> cases x <;> simp <;> omega

theorem leafEntry_ne_zero (page : ℕ) (w x : Bool) : leafEntry page w x ≠ 0 := by
  unfold leafEntry
  omega

theorem leafEntry_write {page : ℕ} (w x : Bool) :
    (leafEntry page w x &&& 2 != 0) = w := by
  have := Word64.and_bit_ne_zero (leafEntry page w x) 1
  rw [Bool.eq_iff_iff, bne_iff_ne, show (2 : ℕ) = 2 ^ 1 from rfl, this, leafEntry]
  cases w <;> cases x <;> simp <;> omega

theorem leafEntry_nx {page : ℕ} (h : page < 2 ^ 40) (w x : Bool) :
    (leafEntry page w x &&& nx != 0) = x := by
  have := Word64.and_bit_ne_zero (leafEntry page w x) 63
  rw [Bool.eq_iff_iff, bne_iff_ne, nx, this, leafEntry]
  cases w <;> cases x <;> simp <;> omega

def wantsWrite (f : Flags) : Bool := f &&& pagingWrite != 0
def wantsExec (f : Flags) : Bool := f &&& pagingExec != 0

theorem or_leafFlags {page : ℕ} (h : page < 2 ^ 40) (f : Flags) :
    4096 * page ||| leafFlags f = leafEntry page (wantsWrite f) (!wantsExec f) := by
  apply or_leaf h
  unfold leafFlags wantsWrite wantsExec
  cases f &&& pagingExec != 0 <;> simp

theorem validFlags_iff (f : Flags) : validFlags f = true ↔ f.toNat < 4 := by
  have hc : (f &&& ~~~(pagingWrite ||| pagingExec)).toNat = 2 ^ 2 * (f.toNat / 2 ^ 2 % 2 ^ 30) := by
    rw [BitVec.toNat_and, ← Word64.and_field]
    rfl
  have hlt := f.isLt
  rw [validFlags, beq_iff_eq, ← BitVec.toNat_inj, hc]
  change 2 ^ 2 * (f.toNat / 2 ^ 2 % 2 ^ 30) = 0 ↔ _
  omega

theorem flags_of_valid {f : Flags} (h : validFlags f = true) :
    ((if wantsWrite f then pagingWrite else 0) ||| (if wantsExec f then pagingExec else 0)) = f := by
  have hlt := (validFlags_iff f).mp h
  have hcases : f = 0 ∨ f = 1 ∨ f = 2 ∨ f = 3 := by
    simp only [← BitVec.toNat_inj]
    change f.toNat = 0 ∨ f.toNat = 1 ∨ f.toNat = 2 ∨ f.toNat = 3
    omega
  rcases hcases with rfl | rfl | rfl | rfl <;> decide

theorem entryFlags_leafEntry {page : ℕ} (h : page < 2 ^ 40) {f : Flags} (hf : validFlags f = true) :
    entryFlags (leafEntry page (wantsWrite f) (!wantsExec f)) = f := by
  unfold entryFlags
  rw [leafEntry_write, leafEntry_nx h]
  conv_rhs => rw [← flags_of_valid hf]
  cases wantsExec f <;> rfl

def tables (m : Memory) (n : ℕ) (i : Fin 512) : ℕ := load m (4096 * n + 8 * i.val) 8

def pageIndex (address shift : ℕ) : Fin 512 := ⟨address / 2 ^ shift % 512, Nat.mod_lt _ (by decide)⟩

theorem tableIndex_eq (address shift : ℕ) : tableIndex address shift = (pageIndex address shift).val := by
  rw [tableIndex, show (511 : ℕ) = 2 ^ 9 - 1 from rfl, Word64.and_low, Nat.shiftRight_eq_div_pow]
  rfl

theorem slot_eq (n address shift : ℕ) :
    slot (4096 * n) address shift = 4096 * n + 8 * (pageIndex address shift).val := by
  rw [slot, tableIndex_eq]

theorem load64_slot (s : Machine) (n address shift : ℕ) :
    s.load64 (slot (4096 * n) address shift) = tables s.mem n (pageIndex address shift) := by
  rw [slot_eq]
  rfl

theorem tables_store (m : Memory) (n : ℕ) (i : Fin 512) {v : ℕ} (hv : v < Word64.size)
    (n' : ℕ) (j : Fin 512) :
    tables (store m (4096 * n + 8 * i.val) 8 v) n' j =
      if n' = n ∧ j = i then v else tables m n' j := by
  unfold tables
  by_cases h : n' = n ∧ j = i
  · obtain ⟨rfl, rfl⟩ := h
    rw [if_pos ⟨rfl, rfl⟩, load_store_same _ _ _ _ hv]
  · rw [if_neg h]
    apply load_store_of_disjoint
    have hij : n' ≠ n ∨ j.val ≠ i.val := by
      by_contra hc
      push Not at hc
      exact h ⟨hc.1, Fin.ext hc.2⟩
    have := i.isLt
    have := j.isLt
    omega

theorem store_other_page (m : Memory) (n : ℕ) (i : Fin 512) (v x : ℕ) (h : x / 4096 ≠ n) :
    store m (4096 * n + 8 * i.val) 8 v x = m x := by
  apply store_of_outside
  have := i.isLt
  omega

theorem tables_congr {m m' : Memory} {n : ℕ} (h : ∀ x, x / 4096 = n → m' x = m x) (i : Fin 512) :
    tables m' n i = tables m n i := by
  apply load_congr
  intro x hx hlt
  have := i.isLt
  exact h x (by omega)

theorem zeroFrom_mem (s : Machine) (n i k : ℕ) (hk : i + k = 512) (x : ℕ) :
    (zeroFrom s (4096 * n) i k).mem x =
      if 4096 * n + 8 * i ≤ x ∧ x < 4096 * (n + 1) then 0 else s.mem x := by
  induction k generalizing s i with
  | zero => rw [zeroFrom, if_neg (by omega)]
  | succ k ih =>
    rw [zeroFrom, ih _ _ (by omega)]
    by_cases hin : 4096 * n + 8 * (i + 1) ≤ x ∧ x < 4096 * (n + 1)
    · rw [if_pos hin, if_pos (by omega)]
    · rw [if_neg hin]
      by_cases hword : 4096 * n + 8 * i ≤ x ∧ x < 4096 * n + 8 * i + 8
      · rw [if_pos (by omega)]
        exact store_zero _ _ _ _ hword
      · rw [if_neg (by omega)]
        exact store_of_outside _ _ _ _ _ (by omega)

end OsByAi.PagingEntries
