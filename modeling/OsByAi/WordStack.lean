import OsByAi.ByteMemory

set_option autoImplicit false

/-!
# Stacks of 64-bit words in byte memory

The stack grows down and addresses wrap. Distances are measured downwards from the stack
pointer, so that nothing depends on where in the address space it lies.
-/
namespace WordStack
open ByteMemory

def storeWord (m : Memory) (a v : BitVec 64) : Memory := store m a.toNat 8 v.toNat

def loadWord (m : Memory) (a : BitVec 64) : BitVec 64 := BitVec.ofNat 64 (load m a.toNat 8)

theorem loadWord_storeWord (m : Memory) (a v : BitVec 64) : loadWord (storeWord m a v) a = v := by
  have hv : v.toNat < 256 ^ 8 := v.isLt
  unfold loadWord storeWord
  rw [load_store_same _ _ _ _ hv, BitVec.ofNat_toNat, BitVec.setWidth_eq]

theorem storeWord_of_outside {m : Memory} {a x : BitVec 64} (v : BitVec 64) (ha : a.toNat % 8 = 0)
    (hx : 8 ≤ (x - a).toNat) : storeWord m a v x.toNat = m x.toNat := by
  apply store_of_outside
  rw [BitVec.toNat_sub] at hx
  have hxlt := x.isLt
  have halt := a.isLt
  omega

theorem loadWord_congr {m m' : Memory} {a : BitVec 64} (ha : a.toNat % 8 = 0)
    (h : ∀ x : BitVec 64, (x - a).toNat < 8 → m' x.toNat = m x.toNat) : loadWord m' a = loadWord m a := by
  unfold loadWord
  congr 1
  apply load_congr
  intro x hlow hhigh
  have halt := a.isLt
  have hx : x < 2 ^ 64 := by omega
  have hword := h (BitVec.ofNat 64 x) (by
    rw [BitVec.toNat_sub, BitVec.toNat_ofNat, Nat.mod_eq_of_lt hx]
    omega)
  rwa [BitVec.toNat_ofNat, Nat.mod_eq_of_lt hx] at hword

def pushAll : Memory → BitVec 64 → List (BitVec 64) → Memory
  | m, _, [] => m
  | m, sp, v :: vs => pushAll (storeWord m (sp - 8#64) v) (sp - 8#64) vs

theorem sub_eight_aligned {sp : BitVec 64} (h : sp.toNat % 8 = 0) : (sp - 8#64).toNat % 8 = 0 := by
  have hlt := sp.isLt
  rw [BitVec.toNat_sub]
  simp only [BitVec.toNat_ofNat]
  omega

theorem pushAll_append (m : Memory) (sp : BitVec 64) (vs ws : List (BitVec 64)) :
    pushAll m sp (vs ++ ws) = pushAll (pushAll m sp vs) (sp - BitVec.ofNat 64 (8 * vs.length)) ws := by
  induction vs generalizing m sp with
  | nil =>
    rw [List.nil_append, pushAll, List.length_nil]
    congr 1
    simp
  | cons v vs ih =>
    rw [List.cons_append, pushAll, ih, pushAll, List.length_cons]
    congr 1
    apply BitVec.eq_of_toNat_eq
    simp only [BitVec.toNat_sub, BitVec.toNat_ofNat]
    have hlt := sp.isLt
    omega

theorem pushAll_of_outside {vs : List (BitVec 64)} {m : Memory} {sp x : BitVec 64} (hsp : sp.toNat % 8 = 0)
    (hlen : 8 * vs.length < 2 ^ 64) (hx : (sp - x).toNat = 0 ∨ 8 * vs.length < (sp - x).toNat) :
    pushAll m sp vs x.toNat = m x.toNat := by
  induction vs generalizing m sp with
  | nil => rfl
  | cons v vs ih =>
    have hxlt := x.isLt
    have hslt := sp.isLt
    rw [List.length_cons] at hlen hx
    rw [BitVec.toNat_sub] at hx
    rw [pushAll, ih (sub_eight_aligned hsp) (by omega)]
    · apply storeWord_of_outside v (sub_eight_aligned hsp)
      simp only [BitVec.toNat_sub, BitVec.toNat_ofNat]
      omega
    · simp only [BitVec.toNat_sub, BitVec.toNat_ofNat]
      omega

theorem loadWord_pushAll {vs : List (BitVec 64)} {m : Memory} {sp v : BitVec 64} (hsp : sp.toNat % 8 = 0)
    (hlen : 8 * vs.length < 2 ^ 64) {i : ℕ} (hi : vs[i]? = some v) :
    loadWord (pushAll m sp vs) (sp - BitVec.ofNat 64 (8 * (i + 1))) = v := by
  induction vs generalizing m sp i with
  | nil => exact absurd hi (by simp)
  | cons w vs ih =>
    have hslt := sp.isLt
    have hnext := sub_eight_aligned hsp
    rw [List.length_cons] at hlen
    rw [pushAll]
    cases i with
    | zero =>
      have hw : w = v := by simpa using hi
      have hkeep : loadWord (pushAll (storeWord m (sp - 8#64) w) (sp - 8#64) vs) (sp - 8#64) =
          loadWord (storeWord m (sp - 8#64) w) (sp - 8#64) := by
        apply loadWord_congr hnext
        intro x hx
        apply pushAll_of_outside hnext (by omega)
        have hxlt := x.isLt
        simp only [BitVec.toNat_sub, BitVec.toNat_ofNat] at hx ⊢
        omega
      rw [hw] at hkeep ⊢
      exact hkeep.trans (loadWord_storeWord m (sp - 8#64) v)
    | succ i =>
      have hrest := ih (m := storeWord m (sp - 8#64) w) hnext (by omega) (i := i) (by simpa using hi)
      have haddr : sp - 8#64 - BitVec.ofNat 64 (8 * (i + 1)) = sp - BitVec.ofNat 64 (8 * (i + 1 + 1)) := by
        apply BitVec.eq_of_toNat_eq
        simp only [BitVec.toNat_sub, BitVec.toNat_ofNat]
        omega
      rw [haddr] at hrest
      exact hrest

end WordStack
