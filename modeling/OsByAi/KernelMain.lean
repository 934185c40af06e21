import OsByAi.BootInformation

set_option autoImplicit false

namespace OsByAi.KernelMain
open ByteMemory BootInformation

/-- `kernel_initial_rsp`: the stack top that was passed in RSI, rounded down to 16. -/
def kernelInitialRsp (top : ℕ) : ℕ := top &&& (Word64.size - 16)

def validBootHeader (m : Memory) (info : ℕ) : Bool :=
  let b := bootInfoAt m info
  info != 0 && b.magic == bootInfoMagic && b.version == bootInfoVersion && b.size == sizeofBootInfo &&
    b.flags == bootServicesExited && b.reserved == 0

def validMemoryMap (m : Memory) (info : ℕ) : Bool :=
  let b := bootInfoAt m info
  b.memoryMap != 0 && b.memoryMapSize != 0 && decide (sizeofDescriptor ≤ b.descriptorSize) &&
    b.memoryMapSize % b.descriptorSize == 0 && b.descriptorVersion == 1

def validStack (m : Memory) (info rsp initialRsp : ℕ) : Bool :=
  let b := bootInfoAt m info
  if b.stackSize < 4096 then false else
  if b.stackBase > Word64.size - 1 - b.stackSize then false else
  let top := Word64.add b.stackBase b.stackSize
  if rsp < b.stackBase || rsp ≥ top then false else
  initialRsp == top && initialRsp &&& 15 == 0

theorem validStack_iff (m : Memory) (info rsp initialRsp : ℕ) :
    validStack m info rsp initialRsp = true ↔
      4096 ≤ (bootInfoAt m info).stackSize ∧
      (bootInfoAt m info).stackBase + (bootInfoAt m info).stackSize < Word64.size ∧
      (bootInfoAt m info).stackBase ≤ rsp ∧ rsp < (bootInfoAt m info).stackBase + (bootInfoAt m info).stackSize ∧
      initialRsp = (bootInfoAt m info).stackBase + (bootInfoAt m info).stackSize ∧ initialRsp % 16 = 0 := by
  have hsize : (bootInfoAt m info).stackSize < Word64.size := load_lt m (info + 72) 8
  have hlow : initialRsp &&& 15 = initialRsp % 16 := Word64.and_low initialRsp 4
  unfold validStack
  simp only
  generalize bootInfoAt m info = b at hsize ⊢
  split
  · rename_i hsmall
    simp only [Bool.false_eq_true, false_iff]
    omega
  · split
    · rename_i hwrap
      simp only [Bool.false_eq_true, false_iff]
      unfold Word64.size at *
      omega
    · rename_i hsmall hwrap
      have htop : b.stackBase + b.stackSize < Word64.size := by
        unfold Word64.size at *
        omega
      rw [Word64.add_eq htop]
      split
      · rename_i hout
        simp only [Bool.or_eq_true, decide_eq_true_eq] at hout
        simp only [Bool.false_eq_true, false_iff]
        omega
      · rename_i hin
        simp only [Bool.or_eq_true, decide_eq_true_eq, not_or, Nat.not_lt, ge_iff_le, Nat.not_le] at hin
        simp only [Bool.and_eq_true, beq_iff_eq, hlow]
        constructor
        · exact fun h => ⟨by omega, htop, hin.1, hin.2, h.1, h.2⟩
        · exact fun h => ⟨h.2.2.2.2.1, h.2.2.2.2.2⟩

theorem kernelInitialRsp_eq {top : ℕ} (h : top < Word64.size) (ha : top % 16 = 0) : kernelInitialRsp top = top := by
  unfold kernelInitialRsp
  rw [show Word64.size - 16 = 2 ^ 4 * (2 ^ 60 - 1) by decide, Word64.and_field]
  unfold Word64.size at h
  omega

end OsByAi.KernelMain
