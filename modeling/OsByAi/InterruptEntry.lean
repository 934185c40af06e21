import OsByAi.Word64
import OsByAi.WordStack

set_option autoImplicit false

/-!
# Hardware interrupts are transparent

The way from an interrupt to `irq_dispatch` and back: what the processor pushes, the stub
of the vector, `irq_common` an instruction at a time, and `iretq`. The dispatcher is any
function that keeps to the calling convention.
-/
namespace OsByAi.InterruptEntry
open ByteMemory WordStack

inductive Reg where
  | rax | rcx | rdx | rbx | rsp | rbp | rsi | rdi
  | r8 | r9 | r10 | r11 | r12 | r13 | r14 | r15
deriving DecidableEq

structure Cpu where
  reg : Reg → BitVec 64
  rip : BitVec 64
  cs : BitVec 16
  ss : BitVec 16
  rflags : BitVec 64
  memory : Memory

def Cpu.set (c : Cpu) (r : Reg) (v : BitVec 64) : Cpu := { c with reg := Function.update c.reg r v }

@[simp] theorem Cpu.set_self (c : Cpu) (r : Reg) (v : BitVec 64) : (c.set r v).reg r = v := by
  simp [Cpu.set]

theorem Cpu.set_of_ne (c : Cpu) {q r : Reg} (h : q ≠ r) (v : BitVec 64) : (c.set r v).reg q = c.reg q := by
  simp [Cpu.set, h]

def push (v : BitVec 64) (c : Cpu) : Cpu :=
  { c.set .rsp (c.reg .rsp - 8#64) with memory := storeWord c.memory (c.reg .rsp - 8#64) v }

theorem push_rsp (v : BitVec 64) (c : Cpu) : (push v c).reg .rsp = c.reg .rsp - 8#64 := c.set_self .rsp _

/-- The word at the top, before `rsp` moves up. -/
def top (c : Cpu) : BitVec 64 := loadWord c.memory (c.reg .rsp)

def drop (c : Cpu) : Cpu := c.set .rsp (c.reg .rsp + 8#64)

/-- The bits of RFLAGS that an interrupt gate clears: TF, IF, NT, RF and VM. -/
def gateBits : BitVec 64 := 0x34300#64

def directionBit : BitVec 64 := 0x400#64

/-- CF, PF, AF, ZF, SF and OF. -/
def statusBits : BitVec 64 := 0x8d5#64

/-- Interrupt delivery in 64-bit mode, without a change of privilege or stack table: the stack
    pointer is aligned first. `entry` is the offset in the gate. -/
def enter (entry : BitVec 64) (c : Cpu) : Cpu :=
  let aligned := c.set .rsp (c.reg .rsp &&& ~~~15#64)
  let pushed := push c.rip (push (c.cs.zeroExtend 64) (push c.rflags (push (c.reg .rsp)
    (push (c.ss.zeroExtend 64) aligned))))
  { pushed with rflags := c.rflags &&& ~~~gateBits, cs := 8#16, rip := entry }

inductive Instr where
  | push (r : Reg)
  | pushImm (v : BitVec 64)
  | pop (r : Reg)
  | cld
  | load (offset : BitVec 64) (r : Reg)
  | mov (source target : Reg)
  | alignRsp
  | call
  | addRsp (v : BitVec 64)
  | iretq

/-- `status` is what an arithmetic instruction leaves in the status bits, `returnAddress` the
    address after the `call`. `dispatch` runs from the first instruction of `irq_dispatch` to its
    return. -/
structure Environment where
  dispatch : Cpu → Cpu
  status : Cpu → BitVec 64
  returnAddress : BitVec 64

def withStatus (env : Environment) (c : Cpu) : BitVec 64 :=
  (c.rflags &&& ~~~statusBits) ||| (env.status c &&& statusBits)

def exec (env : Environment) (c : Cpu) : Instr → Cpu
  | .push r => InterruptEntry.push (c.reg r) c
  | .pushImm v => InterruptEntry.push v c
  | .pop r => (drop c).set r (top c)
  | .cld => { c with rflags := c.rflags &&& ~~~directionBit }
  | .load offset r => c.set r (loadWord c.memory (c.reg .rsp + offset))
  | .mov source target => c.set target (c.reg source)
  | .alignRsp => { c.set .rsp (c.reg .rsp &&& ~~~15#64) with rflags := withStatus env c }
  | .call => env.dispatch (InterruptEntry.push env.returnAddress c)
  | .addRsp v => { c.set .rsp (c.reg .rsp + v) with rflags := withStatus env c }
  | .iretq =>
    let c1 := drop c
    let c2 := drop c1
    let c3 := drop c2
    let c4 := drop c3
    { c.set .rsp (top c3) with
      rip := top c
      cs := (top c1).truncate 16
      rflags := top c2
      ss := (top c4).truncate 16 }

def run (env : Environment) (code : List Instr) (c : Cpu) : Cpu := code.foldl (exec env) c

/-- The exceptions for which `isr_number` pushes no zero. -/
def errorCodes : List ℕ := [8, 10, 11, 12, 13, 14, 17, 21, 29, 30]

/-- `isr_number`, up to its jump. -/
def isr (number : ℕ) : List Instr :=
  (if number ∈ errorCodes then [] else [.pushImm 0#64]) ++ [.pushImm (BitVec.ofNat 64 number)]

def savedRegs : List Reg :=
  [.rax, .rcx, .rdx, .rbx, .rbp, .rsi, .rdi, .r8, .r9, .r10, .r11, .r12, .r13, .r14, .r15]

def irqPrologue : List Instr :=
  savedRegs.map .push ++ [.cld, .load 120#64 .rdi, .mov .rsp .rbx, .alignRsp]

def irqEpilogue : List Instr :=
  [.mov .rbx .rsp] ++ savedRegs.reverse.map .pop ++ [.addRsp 16#64, .iretq]

def beforeCall (env : Environment) (entry : BitVec 64) (number : ℕ) (c : Cpu) : Cpu :=
  run env (isr number ++ irqPrologue) (enter entry c)

def interrupt (env : Environment) (entry : BitVec 64) (number : ℕ) (c : Cpu) : Cpu :=
  run env (isr number ++ irqPrologue ++ [.call] ++ irqEpilogue) (enter entry c)

/-- `a` lies below the stack pointer, at most a quarter of the address space away. -/
def Below (sp a : BitVec 64) : Prop := 0 < (sp - a).toNat ∧ (sp - a).toNat ≤ 2 ^ 62

def AtOrAbove (sp a : BitVec 64) : Prop := (a - sp).toNat < 2 ^ 63

def calleeSaved : List Reg := [.rbx, .rbp, .r12, .r13, .r14, .r15]

/-- System V: some registers are preserved, the return pops its address, and of the stack only
    bytes below the entry stack pointer are written. Other memory is free to change. -/
structure SystemV (Stack : BitVec 64 → Prop) (f : Cpu → Cpu) : Prop where
  saved : ∀ c, ∀ r ∈ calleeSaved, (f c).reg r = c.reg r
  rsp : ∀ c, (f c).reg .rsp = c.reg .rsp + 8#64
  stack : ∀ c a, Stack a → ¬ Below (c.reg .rsp) a → (f c).memory a.toNat = c.memory a.toNat

def pushed (vs : List (BitVec 64)) (c : Cpu) : Cpu :=
  { c.set .rsp (c.reg .rsp - BitVec.ofNat 64 (8 * vs.length)) with memory := pushAll c.memory (c.reg .rsp) vs }

section Runs

variable {env : Environment} {c : Cpu}

theorem run_append (code code' : List Instr) (c : Cpu) : run env (code ++ code') c = run env code' (run env code c) :=
  List.foldl_append

theorem pushed_nil (c : Cpu) : pushed [] c = c := by
  have hsp : c.reg .rsp - BitVec.ofNat 64 (8 * 0) = c.reg .rsp := by simp
  unfold pushed Cpu.set
  rw [List.length_nil, hsp, Function.update_eq_self]
  rfl

theorem pushed_cons (v : BitVec 64) (vs : List (BitVec 64)) (c : Cpu) : pushed vs (push v c) = pushed (v :: vs) c := by
  have hsp := push_rsp v c
  have haddr : c.reg .rsp - 8#64 - BitVec.ofNat 64 (8 * vs.length) =
      c.reg .rsp - BitVec.ofNat 64 (8 * (v :: vs).length) := by
    have hlt := (c.reg .rsp).isLt
    apply BitVec.eq_of_toNat_eq
    simp only [BitVec.toNat_sub, BitVec.toNat_ofNat, List.length_cons]
    omega
  unfold pushed
  rw [hsp, haddr]
  unfold push Cpu.set
  rw [Function.update_idem]
  rfl

theorem pushed_reg (vs : List (BitVec 64)) (c : Cpu) {r : Reg} (hr : r ≠ .rsp) : (pushed vs c).reg r = c.reg r :=
  c.set_of_ne hr _

theorem pushed_rsp (vs : List (BitVec 64)) (c : Cpu) :
    (pushed vs c).reg .rsp = c.reg .rsp - BitVec.ofNat 64 (8 * vs.length) := c.set_self .rsp _

theorem pushed_append (vs ws : List (BitVec 64)) (c : Cpu) : pushed ws (pushed vs c) = pushed (vs ++ ws) c := by
  induction vs generalizing c with
  | nil => rw [pushed_nil, List.nil_append]
  | cons v vs ih => rw [← pushed_cons, ih, List.cons_append, pushed_cons]

theorem run_push {regs : List Reg} (hregs : .rsp ∉ regs) :
    run env (regs.map .push) c = pushed (regs.map c.reg) c := by
  induction regs generalizing c with
  | nil => exact (pushed_nil c).symm
  | cons r regs ih =>
    rw [List.mem_cons, not_or] at hregs
    have hstep : run env ((r :: regs).map .push) c = run env (regs.map .push) (push (c.reg r) c) := rfl
    have hsame : regs.map (push (c.reg r) c).reg = regs.map c.reg := by
      apply List.map_congr_left
      intro q hq
      apply c.set_of_ne
      rintro rfl
      exact hregs.2 hq
    rw [hstep, ih hregs.2, hsame, pushed_cons, List.map_cons]

theorem run_pop (env : Environment) (c : Cpu) (regs : List Reg) (hregs : .rsp ∉ regs) (hnodup : regs.Nodup) :
    (run env (regs.map .pop) c).memory = c.memory ∧
    (run env (regs.map .pop) c).reg .rsp = c.reg .rsp + BitVec.ofNat 64 (8 * regs.length) ∧
    (∀ i r, regs[i]? = some r →
      (run env (regs.map .pop) c).reg r = loadWord c.memory (c.reg .rsp + BitVec.ofNat 64 (8 * i))) ∧
    ∀ r, r ≠ .rsp → r ∉ regs → (run env (regs.map .pop) c).reg r = c.reg r := by
  induction regs generalizing c with
  | nil => exact ⟨rfl, by simp [run], fun i r hi => absurd hi (by simp), fun r _ _ => rfl⟩
  | cons q regs ih =>
    rw [List.mem_cons, not_or] at hregs
    obtain ⟨hq, hrest⟩ := List.nodup_cons.mp hnodup
    have hstep : run env ((q :: regs).map .pop) c = run env (regs.map .pop) ((drop c).set q (top c)) := rfl
    have hsp : ((drop c).set q (top c)).reg .rsp = c.reg .rsp + 8#64 := by
      rw [Cpu.set_of_ne _ hregs.1, drop, Cpu.set_self]
    obtain ⟨hmem, hrsp, hget, hkeep⟩ := ih ((drop c).set q (top c)) hregs.2 hrest
    have haddr : ∀ i, c.reg .rsp + 8#64 + BitVec.ofNat 64 (8 * i) = c.reg .rsp + BitVec.ofNat 64 (8 * (i + 1)) := by
      intro i
      have hlt := (c.reg .rsp).isLt
      apply BitVec.eq_of_toNat_eq
      simp only [BitVec.toNat_add, BitVec.toNat_ofNat]
      omega
    rw [hsp] at hrsp hget
    rw [hstep]
    refine ⟨hmem, ?_, ?_, ?_⟩
    · rw [hrsp, haddr, List.length_cons]
    · intro i r hi
      cases i with
      | zero =>
        obtain rfl : q = r := by simpa using hi
        have hvalue : ((drop c).set q (top c)).reg q = top c := Cpu.set_self _ _ _
        rw [hkeep q (Ne.symm hregs.1) hq, hvalue, top, Nat.mul_zero, BitVec.add_zero]
      | succ i =>
        rw [hget i r (by simpa using hi), haddr]
        rfl
    · intro r hr hmem'
      rw [List.mem_cons, not_or] at hmem'
      rw [hkeep r hr hmem'.2, Cpu.set_of_ne _ hmem'.1, drop, Cpu.set_of_ne _ hr]

end Runs

section Entry

variable {env : Environment} {c : Cpu} {number : ℕ} {entry : BitVec 64}

theorem toNat_align (x : BitVec 64) : (x &&& ~~~15#64).toNat = x.toNat / 16 * 16 := by
  have e : (~~~15#64 : BitVec 64).toNat = 2 ^ 4 * (2 ^ 60 - 1) := by decide
  have hlt := x.isLt
  rw [BitVec.toNat_and, e, Word64.and_field]
  omega

def base (c : Cpu) : BitVec 64 := c.reg .rsp &&& ~~~15#64

/-- Everything on the stack when `irq_dispatch` is called, from the top down. -/
def frame (number : ℕ) (c : Cpu) : List (BitVec 64) :=
  [c.ss.zeroExtend 64, c.reg .rsp, c.rflags, c.cs.zeroExtend 64, c.rip, 0#64, BitVec.ofNat 64 number] ++
    savedRegs.map c.reg

theorem isr_eq (hnumber : 32 ≤ number ∧ number < 48) : isr number = [.pushImm 0#64, .pushImm (BitVec.ofNat 64 number)] := by
  have hno : number ∉ errorCodes := by
    simp only [errorCodes, List.mem_cons, List.not_mem_nil, or_false, not_or]
    omega
  rw [isr, if_neg hno]
  rfl

def vectored (entry : BitVec 64) (c : Cpu) : Cpu :=
  { c.set .rsp (base c) with rflags := c.rflags &&& ~~~gateBits, cs := 8#16, rip := entry }

theorem enter_eq : enter entry c =
    pushed [c.ss.zeroExtend 64, c.reg .rsp, c.rflags, c.cs.zeroExtend 64, c.rip] (vectored entry c) := by
  rw [← pushed_cons, ← pushed_cons, ← pushed_cons, ← pushed_cons, ← pushed_cons, pushed_nil]
  rfl

theorem run_saves (hnumber : 32 ≤ number ∧ number < 48) :
    run env (isr number ++ savedRegs.map .push) (enter entry c) = pushed (frame number c) (vectored entry c) := by
  have hisr : run env (isr number) (enter entry c) =
      pushed [0#64, BitVec.ofNat 64 number] (enter entry c) := by
    rw [isr_eq hnumber, ← pushed_cons, ← pushed_cons, pushed_nil]
    rfl
  rw [run_append, hisr, enter_eq, pushed_append, run_push (by decide)]
  have hregs : savedRegs.map (pushed ([c.ss.zeroExtend 64, c.reg .rsp, c.rflags, c.cs.zeroExtend 64, c.rip] ++
      [0#64, BitVec.ofNat 64 number]) (vectored entry c)).reg = savedRegs.map c.reg := by
    apply List.map_congr_left
    intro r hr
    have hne : r ≠ .rsp := by
      rintro rfl
      exact absurd hr (by decide)
    rw [pushed_reg _ _ hne]
    exact c.set_of_ne hne _
  rw [hregs, pushed_append]
  rfl

theorem frame_length : (frame number c).length = 22 := rfl

theorem base_aligned (c : Cpu) : (base c).toNat % 16 = 0 := by
  rw [base, toNat_align]
  omega

theorem call_rsp : (base c - 176#64) &&& ~~~15#64 = base c - 176#64 := by
  have hbase := base_aligned c
  have hlt := (base c).isLt
  apply BitVec.eq_of_toNat_eq
  rw [toNat_align, BitVec.toNat_sub]
  simp only [BitVec.toNat_ofNat]
  omega

theorem clear_direction (flags status : BitVec 64) :
    ((flags &&& ~~~directionBit &&& ~~~statusBits) ||| (status &&& statusBits)) &&& directionBit = 0#64 := by
  have hstatus : statusBits &&& directionBit = 0#64 := by decide
  have hflags : ~~~directionBit &&& (~~~statusBits &&& directionBit) = 0#64 := by decide
  rw [BitVec.and_or_distrib_right, BitVec.and_assoc status, hstatus, BitVec.and_zero, BitVec.or_zero,
    BitVec.and_assoc, BitVec.and_assoc, hflags, BitVec.and_zero]

theorem beforeCall_eq (hnumber : 32 ≤ number ∧ number < 48) :
    beforeCall env entry number c = run env [.cld, .load 120#64 .rdi, .mov .rsp .rbx, .alignRsp]
      (pushed (frame number c) (vectored entry c)) := by
  unfold beforeCall irqPrologue
  rw [← List.append_assoc, run_append, run_saves hnumber]

theorem vectored_rsp : (vectored entry c).reg .rsp = base c := c.set_self .rsp _

theorem saved_rsp : (pushed (frame number c) (vectored entry c)).reg .rsp = base c - 176#64 := by
  rw [pushed_rsp, vectored_rsp]
  rfl

theorem base_words (c : Cpu) : (base c).toNat % 8 = 0 := by
  have hbase := base_aligned c
  omega

theorem frame_word (c : Cpu) {number i : ℕ} {v : BitVec 64} (hi : (frame number c)[i]? = some v) (rest : List (BitVec 64))
    (hrest : rest.length ≤ 1) :
    loadWord (pushAll c.memory (base c) (frame number c ++ rest)) (base c - BitVec.ofNat 64 (8 * (i + 1))) = v := by
  have hlt := (List.getElem?_eq_some_iff.mp hi).1
  apply loadWord_pushAll (base_words c)
  · rw [List.length_append, frame_length]
    omega
  · rw [List.getElem?_append_left hlt]
    exact hi

theorem beforeCall_state (env : Environment) (entry : BitVec 64) (c : Cpu) (hnumber : 32 ≤ number ∧ number < 48) :
    (beforeCall env entry number c).reg .rdi = BitVec.ofNat 64 number ∧
    (beforeCall env entry number c).rflags &&& directionBit = 0#64 ∧
    (beforeCall env entry number c).reg .rsp = base c - 176#64 ∧
    (beforeCall env entry number c).reg .rbx = base c - 176#64 ∧
    (beforeCall env entry number c).memory = pushAll c.memory (base c) (frame number c) := by
  have hmemory : (pushed (frame number c) (vectored entry c)).memory =
      pushAll c.memory (base c) (frame number c) := by
    unfold pushed
    rw [vectored_rsp]
    rfl
  have hnumber' : (frame number c)[6]? = some (BitVec.ofNat 64 number) := rfl
  have hword := frame_word c hnumber' [] (by simp)
  have haddr : base c - 176#64 + 120#64 = base c - BitVec.ofNat 64 (8 * (6 + 1)) := by
    have hlt := (base c).isLt
    apply BitVec.eq_of_toNat_eq
    simp only [BitVec.toNat_sub, BitVec.toNat_add, BitVec.toNat_ofNat]
    omega
  rw [List.append_nil, ← haddr, ← hmemory] at hword
  have hsp : (pushed (frame number c) (vectored entry c)).reg .rsp = base c - 176#64 := saved_rsp
  rw [beforeCall_eq hnumber]
  generalize hstate : pushed (frame number c) (vectored entry c) = s at *
  refine ⟨?_, clear_direction s.rflags _, ?_, ?_, hmemory⟩
  · simp [run, exec, Cpu.set, hsp, hword]
  · simp only [run, List.foldl_cons, List.foldl_nil, exec, Cpu.set_self]
    simp only [Cpu.set, ne_eq, reduceCtorEq, not_false_eq_true, Function.update_of_ne, hsp]
    exact call_rsp
  · simp [run, exec, Cpu.set, hsp]

end Entry

section Return

variable {env : Environment} {c : Cpu} {number : ℕ} {entry : BitVec 64} {Stack : BitVec 64 → Prop}

def called (env : Environment) (entry : BitVec 64) (number : ℕ) (c : Cpu) : Cpu :=
  push env.returnAddress (beforeCall env entry number c)

theorem called_rsp (env : Environment) (entry : BitVec 64) (c : Cpu) (hnumber : 32 ≤ number ∧ number < 48) :
    (called env entry number c).reg .rsp = base c - 184#64 := by
  rw [called, push_rsp, (beforeCall_state env entry c hnumber).2.2.1]
  have hlt := (base c).isLt
  apply BitVec.eq_of_toNat_eq
  simp only [BitVec.toNat_sub, BitVec.toNat_ofNat]
  omega

theorem called_memory (env : Environment) (entry : BitVec 64) (c : Cpu) (hnumber : 32 ≤ number ∧ number < 48) :
    (called env entry number c).memory =
      pushAll c.memory (base c) (frame number c ++ [env.returnAddress]) := by
  obtain ⟨-, -, hrsp, -, hmemory⟩ := beforeCall_state env entry c hnumber
  rw [pushAll_append, frame_length, ← hmemory]
  change storeWord (beforeCall env entry number c).memory ((beforeCall env entry number c).reg .rsp - 8#64)
    env.returnAddress = _
  rw [hrsp]
  rfl

theorem dispatch_keeps (hf : SystemV Stack env.dispatch) (hnumber : 32 ≤ number ∧ number < 48) {a : BitVec 64}
    (hstack : Stack a) (ha : (a - (base c - 184#64)).toNat < 2 ^ 63 + 256) :
    (env.dispatch (called env entry number c)).memory a.toNat =
      pushAll c.memory (base c) (frame number c ++ [env.returnAddress]) a.toNat := by
  rw [← called_memory env entry c hnumber]
  apply hf.stack _ a hstack
  rw [called_rsp env entry c hnumber]
  rintro ⟨hpos, hle⟩
  have halt := a.isLt
  have hblt := (base c - 184#64).isLt
  rw [BitVec.toNat_sub] at ha hpos hle
  omega

theorem base_sub_le (c : Cpu) : (c.reg .rsp - base c).toNat < 16 := by
  have hlt := (c.reg .rsp).isLt
  rw [BitVec.toNat_sub, base, toNat_align]
  omega

theorem frame_word_back (hf : SystemV Stack env.dispatch) (hnumber : 32 ≤ number ∧ number < 48)
    (hstack : ∀ a, 0 < (c.reg .rsp - a).toNat → (c.reg .rsp - a).toNat ≤ 256 → Stack a) {i : ℕ} {v : BitVec 64}
    (hi : (frame number c)[i]? = some v) :
    loadWord (env.dispatch (called env entry number c)).memory (base c - BitVec.ofNat 64 (8 * (i + 1))) = v := by
  have hlt : i < 22 := (List.getElem?_eq_some_iff.mp hi).1
  have hblt := (base c).isLt
  have hbase := base_words c
  have hsub := base_sub_le c
  rw [← frame_word c hi [env.returnAddress] (by simp)]
  apply loadWord_congr
  · simp only [BitVec.toNat_sub, BitVec.toNat_ofNat]
    omega
  · intro x hx
    have hxlt := x.isLt
    have hrlt := (c.reg .rsp).isLt
    simp only [BitVec.toNat_sub, BitVec.toNat_ofNat] at hx hsub
    apply dispatch_keeps hf hnumber
    · apply hstack
      · simp only [BitVec.toNat_sub]
        omega
      · simp only [BitVec.toNat_sub]
        omega
    · simp only [BitVec.toNat_sub, BitVec.toNat_ofNat]
      omega

variable (entry) in
theorem restored_reg (hf : SystemV Stack env.dispatch) (hnumber : 32 ≤ number ∧ number < 48)
    (hstack : ∀ a, 0 < (c.reg .rsp - a).toNat → (c.reg .rsp - a).toNat ≤ 256 → Stack a) {r : Reg} (hr : r ≠ .rsp) :
    ∃ i, savedRegs.reverse[i]? = some r ∧
      loadWord (env.dispatch (called env entry number c)).memory (base c - 176#64 + BitVec.ofNat 64 (8 * i)) =
        c.reg r := by
  have hpos : ∃ i, i < 15 ∧ savedRegs.reverse[i]? = some r ∧ (frame number c)[21 - i]? = some (c.reg r) := by
    cases r with
    | rax => exact ⟨14, by decide, rfl, rfl⟩
    | rcx => exact ⟨13, by decide, rfl, rfl⟩
    | rdx => exact ⟨12, by decide, rfl, rfl⟩
    | rbx => exact ⟨11, by decide, rfl, rfl⟩
    | rsp => exact absurd rfl hr
    | rbp => exact ⟨10, by decide, rfl, rfl⟩
    | rsi => exact ⟨9, by decide, rfl, rfl⟩
    | rdi => exact ⟨8, by decide, rfl, rfl⟩
    | r8 => exact ⟨7, by decide, rfl, rfl⟩
    | r9 => exact ⟨6, by decide, rfl, rfl⟩
    | r10 => exact ⟨5, by decide, rfl, rfl⟩
    | r11 => exact ⟨4, by decide, rfl, rfl⟩
    | r12 => exact ⟨3, by decide, rfl, rfl⟩
    | r13 => exact ⟨2, by decide, rfl, rfl⟩
    | r14 => exact ⟨1, by decide, rfl, rfl⟩
    | r15 => exact ⟨0, by decide, rfl, rfl⟩
  obtain ⟨i, hlt, hsaved, hframe⟩ := hpos
  have haddr : base c - 176#64 + BitVec.ofNat 64 (8 * i) = base c - BitVec.ofNat 64 (8 * (21 - i + 1)) := by
    have hblt := (base c).isLt
    apply BitVec.eq_of_toNat_eq
    simp only [BitVec.toNat_sub, BitVec.toNat_add, BitVec.toNat_ofNat]
    omega
  refine ⟨i, hsaved, ?_⟩
  rw [haddr]
  exact frame_word_back hf hnumber hstack hframe

theorem epilogue_pops (hf : SystemV Stack env.dispatch) (hnumber : 32 ≤ number ∧ number < 48)
    (hstack : ∀ a, 0 < (c.reg .rsp - a).toNat → (c.reg .rsp - a).toNat ≤ 256 → Stack a) {s : Cpu}
    (hs : s = env.dispatch (called env entry number c)) :
    (run env ([.mov .rbx .rsp] ++ savedRegs.reverse.map .pop) s).memory = s.memory ∧
    (run env ([.mov .rbx .rsp] ++ savedRegs.reverse.map .pop) s).reg .rsp = base c - 56#64 ∧
    ∀ r, r ≠ .rsp → (run env ([.mov .rbx .rsp] ++ savedRegs.reverse.map .pop) s).reg r = c.reg r := by
  have hrbx : s.reg .rbx = base c - 176#64 := by
    rw [hs, hf.saved _ .rbx (by decide), called]
    have hpush := (beforeCall env entry number c).set_of_ne (q := .rbx) (r := .rsp) (by decide)
      ((beforeCall env entry number c).reg .rsp - 8#64)
    exact hpush.trans (beforeCall_state env entry c hnumber).2.2.2.1
  have hrsp : (s.set .rsp (s.reg .rbx)).reg .rsp = base c - 176#64 := (s.set_self .rsp _).trans hrbx
  have hstep : run env ([.mov .rbx .rsp] ++ savedRegs.reverse.map .pop) s =
      run env (savedRegs.reverse.map .pop) (s.set .rsp (s.reg .rbx)) := by
    rw [run_append]
    rfl
  obtain ⟨hmemory, hend, hget, -⟩ := run_pop env (s.set .rsp (s.reg .rbx)) savedRegs.reverse
    (by decide) (by decide)
  rw [hstep]
  refine ⟨hmemory, ?_, ?_⟩
  · have hlen : savedRegs.reverse.length = 15 := rfl
    have hlt := (base c).isLt
    rw [hend, hrsp, hlen]
    apply BitVec.eq_of_toNat_eq
    simp only [BitVec.toNat_sub, BitVec.toNat_add, BitVec.toNat_ofNat]
    omega
  · intro r hr
    obtain ⟨i, hi, hvalue⟩ := restored_reg entry hf hnumber hstack hr
    rw [hget i r hi, hrsp, ← hvalue, hs]
    rfl

theorem iretq_state (env : Environment) {s : Cpu} (hrsp : s.reg .rsp = base c - 40#64) (hregs : ∀ r, r ≠ .rsp → s.reg r = c.reg r)
    (hwords : ∀ i v, (frame number c)[i]? = some v →
      loadWord s.memory (base c - BitVec.ofNat 64 (8 * (i + 1))) = v) :
    exec env s .iretq = { c with memory := s.memory } := by
  have hlt := (base c).isLt
  have hup : ∀ k, k ≤ 4 → base c - 40#64 + BitVec.ofNat 64 (8 * k) = base c - BitVec.ofNat 64 (8 * (4 - k + 1)) := by
    intro k hk
    apply BitVec.eq_of_toNat_eq
    simp only [BitVec.toNat_sub, BitVec.toNat_add, BitVec.toNat_ofNat]
    omega
  have hdrop : ∀ (t : Cpu) k, t.reg .rsp = base c - 40#64 + BitVec.ofNat 64 (8 * k) →
      (drop t).reg .rsp = base c - 40#64 + BitVec.ofNat 64 (8 * (k + 1)) := by
    intro t k ht
    rw [drop, Cpu.set_self, ht]
    apply BitVec.eq_of_toNat_eq
    simp only [BitVec.toNat_sub, BitVec.toNat_add, BitVec.toNat_ofNat]
    omega
  have h0 : s.reg .rsp = base c - 40#64 + BitVec.ofNat 64 (8 * 0) := by simpa using hrsp
  have h1 := hdrop s 0 h0
  have h2 := hdrop (drop s) 1 h1
  have h3 := hdrop (drop (drop s)) 2 h2
  have h4 := hdrop (drop (drop (drop s))) 3 h3
  have hrip : top s = c.rip := by
    rw [top, h0, hup 0 (by decide)]
    exact hwords 4 _ rfl
  have hcs : top (drop s) = c.cs.zeroExtend 64 := by
    rw [top, h1, hup 1 (by decide)]
    exact hwords 3 _ rfl
  have hflags : top (drop (drop s)) = c.rflags := by
    rw [top, h2, hup 2 (by decide)]
    exact hwords 2 _ rfl
  have hsp : top (drop (drop (drop s))) = c.reg .rsp := by
    rw [top, h3, hup 3 (by decide)]
    exact hwords 1 _ rfl
  have hss : top (drop (drop (drop (drop s)))) = c.ss.zeroExtend 64 := by
    rw [top, h4, hup 4 (by decide)]
    exact hwords 0 _ rfl
  have hreg : Function.update s.reg .rsp (c.reg .rsp) = c.reg := by
    funext r
    by_cases hr : r = .rsp
    · rw [hr, Function.update_self]
    · rw [Function.update_of_ne hr, hregs r hr]
  have hselector : ∀ x : BitVec 16, (x.zeroExtend 64).truncate 16 = x := by
    intro x
    simp
  simp only [exec, hrip, hcs, hflags, hsp, hss, Cpu.set, hreg, hselector]

theorem interrupt_state (hf : SystemV Stack env.dispatch) (hnumber : 32 ≤ number ∧ number < 48)
    (hstack : ∀ a, 0 < (c.reg .rsp - a).toNat → (c.reg .rsp - a).toNat ≤ 256 → Stack a) :
    interrupt env entry number c =
      { c with memory := (env.dispatch (called env entry number c)).memory } := by
  have hsplit : interrupt env entry number c =
      run env irqEpilogue (env.dispatch (called env entry number c)) := by
    unfold interrupt
    rw [run_append, run_append]
    rfl
  generalize hs : env.dispatch (called env entry number c) = s at hsplit ⊢
  obtain ⟨hmemory, hrsp, hregs⟩ := epilogue_pops hf hnumber hstack hs.symm
  rw [hsplit, irqEpilogue, run_append]
  generalize run env ([.mov .rbx .rsp] ++ savedRegs.reverse.map .pop) s = t at hmemory hrsp hregs ⊢
  rw [← hmemory]
  have hlt := (base c).isLt
  apply iretq_state env (s := exec env t (.addRsp 16#64))
  · have hadd : (exec env t (.addRsp 16#64)).reg .rsp = t.reg .rsp + 16#64 := t.set_self .rsp _
    rw [hadd, hrsp]
    apply BitVec.eq_of_toNat_eq
    simp only [BitVec.toNat_sub, BitVec.toNat_add, BitVec.toNat_ofNat]
    omega
  · intro r hr
    exact (t.set_of_ne hr _).trans (hregs r hr)
  · intro i v hi
    change loadWord t.memory _ = v
    rw [hmemory, ← hs]
    exact frame_word_back hf hnumber hstack hi

theorem interrupt_memory (hf : SystemV Stack env.dispatch) (hnumber : 32 ≤ number ∧ number < 48) {a : BitVec 64}
    (hstack : Stack a) (ha : AtOrAbove (c.reg .rsp) a) :
    (env.dispatch (called env entry number c)).memory a.toNat = c.memory a.toNat := by
  have hsub := base_sub_le c
  have halt := a.isLt
  have hrlt := (c.reg .rsp).isLt
  have hblt := (base c).isLt
  unfold AtOrAbove at ha
  simp only [BitVec.toNat_sub] at ha hsub
  rw [dispatch_keeps hf hnumber hstack (by simp only [BitVec.toNat_sub, BitVec.toNat_ofNat]; omega)]
  have hlen : (frame number c ++ [env.returnAddress]).length = 23 := rfl
  apply pushAll_of_outside (base_words c)
  · rw [hlen]
    decide
  · rw [hlen]
    simp only [BitVec.toNat_sub]
    omega

variable (env c number entry) in
/-- Interrupts are transparent: `irq_dispatch` gets the vector with the direction flag clear and
    an aligned stack, and the interrupted code finds its registers, its flags and its stack. -/
theorem interrupt_transparent (hf : SystemV Stack env.dispatch) (hnumber : 32 ≤ number ∧ number < 48)
    (hstack : ∀ a, 0 < (c.reg .rsp - a).toNat → (c.reg .rsp - a).toNat ≤ 256 → Stack a) :
    ((beforeCall env entry number c).reg .rdi = BitVec.ofNat 64 number ∧
      (beforeCall env entry number c).rflags &&& directionBit = 0#64 ∧
      ((beforeCall env entry number c).reg .rsp).toNat % 16 = 0) ∧
    (∀ r, (interrupt env entry number c).reg r = c.reg r) ∧
    (interrupt env entry number c).rip = c.rip ∧
    (interrupt env entry number c).cs = c.cs ∧
    (interrupt env entry number c).rflags = c.rflags ∧
    (interrupt env entry number c).ss = c.ss ∧
    ∀ a, Stack a → AtOrAbove (c.reg .rsp) a → (interrupt env entry number c).memory a.toNat = c.memory a.toNat := by
  obtain ⟨hvector, hdirection, hrsp, -, -⟩ := beforeCall_state env entry c hnumber
  have haligned : ((beforeCall env entry number c).reg .rsp).toNat % 16 = 0 := by
    rw [hrsp, ← call_rsp, toNat_align]
    omega
  refine ⟨⟨hvector, hdirection, haligned⟩, ?_⟩
  rw [interrupt_state hf hnumber hstack]
  refine ⟨fun r => rfl, rfl, rfl, rfl, rfl, ?_⟩
  intro a ha habove
  exact interrupt_memory hf hnumber ha habove

/-- A dispatcher that spoils a scratch register and a byte of its own stack. -/
def scribble (c : Cpu) : Cpu :=
  { (drop c).set .rax 7#64 with memory := Function.update c.memory (c.reg .rsp - 1#64).toNat 7 }

theorem scribble_systemV : SystemV (fun _ => True) scribble where
  saved := by
    intro c r hr
    have hrax : r ≠ .rax := by
      rintro rfl
      exact absurd hr (by decide)
    have hrsp : r ≠ .rsp := by
      rintro rfl
      exact absurd hr (by decide)
    exact (Cpu.set_of_ne _ hrax _).trans (c.set_of_ne hrsp _)
  rsp := by
    intro c
    have hrax : Reg.rsp ≠ Reg.rax := by decide
    exact ((drop c).set_of_ne hrax 7#64).trans (c.set_self .rsp _)
  stack := by
    intro c a _ hbelow
    apply Function.update_of_ne
    intro ha
    apply hbelow
    rw [BitVec.toNat_inj] at ha
    have hlt := (c.reg .rsp).isLt
    rw [ha]
    unfold Below
    simp only [BitVec.toNat_sub, BitVec.toNat_ofNat]
    omega

/-- Vector 33 on an odd stack pointer, with the direction flag set. -/
theorem interrupt_transparent_scribble :
    let env : Environment := ⟨scribble, fun _ => 0#64, 0x101000#64⟩
    let c : Cpu := ⟨fun _ => 0x200003#64, 0x100123#64, 8#16, 16#16, 0x602#64, fun _ => 1⟩
    (∀ r, (interrupt env 0x100400#64 33 c).reg r = 0x200003#64) ∧
      (interrupt env 0x100400#64 33 c).rflags = 0x602#64 := by
  intro env c
  have h := interrupt_transparent env c 33 0x100400#64 scribble_systemV (by decide) (fun _ _ _ => trivial)
  exact ⟨h.2.1, h.2.2.2.2.1⟩

end Return

end OsByAi.InterruptEntry
