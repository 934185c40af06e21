import OsByAi.InterruptEntry

set_option autoImplicit false

/-!
# The boot check of the interrupt path

`timer_check_registers` loads a pattern, halts until an interrupt and compares. The code is
given an instruction at a time; what happens during the halt is a parameter, first any
function that leaves the stack in use alone, then any series of interrupts.
-/
namespace OsByAi.TimerCheck
open ByteMemory WordStack InterruptEntry

def carryBit : BitVec 64 := 1#64

def zeroBit : BitVec 64 := 0x40#64

def interruptBit : BitVec 64 := 0x200#64

/-- RF and VM, which `pushfq` stores as zero. -/
def unpushedBits : BitVec 64 := 0x30000#64

inductive CheckInstr where
  | plain (i : Instr)
  | movImm (v : BitVec 64) (r : Reg)
  | std
  | stc
  | sti
  | hlt
  | cli
  | pushfq
  | cmpImm (v : BitVec 64) (r : Reg)
  | andImm (v : BitVec 64) (r : Reg)
  | sete
  | movzbl
  | xorEax
  | ret

/-- The flags after a comparison or a logical instruction: ZF tells about the result, the other
    status bits are whatever they are. -/
def flagsAfter (env : Environment) (c : Cpu) (zero : Bool) : BitVec 64 :=
  (withStatus env c &&& ~~~zeroBit) ||| (if zero then zeroBit else 0#64)

def zeroFlag (c : Cpu) : Bool := c.rflags &&& zeroBit != 0#64

/-- `wait` runs from the halt to the next instruction that is not part of an interrupt. -/
def step (env : Environment) (wait : Cpu → Cpu) (c : Cpu) : CheckInstr → Cpu
  | .plain i => exec env c i
  | .movImm v r => c.set r v
  | .std => { c with rflags := c.rflags ||| directionBit }
  | .stc => { c with rflags := c.rflags ||| carryBit }
  | .sti => { c with rflags := c.rflags ||| interruptBit }
  | .hlt => wait c
  | .cli => { c with rflags := c.rflags &&& ~~~interruptBit }
  | .pushfq => push (c.rflags &&& ~~~unpushedBits) c
  | .cmpImm v r => { c with rflags := flagsAfter env c (c.reg r == v) }
  | .andImm v r => { c.set r (c.reg r &&& v) with rflags := flagsAfter env c (c.reg r &&& v == 0#64) }
  | .sete => c.set .rax ((c.reg .rax &&& ~~~0xff#64) ||| (if zeroFlag c then 1#64 else 0#64))
  | .movzbl => c.set .rax (c.reg .rax &&& 0xff#64)
  | .xorEax => { c.set .rax 0#64 with rflags := flagsAfter env c true }
  | .ret => { drop c with rip := top c }

def steps (env : Environment) (wait : Cpu → Cpu) (code : List CheckInstr) (c : Cpu) : Cpu := code.foldl (step env wait) c

def pattern : List (Reg × BitVec 64) :=
  [(.rax, 1#64), (.rcx, 2#64), (.rdx, 3#64), (.rbx, 4#64), (.rbp, 5#64), (.rsi, 6#64), (.rdi, 7#64), (.r8, 8#64),
    (.r9, 9#64), (.r10, 10#64), (.r11, 11#64), (.r12, 12#64), (.r13, 13#64), (.r14, 14#64), (.r15, 15#64)]

def pushedRegs : List Reg := [.rbx, .rbp, .r12, .r13, .r14, .r15]

def prepare : List CheckInstr :=
  pushedRegs.map (fun r => .plain (.push r)) ++ pattern.map (fun p => .movImm p.2 p.1) ++ [.std, .stc, .sti]

def resume : List CheckInstr := [.cli, .pushfq, .plain .cld]

/-- The `CHECK_REGISTER` lines; the first that differs jumps to label 3. -/
def checkRegisters (env : Environment) : List (Reg × BitVec 64) → Cpu → Bool × Cpu
  | [], c => (true, c)
  | (r, v) :: rest, c =>
    let c := step env id c (.cmpImm v r)
    if zeroFlag c then checkRegisters env rest c else (false, c)

def flagsCheck : List CheckInstr := [.plain (.pop .rax), .andImm 0x401#64 .rax, .cmpImm 0x401#64 .rax, .sete, .movzbl]

/-- Label 3. -/
def failure : List CheckInstr := [.plain (.addRsp 8#64), .xorEax]

/-- Label 4. -/
def leave : List CheckInstr := pushedRegs.reverse.map (fun r => .plain (.pop r)) ++ [.ret]

def halted (env : Environment) (c : Cpu) : Cpu := steps env id prepare c

def timerCheckRegisters (env : Environment) (wait : Cpu → Cpu) (c : Cpu) : Cpu :=
  let c := steps env wait [.hlt] (halted env c)
  let c := steps env wait resume c
  let (equal, c) := checkRegisters env pattern c
  let c := steps env wait (if equal then flagsCheck else failure) c
  steps env wait leave c

section Flags

variable {env : Environment} {c : Cpu}

def Quiet (flags : BitVec 64) : Prop := flags &&& (interruptBit ||| directionBit) = 0#64

theorem Quiet.interrupt {flags : BitVec 64} (h : Quiet flags) : flags &&& interruptBit = 0#64 := by
  have hmask : interruptBit = (interruptBit ||| directionBit) &&& interruptBit := by decide
  rw [hmask, ← BitVec.and_assoc, h, BitVec.zero_and]

theorem Quiet.direction {flags : BitVec 64} (h : Quiet flags) : flags &&& directionBit = 0#64 := by
  have hmask : directionBit = (interruptBit ||| directionBit) &&& directionBit := by decide
  rw [hmask, ← BitVec.and_assoc, h, BitVec.zero_and]

theorem quiet_of_cleared (flags : BitVec 64) : Quiet (flags &&& ~~~interruptBit &&& ~~~directionBit) := by
  have hmask : ~~~interruptBit &&& (~~~directionBit &&& (interruptBit ||| directionBit)) = 0#64 := by decide
  rw [Quiet, BitVec.and_assoc, BitVec.and_assoc, hmask, BitVec.and_zero]

theorem quiet_withStatus (h : Quiet c.rflags) : Quiet (withStatus env c) := by
  have hstatus : statusBits &&& (interruptBit ||| directionBit) = 0#64 := by decide
  have hkept : ~~~statusBits &&& (interruptBit ||| directionBit) = interruptBit ||| directionBit := by decide
  unfold Quiet at h ⊢
  rw [withStatus, BitVec.and_or_distrib_right, BitVec.and_assoc, hkept, h, BitVec.and_assoc, hstatus, BitVec.and_zero,
    BitVec.or_zero]

theorem quiet_flagsAfter (zero : Bool) (h : Quiet c.rflags) : Quiet (flagsAfter env c zero) := by
  have hkept : ~~~zeroBit &&& (interruptBit ||| directionBit) = interruptBit ||| directionBit := by decide
  have hzero : (if zero then zeroBit else 0#64) &&& (interruptBit ||| directionBit) = 0#64 := by
    cases zero <;> decide
  have hstatus : Quiet (withStatus env c) := quiet_withStatus h
  unfold Quiet at hstatus ⊢
  rw [flagsAfter, BitVec.and_or_distrib_right, BitVec.and_assoc, hkept, hstatus, hzero, BitVec.or_zero]

theorem flagsAfter_zero (env : Environment) (c : Cpu) (zero : Bool) :
    flagsAfter env c zero &&& zeroBit = if zero then zeroBit else 0#64 := by
  have hclear : ~~~zeroBit &&& zeroBit = 0#64 := by decide
  have hsame : (if zero then zeroBit else 0#64) &&& zeroBit = if zero then zeroBit else 0#64 := by
    cases zero <;> decide
  rw [flagsAfter, BitVec.and_or_distrib_right, BitVec.and_assoc, hclear, BitVec.and_zero, BitVec.zero_or, hsame]

theorem zeroFlag_after {d : Cpu} {zero : Bool} (h : d.rflags = flagsAfter env c zero) : zeroFlag d = zero := by
  rw [zeroFlag, h, flagsAfter_zero]
  cases zero <;> decide

end Flags

section Halt

variable {env : Environment} {wait : Cpu → Cpu} {c : Cpu}

theorem steps_append (env : Environment) (wait : Cpu → Cpu) (code code' : List CheckInstr) (c : Cpu) :
    steps env wait (code ++ code') c = steps env wait code' (steps env wait code c) := List.foldl_append

theorem steps_plain (env : Environment) (wait : Cpu → Cpu) (code : List Instr) (c : Cpu) :
    steps env wait (code.map .plain) c = run env code c := by
  induction code generalizing c with
  | nil => rfl
  | cons i code ih => exact ih (exec env c i)

theorem steps_movImm (env : Environment) (wait : Cpu → Cpu) (ps : List (Reg × BitVec 64)) (c : Cpu)
    (hnodup : (ps.map Prod.fst).Nodup) :
    ∃ regs, steps env wait (ps.map fun p => .movImm p.2 p.1) c = { c with reg := regs } ∧
      (∀ p ∈ ps, regs p.1 = p.2) ∧ ∀ r, r ∉ ps.map Prod.fst → regs r = c.reg r := by
  induction ps generalizing c with
  | nil => exact ⟨c.reg, rfl, fun p hp => absurd hp (by simp), fun r _ => rfl⟩
  | cons p ps ih =>
    rw [List.map_cons, List.nodup_cons] at hnodup
    obtain ⟨regs, hstate, hset, hkeep⟩ := ih (c.set p.1 p.2) hnodup.2
    refine ⟨regs, hstate, ?_, ?_⟩
    · intro q hq
      obtain rfl | hq := List.mem_cons.mp hq
      · rw [hkeep q.1 hnodup.1, Cpu.set_self]
      · exact hset q hq
    · intro r hr
      rw [List.map_cons, List.mem_cons, not_or] at hr
      rw [hkeep r hr.2, Cpu.set_of_ne _ hr.1]

theorem pattern_covers {r : Reg} (hr : r ≠ .rsp) : ∃ v, (r, v) ∈ pattern := by
  cases r <;> first | exact absurd rfl hr | exact ⟨_, by unfold pattern; simp; rfl⟩

/-- The state at the halt: the pattern in the registers, both flags set, interrupts enabled and the
    caller's registers on the stack. -/
structure Halted (c h : Cpu) : Prop where
  regs : ∀ p ∈ pattern, h.reg p.1 = p.2
  rsp : h.reg .rsp = c.reg .rsp - 48#64
  rflags : h.rflags = c.rflags ||| directionBit ||| carryBit ||| interruptBit
  memory : h.memory = pushAll c.memory (c.reg .rsp) (pushedRegs.map c.reg)

theorem halted_state (env : Environment) (c : Cpu) : Halted c (halted env c) := by
  have hpush : steps env id (pushedRegs.map fun r => .plain (.push r)) c = pushed (pushedRegs.map c.reg) c := by
    have hrun : run env (pushedRegs.map .push) c = pushed (pushedRegs.map c.reg) c := run_push (by decide)
    rw [← hrun, ← steps_plain env id, List.map_map]
    rfl
  obtain ⟨regs, hstate, hset, hkeep⟩ := steps_movImm env id pattern (pushed (pushedRegs.map c.reg) c) (by decide)
  have hrsp : regs .rsp = c.reg .rsp - 48#64 := by
    rw [hkeep .rsp (by decide), pushed_rsp]
    rfl
  unfold halted prepare
  rw [steps_append, steps_append, hpush, hstate]
  exact ⟨hset, hrsp, rfl, rfl⟩

end Halt

section Verdict

variable {env : Environment} {wait : Cpu → Cpu} {c d h w : Cpu}

structure Survived (h w : Cpu) : Prop where
  regs : ∀ r, r ≠ .rsp → w.reg r = h.reg r
  flags : w.rflags &&& 0x401#64 = h.rflags &&& 0x401#64

def pushedFlags (w : Cpu) : BitVec 64 := w.rflags &&& ~~~interruptBit &&& ~~~unpushedBits

structure Resumed (w d : Cpu) : Prop where
  reg : ∀ r, r ≠ .rsp → d.reg r = w.reg r
  rsp : d.reg .rsp = w.reg .rsp - 8#64
  memory : d.memory = storeWord w.memory (w.reg .rsp - 8#64) (pushedFlags w)
  quiet : Quiet d.rflags

theorem resume_state (env : Environment) (wait : Cpu → Cpu) (w : Cpu) : Resumed w (steps env wait resume w) where
  reg _ hr := w.set_of_ne hr _
  rsp := w.set_self .rsp _
  memory := rfl
  quiet := quiet_of_cleared w.rflags

theorem checkRegisters_state (env : Environment) (ps : List (Reg × BitVec 64)) (d : Cpu) (hd : Quiet d.rflags) :
    ∃ equal flags, checkRegisters env ps d = (equal, { d with rflags := flags }) ∧ Quiet flags ∧
      (equal = true ↔ ∀ p ∈ ps, d.reg p.1 = p.2) := by
  induction ps generalizing d with
  | nil => exact ⟨true, d.rflags, rfl, hd, by simp⟩
  | cons p ps ih =>
    rcases p with ⟨r, v⟩
    have hquiet : Quiet (flagsAfter env d (d.reg r == v)) := quiet_flagsAfter _ hd
    have hflag : zeroFlag (step env id d (.cmpImm v r)) = (d.reg r == v) := zeroFlag_after rfl
    rw [checkRegisters]
    simp only [hflag]
    by_cases heq : d.reg r = v
    · obtain ⟨equal, flags, hcheck, hflags, hiff⟩ := ih (step env id d (.cmpImm v r)) hquiet
      refine ⟨equal, flags, ?_, hflags, ?_⟩
      · simp only [heq, beq_self_eq_true, if_true]
        exact hcheck
      · rw [hiff, List.forall_mem_cons]
        exact ⟨fun hall => ⟨heq, hall⟩, fun hall => hall.2⟩
    · refine ⟨false, flagsAfter env d (d.reg r == v), ?_, hquiet, ?_⟩
      · rw [if_neg (by simpa using heq)]
        rfl
      · simp [heq]

structure Judged (d e : Cpu) (verdict : Bool) : Prop where
  result : e.reg .rax = if verdict then 1#64 else 0#64
  rsp : e.reg .rsp = d.reg .rsp + 8#64
  memory : e.memory = d.memory
  quiet : Quiet e.rflags

theorem low_byte (x : BitVec 64) (b : Bool) :
    ((x &&& ~~~0xff#64) ||| (if b then 1#64 else 0#64)) &&& 0xff#64 = if b then 1#64 else 0#64 := by
  have hclear : ~~~0xff#64 &&& 0xff#64 = 0#64 := by decide
  have hbit : (if b then 1#64 else 0#64) &&& 0xff#64 = if b then 1#64 else 0#64 := by
    cases b <;> decide
  rw [BitVec.and_or_distrib_right, BitVec.and_assoc, hclear, BitVec.and_zero, BitVec.zero_or, hbit]

theorem flagsCheck_state (env : Environment) (wait : Cpu → Cpu) (d : Cpu) (hd : Quiet d.rflags) :
    Judged d (steps env wait flagsCheck d) (top d &&& 0x401#64 == 0x401#64) := by
  generalize hc1 : (drop d).set .rax (top d) = c1
  have hrax1 : c1.reg .rax = top d := by rw [← hc1, Cpu.set_self]
  have hquiet1 : Quiet c1.rflags := by
    rw [← hc1]
    exact hd
  generalize hc2 : step env wait c1 (.andImm 0x401#64 .rax) = c2
  have hrax2 : c2.reg .rax = top d &&& 0x401#64 := by
    rw [← hc2, ← hrax1]
    exact c1.set_self .rax _
  have hquiet2 : Quiet c2.rflags := by
    rw [← hc2]
    exact quiet_flagsAfter _ hquiet1
  generalize hc3 : step env wait c2 (.cmpImm 0x401#64 .rax) = c3
  have hreg3 : c3.reg = c2.reg := by rw [← hc3]; rfl
  have hzero3 : zeroFlag c3 = (top d &&& 0x401#64 == 0x401#64) := by
    have hflags : c3.rflags = flagsAfter env c2 (c2.reg .rax == 0x401#64) := by
      rw [← hc3]
      rfl
    rw [← hrax2, zeroFlag_after hflags]
  have hquiet3 : Quiet c3.rflags := by
    rw [← hc3]
    exact quiet_flagsAfter _ hquiet2
  have hsteps : steps env wait flagsCheck d = step env wait (step env wait c3 .sete) .movzbl := by
    rw [← hc3, ← hc2, ← hc1]
    rfl
  have hother : ∀ r, r ≠ .rax → (step env wait (step env wait c3 .sete) .movzbl).reg r = c1.reg r := by
    intro r hr
    change ((c3.set .rax _).set .rax _).reg r = _
    rw [Cpu.set_of_ne _ hr, Cpu.set_of_ne _ hr, hreg3, ← hc2]
    exact c1.set_of_ne hr _
  rw [hsteps]
  refine ⟨?_, ?_, ?_, hquiet3⟩
  · change ((c3.set .rax _).set .rax ((c3.set .rax _).reg .rax &&& 0xff#64)).reg .rax = _
    rw [Cpu.set_self, Cpu.set_self, low_byte, hzero3]
  · rw [hother .rsp (by decide), ← hc1, Cpu.set_of_ne _ (by decide), drop, Cpu.set_self]
  · change c3.memory = _
    rw [← hc3, ← hc2, ← hc1]
    rfl

theorem failure_state (env : Environment) (wait : Cpu → Cpu) (d : Cpu) (hd : Quiet d.rflags) :
    Judged d (steps env wait failure d) false := by
  generalize hc : step env wait d (.plain (.addRsp 8#64)) = c
  have hrsp : c.reg .rsp = d.reg .rsp + 8#64 := by
    rw [← hc]
    exact d.set_self .rsp _
  have hquiet : Quiet c.rflags := by
    rw [← hc]
    exact quiet_withStatus hd
  have hmemory : c.memory = d.memory := by
    rw [← hc]
    rfl
  have hsteps : steps env wait failure d = step env wait c .xorEax := by
    rw [← hc]
    rfl
  have hkeep : (step env wait c .xorEax).reg .rsp = c.reg .rsp := c.set_of_ne (by decide : Reg.rsp ≠ Reg.rax) 0#64
  rw [hsteps]
  exact ⟨c.set_self .rax _, hkeep.trans hrsp, hmemory, quiet_flagsAfter _ hquiet⟩

theorem leave_state (env : Environment) (wait : Cpu → Cpu) {c e : Cpu} (hrsp : e.reg .rsp = c.reg .rsp - 48#64)
    (hsaved : ∀ i v, (pushedRegs.map c.reg)[i]? = some v →
      loadWord e.memory (c.reg .rsp - BitVec.ofNat 64 (8 * (i + 1))) = v)
    (hreturn : loadWord e.memory (c.reg .rsp) = loadWord c.memory (c.reg .rsp)) :
    (∀ r ∈ pushedRegs, (steps env wait leave e).reg r = c.reg r) ∧
      (steps env wait leave e).reg .rax = e.reg .rax ∧ (steps env wait leave e).reg .rsp = c.reg .rsp + 8#64 ∧
      (steps env wait leave e).rip = loadWord c.memory (c.reg .rsp) ∧
      (steps env wait leave e).rflags = e.rflags ∧ (steps env wait leave e).memory = e.memory := by
  have hlt := (c.reg .rsp).isLt
  obtain ⟨hmemory, hend, hget, hkeep⟩ := run_pop env e pushedRegs.reverse (by decide) (by decide)
  have hup : ∀ i, i < 6 → e.reg .rsp + BitVec.ofNat 64 (8 * i) = c.reg .rsp - BitVec.ofNat 64 (8 * (5 - i + 1)) := by
    intro i hi
    rw [hrsp]
    apply BitVec.eq_of_toNat_eq
    simp only [BitVec.toNat_sub, BitVec.toNat_add, BitVec.toNat_ofNat]
    omega
  have htop : e.reg .rsp + BitVec.ofNat 64 (8 * pushedRegs.reverse.length) = c.reg .rsp := by
    rw [hrsp]
    apply BitVec.eq_of_toNat_eq
    simp only [pushedRegs, List.length_reverse, List.length_cons, List.length_nil, BitVec.toNat_sub, BitVec.toNat_add,
      BitVec.toNat_ofNat]
    omega
  have hpops : steps env wait (pushedRegs.reverse.map fun r => .plain (.pop r)) e = run env (pushedRegs.reverse.map .pop) e := by
    rw [← steps_plain env wait, List.map_map]
    rfl
  have hflags : ∀ (regs : List Reg) (s : Cpu), (run env (regs.map .pop) s).rflags = s.rflags := by
    intro regs
    induction regs with
    | nil => intro s; rfl
    | cons r regs ih => exact fun s => ih ((drop s).set r (top s))
  rw [leave, steps_append, hpops]
  generalize hs : run env (pushedRegs.reverse.map .pop) e = s at hmemory hend hget hkeep
  have hsflags : s.rflags = e.rflags := by rw [← hs, hflags]
  have hret : ∀ r, r ≠ .rsp → (steps env wait [.ret] s).reg r = s.reg r := fun _ hr => s.set_of_ne hr _
  rw [htop] at hend
  refine ⟨?_, ?_, ?_, ?_, hsflags, hmemory⟩
  · intro r hr
    obtain ⟨i, hi, hpos, hword⟩ : ∃ i, i < 6 ∧ pushedRegs.reverse[i]? = some r ∧
        (pushedRegs.map c.reg)[5 - i]? = some (c.reg r) := by
      simp only [pushedRegs, List.mem_cons, List.not_mem_nil, or_false] at hr
      obtain rfl | rfl | rfl | rfl | rfl | rfl := hr
      · exact ⟨5, by decide, rfl, rfl⟩
      · exact ⟨4, by decide, rfl, rfl⟩
      · exact ⟨3, by decide, rfl, rfl⟩
      · exact ⟨2, by decide, rfl, rfl⟩
      · exact ⟨1, by decide, rfl, rfl⟩
      · exact ⟨0, by decide, rfl, rfl⟩
    have hne : r ≠ .rsp := by
      rintro rfl
      exact absurd hr (by decide)
    rw [hret r hne, hget i r hpos, hup i hi]
    exact hsaved (5 - i) _ hword
  · rw [hret .rax (by decide), hkeep .rax (by decide) (by decide)]
  · rw [← hend]
    exact s.set_self .rsp _
  · rw [← hreturn, ← hmemory, ← hend]
    rfl

end Verdict

section Check

variable {env : Environment} {wait : Cpu → Cpu} {c h w : Cpu} {Stack : BitVec 64 → Prop}

/-- The halt leaves the stack in use alone. Bytes outside `Stack` are not promised. -/
structure StackKept (Stack : BitVec 64 → Prop) (h w : Cpu) : Prop where
  rsp : w.reg .rsp = h.reg .rsp
  stack : ∀ a, Stack a → AtOrAbove (h.reg .rsp) a → w.memory a.toNat = h.memory a.toNat

structure Returned (Stack : BitVec 64 → Prop) (c d : Cpu) : Prop where
  saved : ∀ r ∈ calleeSaved, d.reg r = c.reg r
  rsp : d.reg .rsp = c.reg .rsp + 8#64
  rip : d.rip = loadWord c.memory (c.reg .rsp)
  interrupts : d.rflags &&& interruptBit = 0#64
  direction : d.rflags &&& directionBit = 0#64
  memory : ∀ a, Stack a → (a - c.reg .rsp).toNat < 2 ^ 62 → d.memory a.toNat = c.memory a.toNat

theorem pushedFlags_tested (w : Cpu) : pushedFlags w &&& 0x401#64 = w.rflags &&& 0x401#64 := by
  have hmask : ~~~interruptBit &&& (~~~unpushedBits &&& 0x401#64) = 0x401#64 := by decide
  rw [pushedFlags, BitVec.and_assoc, BitVec.and_assoc, hmask]

theorem Halted.tested (hh : Halted c h) : h.rflags &&& 0x401#64 = 0x401#64 := by
  have hset : directionBit ||| (carryBit ||| interruptBit) = 0x601#64 := by decide
  have hmask : 0x601#64 &&& 0x401#64 = 0x401#64 := by decide
  rw [hh.rflags, BitVec.or_assoc, BitVec.or_assoc, hset, BitVec.and_or_distrib_right, hmask]
  ext i hi
  rw [BitVec.getElem_or, BitVec.getElem_and]
  cases (0x401#64)[i] <;> simp

theorem kept_above (hstack : ∀ a, (a - (c.reg .rsp - 304#64)).toNat < 312 → Stack a) (halign : (c.reg .rsp).toNat % 8 = 0)
    (hh : Halted c h) (hw : StackKept Stack h w) {a : BitVec 64} (v : BitVec 64)
    (ha : (a - (c.reg .rsp - 48#64)).toNat < 56 ∨ Stack a ∧ (a - c.reg .rsp).toNat < 2 ^ 62) :
    storeWord w.memory (w.reg .rsp - 8#64) v a.toNat = pushAll c.memory (c.reg .rsp) (pushedRegs.map c.reg) a.toNat := by
  have hlt := (c.reg .rsp).isLt
  have halt := a.isLt
  have hdistance : (a - h.reg .rsp).toNat < 2 ^ 62 + 48 := by
    rw [hh.rsp]
    simp only [BitVec.toNat_sub, BitVec.toNat_ofNat] at ha ⊢
    omega
  have hmem : Stack a := by
    obtain ha | ha := ha
    · apply hstack
      simp only [BitVec.toNat_sub, BitVec.toNat_ofNat] at ha ⊢
      omega
    · exact ha.1
  rw [hw.rsp, storeWord_of_outside, hw.stack a hmem (by unfold AtOrAbove; omega), hh.memory]
  · rw [hh.rsp]
    simp only [BitVec.toNat_sub, BitVec.toNat_ofNat]
    omega
  · have hhlt := (h.reg .rsp).isLt
    simp only [BitVec.toNat_sub, BitVec.toNat_ofNat] at hdistance ⊢
    omega

theorem check_verdict (env : Environment) (wait : Cpu → Cpu) {d : Cpu} (hh : Halted c h) (hd : Resumed w d) :
    ∃ equal flags e, checkRegisters env pattern d = (equal, { d with rflags := flags }) ∧
      steps env wait (if equal then flagsCheck else failure) { d with rflags := flags } = e ∧
      ∃ verdict, Judged d e verdict ∧ (verdict = true ↔ Survived h w) := by
  obtain ⟨equal, flags, hcheck, hquiet, hiff⟩ := checkRegisters_state env pattern d hd.quiet
  refine ⟨equal, flags, _, hcheck, rfl, ?_⟩
  have hregs : equal = true ↔ ∀ r, r ≠ .rsp → w.reg r = h.reg r := by
    rw [hiff]
    constructor
    · intro hall r hr
      obtain ⟨v, hv⟩ := pattern_covers hr
      rw [← hd.reg r hr, hall _ hv, ← hh.regs _ hv]
    · intro hall p hp
      have hne : p.1 ≠ .rsp := by
        have hno : ∀ q ∈ pattern, q.1 ≠ .rsp := by decide
        exact hno p hp
      rw [hd.reg _ hne, hall _ hne, hh.regs p hp]
  have htop : top { d with rflags := flags } = pushedFlags w := by
    change loadWord d.memory (d.reg .rsp) = _
    rw [hd.memory, hd.rsp, loadWord_storeWord]
  cases equal with
  | false =>
    have hjudged := failure_state env wait { d with rflags := flags } hquiet
    refine ⟨false, ⟨hjudged.result, hjudged.rsp, hjudged.memory, hjudged.quiet⟩, ?_⟩
    constructor
    · intro hno
      exact absurd hno (by decide)
    · intro hsurvived
      exact hregs.mpr hsurvived.regs
  | true =>
    have hjudged := flagsCheck_state env wait { d with rflags := flags } hquiet
    refine ⟨_, ⟨hjudged.result, hjudged.rsp, hjudged.memory, hjudged.quiet⟩, ?_⟩
    rw [htop, pushedFlags_tested, beq_iff_eq]
    constructor
    · intro hflags
      exact ⟨hregs.mp rfl, hflags.trans hh.tested.symm⟩
    · intro hsurvived
      exact hsurvived.flags.trans hh.tested

/-- The check returns whatever the interrupt did, and tells whether the pattern survived. -/
theorem check_returns (hstack : ∀ a, (a - (c.reg .rsp - 304#64)).toNat < 312 → Stack a) (halign : (c.reg .rsp).toNat % 8 = 0)
    (hw : StackKept Stack (halted env c) (wait (halted env c))) :
    Returned Stack c (timerCheckRegisters env wait c) ∧
      ∃ verdict, (timerCheckRegisters env wait c).reg .rax = (if verdict then 1#64 else 0#64) ∧
        (verdict = true ↔ Survived (halted env c) (wait (halted env c))) := by
  have hh := halted_state env c
  generalize hhalted : halted env c = h at hh hw
  have hwait : steps env wait [.hlt] h = wait h := rfl
  generalize hwaited : wait h = w at hw
  have hd := resume_state env wait w
  generalize hresumed : steps env wait resume w = d at hd
  obtain ⟨equal, flags, e, hcheck, hjudge, verdict, hjudged, hiff⟩ := check_verdict env wait hh hd
  have hrun : timerCheckRegisters env wait c = steps env wait leave e := by
    unfold timerCheckRegisters
    simp only [hhalted, hwait, hwaited, hresumed, hcheck, hjudge]
  have hlt := (c.reg .rsp).isLt
  have hmemory : e.memory = storeWord w.memory (w.reg .rsp - 8#64) (pushedFlags w) := hjudged.memory.trans hd.memory
  have hersp : e.reg .rsp = c.reg .rsp - 48#64 := by
    rw [hjudged.rsp, hd.rsp, hw.rsp, hh.rsp]
    apply BitVec.eq_of_toNat_eq
    simp only [BitVec.toNat_sub, BitVec.toNat_add, BitVec.toNat_ofNat]
    omega
  have houter : ∀ a, Stack a → (a - c.reg .rsp).toNat < 2 ^ 62 → e.memory a.toNat = c.memory a.toNat := by
    intro a ha hnear
    rw [hmemory, kept_above hstack halign hh hw _ (Or.inr ⟨ha, hnear⟩)]
    have halt := a.isLt
    apply pushAll_of_outside halign (by simp [pushedRegs])
    simp only [pushedRegs, List.map_cons, List.map_nil, List.length_cons, List.length_nil]
    simp only [BitVec.toNat_sub] at hnear ⊢
    omega
  have hsaved : ∀ i v, (pushedRegs.map c.reg)[i]? = some v →
      loadWord e.memory (c.reg .rsp - BitVec.ofNat 64 (8 * (i + 1))) = v := by
    intro i v hi
    have hsix : i < 6 := (List.getElem?_eq_some_iff.mp hi).1
    rw [← loadWord_pushAll (m := c.memory) halign (by simp [pushedRegs]) hi]
    apply loadWord_congr
    · simp only [BitVec.toNat_sub, BitVec.toNat_ofNat]
      omega
    · intro x hx
      rw [hmemory]
      apply kept_above hstack halign hh hw
      left
      have hxlt := x.isLt
      simp only [BitVec.toNat_sub, BitVec.toNat_ofNat] at hx ⊢
      omega
  have hreturn : loadWord e.memory (c.reg .rsp) = loadWord c.memory (c.reg .rsp) := by
    apply loadWord_congr halign
    intro x hx
    have hxlt := x.isLt
    apply houter
    · apply hstack
      simp only [BitVec.toNat_sub, BitVec.toNat_ofNat] at hx ⊢
      omega
    · omega
  obtain ⟨hregs, hrax, hrsp, hrip, hflags, hmem⟩ := leave_state env wait hersp hsaved hreturn
  rw [hrun]
  refine ⟨⟨?_, hrsp, hrip, ?_, ?_, ?_⟩, verdict, hrax.trans hjudged.result, hiff⟩
  · intro r hr
    exact hregs r hr
  · rw [hflags]
    exact hjudged.quiet.interrupt
  · rw [hflags]
    exact hjudged.quiet.direction
  · intro a ha hnear
    rw [hmem, houter a ha hnear]

end Check

section Interrupts

variable {env : Environment} {c h : Cpu} {Stack : BitVec 64 → Prop}

/-- One interrupt during the halt: the offset in its gate, its vector and what `irq_dispatch` does. -/
structure Irq where
  entry : BitVec 64
  number : ℕ
  dispatch : Cpu → Cpu

def serve (env : Environment) (irqs : List Irq) (c : Cpu) : Cpu :=
  irqs.foldl (fun c i => interrupt { env with dispatch := i.dispatch } i.entry i.number c) c

structure Legal (Stack : BitVec 64 → Prop) (i : Irq) : Prop where
  vector : 32 ≤ i.number ∧ i.number < 48
  convention : SystemV Stack i.dispatch

theorem serve_state (env : Environment) (irqs : List Irq) (hirqs : ∀ i ∈ irqs, Legal Stack i)
    (hstack : ∀ a, 0 < (h.reg .rsp - a).toNat → (h.reg .rsp - a).toNat ≤ 256 → Stack a) :
    ∃ m, serve env irqs h = { h with memory := m } ∧
      ∀ a, Stack a → AtOrAbove (h.reg .rsp) a → m a.toNat = h.memory a.toNat := by
  induction irqs generalizing h with
  | nil => exact ⟨h.memory, rfl, fun a _ _ => rfl⟩
  | cons i irqs ih =>
    rw [List.forall_mem_cons] at hirqs
    generalize he : ({ env with dispatch := i.dispatch } : Environment) = e
    have hconvention : SystemV Stack e.dispatch := by
      rw [← he]
      exact hirqs.1.convention
    have hstate : interrupt e i.entry i.number h = { h with memory := (e.dispatch (called e i.entry i.number h)).memory } :=
      interrupt_state hconvention hirqs.1.vector hstack
    have hkept : ∀ a, Stack a → AtOrAbove (h.reg .rsp) a →
        (e.dispatch (called e i.entry i.number h)).memory a.toNat = h.memory a.toNat := fun a ha habove =>
      interrupt_memory hconvention hirqs.1.vector ha habove
    generalize (e.dispatch (called e i.entry i.number h)).memory = m1 at hstate hkept
    obtain ⟨m, hserve, hmem⟩ := ih (h := { h with memory := m1 }) hirqs.2 hstack
    refine ⟨m, ?_, ?_⟩
    · rw [← hserve, ← hstate, ← he]
      rfl
    · intro a ha habove
      rw [hmem a ha habove]
      exact hkept a ha habove

theorem serve_survived (env : Environment) (irqs : List Irq) (hirqs : ∀ i ∈ irqs, Legal Stack i)
    (hstack : ∀ a, 0 < (h.reg .rsp - a).toNat → (h.reg .rsp - a).toNat ≤ 256 → Stack a) :
    StackKept Stack h (serve env irqs h) ∧ Survived h (serve env irqs h) := by
  obtain ⟨m, hserve, hmem⟩ := serve_state env irqs hirqs hstack
  rw [hserve]
  exact ⟨⟨rfl, hmem⟩, ⟨fun _ _ => rfl, rfl⟩⟩

/-- `timer_check_registers` is a sound and complete check, and the interrupt path of the kernel
    passes it. -/
theorem timer_check_decides (Stack : BitVec 64 → Prop) (env : Environment) (c : Cpu) (halign : (c.reg .rsp).toNat % 8 = 0)
    (hstack : ∀ a, (a - (c.reg .rsp - 304#64)).toNat < 312 → Stack a) :
    (∀ wait, StackKept Stack (halted env c) (wait (halted env c)) →
      Returned Stack c (timerCheckRegisters env wait c) ∧
      (Survived (halted env c) (wait (halted env c)) → (timerCheckRegisters env wait c).reg .rax = 1#64) ∧
      (¬ Survived (halted env c) (wait (halted env c)) → (timerCheckRegisters env wait c).reg .rax = 0#64)) ∧
    ∀ irqs, (∀ i ∈ irqs, Legal Stack i) →
      Returned Stack c (timerCheckRegisters env (serve env irqs) c) ∧
      (timerCheckRegisters env (serve env irqs) c).reg .rax = 1#64 := by
  constructor
  · intro wait hw
    obtain ⟨hreturned, verdict, hrax, hiff⟩ := check_returns hstack halign hw
    refine ⟨hreturned, fun hsurvived => ?_, fun hno => ?_⟩
    · rw [hrax, hiff.mpr hsurvived, if_pos rfl]
    · rw [hrax, if_neg fun hverdict => hno (hiff.mp hverdict)]
  · intro irqs hirqs
    have hh := halted_state env c
    have hfree : ∀ a, 0 < ((halted env c).reg .rsp - a).toNat → ((halted env c).reg .rsp - a).toNat ≤ 256 → Stack a := by
      intro a hpos hle
      have hlt := (c.reg .rsp).isLt
      have halt := a.isLt
      rw [hh.rsp] at hpos hle
      apply hstack
      simp only [BitVec.toNat_sub, BitVec.toNat_ofNat] at hpos hle ⊢
      omega
    obtain ⟨hkept, hsurvived⟩ := serve_survived env irqs hirqs hfree
    obtain ⟨hreturned, verdict, hrax, hiff⟩ := check_returns hstack halign hkept
    refine ⟨hreturned, ?_⟩
    rw [hrax, hiff.mpr hsurvived, if_pos rfl]

def checkedEnvironment : Environment := ⟨id, fun _ => 0#64, 0x101000#64⟩

def checkedCpu : Cpu := ⟨fun _ => 0x200008#64, 0x100123#64, 8#16, 16#16, 0x2#64, fun _ => 1⟩

theorem sampleIrq_legal (entry : BitVec 64) {number : ℕ} (hnumber : 32 ≤ number ∧ number < 48) :
    Legal (fun _ => True) ⟨entry, number, scribble⟩ := ⟨hnumber, scribble_systemV⟩

/-- A timer interrupt and a serial one. -/
theorem sample_check_passes :
    (timerCheckRegisters checkedEnvironment (serve checkedEnvironment
      [⟨0x100400#64, 32, scribble⟩, ⟨0x100440#64, 36, scribble⟩]) checkedCpu).reg .rax = 1#64 := by
  have halign : (checkedCpu.reg .rsp).toNat % 8 = 0 := by decide
  refine ((timer_check_decides (fun _ => True) checkedEnvironment checkedCpu halign fun _ _ => trivial).2 _ ?_).2
  rw [List.forall_mem_cons, List.forall_mem_cons]
  exact ⟨sampleIrq_legal _ (by decide), sampleIrq_legal _ (by decide), by simp⟩

end Interrupts

end OsByAi.TimerCheck
