import OsByAi.DescriptorTables
import OsByAi.FixedDigits
import OsByAi.SerialTransmit

set_option autoImplicit false

namespace OsByAi.ExceptionReport
open ByteMemory WordStack InterruptEntry DescriptorTables SerialTransmit FixedDigits

/-- From `exception_common` to the first instruction of `exception_panic`. -/
def exceptionCommon (env : Environment) (cr2 : BitVec 64) (c : Cpu) : Cpu :=
  let c := run env [.cld] c
  let c := c.set .rsi cr2
  let c := run env [.mov .rsp .rdi, .alignRsp] c
  push env.returnAddress c

structure ExceptionFrame where
  vector : BitVec 64
  error : BitVec 64
  rip : BitVec 64
  cs : BitVec 64
  rflags : BitVec 64
  rsp : BitVec 64
  ss : BitVec 64

def frameAt (m : Memory) (a : BitVec 64) : ExceptionFrame :=
  ⟨loadWord m a, loadWord m (a + 8#64), loadWord m (a + 16#64), loadWord m (a + 24#64), loadWord m (a + 32#64),
    loadWord m (a + 40#64), loadWord m (a + 48#64)⟩

/-- What happened, as the hardware knows it. -/
def interrupted (vector : ℕ) (code : BitVec 64) (c : Cpu) : ExceptionFrame where
  vector := BitVec.ofNat 64 vector
  error := if pushesErrorCode vector then code else 0#64
  rip := c.rip
  cs := c.cs.zeroExtend 64
  rflags := c.rflags
  rsp := c.reg .rsp
  ss := c.ss.zeroExtend 64

section Frame

variable {env : Environment} {y : Symbols} {vector : ℕ} {code cr2 : BitVec 64} {c : Cpu}

/-- Everything on the stack when `exception_common` starts, from the top down. -/
def exceptionWords (vector : ℕ) (code : BitVec 64) (c : Cpu) : List (BitVec 64) :=
  [c.ss.zeroExtend 64, c.reg .rsp, c.rflags, c.cs.zeroExtend 64, c.rip, if pushesErrorCode vector then code else 0#64,
    BitVec.ofNat 64 vector]

theorem pushed_one (v : BitVec 64) (c : Cpu) : push v c = pushed [v] c := by
  rw [← pushed_cons, pushed_nil]

theorem run_isr (env : Environment) (y : Symbols) (vector : ℕ) (code : BitVec 64) (c : Cpu) :
    run env (isr vector) (entered y vector code c) =
      pushed (exceptionWords vector code c) (vectoredOn (stackOf y vector c) 8 (y.isrTable vector) c) := by
  unfold entered hardwareWords isr exceptionWords
  simp only [mem_errorCodes]
  by_cases h : pushesErrorCode vector = true
  · simp only [if_pos h, List.nil_append]
    change push (BitVec.ofNat 64 vector) _ = _
    rw [pushed_one, pushed_append]
    rfl
  · simp only [if_neg h, List.append_nil]
    change push (BitVec.ofNat 64 vector) (push 0#64 _) = _
    rw [pushed_one, pushed_one, pushed_append, pushed_append]
    rfl

def frameTop (y : Symbols) (vector : ℕ) (c : Cpu) : BitVec 64 := stackOf y vector c &&& ~~~15#64

theorem frameTop_aligned (y : Symbols) (vector : ℕ) (c : Cpu) : (frameTop y vector c).toNat % 16 = 0 := by
  rw [frameTop, toNat_align]
  omega

structure Called (y : Symbols) (vector : ℕ) (code cr2 : BitVec 64) (c d : Cpu) : Prop where
  frame : d.reg .rdi = frameTop y vector c - 56#64
  cr2 : d.reg .rsi = cr2
  rsp : d.reg .rsp = frameTop y vector c - 72#64
  direction : d.rflags &&& directionBit = 0#64
  memory : ∃ ra, d.memory = storeWord (pushAll c.memory (frameTop y vector c) (exceptionWords vector code c))
    (frameTop y vector c - 72#64) ra

theorem exceptionCommon_called (env : Environment) (y : Symbols) (vector : ℕ) (code cr2 : BitVec 64) (c : Cpu) :
    Called y vector code cr2 c (exceptionCommon env cr2 (run env (isr vector) (entered y vector code c))) := by
  rw [run_isr]
  have hstart : (vectoredOn (stackOf y vector c) 8 (y.isrTable vector) c).reg .rsp = frameTop y vector c :=
    c.set_self .rsp _
  have hsp : (pushed (exceptionWords vector code c) (vectoredOn (stackOf y vector c) 8 (y.isrTable vector) c)).reg .rsp =
      frameTop y vector c - 56#64 := by
    rw [pushed_rsp, hstart]
    rfl
  have hmemory : (pushed (exceptionWords vector code c)
      (vectoredOn (stackOf y vector c) 8 (y.isrTable vector) c)).memory =
      pushAll c.memory (frameTop y vector c) (exceptionWords vector code c) := by
    unfold pushed
    rw [hstart]
    rfl
  generalize pushed (exceptionWords vector code c) (vectoredOn (stackOf y vector c) 8 (y.isrTable vector) c) = s at hsp hmemory
  have halign : (frameTop y vector c - 56#64) &&& ~~~15#64 = frameTop y vector c - 64#64 := by
    have hal := frameTop_aligned y vector c
    have hlt := (frameTop y vector c).isLt
    apply BitVec.eq_of_toNat_eq
    rw [toNat_align, BitVec.toNat_sub, BitVec.toNat_sub]
    simp only [BitVec.toNat_ofNat]
    omega
  have hcall : frameTop y vector c - 64#64 - 8#64 = frameTop y vector c - 72#64 := by
    have hlt := (frameTop y vector c).isLt
    apply BitVec.eq_of_toNat_eq
    simp only [BitVec.toNat_sub, BitVec.toNat_ofNat]
    omega
  rw [show (~~~15#64 : BitVec 64) = 18446744073709551600#64 by decide] at halign
  refine ⟨?_, ?_, ?_, clear_direction s.rflags _, ⟨env.returnAddress, ?_⟩⟩
  · simp [exceptionCommon, run, exec, push, Cpu.set, hsp]
  · simp [exceptionCommon, run, exec, push, Cpu.set]
  · simp [exceptionCommon, run, exec, push, Cpu.set, hsp, halign, hcall]
  · simp [exceptionCommon, run, exec, push, Cpu.set, hsp, halign, hcall, hmemory]

theorem Called.frameAt_eq {d : Cpu} (h : Called y vector code cr2 c d) :
    frameAt d.memory (d.reg .rdi) = interrupted vector code c := by
  obtain ⟨ra, hmemory⟩ := h.memory
  have hal := frameTop_aligned y vector c
  have hblt := (frameTop y vector c).isLt
  have hwords : (frameTop y vector c).toNat % 8 = 0 := by omega
  have word : ∀ i v, (exceptionWords vector code c)[i]? = some v →
      loadWord d.memory (frameTop y vector c - BitVec.ofNat 64 (8 * (i + 1))) = v := by
    intro i v hi
    have hlt : i < 7 := (List.getElem?_eq_some_iff.mp hi).1
    rw [← loadWord_pushAll (m := c.memory) hwords (by rw [show (exceptionWords vector code c).length = 7 from rfl]; omega) hi,
      hmemory]
    apply loadWord_congr
    · simp only [BitVec.toNat_sub, BitVec.toNat_ofNat]
      omega
    · intro x hx
      have hxlt := x.isLt
      simp only [BitVec.toNat_sub, BitVec.toNat_ofNat] at hx
      apply storeWord_of_outside
      · simp only [BitVec.toNat_sub, BitVec.toNat_ofNat]
        omega
      · simp only [BitVec.toNat_sub, BitVec.toNat_ofNat]
        omega
  have slot : ∀ i, i ≤ 6 → frameTop y vector c - 56#64 + BitVec.ofNat 64 (8 * i) =
      frameTop y vector c - BitVec.ofNat 64 (8 * (6 - i + 1)) := by
    intro i hi
    apply BitVec.eq_of_toNat_eq
    simp only [BitVec.toNat_sub, BitVec.toNat_add, BitVec.toNat_ofNat]
    omega
  have field : ∀ i v, i ≤ 6 → (exceptionWords vector code c)[6 - i]? = some v →
      loadWord d.memory (frameTop y vector c - 56#64 + BitVec.ofNat 64 (8 * i)) = v := by
    intro i v hi hv
    rw [slot i hi]
    exact word (6 - i) v hv
  have hzero : frameTop y vector c - 56#64 + BitVec.ofNat 64 (8 * 0) = frameTop y vector c - 56#64 := by simp
  have hvector := field 0 _ (by decide) rfl
  rw [hzero] at hvector
  rw [h.frame, frameAt, hvector, field 1 _ (by decide) rfl, field 2 _ (by decide) rfl, field 3 _ (by decide) rfl,
    field 4 _ (by decide) rfl, field 5 _ (by decide) rfl, field 6 _ (by decide) rfl]
  rfl

end Frame

def bytes (s : String) : List UInt8 := s.toList.map fun c => UInt8.ofNat c.toNat

def digits : List UInt8 :=
  [48, 49, 50, 51, 52, 53, 54, 55, 56, 57, 97, 98, 99, 100, 101, 102]

def hexText (value : ℕ) : List UInt8 :=
  bytes "0x" ++ ((List.range 16).map fun i => digits.getD (value >>> (60 - i * 4) &&& 15) 0) ++ [10]

def printHex (label : String) (value : BitVec 64) : List Op := [.write (bytes label), .write (hexText value.toNat)]

/-- The calls of `exception_panic`, which looks at none of the answers. -/
def exceptionPanic (f : ExceptionFrame) (cr2 : BitVec 64) : List Op :=
  [.write (bytes "\nEXCEPTION: fatal\n")] ++ printHex "vector=" f.vector ++ printHex "error=" f.error ++
    printHex "rip=" f.rip ++ printHex "cs=" f.cs ++ printHex "rflags=" f.rflags ++ printHex "rsp=" f.rsp ++
    (if f.vector = 14#64 then printHex "cr2=" cr2 else []) ++ [.flush]

structure Report where
  vector : ℕ
  error : ℕ
  rip : ℕ
  cs : ℕ
  rflags : ℕ
  rsp : ℕ
  cr2 : Option ℕ
deriving DecidableEq

def strip (label text : List UInt8) : Option (List UInt8) :=
  if label.isPrefixOf text then some (text.drop label.length) else none

def digitValue (c : UInt8) : Option ℕ := digits.findIdx? (· == c)

def readHex (text : List UInt8) : Option (ℕ × List UInt8) :=
  (readDigits digitValue 16 text).map fun r => (valueOf 16 r.1, r.2)

def readField (label : String) (text : List UInt8) : Option (ℕ × List UInt8) := do
  let text ← strip (bytes label) text
  let text ← strip (bytes "0x") text
  let (value, text) ← readHex text
  let text ← strip [10] text
  some (value, text)

def readReport (text : List UInt8) : Option Report := do
  let text ← strip (bytes "\nEXCEPTION: fatal\n") text
  let (vector, text) ← readField "vector=" text
  let (error, text) ← readField "error=" text
  let (rip, text) ← readField "rip=" text
  let (cs, text) ← readField "cs=" text
  let (rflags, text) ← readField "rflags=" text
  let (rsp, text) ← readField "rsp=" text
  if vector = 14 then
    let (cr2, _) ← readField "cr2=" text
    some ⟨vector, error, rip, cs, rflags, rsp, some cr2⟩
  else some ⟨vector, error, rip, cs, rflags, rsp, none⟩

def reportOf (f : ExceptionFrame) (cr2 : BitVec 64) : Report where
  vector := f.vector.toNat
  error := f.error.toNat
  rip := f.rip.toNat
  cs := f.cs.toNat
  rflags := f.rflags.toNat
  rsp := f.rsp.toNat
  cr2 := if f.vector = 14#64 then some cr2.toNat else none

section Reading

theorem strip_append (label text : List UInt8) : strip label (label ++ text) = some text := by
  rw [strip, if_pos (List.isPrefixOf_iff_prefix.mpr (List.prefix_append _ _)), List.drop_left]

theorem hexText_eq (value : ℕ) :
    hexText value = bytes "0x" ++ ((digitsOf 16 16 value).map fun d => digits.getD d 0) ++ [10] := by
  rw [show (16 : ℕ) = 2 ^ 4 from rfl, digitsOf_shift, List.map_map, hexText]
  congr 2

theorem digitValue_digits : ∀ d, d < 16 → digitValue (digits.getD d 0) = some d := by decide

theorem readField_printHex (label : String) (value : BitVec 64) (rest : List UInt8) :
    readField label (bytes label ++ (hexText value.toNat ++ rest)) = some (value.toNat, rest) := by
  have hvalue : value.toNat % 16 ^ 16 = value.toNat := Nat.mod_eq_of_lt value.isLt
  have hread := readDigits_digitsOf (fun d => digits.getD d 0) digitValue (by decide) digitValue_digits 16 value.toNat
    ([10] ++ rest)
  rw [hvalue] at hread
  rw [hexText_eq, List.append_assoc, List.append_assoc]
  simp only [readField, readHex, Option.bind_eq_bind, strip_append, Option.bind_some, hread]

theorem texts_append (ops ops' : List Op) : texts (ops ++ ops') = texts ops ++ texts ops' := by
  induction ops with
  | nil => rfl
  | cons op ops ih =>
    cases op with
    | write text => rw [List.cons_append, texts, ih, texts, List.append_assoc]
    | flush => exact ih
    | enableReceive rflags irq => exact ih

theorem texts_printHex (label : String) (value : BitVec 64) :
    texts (printHex label value) = bytes label ++ hexText value.toNat := by
  rw [printHex, texts, texts, texts, List.append_nil]

theorem readReport_panic (f : ExceptionFrame) (cr2 : BitVec 64) :
    readReport (texts (exceptionPanic f cr2)) = some (reportOf f cr2) := by
  have hvector : f.vector = 14#64 ↔ f.vector.toNat = 14 := by
    rw [← BitVec.toNat_inj]
    rfl
  have hhead : texts [.write (bytes "\nEXCEPTION: fatal\n")] = bytes "\nEXCEPTION: fatal\n" := List.append_nil _
  unfold exceptionPanic
  simp only [texts_append, texts_printHex, hhead, List.append_assoc]
  unfold readReport
  rw [strip_append]
  simp only [Option.bind_eq_bind, Option.bind_some, readField_printHex]
  unfold reportOf
  by_cases h : f.vector = 14#64
  · rw [if_pos (hvector.mp h), if_pos h, if_pos h, texts_printHex, List.append_assoc]
    simp only [readField_printHex, Option.bind_some]
  · rw [if_neg (fun hv => h (hvector.mpr hv)), if_neg h]

end Reading

section Whole

inductive Continuation where
  | irqCommon
  | exceptionCommon
deriving DecidableEq

def isrJump (number : ℕ) : Continuation := if number ≥ 32 ∧ number < 48 then .irqCommon else .exceptionCommon

/-- The stub and what it jumps to, up to the call of `exception_panic`. -/
def fault (env : Environment) (cr2 : BitVec 64) (vector : ℕ) (c : Cpu) : Option Cpu :=
  match isrJump vector with
  | .irqCommon => none
  | .exceptionCommon => some (exceptionCommon env cr2 (run env (isr vector) c))

/-- How a fatal exception of the state `c` ends: the call of `exception_panic` in state `d` and what the
    line then carries, unless the device refused a byte. -/
structure Reported (y : Symbols) (vector : ℕ) (code cr2 : BitVec 64) (c d : Cpu) (line : Line) (port : Port) : Prop where
  frame : frameAt d.memory (d.reg .rdi) = interrupted vector code c
  address : d.reg .rsi = cr2
  aligned : (d.reg .rsp).toNat % 16 = 8
  direction : d.rflags &&& directionBit = 0#64
  ownStack : vector = 8 → y.doubleFaultStack + 16000 < (d.reg .rsp).toNat ∧
    (d.reg .rsp).toNat < y.doubleFaultStack + 16384
  read : (∀ answer ∈ (session line (exceptionPanic (frameAt d.memory (d.reg .rdi)) (d.reg .rsi)) port).1, answer = true) →
    readReport (collapse ((session line (exceptionPanic (frameAt d.memory (d.reg .rdi)) (d.reg .rsi)) port).2.uart.sent.drop
      port.uart.sent.length)) = some (reportOf (interrupted vector code c) cr2)

theorem panic_plain (f : ExceptionFrame) (cr2 : BitVec 64) (rflags : ℕ) (irq : Bool) :
    Op.enableReceive rflags irq ∉ exceptionPanic f cr2 := by
  unfold exceptionPanic printHex
  split <;> simp

theorem Called.reported {y : Symbols} {vector : ℕ} {code cr2 : BitVec 64} {c d : Cpu} (h : Called y vector code cr2 c d)
    (line : Line) {port : Port} (hport : port.uart.Open) : Reported y vector code cr2 c d line port := by
  have hframe := h.frameAt_eq
  have hal := frameTop_aligned y vector c
  have hlt := (frameTop y vector c).isLt
  refine ⟨hframe, h.cr2, ?_, h.direction, ?_, ?_⟩
  · rw [h.rsp, BitVec.toNat_sub]
    simp only [BitVec.toNat_ofNat]
    omega
  · intro h8
    have hstack := (y.stack_canonical 16384 le_rfl).lt
    unfold Word64.size at hstack
    have htop : (frameTop y vector c).toNat = (y.doubleFaultStack + 16384) / 16 * 16 := by
      rw [frameTop, toNat_align, stackOf, if_pos h8, BitVec.toNat_ofNat, Nat.mod_eq_of_lt (by omega)]
    rw [h.rsp, BitVec.toNat_sub, htop]
    simp only [BitVec.toNat_ofNat]
    omega
  · intro hall
    rw [hframe, h.cr2] at hall ⊢
    obtain ⟨bytes, hemits, hsends⟩ := session_emits hport (by simp) _
      (inOrder_plain line false _ port (panic_plain (interrupted vector code c) cr2))
    rw [hsends.sent, List.drop_left, hemits.complete hall, collapse_expand, readReport_panic]

/-- A device that keeps moving refuses nothing, so the state is read back. -/
theorem Reported.told {y : Symbols} {vector : ℕ} {code cr2 : BitVec 64} {c d : Cpu} {pace : ℕ → ℕ × UInt8} {port : Port}
    (h : Reported y vector code cr2 c d (quiet pace) port) (hpace : Keen pace) :
    readReport (collapse ((session (quiet pace) (exceptionPanic (frameAt d.memory (d.reg .rdi)) (d.reg .rsi))
      port).2.uart.sent.drop port.uart.sent.length)) = some (reportOf (interrupted vector code c) cr2) :=
  h.read (session_keen hpace _ (panic_plain _ _) port)

/-- Every exception of the kernel, whatever it does, is delivered through the tables of `tables_init` to a
    report from which its state can be read back. -/
theorem exception_reported (y : Symbols) (stackTop : ℕ) (t : Tables) (p : Processor) (env : Environment)
    (vector : ℕ) (code cr2 : BitVec 64) (c : Cpu) (line : Line) (port : Port) (hv : vector < 256)
    (hirq : ¬ (32 ≤ vector ∧ vector < 48)) (hport : port.uart.Open) :
    ∃ t' p' e d, tablesLoad y (gdtr y) (idtr y) (tablesInit y stackTop t) p = some (t', p') ∧
      deliver y t' p' vector code c = some e ∧ fault env cr2 vector e = some d ∧
      Reported y vector code cr2 c d line port := by
  obtain ⟨t', p', hload, hready⟩ := tables_ready y stackTop t p
  have hjump : isrJump vector = .exceptionCommon := if_neg hirq
  refine ⟨t', p', _, exceptionCommon env cr2 (run env (isr vector) (entered y vector code c)), hload,
    hready.delivers vector hv code c, ?_, (exceptionCommon_called env y vector code cr2 c).reported line hport⟩
  rw [fault, hjump]

def sampleSymbols : Symbols where
  kernelGdt := 0x105000
  kernelIdt := 0x106000
  kernelTss := 0x107000
  doubleFaultStack := 0x109000
  isrTable i := 0x100000 + 16 * (i % 256)
  gdt_canonical := by decide
  idt_canonical := by decide
  tss_canonical := by decide
  stack_canonical i hi := .inl (by omega)
  isr_canonical i := .inl (by omega)

def sampleCpu : Cpu := ⟨fun _ => 0x21fff8#64, 0x100123#64, 8#16, 0x10#16, 0x202#64, fun _ => 0⟩

def blankTables : Tables := ⟨fun _ => 0, fun _ => ⟨0, 0, 0, 0, 0, 0, 0⟩, ⟨fun _ => 0, fun _ => 0, 0⟩⟩

def resetProcessor : Processor := ⟨true, ⟨0, 0⟩, ⟨0, 0⟩, 8, 0x10, 0x10, 0x10, 0, 0, 0, 0, 0⟩

def openPort : Port where
  serial := ⟨⟨fun _ => 0, 0, 0, false⟩, false, 0, 0, 0, []⟩
  uart := ⟨3, 3, 7, 0, 1, 0, none, none, [], false⟩
  accesses := 0
  reads := []

/-- A page fault at a null pointer, and what the reader learns of it. -/
theorem sample_reported : ∃ t' p' e d,
    tablesLoad sampleSymbols (gdtr sampleSymbols) (idtr sampleSymbols) (tablesInit sampleSymbols 0x220000 blankTables)
      resetProcessor = some (t', p') ∧
    deliver sampleSymbols t' p' 14 2#64 sampleCpu = some e ∧ fault ⟨id, fun _ => 0#64, 0#64⟩ 0#64 14 e = some d ∧
    Reported sampleSymbols 14 2#64 0#64 sampleCpu d (quiet fun _ => (1, 0)) openPort ∧
    readReport (collapse (session (quiet fun _ => (1, 0)) (exceptionPanic (frameAt d.memory (d.reg .rdi)) (d.reg .rsi))
      openPort).2.uart.sent) = some ⟨14, 2, 0x100123, 8, 0x202, 0x21fff8, some 0⟩ := by
  have hkeen : Keen fun _ => (1, 0) := ⟨fun _ => le_rfl, fun _ => by decide⟩
  have hreport : reportOf (interrupted 14 2#64 sampleCpu) 0#64 = ⟨14, 2, 0x100123, 8, 0x202, 0x21fff8, some 0⟩ := by decide
  have hnone : openPort.uart.sent.length = 0 := rfl
  obtain ⟨t', p', e, d, hload, hdeliver, hfault, hreported⟩ := exception_reported sampleSymbols 0x220000 blankTables
    resetProcessor ⟨id, fun _ => 0#64, 0#64⟩ 14 2#64 0#64 sampleCpu (quiet fun _ => (1, 0)) openPort (by decide) (by decide)
    ⟨by decide, by decide⟩
  have hread := hreported.told hkeen
  rw [hreport, hnone, List.drop_zero] at hread
  exact ⟨t', p', e, d, hload, hdeliver, hfault, hreported, hread⟩

end Whole

end OsByAi.ExceptionReport
