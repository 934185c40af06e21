import OsByAi.InterruptEntry

set_option autoImplicit false

namespace OsByAi.DescriptorTables
open ByteMemory WordStack InterruptEntry
open Word64 (Canonical)

/-! ## tables.c -/

/-- Addresses that the linker chooses. -/
structure Symbols where
  kernelGdt : ℕ
  kernelIdt : ℕ
  kernelTss : ℕ
  doubleFaultStack : ℕ
  isrTable : ℕ → ℕ
  gdt_canonical : Canonical kernelGdt
  idt_canonical : Canonical kernelIdt
  tss_canonical : Canonical kernelTss
  stack_canonical : ∀ i, i ≤ 16384 → Canonical (doubleFaultStack + i)
  isr_canonical : ∀ i, Canonical (isrTable i)

structure IdtGate where
  offsetLow : ℕ
  selector : ℕ
  ist : ℕ
  attributes : ℕ
  offsetMid : ℕ
  offsetHigh : ℕ
  reserved : ℕ

structure Tss where
  rsp : ℕ → ℕ
  ist : ℕ → ℕ
  iomapBase : ℕ

structure Tables where
  gdt : ℕ → ℕ
  idt : ℕ → IdtGate
  tss : Tss

structure TablePointer where
  limit : ℕ
  base : ℕ

def sizeofTss : ℕ := 104

def gateFor (y : Symbols) (i : ℕ) : IdtGate where
  offsetLow := y.isrTable i % 2 ^ 16
  selector := 0x08
  ist := if i = 8 then 1 else 0
  attributes := 0x8e
  offsetMid := y.isrTable i >>> 16 % 2 ^ 16
  offsetHigh := y.isrTable i >>> 32 % 2 ^ 32
  reserved := 0

/-- The low half of the TSS descriptor. -/
def tssDescriptor (base : ℕ) : ℕ :=
  (sizeofTss - 1) ||| (base &&& 0xffffff) <<< 16 ||| 0x89 <<< 40 ||| (base >>> 24 &&& 0xff) <<< 56

def fillGates (y : Symbols) (n : ℕ) (t : Tables) : Tables :=
  (List.range n).foldl (fun t i => { t with idt := Function.update t.idt i (gateFor y i) }) t

/-- `tables_init` up to its call of `tables_load`. -/
def tablesInit (y : Symbols) (stackTop : ℕ) (t : Tables) : Tables :=
  let t := { t with gdt := Function.update (Function.update (Function.update t.gdt 0 0) 1 0x00af9a000000ffff) 2 0x00cf92000000ffff }
  let t := { t with tss := ⟨Function.update t.tss.rsp 0 stackTop,
    Function.update t.tss.ist 0 (y.doubleFaultStack + 16384), sizeofTss⟩ }
  let t := { t with gdt := Function.update (Function.update t.gdt 3 (tssDescriptor y.kernelTss)) 4 (y.kernelTss >>> 32) }
  fillGates y 256 t

def gdtr (y : Symbols) : TablePointer := ⟨5 * 8 - 1, y.kernelGdt⟩

def idtr (y : Symbols) : TablePointer := ⟨256 * 16 - 1, y.kernelIdt⟩

structure Processor where
  interruptFlag : Bool
  gdtr : TablePointer
  idtr : TablePointer
  cs : ℕ
  ds : ℕ
  es : ℕ
  ss : ℕ
  fs : ℕ
  gs : ℕ
  tr : ℕ
  trBase : ℕ
  trLimit : ℕ

/-- `n` bits of a descriptor from bit `i` on. -/
def field (d i n : ℕ) : ℕ := d / 2 ^ i % 2 ^ n

/-- The word of the GDT that a selector of privilege level 0 names. -/
def segment (y : Symbols) (t : Tables) (p : TablePointer) (selector : ℕ) : Option ℕ :=
  if p.base = y.kernelGdt ∧ selector ≠ 0 ∧ selector % 8 = 0 ∧ selector + 7 ≤ p.limit then some (t.gdt (selector / 8))
  else none

def codeSegment (d : ℕ) : Bool :=
  field d 43 2 == 3 && field d 45 2 == 0 && field d 47 1 == 1 && field d 53 2 == 1

def dataSegment (d : ℕ) : Bool :=
  field d 41 1 == 1 && field d 43 2 == 2 && field d 45 2 == 0 && field d 47 1 == 1

def freeTss (d : ℕ) : Bool := field d 40 5 == 9 && field d 47 1 == 1

def tssBase (low high : ℕ) : ℕ := field low 16 24 + 2 ^ 24 * field low 56 8 + 2 ^ 32 * field high 0 32

def tssLimit (low : ℕ) : ℕ := field low 0 16 + 2 ^ 16 * field low 48 4

/-- The instructions of `tables_load`; `none` is a fault. `lgdt`, `ltr` and `lidt` want a canonical base. -/
def tablesLoad (y : Symbols) (gdtr idtr : TablePointer) (t : Tables) (p : Processor) : Option (Tables × Processor) :=
  if ¬ Canonical gdtr.base then none else
  let p := { p with interruptFlag := false, gdtr := gdtr }
  match segment y t p.gdtr 0x08 with
  | none => none
  | some code =>
    if !codeSegment code then none else
    let p := { p with cs := 0x08 }
    match segment y t p.gdtr 0x10 with
    | none => none
    | some data =>
      if !dataSegment data then none else
      let p := { p with ds := 0x10, es := 0x10, ss := 0x10, fs := 0, gs := 0 }
      match segment y t p.gdtr 0x18, segment y t p.gdtr 0x20 with
      | some low, some high =>
        if !freeTss low then none else
        if ¬ Canonical (tssBase low high) then none else
        let t := { t with gdt := Function.update t.gdt 3 (low ||| 2 ^ 41) }
        let p := { p with tr := 0x18, trBase := tssBase low high, trLimit := tssLimit low }
        if ¬ Canonical idtr.base then none else
        some (t, { p with idtr := idtr })
      | _, _ => none

/-- A gate in memory, least significant byte first. -/
def IdtGate.low (g : IdtGate) : ℕ :=
  g.offsetLow + 2 ^ 16 * g.selector + 2 ^ 32 * g.ist + 2 ^ 40 * g.attributes + 2 ^ 48 * g.offsetMid

def IdtGate.high (g : IdtGate) : ℕ := g.offsetHigh + 2 ^ 32 * g.reserved

def gateOffset (low high : ℕ) : ℕ := field low 0 16 + 2 ^ 16 * field low 48 16 + 2 ^ 32 * field high 0 32

def interruptGate (low : ℕ) : Bool := field low 40 5 == 14 && field low 47 1 == 1

def gateIn (y : Symbols) (t : Tables) (p : Processor) (vector : ℕ) : Option IdtGate :=
  if p.idtr.base = y.kernelIdt ∧ 16 * vector + 15 ≤ p.idtr.limit then some (t.idt vector) else none

/-- A frame with its alignment takes less than 64 bytes. -/
def roomForFrame (stack : ℕ) : Prop := Canonical stack ∧ Canonical (stack - 64)

instance (stack : ℕ) : Decidable (roomForFrame stack) := inferInstanceAs (Decidable (_ ∧ _))

def stackFor (y : Symbols) (t : Tables) (p : Processor) (ist : ℕ) (c : Cpu) : Option (BitVec 64) :=
  if ist = 0 then some (c.reg .rsp)
  else if p.trBase = y.kernelTss ∧ 36 + 8 * (ist - 1) + 7 ≤ p.trLimit ∧ roomForFrame (t.tss.ist (ist - 1)) then
    some (BitVec.ofNat 64 (t.tss.ist (ist - 1)))
  else none

def vectoredOn (stack : BitVec 64) (selector entry : ℕ) (c : Cpu) : Cpu :=
  { c.set .rsp (stack &&& ~~~15#64) with
    rflags := c.rflags &&& ~~~gateBits
    cs := BitVec.ofNat 16 selector
    rip := BitVec.ofNat 64 entry }

/-- The exceptions that come with an error code: a double fault, the faults of segments (invalid TSS,
    segment not present, stack, general protection) and of pages, the alignment check, and the control
    protection, VMM communication and security exceptions. -/
def pushesErrorCode : ℕ → Bool
  | 8 | 10 | 11 | 12 | 13 | 14 | 17 | 21 | 29 | 30 => true
  | _ => false

/-- The stubs make up for the missing ones, and for no other. -/
theorem mem_errorCodes (vector : ℕ) : vector ∈ errorCodes ↔ pushesErrorCode vector = true := by
  unfold errorCodes pushesErrorCode
  constructor
  · intro h
    fin_cases h <;> rfl
  · split <;> simp

/-- The words that the processor pushes; `code` is the error code. -/
def hardwareWords (vector : ℕ) (code : BitVec 64) (c : Cpu) : List (BitVec 64) :=
  [c.ss.zeroExtend 64, c.reg .rsp, c.rflags, c.cs.zeroExtend 64, c.rip] ++ if pushesErrorCode vector then [code] else []

/-- An interrupt or exception in the kernel, with the tables as they are; `none` is a further fault. The
    stack in use is taken to be writable. -/
def deliver (y : Symbols) (t : Tables) (p : Processor) (vector : ℕ) (code : BitVec 64) (c : Cpu) : Option Cpu :=
  match gateIn y t p vector with
  | none => none
  | some g =>
    if !interruptGate g.low then none else
    match segment y t p.gdtr (field g.low 16 16), stackFor y t p (field g.low 32 3) c with
    | some d, some stack =>
      if !codeSegment d then none else
      if ¬ Canonical (gateOffset g.low g.high) then none else
      some (pushed (hardwareWords vector code c)
        (vectoredOn stack (field g.low 16 16) (gateOffset g.low g.high) c))
    | _, _ => none

theorem pushed_eq_enter (c : Cpu) (entry : ℕ) :
    pushed [c.ss.zeroExtend 64, c.reg .rsp, c.rflags, c.cs.zeroExtend 64, c.rip]
      (vectoredOn (c.reg .rsp) 8 entry c) = enter (BitVec.ofNat 64 entry) c := enter_eq.symm

section ReadBack

variable {y : Symbols} {stackTop vector : ℕ} {t : Tables} {p : Processor}

theorem tssDescriptor_eq (base : ℕ) : tssDescriptor base =
    103 + 2 ^ 16 * (base % 2 ^ 24) + 2 ^ 40 * 0x89 + 2 ^ 56 * (base / 2 ^ 24 % 2 ^ 8) := by
  have hlow : (103 : ℕ) ||| 2 ^ 16 * (base % 2 ^ 24) = 2 ^ 16 * (base % 2 ^ 24) + 103 := by
    rw [Nat.or_comm, Word64.or_disjoint (by decide)]
  have hmid : (2 ^ 16 * (base % 2 ^ 24) + 103) ||| 2 ^ 40 * 0x89 = 2 ^ 40 * 0x89 + (2 ^ 16 * (base % 2 ^ 24) + 103) := by
    rw [Nat.or_comm, Word64.or_disjoint (by omega)]
  have hhigh : (2 ^ 40 * 0x89 + (2 ^ 16 * (base % 2 ^ 24) + 103)) ||| 2 ^ 56 * (base / 2 ^ 24 % 2 ^ 8) =
      2 ^ 56 * (base / 2 ^ 24 % 2 ^ 8) + (2 ^ 40 * 0x89 + (2 ^ 16 * (base % 2 ^ 24) + 103)) := by
    rw [Nat.or_comm, Word64.or_disjoint (by omega)]
  unfold tssDescriptor sizeofTss
  rw [show (0xffffff : ℕ) = 2 ^ 24 - 1 from rfl, show (0xff : ℕ) = 2 ^ 8 - 1 from rfl, Word64.and_low, Word64.and_low,
    Nat.shiftLeft_eq, Nat.shiftLeft_eq, Nat.shiftLeft_eq, Nat.shiftRight_eq_div_pow, Nat.mul_comm _ (2 ^ 16),
    Nat.mul_comm _ (2 ^ 40), Nat.mul_comm _ (2 ^ 56), hlow, hmid, hhigh]
  omega

theorem tss_readBack (y : Symbols) :
    freeTss (tssDescriptor y.kernelTss) = true ∧
      tssBase (tssDescriptor y.kernelTss) (y.kernelTss >>> 32) = y.kernelTss ∧
      tssLimit (tssDescriptor y.kernelTss) = 103 := by
  have hlt := y.tss_canonical.lt
  rw [tssDescriptor_eq, Nat.shiftRight_eq_div_pow]
  unfold Word64.size at hlt
  refine ⟨?_, ?_, ?_⟩
  · simp only [freeTss, field, Bool.and_eq_true, beq_iff_eq]
    omega
  · simp only [tssBase, field]
    omega
  · simp only [tssLimit, field]
    omega

theorem gate_readBack (y : Symbols) (i : ℕ) :
    interruptGate (gateFor y i).low = true ∧ field (gateFor y i).low 16 16 = 8 ∧
      field (gateFor y i).low 32 3 = (if i = 8 then 1 else 0) ∧
      gateOffset (gateFor y i).low (gateFor y i).high = y.isrTable i := by
  have hlt := (y.isr_canonical i).lt
  have hist : (if i = 8 then 1 else 0 : ℕ) ≤ 1 := by split <;> omega
  unfold Word64.size at hlt
  have hlow : y.isrTable i % 2 ^ 16 < 2 ^ 16 := Nat.mod_lt _ (by decide)
  have hmid : y.isrTable i >>> 16 % 2 ^ 16 < 2 ^ 16 := Nat.mod_lt _ (by decide)
  have hhigh : y.isrTable i >>> 32 % 2 ^ 32 < 2 ^ 32 := Nat.mod_lt _ (by decide)
  have hsum : y.isrTable i % 2 ^ 16 + 2 ^ 16 * (y.isrTable i >>> 16 % 2 ^ 16) + 2 ^ 32 * (y.isrTable i >>> 32 % 2 ^ 32) =
      y.isrTable i := by
    simp only [Nat.shiftRight_eq_div_pow]
    omega
  unfold interruptGate gateOffset IdtGate.low IdtGate.high gateFor field
  simp only [Bool.and_eq_true, beq_iff_eq]
  generalize (if i = 8 then 1 else 0 : ℕ) = ist at hist ⊢
  generalize y.isrTable i % 2 ^ 16 = low at hlow hsum ⊢
  generalize y.isrTable i >>> 16 % 2 ^ 16 = mid at hmid hsum ⊢
  generalize y.isrTable i >>> 32 % 2 ^ 32 = high at hhigh hsum ⊢
  have hbyte : (low + 2 ^ 16 * 0x08 + 2 ^ 32 * ist + 2 ^ 40 * 0x8e + 2 ^ 48 * mid) / 2 ^ 40 = 0x8e + 2 ^ 8 * mid := by
    omega
  have htop : (low + 2 ^ 16 * 0x08 + 2 ^ 32 * ist + 2 ^ 40 * 0x8e + 2 ^ 48 * mid) / 2 ^ 48 = mid := by
    omega
  refine ⟨⟨?_, ?_⟩, ?_, ?_, ?_⟩
  · rw [hbyte]
    omega
  · omega
  · omega
  · omega
  · rw [htop]
    omega

theorem fillGates_idt (y : Symbols) (n : ℕ) (t : Tables) (i : ℕ) :
    (fillGates y n t).idt i = (if i < n then gateFor y i else t.idt i) ∧ (fillGates y n t).gdt = t.gdt ∧
      (fillGates y n t).tss = t.tss := by
  induction n with
  | zero => exact ⟨rfl, rfl, rfl⟩
  | succ n ih =>
    obtain ⟨hidt, hgdt, htss⟩ := ih
    have hstep : fillGates y (n + 1) t =
        { fillGates y n t with idt := Function.update (fillGates y n t).idt n (gateFor y n) } := by
      rw [fillGates, List.range_succ, List.foldl_append]
      rfl
    rw [hstep]
    refine ⟨?_, hgdt, htss⟩
    by_cases hi : i = n
    · rw [hi]
      simp
    · have hiff : i < n + 1 ↔ i < n := by omega
      simp only [Function.update_of_ne hi, hidt, hiff]

theorem tablesInit_fields (y : Symbols) (stackTop : ℕ) (t : Tables) :
    (∀ i, i < 256 → (tablesInit y stackTop t).idt i = gateFor y i) ∧
      (tablesInit y stackTop t).gdt 1 = 0x00af9a000000ffff ∧ (tablesInit y stackTop t).gdt 2 = 0x00cf92000000ffff ∧
      (tablesInit y stackTop t).gdt 3 = tssDescriptor y.kernelTss ∧
      (tablesInit y stackTop t).gdt 4 = y.kernelTss >>> 32 ∧
      (tablesInit y stackTop t).tss.ist 0 = y.doubleFaultStack + 16384 ∧
      (tablesInit y stackTop t).tss.rsp 0 = stackTop := by
  unfold tablesInit
  simp only
  refine ⟨fun i hi => ?_, ?_, ?_, ?_, ?_, ?_, ?_⟩
  · rw [(fillGates_idt y 256 _ i).1, if_pos hi]
  all_goals
    first
      | rw [(fillGates_idt y 256 _ 0).2.1]
      | rw [(fillGates_idt y 256 _ 0).2.2]
    rfl

structure Loaded (y : Symbols) (p : Processor) : Prop where
  interruptFlag : p.interruptFlag = false
  gdtr : p.gdtr = DescriptorTables.gdtr y
  idtr : p.idtr = DescriptorTables.idtr y
  segments : p.cs = 0x08 ∧ p.ds = 0x10 ∧ p.es = 0x10 ∧ p.ss = 0x10 ∧ p.fs = 0 ∧ p.gs = 0
  trBase : p.trBase = y.kernelTss
  trLimit : p.trLimit = 103

theorem segment_gdtr (y : Symbols) (t : Tables) {selector : ℕ} (hne : selector ≠ 0) (hal : selector % 8 = 0)
    (hle : selector ≤ 32) : segment y t (gdtr y) selector = some (t.gdt (selector / 8)) :=
  if_pos ⟨rfl, hne, hal, by simp only [gdtr]; omega⟩

theorem tablesLoad_loaded (y : Symbols) (stackTop : ℕ) (t : Tables) (p : Processor) :
    ∃ p', tablesLoad y (gdtr y) (idtr y) (tablesInit y stackTop t) p =
        some ({ tablesInit y stackTop t with
          gdt := Function.update (tablesInit y stackTop t).gdt 3 (tssDescriptor y.kernelTss ||| 2 ^ 41) }, p') ∧
      Loaded y p' := by
  obtain ⟨-, hcode, hdata, hlow, hhigh, -⟩ := tablesInit_fields y stackTop t
  obtain ⟨hfree, hbase, hlimit⟩ := tss_readBack y
  have hcodeOk : codeSegment 0x00af9a000000ffff = true := by decide
  have hdataOk : dataSegment 0x00cf92000000ffff = true := by decide
  have hgdt : Canonical (gdtr y).base := y.gdt_canonical
  have hidt : Canonical (idtr y).base := y.idt_canonical
  have htss : Canonical (tssBase (tssDescriptor y.kernelTss) (y.kernelTss >>> 32)) := by
    rw [hbase]
    exact y.tss_canonical
  generalize tablesInit y stackTop t = u at hcode hdata hlow hhigh ⊢
  have h1 : segment y u (gdtr y) 0x08 = some 0x00af9a000000ffff := by
    rw [segment_gdtr y u (by decide) (by decide) (by decide), ← hcode]
  have h2 : segment y u (gdtr y) 0x10 = some 0x00cf92000000ffff := by
    rw [segment_gdtr y u (by decide) (by decide) (by decide), ← hdata]
  have h3 : segment y u (gdtr y) 0x18 = some (tssDescriptor y.kernelTss) := by
    rw [segment_gdtr y u (by decide) (by decide) (by decide), ← hlow]
  have h4 : segment y u (gdtr y) 0x20 = some (y.kernelTss >>> 32) := by
    rw [segment_gdtr y u (by decide) (by decide) (by decide), ← hhigh]
  refine ⟨⟨false, gdtr y, idtr y, 0x08, 0x10, 0x10, 0x10, 0, 0, 0x18,
    tssBase (tssDescriptor y.kernelTss) (y.kernelTss >>> 32), tssLimit (tssDescriptor y.kernelTss)⟩, ?_, ?_⟩
  · unfold tablesLoad
    simp only [h1, h2, h3, h4, hcodeOk, hdataOk, hfree, hgdt, hidt, htss, not_true_eq_false, Bool.not_true,
      Bool.false_eq_true, if_false]
  · exact ⟨rfl, rfl, rfl, ⟨rfl, rfl, rfl, rfl, rfl, rfl⟩, hbase, hlimit⟩

end ReadBack

section Delivery

variable {y : Symbols} {t : Tables} {p : Processor} {vector : ℕ}

def stackOf (y : Symbols) (vector : ℕ) (c : Cpu) : BitVec 64 :=
  if vector = 8 then BitVec.ofNat 64 (y.doubleFaultStack + 16384) else c.reg .rsp

def entered (y : Symbols) (vector : ℕ) (code : BitVec 64) (c : Cpu) : Cpu :=
  pushed (hardwareWords vector code c) (vectoredOn (stackOf y vector c) 8 (y.isrTable vector) c)

theorem deliver_entered (hp : Loaded y p) (hidt : ∀ i, i < 256 → t.idt i = gateFor y i)
    (hcode : t.gdt 1 = 0x00af9a000000ffff) (hist : t.tss.ist 0 = y.doubleFaultStack + 16384) (hv : vector < 256)
    (code : BitVec 64) (c : Cpu) : deliver y t p vector code c = some (entered y vector code c) := by
  obtain ⟨hgate, hselector, hstack, hoffset⟩ := gate_readBack y vector
  have hin : gateIn y t p vector = some (gateFor y vector) := by
    rw [gateIn, hp.idtr, if_pos ⟨rfl, by simp only [idtr]; omega⟩, hidt vector hv]
  have hsegment : segment y t p.gdtr 8 = some 0x00af9a000000ffff := by
    rw [hp.gdtr, segment_gdtr y t (by decide) (by decide) (by decide), ← hcode]
  have hcodeOk : codeSegment 0x00af9a000000ffff = true := by decide
  have hfor : stackFor y t p (if vector = 8 then 1 else 0) c = some (stackOf y vector c) := by
    by_cases h8 : vector = 8
    · have hroom : roomForFrame (y.doubleFaultStack + 16384) := ⟨y.stack_canonical 16384 le_rfl, by
        rw [show y.doubleFaultStack + 16384 - 64 = y.doubleFaultStack + 16320 by omega]
        exact y.stack_canonical 16320 (by decide)⟩
      rw [← hist] at hroom
      rw [if_pos h8, stackFor, if_neg (by decide), if_pos ⟨hp.trBase, by rw [hp.trLimit]; decide, hroom⟩, hist, stackOf, if_pos h8]
    · rw [if_neg h8, stackFor, if_pos rfl, stackOf, if_neg h8]
  generalize (0x00af9a000000ffff : ℕ) = d at hsegment hcodeOk
  rw [deliver, hin]
  generalize gateFor y vector = g at hgate hselector hstack hoffset ⊢
  simp only [hgate, Bool.not_true, Bool.false_eq_true, if_false]
  rw [hselector, hsegment, hstack, hfor]
  simp only [hcodeOk, Bool.not_true, Bool.false_eq_true, if_false]
  rw [hoffset, if_neg (not_not.mpr (y.isr_canonical vector)), entered]

structure Ready (y : Symbols) (stackTop : ℕ) (t : Tables) (p : Processor) : Prop where
  loaded : Loaded y p
  kernelStack : t.tss.rsp 0 = stackTop
  busy : t.gdt 3 = tssDescriptor y.kernelTss ||| 2 ^ 41
  delivers : ∀ vector, vector < 256 → ∀ code c, deliver y t p vector code c = some (entered y vector code c)

theorem tables_ready (y : Symbols) (stackTop : ℕ) (t : Tables) (p : Processor) :
    ∃ t' p', tablesLoad y (gdtr y) (idtr y) (tablesInit y stackTop t) p = some (t', p') ∧ Ready y stackTop t' p' := by
  obtain ⟨p', hload, hp⟩ := tablesLoad_loaded y stackTop t p
  obtain ⟨hidt, hcode, -, -, -, hist, hrsp⟩ := tablesInit_fields y stackTop t
  generalize tablesInit y stackTop t = u at hload hidt hcode hist hrsp ⊢
  generalize hloaded : ({ u with gdt := Function.update u.gdt 3 (tssDescriptor y.kernelTss ||| 2 ^ 41) } : Tables) = t' at hload
  have hgdt : t'.gdt = Function.update u.gdt 3 (tssDescriptor y.kernelTss ||| 2 ^ 41) := by rw [← hloaded]
  have hrest : t'.idt = u.idt ∧ t'.tss = u.tss := by
    rw [← hloaded]
    exact ⟨rfl, rfl⟩
  refine ⟨t', p', hload, hp, by rw [hrest.2, hrsp], by rw [hgdt, Function.update_self], fun vector hv code c => ?_⟩
  refine deliver_entered hp (by rw [hrest.1]; exact hidt) ?_ (by rw [hrest.2]; exact hist) hv code c
  rw [hgdt, Function.update_of_ne (by decide), hcode]

theorem entered_eq_enter (y : Symbols) {vector : ℕ} (hv : 32 ≤ vector ∧ vector < 48) (code : BitVec 64) (c : Cpu) :
    entered y vector code c = enter (BitVec.ofNat 64 (y.isrTable vector)) c := by
  have hno : vector ∉ errorCodes := by
    simp only [errorCodes, List.mem_cons, List.not_mem_nil, or_false, not_or]
    omega
  rw [mem_errorCodes] at hno
  rw [entered, hardwareWords, if_neg hno, stackOf, if_neg (by omega), List.append_nil, pushed_eq_enter]

/-- `tables_load` does not fault on what `tables_init` wrote, and from then on each of the 256 vectors
    leads to its own stub, a double fault on its own stack and an interrupt on the stack in use. -/
theorem tables_route_interrupts (y : Symbols) (stackTop : ℕ) (t : Tables) (p : Processor) :
    ∃ t' p', tablesLoad y (gdtr y) (idtr y) (tablesInit y stackTop t) p = some (t', p') ∧ Ready y stackTop t' p' ∧
      ∀ vector, 32 ≤ vector ∧ vector < 48 → ∀ code c,
        deliver y t' p' vector code c = some (enter (BitVec.ofNat 64 (y.isrTable vector)) c) := by
  obtain ⟨t', p', hload, hready⟩ := tables_ready y stackTop t p
  refine ⟨t', p', hload, hready, fun vector hv code c => ?_⟩
  rw [hready.delivers vector (by omega), entered_eq_enter y hv]

end Delivery

end OsByAi.DescriptorTables
