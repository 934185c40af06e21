import OsByAi.SerialModel

set_option autoImplicit false

/-!
# The interrupt controllers and their driver

Two 8259 in cascade as `irq.c` uses them: initialisation words, the interrupt mask, the
in-service register and the non-specific end of interrupt, which clears the bit of the
highest priority. Line 0 has the highest priority.
-/
namespace OsByAi.PicModel
open SerialModel

/-- `expected` is the number of the initialisation word that the data port waits for, 0 for none. -/
structure Pic where
  mask : UInt8
  service : UInt8
  request : UInt8
  readService : Bool
  expected : ℕ
  single : Bool
  wordFour : Bool
  base : UInt8

/-- The set bit of the highest priority is the lowest one. -/
def endOfInterrupt (service : UInt8) : UInt8 := service &&& (service - 1)

/-- A write to the command port: ICW1, OCW3 or OCW2. The first one resets the controller. -/
def Pic.command (p : Pic) (value : UInt8) : Pic :=
  if value &&& 0x10 != 0 then
    { p with
      mask := 0, service := 0, readService := false, expected := 2
      single := value &&& 2 != 0, wordFour := value &&& 1 != 0 }
  else if value &&& 0x08 != 0 then
    if value &&& 3 == 3 then { p with readService := true }
    else if value &&& 3 == 2 then { p with readService := false }
    else p
  else if value &&& 0xe0 == 0x20 then { p with service := endOfInterrupt p.service }
  else p

/-- A write to the data port: ICW2 to ICW4 while they are expected, then the mask. -/
def Pic.data (p : Pic) (value : UInt8) : Pic :=
  let last := if p.wordFour then 4 else 0
  if p.expected = 2 then { p with base := value, expected := if p.single then last else 3 }
  else if p.expected = 3 then { p with expected := last }
  else if p.expected = 4 then { p with expected := 0 }
  else { p with mask := value }

structure System where
  master : Pic
  slave : Pic
  initialized : Bool
  apicBase : ℕ
  unexpected : ℕ
  ticks : ℕ
  serial : Serial

def outb (port : ℕ) (value : UInt8) (s : System) : System :=
  if port = 0x20 then { s with master := s.master.command value }
  else if port = 0x21 then { s with master := s.master.data value }
  else if port = 0xa0 then { s with slave := s.slave.command value }
  else if port = 0xa1 then { s with slave := s.slave.data value }
  else s

def Pic.status (p : Pic) : UInt8 := if p.readService then p.service else p.request

def inb (port : ℕ) (s : System) : UInt8 :=
  if port = 0x20 then s.master.status
  else if port = 0x21 then s.master.mask
  else if port = 0xa0 then s.slave.status
  else if port = 0xa1 then s.slave.mask
  else 0

def picWrite (port : ℕ) (value : UInt8) (s : System) : System := outb 0x80 0 (outb port value s)

def initWrites : List (ℕ × UInt8) :=
  [(0x21, 0xff), (0xa1, 0xff), (0x20, 0x11), (0xa0, 0x11), (0x21, 0x20), (0xa1, 0x28), (0x21, 4), (0xa1, 2),
    (0x21, 1), (0xa1, 1), (0x21, 0xff), (0xa1, 0xff)]

/-- `features` is `edx` of `cpuid(1)`; bit 9 says that there is a local APIC, bit 10 of its base
    register that it is in x2APIC mode. -/
def irqInit (rflags features : ℕ) (s : System) : Bool × System :=
  if s.initialized || rflags &&& 0x200 != 0 then (false, s)
  else if features &&& 2 ^ 9 != 0 && s.apicBase &&& 2 ^ 10 != 0 then (false, s)
  else
    let s := if features &&& 2 ^ 9 != 0 then { s with apicBase := s.apicBase &&& (Word64.size - 1 - 2 ^ 11) } else s
    let s := initWrites.foldl (fun s w => picWrite w.1 w.2 s) s
    (true, { s with initialized := true })

/-- `1u << (irq & 7)` -/
def lineBit (irq : ℕ) : UInt8 := 1 <<< UInt8.ofNat (irq % 8)

def irqEnable (rflags irq : ℕ) (s : System) : Bool × System :=
  if !s.initialized || decide (irq ≥ 16) || rflags &&& 0x200 != 0 then (false, s)
  else
    let port := if irq < 8 then 0x21 else 0xa1
    let s := picWrite port (inb port s &&& ~~~lineBit irq) s
    (true, if irq ≥ 8 then picWrite 0x21 (inb 0x21 s &&& ~~~4) s else s)

def timerInterrupt (s : System) : System := { s with ticks := Word64.add s.ticks 1 }

/-- The body of `irq_dispatch` once the interrupt is known to be real. -/
def handle (regs : ℕ → Registers) (vector : ℕ) (s : System) : System :=
  let s :=
    if vector = 32 then timerInterrupt s
    else if vector = 36 then { s with serial := (serialInterrupt regs s.serial).1 }
    else
      let s := { s with unexpected := Word64.add s.unexpected 1 }
      let port := if vector < 40 then 0x21 else 0xa1
      outb port (inb port s ||| lineBit (vector - 32)) s
  let s := if vector ≥ 40 then outb 0xa0 0x20 s else s
  outb 0x20 0x20 s

/-- `regs` is what the serial handler would find. -/
def irqDispatch (regs : ℕ → Registers) (vector : ℕ) (s : System) : System :=
  if vector = 39 ∨ vector = 47 then
    let port := if vector = 39 then 0x20 else 0xa0
    let s := outb port 0x0b s
    if inb port s &&& 0x80 == 0 then
      if vector = 47 then outb 0x20 0x20 s else s
    else handle regs vector s
  else handle regs vector s

scoped instance lineCount : NeZero 16 := ⟨by decide⟩

/-- The lines that devices are on: line 2 is the cascade. -/
def Line : Type := { i : Fin 16 // i ≠ 2 }

inductive Delivery where
  | real (line : Line) (regs : ℕ → Registers)
  | spurious7 (regs : ℕ → Registers)
  | spurious15 (regs : ℕ → Registers)

/-- The controllers set their in-service bits when the processor acknowledges the interrupt. -/
def raise (s : System) : Delivery → System
  | .real line _ =>
    if line.val.val < 8 then { s with master := { s.master with service := s.master.service ||| lineBit line.val.val } }
    else { s with
      slave := { s.slave with service := s.slave.service ||| lineBit line.val.val }
      master := { s.master with service := s.master.service ||| lineBit 2 } }
  | .spurious7 _ => s
  | .spurious15 _ => { s with master := { s.master with service := s.master.service ||| lineBit 2 } }

def vectorOf (s : System) : Delivery → ℕ
  | .real line _ =>
    if line.val.val < 8 then s.master.base.toNat + line.val.val else s.slave.base.toNat + (line.val.val - 8)
  | .spurious7 _ => s.master.base.toNat + 7
  | .spurious15 _ => s.slave.base.toNat + 7

def Delivery.regs : Delivery → ℕ → Registers
  | .real _ regs => regs
  | .spurious7 regs => regs
  | .spurious15 regs => regs

def deliver (s : System) (d : Delivery) : System := irqDispatch d.regs (vectorOf s d) (raise s d)

def deliverAll (s : System) (ds : List Delivery) : System := ds.foldl deliver s

end OsByAi.PicModel
