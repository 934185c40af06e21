import OsByAi.ReceiveRing
import OsByAi.Word64

set_option autoImplicit false

/-!
# The serial port, receiving side

Registers of the UART may hold anything when they are read, so every function gets the
values that it will find. Each function also lists what a reader of the input would want
to know: the bytes taken from the receive register and every sign of trouble.
-/
namespace OsByAi.SerialModel
open ReceiveRing

def com1 : ℕ := 0x3f8
def pollLimit : ℕ := 1000000

/-- The static variables of `serial.c`, and the writes to ports in order. -/
structure Serial where
  ring : RxBuffer
  receiveEnabled : Bool
  rxInterrupts : ℕ
  rxDropped : ℕ
  rxOverflows : ℕ
  ports : List (ℕ × UInt8)

def outb (port : ℕ) (value : UInt8) (s : Serial) : Serial := { s with ports := s.ports ++ [(port, value)] }

/-- What the interrupt identification, line status and receive registers will hold. -/
structure Registers where
  cause : UInt8
  status : UInt8
  byte : UInt8

/-- `received` is a byte read from the receive register, with the answer of `rx_push`. `trouble` is
    an error bit in the line status, a handler that ran into its bound, or an unknown cause. -/
inductive Note where
  | received (byte : UInt8) (kept : Bool)
  | trouble
deriving DecidableEq

def receiveError (s : Serial) : Serial :=
  { s with ring := rxFail s.ring, rxDropped := Word64.add s.rxDropped 1 }

/-- `status & 0x1e`: overrun, parity, framing or break. -/
def lineError (status : UInt8) : Bool := status &&& 0x1e != 0

/-- The end of `receive_byte`, once the line status has been looked at. -/
def pushByte (byte : UInt8) (s : Serial) : Serial :=
  let alreadyFailed := s.ring.failed
  let r := rxPush byte s.ring
  let s := { s with ring := r.2 }
  if r.1 then s
  else { s with
    rxOverflows := if alreadyFailed then s.rxOverflows else Word64.add s.rxOverflows 1
    rxDropped := Word64.add s.rxDropped 1 }

def receiveByte (status byte : UInt8) (s : Serial) : Serial × List Note :=
  let s' := if lineError status then receiveError s else s
  let notes := if lineError status then [.trouble] else []
  if status &&& 1 == 0 then (s', notes)
  else (pushByte byte s', notes ++ [.received byte (rxPush byte s'.ring).1])

/-- The loop of `serial_interrupt` with `left` iterations to go; `regs i` is found in iteration `i`. -/
def drain (regs : ℕ → Registers) : ℕ → ℕ → Serial → Serial × List Note
  | _, 0, s => (outb (com1 + 2) 0x03 (receiveError s), [.trouble])
  | i, left + 1, s =>
    let cause := (regs i).cause
    if cause &&& 1 != 0 then (s, [])
    else if cause &&& 0x0e == 0x04 || cause &&& 0x0e == 0x0c || cause &&& 0x0e == 0x06 then
      let r := receiveByte (regs i).status (regs i).byte s
      let r' := drain regs (i + 1) left r.1
      (r'.1, r.2 ++ r'.2)
    else (receiveError (outb (com1 + 1) 0 s), [.trouble])

def serialInterrupt (regs : ℕ → Registers) (s : Serial) : Serial × List Note :=
  drain regs 0 rxCapacity { s with rxInterrupts := Word64.add s.rxInterrupts 1 }

def serialRead (byte : UInt8) (s : Serial) : Int × UInt8 × Serial :=
  let r := rxRead byte s.ring
  (r.1, r.2.1, { s with ring := r.2.2 })

/-- `irq` is the answer of `irq_enable(4)`. -/
def serialEnableReceive (rflags : ℕ) (irq : Bool) (s : Serial) : Bool × Serial :=
  if s.receiveEnabled || rflags &&& 0x200 != 0 then (false, s)
  else if !irq then (false, s)
  else
    let s := outb (com1 + 2) 0x07 { s with ring := rxReset s.ring }
    let s := { outb (com1 + 4) 0x0b s with receiveEnabled := true }
    (true, outb (com1 + 1) 0x05 s)

/-- Where the thread is. It is interrupted between reading the line status and `receive_error`. -/
inductive Thread where
  | outside
  | polling (mask : UInt8) (i : ℕ)
  | noticed (mask : UInt8) (i : ℕ) (status : UInt8)

/-- The test after an error was dealt with: ready, or one more round. -/
def afterStatus (mask : UInt8) (i : ℕ) (status : UInt8) : Thread :=
  if status &&& mask == mask then .outside else .polling mask (i + 1)

/-- The next round of the loop, with `status` in the line status register. -/
def pollStatus (s : Serial) (mask : UInt8) (i : ℕ) (status : UInt8) : Thread :=
  if i ≥ pollLimit then .outside
  else if status == 0xff then .outside
  else if s.receiveEnabled && lineError status then .noticed mask i status
  else afterStatus mask i status

end OsByAi.SerialModel
