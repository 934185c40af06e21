import OsByAi.SerialModel

set_option autoImplicit false

namespace OsByAi.SerialTransmit
open ReceiveRing SerialModel

/-- The registers that the driver writes, the transmitter and what has left it. `lost` tells that a
    byte was overwritten, cleared, looped back or on its way while the line was reconfigured. -/
structure Uart where
  lineControl : UInt8
  modemControl : UInt8
  fifoControl : UInt8
  interruptEnable : UInt8
  divisorLow : UInt8
  divisorHigh : UInt8
  holding : Option UInt8
  shift : Option UInt8
  wire : List UInt8
  lost : Bool

def Uart.dlab (u : Uart) : Bool := u.lineControl &&& 0x80 != 0

def Uart.idle (u : Uart) : Bool := u.holding.isNone && u.shift.isNone

/-- The last bit leaves the shift register, or the next byte enters it. -/
def Uart.tick (u : Uart) : Uart :=
  match u.shift, u.holding with
  | some byte, _ => { u with shift := none, wire := u.wire ++ [byte] }
  | none, some byte => { u with shift := some byte, holding := none }
  | none, none => u

/-- The line status: bits 5 and 6 are the transmitter's, the others are `noise`. -/
def Uart.status (u : Uart) (noise : UInt8) : UInt8 :=
  (noise &&& 0x9f) ||| (if u.holding.isNone then 0x20 else 0) ||| (if u.idle then 0x40 else 0)

def Uart.put (u : Uart) (byte : UInt8) : Uart :=
  if u.modemControl &&& 0x10 != 0 then { u with lost := true }
  else { u with holding := some byte, lost := u.lost || u.holding.isSome }

def Uart.write (u : Uart) (offset : ℕ) (value : UInt8) : Uart :=
  if offset = 0 then
    if u.dlab then { u with divisorLow := value, lost := u.lost || !u.idle } else u.put value
  else if offset = 1 then
    if u.dlab then { u with divisorHigh := value, lost := u.lost || !u.idle } else { u with interruptEnable := value }
  else if offset = 2 then
    if value &&& 0x04 != 0 then { u with fifoControl := value, holding := none, lost := u.lost || u.holding.isSome }
    else { u with fifoControl := value }
  else if offset = 3 then { u with lineControl := value, lost := u.lost || !u.idle }
  else if offset = 4 then { u with modemControl := value, lost := u.lost || !u.idle }
  else u

/-- `reads` are the values of the line status that the thread has read. -/
structure Port where
  serial : Serial
  uart : Uart
  accesses : ℕ
  reads : List UInt8

inductive Happening where
  | tick
  | interrupt (regs : ℕ → Registers)

/-- What happens before each access to the port, and the other bits of the line status then. -/
abbrev Line : Type := ℕ → List Happening × UInt8

/-- The interrupt handler writes to ports as well. -/
def happen (p : Port) : Happening → Port
  | .tick => { p with uart := p.uart.tick }
  | .interrupt regs =>
    let s := (serialInterrupt regs p.serial).1
    { p with
      serial := s
      uart := (s.ports.drop p.serial.ports.length).foldl (fun u w => u.write (w.1 - com1) w.2) p.uart }

def arrive (line : Line) (p : Port) : Port :=
  { (line p.accesses).1.foldl happen p with accesses := p.accesses + 1 }

def inbStatus (line : Line) (p : Port) : UInt8 × Port :=
  let status := (arrive line p).uart.status (line p.accesses).2
  (status, { arrive line p with reads := p.reads ++ [status] })

def outb (line : Line) (offset : ℕ) (value : UInt8) (p : Port) : Port :=
  let p := arrive line p
  { p with serial := SerialModel.outb (com1 + offset) value p.serial, uart := p.uart.write offset value }

/-- The loop of `wait_status` with `left` rounds to go. -/
def waitFrom (line : Line) (mask : UInt8) : ℕ → Port → Bool × Port
  | 0, p => (false, p)
  | left + 1, p =>
    let (status, p) := inbStatus line p
    if status == 0xff then (false, p)
    else
      let p := if p.serial.receiveEnabled && lineError status then { p with serial := receiveError p.serial } else p
      if status &&& mask == mask then (true, p) else waitFrom line mask left p

def waitStatus (line : Line) (mask : UInt8) (p : Port) : Bool × Port := waitFrom line mask pollLimit p

def serialFlush (line : Line) (p : Port) : Bool × Port := waitStatus line 0x40 p

def serialInit (line : Line) (p : Port) : Bool × Port :=
  let (ok, p) := serialFlush line p
  if !ok then (false, p)
  else
    let p := outb line 3 0x03 p
    let p := outb line 1 0x00 p
    let p := outb line 3 0x80 p
    let p := outb line 0 0x01 p
    let p := outb line 1 0x00 p
    let p := outb line 3 0x03 p
    let p := outb line 2 0x07 p
    let p := outb line 4 0x03 p
    waitStatus line 0x20 p

def putByte (line : Line) (value : UInt8) (p : Port) : Bool × Port :=
  let (ok, p) := waitStatus line 0x20 p
  if !ok then (false, p) else (true, outb line 0 value p)

/-- `text` without its terminating zero. -/
def serialWrite (line : Line) : List UInt8 → Port → Bool × Port
  | [], p => (true, p)
  | c :: text, p =>
    let (ok, p) := if c == 10 then putByte line 13 p else (true, p)
    if !ok then (false, p)
    else
      let (ok, p) := putByte line c p
      if !ok then (false, p) else serialWrite line text p

/-- `irq` is the answer of `irq_enable(4)`. -/
def serialEnableReceive (line : Line) (rflags : ℕ) (irq : Bool) (p : Port) : Bool × Port :=
  if p.serial.receiveEnabled || rflags &&& 0x200 != 0 then (false, p)
  else if !irq then (false, p)
  else
    let p := { p with serial := { p.serial with ring := rxReset p.serial.ring } }
    let p := outb line 2 0x07 p
    let p := outb line 4 0x0b p
    let p := { p with serial := { p.serial with receiveEnabled := true } }
    (true, outb line 1 0x05 p)

/-- The bytes given to the transmitter, the last one at the end. -/
def Uart.sent (u : Uart) : List UInt8 := u.wire ++ u.shift.toList ++ u.holding.toList

/-- A newline goes out as CR LF. -/
def expand : List UInt8 → List UInt8
  | [] => []
  | c :: text => (if c == 10 then [13, 10] else [c]) ++ expand text

/-- The reader of the line takes CR LF for a newline. -/
def collapse : List UInt8 → List UInt8
  | [] => []
  | [c] => [c]
  | c :: d :: text => if c = 13 ∧ d = 10 then 10 :: collapse text else c :: collapse (d :: text)

theorem expand_head (text : List UInt8) : (expand text).head? ≠ some 10 := by
  cases text with
  | nil => simp [expand]
  | cons c text =>
    rw [expand]
    split
    · simp
    · rename_i hc
      simpa using hc

theorem collapse_cons {c : UInt8} {text : List UInt8} (h : text.head? ≠ some 10) :
    collapse (c :: text) = c :: collapse text := by
  cases text with
  | nil => rfl
  | cons d text =>
    rw [collapse, if_neg]
    rintro ⟨-, rfl⟩
    exact h rfl

theorem collapse_expand (text : List UInt8) : collapse (expand text) = text := by
  induction text with
  | nil => rfl
  | cons c text ih =>
    rw [expand]
    split
    · rename_i hc
      obtain rfl : c = 10 := by simpa using hc
      rw [List.cons_append, List.cons_append, List.nil_append, collapse, if_pos ⟨rfl, rfl⟩, ih]
    · rw [List.cons_append, List.nil_append, collapse_cons (expand_head text), ih]

section Calm

variable {u v w : Uart} {p q : Port} {line : Line}

theorem or_and_distrib (a b c : UInt8) : (a ||| b) &&& c = (a &&& c) ||| (b &&& c) := by
  apply UInt8.toBitVec_inj.1
  ext i
  simp [Bool.and_or_distrib_right]

theorem status_holding (u : Uart) (noise : UInt8) :
    u.status noise &&& 0x20 = if u.holding.isNone then 0x20 else 0 := by
  unfold Uart.status
  rw [or_and_distrib, or_and_distrib, UInt8.and_assoc, show (0x9f &&& 0x20 : UInt8) = 0 from rfl, UInt8.and_zero,
    UInt8.zero_or]
  cases u.holding.isNone <;> cases u.idle <;> rfl

theorem status_idle (u : Uart) (noise : UInt8) : u.status noise &&& 0x40 = if u.idle then 0x40 else 0 := by
  unfold Uart.status
  rw [or_and_distrib, or_and_distrib, UInt8.and_assoc, show (0x9f &&& 0x40 : UInt8) = 0 from rfl, UInt8.and_zero,
    UInt8.zero_or]
  cases u.holding.isNone <;> cases u.idle <;> rfl

structure Uart.Open (u : Uart) : Prop where
  latch : u.dlab = false
  loopback : (u.modemControl &&& 0x10 != 0) = false

/-- Nothing was added to what is sent, nothing of it was lost, and nothing stands in the way of the
    transmitter that did not before. -/
structure Calm (u v : Uart) : Prop where
  sent : v.sent = u.sent
  lost : v.lost = u.lost
  lineControl : v.lineControl = u.lineControl
  modemControl : v.modemControl = u.modemControl
  holding : u.holding = none → v.holding = none
  idle : u.idle = true → v.idle = true

theorem Calm.refl (u : Uart) : Calm u u := ⟨rfl, rfl, rfl, rfl, id, id⟩

theorem Calm.trans (h : Calm u v) (h' : Calm v w) : Calm u w where
  sent := h'.sent.trans h.sent
  lost := h'.lost.trans h.lost
  lineControl := h'.lineControl.trans h.lineControl
  modemControl := h'.modemControl.trans h.modemControl
  holding hu := h'.holding (h.holding hu)
  idle hu := h'.idle (h.idle hu)

theorem Calm.open (h : Calm u v) (hu : u.Open) : v.Open := by
  obtain ⟨hlatch, hloop⟩ := hu
  unfold Uart.dlab at hlatch
  refine ⟨?_, ?_⟩
  · rw [Uart.dlab, h.lineControl, hlatch]
  · rw [h.modemControl, hloop]

theorem tick_calm (u : Uart) : Calm u u.tick := by
  unfold Uart.tick
  cases hs : u.shift with
  | some byte =>
    refine ⟨?_, rfl, rfl, rfl, id, fun hi => ?_⟩
    · simp [Uart.sent, hs]
    · simp [Uart.idle, hs] at hi
  | none =>
    cases hh : u.holding with
    | none => exact Calm.refl u
    | some byte =>
      refine ⟨?_, rfl, rfl, rfl, fun _ => rfl, fun hi => ?_⟩
      · simp [Uart.sent, hs, hh]
      · simp [Uart.idle, hh] at hi

theorem write_fifo_calm {value : UInt8} (hv : (value &&& 0x04 != 0) = false) (u : Uart) : Calm u (u.write 2 value) := by
  have hw : u.write 2 value = { u with fifoControl := value } := by
    simp [Uart.write, hv]
  rw [hw]
  exact ⟨rfl, rfl, rfl, rfl, id, id⟩

theorem write_interrupt_calm (hu : u.Open) (value : UInt8) : Calm u (u.write 1 value) := by
  have hw : u.write 1 value = { u with interruptEnable := value } := by
    simp [Uart.write, hu.latch]
  rw [hw]
  exact ⟨rfl, rfl, rfl, rfl, id, id⟩

theorem receiveByte_ports (status byte : UInt8) (s : Serial) : (receiveByte status byte s).1.ports = s.ports := by
  unfold receiveByte pushByte
  simp only
  split <;> split <;> (try split) <;> rfl

/-- The handler clears the receiver or turns the interrupts of the device off, if it writes at all. -/
theorem drain_ports (regs : ℕ → Registers) (left i : ℕ) (s : Serial) :
    (drain regs i left s).1.ports = s.ports ∨ (drain regs i left s).1.ports = s.ports ++ [(com1 + 2, 0x03)] ∨
      (drain regs i left s).1.ports = s.ports ++ [(com1 + 1, 0)] := by
  induction left generalizing i s with
  | zero => exact .inr (.inl rfl)
  | succ left ih =>
    rw [drain]
    simp only
    split
    · exact .inl rfl
    · split
      · have hrest := ih (i + 1) (receiveByte (regs i).status (regs i).byte s).1
        rw [receiveByte_ports] at hrest
        exact hrest
      · exact .inr (.inr rfl)

/-- Interrupts are kept out, or the first two registers are not those of the divisor. -/
def Settled (line : Line) (u : Uart) : Prop := u.Open ∨ ∀ k, ∀ h ∈ (line k).1, h = .tick

theorem Uart.Open.settled (h : u.Open) (line : Line) : Settled line u := .inl h

theorem Calm.settled (h : Calm u v) (hu : Settled line u) : Settled line v := hu.imp_left h.open

theorem happen_calm {h : Happening} (hp : p.uart.Open ∨ h = .tick) :
    Calm p.uart (happen p h).uart := by
  cases h with
  | tick => exact tick_calm p.uart
  | interrupt regs =>
    have hports := drain_ports regs rxCapacity 0 { p.serial with rxInterrupts := Word64.add p.serial.rxInterrupts 1 }
    rw [← serialInterrupt] at hports
    unfold happen
    rcases hports with hports | hports | hports
    · simp only [hports, List.drop_length, List.foldl_nil]
      exact Calm.refl _
    · simp only [hports, List.drop_left, List.foldl_cons, List.foldl_nil]
      exact write_fifo_calm rfl _
    · simp only [hports, List.drop_left, List.foldl_cons, List.foldl_nil]
      exact write_interrupt_calm (hp.resolve_right nofun) _

theorem arrive_calm (hp : Settled line p.uart) : Calm p.uart (arrive line p).uart := by
  have key : ∀ (hs : List Happening) (p : Port), (p.uart.Open ∨ ∀ h ∈ hs, h = .tick) →
      Calm p.uart (hs.foldl happen p).uart := by
    intro hs
    induction hs with
    | nil => exact fun p _ => Calm.refl _
    | cons h hs ih =>
      intro p hp
      have hcalm := happen_calm (h := h) (hp.imp_right fun hall => hall h (by simp))
      exact hcalm.trans (ih (happen p h) (hp.imp hcalm.open fun hall x hx => hall x (List.mem_cons_of_mem _ hx)))
  exact key _ p (hp.imp_right fun hall => hall p.accesses)

end Calm

section Calls

variable {p q r : Port} {line : Line} {bytes more : List UInt8} {mask value : UInt8}

structure Sends (bytes : List UInt8) (p q : Port) : Prop where
  sent : q.uart.sent = p.uart.sent ++ bytes
  lost : q.uart.lost = p.uart.lost
  opened : q.uart.Open

theorem Sends.trans (h : Sends bytes p q) (h' : Sends more q r) : Sends (bytes ++ more) p r where
  sent := by rw [h'.sent, h.sent, List.append_assoc]
  lost := h'.lost.trans h.lost
  opened := h'.opened

theorem Sends.nothing (h : Calm p.uart q.uart) (hp : p.uart.Open) : Sends [] p q :=
  ⟨by rw [h.sent, List.append_nil], h.lost, h.open hp⟩

/-- Why a wait ended without success: no device answers, or the bits stayed away for all its rounds. -/
def GaveUp (mask : UInt8) (reads : List UInt8) : Prop :=
  reads.getLast? = some 0xff ∨
    ∃ before new, reads = before ++ new ∧ new.length = pollLimit ∧ ∀ status ∈ new, status &&& mask ≠ mask

structure Waited (line : Line) (mask : UInt8) (left : ℕ) (p : Port) (r : Bool × Port) : Prop where
  calm : Calm p.uart r.2.uart
  holding : r.1 = true → mask = 0x20 → r.2.uart.holding = none
  idle : r.1 = true → mask = 0x40 → r.2.uart.idle = true
  failed : r.1 = false → r.2.reads.getLast? = some 0xff ∨
    ∃ new, r.2.reads = p.reads ++ new ∧ new.length = left ∧ ∀ status ∈ new, status &&& mask ≠ mask

theorem waitFrom_waited (hp : Settled line p.uart) (mask : UInt8) (left : ℕ) :
    Waited line mask left p (waitFrom line mask left p) := by
  induction left generalizing p with
  | zero => exact ⟨Calm.refl _, nofun, nofun, fun _ => .inr ⟨[], by simp [waitFrom], rfl, nofun⟩⟩
  | succ left ih =>
    have hcalm := arrive_calm hp
    rw [waitFrom]
    unfold inbStatus
    generalize hs : (arrive line p).uart.status (line p.accesses).2 = status
    simp only
    split
    · rename_i hff
      obtain rfl : status = 0xff := by simpa using hff
      exact ⟨hcalm, nofun, nofun, fun _ => .inl (by simp)⟩
    · -- noticing an error changes the receiver only
      generalize hq : (if (arrive line p).serial.receiveEnabled && lineError status then
        ({ arrive line p with serial := receiveError (arrive line p).serial, reads := p.reads ++ [status] } : Port)
        else { arrive line p with reads := p.reads ++ [status] }) = q
      have hq' : q.uart = (arrive line p).uart ∧ q.reads = p.reads ++ [status] := by
        rw [← hq]
        split <;> exact ⟨rfl, rfl⟩
      obtain ⟨huart, hr⟩ := hq'
      split
      · rename_i hmask
        refine ⟨by rw [huart]; exact hcalm, fun _ hm => ?_, fun _ hm => ?_, nofun⟩
        · subst hm
          rw [← hs, status_holding] at hmask
          rw [huart]
          cases hh : (arrive line p).uart.holding with
          | none => rfl
          | some byte => simp [hh] at hmask
        · subst hm
          rw [← hs, status_idle] at hmask
          rw [huart]
          cases hi : (arrive line p).uart.idle with
          | true => rfl
          | false => simp [hi] at hmask
      · rename_i hmask
        have hrest := ih (p := q) (by rw [huart]; exact hcalm.settled hp)
        refine ⟨?_, hrest.holding, hrest.idle, fun hno => ?_⟩
        · exact hcalm.trans (by rw [← huart]; exact hrest.calm)
        · rcases hrest.failed hno with hff | ⟨new, hnew, hlen, hall⟩
          · exact .inl hff
          · refine .inr ⟨status :: new, by rw [hnew, hr, List.append_assoc]; rfl, by rw [List.length_cons, hlen], ?_⟩
            intro x hx
            rcases List.mem_cons.mp hx with rfl | hx
            · simpa using hmask
            · exact hall x hx

theorem waitStatus_waited (hp : Settled line p.uart) (mask : UInt8) :
    Waited line mask pollLimit p (waitStatus line mask p) := waitFrom_waited hp mask pollLimit

theorem Waited.gaveUp {s : Bool × Port} (h : Waited line mask pollLimit p s) (hno : s.1 = false) :
    GaveUp mask s.2.reads :=
  (h.failed hno).imp_right fun ⟨new, hreads, hlen, hall⟩ => ⟨p.reads, new, hreads, hlen, hall⟩

theorem Waited.sends {s : Bool × Port} (hp : p.uart.Open) (h : Waited line mask pollLimit p s) : Sends [] p s.2 :=
  .nothing h.calm hp

theorem outb_data (hp : p.uart.Open) (hh : p.uart.holding = none) (line : Line) (value : UInt8) :
    Sends [value] p (outb line 0 value p) := by
  have hcalm := arrive_calm (hp.settled line)
  have hopen := hcalm.open hp
  have hempty := hcalm.holding hh
  have hput : (arrive line p).uart.write 0 value = { (arrive line p).uart with
      holding := some value, lost := (arrive line p).uart.lost } := by
    simp [Uart.write, Uart.put, hopen.latch, hopen.loopback, hempty]
  refine ⟨?_, ?_, ?_⟩
  · change ((arrive line p).uart.write 0 value).sent = _
    rw [hput, ← hcalm.sent]
    simp [Uart.sent, hempty]
  · change ((arrive line p).uart.write 0 value).lost = _
    rw [hput, ← hcalm.lost]
  · change ((arrive line p).uart.write 0 value).Open
    rw [hput]
    exact ⟨hopen.latch, hopen.loopback⟩

theorem putByte_sends (hp : p.uart.Open) (line : Line) (value : UInt8) :
    ((putByte line value p).1 = true → Sends [value] p (putByte line value p).2) ∧
      ((putByte line value p).1 = false → Sends [] p (putByte line value p).2 ∧
        GaveUp 0x20 (putByte line value p).2.reads) := by
  have hwait := waitStatus_waited (hp.settled line) 0x20
  unfold putByte
  rcases hres : waitStatus line 0x20 p with ⟨ok, q⟩
  rw [hres] at hwait
  have hsends := hwait.sends hp
  cases ok with
  | false => exact ⟨nofun, fun _ => ⟨hsends, hwait.gaveUp rfl⟩⟩
  | true => exact ⟨fun _ => hsends.trans (outb_data hsends.opened (hwait.holding rfl rfl) line value), nofun⟩

/-- What a text is on the line: all of it, or a beginning after which the driver gave up. -/
structure Written (text : List UInt8) (p : Port) (s : Bool × Port) : Prop where
  done : s.1 = true → Sends (expand text) p s.2
  failed : s.1 = false → ∃ part, part <+: expand text ∧ part ≠ expand text ∧ Sends part p s.2 ∧
    GaveUp 0x20 s.2.reads

theorem Written.after {text : List UInt8} {s : Bool × Port} (hfirst : Sends bytes p q)
    (hexpand : expand more = bytes ++ expand text) (h : Written text q s) : Written more p s where
  done hok := by
    rw [hexpand]
    exact hfirst.trans (h.done hok)
  failed hno := by
    obtain ⟨part, hpre, hne, hsends, hgave⟩ := h.failed hno
    refine ⟨bytes ++ part, ?_, ?_, hfirst.trans hsends, hgave⟩
    · rw [hexpand]
      exact (List.prefix_append_right_inj bytes).mpr hpre
    · rw [hexpand]
      exact fun heq => hne (List.append_cancel_left heq)

theorem serialWrite_written (hp : p.uart.Open) (line : Line) (text : List UInt8) :
    Written text p (serialWrite line text p) := by
  induction text generalizing p with
  | nil => exact ⟨fun _ => .nothing (Calm.refl _) hp, nofun⟩
  | cons c text ih =>
    rw [serialWrite]
    -- the CR of a newline, or nothing
    generalize hpre : (if c == 10 then [13] else [] : List UInt8) = pre
    have hexpand : expand (c :: text) = pre ++ ([c] ++ expand text) := by
      rw [expand, ← hpre]
      by_cases hc : c = 10
      · simp [hc]
      · simp [hc]
    have hcr : ∀ s : Bool × Port, (if c == 10 then putByte line 13 p else (true, p)) = s →
        (s.1 = true → Sends pre p s.2) ∧ (s.1 = false → Sends [] p s.2 ∧ GaveUp 0x20 s.2.reads) := by
      rintro s rfl
      rw [← hpre]
      split
      · exact putByte_sends hp line 13
      · exact ⟨fun _ => .nothing (Calm.refl _) hp, nofun⟩
    rcases hone : (if c == 10 then putByte line 13 p else (true, p)) with ⟨ok, q⟩
    obtain ⟨hdone, hfailed⟩ := hcr _ hone
    simp only
    cases ok with
    | false =>
      obtain ⟨hsends, hgave⟩ := hfailed rfl
      refine ⟨nofun, fun _ => ⟨[], List.nil_prefix, ?_, hsends, hgave⟩⟩
      rw [hexpand]
      simp
    | true =>
      have hsends := hdone rfl
      obtain ⟨hchar, hstop⟩ := putByte_sends hsends.opened line c
      rcases htwo : putByte line c q with ⟨ok, q'⟩
      rw [htwo] at hchar hstop
      simp only [Bool.not_true, Bool.false_eq_true, if_false]
      cases ok with
      | false =>
        obtain ⟨hnone, hgave⟩ := hstop rfl
        have hpart := hsends.trans hnone
        rw [List.append_nil] at hpart
        refine ⟨nofun, fun _ => ⟨pre, ?_, ?_, hpart, hgave⟩⟩
        · rw [hexpand]
          exact List.prefix_append _ _
        · rw [hexpand]
          simp
      | true =>
        have hboth := hsends.trans (hchar rfl)
        simp only [Bool.not_true, Bool.false_eq_true, if_false]
        exact (ih hboth.opened).after hboth (by rw [hexpand, List.append_assoc])

end Calls

section Start

variable {p q : Port}

/-- The line while the processor keeps interrupts out: how many steps the transmitter makes. -/
def quiet (pace : ℕ → ℕ × UInt8) : Line := fun k => (List.replicate (pace k).1 .tick, (pace k).2)

theorem quiet_settled (pace : ℕ → ℕ × UInt8) (u : Uart) : Settled (quiet pace) u :=
  .inr fun _ _ h => List.eq_of_mem_replicate h

theorem arrive_idle (hp : p.uart.idle = true) (pace : ℕ → ℕ × UInt8) : (arrive (quiet pace) p).uart = p.uart := by
  have htick : p.uart.tick = p.uart := by
    simp only [Uart.idle, Bool.and_eq_true, Option.isNone_iff_eq_none] at hp
    simp only [Uart.tick, hp.1, hp.2]
  have key : ∀ n, ((List.replicate n Happening.tick).foldl happen p).uart = p.uart ∧
      happen ((List.replicate n Happening.tick).foldl happen p) .tick = (List.replicate n Happening.tick).foldl happen p := by
    intro n
    have hstill : happen p .tick = p := by
      simp only [happen, htick]
    induction n with
    | zero => exact ⟨rfl, hstill⟩
    | succ n ih =>
      rw [List.replicate_succ, List.foldl_cons, hstill]
      exact ih
  exact (key _).1

theorem waitFrom_idle (hp : p.uart.idle = true) (pace : ℕ → ℕ × UInt8) (mask : UInt8) (left : ℕ) :
    (waitFrom (quiet pace) mask left p).2.uart = p.uart := by
  induction left generalizing p with
  | zero => rfl
  | succ left ih =>
    have harrive := arrive_idle hp pace
    rw [waitFrom]
    unfold inbStatus
    generalize (arrive (quiet pace) p).uart.status _ = status
    simp only
    split
    · exact harrive
    · generalize hq : (if (arrive (quiet pace) p).serial.receiveEnabled && lineError status then
        ({ arrive (quiet pace) p with
          serial := receiveError (arrive (quiet pace) p).serial, reads := p.reads ++ [status] } : Port)
        else { arrive (quiet pace) p with reads := p.reads ++ [status] }) = q
      have huart : q.uart = p.uart := by
        rw [← hq]
        split <;> exact harrive
      split
      · exact huart
      · rw [ih (by rw [huart]; exact hp), huart]

/-- An empty transmitter set up for 115200 baud, 8N1. -/
structure Prepared (sent : List UInt8) (lost : Bool) (u : Uart) : Prop where
  wire : u.wire = sent
  shift : u.shift = none
  holding : u.holding = none
  lost : u.lost = lost
  lineControl : u.lineControl = 3
  modemControl : u.modemControl = 3
  fifoControl : u.fifoControl = 7
  interruptEnable : u.interruptEnable = 0
  divisorLow : u.divisorLow = 1
  divisorHigh : u.divisorHigh = 0

def Configures (u : Uart) : List (ℕ × UInt8) → Prop
  | [] => True
  | w :: ws => (w.1 = 0 → u.dlab = true) ∧ Configures (u.write w.1 w.2) ws

theorem write_idle {u : Uart} {offset : ℕ} (hi : u.idle = true) (value : UInt8) (h : offset = 0 → u.dlab = true) :
    (u.write offset value).idle = true ∧ (u.write offset value).wire = u.wire ∧ (u.write offset value).lost = u.lost := by
  unfold Uart.write
  split
  · rename_i hzero
    rw [if_pos (h hzero)]
    exact ⟨hi, rfl, by simp [hi]⟩
  · simp only [Uart.idle, Bool.and_eq_true, Option.isNone_iff_eq_none] at hi ⊢
    repeat' split
    all_goals simp [hi]

theorem configures_kept (ws : List (ℕ × UInt8)) {u : Uart} (hi : u.idle = true) (hw : Configures u ws) :
    (ws.foldl (fun u w => u.write w.1 w.2) u).wire = u.wire ∧ (ws.foldl (fun u w => u.write w.1 w.2) u).lost = u.lost := by
  induction ws generalizing u with
  | nil => exact ⟨rfl, rfl⟩
  | cons w ws ih =>
    obtain ⟨hidle, hwire, hlost⟩ := write_idle hi w.2 hw.1
    obtain ⟨hwire', hlost'⟩ := ih hidle hw.2
    exact ⟨hwire'.trans hwire, hlost'.trans hlost⟩

theorem configure_idle (pace : ℕ → ℕ × UInt8) (ws : List (ℕ × UInt8)) {p : Port} (hi : p.uart.idle = true)
    (hw : Configures p.uart ws) :
    let q := ws.foldl (fun p w => outb (quiet pace) w.1 w.2 p) p
    q.uart = ws.foldl (fun u w => u.write w.1 w.2) p.uart ∧ q.uart.idle = true := by
  induction ws generalizing p with
  | nil => exact ⟨rfl, hi⟩
  | cons w ws ih =>
    obtain ⟨hzero, hrest⟩ := hw
    have huart : (outb (quiet pace) w.1 w.2 p).uart = p.uart.write w.1 w.2 := by
      change (arrive (quiet pace) p).uart.write w.1 w.2 = _
      rw [arrive_idle hi]
    have htail := ih (p := outb (quiet pace) w.1 w.2 p) (by rw [huart]; exact (write_idle hi w.2 hzero).1)
      (by rw [huart]; exact hrest)
    rw [huart] at htail
    exact htail

def setupWrites : List (ℕ × UInt8) :=
  [(3, 0x03), (1, 0x00), (3, 0x80), (0, 0x01), (1, 0x00), (3, 0x03), (2, 0x07), (4, 0x03)]

theorem setup_prepared {u : Uart} (hi : u.idle = true) :
    Configures u setupWrites ∧ Prepared u.sent u.lost (setupWrites.foldl (fun u w => u.write w.1 w.2) u) := by
  have hlatch : ((0x80 : UInt8) &&& 0x80 != 0) = true := by decide
  have hconfigures : Configures u setupWrites :=
    ⟨nofun, nofun, nofun, fun _ => hlatch, nofun, nofun, nofun, nofun, trivial⟩
  obtain ⟨hwire, hlost⟩ := configures_kept setupWrites hi hconfigures
  simp only [Uart.idle, Bool.and_eq_true, Option.isNone_iff_eq_none] at hi
  obtain ⟨lcr, mcr, fcr, ier, low, high, holding, shift, wire, lost⟩ := u
  obtain ⟨rfl, rfl⟩ := hi
  have h3 : (3 : UInt8) &&& 128 = 0 := by decide
  have h7 : ¬ (7 : UInt8) &&& 4 = 0 := by decide
  refine ⟨hconfigures, ?_, ?_, ?_, hlost, ?_, ?_, ?_, ?_, ?_, ?_⟩
  · rw [hwire]
    simp [Uart.sent]
  all_goals simp [setupWrites, Uart.write, Uart.dlab, h3, h7]

theorem Prepared.open {sent : List UInt8} {lost : Bool} {u : Uart} (h : Prepared sent lost u) : u.Open := by
  refine ⟨?_, ?_⟩
  · rw [Uart.dlab, h.lineControl]
    decide
  · rw [h.modemControl]
    decide

theorem Prepared.sent_eq {sent : List UInt8} {lost : Bool} {u : Uart} (h : Prepared sent lost u) : u.sent = sent := by
  rw [Uart.sent, h.wire, h.shift, h.holding]
  simp

/-- The bytes that the loader left in the transmitter are on the line before it is set up anew. -/
theorem serialInit_prepared (pace : ℕ → ℕ × UInt8) (p : Port) :
    ((serialInit (quiet pace) p).1 = true → Prepared p.uart.sent p.uart.lost (serialInit (quiet pace) p).2.uart) ∧
      (serialInit (quiet pace) p).2.uart.sent = p.uart.sent ∧ (serialInit (quiet pace) p).2.uart.lost = p.uart.lost := by
  have hflush := waitStatus_waited (p := p) (quiet_settled pace p.uart) 0x40
  rw [← serialFlush] at hflush
  unfold serialInit
  rcases hres : serialFlush (quiet pace) p with ⟨ok, q⟩
  rw [hres] at hflush
  cases ok with
  | false => exact ⟨nofun, hflush.calm.sent, hflush.calm.lost⟩
  | true =>
    have hidle := hflush.idle rfl rfl
    have hsent := hflush.calm.sent
    have hlost := hflush.calm.lost
    simp only at hidle hsent hlost
    obtain ⟨hconfigures, hprepared⟩ := setup_prepared hidle
    obtain ⟨huart, hstill⟩ := configure_idle pace setupWrites hidle hconfigures
    simp only [Bool.not_true, Bool.false_eq_true, if_false]
    generalize hr : setupWrites.foldl (fun p w => outb (quiet pace) w.1 w.2 p) q = r at huart hstill
    have hchain : outb (quiet pace) 4 0x03 (outb (quiet pace) 2 0x07 (outb (quiet pace) 3 0x03 (outb (quiet pace) 1 0x00
      (outb (quiet pace) 0 0x01 (outb (quiet pace) 3 0x80 (outb (quiet pace) 1 0x00 (outb (quiet pace) 3 0x03 q))))))) = r := hr
    rw [← huart, hsent, hlost] at hprepared
    have hlast := waitFrom_idle hstill pace 0x20 pollLimit
    rw [← waitStatus] at hlast
    rw [hchain]
    refine ⟨fun _ => ?_, ?_, ?_⟩
    · rw [hlast]
      exact hprepared
    · rw [hlast, hprepared.sent_eq]
    · rw [hlast, hprepared.lost]

end Start

section Sessions

variable {p q : Port} {line : Line}

inductive Op where
  | write (text : List UInt8)
  | flush
  | enableReceive (rflags : ℕ) (irq : Bool)

def perform (line : Line) : Op → Port → Bool × Port
  | .write text, p => serialWrite line text p
  | .flush, p => serialFlush line p
  | .enableReceive rflags irq, p => serialEnableReceive line rflags irq p

def session (line : Line) : List Op → Port → List Bool × Port
  | [], p => ([], p)
  | op :: ops, p =>
    let r := perform line op p
    let rest := session line ops r.2
    (r.1 :: rest.1, rest.2)

/-- Receiving is enabled right after a flush that succeeded; `flushed` tells whether one just did. -/
def InOrder (line : Line) : Bool → List Op → Port → Prop
  | _, [], _ => True
  | flushed, op :: ops, p =>
    (∀ rflags irq, op = .enableReceive rflags irq → flushed = true) ∧
      InOrder line (match op with | .flush => (perform line op p).1 | _ => false) ops (perform line op p).2

inductive Emits : List Op → List Bool → List UInt8 → Prop where
  | nil : Emits [] [] []
  | whole {ops : List Op} {answers : List Bool} {bytes : List UInt8} (text : List UInt8) (rest : Emits ops answers bytes) :
      Emits (.write text :: ops) (true :: answers) (expand text ++ bytes)
  | part {ops : List Op} {answers : List Bool} {bytes : List UInt8} (text part : List UInt8)
      (hpre : part <+: expand text) (hne : part ≠ expand text) (rest : Emits ops answers bytes) :
      Emits (.write text :: ops) (false :: answers) (part ++ bytes)
  | flush {ops : List Op} {answers : List Bool} {bytes : List UInt8} (answer : Bool) (rest : Emits ops answers bytes) :
      Emits (.flush :: ops) (answer :: answers) bytes
  | enableReceive {ops : List Op} {answers : List Bool} {bytes : List UInt8} (rflags : ℕ) (irq answer : Bool)
      (rest : Emits ops answers bytes) : Emits (.enableReceive rflags irq :: ops) (answer :: answers) bytes

def texts : List Op → List UInt8
  | [] => []
  | .write text :: ops => text ++ texts ops
  | _ :: ops => texts ops

theorem expand_append (text text' : List UInt8) : expand (text ++ text') = expand text ++ expand text' := by
  induction text with
  | nil => rfl
  | cons c text ih => rw [List.cons_append, expand, expand, ih, List.append_assoc]

theorem Emits.complete {ops : List Op} {answers : List Bool} {bytes : List UInt8} (h : Emits ops answers bytes)
    (hall : ∀ answer ∈ answers, answer = true) : bytes = expand (texts ops) := by
  induction h with
  | nil => rfl
  | whole text _ ih => rw [texts, expand_append, ih fun a ha => hall a (List.mem_cons_of_mem _ ha)]
  | part text _ _ _ _ _ => exact absurd (hall false (by simp)) (by simp)
  | flush answer _ ih => exact ih fun a ha => hall a (List.mem_cons_of_mem _ ha)
  | enableReceive rflags irq answer _ ih => exact ih fun a ha => hall a (List.mem_cons_of_mem _ ha)

theorem outb_idle (hp : p.uart.Open) (hi : p.uart.idle = true) (line : Line) (offset : ℕ) (value : UInt8)
    (hoffset : offset ≠ 0) (hopen : ∀ u : Uart, u.Open → (u.write offset value).Open) :
    Sends [] p (outb line offset value p) ∧ (outb line offset value p).uart.idle = true := by
  have hcalm := arrive_calm (hp.settled line)
  have hidle := hcalm.idle hi
  obtain ⟨hstill, hwire, hlost⟩ := write_idle hidle value (fun h => absurd h hoffset)
  have hsent : ∀ u : Uart, u.idle = true → u.sent = u.wire := by
    intro u hu
    simp only [Uart.idle, Bool.and_eq_true, Option.isNone_iff_eq_none] at hu
    simp [Uart.sent, hu]
  refine ⟨⟨?_, ?_, hopen _ (hcalm.open hp)⟩, hstill⟩
  · change ((arrive line p).uart.write offset value).sent = _
    rw [hsent _ hstill, hwire, ← hsent _ hidle, hcalm.sent, List.append_nil]
  · change ((arrive line p).uart.write offset value).lost = _
    rw [hlost, hcalm.lost]

theorem serialEnableReceive_sends (hp : p.uart.Open) (hi : p.uart.idle = true) (line : Line) (rflags : ℕ) (irq : Bool) :
    Sends [] p (serialEnableReceive line rflags irq p).2 := by
  have hloop : ((0x0b : UInt8) &&& 0x10 != 0) = false := by decide
  have hfifo : ∀ u : Uart, u.Open → (u.write 2 0x07).Open := fun u hu => ⟨hu.latch, hu.loopback⟩
  have hmodem : ∀ u : Uart, u.Open → (u.write 4 0x0b).Open := fun u hu => ⟨hu.latch, hloop⟩
  have hirq : ∀ u : Uart, u.Open → (u.write 1 0x05).Open := fun u hu => (write_interrupt_calm hu 0x05).open hu
  unfold serialEnableReceive
  split
  · exact .nothing (Calm.refl _) hp
  · split
    · exact .nothing (Calm.refl _) hp
    · generalize hfresh : ({ p with serial := { p.serial with ring := rxReset p.serial.ring } } : Port) = p1
      have huart : p1.uart = p.uart := by rw [← hfresh]
      have hstart : Sends [] p p1 := .nothing (by rw [huart]; exact Calm.refl _) hp
      obtain ⟨h2, hidle2⟩ := outb_idle (p := p1) (by rw [huart]; exact hp) (by rw [huart]; exact hi) line 2 7
        (by decide) hfifo
      obtain ⟨h3, hidle3⟩ := outb_idle h2.opened hidle2 line 4 0x0b (by decide) hmodem
      simp only
      generalize outb line 4 0x0b (outb line 2 0x07 p1) = p3 at h3 hidle3 ⊢
      have h4 : Sends [] p3 { p3 with serial := { p3.serial with receiveEnabled := true } } :=
        .nothing (Calm.refl _) h3.opened
      obtain ⟨h5, -⟩ := outb_idle h4.opened hidle3 line 1 5 (by decide) hirq
      exact (((hstart.trans h2).trans h3).trans h4).trans h5

theorem session_emits {flushed : Bool} (hp : p.uart.Open) (hflushed : flushed = true → p.uart.idle = true)
    (ops : List Op) (hops : InOrder line flushed ops p) :
    ∃ bytes, Emits ops (session line ops p).1 bytes ∧ Sends bytes p (session line ops p).2 := by
  induction ops generalizing p flushed with
  | nil => exact ⟨[], .nil, .nothing (Calm.refl _) hp⟩
  | cons op ops ih =>
    obtain ⟨hready, hrest⟩ := hops
    cases op with
    | write text =>
      have hwritten := serialWrite_written hp line text
      unfold session
      change InOrder line false ops (serialWrite line text p).2 at hrest
      simp only [perform]
      rcases hres : serialWrite line text p with ⟨ok, q⟩
      rw [hres] at hwritten hrest
      cases ok with
      | true =>
        have hsends := hwritten.done rfl
        obtain ⟨bytes, hemits, hafter⟩ := ih hsends.opened (by simp) hrest
        exact ⟨expand text ++ bytes, .whole text hemits, hsends.trans hafter⟩
      | false =>
        obtain ⟨part, hpre, hne, hsends, -⟩ := hwritten.failed rfl
        obtain ⟨bytes, hemits, hafter⟩ := ih hsends.opened (by simp) hrest
        exact ⟨part ++ bytes, .part text part hpre hne hemits, hsends.trans hafter⟩
    | flush =>
      have hwait := waitStatus_waited (hp.settled line) 0x40
      unfold session
      change InOrder line (serialFlush line p).1 ops (serialFlush line p).2 at hrest
      simp only [perform]
      rw [← serialFlush] at hwait
      rcases hres : serialFlush line p with ⟨ok, q⟩
      rw [hres] at hwait hrest
      have hsends := hwait.sends hp
      obtain ⟨bytes, hemits, hafter⟩ := ih hsends.opened (fun hok => hwait.idle hok rfl) hrest
      exact ⟨bytes, .flush ok hemits, hsends.trans hafter⟩
    | enableReceive rflags irq =>
      have hsends := serialEnableReceive_sends hp (hflushed (hready rflags irq rfl)) line rflags irq
      unfold session
      change InOrder line false ops (serialEnableReceive line rflags irq p).2 at hrest
      simp only [perform]
      obtain ⟨bytes, hemits, hafter⟩ := ih hsends.opened (by simp) hrest
      exact ⟨bytes, .enableReceive rflags irq _ hemits, hsends.trans hafter⟩

theorem session_append (line : Line) (before after : List Op) (p : Port) :
    session line (before ++ after) p = ((session line before p).1 ++ (session line after (session line before p).2).1,
      (session line after (session line before p).2).2) := by
  induction before generalizing p with
  | nil => rfl
  | cons op before ih =>
    rw [List.cons_append, session, session, ih]
    rfl

theorem inOrder_plain (line : Line) (flushed : Bool) (ops : List Op) (p : Port)
    (h : ∀ rflags irq, Op.enableReceive rflags irq ∉ ops) : InOrder line flushed ops p := by
  induction ops generalizing p flushed with
  | nil => trivial
  | cons op ops ih =>
    refine ⟨fun rflags irq heq => ?_, ih _ _ fun rflags irq hmem => h rflags irq (List.mem_cons_of_mem _ hmem)⟩
    exact absurd (heq ▸ List.mem_cons_self ..) (h rflags irq)

theorem inOrder_append {flushed : Bool} {before after : List Op} (h : InOrder line flushed (before ++ after) p) :
    InOrder line flushed before p := by
  induction before generalizing p flushed with
  | nil => trivial
  | cons op before ih => exact ⟨h.1, ih h.2⟩

structure Transmits (line : Line) (p0 p : Port) (ops : List Op) : Prop where
  emitted : ∃ bytes, Emits ops (session line ops p).1 bytes ∧ (session line ops p).2.uart.sent = p0.uart.sent ++ bytes
  lost : (session line ops p).2.uart.lost = p0.uart.lost
  complete : (∀ answer ∈ (session line ops p).1, answer = true) →
    collapse ((session line ops p).2.uart.sent.drop p0.uart.sent.length) = texts ops
  refused : ∀ before text after, ops = before ++ .write text :: after →
    (serialWrite line text (session line before p).2).1 = false →
    GaveUp 0x20 (serialWrite line text (session line before p).2).2.reads
  flushed : ∀ before, ops = before ++ [.flush] → (serialFlush line (session line before p).2).1 = true →
    (session line ops p).2.uart.wire = (session line ops p).2.uart.sent

/-- After `serial_init` every text leaves the transmitter once and in order behind what the loader had
    left there, whatever the device's pace and wherever interrupts come in. `serial_enable_receive`
    clears the transmitter too, so it has to follow a flush. -/
theorem transmission_faithful (pace : ℕ → ℕ × UInt8) (line : Line) (p0 : Port) (ops : List Op)
    (hinit : (serialInit (quiet pace) p0).1 = true)
    (hops : InOrder line false ops (serialInit (quiet pace) p0).2) :
    Transmits line p0 (serialInit (quiet pace) p0).2 ops := by
  have hprepared := (serialInit_prepared pace p0).1 hinit
  have hopen := hprepared.open
  have hstart := hprepared.sent_eq
  have hnone := hprepared.lost
  generalize (serialInit (quiet pace) p0).2 = p at hopen hstart hnone hops ⊢
  obtain ⟨bytes, hemits, hsends⟩ := session_emits hopen (by simp) ops hops
  refine ⟨⟨bytes, hemits, by rw [hsends.sent, hstart]⟩, by rw [hsends.lost, hnone], ?_, ?_, ?_⟩
  · intro hall
    rw [hsends.sent, hstart, List.drop_left, hemits.complete hall, collapse_expand]
  · rintro before text after rfl hno
    obtain ⟨_, _, hbefore⟩ := session_emits hopen (by simp) before (inOrder_append hops)
    obtain ⟨-, -, -, -, hgave⟩ := (serialWrite_written hbefore.opened line text).failed hno
    exact hgave
  · rintro before rfl hok
    obtain ⟨_, _, hbefore⟩ := session_emits hopen (by simp) before (inOrder_append hops)
    have hidle := (waitStatus_waited (hbefore.opened.settled line) 0x40).idle hok rfl
    rw [session_append]
    change (serialFlush line (session line before p).2).2.uart.wire = (serialFlush line (session line before p).2).2.uart.sent
    change (serialFlush line (session line before p).2).2.uart.idle = true at hidle
    simp only [Uart.idle, Bool.and_eq_true, Option.isNone_iff_eq_none] at hidle
    simp [Uart.sent, hidle]

/-- A slow transmitter with a byte of the loader in it, and no interrupts. -/
def samplePort : Port where
  serial := ⟨⟨fun _ => 0, 0, 0, false⟩, false, 0, 0, 0, []⟩
  uart := ⟨0x83, 0, 0, 0, 0, 0, some 65, none, [], false⟩
  accesses := 0
  reads := []

def sampleLine : Line := quiet fun _ => (1, 0)

def sampleOps : List Op := [.write [111, 107, 10], .flush, .enableReceive 2 true, .write [33], .flush]

theorem sample_transmits : Transmits sampleLine samplePort (serialInit sampleLine samplePort).2 sampleOps := by
  refine transmission_faithful (fun _ => (1, 0)) sampleLine samplePort sampleOps (by decide +kernel)
    ⟨nofun, nofun, fun _ _ _ => ?_, nofun, nofun, trivial⟩
  decide +kernel

end Sessions

section Progress

variable {p : Port} {pace : ℕ → ℕ × UInt8} {mask : UInt8}

/-- A device answers, and it moves between any two accesses. -/
structure Keen (pace : ℕ → ℕ × UInt8) : Prop where
  moves : ∀ k, 1 ≤ (pace k).1
  answers : ∀ k, (pace k).2 &&& 0x9f ≠ 0x9f

def Uart.load (u : Uart) : ℕ := 2 * u.holding.toList.length + u.shift.toList.length

theorem load_le (u : Uart) : u.load ≤ 3 := by
  unfold Uart.load
  cases u.holding <;> cases u.shift <;> simp

theorem tick_load (u : Uart) : u.tick.load = u.load - 1 := by
  unfold Uart.tick Uart.load
  cases hs : u.shift with
  | some byte => simp
  | none =>
    cases hh : u.holding with
    | none => simp [hs, hh]
    | some byte => simp

theorem ticks_load (n : ℕ) (p : Port) :
    ((List.replicate n Happening.tick).foldl happen p).uart.load = p.uart.load - n := by
  induction n generalizing p with
  | zero => rfl
  | succ n ih =>
    rw [List.replicate_succ, List.foldl_cons, ih]
    change p.uart.tick.load - n = _
    rw [tick_load]
    omega

theorem status_answers {noise : UInt8} (h : noise &&& 0x9f ≠ 0x9f) (u : Uart) : u.status noise ≠ 0xff := by
  intro hff
  have hrest : u.status noise &&& 0x9f = noise &&& 0x9f := by
    have h20 : (if u.holding.isNone then 0x20 else 0 : UInt8) &&& 0x9f = 0 := by split <;> rfl
    have h40 : (if u.idle then 0x40 else 0 : UInt8) &&& 0x9f = 0 := by split <;> rfl
    rw [Uart.status, or_and_distrib, or_and_distrib, h20, h40, UInt8.and_assoc, UInt8.or_zero, UInt8.or_zero]
    rfl
  rw [hff] at hrest
  exact h hrest.symm

theorem status_empty {u : Uart} (h : u.load = 0) (hmask : mask = 0x20 ∨ mask = 0x40) (noise : UInt8) :
    u.status noise &&& mask = mask := by
  have hholding : u.holding = none := by
    cases hh : u.holding with
    | none => rfl
    | some byte => simp [Uart.load, hh] at h
  have hshift : u.shift = none := by
    cases hs : u.shift with
    | none => rfl
    | some byte => simp [Uart.load, hs] at h
  rcases hmask with rfl | rfl
  · rw [status_holding, hholding]
    rfl
  · rw [status_idle, Uart.idle, hholding, hshift]
    rfl

theorem waitFrom_keen (hpace : Keen pace) (hmask : mask = 0x20 ∨ mask = 0x40) {left : ℕ} (hleft : p.uart.load ≤ left)
    (hpos : 0 < left) : (waitFrom (quiet pace) mask left p).1 = true := by
  induction left generalizing p with
  | zero => omega
  | succ left ih =>
    have hload : (arrive (quiet pace) p).uart.load = p.uart.load - (pace p.accesses).1 := ticks_load _ p
    have hmoves := hpace.moves p.accesses
    have hanswers := status_answers (hpace.answers p.accesses) (arrive (quiet pace) p).uart
    have hempty : (arrive (quiet pace) p).uart.load = 0 →
        (arrive (quiet pace) p).uart.status (pace p.accesses).2 &&& mask = mask := fun h => status_empty h hmask _
    rw [waitFrom]
    unfold inbStatus
    change (arrive (quiet pace) p).uart.status ((quiet pace) p.accesses).2 ≠ 0xff at hanswers
    change _ → (arrive (quiet pace) p).uart.status ((quiet pace) p.accesses).2 &&& mask = mask at hempty
    generalize (arrive (quiet pace) p).uart.status ((quiet pace) p.accesses).2 = status at hanswers hempty
    simp only
    rw [if_neg (by simpa using hanswers)]
    generalize hq : (if (arrive (quiet pace) p).serial.receiveEnabled && lineError status then
      ({ arrive (quiet pace) p with
        serial := receiveError (arrive (quiet pace) p).serial, reads := p.reads ++ [status] } : Port)
      else { arrive (quiet pace) p with reads := p.reads ++ [status] }) = q
    have huart : q.uart = (arrive (quiet pace) p).uart := by
      rw [← hq]
      split <;> rfl
    split
    · rfl
    · rename_i hno
      have hmore : (arrive (quiet pace) p).uart.load ≠ 0 := fun h => hno (by simpa using hempty h)
      rw [← huart] at hload hmore
      exact ih (by omega) (by omega)

theorem waitStatus_keen (hpace : Keen pace) (hmask : mask = 0x20 ∨ mask = 0x40) (p : Port) :
    (waitStatus (quiet pace) mask p).1 = true :=
  waitFrom_keen hpace hmask ((load_le p.uart).trans (by decide)) (by decide)

theorem putByte_keen (hpace : Keen pace) (value : UInt8) (p : Port) : (putByte (quiet pace) value p).1 = true := by
  have hwait := waitStatus_keen hpace (.inl rfl) p
  unfold putByte
  simp only [hwait, Bool.not_true, Bool.false_eq_true, if_false]

theorem serialWrite_keen (hpace : Keen pace) (text : List UInt8) (p : Port) :
    (serialWrite (quiet pace) text p).1 = true := by
  induction text generalizing p with
  | nil => rfl
  | cons c text ih =>
    have hcr : (if c == 10 then putByte (quiet pace) 13 p else (true, p)).1 = true := by
      split
      · exact putByte_keen hpace 13 p
      · rfl
    rw [serialWrite]
    generalize (if c == 10 then putByte (quiet pace) 13 p else (true, p)) = s at hcr
    have hchar := putByte_keen hpace c s.2
    simp only [hcr, hchar, Bool.not_true, Bool.false_eq_true, if_false]
    exact ih _

theorem session_keen (hpace : Keen pace) (ops : List Op) (hops : ∀ rflags irq, Op.enableReceive rflags irq ∉ ops)
    (p : Port) : ∀ answer ∈ (session (quiet pace) ops p).1, answer = true := by
  induction ops generalizing p with
  | nil => exact nofun
  | cons op ops ih =>
    have hop : (perform (quiet pace) op p).1 = true := by
      cases op with
      | write text => exact serialWrite_keen hpace text p
      | flush => exact waitStatus_keen hpace (.inr rfl) p
      | enableReceive rflags irq => exact absurd (List.mem_cons_self ..) (hops rflags irq)
    intro answer ha
    rcases List.mem_cons.mp ha with rfl | ha
    · exact hop
    · exact ih (fun rflags irq hmem => hops rflags irq (List.mem_cons_of_mem _ hmem)) _ answer ha

end Progress

end OsByAi.SerialTransmit
