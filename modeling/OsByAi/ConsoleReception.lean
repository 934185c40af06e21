import OsByAi.ReceiveRing
import OsByAi.ConsoleDiscipline

set_option autoImplicit false

namespace OsByAi.ConsoleReception
open LossyFifo ReceiveRing ConsoleModel ConsoleDiscipline

/-- What happens next. Reading is done with interrupts off, handling with interrupts on, so
    receive events fall between the two as well. -/
inductive Event where
  | push (byte : UInt8)
  | fail
  | read
  | handle (counters : Counters)

/-- `pending` is a result of `serial_read` that is not handled yet. -/
structure System where
  ring : RxBuffer
  editor : LineEditor
  pending : Option (Answer UInt8)
  halted : Bool

def loseInput (e : LineEditor) : LineEditor := { e with discard := true, escape := 0, afterCr := false }

/-- The part of an iteration of `console_run` after `serial_read`. -/
def handle (counters : Counters) (s : System) : System × List Effect :=
  match s.pending with
  | some (.item byte) =>
    let r := acceptInput counters s.editor byte
    ({ s with editor := r.editor, pending := none, halted := r.halted }, r.effects)
  | some .lost => ({ s with editor := loseInput s.editor, pending := none }, [])
  | _ => ({ s with pending := none }, [])

/-- `serial_read`; on `0` the processor sleeps and the loop starts over. -/
def poll (s : System) : System :=
  let r := rxRead 0 s.ring
  { s with
    ring := r.2.2
    pending := if answer r = .empty then none else some (answer r) }

def step (s : System) : Event → System
  | .push byte => { s with ring := (rxPush byte s.ring).2 }
  | .fail => { s with ring := rxFail s.ring }
  | .read => if s.halted || s.pending.isSome then s else poll s
  | .handle counters => if s.halted then s else (handle counters s).1

inductive Arrival where
  | byte (b : UInt8)
  | loss
deriving DecidableEq

/-- A call of `execute`: the bytes handled since the previous line end, the arrivals from
    `start` up to `stop`, and whether `serial_read` reported a loss in between. -/
structure Execution where
  text : List UInt8
  bytes : List UInt8
  start : ℕ
  stop : ℕ
  lost : Bool

/-- `waiting` holds the numbers of the bytes that were accepted and neither read nor lost, `taken`
    counts the arrivals up to the last one read, `lineStart` those up to the previous line end. -/
structure Ledger where
  arrivals : List Arrival
  waiting : List ℕ
  taken : ℕ
  lineStart : ℕ
  handled : List UInt8
  lost : Bool
  executions : List Execution

def Ledger.blank : Ledger := ⟨[], [], 0, 0, [], false, []⟩

/-- A line ends with Ctrl-C, CR, or an LF that does not belong to a CR. -/
def endsLine (e : LineEditor) (byte : UInt8) : Bool := byte = 3 || byte = 13 || (byte = 10 && !e.afterCr)

def Ledger.arrive (l : Ledger) (accepted : Bool) (byte : UInt8) : Ledger :=
  if accepted then
    { l with
      arrivals := l.arrivals ++ [.byte byte]
      waiting := l.waiting ++ [l.arrivals.length] }
  else { l with arrivals := l.arrivals ++ [.loss], waiting := [] }

def Ledger.take (l : Ledger) : Answer UInt8 → Ledger
  | .empty => l
  | .lost => { l with taken := l.arrivals.length, lost := true }
  | .item _ => { l with taken := l.waiting.headD 0 + 1, waiting := l.waiting.tail }

/-- `bytes` are those of the line so far, the one just handled included. -/
def Ledger.close (l : Ledger) (ends : Bool) (bytes : List UInt8) (effects : List Effect) : Ledger :=
  { l with
    executions := l.executions ++
      (effects.filterMap executed).map fun text => ⟨text, bytes, l.lineStart, l.taken, l.lost⟩
    lineStart := if ends then l.taken else l.lineStart
    handled := if ends then [] else bytes
    lost := l.lost && !ends }

def record (s : System) (l : Ledger) : Event → Ledger
  | .push byte => l.arrive (rxPush byte s.ring).1 byte
  | .fail => l.arrive false 0
  | .read => if s.halted || s.pending.isSome then l else l.take (answer (rxRead 0 s.ring))
  | .handle counters =>
    if s.halted then l else
    match s.pending with
    | some (.item byte) =>
      l.close (endsLine s.editor byte) (l.handled ++ [byte]) (handle counters s).2
    | _ => l

def next (x : System × Ledger) (e : Event) : System × Ledger := (step x.1 e, record x.1 x.2 e)

/-- Reception was just enabled and the console has not read anything. -/
def boot (ring : RxBuffer) (line : ℕ → UInt8) : System × Ledger :=
  (⟨rxReset ring, ConsoleModel.start line, none, false⟩, Ledger.blank)

def run (x : System × Ledger) (events : List Event) : System × Ledger := events.foldl next x

/-- The line is made of consecutive arrivals, none of them a loss. -/
structure Complete (arrivals : List Arrival) (x : Execution) : Prop where
  notLost : x.lost = false
  bounds : x.start ≤ x.stop ∧ x.stop ≤ arrivals.length
  consecutive : (arrivals.take x.stop).drop x.start = x.bytes.map .byte
  ended : ∃ front b, x.bytes = front ++ [b] ∧ (b = 13 ∨ b = 10)

section Editor

variable {counters : Counters} {e : LineEditor} {b : UInt8}

theorem finishLine_executed (h : (finishLine counters e).effects.filterMap executed ≠ []) :
    e.discard = false := by
  by_contra hd
  have hd' : e.discard = true := by simpa using hd
  rw [finishLine, if_pos hd'] at h
  exact h rfl

theorem editCharacter_executed (e : LineEditor) (b : UInt8) :
    (editCharacter e b).2.filterMap executed = [] := by
  unfold editCharacter
  split
  · rfl
  · simp only
    split
    · rfl
    · unfold editPlain
      split
      · split
        · rfl
        · rfl
      · split
        · rfl
        · split
          · rfl
          · rfl

theorem acceptInput_executed (h : (acceptInput counters e b).effects.filterMap executed ≠ []) :
    e.discard = false ∧ endsLine e b = true ∧ (b = 13 ∨ b = 10) := by
  unfold acceptInput at h
  by_cases hlf : b = 10 ∧ e.afterCr = true
  · rw [if_pos hlf] at h
    exact absurd rfl h
  · rw [if_neg hlf] at h
    by_cases h3 : b = 3
    · rw [if_pos h3] at h
      exact absurd rfl h
    · rw [if_neg h3] at h
      by_cases hend : b = 13 ∨ b = 10
      · rw [if_pos hend] at h
        have hd := finishLine_executed h
        refine ⟨hd, ?_, hend⟩
        rcases hend with h13 | h10
        · simp [endsLine, h13]
        · have hcr : e.afterCr = false := by
            by_contra hc
            exact hlf ⟨h10, by simpa using hc⟩
          simp [endsLine, h10, hcr]
      · rw [if_neg hend] at h
        exact absurd (editCharacter_executed _ b) h

theorem editCharacter_discard (h : e.discard = true) : (editCharacter e b).1.discard = true := by
  rw [editCharacter, if_pos h]
  exact h

theorem acceptInput_discard (h : e.discard = true) (hb : endsLine e b = false) :
    (acceptInput counters e b).editor.discard = true := by
  simp only [endsLine, Bool.or_eq_false_iff, decide_eq_false_iff_not, Bool.and_eq_false_iff,
    Bool.not_eq_false'] at hb
  obtain ⟨⟨h3, h13⟩, h10⟩ := hb
  unfold acceptInput
  by_cases hlf : b = 10 ∧ e.afterCr = true
  · rw [if_pos hlf]
    exact h
  · rw [if_neg hlf, if_neg h3]
    have hend : ¬ (b = 13 ∨ b = 10) := by
      rintro (he | he)
      · exact h13 he
      · exact hlf ⟨he, h10.resolve_left fun hn => hn he⟩
    rw [if_neg hend]
    exact editCharacter_discard h

end Editor

def pendingBytes (s : System) : List UInt8 :=
  match s.pending with
  | some (.item b) => [b]
  | _ => []

structure Inv (s : System) (l : Ledger) : Prop where
  ring : ReceiveRing.Inv s.ring
  failed : s.ring.failed = true → l.waiting = []
  queue : s.ring.failed = false → l.waiting = List.range' l.taken (contents s.ring).length ∧
    l.arrivals.drop l.taken = (contents s.ring).map .byte
  taken_le : l.taken ≤ l.arrivals.length
  line : l.lost = false → l.lineStart ≤ l.taken ∧
    (l.arrivals.take l.taken).drop l.lineStart = (l.handled ++ pendingBytes s).map .byte
  discard : l.lost = true → s.editor.discard = true ∨ s.pending = some .lost
  complete : ∀ x ∈ l.executions, Complete l.arrivals x

theorem Complete.append {arrivals : List Arrival} {x : Execution} (h : Complete arrivals x)
    (more : List Arrival) : Complete (arrivals ++ more) x where
  notLost := h.notLost
  bounds := ⟨h.bounds.1, h.bounds.2.trans (by simp)⟩
  consecutive := by
    rw [List.take_append_of_le_length h.bounds.2]
    exact h.consecutive
  ended := h.ended

section Steps

variable {s : System} {l : Ledger}

theorem boot_inv (ring : RxBuffer) (line : ℕ → UInt8) : Inv (boot ring line).1 (boot ring line).2 where
  ring := reset_inv ring
  failed hf := absurd hf (by simp [boot, rxReset])
  queue _ := by
    have hc : contents (boot ring line).1.ring = [] := reset_contents ring
    rw [hc]
    exact ⟨rfl, rfl⟩
  taken_le := le_refl _
  line _ := ⟨le_refl _, rfl⟩
  discard hl := absurd hl (by simp [boot, Ledger.blank])
  complete x hx := absurd hx (by simp [boot, Ledger.blank])

theorem line_append (h : Inv s l) (more : List Arrival) (hl : l.lost = false) :
    l.lineStart ≤ l.taken ∧ ((l.arrivals ++ more).take l.taken).drop l.lineStart =
      (l.handled ++ pendingBytes s).map .byte := by
  obtain ⟨hle, heq⟩ := h.line hl
  refine ⟨hle, ?_⟩
  rw [List.take_append_of_le_length h.taken_le]
  exact heq

theorem inv_loss (h : Inv s l) {ring : RxBuffer} (hring : ReceiveRing.Inv ring)
    (hf : ring.failed = true) (byte : UInt8) : Inv { s with ring := ring } (l.arrive false byte) where
  ring := hring
  failed _ := rfl
  queue hno := absurd (hf.symm.trans hno) (by simp)
  taken_le := h.taken_le.trans (by simp [Ledger.arrive])
  line hl := line_append h [.loss] hl
  discard hl := h.discard hl
  complete x hx := (h.complete x hx).append [.loss]

theorem inv_accept (h : Inv s l) {ring : RxBuffer} (hring : ReceiveRing.Inv ring) {byte : UInt8}
    (hold : s.ring.failed = false) (hnew : ring.failed = false)
    (hc : contents ring = contents s.ring ++ [byte]) :
    Inv { s with ring := ring } (l.arrive true byte) where
  ring := hring
  failed hf := absurd (hnew.symm.trans hf) (by simp)
  queue _ := by
    obtain ⟨hw, hd⟩ := h.queue hold
    have hlen : l.taken + (contents s.ring).length = l.arrivals.length := by
      have := congrArg List.length hd
      rw [List.length_drop, List.length_map] at this
      have := h.taken_le
      omega
    refine ⟨?_, ?_⟩
    · change l.waiting ++ [l.arrivals.length] = List.range' l.taken (contents ring).length
      rw [hc, hw, List.length_append, List.length_singleton, List.range'_1_concat, hlen]
    · change (l.arrivals ++ [Arrival.byte byte]).drop l.taken = (contents ring).map Arrival.byte
      rw [hc, List.drop_append_of_le_length h.taken_le, hd, List.map_append, List.map_singleton]
  taken_le := h.taken_le.trans (by simp [Ledger.arrive])
  line hl := line_append h [.byte byte] hl
  discard hl := h.discard hl
  complete x hx := (h.complete x hx).append [.byte byte]

theorem push_cases (h : ReceiveRing.Inv s.ring) (byte : UInt8) :
    ((rxPush byte s.ring).1 = false ∧ (rxPush byte s.ring).2.failed = true) ∨
    ((rxPush byte s.ring).1 = true ∧ s.ring.failed = false ∧ (rxPush byte s.ring).2.failed = false ∧
      contents (rxPush byte s.ring).2 = contents s.ring ++ [byte]) := by
  unfold rxPush
  by_cases hf : s.ring.failed = true
  · rw [if_pos hf]
    exact .inl ⟨rfl, hf⟩
  · have hf' : s.ring.failed = false := by simpa using hf
    rw [if_neg hf]
    by_cases hfull : (s.ring.head + 1) % rxCapacity = s.ring.tail
    · rw [if_pos hfull]
      exact .inl ⟨rfl, rfl⟩
    · rw [if_neg hfull]
      have hcount : count s.ring < 255 := by
        have := mt h.full_iff.mpr hfull
        have := h.count_le
        omega
      exact .inr ⟨rfl, hf', hf', contents_push h byte hcount⟩

theorem inv_push (h : Inv s l) (byte : UInt8) :
    Inv (step s (.push byte)) (record s l (.push byte)) := by
  obtain ⟨hok, hf⟩ | ⟨hok, hold, hnew, hc⟩ := push_cases h.ring byte
  · rw [step, record, hok]
    exact inv_loss h (push_inv h.ring byte) hf byte
  · rw [step, record, hok]
    exact inv_accept h (push_inv h.ring byte) hold hnew hc

theorem inv_fail (h : Inv s l) : Inv (step s .fail) (record s l .fail) :=
  inv_loss h (fail_inv s.ring) rfl 0

theorem inv_lost (h : Inv s l) (hf : s.ring.failed = true) {ring : RxBuffer}
    (hring : ReceiveRing.Inv ring) (hnew : ring.failed = false) (hc : contents ring = []) :
    Inv { s with ring := ring, pending := some .lost } (l.take .lost) where
  ring := hring
  failed hf' := absurd (hnew.symm.trans hf') (by simp)
  queue _ := by
    change l.waiting = List.range' l.arrivals.length (contents ring).length ∧
      l.arrivals.drop l.arrivals.length = (contents ring).map Arrival.byte
    rw [hc, h.failed hf, List.drop_length]
    exact ⟨rfl, rfl⟩
  taken_le := le_refl _
  line hl := absurd hl (by simp [Ledger.take])
  discard _ := .inr rfl
  complete := h.complete

theorem inv_item (h : Inv s l) (hnone : s.pending = none) (hold : s.ring.failed = false)
    {ring : RxBuffer} (hring : ReceiveRing.Inv ring) (hnew : ring.failed = false) {b : UInt8}
    (hc : contents s.ring = b :: contents ring) :
    Inv { s with ring := ring, pending := some (.item b) } (l.take (.item b)) := by
  obtain ⟨hw, hd⟩ := h.queue hold
  rw [hc] at hw hd
  rw [List.length_cons, List.range'_succ] at hw
  rw [List.map_cons] at hd
  have hlt : l.taken < l.arrivals.length := by
    have := congrArg List.length hd
    rw [List.length_drop, List.length_cons] at this
    omega
  have hdrop : l.arrivals.drop (l.taken + 1) = (contents ring).map Arrival.byte := by
    rw [← List.tail_drop, hd, List.tail_cons]
  have hget : l.arrivals.take (l.taken + 1) = l.arrivals.take l.taken ++ [Arrival.byte b] := by
    have hhead := List.getElem_cons_drop hlt
    rw [hd] at hhead
    rw [List.take_add_one, List.getElem?_eq_getElem hlt, (List.cons.inj hhead).1]
    rfl
  have htake : l.take (.item b) =
      { l with taken := l.taken + 1, waiting := List.range' (l.taken + 1) (contents ring).length } := by
    rw [Ledger.take, hw]
    rfl
  rw [htake]
  refine ⟨hring, fun hf => absurd (hnew.symm.trans hf) (by simp), fun _ => ⟨rfl, hdrop⟩, hlt, ?_,
    fun hl => .inl ((h.discard hl).resolve_right (by rw [hnone]; simp)), h.complete⟩
  intro hl
  obtain ⟨hle, heq⟩ := h.line hl
  refine ⟨hle.trans (Nat.le_succ _), ?_⟩
  change (l.arrivals.take (l.taken + 1)).drop l.lineStart = (l.handled ++ [b]).map Arrival.byte
  have hlen : l.lineStart ≤ (l.arrivals.take l.taken).length := by
    rw [List.length_take]
    omega
  have hpend : pendingBytes s = [] := by rw [pendingBytes, hnone]
  rw [hpend, List.append_nil] at heq
  rw [hget, List.drop_append_of_le_length hlen, heq, List.map_append, List.map_singleton]

theorem inv_read (h : Inv s l) : Inv (step s .read) (record s l .read) := by
  simp only [step, record]
  by_cases hskip : (s.halted || s.pending.isSome) = true
  · rw [if_pos hskip, if_pos hskip]
    exact h
  · rw [if_neg hskip, if_neg hskip]
    have hnone : s.pending = none := by
      simp only [Bool.or_eq_true, not_or, Bool.not_eq_true, Option.isSome_eq_false_iff,
        Option.isNone_iff_eq_none] at hskip
      exact hskip.2
    have hring := read_inv h.ring 0
    unfold poll
    obtain ⟨hf, hr⟩ | ⟨-, -, hr⟩ | ⟨b, ring, hold, hnew, hc, hr⟩ := h.ring.read_cases 0
    · have ha : answer (-1, 0, rxReset s.ring) = .lost := rfl
      rw [hr] at hring ⊢
      simp only [ha, reduceCtorEq, if_false]
      exact inv_lost h hf hring rfl (reset_contents s.ring)
    · have ha : answer (0, 0, s.ring) = .empty := rfl
      rw [hr]
      simp only [ha, if_true]
      rw [← hnone]
      exact h
    · have ha : answer (1, b, ring) = .item b := rfl
      rw [hr] at hring ⊢
      simp only [ha, reduceCtorEq, if_false]
      exact inv_item h hnone hold hring hnew hc

theorem inv_handleByte (h : Inv s l) {b : UInt8} (hp : s.pending = some (.item b))
    (counters : Counters) :
    Inv { s with
        editor := (acceptInput counters s.editor b).editor
        pending := none
        halted := (acceptInput counters s.editor b).halted }
      (l.close (endsLine s.editor b) (l.handled ++ [b]) (acceptInput counters s.editor b).effects) := by
  have hpend : pendingBytes s = [b] := by rw [pendingBytes, hp]
  have hlost : l.lost = true → s.editor.discard = true := by
    intro hl
    exact (h.discard hl).resolve_right (by rw [hp]; simp)
  refine ⟨h.ring, h.failed, h.queue, h.taken_le, ?_, ?_, ?_⟩
  · intro hl
    cases hend : endsLine s.editor b with
    | true =>
      simp only [Ledger.close, if_true]
      refine ⟨le_refl _, ?_⟩
      have hnil : (l.arrivals.take l.taken).drop l.taken = [] := by
        rw [List.drop_eq_nil_iff, List.length_take]
        omega
      rw [hnil]
      rfl
    | false =>
      simp only [Ledger.close, hend, Bool.not_false, Bool.and_true] at hl
      obtain ⟨hle, heq⟩ := h.line hl
      simp only [Ledger.close, Bool.false_eq_true, if_false]
      refine ⟨hle, ?_⟩
      rw [heq, hpend]
      change _ = ((l.handled ++ [b]) ++ []).map Arrival.byte
      rw [List.append_nil]
  · intro hl
    simp only [Ledger.close, Bool.and_eq_true, Bool.not_eq_true'] at hl
    exact .inl (acceptInput_discard (hlost hl.1) hl.2)
  · intro x hx
    simp only [Ledger.close, List.mem_append] at hx
    rcases hx with hx | hx
    · exact h.complete x hx
    · obtain ⟨text, htext, rfl⟩ := List.mem_map.mp hx
      obtain ⟨hdis, -, hb⟩ := acceptInput_executed (List.ne_nil_of_mem htext)
      have hno : l.lost = false := by
        by_contra hl
        rw [hlost (by simpa using hl)] at hdis
        exact absurd hdis (by simp)
      obtain ⟨hle, heq⟩ := h.line hno
      rw [hpend] at heq
      exact ⟨hno, ⟨hle, h.taken_le⟩, heq, l.handled, b, rfl, hb⟩

theorem inv_handle (h : Inv s l) (counters : Counters) :
    Inv (step s (.handle counters)) (record s l (.handle counters)) := by
  simp only [step, record]
  by_cases hh : s.halted = true
  · rw [if_pos hh, if_pos hh]
    exact h
  · rw [if_neg hh, if_neg hh]
    cases hp : s.pending with
    | none =>
      simp only [handle, hp]
      rw [← hp]
      exact h
    | some a =>
      cases a with
      | empty =>
        simp only [handle, hp]
        refine ⟨h.ring, h.failed, h.queue, h.taken_le, fun hl => ?_, fun hl => ?_, h.complete⟩
        · have := h.line hl
          rw [pendingBytes, hp] at this
          exact this
        · exact .inl ((h.discard hl).resolve_right (by rw [hp]; simp))
      | lost =>
        simp only [handle, hp]
        refine ⟨h.ring, h.failed, h.queue, h.taken_le, fun hl => ?_, fun _ => .inl rfl, h.complete⟩
        have := h.line hl
        rw [pendingBytes, hp] at this
        exact this
      | item b =>
        simp only [handle, hp]
        exact inv_handleByte h hp counters

theorem next_inv {x : System × Ledger} (h : Inv x.1 x.2) (e : Event) : Inv (next x e).1 (next x e).2 := by
  cases e with
  | push byte => exact inv_push h byte
  | fail => exact inv_fail h
  | read => exact inv_read h
  | handle counters => exact inv_handle h counters

theorem run_inv {x : System × Ledger} (events : List Event) (h : Inv x.1 x.2) :
    Inv (run x events).1 (run x events).2 := by
  induction events generalizing x with
  | nil => exact h
  | cons e events ih => exact ih (next_inv h e)

/-- However bytes, failures and the console interleave, a line is executed only when everything
    that arrived since the previous line end was received, read and handled. -/
theorem executed_lines_complete (ring : RxBuffer) (line : ℕ → UInt8) (events : List Event) :
    ∀ x ∈ (run (boot ring line) events).2.executions,
      Complete (run (boot ring line) events).2.arrivals x :=
  (run_inv events (boot_inv ring line)).complete

/-- The line `h`, typed and executed from an uninitialised ring. -/
def typedLine : System × Ledger := run (boot ⟨fun _ => 0, 3, 5, true⟩ fun _ => 7)
  [.push 104, .push 13, .read, .handle ⟨0, 0, 0⟩, .read, .handle ⟨0, 0, 0⟩]

theorem typed_line_complete : ∃ x ∈ typedLine.2.executions, Complete typedLine.2.arrivals x := by
  have hone : 0 < typedLine.2.executions.length := by decide +kernel
  exact ⟨_, List.getElem_mem hone, executed_lines_complete _ _ _ _ (List.getElem_mem hone)⟩

example : (typedLine.2.executions.map fun x => (x.text, x.start, x.stop)) = [([104], 0, 2)] := by decide +kernel

end Steps

end OsByAi.ConsoleReception
