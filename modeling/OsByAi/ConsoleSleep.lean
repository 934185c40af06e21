import OsByAi.ConsoleModel
import OsByAi.SerialModel

set_option autoImplicit false

/-!
# The console sleeps only when there is nothing to read

One processor runs `console_run` an instruction at a time. Interrupts get in between two
instructions when the interrupt flag is set and the last instruction was not the `sti`
that set it. The handlers stand behind interrupt gates and run to their end.
-/
namespace OsByAi.ConsoleSleep
open ReceiveRing SerialModel ConsoleModel

/-- `shadow` holds for one instruction after an `sti` that set the flag. -/
structure Cpu where
  interruptFlag : Bool
  shadow : Bool
  halted : Bool
  timerPending : Bool
  serialPending : Bool

def cli (c : Cpu) : Cpu := { c with interruptFlag := false, shadow := false }

def sti (c : Cpu) : Cpu := { c with interruptFlag := true, shadow := !c.interruptFlag }

def hlt (c : Cpu) : Cpu := { c with halted := true, shadow := false }

def plain (c : Cpu) : Cpu := { c with shadow := false }

def deliverable (c : Cpu) : Bool := c.interruptFlag && !c.shadow

/-- What `wait_status` is called for: a byte of the output, or `serial_flush`. -/
inductive Task where
  | put (byte : UInt8)
  | flush

def Task.mask : Task → UInt8
  | .put _ => 0x20
  | .flush => 0x40

/-- The rest of the work on one byte. `final` marks the `halt` command. -/
structure Work where
  tasks : List Task
  final : Bool

/-- The next instruction. `waiting` is round `i` of `wait_status`; the four after it are
    `receive_error`, with the flags of `x86_irq_save`, then the test of the same line status. -/
inductive Place where
  | disable
  | read
  | enableAndIdle
  | idle
  | enable (status : Int) (byte : UInt8)
  | accept (status : Int) (byte : UInt8)
  | working (work : Work)
  | waiting (task : Task) (work : Work) (i : ℕ)
  | saveFlags (task : Task) (work : Work) (i : ℕ) (status : UInt8)
  | saveDisable (task : Task) (work : Work) (i : ℕ) (status : UInt8) (flag : Bool)
  | failRing (task : Task) (work : Work) (i : ℕ) (status : UInt8) (flag : Bool)
  | restore (task : Task) (work : Work) (i : ℕ) (status : UInt8) (flag : Bool)
  | testStatus (task : Task) (work : Work) (i : ℕ) (status : UInt8)
  | write (byte : UInt8) (work : Work)
  | kernelHalt
  | spin

structure System where
  cpu : Cpu
  serial : Serial
  ticks : ℕ
  editor : LineEditor
  place : Place

/-- `serial_write` sends a carriage return before each newline. -/
def putTasks (text : String) : List Task :=
  text.toList.flatMap fun c =>
    if c = '\n' then [.put 13, .put 10] else [.put (UInt8.ofNat c.toNat)]

def effectTasks : Effect → List Task
  | .output text => putTasks text
  | .discarded => putTasks "Input discarded (line too long or serial error).\n"
  | .store _ => []
  | .execute _ => []
  | .dispatch _ => []

/-- The `halt` command also flushes the output before it disables interrupts. -/
def reactionWork (r : Reaction) : Work :=
  ⟨r.effects.flatMap effectTasks ++ if r.halted then [.flush] else [], r.halted⟩

/-- The body of the loop after `x86_enable_interrupts`. -/
def acceptStatus (counters : Counters) (e : LineEditor) (status : Int) (byte : UInt8) : LineEditor × Work :=
  if status < 0 then ({ e with discard := true, escape := 0, afterCr := false }, ⟨[], false⟩)
  else
    let r := acceptInput counters e byte
    (r.editor, reactionWork r)

def ready (work : Work) : Task → Place
  | .put byte => .write byte work
  | .flush => .working work

/-- Round `i` of `wait_status`. Its callers spin forever when the answer is false. -/
def waitRound (s : Serial) (task : Task) (work : Work) (i : ℕ) (status : UInt8) : Place :=
  if i ≥ pollLimit then .spin
  else if status == 0xff then .spin
  else if s.receiveEnabled && lineError status then .saveFlags task work i status
  else .testStatus task work i status

/-- One instruction. The line status register and the counters of the commands hold what the
    instruction finds there. -/
def execute (status : UInt8) (counters : Counters) (s : System) : System :=
  if s.cpu.halted then s else
    match s.place with
    | .disable => { s with cpu := cli s.cpu, place := .read }
    | .read =>
      let r := serialRead 0 s.serial
      { s with
        cpu := plain s.cpu
        serial := r.2.2
        place := if r.1 = 0 then .enableAndIdle else .enable r.1 r.2.1 }
    | .enableAndIdle => { s with cpu := sti s.cpu, place := .idle }
    | .idle => { s with cpu := hlt s.cpu, place := .disable }
    | .enable st byte => { s with cpu := sti s.cpu, place := .accept st byte }
    | .accept st byte =>
      let r := acceptStatus counters s.editor st byte
      { s with cpu := plain s.cpu, editor := r.1, place := .working r.2 }
    | .working ⟨[], false⟩ => { s with cpu := plain s.cpu, place := .disable }
    | .working ⟨[], true⟩ => { s with cpu := cli s.cpu, place := .kernelHalt }
    | .working ⟨task :: tasks, final⟩ =>
      { s with cpu := plain s.cpu, place := .waiting task ⟨tasks, final⟩ 0 }
    | .waiting task work i => { s with cpu := plain s.cpu, place := waitRound s.serial task work i status }
    | .saveFlags task work i st =>
      { s with cpu := plain s.cpu, place := .saveDisable task work i st s.cpu.interruptFlag }
    | .saveDisable task work i st flag => { s with cpu := cli s.cpu, place := .failRing task work i st flag }
    | .failRing task work i st flag =>
      { s with cpu := plain s.cpu, serial := receiveError s.serial, place := .restore task work i st flag }
    | .restore task work i st flag =>
      { s with cpu := if flag then sti s.cpu else plain s.cpu, place := .testStatus task work i st }
    | .testStatus task work i st =>
      { s with
        cpu := plain s.cpu
        place := if st &&& task.mask == task.mask then ready work task else .waiting task work (i + 1) }
    | .write byte work => { s with cpu := plain s.cpu, serial := outb com1 byte s.serial, place := .working work }
    | .kernelHalt => { s with cpu := hlt s.cpu }
    | .spin => { s with cpu := plain s.cpu }

/-- `tick` and `arrival` are the devices raising their lines; an interrupt that cannot be taken
    changes nothing. `regs` is what the handler finds in the registers of the port. -/
inductive Event where
  | tick
  | arrival
  | timerInterrupt
  | serialInterrupt (regs : ℕ → Registers)
  | execute (status : UInt8) (counters : Counters)

def step (s : System) : Event → System
  | .tick => { s with cpu := { s.cpu with timerPending := true } }
  | .arrival => { s with cpu := { s.cpu with serialPending := true } }
  | .timerInterrupt =>
    if s.cpu.timerPending && deliverable s.cpu then
      { s with
        cpu := { s.cpu with timerPending := false, halted := false }
        ticks := Word64.add s.ticks 1 }
    else s
  | .serialInterrupt regs =>
    if s.cpu.serialPending && deliverable s.cpu then
      { s with
        cpu := { s.cpu with serialPending := false, halted := false }
        serial := (SerialModel.serialInterrupt regs s.serial).1 }
    else s
  | .execute status counters => ConsoleSleep.execute status counters s

def run (s : System) (events : List Event) : System := events.foldl step s

/-- `console_run` is entered, whatever the flags, the lines and the ring are at that time. -/
def entered (flag timerPending serialPending : Bool) (serial : Serial) (ticks : ℕ) (line : ℕ → UInt8) : System where
  cpu := ⟨flag, false, false, timerPending, serialPending⟩
  serial := serial
  ticks := ticks
  editor := start line
  place := .working ⟨putTasks "CONSOLE: ready (type 'help')\nK> ", false⟩

/-- Halted by the `hlt` of `x86_enable_and_idle`: the loop goes on with `x86_disable_interrupts`. -/
def asleep (s : System) : Prop := s.cpu.halted = true ∧ s.place = .disable

def interruptPending (s : System) : Prop := s.cpu.timerPending = true ∨ s.cpu.serialPending = true

def inputWaiting (s : System) : Prop := s.serial.ring.head ≠ s.serial.ring.tail ∨ s.serial.ring.failed = true

structure Inv (s : System) : Prop where
  halted : s.cpu.halted = true → s.place = .kernelHalt ∨
    s.place = .disable ∧ deliverable s.cpu = true ∧ ¬ inputWaiting s
  read : s.place = .read → s.cpu.interruptFlag = false
  enableAndIdle : s.place = .enableAndIdle → s.cpu.interruptFlag = false ∧ ¬ inputWaiting s
  idle : s.place = .idle → s.cpu.interruptFlag = true ∧ s.cpu.shadow = true ∧ ¬ inputWaiting s

def free : Place → Bool
  | .read | .enableAndIdle | .idle => false
  | _ => true

theorem inv_of_free {s : System} (hrun : s.cpu.halted = false) (hfree : free s.place = true) : Inv s where
  halted h := absurd (hrun.symm.trans h) (by simp)
  read h := absurd hfree (by simp [h, free])
  enableAndIdle h := absurd hfree (by simp [h, free])
  idle h := absurd hfree (by simp [h, free])

theorem free_ready (work : Work) (task : Task) : free (ready work task) = true := by
  cases task with
  | put byte => rfl
  | flush => rfl

theorem free_waitRound (s : Serial) (task : Task) (work : Work) (i : ℕ) (status : UInt8) :
    free (waitRound s task work i status) = true := by
  unfold waitRound
  split
  · rfl
  · split
    · rfl
    · split
      · rfl
      · rfl

theorem read_zero {b : RxBuffer} {byte : UInt8} (h : (rxRead byte b).1 = 0) :
    (rxRead byte b).2.2.head = (rxRead byte b).2.2.tail ∧ (rxRead byte b).2.2.failed = false := by
  unfold rxRead at h ⊢
  by_cases hf : b.failed = true
  · rw [if_pos hf] at h
    exact absurd h (by simp)
  · rw [if_neg hf] at h ⊢
    by_cases he : b.head = b.tail
    · rw [if_pos he]
      exact ⟨he, Bool.eq_false_iff.mpr hf⟩
    · rw [if_neg he] at h
      exact absurd h (by simp)

theorem inv_read {s : System} (hrun : s.cpu.halted = false) (hplace : s.place = .read)
    (hflag : s.cpu.interruptFlag = false) (status : UInt8) (counters : Counters) :
    Inv (execute status counters s) := by
  have hs : execute status counters s = { s with
      cpu := plain s.cpu
      serial := (serialRead 0 s.serial).2.2
      place := if (serialRead 0 s.serial).1 = 0 then .enableAndIdle
        else .enable (serialRead 0 s.serial).1 (serialRead 0 s.serial).2.1 } := by
    unfold execute
    rw [if_neg (by simp [hrun]), hplace]
  rw [hs]
  by_cases hz : (serialRead 0 s.serial).1 = 0
  · have hquiet := read_zero hz
    rw [if_pos hz]
    refine ⟨fun h => absurd (hrun.symm.trans h) (by simp), fun h => absurd h (by simp), fun _ => ⟨hflag, ?_⟩,
      fun h => absurd h (by simp)⟩
    rintro (hne | hfail)
    · exact hne hquiet.1
    · exact absurd (hquiet.2.symm.trans hfail) (by simp)
  · rw [if_neg hz]
    exact inv_of_free hrun rfl

theorem inv_disable {s : System} (hrun : s.cpu.halted = false) (hplace : s.place = .disable)
    (status : UInt8) (counters : Counters) : Inv (execute status counters s) := by
  have hs : execute status counters s = { s with cpu := cli s.cpu, place := .read } := by
    rw [execute, if_neg (by simp [hrun]), hplace]
  rw [hs]
  exact ⟨fun hh => absurd (hrun.symm.trans hh) (by simp), fun _ => rfl, fun hp => absurd hp (by simp),
    fun hp => absurd hp (by simp)⟩

theorem inv_enableAndIdle {s : System} (h : Inv s) (hrun : s.cpu.halted = false) (hplace : s.place = .enableAndIdle)
    (status : UInt8) (counters : Counters) : Inv (execute status counters s) := by
  obtain ⟨hflag, hquiet⟩ := h.enableAndIdle hplace
  have hs : execute status counters s = { s with cpu := sti s.cpu, place := .idle } := by
    rw [execute, if_neg (by simp [hrun]), hplace]
  have hshadow : (sti s.cpu).shadow = true := by
    rw [sti, hflag]
    rfl
  rw [hs]
  exact ⟨fun hh => absurd (hrun.symm.trans hh) (by simp), fun hp => absurd hp (by simp),
    fun hp => absurd hp (by simp), fun _ => ⟨rfl, hshadow, hquiet⟩⟩

/-- The shadow has kept interrupts out since the ring was found empty. -/
theorem inv_idle {s : System} (h : Inv s) (hrun : s.cpu.halted = false) (hplace : s.place = .idle)
    (status : UInt8) (counters : Counters) : Inv (execute status counters s) := by
  obtain ⟨hflag, -, hquiet⟩ := h.idle hplace
  have hs : execute status counters s = { s with cpu := hlt s.cpu, place := .disable } := by
    rw [execute, if_neg (by simp [hrun]), hplace]
  have hopen : deliverable (hlt s.cpu) = true := by
    rw [deliverable, hlt, hflag]
    rfl
  rw [hs]
  exact ⟨fun _ => .inr ⟨rfl, hopen, hquiet⟩, fun hp => absurd hp (by simp), fun hp => absurd hp (by simp),
    fun hp => absurd hp (by simp)⟩

theorem inv_kernelHalt {s : System} (hrun : s.cpu.halted = false) (hplace : s.place = .kernelHalt)
    (status : UInt8) (counters : Counters) : Inv (execute status counters s) := by
  have hs : execute status counters s = { s with cpu := hlt s.cpu } := by
    rw [execute, if_neg (by simp [hrun]), hplace]
  rw [hs]
  exact ⟨fun _ => .inl hplace, fun hp => absurd (hplace.symm.trans hp) (by simp),
    fun hp => absurd (hplace.symm.trans hp) (by simp), fun hp => absurd (hplace.symm.trans hp) (by simp)⟩

def busy : Place → Bool
  | .disable | .read | .enableAndIdle | .idle | .kernelHalt => false
  | _ => true

theorem execute_busy {s : System} (hrun : s.cpu.halted = false) (hbusy : busy s.place = true)
    (status : UInt8) (counters : Counters) :
    (execute status counters s).cpu.halted = false ∧ free (execute status counters s).place = true := by
  obtain ⟨cpu, serial, ticks, editor, place⟩ := s
  rw [execute, if_neg (Bool.not_eq_true _ ▸ hrun)]
  cases place with
  | working work =>
    obtain ⟨tasks, final⟩ := work
    cases tasks with
    | nil =>
      cases final with
      | false => exact ⟨hrun, rfl⟩
      | true => exact ⟨hrun, rfl⟩
    | cons task tasks => exact ⟨hrun, rfl⟩
  | waiting task work i => exact ⟨hrun, free_waitRound serial task work i status⟩
  | restore task work i st flag =>
    cases flag with
    | false => exact ⟨hrun, rfl⟩
    | true => exact ⟨hrun, rfl⟩
  | testStatus task work i st =>
    refine ⟨hrun, ?_⟩
    change free (if st &&& task.mask == task.mask then ready work task else .waiting task work (i + 1)) = true
    split
    · exact free_ready work task
    · rfl
  | disable | read | enableAndIdle | idle | kernelHalt => exact absurd hbusy (by simp [busy])
  | enable | accept | saveFlags | saveDisable | failRing | write | spin => exact ⟨hrun, rfl⟩

theorem inv_execute {s : System} (h : Inv s) (status : UInt8) (counters : Counters) :
    Inv (execute status counters s) := by
  by_cases hhalt : s.cpu.halted = true
  · rw [execute, if_pos hhalt]
    exact h
  · have hrun : s.cpu.halted = false := Bool.eq_false_iff.mpr hhalt
    cases hplace : s.place with
    | disable => exact inv_disable hrun hplace status counters
    | read => exact inv_read hrun hplace (h.read hplace) status counters
    | enableAndIdle => exact inv_enableAndIdle h hrun hplace status counters
    | idle => exact inv_idle h hrun hplace status counters
    | kernelHalt => exact inv_kernelHalt hrun hplace status counters
    | _ =>
      have hbusy : busy s.place = true := by
        rw [hplace]
        rfl
      obtain ⟨hrun', hfree⟩ := execute_busy hrun hbusy status counters
      exact inv_of_free hrun' hfree

/-- Where an interrupt can be taken the ring is not promised to be empty, except during a halt,
    and an interrupt ends the halt. -/
theorem inv_interrupt {s s' : System} (h : Inv s) (hdeliver : deliverable s.cpu = true)
    (hplace : s'.place = s.place) (hrun : s'.cpu.halted = false) : Inv s' := by
  have hflags : s.cpu.interruptFlag = true ∧ s.cpu.shadow = false := by
    simpa [deliverable] using hdeliver
  apply inv_of_free hrun
  rw [hplace]
  cases hp : s.place with
  | read => exact absurd (hflags.1.symm.trans (h.read hp)) (by simp)
  | enableAndIdle => exact absurd (hflags.1.symm.trans (h.enableAndIdle hp).1) (by simp)
  | idle => exact absurd (hflags.2.symm.trans (h.idle hp).2.1) (by simp)
  | _ => rfl

theorem inv_step {s : System} (h : Inv s) (e : Event) : Inv (step s e) := by
  cases e with
  | tick => exact ⟨h.halted, h.read, h.enableAndIdle, h.idle⟩
  | arrival => exact ⟨h.halted, h.read, h.enableAndIdle, h.idle⟩
  | timerInterrupt =>
    unfold step
    by_cases ht : (s.cpu.timerPending && deliverable s.cpu) = true
    · simp only [if_pos ht]
      have hd := (Bool.and_eq_true_iff.mp ht).2
      exact inv_interrupt h hd rfl rfl
    · simp only [if_neg ht]
      exact h
  | serialInterrupt regs =>
    unfold step
    by_cases ht : (s.cpu.serialPending && deliverable s.cpu) = true
    · simp only [if_pos ht]
      have hd := (Bool.and_eq_true_iff.mp ht).2
      exact inv_interrupt h hd rfl rfl
    · simp only [if_neg ht]
      exact h
  | execute status counters => exact inv_execute h status counters

theorem inv_run {s : System} (h : Inv s) (events : List Event) : Inv (run s events) := by
  induction events generalizing s with
  | nil => exact h
  | cons e events ih => exact ih (inv_step h e)

theorem inv_entered (flag timerPending serialPending : Bool) (serial : Serial) (ticks : ℕ) (line : ℕ → UInt8) :
    Inv (entered flag timerPending serialPending serial ticks line) := inv_of_free rfl rfl

/-- However arrivals, ticks, interrupts and instructions interleave, the console never sleeps on
    input: with no interrupt to wake it up, the ring is empty and no failure waits. -/
theorem no_lost_wake_up (flag timerPending serialPending : Bool) (serial : Serial) (ticks : ℕ)
    (line : ℕ → UInt8) (events : List Event) :
    ¬ (asleep (run (entered flag timerPending serialPending serial ticks line) events) ∧
      ¬ interruptPending (run (entered flag timerPending serialPending serial ticks line) events) ∧
      inputWaiting (run (entered flag timerPending serialPending serial ticks line) events)) := by
  rintro ⟨hs, -, hw⟩
  have hinv := inv_run (inv_entered flag timerPending serialPending serial ticks line) events
  rcases hinv.halted hs.1 with hp | ⟨-, -, hquiet⟩
  · exact absurd (hs.2.symm.trans hp) (by simp)
  · exact hquiet hw

-- After the greeting the console does go to sleep.
example : (run (entered true false false ⟨⟨fun _ => 0, 0, 0, false⟩, true, 0, 0, 0, []⟩ 0 fun _ => 0)
    (List.replicate 200 (.execute 0x60 ⟨0, 0, 0⟩))).cpu.halted = true := by decide +kernel

end OsByAi.ConsoleSleep
