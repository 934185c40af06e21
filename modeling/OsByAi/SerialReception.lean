import OsByAi.SerialModel

set_option autoImplicit false

namespace OsByAi.SerialReception
open LossyFifo ReceiveRing SerialModel

structure System where
  serial : Serial
  thread : Thread

/-- An event that the thread is not ready for changes nothing. -/
inductive Event where
  | interrupt (regs : ℕ → Registers)
  | wait (mask : UInt8)
  | poll (status : UInt8)
  | settle
  | read

def step (s : System) : Event → System
  | .interrupt regs => { s with serial := (serialInterrupt regs s.serial).1 }
  | .wait mask =>
    match s.thread with
    | .outside => { s with thread := .polling mask 0 }
    | _ => s
  | .poll status =>
    match s.thread with
    | .polling mask i => { s with thread := pollStatus s.serial mask i status }
    | _ => s
  | .settle =>
    match s.thread with
    | .noticed mask i status => ⟨receiveError s.serial, afterStatus mask i status⟩
    | _ => s
  | .read =>
    match s.thread with
    | .outside => { s with serial := (serialRead 0 s.serial).2.2 }
    | _ => s

/-- A result of `serial_read`: `1` with a byte and its number among the received ones, or `-1`. -/
inductive Result where
  | byte (index : ℕ) (value : UInt8)
  | lost
deriving DecidableEq

/-- How many bytes had been received and how many results returned when something went wrong.
    `absent` marks a line status of all ones found by `wait_status`. -/
structure Trouble where
  received : ℕ
  results : ℕ
  absent : Bool

structure Ledger where
  received : List UInt8
  waiting : List ℕ
  results : List Result
  troubles : List Trouble

def Ledger.blank : Ledger := ⟨[], [], [], []⟩

def Ledger.suspect (l : Ledger) (absent : Bool) : Ledger :=
  { l with troubles := l.troubles ++ [⟨l.received.length, l.results.length, absent⟩] }

def Ledger.drop (l : Ledger) : Ledger := { l with waiting := [] }

/-- A byte that `rx_push` refuses was received, too, and is trouble. -/
def Ledger.note (l : Ledger) : Note → Ledger
  | .trouble => (l.suspect false).drop
  | .received byte true =>
    { l with received := l.received ++ [byte], waiting := l.waiting ++ [l.received.length] }
  | .received byte false => ({ l with received := l.received ++ [byte] }.suspect false).drop

def Ledger.take (l : Ledger) : Answer UInt8 → Ledger
  | .empty => l
  | .lost => { l with results := l.results ++ [.lost] }
  | .item v =>
    { l with results := l.results ++ [.byte (l.waiting.headD 0) v], waiting := l.waiting.tail }

def record (s : System) (l : Ledger) : Event → Ledger
  | .interrupt regs => (serialInterrupt regs s.serial).2.foldl Ledger.note l
  | .wait _ => l
  | .poll status =>
    match s.thread with
    | .polling _ i => if i < pollLimit && lineError status then l.suspect (status == 0xff) else l
    | _ => l
  | .settle =>
    match s.thread with
    | .noticed _ _ _ => l.drop
    | _ => l
  | .read =>
    match s.thread with
    | .outside => l.take (answer (rxRead 0 s.serial.ring))
    | _ => l

def next (x : System × Ledger) (e : Event) : System × Ledger := (step x.1 e, record x.1 x.2 e)

def run (x : System × Ledger) (events : List Event) : System × Ledger := events.foldl next x

def enabled (rflags : ℕ) (irq : Bool) (s : Serial) : System × Ledger :=
  (⟨(serialEnableReceive rflags irq s).2, .outside⟩, Ledger.blank)

/-- A `-1` is returned before any byte that was received after `t`. -/
def Reported (results : List Result) (t : Trouble) : Prop :=
  ∀ j i v, t.results ≤ j → results[j]? = some (Result.byte i v) → t.received ≤ i →
    ∃ k, t.results ≤ k ∧ k < j ∧ results[k]? = some Result.lost

/-- The bytes returned are received bytes; between two `-1` they are consecutive, and overall they
    are in the order of reception. -/
structure Faithful (received : List UInt8) (results : List Result) : Prop where
  genuine : ∀ (j : ℕ) i v, results[j]? = some (Result.byte i v) → received[i]? = some v
  consecutive : ∀ (j : ℕ) i v i' v', results[j]? = some (Result.byte i v) → results[j + 1]? = some (Result.byte i' v') →
    i' = i + 1
  ordered : ∀ (j j' : ℕ) i v i' v', j < j' → results[j]? = some (Result.byte i v) →
    results[j']? = some (Result.byte i' v') → i < i'

def isNoticed : Thread → Bool
  | .noticed _ _ _ => true
  | _ => false

/-- `noticed` says that the thread has seen an error and not yet called `receive_error`. -/
structure Inv (ring : RxBuffer) (noticed : Bool) (l : Ledger) : Prop where
  wf : ReceiveRing.Inv ring
  failed : ring.failed = true → l.waiting = []
  queue : ring.failed = false → ∃ p, p ≤ l.received.length ∧
    l.waiting = List.range' p (contents ring).length ∧ l.received.drop p = contents ring ∧
    (∀ (j : ℕ) i v, l.results[j]? = some (Result.byte i v) → i < p) ∧
    ∀ i v, l.results.getLast? = some (Result.byte i v) → p = i + 1
  bound : ∀ (j : ℕ) i v, l.results[j]? = some (Result.byte i v) → i < l.received.length
  faithful : Faithful l.received l.results
  troubles : ∀ t ∈ l.troubles, t.absent = false → t.results ≤ l.results.length ∧
    ((∃ k : ℕ, t.results ≤ k ∧ l.results[k]? = some Result.lost) ∨ ring.failed = true ∨ noticed = true)
  reported : ∀ t ∈ l.troubles, t.absent = false → Reported l.results t

section Steps

variable {ring : RxBuffer} {noticed : Bool} {l : Ledger}

theorem Faithful.receive {received : List UInt8} {results : List Result} (h : Faithful received results)
    (byte : UInt8) : Faithful (received ++ [byte]) results where
  genuine j i v hj := by
    have := h.genuine j i v hj
    have hlt := (List.getElem?_eq_some_iff.mp this).1
    rw [List.getElem?_append_left hlt]
    exact this
  consecutive := h.consecutive
  ordered := h.ordered

theorem inv_suspect (h : Inv ring noticed l) (absent : Bool) {noticed' : Bool}
    (hmono : noticed = true → noticed' = true)
    (hseen : absent = false → ring.failed = true ∨ noticed' = true) :
    Inv ring noticed' (l.suspect absent) where
  wf := h.wf
  failed := h.failed
  queue := h.queue
  bound := h.bound
  faithful := h.faithful
  troubles t ht ha := by
    rcases List.mem_append.mp ht with ht | ht
    · obtain ⟨hle, hor⟩ := h.troubles t ht ha
      exact ⟨hle, hor.imp_right fun ho => ho.imp_right hmono⟩
    · rw [List.mem_singleton.mp ht] at ha ⊢
      exact ⟨le_refl _, .inr (hseen ha)⟩
  reported t ht ha := by
    rcases List.mem_append.mp ht with ht | ht
    · exact h.reported t ht ha
    · rw [List.mem_singleton.mp ht]
      intro j i v hj hres
      have hlt := (List.getElem?_eq_some_iff.mp hres).1
      exact absurd hlt (Nat.not_lt.mpr hj)

theorem inv_fail (h : Inv ring noticed l) {ring' : RxBuffer} (hring : ReceiveRing.Inv ring')
    (hf : ring'.failed = true) (noticed' : Bool) : Inv ring' noticed' l.drop where
  wf := hring
  failed _ := rfl
  queue hno := absurd (hf.symm.trans hno) (by simp)
  bound := h.bound
  faithful := h.faithful
  troubles t ht ha := ⟨(h.troubles t ht ha).1, .inr (.inl hf)⟩
  reported := h.reported

theorem inv_trouble (h : Inv ring noticed l) {ring' : RxBuffer} (hring : ReceiveRing.Inv ring')
    (hf : ring'.failed = true) : Inv ring' noticed (l.note .trouble) := by
  have hdrop : Inv ring' noticed l.drop := inv_fail h hring hf noticed
  exact inv_suspect hdrop false id fun _ => .inl hf

theorem inv_refused (h : Inv ring noticed l) {ring' : RxBuffer} (hring : ReceiveRing.Inv ring')
    (hf : ring'.failed = true) (byte : UInt8) : Inv ring' noticed (l.note (.received byte false)) := by
  have hdrop := inv_fail h hring hf noticed
  have hmore : Inv ring' noticed { l.drop with received := l.received ++ [byte] } :=
    { hdrop with
      queue := fun hno => absurd (hf.symm.trans hno) (by simp)
      bound := fun j i v hj => (h.bound j i v hj).trans (by simp)
      faithful := h.faithful.receive byte }
  exact inv_suspect hmore false id fun _ => .inl hf

theorem inv_kept (h : Inv ring noticed l) {ring' : RxBuffer} (hring : ReceiveRing.Inv ring')
    {byte : UInt8} (hold : ring.failed = false) (hnew : ring'.failed = false)
    (hc : contents ring' = contents ring ++ [byte]) : Inv ring' noticed (l.note (.received byte true)) where
  wf := hring
  failed hf := absurd (hnew.symm.trans hf) (by simp)
  queue _ := by
    obtain ⟨p, hp, hw, hd, hbelow, hlast⟩ := h.queue hold
    have hlen : p + (contents ring).length = l.received.length := by
      rw [← hd, List.length_drop]
      omega
    refine ⟨p, hp.trans (by simp [Ledger.note]), ?_, ?_, hbelow, hlast⟩
    · change l.waiting ++ [l.received.length] = _
      rw [hc, hw, List.length_append, List.length_singleton, List.range'_1_concat, hlen]
    · change (l.received ++ [byte]).drop p = _
      rw [hc, List.drop_append_of_le_length hp, hd]
  bound j i v hj := (h.bound j i v hj).trans (by simp [Ledger.note])
  faithful := h.faithful.receive byte
  troubles t ht ha := by
    obtain ⟨hle, hor⟩ := h.troubles t ht ha
    refine ⟨hle, hor.imp_right fun ho => ho.imp_left fun hf => ?_⟩
    exact absurd (hold.symm.trans hf) (by simp)
  reported := h.reported

theorem inv_push (h : Inv ring noticed l) (byte : UInt8) :
    Inv (rxPush byte ring).2 noticed (l.note (.received byte (rxPush byte ring).1)) := by
  have hring := push_inv h.wf byte
  unfold rxPush at hring ⊢
  by_cases hf : ring.failed = true
  · rw [if_pos hf] at hring ⊢
    exact inv_refused h hring hf byte
  · have hf' : ring.failed = false := by simpa using hf
    rw [if_neg hf] at hring ⊢
    by_cases hfull : (ring.head + 1) % rxCapacity = ring.tail
    · simp only [if_pos hfull] at hring ⊢
      exact inv_refused h hring rfl byte
    · have hcount : count ring < 255 := by
        have := mt h.wf.full_iff.mpr hfull
        have := h.wf.count_le
        omega
      simp only [if_neg hfull] at hring ⊢
      exact inv_kept h hring hf' hf' (contents_push h.wf byte hcount)

theorem concat_cases {results : List Result} {x y : Result} {j : ℕ}
    (h : (results ++ [x])[j]? = some y) :
    results[j]? = some y ∧ j < results.length ∨ j = results.length ∧ y = x := by
  rcases Nat.lt_trichotomy j results.length with hlt | heq | hgt
  · rw [List.getElem?_append_left hlt] at h
    exact .inl ⟨h, hlt⟩
  · subst heq
    rw [List.getElem?_concat_length] at h
    exact .inr ⟨rfl, (Option.some.inj h).symm⟩
  · rw [List.getElem?_eq_none (by simp; omega)] at h
    exact absurd h (by simp)

theorem concat_old {results : List Result} {y : Result} {j : ℕ} (h : results[j]? = some y) (x : Result) :
    (results ++ [x])[j]? = some y := by
  rw [List.getElem?_append_left (List.getElem?_eq_some_iff.mp h).1]
  exact h

theorem Reported.lost {results : List Result} {t : Trouble} (h : Reported results t) :
    Reported (results ++ [.lost]) t := by
  intro j i v hj hres hi
  rcases concat_cases hres with ⟨hold, -⟩ | ⟨-, heq⟩
  · obtain ⟨k, hk, hlt, hl⟩ := h j i v hj hold hi
    exact ⟨k, hk, hlt, concat_old hl _⟩
  · exact absurd heq (by simp)

theorem Reported.byte {results : List Result} {t : Trouble} (h : Reported results t)
    (hlost : ∃ k : ℕ, t.results ≤ k ∧ results[k]? = some Result.lost) (p : ℕ) (v : UInt8) :
    Reported (results ++ [.byte p v]) t := by
  intro j i v' hj hres hi
  rcases concat_cases hres with ⟨hold, -⟩ | ⟨rfl, -⟩
  · obtain ⟨k, hk, hlt, hl⟩ := h j i v' hj hold hi
    exact ⟨k, hk, hlt, concat_old hl _⟩
  · obtain ⟨k, hk, hl⟩ := hlost
    exact ⟨k, hk, (List.getElem?_eq_some_iff.mp hl).1, concat_old hl _⟩

theorem Faithful.lost {received : List UInt8} {results : List Result} (h : Faithful received results) :
    Faithful received (results ++ [.lost]) where
  genuine j i v hj := by
    rcases concat_cases hj with ⟨hj, -⟩ | ⟨-, heq⟩
    · exact h.genuine j i v hj
    · exact absurd heq (by simp)
  consecutive j i v i' v' hj hj' := by
    rcases concat_cases hj with ⟨hj, -⟩ | ⟨-, heq⟩
    · rcases concat_cases hj' with ⟨hj', -⟩ | ⟨-, heq⟩
      · exact h.consecutive j i v i' v' hj hj'
      · exact absurd heq (by simp)
    · exact absurd heq (by simp)
  ordered j j' i v i' v' hlt hj hj' := by
    rcases concat_cases hj with ⟨hj, -⟩ | ⟨-, heq⟩
    · rcases concat_cases hj' with ⟨hj', -⟩ | ⟨-, heq⟩
      · exact h.ordered j j' i v i' v' hlt hj hj'
      · exact absurd heq (by simp)
    · exact absurd heq (by simp)

theorem Faithful.byte {received : List UInt8} {results : List Result} (h : Faithful received results)
    {p : ℕ} {v : UInt8} (hp : received[p]? = some v)
    (hbelow : ∀ (j : ℕ) i w, results[j]? = some (Result.byte i w) → i < p)
    (hlast : ∀ i w, results.getLast? = some (Result.byte i w) → p = i + 1) :
    Faithful received (results ++ [.byte p v]) where
  genuine j i w hj := by
    rcases concat_cases hj with ⟨hj, -⟩ | ⟨-, heq⟩
    · exact h.genuine j i w hj
    · cases heq
      exact hp
  consecutive j i w i' w' hj hj' := by
    rcases concat_cases hj' with ⟨hj', hlt⟩ | ⟨hlen, heq⟩
    · rcases concat_cases hj with ⟨hj, -⟩ | ⟨hlen, -⟩
      · exact h.consecutive j i w i' w' hj hj'
      · omega
    · cases heq
      rcases concat_cases hj with ⟨hj, -⟩ | ⟨hlen', -⟩
      · apply hlast i w
        rw [List.getLast?_eq_getElem?, ← hlen, Nat.add_sub_cancel]
        exact hj
      · omega
  ordered j j' i w i' w' hlt hj hj' := by
    rcases concat_cases hj' with ⟨hj', hlt'⟩ | ⟨hlen, heq⟩
    · rcases concat_cases hj with ⟨hj, -⟩ | ⟨hlen, -⟩
      · exact h.ordered j j' i w i' w' hlt hj hj'
      · omega
    · cases heq
      rcases concat_cases hj with ⟨hj, -⟩ | ⟨hlen', -⟩
      · exact hbelow j i w hj
      · omega

theorem inv_takeLost (h : Inv ring false l) (hf : ring.failed = true) {ring' : RxBuffer}
    (hring : ReceiveRing.Inv ring') (hc : contents ring' = []) (hnew : ring'.failed = false) :
    Inv ring' false (l.take .lost) where
  wf := hring
  failed hf' := absurd (hnew.symm.trans hf') (by simp)
  queue _ := by
    refine ⟨l.received.length, le_refl _, ?_, ?_, ?_, ?_⟩
    · rw [hc]
      exact h.failed hf
    · rw [hc]
      exact List.drop_length
    · intro j i v hj
      rcases concat_cases hj with ⟨hj, -⟩ | ⟨-, heq⟩
      · exact h.bound j i v hj
      · exact absurd heq (by simp)
    · intro i v hl
      simp [Ledger.take] at hl
  bound j i v hj := by
    rcases concat_cases hj with ⟨hj, -⟩ | ⟨-, heq⟩
    · exact h.bound j i v hj
    · exact absurd heq (by simp)
  faithful := h.faithful.lost
  troubles t ht ha := by
    obtain ⟨hle, -⟩ := h.troubles t ht ha
    refine ⟨hle.trans (by simp [Ledger.take]), .inl ⟨l.results.length, hle, ?_⟩⟩
    exact List.getElem?_concat_length
  reported t ht ha := (h.reported t ht ha).lost

theorem inv_takeItem (h : Inv ring false l) (hold : ring.failed = false) {ring' : RxBuffer}
    (hring : ReceiveRing.Inv ring') (hnew : ring'.failed = false) {v : UInt8}
    (hc : contents ring = v :: contents ring') : Inv ring' false (l.take (.item v)) := by
  obtain ⟨p, hp, hw, hd, hbelow, hlast⟩ := h.queue hold
  rw [hc] at hw hd
  rw [List.length_cons, List.range'_succ] at hw
  have hlt : p < l.received.length := by
    have := congrArg List.length hd
    rw [List.length_drop, List.length_cons] at this
    omega
  have hget : l.received[p]? = some v := by
    have hhead := List.getElem_cons_drop hlt
    rw [hd] at hhead
    rw [List.getElem?_eq_getElem hlt, (List.cons.inj hhead).1]
  have hdrop : l.received.drop (p + 1) = contents ring' := by
    rw [← List.tail_drop, hd, List.tail_cons]
  have htake : l.take (.item v) = { l with
      results := l.results ++ [.byte p v]
      waiting := List.range' (p + 1) (contents ring').length } := by
    rw [Ledger.take, hw]
    rfl
  have hsilent : ∀ t ∈ l.troubles, t.absent = false →
      ∃ k : ℕ, t.results ≤ k ∧ l.results[k]? = some Result.lost := by
    intro t ht ha
    rcases (h.troubles t ht ha).2 with hlost | hf | hn
    · exact hlost
    · exact absurd (hold.symm.trans hf) (by simp)
    · exact absurd hn (by simp)
  rw [htake]
  refine ⟨hring, fun hf => absurd (hnew.symm.trans hf) (by simp), fun _ => ?_, ?_, ?_, ?_, ?_⟩
  · refine ⟨p + 1, hlt, rfl, hdrop, ?_, ?_⟩
    · intro j i w hj
      rcases concat_cases hj with ⟨hj, -⟩ | ⟨-, heq⟩
      · exact (hbelow j i w hj).trans (Nat.lt_succ_self p)
      · cases heq
        exact Nat.lt_succ_self p
    · intro i w hl
      rw [List.getLast?_concat] at hl
      cases hl
      rfl
  · intro j i w hj
    rcases concat_cases hj with ⟨hj, -⟩ | ⟨-, heq⟩
    · exact h.bound j i w hj
    · cases heq
      exact hlt
  · exact h.faithful.byte hget hbelow hlast
  · intro t ht ha
    obtain ⟨k, hk, hl⟩ := hsilent t ht ha
    exact ⟨(h.troubles t ht ha).1.trans (by simp), .inl ⟨k, hk, concat_old hl _⟩⟩
  · intro t ht ha
    exact (h.reported t ht ha).byte (hsilent t ht ha) p v

theorem inv_read (h : Inv ring false l) :
    Inv (rxRead 0 ring).2.2 false (l.take (answer (rxRead 0 ring))) := by
  have hring := read_inv h.wf 0
  obtain ⟨hf, hr⟩ | ⟨-, -, hr⟩ | ⟨x, r, hf, hf', hcons, hr⟩ := h.wf.read_cases 0
  · rw [hr] at hring ⊢
    exact inv_takeLost h hf hring (reset_contents ring) rfl
  · rw [hr]
    exact h
  · rw [hr] at hring ⊢
    exact inv_takeItem h hf hring hf' hcons

end Steps

section Interrupts

variable {s : Serial} {noticed : Bool} {l : Ledger}

theorem inv_receiveError (h : Inv s.ring noticed l) :
    Inv (receiveError s).ring noticed (l.note .trouble) := inv_trouble h (fail_inv s.ring) rfl

theorem pushByte_ring (byte : UInt8) (s : Serial) : (pushByte byte s).ring = (rxPush byte s.ring).2 := by
  simp only [pushByte]
  split
  · rfl
  · rfl

theorem inv_receiveByte (h : Inv s.ring noticed l) (status byte : UInt8) :
    Inv (receiveByte status byte s).1.ring noticed ((receiveByte status byte s).2.foldl Ledger.note l) := by
  unfold receiveByte
  cases lineError status with
  | true =>
    have herr := inv_receiveError h
    simp only [if_true]
    split
    · exact herr
    · rw [pushByte_ring]
      exact inv_push herr byte
  | false =>
    simp only [Bool.false_eq_true, if_false]
    split
    · exact h
    · rw [pushByte_ring]
      exact inv_push h byte

theorem inv_drain (h : Inv s.ring noticed l) (regs : ℕ → Registers) (i left : ℕ) :
    Inv (drain regs i left s).1.ring noticed ((drain regs i left s).2.foldl Ledger.note l) := by
  induction left generalizing i s l with
  | zero => exact inv_receiveError h
  | succ left ih =>
    rw [drain]
    split
    · exact h
    · split
      · rw [List.foldl_append]
        exact ih (inv_receiveByte h _ _) (i + 1)
      · exact inv_trouble h (fail_inv s.ring) rfl

theorem enabled_receiveByte (status byte : UInt8) (s : Serial) :
    (receiveByte status byte s).1.receiveEnabled = s.receiveEnabled := by
  unfold receiveByte pushByte
  cases lineError status with
  | true =>
    simp only [if_true]
    split
    · rfl
    · split
      · rfl
      · rfl
  | false =>
    simp only [Bool.false_eq_true, if_false]
    split
    · rfl
    · split
      · rfl
      · rfl

theorem enabled_drain (regs : ℕ → Registers) (i left : ℕ) (s : Serial) :
    (drain regs i left s).1.receiveEnabled = s.receiveEnabled := by
  induction left generalizing i s with
  | zero => rfl
  | succ left ih =>
    rw [drain]
    split
    · rfl
    · split
      · exact (ih (i + 1) _).trans (enabled_receiveByte _ _ s)
      · rfl

end Interrupts

structure Ok (x : System × Ledger) : Prop where
  inv : Inv x.1.serial.ring (isNoticed x.1.thread) x.2
  enabled : x.1.serial.receiveEnabled = true

theorem isNoticed_afterStatus (mask : UInt8) (i : ℕ) (status : UInt8) :
    isNoticed (afterStatus mask i status) = false := by
  unfold afterStatus
  split
  · rfl
  · rfl

/-- Every error that the thread sees is either all ones or dealt with next. -/
theorem ok_poll {s : System} {l : Ledger} (h : Ok (s, l)) (status : UInt8) :
    Ok (next (s, l) (.poll status)) := by
  obtain ⟨serial, thread⟩ := s
  obtain ⟨hinv, hen⟩ := h
  cases thread with
  | outside => exact ⟨hinv, hen⟩
  | noticed mask i st => exact ⟨hinv, hen⟩
  | polling mask i =>
    refine ⟨?_, hen⟩
    change Inv serial.ring (isNoticed (pollStatus serial mask i status))
      (if (decide (i < pollLimit) && lineError status) = true then l.suspect (status == 0xff) else l)
    unfold pollStatus
    by_cases hi : i ≥ pollLimit
    · rw [if_pos hi, if_neg (by simp [Nat.not_lt.mpr hi])]
      exact hinv
    · have hi' : i < pollLimit := Nat.lt_of_not_ge hi
      rw [if_neg hi]
      by_cases hff : (status == 0xff) = true
      · rw [if_pos hff, hff]
        split
        · exact inv_suspect hinv true (by simp [isNoticed]) (by simp)
        · exact hinv
      · have hff' : (status == 0xff) = false := by simpa using hff
        rw [if_neg hff, hff', show serial.receiveEnabled = true from hen]
        cases herr : lineError status with
        | true =>
          rw [if_pos (by simp), if_pos (by simp [hi'])]
          exact inv_suspect hinv false (by simp [isNoticed]) fun _ => .inr rfl
        | false =>
          rw [if_neg (by simp), if_neg (by simp), isNoticed_afterStatus]
          exact hinv

theorem ok_next {x : System × Ledger} (h : Ok x) (e : Event) : Ok (next x e) := by
  obtain ⟨⟨serial, thread⟩, l⟩ := x
  obtain ⟨hinv, hen⟩ := h
  cases e with
  | interrupt regs =>
    refine ⟨?_, (enabled_drain regs 0 rxCapacity _).trans hen⟩
    have hcounted : Inv ({ serial with rxInterrupts := Word64.add serial.rxInterrupts 1 } : Serial).ring
        (isNoticed thread) l := hinv
    exact inv_drain hcounted regs 0 rxCapacity
  | wait mask =>
    cases thread with
    | outside => exact ⟨hinv, hen⟩
    | polling m i => exact ⟨hinv, hen⟩
    | noticed m i st => exact ⟨hinv, hen⟩
  | poll status => exact ok_poll ⟨hinv, hen⟩ status
  | settle =>
    cases thread with
    | outside => exact ⟨hinv, hen⟩
    | polling m i => exact ⟨hinv, hen⟩
    | noticed m i st => exact ⟨inv_fail hinv (fail_inv serial.ring) rfl _, hen⟩
  | read =>
    cases thread with
    | outside => exact ⟨inv_read hinv, hen⟩
    | polling m i => exact ⟨hinv, hen⟩
    | noticed m i st => exact ⟨hinv, hen⟩

theorem ok_run {x : System × Ledger} (h : Ok x) (events : List Event) : Ok (run x events) := by
  induction events generalizing x with
  | nil => exact h
  | cons e events ih => exact ih (ok_next h e)

theorem ok_enabled {rflags : ℕ} {irq : Bool} {s : Serial}
    (h : (serialEnableReceive rflags irq s).1 = true) : Ok (enabled rflags irq s) := by
  have hring : (enabled rflags irq s).1.serial.ring = rxReset s.ring ∧
      (enabled rflags irq s).1.serial.receiveEnabled = true := by
    unfold enabled
    unfold serialEnableReceive at h ⊢
    split at h
    · exact absurd h (by simp)
    · rename_i hready
      split at h
      · exact absurd h (by simp)
      · rename_i hirq
        rw [if_neg hready, if_neg hirq]
        exact ⟨rfl, rfl⟩
  refine ⟨?_, hring.2⟩
  rw [hring.1]
  have hnone : ∀ (j : ℕ) y, (enabled rflags irq s).2.results[j]? ≠ some y := by
    intro j y hj
    simp [enabled, Ledger.blank] at hj
  refine ⟨reset_inv s.ring, fun _ => rfl, fun _ => ⟨0, le_refl _, ?_, ?_, ?_, ?_⟩, ?_, ⟨?_, ?_, ?_⟩,
    fun t ht => absurd ht (by simp [enabled, Ledger.blank]),
    fun t ht => absurd ht (by simp [enabled, Ledger.blank])⟩
  · rw [reset_contents]
    rfl
  · rw [reset_contents]
    rfl
  · exact fun j i v hj => absurd hj (hnone j _)
  · exact fun i v hl => absurd hl (by simp [enabled, Ledger.blank])
  · exact fun j i v hj => absurd hj (hnone j _)
  · exact fun j i v hj => absurd hj (hnone j _)
  · exact fun j i v i' v' hj => absurd hj (hnone j _)
  · exact fun j j' i v i' v' _ hj => absurd hj (hnone j _)

/-- Whatever the registers hold and however interrupts, polls and reads interleave: the bytes
    returned between two `-1` are consecutive received bytes, and after every sign of trouble a `-1`
    is returned first. Only a line status of all ones, which `wait_status` takes for a missing
    port, is not such a sign. -/
theorem no_silent_loss {rflags : ℕ} {irq : Bool} {s : Serial}
    (h : (serialEnableReceive rflags irq s).1 = true) (events : List Event) :
    Faithful (run (enabled rflags irq s) events).2.received (run (enabled rflags irq s) events).2.results ∧
    ∀ t ∈ (run (enabled rflags irq s) events).2.troubles, t.absent = false →
      Reported (run (enabled rflags irq s) events).2.results t := by
  have hok := ok_run (ok_enabled h) events
  exact ⟨hok.inv.faithful, hok.inv.reported⟩

def idleSerial : Serial := ⟨⟨fun _ => 0, 0, 0, false⟩, false, 0, 0, 0, []⟩

def oneByte (i : ℕ) : Registers := if i = 0 then ⟨4, 1, 65⟩ else ⟨1, 0, 0⟩

/-- A byte, then one that comes with an overrun. -/
def overrun (i : ℕ) : Registers := if i = 0 then ⟨4, 1, 65⟩ else if i = 1 then ⟨6, 3, 66⟩ else ⟨1, 0, 0⟩

def overrunEvents : List Event := [.interrupt overrun, .read, .interrupt oneByte, .read]

/-- Both bytes are dropped, and `serial_read` says so before it returns the third. -/
theorem overrun_reported : (run (enabled 0 true idleSerial) overrunEvents).2.received = [65, 66, 65] ∧
    (run (enabled 0 true idleSerial) overrunEvents).2.results = [.lost, .byte 2 65] ∧
    Faithful (run (enabled 0 true idleSerial) overrunEvents).2.received
      (run (enabled 0 true idleSerial) overrunEvents).2.results ∧
    Reported (run (enabled 0 true idleSerial) overrunEvents).2.results ⟨1, 0, false⟩ := by
  obtain ⟨hfaithful, hreported⟩ := @no_silent_loss 0 true idleSerial (by decide +kernel) overrunEvents
  exact ⟨by decide +kernel, by decide +kernel, hfaithful, hreported _ List.mem_cons_self rfl⟩

/-- A line status of all ones has every error bit set, but the next byte is returned at once. -/
theorem all_ones_not_reported : ¬ ∀ (rflags : ℕ) (irq : Bool) (s : Serial),
    (serialEnableReceive rflags irq s).1 = true → ∀ events : List Event,
      Faithful (run (enabled rflags irq s) events).2.received
        (run (enabled rflags irq s) events).2.results ∧
      ∀ t ∈ (run (enabled rflags irq s) events).2.troubles,
        Reported (run (enabled rflags irq s) events).2.results t := by
  intro hall
  have hrep := (hall 0 true idleSerial (by decide +kernel)
    [.wait 0x20, .poll 0xff, .interrupt oneByte, .read]).2
  have hresults : (run (enabled 0 true idleSerial)
      [.wait 0x20, .poll 0xff, .interrupt oneByte, .read]).2.results = [.byte 0 65] := by decide +kernel
  have htrouble : (⟨0, 0, true⟩ : Trouble) ∈ (run (enabled 0 true idleSerial)
      [.wait 0x20, .poll 0xff, .interrupt oneByte, .read]).2.troubles := by
    exact List.mem_singleton.mpr rfl
  obtain ⟨k, -, hk, -⟩ := hrep _ htrouble 0 0 65 (le_refl 0) (by rw [hresults]; rfl) (le_refl 0)
  omega

end OsByAi.SerialReception
