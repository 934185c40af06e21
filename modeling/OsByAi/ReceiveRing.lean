import OsByAi.LossyFifo

set_option autoImplicit false

namespace OsByAi.ReceiveRing
open LossyFifo

def rxCapacity : ℕ := 256

/-- The two indices are `unsigned`; nothing but the code keeps them below the capacity. -/
structure RxBuffer where
  data : ℕ → UInt8
  head : ℕ
  tail : ℕ
  failed : Bool

def rxReset (b : RxBuffer) : RxBuffer := { b with head := 0, tail := 0, failed := false }

def rxFail (b : RxBuffer) : RxBuffer := { b with head := 0, tail := 0, failed := true }

def rxPush (byte : UInt8) (b : RxBuffer) : Bool × RxBuffer :=
  if b.failed then (false, b) else
    let next := (b.head + 1) % rxCapacity
    if next = b.tail then (false, rxFail b)
    else (true, { b with data := Function.update b.data b.head byte, head := next })

/-- The status `1`, `0` or `-1`, and `*byte` afterwards. -/
def rxRead (byte : UInt8) (b : RxBuffer) : Int × UInt8 × RxBuffer :=
  if b.failed then (-1, byte, rxReset b) else
    if b.head = b.tail then (0, byte, b)
    else (1, b.data b.tail, { b with tail := (b.tail + 1) % rxCapacity })

structure Inv (b : RxBuffer) : Prop where
  head_lt : b.head < rxCapacity
  tail_lt : b.tail < rxCapacity

def count (b : RxBuffer) : ℕ := (b.head + rxCapacity - b.tail) % rxCapacity

def contents (b : RxBuffer) : List UInt8 := ring rxCapacity b.data b.tail (count b)

def fifo (b : RxBuffer) : LossyFifo UInt8 := if b.failed then .failed else .items (contents b)

theorem rxCapacity_pos : 0 < rxCapacity := by decide

theorem reset_inv (b : RxBuffer) : Inv (rxReset b) := ⟨rxCapacity_pos, rxCapacity_pos⟩

theorem fail_inv (b : RxBuffer) : Inv (rxFail b) := ⟨rxCapacity_pos, rxCapacity_pos⟩

theorem reset_contents (b : RxBuffer) : contents (rxReset b) = [] := by
  simp [rxReset, contents, count, ring]

theorem reset_fifo (b : RxBuffer) : fifo (rxReset b) = .items [] := by
  rw [fifo, reset_contents]
  rfl

theorem fail_fifo (b : RxBuffer) : fifo (rxFail b) = .failed := by
  simp [fifo, rxFail]

section Operations

variable {b : RxBuffer}

theorem Inv.count_eq_zero (h : Inv b) : count b = 0 ↔ b.head = b.tail := by
  obtain ⟨hh, ht⟩ := h
  unfold count rxCapacity at *
  omega

theorem Inv.full_iff (h : Inv b) : (b.head + 1) % rxCapacity = b.tail ↔ count b = 255 := by
  obtain ⟨hh, ht⟩ := h
  unfold count rxCapacity at *
  omega

theorem Inv.count_le (h : Inv b) : count b ≤ 255 := by
  obtain ⟨hh, ht⟩ := h
  unfold count rxCapacity at *
  omega

theorem push_inv (h : Inv b) (byte : UInt8) : Inv (rxPush byte b).2 := by
  unfold rxPush
  by_cases hf : b.failed = true
  · rw [if_pos hf]
    exact h
  · rw [if_neg hf]
    by_cases hfull : (b.head + 1) % rxCapacity = b.tail
    · rw [if_pos hfull]
      exact fail_inv b
    · rw [if_neg hfull]
      exact ⟨Nat.mod_lt _ rxCapacity_pos, h.tail_lt⟩

theorem read_inv (h : Inv b) (byte : UInt8) : Inv (rxRead byte b).2.2 := by
  unfold rxRead
  split
  · exact reset_inv b
  · split
    · exact h
    · exact ⟨h.head_lt, Nat.mod_lt _ rxCapacity_pos⟩

theorem contents_push (h : Inv b) (byte : UInt8) (hroom : count b < 255) :
    contents { b with data := Function.update b.data b.head byte, head := (b.head + 1) % rxCapacity } =
      contents b ++ [byte] := by
  obtain ⟨hh, ht⟩ := h
  have hcell : b.head = (b.tail + count b) % rxCapacity := by
    unfold count rxCapacity at *
    omega
  have hcount : ((b.head + 1) % rxCapacity + rxCapacity - b.tail) % rxCapacity = count b + 1 := by
    unfold count rxCapacity at *
    omega
  unfold contents
  rw [count, hcount]
  conv_lhs => rw [hcell]
  exact ring_update rxCapacity (by unfold rxCapacity; omega) b.data byte

theorem contents_read (h : Inv b) (hne : b.head ≠ b.tail) :
    contents b = b.data b.tail :: contents { b with tail := (b.tail + 1) % rxCapacity } := by
  have hpos : count b ≠ 0 := fun hz => hne (h.count_eq_zero.mp hz)
  obtain ⟨n, hn⟩ := Nat.exists_eq_succ_of_ne_zero hpos
  have hcount : (b.head + rxCapacity - (b.tail + 1) % rxCapacity) % rxCapacity = n := by
    obtain ⟨hh, ht⟩ := h
    unfold count rxCapacity at *
    omega
  unfold contents
  rw [hn, ring_succ rxCapacity h.tail_lt, count, hcount]

theorem fifo_push (h : Inv b) (byte : UInt8) :
    ((rxPush byte b).1, fifo (rxPush byte b).2) = LossyFifo.push 255 byte (fifo b) := by
  unfold rxPush
  by_cases hf : b.failed = true
  · simp [hf, fifo, LossyFifo.push]
  · have hlen : (contents b).length = count b := length_ring _ _ _ _
    have hle := h.count_le
    have hfifo : fifo b = .items (contents b) := if_neg hf
    rw [if_neg hf, hfifo, LossyFifo.push, hlen]
    by_cases hfull : (b.head + 1) % rxCapacity = b.tail
    · have hcount := h.full_iff.mp hfull
      rw [if_pos hfull, if_neg (by omega), fail_fifo]
    · have hcount : count b < 255 := by
        have := mt h.full_iff.mpr hfull
        omega
      rw [if_neg hfull, if_pos hcount, ← contents_push h byte hcount, fifo, if_neg hf]

theorem Inv.read_cases (h : Inv b) (byte : UInt8) :
    (b.failed = true ∧ rxRead byte b = (-1, byte, rxReset b)) ∨
    (b.failed = false ∧ contents b = [] ∧ rxRead byte b = (0, byte, b)) ∨
    ∃ x r, b.failed = false ∧ r.failed = false ∧ contents b = x :: contents r ∧ rxRead byte b = (1, x, r) := by
  unfold rxRead
  by_cases hf : b.failed = true
  · rw [if_pos hf]
    exact .inl ⟨hf, rfl⟩
  · have hf' : b.failed = false := by simpa using hf
    rw [if_neg hf]
    by_cases he : b.head = b.tail
    · have hnil : contents b = [] := by
        rw [contents, h.count_eq_zero.mpr he, ring_zero]
      rw [if_pos he]
      exact .inr (.inl ⟨hf', hnil, rfl⟩)
    · rw [if_neg he]
      exact .inr (.inr ⟨b.data b.tail, { b with tail := (b.tail + 1) % rxCapacity }, hf', hf', contents_read h he, rfl⟩)

def answer (r : Int × UInt8 × RxBuffer) : Answer UInt8 :=
  if r.1 = -1 then .lost else if r.1 = 0 then .empty else .item r.2.1

/-- The status of a read and `*byte` after it. -/
def statusOf (byte : UInt8) : Answer UInt8 → Int × UInt8
  | .lost => (-1, byte)
  | .empty => (0, byte)
  | .item x => (1, x)

theorem fifo_read (h : Inv b) (byte : UInt8) :
    (((rxRead byte b).1, (rxRead byte b).2.1), fifo (rxRead byte b).2.2) =
      (statusOf byte (LossyFifo.read (fifo b)).1, (LossyFifo.read (fifo b)).2) := by
  obtain ⟨hf, hr⟩ | ⟨hf, hnil, hr⟩ | ⟨x, r, hf, hf', hcons, hr⟩ := h.read_cases byte
  · have hfifo : fifo b = .failed := if_pos hf
    rw [hr, hfifo, reset_fifo]
    rfl
  · have hfifo : fifo b = .items (contents b) := by simp [fifo, hf]
    rw [hr, hfifo, hnil]
    rfl
  · have hfifo : fifo b = .items (contents b) := by simp [fifo, hf]
    have hrest : fifo r = .items (contents r) := by simp [fifo, hf']
    rw [hr, hfifo, hcons, hrest]
    rfl

end Operations

/-- A call; `read` comes with what `*byte` holds before it. -/
inductive Op where
  | push (byte : UInt8)
  | read (byte : UInt8)
  | fail
  | reset

inductive Result where
  | pushed (kept : Bool)
  | status (value : Int) (byte : UInt8)
  | done
deriving DecidableEq

def perform (b : RxBuffer) : Op → Result × RxBuffer
  | .push byte => (.pushed (rxPush byte b).1, (rxPush byte b).2)
  | .read byte => (.status (rxRead byte b).1 (rxRead byte b).2.1, (rxRead byte b).2.2)
  | .fail => (.done, rxFail b)
  | .reset => (.done, rxReset b)

/-- The lossy queue of at most 255 bytes. -/
def specify : LossyFifo UInt8 → Op → Result × LossyFifo UInt8
  | .failed, .push _ => (.pushed false, .failed)
  | .items l, .push byte =>
    if l.length < 255 then (.pushed true, .items (l ++ [byte])) else (.pushed false, .failed)
  | .failed, .read byte => (.status (-1) byte, .items [])
  | .items [], .read byte => (.status 0 byte, .items [])
  | .items (x :: l), .read _ => (.status 1 x, .items l)
  | _, .fail => (.done, .failed)
  | _, .reset => (.done, .items [])

def results {σ : Type} (call : σ → Op → Result × σ) : σ → List Op → List Result × σ
  | s, [] => ([], s)
  | s, op :: ops =>
    let r := call s op
    let rest := results call r.2 ops
    (r.1 :: rest.1, rest.2)

section Runs

variable {b : RxBuffer}

theorem perform_inv (h : Inv b) (op : Op) : Inv (perform b op).2 := by
  cases op with
  | push byte => exact push_inv h byte
  | read byte => exact read_inv h byte
  | fail => exact fail_inv b
  | reset => exact reset_inv b

theorem specify_push (q : LossyFifo UInt8) (byte : UInt8) :
    specify q (.push byte) = (.pushed (LossyFifo.push 255 byte q).1, (LossyFifo.push 255 byte q).2) := by
  cases q with
  | failed => rfl
  | items l =>
    by_cases hroom : l.length < 255
    · simp [specify, LossyFifo.push, hroom]
    · simp [specify, LossyFifo.push, hroom]

theorem specify_read (q : LossyFifo UInt8) (byte : UInt8) :
    specify q (.read byte) = (.status (statusOf byte (LossyFifo.read q).1).1 (statusOf byte (LossyFifo.read q).1).2,
      (LossyFifo.read q).2) := by
  cases q with
  | failed => rfl
  | items l =>
    cases l with
    | nil => rfl
    | cons x l => rfl

theorem perform_specify (h : Inv b) (op : Op) :
    ((perform b op).1, fifo (perform b op).2) = specify (fifo b) op := by
  cases op with
  | push byte =>
    have hpush := fifo_push h byte
    rw [specify_push, ← hpush]
    rfl
  | read byte =>
    obtain ⟨hstatus, hnext⟩ := Prod.mk.inj (fifo_read h byte)
    rw [specify_read, ← hstatus, ← hnext]
    rfl
  | fail =>
    unfold perform
    rw [fail_fifo]
    cases fifo b with
    | failed => rfl
    | items l => rfl
  | reset =>
    unfold perform
    rw [reset_fifo]
    cases fifo b with
    | failed => rfl
    | items l => rfl

theorem results_specify (h : Inv b) (ops : List Op) :
    (results perform b ops).1 = (results specify (fifo b) ops).1 ∧
      fifo (results perform b ops).2 = (results specify (fifo b) ops).2 ∧ Inv (results perform b ops).2 := by
  induction ops generalizing b with
  | nil => exact ⟨rfl, rfl, h⟩
  | cons op ops ih =>
    have hstep := perform_specify h op
    have hres : (perform b op).1 = (specify (fifo b) op).1 := congrArg Prod.fst hstep
    have hnext : fifo (perform b op).2 = (specify (fifo b) op).2 := congrArg Prod.snd hstep
    obtain ⟨hlist, hfifo, hinv⟩ := ih (perform_inv h op)
    rw [hnext] at hlist hfifo
    refine ⟨?_, hfifo, hinv⟩
    change (perform b op).1 :: _ = (specify (fifo b) op).1 :: _
    rw [hres, hlist]

end Runs

/-- From a reset on, every call answers as the queue does, the queue never holds more than 255
    bytes, and the two indices stay in the array and meet exactly when it is empty. -/
theorem ring_refines_lossy_fifo (b : RxBuffer) (ops : List Op) :
    (results perform (rxReset b) ops).1 = (results specify (.items []) ops).1 ∧
    fifo (results perform (rxReset b) ops).2 = (results specify (.items []) ops).2 ∧
    (results perform (rxReset b) ops).2.head < 256 ∧ (results perform (rxReset b) ops).2.tail < 256 ∧
    ∀ l, (results specify (.items []) ops).2 = .items l → l.length ≤ 255 ∧
      ((results perform (rxReset b) ops).2.head = (results perform (rxReset b) ops).2.tail ↔ l = []) := by
  obtain ⟨hres, hfifo, hinv⟩ := results_specify (reset_inv b) ops
  rw [reset_fifo] at hres hfifo
  refine ⟨hres, hfifo, hinv.head_lt, hinv.tail_lt, fun l hl => ?_⟩
  have hitems := hfifo.trans hl
  have hcontents : contents (results perform (rxReset b) ops).2 = l := by
    unfold fifo at hitems
    split at hitems
    · exact absurd hitems (by simp)
    · injection hitems
  have hlen : l.length = count (results perform (rxReset b) ops).2 := by
    rw [← hcontents, contents, length_ring]
  rw [← List.length_eq_zero_iff, hlen, hinv.count_eq_zero]
  exact ⟨hinv.count_le, Iff.rfl⟩

end OsByAi.ReceiveRing
