import OsByAi.LoaderModel

set_option autoImplicit false

namespace OsByAi.LoaderRead
open CallTree ByteMemory ElfModel LoaderModel

def replies : Trace → List ReadReply
  | [] => []
  | ⟨⟨.read _ _ _, _⟩, r⟩ :: t => r :: replies t
  | _ :: t => replies t

/-- Every call is a read for exactly the bytes from `buffer + total` up to `buffer + length`. -/
def Requests (file buffer length : ℕ) : ℕ → Trace → Prop
  | _, [] => True
  | total, ⟨⟨.read f n a, _⟩, r⟩ :: t =>
    f = file ∧ total < length ∧ n = length - total ∧ a = buffer + total ∧ a + n = buffer + length ∧
      Requests file buffer length (total + ReadReply.count r) t
  | _, _ :: _ => False

/-- A read that succeeds within its request stores the next bytes of the file. -/
def Stores (content : ℕ → UInt8) : ℕ → Trace → Prop
  | _, [] => True
  | position, ⟨⟨.read _ n _, _⟩, r⟩ :: t =>
    (efiError (ReadReply.status r) = false → ReadReply.count r ≤ n →
      ∀ i < ReadReply.count r, ReadReply.data r i = content (position + i)) ∧
      Stores content (position + ReadReply.count r) t
  | position, _ :: t => Stores content position t

/-- Counts between one and what is missing, without an error, until nothing of `n` is missing. -/
def Fills : ℕ → List ReadReply → Prop
  | n, [] => n = 0
  | n, r :: rs => efiError r.status = false ∧ 1 ≤ r.count ∧ r.count ≤ n ∧ Fills (n - r.count) rs

theorem efiSuccess_ne {status : ℕ} (h : efiError status = true) : status ≠ efiSuccess := by
  rintro rfl
  exact absurd h (by decide)

theorem put_inside (m : Memory) {a n x : ℕ} (data : ℕ → UInt8) (h : a ≤ x ∧ x < a + n) :
    put m a n data x = data (x - a) := if_pos h

theorem put_outside (m : Memory) {a n x : ℕ} (data : ℕ → UInt8) (h : ¬ (a ≤ x ∧ x < a + n)) :
    put m a n data x = m x := if_neg h

structure Outcome (file buffer length total : ℕ) (m : Memory) (t : Trace) (r : ℕ × Memory) : Prop where
  requests : Requests file buffer length total t
  short : t.length ≤ length - total
  success : r.1 = efiSuccess ↔ Fills (length - total) (replies t)
  before : ∀ x < buffer + total, r.2 x = m x
  stored : r.1 = efiSuccess → ∀ content, Stores content total t →
    ∀ i, total ≤ i → i < length → r.2 (buffer + i) = content i

section Loop

variable {file buffer length : ℕ}

theorem readFrom_round {total : ℕ} (hlt : total < length) (m : Memory) :
    readFrom file buffer length total m = ask (.read file (length - total) (buffer + total)) m >>= fun r =>
      if efiError (ReadReply.status r) then pure (ReadReply.status r, m) else
        if ReadReply.count r = 0 ∨ ReadReply.count r > length - total then pure (efiLoadError, m) else
          readFrom file buffer length (total + ReadReply.count r)
            (put m (buffer + total) (ReadReply.count r) (ReadReply.data r)) := by
  rw [readFrom, dif_pos hlt]
  simp only [dite_eq_ite]

theorem outcome_error {total status : ℕ} (hlt : total < length) (m m' : Memory) (r : ReadReply)
    (hbad : ¬ (efiError r.status = false ∧ 1 ≤ r.count ∧ r.count ≤ length - total)) (hs : efiError status = true) :
    Outcome file buffer length total m
      [(⟨⟨.read file (length - total) (buffer + total), m'⟩, r⟩ : Exchange Call Call.Reply)] (status, m) where
  requests := ⟨rfl, hlt, rfl, rfl, by omega, trivial⟩
  short := by
    rw [List.length_singleton]
    omega
  success := by
    constructor
    · exact fun h => absurd h (efiSuccess_ne hs)
    · exact fun h => absurd ⟨h.1, h.2.1, h.2.2.1⟩ hbad
  before := fun _ _ => rfl
  stored := fun h => absurd h (efiSuccess_ne hs)

theorem outcome_read {total : ℕ} (hlt : total < length) {m : Memory} (m' : Memory) {r : ReadReply} {t : Trace}
    {result : ℕ × Memory} (herr : efiError r.status = false) (hpos : 1 ≤ r.count) (hle : r.count ≤ length - total)
    (h : Outcome file buffer length (total + r.count) (put m (buffer + total) r.count r.data) t result) :
    Outcome file buffer length total m
      ((⟨⟨.read file (length - total) (buffer + total), m'⟩, r⟩ : Exchange Call Call.Reply) :: t) result where
  requests := ⟨rfl, hlt, rfl, rfl, by omega, h.requests⟩
  short := by
    have hshort := h.short
    rw [List.length_cons]
    omega
  success := by
    rw [h.success, show length - (total + r.count) = length - total - r.count by omega]
    exact ⟨fun hf => ⟨herr, hpos, hle, hf⟩, fun hf => hf.2.2.2⟩
  before := by
    intro x hx
    rw [h.before x (by omega), put_outside _ _ (by omega)]
  stored := by
    intro hs content hst i hi hlen
    by_cases hnew : i < total + r.count
    · have hbyte := hst.1 herr hle (i - total) (by omega)
      rw [h.before _ (by omega), put_inside _ _ (by omega), show buffer + i - (buffer + total) = i - total by omega]
      rw [show total + (i - total) = i by omega] at hbyte
      exact hbyte
    · exact h.stored hs content hst.2 i (by omega) hlen

theorem readFrom_outcome (missing : ℕ) {total : ℕ} (hmissing : length - total ≤ missing) (hle : total ≤ length)
    {m : Memory} {t : Trace} {r : ℕ × Memory} (h : Returns (readFrom file buffer length total m) t r) :
    Outcome file buffer length total m t r := by
  induction missing generalizing total m t with
  | zero =>
    rw [readFrom, dif_neg (by omega), returns_pure] at h
    obtain ⟨rfl, rfl⟩ := h
    have heq : length - total = 0 := by omega
    exact ⟨trivial, Nat.zero_le _, by simp [Fills, replies, heq], fun _ _ => rfl, fun _ _ _ i _ _ => by omega⟩
  | succ missing ih =>
    by_cases hlt : total < length
    · rw [readFrom_round hlt, returns_ask_bind] at h
      obtain ⟨reply, t, rfl, h⟩ := h
      cases herr : efiError (ReadReply.status reply) with
      | true =>
        rw [if_pos herr, returns_pure] at h
        obtain ⟨rfl, rfl⟩ := h
        exact outcome_error hlt m m reply (fun hc => absurd hc.1 (by rw [herr]; decide)) herr
      | false =>
        rw [if_neg (by rw [herr]; decide)] at h
        by_cases hbad : ReadReply.count reply = 0 ∨ ReadReply.count reply > length - total
        · rw [if_pos hbad, returns_pure] at h
          obtain ⟨rfl, rfl⟩ := h
          exact outcome_error hlt m m reply (by omega) (by decide)
        · rw [if_neg hbad] at h
          exact outcome_read hlt m herr (by omega) (by omega) (ih (by omega) (by omega) h)
    · exact ih (by omega) hle h

end Loop

/-- For every length and every sequence of results: the loop ends after at most `length` reads, each
    asks for the bytes still missing, success means that they were all delivered, and then the buffer
    is the start of the file. -/
theorem read_entire_file_correct (file buffer length : ℕ) (m : Memory) :
    (∀ env, ∃ t r, Returns (readEntireFile file buffer length m) t r ∧ Answers env [] t) ∧
    ∀ t r, Returns (readEntireFile file buffer length m) t r →
      t.length ≤ length ∧ Requests file buffer length 0 t ∧
      (r.1 = efiSuccess ↔ Fills length (replies t)) ∧
      (r.1 = efiSuccess → ∀ content, Stores content 0 t → ∀ i < length, r.2 (buffer + i) = content i) := by
  refine ⟨fun env => ⟨_, _, play_returns env [] _⟩, fun t r h => ?_⟩
  have hout : Outcome file buffer length 0 m t r := readFrom_outcome length (Nat.sub_le _ _) (Nat.zero_le _) h
  exact ⟨hout.short, hout.requests, hout.success,
    fun hs content hst i hi => hout.stored hs content hst i (Nat.zero_le _) hi⟩

end OsByAi.LoaderRead
