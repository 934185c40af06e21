import OsByAi.ConsoleModel

set_option autoImplicit false

namespace OsByAi.ConsoleDiscipline
open ConsoleModel

inductive Outcome where
  | execute (text : List UInt8)
  | discarded
deriving DecidableEq

/-- Delete every LF right after a CR; `cr` says whether the byte before was one. -/
def dropLf : Bool → List UInt8 → List UInt8
  | _, [] => []
  | cr, b :: bytes => if b = 10 ∧ cr then dropLf false bytes else b :: dropLf (b = 13) bytes

def isEnd (b : UInt8) : Bool := b == 13 || b == 10

/-- The pieces between line ends. What follows the last line end is still being typed. -/
def pieces (bytes : List UInt8) : List (List UInt8) := (bytes.splitOnP isEnd).dropLast

def afterInterrupt (piece : List UInt8) : List UInt8 := piece.rtakeWhile (· != 3)

def isFinal (b : UInt8) : Bool := 0x40 ≤ b && b ≤ 0x7e

def stripEscapes : List UInt8 → List UInt8
  | [] => []
  | [b] => if b = 27 then [] else [b]
  | b :: x :: rest =>
    if b = 27 then
      if x = 91 ∨ x = 79 then stripEscapes ((rest.dropWhile (!isFinal ·)).drop 1)
      else stripEscapes rest
    else b :: stripEscapes (x :: rest)
termination_by l => l.length
decreasing_by
  · have := (List.dropWhile_sublist (l := rest) (!isFinal ·)).length_le
    simp only [List.length_drop, List.length_cons]
    omega
  · simp
  · simp

/-- One edited character; `none` when the 128th would be pushed. -/
def editByte (stack : List UInt8) (b : UInt8) : Option (List UInt8) :=
  if b = 8 ∨ b = 127 then some stack.dropLast
  else if b = 9 ∨ (32 ≤ b ∧ b ≤ 126) then
    if stack.length = 127 then none else some (stack ++ [if b = 9 then 32 else b])
  else some stack

def edit (bytes : List UInt8) : Option (List UInt8) := bytes.foldlM editByte []

def toOutcome : Option (List UInt8) → Outcome
  | none => .discarded
  | some text => .execute text

def outcome (piece : List UInt8) : Outcome := toOutcome (edit (stripEscapes (afterInterrupt piece)))

def strip (text : List UInt8) : List UInt8 := (text.rdropWhile isBlank).dropWhile isBlank

def commandOf (text : List UInt8) : Command :=
  if strip text = [] then .blank
  else if strip text = word ['h', 'e', 'l', 'p'] then .help
  else if strip text = word ['t', 'i', 'c', 'k', 's'] then .ticks
  else if strip text = word ['m', 'e', 'm'] then .mem
  else if strip text = word ['c', 'l', 'e', 'a', 'r'] then .clear
  else if strip text = word ['h', 'a', 'l', 't'] then .halt
  else .unknown

def halts : Outcome → Bool
  | .execute text => commandOf text = .halt
  | .discarded => false

def upToHalt : List Outcome → List Outcome
  | [] => []
  | o :: os => if halts o then [o] else o :: upToHalt os

def reference (bytes : List UInt8) : List Outcome :=
  upToHalt ((pieces (dropLf false bytes)).map outcome)

def outcomeOf : Effect → Option Outcome
  | .execute text => some (.execute text)
  | .discarded => some .discarded
  | _ => none

def executed : Effect → Option (List UInt8)
  | .execute text => some text
  | _ => none

def dispatched : Effect → Option Command
  | .dispatch command => some command
  | _ => none

section Commands

variable (line : ℕ → UInt8)

def slice (i n : ℕ) : List UInt8 := (List.range' i n).map line

theorem slice_succ (i n : ℕ) : slice line i (n + 1) = line i :: slice line (i + 1) n := by
  rw [slice, List.range'_succ, List.map_cons, slice]

theorem slice_concat (i n : ℕ) : slice line i (n + 1) = slice line i n ++ [line (i + n)] := by
  rw [slice, List.range'_1_concat, List.map_append, List.map_singleton, slice]

theorem slice_update {i n k : ℕ} (hk : i + n ≤ k) (x : UInt8) :
    slice (Function.update line k x) i n = slice line i n := by
  apply List.map_congr_left
  intro j hj
  have := List.mem_range'_1.mp hj
  exact Function.update_of_ne (by omega) _ _

theorem trimEnd_le (n : ℕ) : trimEnd line n ≤ n := by
  induction n with
  | zero => exact le_refl _
  | succ n ih =>
    rw [trimEnd]
    split
    · omega
    · exact le_refl _

theorem slice_trimEnd (n : ℕ) : slice line 0 (trimEnd line n) = (slice line 0 n).rdropWhile isBlank := by
  induction n with
  | zero => rfl
  | succ n ih =>
    rw [trimEnd, slice_concat, Nat.zero_add]
    by_cases hb : isBlank (line n) = true
    · rw [if_pos hb, ih, List.rdropWhile_concat_pos _ _ _ hb]
    · rw [if_neg hb, slice_concat, Nat.zero_add, List.rdropWhile_concat_neg _ _ _ hb]

theorem slice_skipBlanks {i n fuel : ℕ} (hz : line (i + n) = 0) (hn : n ≤ fuel) :
    ∃ k, k ≤ n ∧ skipBlanks line i fuel + k = i + n ∧
      slice line (skipBlanks line i fuel) k = (slice line i n).dropWhile isBlank := by
  induction fuel generalizing i n with
  | zero =>
    obtain rfl : n = 0 := by omega
    exact ⟨0, le_refl _, rfl, rfl⟩
  | succ fuel ih =>
    rw [skipBlanks]
    cases n with
    | zero =>
      rw [Nat.add_zero] at hz
      rw [if_neg (by rw [hz]; decide)]
      exact ⟨0, le_refl _, rfl, rfl⟩
    | succ n =>
      rw [slice_succ, List.dropWhile_cons]
      by_cases hb : isBlank (line i) = true
      · rw [if_pos hb, if_pos hb]
        obtain ⟨k, hk, hsum, hs⟩ := ih (i := i + 1) (n := n) (by rw [← hz]; congr 1; omega) (by omega)
        exact ⟨k, by omega, by omega, hs⟩
      · rw [if_neg hb, if_neg hb]
        exact ⟨n + 1, le_refl _, rfl, slice_succ line i n⟩

theorem equal_iff {i n : ℕ} {w : List UInt8} (hz : line (i + n) = 0)
    (hne : ∀ c ∈ slice line i n, c ≠ 0) (hw : ∀ c ∈ w, c ≠ 0) :
    equal line i w = true ↔ slice line i n = w := by
  induction w generalizing i n with
  | nil =>
    cases n with
    | zero => simpa [equal, slice] using hz
    | succ n =>
      rw [slice_succ] at hne ⊢
      simpa [equal] using hne (line i) List.mem_cons_self
  | cons c w ih =>
    rw [equal, Bool.and_eq_true, beq_iff_eq]
    cases n with
    | zero =>
      rw [Nat.add_zero] at hz
      rw [hz]
      have := hw c List.mem_cons_self
      constructor
      · exact fun h => absurd h.1.symm this
      · exact fun h => absurd h (by simp [slice])
    | succ n =>
      rw [slice_succ] at hne ⊢
      rw [List.cons.injEq, ih (by rw [← hz]; congr 1; omega)
        (fun c hc => hne c (List.mem_cons_of_mem _ hc)) fun c hc => hw c (List.mem_cons_of_mem _ hc)]

theorem commandAt_eq {i n : ℕ} {t : List UInt8} (hz : line (i + n) = 0)
    (hne : ∀ c ∈ slice line i n, c ≠ 0) (ht : slice line i n = strip t) :
    commandAt line i = commandOf t := by
  have hblank : (line i == 0) = true ↔ strip t = [] := by
    rw [← ht, beq_iff_eq]
    cases n with
    | zero => simpa [slice] using hz
    | succ n =>
      rw [slice_succ] at hne ⊢
      simpa using hne (line i) List.mem_cons_self
  have heq : ∀ w : List UInt8, (∀ c ∈ w, c ≠ 0) → (equal line i w = true ↔ strip t = w) := by
    intro w hw
    rw [equal_iff line hz hne hw, ht]
  unfold commandAt commandOf
  simp only [hblank, heq _ (show ∀ c ∈ word ['h', 'e', 'l', 'p'], c ≠ 0 by decide +kernel),
    heq _ (show ∀ c ∈ word ['t', 'i', 'c', 'k', 's'], c ≠ 0 by decide +kernel),
    heq _ (show ∀ c ∈ word ['m', 'e', 'm'], c ≠ 0 by decide +kernel),
    heq _ (show ∀ c ∈ word ['c', 'l', 'e', 'a', 'r'], c ≠ 0 by decide +kernel),
    heq _ (show ∀ c ∈ word ['h', 'a', 'l', 't'], c ≠ 0 by decide +kernel)]

/-- The command depends on the text alone, not on what older lines left in the buffer. -/
theorem execute_command (counters : Counters) {n : ℕ} (hn : n ≤ 127)
    (hne : ∀ c ∈ slice line 0 n, c ≠ 0) :
    (execute counters line n).2.2 = commandOf (slice line 0 n) := by
  have hle := trimEnd_le line n
  have htrim := slice_trimEnd line n
  have hkeep : slice (Function.update line (trimEnd line n) 0) 0 (trimEnd line n) =
      slice line 0 (trimEnd line n) := slice_update line (by omega) 0
  have hbound : trimEnd line n ≤ 128 := by omega
  obtain ⟨k, hk, hsum, hs⟩ := slice_skipBlanks (Function.update line (trimEnd line n) 0)
    (i := 0) (by rw [Nat.zero_add, Function.update_self]) hbound
  change commandAt _ _ = _
  apply commandAt_eq
  · rw [hsum, Nat.zero_add, Function.update_self]
  · rw [hs, hkeep, htrim]
    intro c hc
    have htrimmed := (List.dropWhile_sublist _).subset hc
    exact hne c ((List.rdropWhile_prefix _ _).subset htrimmed)
  · rw [hs, hkeep, htrim, strip]

end Commands

/-- The characters that get through when the scan starts in escape state `esc`. -/
def scan : ℕ → List UInt8 → List UInt8
  | _, [] => []
  | esc, b :: bytes =>
    if esc = 1 then scan (if b = 91 ∨ b = 79 then 2 else 0) bytes
    else if esc = 2 then scan (if 0x40 ≤ b ∧ b ≤ 0x7e then 0 else 2) bytes
    else if b ≠ 27 then b :: scan esc bytes
    else scan 1 bytes

theorem isFinal_iff (b : UInt8) : isFinal b = true ↔ 0x40 ≤ b ∧ b ≤ 0x7e := by
  simp [isFinal]

theorem scan_two (bytes : List UInt8) :
    scan 2 bytes = scan 0 ((bytes.dropWhile (!isFinal ·)).drop 1) := by
  induction bytes with
  | nil => rfl
  | cons b bytes ih =>
    rw [scan, if_neg (by decide), if_pos rfl, List.dropWhile_cons]
    by_cases hb : isFinal b = true
    · rw [if_pos ((isFinal_iff b).mp hb), if_neg (by simp [hb]), List.drop_one, List.tail_cons]
    · rw [if_neg (mt (isFinal_iff b).mpr hb), if_pos (by simp [hb]), ih]

/-- Byte by byte and by whole sequences the same characters get through. -/
theorem stripEscapes_eq (bytes : List UInt8) : stripEscapes bytes = scan 0 bytes := by
  fun_induction stripEscapes bytes with
  | case1 => rfl
  | case2 => rfl
  | case3 b hb =>
    simp [scan, hb]
  | case4 x rest hx ih =>
    rw [ih, ← scan_two]
    simp [scan, hx]
  | case5 x rest hx ih =>
    rw [ih]
    simp [scan, hx]
  | case6 b x rest hb ih =>
    rw [ih]
    conv_rhs => rw [scan]
    simp [hb]

structure Wf (e : LineEditor) : Prop where
  length_le : e.length ≤ 127
  nonzero : ∀ c ∈ text e, c ≠ 0

theorem length_text (e : LineEditor) : (text e).length = e.length := by
  simp [text]

theorem text_eq_slice (e : LineEditor) : text e = slice e.line 0 e.length := rfl

/-- What the current line will come to if the rest of it is `piece`. -/
def resume (e : LineEditor) (piece : List UInt8) : Outcome :=
  if 3 ∈ piece then outcome piece
  else if e.discard then .discarded
  else toOutcome ((scan e.escape piece).foldlM editByte (text e))

theorem afterInterrupt_of_notMem {piece : List UInt8} (h : 3 ∉ piece) :
    afterInterrupt piece = piece := by
  rw [afterInterrupt, List.rtakeWhile_eq_self_iff]
  intro b hb
  simp only [bne_iff_ne]
  rintro rfl
  exact h hb

theorem afterInterrupt_cons_of_mem {piece : List UInt8} (h : 3 ∈ piece) (b : UInt8) :
    afterInterrupt (b :: piece) = afterInterrupt piece := by
  induction piece using List.reverseRecOn with
  | nil => exact absurd h (by simp)
  | append_singleton piece c ih =>
    unfold afterInterrupt at ih ⊢
    rw [← List.cons_append, List.rtakeWhile_concat, List.rtakeWhile_concat]
    by_cases hc : c = 3
    · simp [hc]
    · have hmem : 3 ∈ piece := by
        rcases List.mem_append.mp h with h | h
        · exact h
        · exact absurd (List.mem_singleton.mp h).symm hc
      rw [ih hmem]

theorem afterInterrupt_cons_self {piece : List UInt8} (h : 3 ∉ piece) :
    afterInterrupt (3 :: piece) = piece := by
  induction piece using List.reverseRecOn with
  | nil => rfl
  | append_singleton piece c ih =>
    rw [List.mem_append, List.mem_singleton, not_or] at h
    have hc : (c != 3) = true := bne_iff_ne.mpr fun he => h.2 he.symm
    unfold afterInterrupt at ih ⊢
    rw [← List.cons_append, List.rtakeWhile_concat, if_pos hc, ih h.1]

theorem resume_fresh {e : LineEditor} (hlen : e.length = 0) (hesc : e.escape = 0)
    (hdis : e.discard = false) (piece : List UInt8) : resume e piece = outcome piece := by
  unfold resume
  by_cases h3 : 3 ∈ piece
  · rw [if_pos h3]
  · have htext : text e = [] := List.eq_nil_of_length_eq_zero (by rw [length_text, hlen])
    rw [if_neg h3, hdis, hesc, htext, outcome, afterInterrupt_of_notMem h3, stripEscapes_eq]
    rfl

theorem resume_interrupt (e : LineEditor) (piece : List UInt8) :
    resume e (3 :: piece) = outcome piece := by
  rw [resume, if_pos List.mem_cons_self, outcome, outcome]
  by_cases h3 : 3 ∈ piece
  · rw [afterInterrupt_cons_of_mem h3]
  · rw [afterInterrupt_cons_self h3, afterInterrupt_of_notMem h3]

theorem text_push (e : LineEditor) (c : UInt8) :
    text { e with line := Function.update e.line e.length c, length := e.length + 1 } =
      text e ++ [c] := by
  rw [text_eq_slice, text_eq_slice, slice_concat, Nat.zero_add, slice_update _ (by simp)]
  simp only [Function.update_self]

theorem editPlain_spec {e : LineEditor} (h : Wf e) (b : UInt8) :
    Wf (editPlain e b).1 ∧ (editPlain e b).1.escape = e.escape ∧
    (editPlain e b).1.afterCr = e.afterCr ∧
    ((editPlain e b).1.discard = e.discard ∧ editByte (text e) b = some (text (editPlain e b).1) ∨
      (editPlain e b).1.discard = true ∧ editByte (text e) b = none) := by
  have hlen := length_text e
  unfold editPlain editByte
  by_cases hpop : b = 8 ∨ b = 127
  · rw [if_pos hpop, if_pos hpop]
    by_cases hz : e.length ≠ 0
    · rw [if_pos hz]
      have htext : text { e with length := e.length - 1 } = (text e).dropLast := by
        obtain ⟨n, hn⟩ := Nat.exists_eq_succ_of_ne_zero hz
        rw [text_eq_slice, text_eq_slice, hn, Nat.succ_eq_add_one, slice_concat, List.dropLast_concat]
        rfl
      refine ⟨⟨(Nat.sub_le _ _).trans h.length_le, ?_⟩, rfl, rfl, .inl ⟨rfl, by rw [htext]⟩⟩
      rw [htext]
      exact fun c hc => h.nonzero c (List.dropLast_subset _ hc)
    · rw [if_neg hz]
      have hnil : text e = [] := List.eq_nil_of_length_eq_zero (by omega)
      exact ⟨h, rfl, rfl, .inl ⟨rfl, by rw [hnil]; rfl⟩⟩
  · rw [if_neg hpop, if_neg hpop]
    by_cases hskip : b ≠ 9 ∧ (b < 32 ∨ b > 126)
    · have hno : ¬ (b = 9 ∨ (32 ≤ b ∧ b ≤ 126)) := by
        rintro (h9 | ⟨hlo, hhi⟩)
        · exact hskip.1 h9
        · rcases hskip.2 with hlt | hgt
          · exact absurd hlo (UInt8.not_le.mpr hlt)
          · exact absurd hhi (UInt8.not_le.mpr hgt)
      rw [if_pos hskip, if_neg hno]
      exact ⟨h, rfl, rfl, .inl ⟨rfl, rfl⟩⟩
    · have hyes : b = 9 ∨ (32 ≤ b ∧ b ≤ 126) := by
        by_contra hno
        rw [not_or, not_and_or, UInt8.not_le, UInt8.not_le] at hno
        exact hskip hno
      rw [if_neg hskip, if_pos hyes, hlen]
      by_cases hfull : e.length = 127
      · rw [if_pos hfull, if_pos hfull]
        exact ⟨⟨h.length_le, h.nonzero⟩, rfl, rfl, .inr ⟨rfl, rfl⟩⟩
      · rw [if_neg hfull, if_neg hfull]
        have hle := h.length_le
        have htext := text_push e (if b = 9 then 32 else b)
        refine ⟨⟨Nat.succ_le_of_lt (by omega), ?_⟩, rfl, rfl, .inl ⟨rfl, by rw [htext]⟩⟩
        rw [htext]
        intro c hc
        rcases List.mem_append.mp hc with hc | hc
        · exact h.nonzero c hc
        · rw [List.mem_singleton.mp hc]
          split
          · decide
          · rename_i h9
            rintro rfl
            rcases hyes with h0 | ⟨hlo, -⟩
            · exact h9 h0
            · exact absurd hlo (by decide)

theorem consumeEscape_spec (e : LineEditor) (b : UInt8) (piece : List UInt8) :
    (consumeEscape e b).1 = true ∧ (∃ esc, (consumeEscape e b).2 = { e with escape := esc } ∧
        scan e.escape (b :: piece) = scan esc piece) ∨
      consumeEscape e b = (false, e) ∧ scan e.escape (b :: piece) = b :: scan e.escape piece := by
  unfold consumeEscape
  by_cases h1 : e.escape = 1
  · rw [if_pos h1, scan, if_pos h1]
    exact .inl ⟨rfl, _, rfl, rfl⟩
  · rw [if_neg h1, scan, if_neg h1]
    by_cases h2 : e.escape = 2
    · rw [if_pos h2, if_pos h2]
      refine .inl ⟨rfl, if 0x40 ≤ b ∧ b ≤ 0x7e then 0 else 2, ?_, rfl⟩
      by_cases hf : 0x40 ≤ b ∧ b ≤ 0x7e
      · rw [if_pos hf, if_pos hf]
      · rw [if_neg hf, if_neg hf, ← h2]
    · rw [if_neg h2, if_neg h2]
      by_cases h27 : b ≠ 27
      · rw [if_pos h27, if_pos h27]
        exact .inr ⟨rfl, rfl⟩
      · rw [if_neg h27, if_neg h27]
        exact .inl ⟨rfl, 1, rfl, rfl⟩

theorem editCharacter_wf {e : LineEditor} (h : Wf e) (b : UInt8) :
    Wf (editCharacter e b).1 ∧ (editCharacter e b).1.afterCr = e.afterCr := by
  unfold editCharacter
  by_cases hd : e.discard = true
  · rw [if_pos hd]
    exact ⟨h, rfl⟩
  · rw [if_neg hd]
    obtain ⟨hc, esc, he, -⟩ | ⟨hc, -⟩ := consumeEscape_spec e b []
    · simp only [hc, he, if_true]
      exact ⟨⟨h.length_le, h.nonzero⟩, trivial⟩
    · simp only [hc, Bool.false_eq_true, if_false]
      obtain ⟨hwf, -, hcr, -⟩ := editPlain_spec h b
      exact ⟨hwf, hcr⟩

theorem resume_edit {e : LineEditor} (h : Wf e) {b : UInt8} (hb : b ≠ 3) (piece : List UInt8) :
    resume e (b :: piece) = resume (editCharacter e b).1 piece := by
  by_cases h3 : 3 ∈ piece
  · rw [resume, resume, if_pos (List.mem_cons_of_mem b h3), if_pos h3, outcome, outcome,
      afterInterrupt_cons_of_mem h3]
  · have h3' : 3 ∉ b :: piece := by
      rw [List.mem_cons, not_or]
      exact ⟨fun he => hb he.symm, h3⟩
    rw [resume, resume, if_neg h3', if_neg h3]
    unfold editCharacter
    by_cases hd : e.discard = true
    · rw [if_pos hd, if_pos hd, if_pos hd]
    · rw [if_neg hd, if_neg hd]
      obtain ⟨hc, esc, he, hscan⟩ | ⟨hc, hscan⟩ := consumeEscape_spec e b piece
      · simp only [hc, he, if_true]
        rw [if_neg hd, hscan]
        rfl
      · simp only [hc, Bool.false_eq_true, if_false]
        obtain ⟨-, hesc, -, ⟨hdis, hstep⟩ | ⟨hdis, hstep⟩⟩ := editPlain_spec h b
        · rw [hdis, if_neg hd, hscan, hesc, List.foldlM_cons, hstep]
          rfl
        · rw [hdis, if_pos rfl, hscan, List.foldlM_cons, hstep]
          rfl

/-- What is reported, dispatched and written by `effects` is as it should be for outcomes `os`. -/
structure Shows (effects : List Effect) (os : List Outcome) : Prop where
  outcomes : effects.filterMap outcomeOf = os
  commands : effects.filterMap dispatched = (effects.filterMap executed).map commandOf
  stores : ∀ i, Effect.store i ∈ effects → i < 128

theorem shows_nil : Shows [] [] := ⟨rfl, rfl, fun i hi => absurd hi (by simp)⟩

theorem Shows.append {fx fx' : List Effect} {os os' : List Outcome} (h : Shows fx os)
    (h' : Shows fx' os') : Shows (fx ++ fx') (os ++ os') where
  outcomes := by rw [List.filterMap_append, h.outcomes, h'.outcomes]
  commands := by
    rw [List.filterMap_append, List.filterMap_append, List.map_append, h.commands, h'.commands]
  stores i hi := by
    rcases List.mem_append.mp hi with hi | hi
    · exact h.stores i hi
    · exact h'.stores i hi

theorem shows_outputs (texts : List String) : Shows (texts.map .output) [] := by
  induction texts with
  | nil => exact shows_nil
  | cons t texts ih =>
    refine ⟨ih.outcomes, ih.commands, fun i hi => ih.stores i ?_⟩
    rcases List.mem_cons.mp hi with hi | hi
    · exact absurd hi (by simp)
    · exact hi

theorem shows_store {i : ℕ} (hi : i < 128) : Shows [.store i] [] :=
  ⟨rfl, rfl, fun j hj => by cases List.mem_singleton.mp hj; exact hi⟩

theorem editCharacter_shows {e : LineEditor} (h : Wf e) (b : UInt8) :
    Shows (editCharacter e b).2 [] := by
  have hle := h.length_le
  unfold editCharacter
  by_cases hd : e.discard = true
  · rw [if_pos hd]
    exact shows_nil
  · rw [if_neg hd]
    obtain ⟨hc, esc, he, -⟩ | ⟨hc, -⟩ := consumeEscape_spec e b []
    · simp only [hc, he, if_true]
      exact shows_nil
    · simp only [hc, Bool.false_eq_true, if_false]
      unfold editPlain
      split
      · split
        · exact shows_outputs ["\x08 \x08"]
        · exact shows_nil
      · split
        · exact shows_nil
        · split
          · exact shows_nil
          · exact (shows_store (by omega)).append (shows_outputs [_])

theorem finishLine_spec (counters : Counters) {e : LineEditor} (h : Wf e) :
    Shows (finishLine counters e).effects [resume e []] ∧
    (finishLine counters e).halted = halts (resume e []) ∧
    (finishLine counters e).editor.length ≤ 127 ∧
    ((finishLine counters e).halted = false →
      (finishLine counters e).editor.length = 0 ∧ (finishLine counters e).editor.escape = 0 ∧
      (finishLine counters e).editor.discard = false ∧
      (finishLine counters e).editor.afterCr = e.afterCr) := by
  have hresume : resume e [] = if e.discard then .discarded else .execute (text e) := rfl
  have hcommand := execute_command e.line counters h.length_le h.nonzero
  have htrim := trimEnd_le e.line e.length
  have hle := h.length_le
  have heffects : ∃ (i : ℕ) (rest : List String), i < 128 ∧ (execute counters e.line e.length).2.1 =
      .store i :: .dispatch (commandOf (text e)) :: rest.map .output := by
    refine ⟨_, _, ?_, by rw [text_eq_slice, ← hcommand]; rfl⟩
    omega
  obtain ⟨i, rest, hi, hfx⟩ := heffects
  unfold finishLine
  by_cases hd : e.discard = true
  · rw [if_pos hd, hresume, if_pos hd]
    exact ⟨⟨rfl, rfl, fun i hi => absurd hi (by simp)⟩, rfl, Nat.zero_le _, fun _ => ⟨rfl, rfl, rfl, rfl⟩⟩
  · rw [if_neg hd, hresume, if_neg hd]
    simp only [hfx, hcommand, ← text_eq_slice]
    have hshow : Shows (.output "\n" :: .execute (text e) :: .store i ::
        .dispatch (commandOf (text e)) :: rest.map .output) [.execute (text e)] := by
      have hrest := shows_outputs rest
      refine ⟨?_, ?_, ?_⟩
      · simp only [List.filterMap_cons, outcomeOf, hrest.outcomes]
      · simp only [List.filterMap_cons, dispatched, executed, List.map_cons, hrest.commands]
      · intro j hj
        simp only [List.mem_cons, reduceCtorEq, false_or, Effect.store.injEq] at hj
        rcases hj with rfl | hj
        · exact hi
        · exact hrest.stores j hj
    by_cases hh : commandOf (text e) = .halt
    · rw [if_pos hh]
      exact ⟨hshow, by simp [halts, hh], hle, fun hf => absurd hf (by simp)⟩
    · rw [if_neg hh]
      refine ⟨?_, by simp [halts, hh], Nat.zero_le _, fun _ => ⟨rfl, rfl, rfl, rfl⟩⟩
      have := hshow.append (shows_outputs ["K> "])
      simpa using this

def outcomesFrom (e : LineEditor) : List (List UInt8) → List Outcome
  | [] => []
  | p :: ps => resume e p :: ps.map outcome

def expected (e : LineEditor) (bytes : List UInt8) : List Outcome :=
  outcomesFrom e (pieces (dropLf e.afterCr bytes))

theorem pieces_end {b : UInt8} (hb : isEnd b = true) (bytes : List UInt8) :
    pieces (b :: bytes) = [] :: pieces bytes := by
  rw [pieces, List.splitOnP_cons_eq_if_modifyHead, if_pos hb,
    List.dropLast_cons_of_ne_nil (List.splitOnP_ne_nil _ _), pieces]

theorem pieces_cons {b : UInt8} (hb : isEnd b = false) (bytes : List UInt8) :
    pieces (b :: bytes) = (pieces bytes).modifyHead (b :: ·) := by
  rw [pieces, List.splitOnP_cons_eq_if_modifyHead, if_neg (by simp [hb]), pieces]
  cases bytes.splitOnP isEnd with
  | nil => rfl
  | cons p ps =>
    cases ps with
    | nil => rfl
    | cons p' ps => rfl

theorem outcomesFrom_fresh {e : LineEditor} (hlen : e.length = 0) (hesc : e.escape = 0)
    (hdis : e.discard = false) (ps : List (List UInt8)) : outcomesFrom e ps = ps.map outcome := by
  cases ps with
  | nil => rfl
  | cons p ps => rw [outcomesFrom, resume_fresh hlen hesc hdis, List.map_cons]

theorem outcomesFrom_step {e e' : LineEditor} {b : UInt8}
    (h : ∀ piece, resume e (b :: piece) = resume e' piece) (ps : List (List UInt8)) :
    outcomesFrom e (ps.modifyHead (b :: ·)) = outcomesFrom e' ps := by
  cases ps with
  | nil => rfl
  | cons p ps => rw [List.modifyHead_cons, outcomesFrom, outcomesFrom, h]

/-- What one byte does: it shows at most one outcome, and the rest of the stream is left to the
    editor that it leaves behind. -/
theorem acceptInput_spec (counters : Counters) {e : LineEditor} (h : Wf e) (b : UInt8) :
    ∃ os, Shows (acceptInput counters e b).effects os ∧
      (acceptInput counters e b).halted = os.any halts ∧ os.length ≤ 1 ∧
      (acceptInput counters e b).editor.length ≤ 127 ∧
      ((acceptInput counters e b).halted = false → Wf (acceptInput counters e b).editor ∧
        ∀ bytes, expected e (b :: bytes) = os ++ expected (acceptInput counters e b).editor bytes) ∧
      ((acceptInput counters e b).halted = true → ∀ bytes, ∃ rest, expected e (b :: bytes) = os ++ rest) := by
  unfold acceptInput
  by_cases hlf : b = 10 ∧ e.afterCr = true
  · rw [if_pos hlf]
    refine ⟨[], shows_nil, rfl, Nat.zero_le _, h.length_le, fun _ => ⟨⟨h.length_le, h.nonzero⟩, ?_⟩,
      fun hf => absurd hf (by simp)⟩
    intro bytes
    rw [expected, dropLf, if_pos hlf]
    rfl
  · rw [if_neg hlf]
    have hexp : ∀ bytes, expected e (b :: bytes) =
        outcomesFrom e (pieces (b :: dropLf (b = 13) bytes)) := by
      intro bytes
      rw [expected, dropLf, if_neg hlf]
    have hwf : Wf { e with afterCr := decide (b = 13) } := ⟨h.length_le, h.nonzero⟩
    by_cases h3 : b = 3
    · subst h3
      rw [if_pos rfl]
      refine ⟨[], shows_outputs ["^C\nK> "], rfl, Nat.zero_le _, Nat.zero_le _,
        fun _ => ⟨⟨Nat.zero_le _, fun c hc => absurd hc (by simp [text, resetLine])⟩, ?_⟩,
        fun hf => absurd hf (by simp)⟩
      intro bytes
      have hfresh : ∀ piece, resume e (3 :: piece) =
          resume (resetLine { e with afterCr := decide ((3 : UInt8) = 13) }) piece := by
        intro piece
        rw [resume_interrupt, resume_fresh rfl rfl rfl]
      rw [hexp, pieces_cons (by decide), outcomesFrom_step hfresh]
      rfl
    · rw [if_neg h3]
      by_cases hend : b = 13 ∨ b = 10
      · rw [if_pos hend]
        obtain ⟨hshow, hhalt, hlen, hnext⟩ := finishLine_spec counters hwf
        have hresume : resume { e with afterCr := decide (b = 13) } [] = resume e [] := rfl
        rw [hresume] at hshow hhalt
        have hb : isEnd b = true := by simpa [isEnd] using hend
        refine ⟨[resume e []], hshow, by simpa using hhalt, le_refl _, hlen, ?_, ?_⟩
        · intro hf
          obtain ⟨hl, hesc, hdis, hcr⟩ := hnext hf
          refine ⟨⟨hlen, fun c hc => ?_⟩, ?_⟩
          · have := List.length_pos_of_mem hc
            rw [length_text, hl] at this
            exact absurd this (by simp)
          · intro bytes
            rw [hexp, pieces_end hb, outcomesFrom, expected, hcr, outcomesFrom_fresh hl hesc hdis]
            rfl
        · intro _ bytes
          rw [hexp, pieces_end hb, outcomesFrom]
          exact ⟨_, rfl⟩
      · rw [if_neg hend]
        obtain ⟨hwf', hcr⟩ := editCharacter_wf hwf b
        refine ⟨[], editCharacter_shows hwf b, rfl, Nat.zero_le _, hwf'.length_le,
          fun _ => ⟨hwf', ?_⟩, fun hf => absurd hf (by simp)⟩
        intro bytes
        have hb : isEnd b = false := by
          rw [not_or] at hend
          simp [isEnd, hend.1, hend.2]
        have hstep : ∀ piece, resume e (b :: piece) =
            resume (editCharacter { e with afterCr := decide (b = 13) } b).1 piece :=
          fun piece => resume_edit hwf h3 piece
        rw [hexp, pieces_cons hb, outcomesFrom_step hstep]
        change _ = expected (editCharacter { e with afterCr := decide (b = 13) } b).1 bytes
        rw [expected, hcr]

theorem upToHalt_append {os : List Outcome} (hlen : os.length ≤ 1) (rest : List Outcome) :
    upToHalt (os ++ rest) = if os.any halts then os else os ++ upToHalt rest := by
  match os, hlen with
  | [], _ => rfl
  | [o], _ => simp [upToHalt]

/-- The editor shows, byte by byte, what the reference computes from whole lines. -/
theorem run_shows (counters : ℕ → Counters) (bytes : List UInt8) (k : ℕ) {e : LineEditor} (h : Wf e) :
    Shows (run counters k e bytes).effects (upToHalt (expected e bytes)) ∧
      (run counters k e bytes).editor.length ≤ 127 := by
  induction bytes generalizing k e with
  | nil => exact ⟨shows_nil, h.length_le⟩
  | cons b bytes ih =>
    obtain ⟨os, hshow, hhalt, hlen, hle, hgo, hstop⟩ := acceptInput_spec (counters k) h b
    rw [run]
    by_cases hh : (acceptInput (counters k) e b).halted = true
    · obtain ⟨rest, hrest⟩ := hstop hh bytes
      rw [if_pos hh, hrest, upToHalt_append hlen, ← hhalt, hh, if_pos rfl]
      exact ⟨hshow, hle⟩
    · have hh' : (acceptInput (counters k) e b).halted = false := by simpa using hh
      obtain ⟨hwf, hexp⟩ := hgo hh'
      obtain ⟨hrun, hrle⟩ := ih (k + 1) hwf
      rw [if_neg hh, hexp, upToHalt_append hlen, ← hhalt, hh', if_neg (by simp)]
      exact ⟨hshow.append hrun, hrle⟩

theorem start_wf (line : ℕ → UInt8) : Wf (start line) :=
  ⟨Nat.zero_le _, fun c hc => absurd hc (by simp [text, start])⟩

/-- On every stream the console executes and discards exactly the lines that the reference does,
    never leaves its buffer, and picks each command from the text of its line. -/
theorem console_line_discipline (line : ℕ → UInt8) (counters : ℕ → Counters) (bytes : List UInt8) :
    (run counters 0 (start line) bytes).effects.filterMap outcomeOf = reference bytes ∧
    (run counters 0 (start line) bytes).editor.length ≤ 127 ∧
    (∀ i, Effect.store i ∈ (run counters 0 (start line) bytes).effects → i < 128) ∧
    (run counters 0 (start line) bytes).effects.filterMap dispatched =
      ((run counters 0 (start line) bytes).effects.filterMap executed).map commandOf := by
  obtain ⟨hshow, hlen⟩ := run_shows counters bytes 0 (start_wf line)
  have hexp : upToHalt (expected (start line) bytes) = reference bytes := by
    rw [expected, outcomesFrom_fresh rfl rfl rfl, reference]
    rfl
  exact ⟨hshow.outcomes.trans hexp, hlen, hshow.stores, hshow.commands⟩

end OsByAi.ConsoleDiscipline
