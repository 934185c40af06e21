import OsByAi.ConsoleModel

set_option autoImplicit false

namespace OsByAi.ConsoleKeys
open ConsoleModel

inductive IsKey : List UInt8 → Prop where
  | csi (params : List UInt8) (final : UInt8) (hparams : ∀ p ∈ params, 0x20 ≤ p ∧ p ≤ 0x3f)
      (hfinal : 0x40 ≤ final ∧ final ≤ 0x7e) : IsKey (27 :: 91 :: (params ++ [final]))
  | ss3 (final : UInt8) (hfinal : 0x40 ≤ final ∧ final ≤ 0x7e) : IsKey [27, 79, final]

structure Dropped (e e' : LineEditor) : Prop where
  text : text e' = text e
  length : e'.length = e.length
  discard : e'.discard = e.discard
  escape : e'.escape = 0

structure Inv (e : LineEditor) : Prop where
  escape_le : e.escape ≤ 2
  discard : e.discard = true → e.escape = 0

theorem inv_reset (e : LineEditor) : Inv (resetLine e) := ⟨Nat.zero_le 2, fun _ => rfl⟩

theorem inv_editPlain {e : LineEditor} (h : Inv e) (hesc : e.escape = 0) (b : UInt8) : Inv (editPlain e b).1 := by
  unfold editPlain
  split
  · split
    · exact ⟨h.escape_le, h.discard⟩
    · exact h
  · split
    · exact h
    · split
      · exact ⟨h.escape_le, fun _ => hesc⟩
      · exact ⟨h.escape_le, h.discard⟩

theorem inv_editCharacter {e : LineEditor} (h : Inv e) (b : UInt8) : Inv (editCharacter e b).1 := by
  unfold editCharacter consumeEscape
  by_cases hd : e.discard = true
  · rw [if_pos hd]
    exact h
  · have hopen : ∀ esc, esc ≤ 2 → Inv { e with escape := esc } := fun esc hle => ⟨hle, fun hf => absurd hf hd⟩
    rw [if_neg hd]
    by_cases h1 : e.escape = 1
    · simp only [h1, if_true]
      apply hopen
      split
      · exact le_refl 2
      · exact Nat.zero_le 2
    · by_cases h2 : e.escape = 2
      · simp only [h2, show (2 : ℕ) ≠ 1 by decide, if_false, if_true]
        split
        · exact hopen 0 (Nat.zero_le 2)
        · exact h
      · have hesc : e.escape = 0 := by
          have hle := h.escape_le
          omega
        simp only [h1, h2, if_false]
        by_cases h27 : b = 27
        · simp only [h27, ne_eq, not_true_eq_false, if_false, if_true]
          exact hopen 1 (by decide)
        · simp only [h27, ne_eq, not_false_eq_true, if_true, Bool.false_eq_true, if_false]
          exact inv_editPlain h hesc b

theorem inv_finishLine (counters : Counters) {e : LineEditor} (h : Inv e) : Inv (finishLine counters e).editor := by
  unfold finishLine
  split
  · exact inv_reset _
  · dsimp only
    split
    · exact ⟨h.escape_le, h.discard⟩
    · exact inv_reset _

theorem inv_acceptInput (counters : Counters) {e : LineEditor} (h : Inv e) (b : UInt8) :
    Inv (acceptInput counters e b).editor := by
  have hcr : ∀ cr, Inv { e with afterCr := cr } := fun cr => ⟨h.escape_le, h.discard⟩
  unfold acceptInput
  split
  · exact hcr false
  · split
    · exact inv_reset _
    · split
      · exact inv_finishLine counters (hcr _)
      · exact inv_editCharacter (hcr _) b

theorem inv_run (counters : ℕ → Counters) (bytes : List UInt8) (k : ℕ) {e : LineEditor} (h : Inv e) :
    Inv (run counters k e bytes).editor := by
  induction bytes generalizing k e with
  | nil => exact h
  | cons b bytes ih =>
    have hnext := inv_acceptInput (counters k) h b
    rw [run]
    split
    · exact hnext
    · exact ih (k + 1) hnext

def Plain (b : UInt8) : Prop := b ≠ 3 ∧ b ≠ 10 ∧ b ≠ 13

theorem plain_of_printable {b : UInt8} (h : 0x20 ≤ b) : Plain b := by
  refine ⟨?_, ?_, ?_⟩
  · rintro rfl
    exact absurd h (by decide)
  · rintro rfl
    exact absurd h (by decide)
  · rintro rfl
    exact absurd h (by decide)

theorem run_plain (counters : ℕ → Counters) (k : ℕ) (e : LineEditor) {b : UInt8} (hb : Plain b)
    (bytes : List UInt8) : (run counters k e (b :: bytes)).editor =
      (run counters (k + 1) (editCharacter { e with afterCr := false } b).1 bytes).editor := by
  have haccept : acceptInput (counters k) e b =
      ⟨(editCharacter { e with afterCr := false } b).1, (editCharacter { e with afterCr := false } b).2, false⟩ := by
    unfold acceptInput
    rw [if_neg fun h => hb.2.1 h.1, if_neg hb.1, if_neg fun h => h.elim hb.2.2 hb.2.1, decide_eq_false hb.2.2]
  rw [run, haccept]
  rfl

theorem run_discard (counters : ℕ → Counters) (bytes : List UInt8) (hbytes : ∀ b ∈ bytes, Plain b) (k : ℕ)
    {e : LineEditor} (hd : e.discard = true) :
    ∃ cr, (run counters k e bytes).editor = { e with afterCr := cr } := by
  induction bytes generalizing k e with
  | nil => exact ⟨e.afterCr, rfl⟩
  | cons b bytes ih =>
    have hsame : (editCharacter { e with afterCr := false } b).1 = { e with afterCr := false } := by
      unfold editCharacter
      rw [if_pos hd]
    rw [run_plain counters k e (hbytes b List.mem_cons_self), hsame]
    exact ih (fun c hc => hbytes c (List.mem_cons_of_mem b hc)) (k + 1) hd

theorem run_params (counters : ℕ → Counters) (params : List UInt8) (final : UInt8)
    (hparams : ∀ p ∈ params, 0x20 ≤ p ∧ p ≤ 0x3f) (hfinal : 0x40 ≤ final ∧ final ≤ 0x7e) (k : ℕ)
    {e : LineEditor} (hd : e.discard = false) (hesc : e.escape = 2) :
    (run counters k e (params ++ [final])).editor = { e with afterCr := false, escape := 0 } := by
  induction params generalizing k e with
  | nil =>
    have hplain : Plain final := plain_of_printable (UInt8.le_trans (by decide) hfinal.1)
    rw [List.nil_append, run_plain counters k e hplain]
    simp [run, editCharacter, consumeEscape, hd, hesc, hfinal]
  | cons p params ih =>
    have hp := hparams p List.mem_cons_self
    have hnot : ¬ (0x40 ≤ p ∧ p ≤ 0x7e) := fun h => absurd (UInt8.le_trans h.1 hp.2) (by decide)
    have hstay : (editCharacter { e with afterCr := false } p).1 = { e with afterCr := false } := by
      simp only [editCharacter, consumeEscape, hd, hesc, Bool.false_eq_true, if_false, if_true,
        show (2 : ℕ) ≠ 1 by decide, if_neg hnot]
    rw [List.cons_append, run_plain counters k e (plain_of_printable hp.1), hstay]
    exact ih (fun q hq => hparams q (List.mem_cons_of_mem p hq)) (k + 1) hd hesc

theorem editCharacter_printable {e : LineEditor} (hd : e.discard = false) (hesc : e.escape = 0) {b : UInt8}
    (hb : 0x20 ≤ b ∧ b ≤ 0x7e) :
    (editCharacter e b).1.escape = 0 ∧
      ((editCharacter e b).1.discard = true ∨
        (editCharacter e b).1.discard = false ∧ (editCharacter e b).1.length = e.length + 1) := by
  have h27 : b ≠ 27 := by
    rintro rfl
    exact absurd hb.1 (by decide)
  have hdel : ¬ (b = 8 ∨ b = 127) := by
    rintro (rfl | rfl)
    · exact absurd hb.1 (by decide)
    · exact absurd hb.2 (by decide)
  have htext : ¬ (b ≠ 9 ∧ (b < 32 ∨ b > 126)) := by
    rintro ⟨-, hlow | hhigh⟩
    · exact absurd hb.1 (UInt8.not_le.mpr hlow)
    · exact absurd hb.2 (UInt8.not_le.mpr hhigh)
  unfold editCharacter consumeEscape editPlain
  simp only [hd, hesc, Bool.false_eq_true, if_false, show (0 : ℕ) ≠ 1 by decide, show (0 : ℕ) ≠ 2 by decide,
    if_pos h27, if_neg hdel, if_neg htext]
  split
  · exact ⟨rfl, .inl rfl⟩
  · exact ⟨rfl, .inr ⟨rfl, rfl⟩⟩

theorem run_printable (counters : ℕ → Counters) (bytes : List UInt8) (hbytes : ∀ b ∈ bytes, 0x20 ≤ b ∧ b ≤ 0x7e)
    (k : ℕ) {e : LineEditor} (hd : e.discard = false) (hesc : e.escape = 0) :
    (run counters k e bytes).editor.discard = true ∨
      (run counters k e bytes).editor.length = e.length + bytes.length := by
  induction bytes generalizing k e with
  | nil => exact .inr rfl
  | cons b bytes ih =>
    have hb := hbytes b List.mem_cons_self
    have hrest : ∀ c ∈ bytes, 0x20 ≤ c ∧ c ≤ 0x7e := fun c hc => hbytes c (List.mem_cons_of_mem b hc)
    have hcr : ({ e with afterCr := false } : LineEditor).discard = false := hd
    rw [run_plain counters k e (plain_of_printable hb.1)]
    obtain ⟨hesc', hdis | ⟨hdis, hlen⟩⟩ := editCharacter_printable hcr hesc hb
    · obtain ⟨cr, heq⟩ := run_discard counters bytes (fun c hc => plain_of_printable (hrest c hc).1) (k + 1) hdis
      rw [heq]
      exact .inl hdis
    · rcases ih hrest (k + 1) hdis hesc' with hrun | hrun
      · exact .inl hrun
      · right
        rw [hrun, hlen, List.length_cons]
        change e.length + 1 + bytes.length = _
        omega

theorem key_plain {key : List UInt8} (hkey : IsKey key) : ∀ b ∈ key, Plain b := by
  have hesc : Plain 27 := ⟨by decide, by decide, by decide⟩
  cases hkey with
  | csi params final hparams hfinal =>
    intro b hb
    rcases List.mem_cons.mp hb with rfl | hb
    · exact hesc
    · rcases List.mem_cons.mp hb with rfl | hb
      · exact plain_of_printable (by decide)
      · rcases List.mem_append.mp hb with hb | hb
        · exact plain_of_printable (hparams b hb).1
        · rw [List.mem_singleton.mp hb]
          exact plain_of_printable (UInt8.le_trans (by decide) hfinal.1)
  | ss3 final hfinal =>
    intro b hb
    simp only [List.mem_cons, List.not_mem_nil, or_false] at hb
    rcases hb with rfl | rfl | rfl
    · exact hesc
    · exact plain_of_printable (by decide)
    · exact plain_of_printable (UInt8.le_trans (by decide) hfinal.1)

theorem run_key_idle (counters : ℕ → Counters) {key : List UInt8} (hkey : IsKey key) (k : ℕ) {e : LineEditor}
    (hd : e.discard = false) (hesc : e.escape = 0) :
    (run counters k e key).editor = { e with afterCr := false, escape := 0 } := by
  have hopen : (editCharacter { e with afterCr := false } 27).1 = { e with afterCr := false, escape := 1 } := by
    simp [editCharacter, consumeEscape, hd, hesc]
  have hlead : ∀ b : UInt8, b = 91 ∨ b = 79 →
      (editCharacter { e with afterCr := false, escape := 1 } b).1 = { e with afterCr := false, escape := 2 } := by
    intro b hb
    simp [editCharacter, consumeEscape, hd, hb]
  have hplain := key_plain hkey
  cases hkey with
  | csi params final hparams hfinal =>
    rw [run_plain counters k e (hplain 27 (by simp)), hopen, run_plain counters (k + 1) _ (hplain 91 (by simp)),
      hlead 91 (.inl rfl)]
    exact run_params counters params final hparams hfinal (k + 1 + 1) hd rfl
  | ss3 final hfinal =>
    rw [run_plain counters k e (hplain 27 (by simp)), hopen, run_plain counters (k + 1) _ (hplain 79 (by simp)),
      hlead 79 (.inr rfl)]
    exact run_params counters [] final (fun p hp => absurd hp List.not_mem_nil) hfinal (k + 1 + 1) hd rfl

/-- After an `ESC` the key's own `ESC` is swallowed and its other bytes are typed. -/
theorem run_key_pending (counters : ℕ → Counters) {key : List UInt8} (hkey : IsKey key) (k : ℕ) {e : LineEditor}
    (hd : e.discard = false) (hesc : e.escape = 1) :
    (run counters k e key).editor.discard = true ∨ e.length < (run counters k e key).editor.length := by
  have hclose : (editCharacter { e with afterCr := false } 27).1 = { e with afterCr := false, escape := 0 } := by
    simp [editCharacter, consumeEscape, hd, hesc]
  have htyped : ∃ bytes, key = 27 :: bytes ∧ 0 < bytes.length ∧ ∀ b ∈ bytes, 0x20 ≤ b ∧ b ≤ 0x7e := by
    cases hkey with
    | csi params final hparams hfinal =>
      refine ⟨_, rfl, by simp, ?_⟩
      intro b hb
      rcases List.mem_cons.mp hb with rfl | hb
      · decide
      · rcases List.mem_append.mp hb with hb | hb
        · exact ⟨(hparams b hb).1, UInt8.le_trans (hparams b hb).2 (by decide)⟩
        · rw [List.mem_singleton.mp hb]
          exact ⟨UInt8.le_trans (by decide) hfinal.1, hfinal.2⟩
    | ss3 final hfinal =>
      refine ⟨_, rfl, by simp, ?_⟩
      intro b hb
      simp only [List.mem_cons, List.not_mem_nil, or_false] at hb
      rcases hb with rfl | rfl
      · decide
      · exact ⟨UInt8.le_trans (by decide) hfinal.1, hfinal.2⟩
  obtain ⟨bytes, rfl, hpos, hbytes⟩ := htyped
  rw [run_plain counters k e (key_plain hkey 27 List.mem_cons_self), hclose]
  rcases run_printable counters bytes hbytes (k + 1) (e := { e with afterCr := false, escape := 0 }) hd rfl
    with hrun | hrun
  · exact .inl hrun
  · right
    rw [hrun]
    change e.length < e.length + bytes.length
    omega

def reached (line : ℕ → UInt8) (counters : ℕ → Counters) (bytes : List UInt8) : LineEditor :=
  (run counters 0 (start line) bytes).editor

/-- In every reachable state with no sequence left unfinished, a key is dropped exactly when no lone
    `ESC` is waiting for its next byte. -/
theorem key_dropped_iff (line : ℕ → UInt8) (counters later : ℕ → Counters) (bytes : List UInt8)
    {key : List UInt8} (hkey : IsKey key) (hdone : (reached line counters bytes).escape ≠ 2) :
    Dropped (reached line counters bytes) (run later 0 (reached line counters bytes) key).editor ↔
      (reached line counters bytes).escape ≠ 1 := by
  have hinv : Inv (reached line counters bytes) :=
    inv_run counters bytes 0 ⟨Nat.zero_le 2, fun _ => rfl⟩
  have hle := hinv.escape_le
  cases hd : (reached line counters bytes).discard with
  | true =>
    have hesc := hinv.discard hd
    obtain ⟨cr, heq⟩ := run_discard later key (key_plain hkey) 0 hd
    rw [heq, hesc]
    exact ⟨fun _ => by decide, fun _ => ⟨rfl, rfl, rfl, rfl⟩⟩
  | false =>
    constructor
    · intro hdrop hesc
      rcases run_key_pending later hkey 0 hd hesc with hrun | hrun
      · exact absurd (hrun.symm.trans (hdrop.discard.trans hd)) (by decide)
      · exact absurd hdrop.length (by omega)
    · intro hne
      rw [run_key_idle later hkey 0 hd (by omega)]
      exact ⟨rfl, rfl, rfl, rfl⟩

def noCounters (_ : ℕ) : Counters := ⟨0, 0, 0⟩

/-- The arrow key `ESC [ A` in the middle of a line. -/
theorem arrow_dropped : IsKey [27, 91, 65] ∧ Dropped (reached (fun _ => 0) noCounters [104, 105])
    (run noCounters 0 (reached (fun _ => 0) noCounters [104, 105]) [27, 91, 65]).editor :=
  have hkey : IsKey [27, 91, 65] := .csi [] 65 (fun p hp => absurd hp List.not_mem_nil) ⟨by decide, by decide⟩
  ⟨hkey, (key_dropped_iff (fun _ => 0) noCounters noCounters [104, 105] hkey (by decide +kernel)).mpr (by decide +kernel)⟩

/-- After a lone `ESC` the same key leaves `[A` in the line. -/
theorem arrow_after_escape_typed : ¬ ∀ (line : ℕ → UInt8) (counters later : ℕ → Counters) (bytes key : List UInt8),
    IsKey key → (reached line counters bytes).escape ≠ 2 →
      Dropped (reached line counters bytes) (run later 0 (reached line counters bytes) key).editor := by
  intro hall
  have hkey : IsKey [27, 91, 65] := .csi [] 65 (fun p hp => absurd hp List.not_mem_nil) ⟨by decide, by decide⟩
  have hdrop := hall (fun _ => 0) noCounters noCounters [27] [27, 91, 65] hkey (by decide +kernel)
  exact absurd hdrop.length (by decide +kernel)

end OsByAi.ConsoleKeys
