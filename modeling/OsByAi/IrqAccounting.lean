import OsByAi.PicBalance

set_option autoImplicit false

namespace OsByAi.IrqAccounting
open SerialModel PicModel PicDispatch PicBalance

section Bits

theorem toNat_lineBit : ∀ i, i < 8 → (lineBit i).toNat = 2 ^ i := by decide

theorem and_lineBit (m : UInt8) {i : ℕ} (hi : i < 8) : (m &&& lineBit i != 0) = m.toNat.testBit i := by
  have hand : (m &&& lineBit i).toNat = (m.toNat.testBit i).toNat * 2 ^ i := by
    rw [UInt8.toNat_and, toNat_lineBit i hi, Nat.and_two_pow]
  have hzero : (m &&& lineBit i = 0) ↔ (m &&& lineBit i).toNat = 0 := by
    rw [← UInt8.toNat_inj]
    rfl
  have hpow : 2 ^ i ≠ 0 := by positivity
  cases hbit : m.toNat.testBit i with
  | false =>
    rw [hbit, Bool.toNat_false, Nat.zero_mul, ← hzero] at hand
    simp [hand]
  | true =>
    rw [hbit, Bool.toNat_true, Nat.one_mul] at hand
    rw [bne_iff_ne, ne_eq, hzero, hand]
    exact hpow

theorem testBit_lineBit {i j : ℕ} (hi : i < 8) : (lineBit i).toNat.testBit j = decide (i = j) := by
  rw [toNat_lineBit i hi, Nat.testBit_two_pow]

theorem testBit_complement : ∀ i, i < 8 → ∀ j, j < 8 → (~~~lineBit i).toNat.testBit j = !decide (i = j) := by decide

theorem testBit_mask (m : UInt8) {i j : ℕ} (hi : i < 8) :
    (m ||| lineBit i).toNat.testBit j = (m.toNat.testBit j || decide (i = j)) := by
  rw [UInt8.toNat_or, Nat.testBit_or, testBit_lineBit hi]

theorem testBit_unmask (m : UInt8) {i j : ℕ} (hi : i < 8) (hj : j < 8) :
    (m &&& ~~~lineBit i).toNat.testBit j = (m.toNat.testBit j && !decide (i = j)) := by
  rw [UInt8.toNat_and, Nat.testBit_and, testBit_complement i hi j hj]

end Bits

/-- Channel 0 of the interval timer. `access` says which bytes of the divisor are written: the low one,
    the high one or both in turn; `low` is the byte of a pair that has come already. -/
structure Pit where
  access : ℕ
  mode : ℕ
  low : Option UInt8
  divisor : ℕ

/-- Control words for other channels and for reading do nothing here. -/
def Pit.control (p : Pit) (value : UInt8) : Pit :=
  let access := value.toNat / 16 % 4
  if value.toNat / 64 = 0 ∧ access ≠ 0 then
    { p with access := access, mode := value.toNat / 2 % 8, low := none }
  else p

def Pit.data (p : Pit) (value : UInt8) : Pit :=
  if p.access = 1 then { p with divisor := value.toNat }
  else if p.access = 2 then { p with divisor := 256 * value.toNat }
  else
    match p.low with
    | none => { p with low := some value }
    | some low => { p with low := none, divisor := low.toNat + 256 * value.toNat }

structure Timer where
  initialized : Bool
  pit : Pit

def timerInit (rflags features : ℕ) (t : Timer) (s : System) : Bool × Timer × System :=
  if t.initialized || rflags &&& 0x200 != 0 then (false, t, s)
  else
    let (ok, s) := irqInit rflags features s
    if !ok then (false, t, s)
    else
      let pit := ((t.pit.control 0x34).data (UInt8.ofNat (11932 &&& 255))).data (UInt8.ofNat (11932 >>> 8))
      let s := { s with ticks := 0 }
      let (enabled, s) := irqEnable rflags 0 s
      (enabled, ⟨true, pit⟩, s)

inductive Event where
  | enable (rflags irq : ℕ)
  | interrupt (d : Delivery)

def next (s : System) : Event → System
  | .enable rflags irq => (irqEnable rflags irq s).2
  | .interrupt d => deliver s d

def runAll (s : System) (es : List Event) : System := es.foldl next s

/-- What the controllers can raise: only lines that are not masked, and those of the slave and its
    spurious interrupt only through line 2. A spurious interrupt of the master needs no line. -/
def Raised (s : System) : Delivery → Prop
  | .real line _ => isMasked s line.val = false ∧ (8 ≤ line.val.val → isMasked s 2 = false)
  | .spurious7 _ => True
  | .spurious15 _ => isMasked s 2 = false

def Possible (s : System) : List Event → Prop
  | [] => True
  | e :: es => (∀ d, e = .interrupt d → Raised s d) ∧ Possible (next s e) es

/-- The purpose of the driver: which lines are open, and what has been served since the start. -/
structure Account where
  lines : Finset (Fin 16)
  ticks : ℕ
  unexpected : ℕ
  serial : Serial

def openedBy (rflags irq : ℕ) : Finset (Fin 16) :=
  Finset.univ.filter fun i => opens rflags irq ∧ (i.val = irq ∨ i.val = 2 ∧ 8 ≤ irq)

def Account.step (a : Account) : Event → Account
  | .enable rflags irq => { a with lines := a.lines ∪ openedBy rflags irq }
  | .interrupt (.real line regs) =>
    if line.val = 0 then { a with ticks := a.ticks + 1 }
    else if line.val = 4 then { a with serial := (serialInterrupt regs a.serial).1 }
    else { a with lines := a.lines.erase line.val, unexpected := a.unexpected + 1 }
  | .interrupt (.spurious7 _) => a
  | .interrupt (.spurious15 _) => a

def account (serial : Serial) (es : List Event) : Account := es.foldl Account.step ⟨∅, 0, 0, serial⟩

section Refinement

variable {s : System} {a : Account} {b : Books}

def masked (b : Books) (i : Fin 16) : Bool :=
  if i.val < 8 then b.masterMask.toNat.testBit i.val else b.slaveMask.toNat.testBit (i.val - 8)

theorem isMasked_eq {master slave : UInt8} (h : Stands s master slave b) (i : Fin 16) : isMasked s i = masked b i := by
  unfold isMasked masked
  by_cases hi : i.val < 8
  · rw [if_pos hi, if_pos hi, h.master_mask, and_lineBit _ hi]
  · have hbit : lineBit i.val = lineBit (i.val - 8) := by
      have hline : i.val = i.val - 8 + 8 := by omega
      rw [hline, lineBit_add_eight]
      rfl
    have hlt := i.isLt
    rw [if_neg hi, if_neg hi, h.slave_mask, hbit, and_lineBit _ (by omega)]

structure Follows (b : Books) (a : Account) : Prop where
  lines : ∀ i, i ∈ a.lines ↔ masked b i = false
  ticks : b.ticks = a.ticks % Word64.size
  unexpected : b.unexpected = a.unexpected % Word64.size
  serial : b.serial = a.serial

theorem add_one_mod {x n : ℕ} (h : x = n % Word64.size) : Word64.add x 1 = (n + 1) % Word64.size := by
  rw [Word64.add, h, Nat.mod_add_mod]

theorem masked_after {i : ℕ} (hi : i < 16) (h0 : i ≠ 0) (h4 : i ≠ 4) (regs : ℕ → Registers) (j : Fin 16) :
    masked (b.after regs i) j = (masked b j || decide (i = j.val)) := by
  have hj := j.isLt
  rw [Books.after, if_neg h0, if_neg h4]
  unfold masked
  by_cases hlow : i < 8
  · rw [if_pos hlow]
    by_cases hjlow : j.val < 8
    · rw [if_pos hjlow, if_pos hjlow, testBit_mask _ hlow]
    · have hne : i ≠ j.val := by omega
      rw [if_neg hjlow, if_neg hjlow, decide_eq_false hne, Bool.or_false]
  · rw [if_neg hlow]
    by_cases hjlow : j.val < 8
    · have hne : i ≠ j.val := by omega
      rw [if_pos hjlow, if_pos hjlow, decide_eq_false hne, Bool.or_false]
    · have hbit : lineBit i = lineBit (i - 8) := by
        have hline : i = i - 8 + 8 := by omega
        rw [hline, lineBit_add_eight]
        rfl
      have hsame : (i - 8 = j.val - 8) = (i = j.val) := by
        apply propext
        omega
      rw [if_neg hjlow, if_neg hjlow, hbit, testBit_mask _ (by omega)]
      simp only [hsame]

theorem masked_enabled {irq : ℕ} (hirq : irq < 16) (j : Fin 16) :
    masked (b.enabled irq) j = (masked b j && !decide (j.val = irq ∨ j.val = 2 ∧ 8 ≤ irq)) := by
  have hj := j.isLt
  unfold Books.enabled masked
  by_cases hlow : irq < 8
  · rw [if_pos hlow]
    by_cases hjlow : j.val < 8
    · have hsame : (j.val = irq ∨ j.val = 2 ∧ 8 ≤ irq) = (irq = j.val) := by
        apply propext
        omega
      rw [if_pos hjlow, if_pos hjlow, testBit_unmask _ hlow hjlow]
      simp only [hsame]
    · have hno : ¬ (j.val = irq ∨ j.val = 2 ∧ 8 ≤ irq) := by omega
      rw [if_neg hjlow, if_neg hjlow, decide_eq_false hno, Bool.not_false, Bool.and_true]
  · rw [if_neg hlow]
    by_cases hjlow : j.val < 8
    · have hsame : (j.val = irq ∨ j.val = 2 ∧ 8 ≤ irq) = (2 = j.val) := by
        apply propext
        omega
      rw [if_pos hjlow, if_pos hjlow, testBit_unmask _ (by decide) hjlow]
      simp only [hsame]
    · have hbit : lineBit irq = lineBit (irq - 8) := by
        have hline : irq = irq - 8 + 8 := by omega
        rw [hline, lineBit_add_eight]
        rfl
      have hsame : (j.val = irq ∨ j.val = 2 ∧ 8 ≤ irq) = (irq - 8 = j.val - 8) := by
        apply propext
        omega
      rw [if_neg hjlow, if_neg hjlow, hbit, testBit_unmask _ (by omega) (by omega)]
      simp only [hsame]

theorem Follows.delivered (h : Follows b a) (d : Delivery) : Follows (b.delivered d) (a.step (.interrupt d)) := by
  obtain ⟨hlines, hticks, hunexpected, hserial⟩ := h
  cases d with
  | real line regs =>
    obtain ⟨i, hne⟩ := line
    have hi := i.isLt
    have h0 : i = 0 ↔ i.val = 0 := by rw [Fin.ext_iff]; rfl
    have h4 : i = 4 ↔ i.val = 4 := by rw [Fin.ext_iff]; rfl
    unfold Account.step Books.delivered
    by_cases hzero : i.val = 0
    · simp only [h0, hzero, Books.after, if_true]
      exact ⟨hlines, add_one_mod hticks, hunexpected, hserial⟩
    · by_cases hfour : i.val = 4
      · simp only [h0, h4, hfour, Books.after, if_true, show ¬ 4 = 0 by decide, if_false]
        exact ⟨hlines, hticks, hunexpected, by rw [hserial]⟩
      · have hmasked := masked_after (b := b) hi hzero hfour regs
        have hrest : (b.after regs i.val).ticks = b.ticks ∧
            (b.after regs i.val).unexpected = Word64.add b.unexpected 1 ∧ (b.after regs i.val).serial = b.serial := by
          rw [Books.after, if_neg hzero, if_neg hfour]
          split <;> exact ⟨rfl, rfl, rfl⟩
        simp only [h0, h4, hzero, hfour, if_false]
        refine ⟨fun j => ?_, hrest.1.trans hticks, hrest.2.1.trans (add_one_mod hunexpected), hrest.2.2.trans hserial⟩
        rw [hmasked, Finset.mem_erase, hlines j, Bool.or_eq_false_iff, decide_eq_false_iff_not, ← Fin.ext_iff]
        tauto
  | spurious7 regs => exact ⟨hlines, hticks, hunexpected, hserial⟩
  | spurious15 regs => exact ⟨hlines, hticks, hunexpected, hserial⟩

theorem mem_openedBy {rflags irq : ℕ} {i : Fin 16} :
    i ∈ openedBy rflags irq ↔ opens rflags irq = true ∧ (i.val = irq ∨ i.val = 2 ∧ 8 ≤ irq) := by
  simp [openedBy]

theorem Follows.enabled (h : Follows b a) (rflags irq : ℕ) :
    Follows (if opens rflags irq then b.enabled irq else b) (a.step (.enable rflags irq)) := by
  obtain ⟨hlines, hticks, hunexpected, hserial⟩ := h
  have hrest : (b.enabled irq).ticks = b.ticks ∧ (b.enabled irq).unexpected = b.unexpected ∧
      (b.enabled irq).serial = b.serial := by
    unfold Books.enabled
    split <;> exact ⟨rfl, rfl, rfl⟩
  cases hopens : opens rflags irq with
  | false =>
    refine ⟨fun i => ?_, hticks, hunexpected, hserial⟩
    change i ∈ a.lines ∪ openedBy rflags irq ↔ masked b i = false
    rw [Finset.mem_union, mem_openedBy, hopens, ← hlines i]
    simp
  | true =>
    have hirq : irq < 16 := by
      simp only [opens, Bool.and_eq_true, decide_eq_true_eq] at hopens
      exact hopens.1
    rw [if_pos rfl]
    refine ⟨fun i => ?_, hrest.1.trans hticks, hrest.2.1.trans hunexpected, hrest.2.2.trans hserial⟩
    change i ∈ a.lines ∪ openedBy rflags irq ↔ masked (b.enabled irq) i = false
    rw [masked_enabled hirq, Finset.mem_union, mem_openedBy, hopens, hlines i]
    cases masked b i
    · simp
    · simp
      tauto

def Tracks (s : System) (a : Account) : Prop := ∃ b, Stands s 0 0 b ∧ Follows b a

theorem Tracks.next (h : Tracks s a) (e : Event) : Tracks (next s e) (a.step e) := by
  obtain ⟨b, hs, hb⟩ := h
  cases e with
  | enable rflags irq => exact ⟨_, (hs.enable rflags irq).2, hb.enabled rflags irq⟩
  | interrupt d => exact ⟨_, hs.deliver d, hb.delivered d⟩

theorem Tracks.runAll (h : Tracks s a) (es : List Event) : Tracks (runAll s es) (es.foldl Account.step a) := by
  induction es generalizing s a with
  | nil => exact h
  | cons e es ih => exact ih (h.next e)

theorem Tracks.masked (h : Tracks s a) (i : Fin 16) : isMasked s i = false ↔ i ∈ a.lines := by
  obtain ⟨b, hs, hb⟩ := h
  rw [isMasked_eq hs, hb.lines]

theorem tracks_init {rflags features : ℕ} (h : (irqInit rflags features s).1 = true) (hunexpected : s.unexpected = 0) :
    Tracks { (irqInit rflags features s).2 with ticks := 0 } (account s.serial []) := by
  obtain ⟨-, hinit⟩ := irqInit_stands h
  rw [hunexpected] at hinit
  generalize irqInit rflags features s = r at hinit
  refine ⟨⟨0xff, 0xff, 0, 0, s.serial⟩, { hinit with ticks := rfl }, ?_⟩
  · have hall : ∀ i : Fin 16, masked ⟨0xff, 0xff, 0, 0, s.serial⟩ i = true := by
      intro i
      have hbits : ∀ i : Fin 16, (if i.val < 8 then (0xff : UInt8).toNat.testBit i.val
        else (0xff : UInt8).toNat.testBit (i.val - 8)) = true := by decide
      exact hbits i
    refine ⟨fun i => ?_, rfl, rfl, rfl⟩
    rw [hall i]
    simp [account]

end Refinement

section Runs

variable {s : System} {a : Account}

def delivers (i : Fin 16) : Event → Bool
  | .interrupt (.real line _) => line.val == i
  | _ => false

def asks (i : Fin 16) : Event → Bool
  | .enable rflags irq => opens rflags irq && irq == i.val
  | _ => false

/-- The lines with a handler, and the cascade, are never masked again. -/
theorem step_keeps {i : Fin 16} (hi : i = 0 ∨ i = 2 ∨ i = 4) (ha : i ∈ a.lines) (e : Event) : i ∈ (a.step e).lines := by
  cases e with
  | enable rflags irq => exact Finset.mem_union_left _ ha
  | interrupt d =>
    cases d with
    | real line regs =>
      obtain ⟨j, hj⟩ := line
      unfold Account.step
      by_cases h0 : j = 0
      · simp only [h0, if_true]
        exact ha
      · by_cases h4 : j = 4
        · simp only [h4, if_true, show (4 : Fin 16) ≠ 0 by decide, if_false]
          exact ha
        · simp only [h0, h4, if_false]
          refine Finset.mem_erase.mpr ⟨?_, ha⟩
          rintro rfl
          obtain rfl | rfl | rfl := hi
          · exact h0 rfl
          · exact hj rfl
          · exact h4 rfl
    | spurious7 regs => exact ha
    | spurious15 regs => exact ha

theorem steps_keep {i : Fin 16} (hi : i = 0 ∨ i = 2 ∨ i = 4) (ha : i ∈ a.lines) (es : List Event) :
    i ∈ (es.foldl Account.step a).lines := by
  induction es generalizing a with
  | nil => exact ha
  | cons e es ih => exact ih (step_keeps hi ha e)

/-- A line without a handler interrupts once, and only if it is open; a call opens it. -/
theorem step_paid {i : Fin 16} (h0 : i ≠ 0) (h2 : i ≠ 2) (h4 : i ≠ 4) {e : Event} (he : delivers i e = true → i ∈ a.lines) :
    (if delivers i e then 1 else 0) + (if i ∈ (a.step e).lines then 1 else 0) ≤
      (if asks i e then 1 else 0) + if i ∈ a.lines then 1 else 0 := by
  cases e with
  | enable rflags irq =>
    have hmem : i ∈ (a.step (.enable rflags irq)).lines ↔ i ∈ a.lines ∨ asks i (.enable rflags irq) = true := by
      have hcascade : i.val ≠ 2 := by
        intro hval
        exact h2 (Fin.ext hval)
      change i ∈ a.lines ∪ openedBy rflags irq ↔ _
      rw [Finset.mem_union, mem_openedBy, asks, Bool.and_eq_true, beq_iff_eq]
      constructor
      · rintro (ha | ⟨hopens, hirq | ⟨hval, -⟩⟩)
        · exact Or.inl ha
        · exact Or.inr ⟨hopens, hirq.symm⟩
        · exact absurd hval hcascade
      · rintro (ha | ⟨hopens, hirq⟩)
        · exact Or.inl ha
        · exact Or.inr ⟨hopens, Or.inl hirq.symm⟩
    simp only [hmem, delivers]
    split_ifs <;> simp_all
  | interrupt d =>
    cases d with
    | real line regs =>
      obtain ⟨j, hj⟩ := line
      by_cases hij : j = i
      · subst hij
        have hmem : j ∉ (a.step (.interrupt (.real ⟨j, hj⟩ regs))).lines := by
          unfold Account.step
          simp only [h0, h4, if_false]
          exact Finset.notMem_erase j a.lines
        have hopen : j ∈ a.lines := he (by simp [delivers])
        rw [if_neg hmem, if_pos hopen]
        split_ifs <;> omega
      · have hmem : i ∈ (a.step (.interrupt (.real ⟨j, hj⟩ regs))).lines → i ∈ a.lines := by
          simp only [Account.step]
          split_ifs
          · exact id
          · exact id
          · exact Finset.mem_of_mem_erase
        have hother : delivers i (.interrupt (.real ⟨j, hj⟩ regs)) = false := by simp [delivers, hij]
        have hsilent : asks i (.interrupt (.real ⟨j, hj⟩ regs)) = false := rfl
        rw [hother, hsilent]
        by_cases hafter : i ∈ (a.step (.interrupt (.real ⟨j, hj⟩ regs))).lines
        · rw [if_pos hafter, if_pos (hmem hafter)]
        · rw [if_neg hafter]
          exact Nat.zero_le _
    | spurious7 regs => exact Nat.add_le_add (Nat.zero_le _) le_rfl
    | spurious15 regs => exact Nat.add_le_add (Nat.zero_le _) le_rfl

theorem steps_paid {i : Fin 16} (h0 : i ≠ 0) (h2 : i ≠ 2) (h4 : i ≠ 4) (h : Tracks s a) (es : List Event)
    (hes : Possible s es) :
    es.countP (delivers i) + (if i ∈ (es.foldl Account.step a).lines then 1 else 0) ≤
      es.countP (asks i) + if i ∈ a.lines then 1 else 0 := by
  induction es generalizing s a with
  | nil => exact le_refl _
  | cons e es ih =>
    obtain ⟨hraised, hrest⟩ := hes
    have hopen : delivers i e = true → i ∈ a.lines := by
      intro hd
      cases e with
      | enable rflags irq => exact absurd hd (by simp [delivers])
      | interrupt d =>
        cases d with
        | real line regs =>
          have hline : line.val = i := by simpa [delivers] using hd
          rw [← h.masked, ← hline]
          exact (hraised _ rfl).1
        | spurious7 regs => exact absurd hd (by simp [delivers])
        | spurious15 regs => exact absurd hd (by simp [delivers])
    have hstep := step_paid h0 h2 h4 hopen
    have hsteps := ih (h.next e) hrest
    rw [List.countP_cons, List.countP_cons, List.foldl_cons]
    omega

/-- The books after a run. The two counters wrap as words do. -/
structure Accounted (start : Serial) (es : List Event) (s : System) : Prop where
  served : s.master.service = 0 ∧ s.slave.service = 0
  masks : ∀ i, isMasked s i = false ↔ i ∈ (account start es).lines
  ticks : s.ticks = (account start es).ticks % Word64.size
  unexpected : s.unexpected = (account start es).unexpected % Word64.size
  serial : s.serial = (account start es).serial
  kept : ∀ i, i = 0 ∨ i = 2 ∨ i = 4 → ∀ before later, es = before ++ later → i ∈ (account start before).lines →
    i ∈ (account start es).lines
  paid : ∀ i, i ≠ 0 → i ≠ 2 → i ≠ 4 →
    es.countP (delivers i) + (if i ∈ (account start es).lines then 1 else 0) ≤ es.countP (asks i)

theorem timerInit_success {rflags features : ℕ} {t : Timer} (h : (timerInit rflags features t s).1 = true) :
    (irqInit rflags features s).1 = true ∧ opens rflags 0 = true ∧
      (timerInit rflags features t s).2.1.pit.mode = 2 ∧ (timerInit rflags features t s).2.1.pit.divisor = 11932 ∧
      (timerInit rflags features t s).2.2 =
        next { (irqInit rflags features s).2 with ticks := 0 } (.enable rflags 0) := by
  unfold timerInit at h ⊢
  split at h
  · exact absurd h (by simp)
  · rename_i hguard
    rcases hres : irqInit rflags features s with ⟨ok, r⟩
    rw [hres] at h
    cases ok with
    | false => exact absurd h (by simp)
    | true =>
      have hflags : rflags &&& 0x200 = 0 := by
        simp only [Bool.or_eq_true, not_or, bne_iff_ne, ne_eq, not_not] at hguard
        exact hguard.2
      rw [if_neg hguard]
      simp only [Bool.not_true, Bool.false_eq_true, if_false]
      refine ⟨trivial, ?_, rfl, rfl, rfl⟩
      simp [opens, hflags]

/-- In every run after `timer_init` the timer, the serial handler and the count of unexpected interrupts
    get exactly what was raised for them, the timer is never masked, and a line that nobody serves
    interrupts at most once for each time it was enabled. -/
theorem interrupts_accounted {rflags features : ℕ} {t : Timer} (hinit : (timerInit rflags features t s).1 = true)
    (hunexpected : s.unexpected = 0) (es : List Event) (hes : Possible (timerInit rflags features t s).2.2 es) :
    Accounted s.serial (.enable rflags 0 :: es) (runAll (timerInit rflags features t s).2.2 es) ∧
      isMasked (runAll (timerInit rflags features t s).2.2 es) 0 = false ∧
      (timerInit rflags features t s).2.1.pit.mode = 2 ∧ (timerInit rflags features t s).2.1.pit.divisor = 11932 := by
  obtain ⟨hirq, hopens, hmode, hdivisor, hstate⟩ := timerInit_success hinit
  have hstart := tracks_init hirq hunexpected
  rw [hstate] at hes ⊢
  have hpossible : Possible { (irqInit rflags features s).2 with ticks := 0 } (.enable rflags 0 :: es) :=
    ⟨by simp, hes⟩
  have htracks := hstart.runAll (.enable rflags 0 :: es)
  have hzero : (0 : Fin 16) ∈ (account s.serial [.enable rflags 0]).lines := by
    change (0 : Fin 16) ∈ ∅ ∪ openedBy rflags 0
    rw [Finset.mem_union, mem_openedBy]
    exact Or.inr ⟨hopens, Or.inl rfl⟩
  have hopen : (0 : Fin 16) ∈ (account s.serial (.enable rflags 0 :: es)).lines := steps_keep (Or.inl rfl) hzero es
  refine ⟨?_, (htracks.masked 0).mpr hopen, hmode, hdivisor⟩
  obtain ⟨b, hs, hb⟩ := htracks
  refine ⟨⟨hs.master_service, hs.slave_service⟩, (hstart.runAll (.enable rflags 0 :: es)).masked,
    hs.ticks.trans hb.ticks, hs.unexpected.trans hb.unexpected, hs.serial.trans hb.serial, ?_, ?_⟩
  · intro i hi before later hsplit hline
    rw [hsplit, account, List.foldl_append]
    exact steps_keep hi hline later
  · intro i h0 h2 h4
    have hpaid := steps_paid h0 h2 h4 hstart _ hpossible
    have hclosed : i ∉ (account s.serial []).lines := by simp [account]
    rw [if_neg hclosed] at hpaid
    exact hpaid

def stoppedTimer : Timer := ⟨false, ⟨0, 0, none, 0⟩⟩

/-- The timer, then a line of the slave that is enabled once. -/
theorem sample_accounted :
    let es : List Event := [.enable 0 9, .interrupt (.real ⟨0, by decide⟩ fun _ => ⟨1, 0, 0⟩),
      .interrupt (.real ⟨9, by decide⟩ fun _ => ⟨1, 0, 0⟩), .interrupt (.spurious15 fun _ => ⟨1, 0, 0⟩)]
    isMasked (runAll (timerInit 0 0 stoppedTimer resetSystem).2.2 es) 0 = false ∧
      (runAll (timerInit 0 0 stoppedTimer resetSystem).2.2 es).unexpected = 1 := by
  intro es
  have hpossible : Possible (timerInit 0 0 stoppedTimer resetSystem).2.2 es := by
    refine ⟨by simp, ?_, ?_, ?_, trivial⟩
    · rintro d ⟨⟩
      exact ⟨by decide +kernel, by decide⟩
    · rintro d ⟨⟩
      exact ⟨by decide +kernel, fun _ => by decide +kernel⟩
    · rintro d ⟨⟩
      change isMasked _ 2 = false
      decide +kernel
  have h := interrupts_accounted (by decide +kernel) rfl es hpossible
  exact ⟨h.2.1, h.1.unexpected.trans (by decide +kernel)⟩

end Runs

end OsByAi.IrqAccounting
