import OsByAi.PicDispatch

set_option autoImplicit false

namespace OsByAi.PicBalance
open SerialModel (Registers)
open PicModel PicDispatch

/-- A real interrupt on a line that nobody uses. -/
def isUnexpected : Delivery → Bool
  | .real line _ => line.val != 0 && line.val != 4
  | _ => false

/-- `irq_init`, `irq_enable(0)` and `irq_enable(4)`. -/
def armed (rflags features : ℕ) (s : System) : System :=
  (irqEnable rflags 4 (irqEnable rflags 0 (irqInit rflags features s).2).2).2

theorem lineBit_masked : ∀ i, i < 8 → i ≠ 0 → i ≠ 4 → 0xee ||| lineBit i = 0xee := by decide

theorem lineBit_all : ∀ i, i < 8 → (0xff ||| lineBit i : UInt8) = 0xff := by decide

/-- Only lines 0 and 4 are open. -/
structure Armed (b : Books) : Prop where
  master : b.masterMask = 0xee
  slave : b.slaveMask = 0xff

theorem armed_stands {rflags features : ℕ} {s : System} (h : (irqInit rflags features s).1 = true) :
    ∃ b, Stands (armed rflags features s) 0 0 b ∧ Armed b ∧ b.unexpected = s.unexpected := by
  obtain ⟨hflags, hinit⟩ := irqInit_stands h
  have hopens : ∀ irq, irq < 16 → opens rflags irq = true := by
    intro irq hirq
    simp [opens, hirq, hflags]
  have hzero := (hinit.enable rflags 0).2
  have hfour := (hzero.enable rflags 4).2
  rw [if_pos (hopens 0 (by decide)), if_pos (hopens 4 (by decide))] at hfour
  have hmask : (0xff &&& ~~~lineBit 0) &&& ~~~lineBit 4 = 0xee := by decide
  exact ⟨_, hfour, ⟨hmask, rfl⟩, rfl⟩

theorem isUnexpected_real {i : ℕ} {hi : i < 16} {hne : (⟨i, hi⟩ : Fin 16) ≠ 2} {regs : ℕ → Registers} :
    isUnexpected (.real ⟨⟨i, hi⟩, hne⟩ regs) = true ↔ ¬ (i = 0 ∨ i = 4) := by
  have h0 : (⟨i, hi⟩ : Fin 16) = 0 ↔ i = 0 := by rw [Fin.ext_iff]; rfl
  have h4 : (⟨i, hi⟩ : Fin 16) = 4 ↔ i = 4 := by rw [Fin.ext_iff]; rfl
  rw [not_or, ← h0, ← h4]
  simp only [isUnexpected, Bool.and_eq_true, bne_iff_ne]

theorem Armed.after {b : Books} (h : Armed b) (regs : ℕ → Registers) {i : ℕ} (hi : i < 16) :
    Armed (b.after regs i) ∧
      (b.after regs i).unexpected = if i = 0 ∨ i = 4 then b.unexpected else Word64.add b.unexpected 1 := by
  unfold Books.after
  by_cases h0 : i = 0
  · rw [if_pos h0, if_pos (.inl h0)]
    exact ⟨⟨h.master, h.slave⟩, rfl⟩
  · rw [if_neg h0]
    by_cases h4 : i = 4
    · rw [if_pos h4, if_pos (.inr h4)]
      exact ⟨⟨h.master, h.slave⟩, rfl⟩
    · rw [if_neg h4, if_neg (not_or.mpr ⟨h0, h4⟩)]
      by_cases hlow : i < 8
      · rw [if_pos hlow]
        refine ⟨⟨?_, h.slave⟩, rfl⟩
        rw [h.master, lineBit_masked i hlow h0 h4]
      · obtain ⟨k, rfl⟩ : ∃ k, i = k + 8 := ⟨i - 8, by omega⟩
        rw [if_neg hlow]
        refine ⟨⟨h.master, ?_⟩, rfl⟩
        rw [h.slave, lineBit_add_eight, lineBit_all k (by omega)]

theorem Armed.delivered {b : Books} (h : Armed b) (d : Delivery) : Armed (b.delivered d) ∧
    (b.delivered d).unexpected = if isUnexpected d then Word64.add b.unexpected 1 else b.unexpected := by
  cases d with
  | real line regs =>
    obtain ⟨⟨i, hi⟩, hne⟩ := line
    obtain ⟨hafter, hcount⟩ := h.after regs hi
    refine ⟨hafter, hcount.trans ?_⟩
    by_cases hused : i = 0 ∨ i = 4
    · rw [if_pos hused, if_neg fun hu => (isUnexpected_real.mp hu) hused]
    · rw [if_neg hused, if_pos (isUnexpected_real.mpr hused)]
  | spurious7 regs => exact ⟨h, rfl⟩
  | spurious15 regs => exact ⟨h, rfl⟩

def unexpectedCount (ds : List Delivery) : ℕ := ds.countP isUnexpected

theorem deliverAll_stands {s : System} {b : Books} (h : Stands s 0 0 b) (hb : Armed b)
    (hword : b.unexpected < Word64.size) (ds : List Delivery) :
    ∃ b', Stands (deliverAll s ds) 0 0 b' ∧ Armed b' ∧
      b'.unexpected = (b.unexpected + unexpectedCount ds) % Word64.size := by
  induction ds generalizing s b with
  | nil => exact ⟨b, h, hb, (Nat.mod_eq_of_lt hword).symm⟩
  | cons d ds ih =>
    obtain ⟨harmed, hcount⟩ := hb.delivered d
    unfold unexpectedCount
    cases hd : isUnexpected d with
    | true =>
      rw [hd, if_pos rfl] at hcount
      obtain ⟨b', hstands, hall, hsum⟩ := ih (h.deliver d) harmed (by rw [hcount]; exact Word64.add_lt _ _)
      refine ⟨b', hstands, hall, hsum.trans ?_⟩
      rw [hcount, List.countP_cons_of_pos hd, Word64.add, Nat.mod_add_mod, ← unexpectedCount]
      congr 1
      omega
    | false =>
      rw [hd, if_neg (by decide)] at hcount
      obtain ⟨b', hstands, hall, hsum⟩ := ih (h.deliver d) harmed (by rw [hcount]; exact hword)
      refine ⟨b', hstands, hall, hsum.trans ?_⟩
      rw [hcount, List.countP_cons_of_neg (by rw [hd]; decide), ← unexpectedCount]

def isMasked (s : System) (i : Fin 16) : Bool :=
  (if i.val < 8 then s.master.mask else s.slave.mask) &&& lineBit i.val != 0

theorem Armed.masked {s : System} {master slave : UInt8} {b : Books} (hb : Armed b) (h : Stands s master slave b)
    (i : Fin 16) : isMasked s i = (i != 0 && i != 4) := by
  unfold isMasked
  rw [h.master_mask, h.slave_mask, hb.master, hb.slave]
  revert i
  decide

/-- After any deliveries, real or spurious, nothing is left in service, lines 0 and 4 are open and
    all others are masked, and the count of unexpected interrupts (a 64-bit one) is right. -/
theorem acknowledgement_balance {rflags features : ℕ} {s : System} (h : (irqInit rflags features s).1 = true)
    (hzero : s.unexpected = 0) (ds : List Delivery) :
    (deliverAll (armed rflags features s) ds).master.service = 0 ∧
    (deliverAll (armed rflags features s) ds).slave.service = 0 ∧
    isMasked (deliverAll (armed rflags features s) ds) 0 = false ∧
    isMasked (deliverAll (armed rflags features s) ds) 4 = false ∧
    (∀ i : Fin 16, i ≠ 0 → i ≠ 4 → isMasked (deliverAll (armed rflags features s) ds) i = true) ∧
    (deliverAll (armed rflags features s) ds).unexpected = unexpectedCount ds % Word64.size := by
  obtain ⟨b, hstart, harmed, hcount⟩ := armed_stands h
  rw [hzero] at hcount
  obtain ⟨b', hend, hall, hsum⟩ := deliverAll_stands hstart harmed (by rw [hcount]; decide) ds
  rw [hcount, Nat.zero_add] at hsum
  refine ⟨hend.master_service, hend.slave_service, ?_, ?_, fun i h0 h4 => ?_, hend.unexpected.trans hsum⟩
  · rw [hall.masked hend]
    decide
  · rw [hall.masked hend]
    decide
  · rw [hall.masked hend, Bool.and_eq_true]
    exact ⟨bne_iff_ne.mpr h0, bne_iff_ne.mpr h4⟩

/-- The controllers as they come out of reset, with a spurious and a real interrupt on line 15. -/
def resetSystem : System where
  master := ⟨0, 0, 0, false, 0, false, false, 8⟩
  slave := ⟨0, 0, 0, false, 0, false, false, 0x70⟩
  initialized := false
  apicBase := 0
  unexpected := 0
  ticks := 0
  serial := ⟨⟨fun _ => 0, 0, 0, false⟩, false, 0, 0, 0, []⟩

theorem fifteen_balanced : (irqInit 0 0 resetSystem).1 = true ∧
    (deliverAll (armed 0 0 resetSystem) [.spurious15 fun _ => ⟨1, 0, 0⟩,
      .real ⟨15, by decide⟩ fun _ => ⟨1, 0, 0⟩]).master.service = 0 :=
  ⟨by decide +kernel, (acknowledgement_balance (by decide +kernel) rfl _).1⟩

end OsByAi.PicBalance
