import OsByAi.PicModel

set_option autoImplicit false

namespace OsByAi.PicDispatch
open SerialModel PicModel

theorem data_mask {p : Pic} (h : p.expected = 0) (value : UInt8) : p.data value = { p with mask := value } := by
  simp [Pic.data, h]

theorem lineBit_end : ∀ i, i < 8 → endOfInterrupt (lineBit i) = 0 := by decide

theorem lineBit_add_eight (i : ℕ) : lineBit (i + 8) = lineBit i := by
  unfold lineBit
  rw [Nat.add_mod_right]

/-- What an interrupt may change, apart from the in-service bits. -/
structure Books where
  masterMask : UInt8
  slaveMask : UInt8
  ticks : ℕ
  unexpected : ℕ
  serial : Serial

/-- The controllers are set up as `irq_init` leaves them, with these bits in service. -/
structure Stands (s : System) (master slave : UInt8) (b : Books) : Prop where
  initialized : s.initialized = true
  master_service : s.master.service = master
  slave_service : s.slave.service = slave
  master_ready : s.master.expected = 0
  slave_ready : s.slave.expected = 0
  master_base : s.master.base = 0x20
  slave_base : s.slave.base = 0x28
  master_mask : s.master.mask = b.masterMask
  slave_mask : s.slave.mask = b.slaveMask
  ticks : s.ticks = b.ticks
  unexpected : s.unexpected = b.unexpected
  serial : s.serial = b.serial

section Handle

variable {s : System} {master slave : UInt8} {b : Books} {regs : ℕ → Registers}

theorem Stands.end_master (h : Stands s master slave b) : Stands (outb 0x20 0x20 s) (endOfInterrupt master) slave b :=
  { h with master_service := congrArg endOfInterrupt h.master_service }

theorem Stands.end_slave (h : Stands s master slave b) : Stands (outb 0xa0 0x20 s) master (endOfInterrupt slave) b :=
  { h with slave_service := congrArg endOfInterrupt h.slave_service }

theorem Stands.read_master (h : Stands s master slave b) : Stands (outb 0x20 0x0b s) master slave b := { h with }

theorem Stands.read_slave (h : Stands s master slave b) : Stands (outb 0xa0 0x0b s) master slave b := { h with }

theorem Stands.write_master (h : Stands s master slave b) (value : UInt8) :
    Stands (outb 0x21 value s) master slave { b with masterMask := value } := by
  have hout : outb 0x21 value s = { s with master := { s.master with mask := value } } := by
    change { s with master := s.master.data value } = _
    rw [data_mask h.master_ready]
  rw [hout]
  exact { h with master_mask := rfl }

theorem Stands.write_slave (h : Stands s master slave b) (value : UInt8) :
    Stands (outb 0xa1 value s) master slave { b with slaveMask := value } := by
  have hout : outb 0xa1 value s = { s with slave := { s.slave with mask := value } } := by
    change { s with slave := s.slave.data value } = _
    rw [data_mask h.slave_ready]
  rw [hout]
  exact { h with slave_mask := rfl }

theorem Stands.count (h : Stands s master slave b) :
    Stands { s with unexpected := Word64.add s.unexpected 1 } master slave
      { b with unexpected := Word64.add b.unexpected 1 } :=
  { h with unexpected := by rw [h.unexpected] }

/-- What a real interrupt on line `i` does: two lines have a handler, the others are masked. -/
def Books.after (b : Books) (regs : ℕ → Registers) (i : ℕ) : Books :=
  if i = 0 then { b with ticks := Word64.add b.ticks 1 }
  else if i = 4 then { b with serial := (serialInterrupt regs b.serial).1 }
  else if i < 8 then { b with masterMask := b.masterMask ||| lineBit i, unexpected := Word64.add b.unexpected 1 }
  else { b with slaveMask := b.slaveMask ||| lineBit i, unexpected := Word64.add b.unexpected 1 }

theorem handle_low {i : ℕ} (h : Stands s (lineBit i) slave b) (hi : i < 8) :
    Stands (handle regs (32 + i) s) 0 slave (b.after regs i) := by
  have hfinish : ∀ s' b', Stands s' (lineBit i) slave b' → Stands (outb 0x20 0x20 s') 0 slave b' := by
    intro s' b' h'
    have hend := h'.end_master
    rw [lineBit_end i hi] at hend
    exact hend
  unfold Books.after
  by_cases h0 : i = 0
  · subst h0
    exact hfinish (timerInterrupt s) _ { h with ticks := congrArg (Word64.add · 1) h.ticks }
  · rw [if_neg h0]
    by_cases h4 : i = 4
    · subst h4
      exact hfinish { s with serial := (serialInterrupt regs s.serial).1 } _
        { h with serial := congrArg (fun p => (serialInterrupt regs p).1) h.serial }
    · rw [if_neg h4, if_pos hi]
      have hbody : handle regs (32 + i) s = outb 0x20 0x20 (outb 0x21
          (s.master.mask ||| lineBit i) { s with unexpected := Word64.add s.unexpected 1 }) := by
        have hlow : 32 + i < 40 := by omega
        simp only [handle, show 32 + i ≠ 32 by omega, show 32 + i ≠ 36 by omega, hlow, Nat.not_le.mpr hlow,
          if_false, if_true, Nat.add_sub_cancel_left]
        rfl
      rw [hbody, h.master_mask]
      exact hfinish _ _ (h.count.write_master _)

theorem handle_high {i : ℕ} (h : Stands s (lineBit 2) (lineBit (8 + i)) b) (hi : i < 8) :
    Stands (handle regs (40 + i) s) 0 0 (b.after regs (8 + i)) := by
  have hbody : handle regs (40 + i) s = outb 0x20 0x20 (outb 0xa0 0x20 (outb 0xa1
      (s.slave.mask ||| lineBit (8 + i)) { s with unexpected := Word64.add s.unexpected 1 })) := by
    have hline : 40 + i - 32 = 8 + i := by omega
    have hhigh : 40 ≤ 40 + i := Nat.le_add_right 40 i
    simp only [handle, show 40 + i ≠ 32 by omega, show 40 + i ≠ 36 by omega, hhigh, Nat.not_lt.mpr hhigh,
      if_false, if_true, hline]
    rfl
  have hended := (h.count.write_slave (b.slaveMask ||| lineBit (8 + i))).end_slave.end_master
  have hbit : lineBit (8 + i) = lineBit i := by rw [Nat.add_comm, lineBit_add_eight]
  have htwo : endOfInterrupt (lineBit 2) = 0 := lineBit_end 2 (by decide)
  have hfree : endOfInterrupt (lineBit (8 + i)) = 0 := by rw [hbit, lineBit_end i hi]
  rw [htwo, hfree] at hended
  have hafter : b.after regs (8 + i) = { b with
      slaveMask := b.slaveMask ||| lineBit (8 + i), unexpected := Word64.add b.unexpected 1 } := by
    rw [Books.after, if_neg (by omega), if_neg (by omega), if_neg (by omega)]
  rw [hbody, h.slave_mask, hafter]
  exact hended

theorem dispatch_low {i : ℕ} (h : Stands s (lineBit i) slave b) (hi : i < 8) :
    Stands (irqDispatch regs (32 + i) s) 0 slave (b.after regs i) := by
  by_cases h7 : i = 7
  · subst h7
    have hbody : irqDispatch regs 39 s =
        if s.master.service &&& 0x80 == 0 then outb 0x20 0x0b s else handle regs 39 (outb 0x20 0x0b s) := rfl
    rw [hbody, h.master_service, if_neg (by decide)]
    exact handle_low h.read_master hi
  · have hno : ¬ (32 + i = 39 ∨ 32 + i = 47) := by omega
    rw [irqDispatch, if_neg hno]
    exact handle_low h hi

theorem dispatch_high {i : ℕ} (h : Stands s (lineBit 2) (lineBit (8 + i)) b) (hi : i < 8) :
    Stands (irqDispatch regs (40 + i) s) 0 0 (b.after regs (8 + i)) := by
  by_cases h7 : i = 7
  · subst h7
    have hbody : irqDispatch regs 47 s = if s.slave.service &&& 0x80 == 0 then outb 0x20 0x20 (outb 0xa0 0x0b s)
        else handle regs 47 (outb 0xa0 0x0b s) := rfl
    rw [hbody, h.slave_service, if_neg (by decide)]
    exact handle_high h.read_slave hi
  · have hno : ¬ (40 + i = 39 ∨ 40 + i = 47) := by omega
    rw [irqDispatch, if_neg hno]
    exact handle_high h hi

def Books.delivered (b : Books) : Delivery → Books
  | .real line regs => b.after regs line.val.val
  | .spurious7 _ => b
  | .spurious15 _ => b

theorem Stands.deliver (h : Stands s 0 0 b) (d : Delivery) : Stands (deliver s d) 0 0 (b.delivered d) := by
  have hm : s.master.base.toNat = 32 := by rw [h.master_base]; rfl
  have hs : s.slave.base.toNat = 40 := by rw [h.slave_base]; rfl
  unfold PicModel.deliver
  cases d with
  | real line regs =>
    obtain ⟨⟨i, hi⟩, hne⟩ := line
    by_cases hlow : i < 8
    · have hvector : vectorOf s (.real ⟨⟨i, hi⟩, hne⟩ regs) = 32 + i := by
        rw [← hm]
        exact if_pos hlow
      have hraise : raise s (.real ⟨⟨i, hi⟩, hne⟩ regs) =
          { s with master := { s.master with service := s.master.service ||| lineBit i } } := if_pos hlow
      have hraised : Stands (raise s (.real ⟨⟨i, hi⟩, hne⟩ regs)) (lineBit i) 0 b := by
        rw [hraise]
        exact { h with master_service := by rw [h.master_service, UInt8.zero_or] }
      rw [hvector]
      exact dispatch_low hraised hlow
    · obtain ⟨k, rfl⟩ : ∃ k, i = 8 + k := ⟨i - 8, by omega⟩
      have hvector : vectorOf s (.real ⟨⟨8 + k, hi⟩, hne⟩ regs) = 40 + k := by
        rw [← hs]
        refine (if_neg hlow).trans ?_
        rw [Nat.add_sub_cancel_left]
      have hraise : raise s (.real ⟨⟨8 + k, hi⟩, hne⟩ regs) =
          { s with
            slave := { s.slave with service := s.slave.service ||| lineBit (8 + k) }
            master := { s.master with service := s.master.service ||| lineBit 2 } } := if_neg hlow
      have hraised : Stands (raise s (.real ⟨⟨8 + k, hi⟩, hne⟩ regs)) (lineBit 2) (lineBit (8 + k)) b := by
        rw [hraise]
        exact { h with
          master_service := by rw [h.master_service, UInt8.zero_or]
          slave_service := by rw [h.slave_service, UInt8.zero_or] }
      rw [hvector]
      exact dispatch_high hraised (by omega)
  | spurious7 regs =>
    have hvector : vectorOf s (.spurious7 regs) = 39 := by rw [vectorOf, hm]
    have hbody : irqDispatch regs 39 s =
        if s.master.service &&& 0x80 == 0 then outb 0x20 0x0b s else handle regs 39 (outb 0x20 0x0b s) := rfl
    rw [hvector, raise, Delivery.regs, hbody, h.master_service, if_pos (by decide)]
    exact h.read_master
  | spurious15 regs =>
    have hvector : vectorOf s (.spurious15 regs) = 47 := by rw [vectorOf, hs]
    have hraised : Stands (raise s (.spurious15 regs)) (lineBit 2) 0 b :=
      { h with master_service := by rw [raise, h.master_service, UInt8.zero_or] }
    generalize raise s (.spurious15 regs) = r at hraised
    have hbody : irqDispatch regs 47 r = if r.slave.service &&& 0x80 == 0 then outb 0x20 0x20 (outb 0xa0 0x0b r)
        else handle regs 47 (outb 0xa0 0x0b r) := rfl
    have htwo : endOfInterrupt (lineBit 2) = 0 := lineBit_end 2 (by decide)
    have hended := hraised.read_slave.end_master
    rw [htwo] at hended
    rw [hvector, Delivery.regs, hbody, hraised.slave_service, if_pos (by decide)]
    exact hended

end Handle

section Enable

variable {s : System} {b : Books}

def opens (rflags irq : ℕ) : Bool := decide (irq < 16) && rflags &&& 0x200 == 0

def Books.enabled (b : Books) (irq : ℕ) : Books :=
  if irq < 8 then { b with masterMask := b.masterMask &&& ~~~lineBit irq }
  else { b with masterMask := b.masterMask &&& ~~~lineBit 2, slaveMask := b.slaveMask &&& ~~~lineBit irq }

theorem Stands.enable (h : Stands s 0 0 b) (rflags irq : ℕ) :
    (irqEnable rflags irq s).1 = opens rflags irq ∧
      Stands (irqEnable rflags irq s).2 0 0 (if opens rflags irq then b.enabled irq else b) := by
  have hguard : (!s.initialized || decide (irq ≥ 16) || rflags &&& 0x200 != 0) = !opens rflags irq := by
    rw [h.initialized, opens, Bool.not_and, ← decide_not, bne]
    simp
  unfold irqEnable
  rw [hguard]
  cases opens rflags irq with
  | false => exact ⟨rfl, h⟩
  | true =>
    refine ⟨rfl, ?_⟩
    unfold Books.enabled
    simp only [Bool.not_true, Bool.false_eq_true, if_false, if_true]
    by_cases hlow : irq < 8
    · have hread : inb 0x21 s = b.masterMask := h.master_mask
      have hport : (if irq < 8 then 0x21 else 0xa1) = 0x21 := if_pos hlow
      rw [hport, if_neg (by omega : ¬ irq ≥ 8), if_pos hlow, hread]
      exact h.write_master _
    · have hread : inb 0xa1 s = b.slaveMask := h.slave_mask
      have hport : (if irq < 8 then 0x21 else 0xa1) = 0xa1 := if_neg hlow
      have hslave := h.write_slave (b.slaveMask &&& ~~~lineBit irq)
      have hread' : inb 0x21 (outb 0xa1 (b.slaveMask &&& ~~~lineBit irq) s) = b.masterMask := hslave.master_mask
      rw [hport, if_pos (by omega : irq ≥ 8), if_neg hlow, hread]
      change Stands (outb 0x21 (inb 0x21 (outb 0xa1 (b.slaveMask &&& ~~~lineBit irq) s) &&& ~~~4)
        (outb 0xa1 (b.slaveMask &&& ~~~lineBit irq) s)) 0 0 _
      rw [hread']
      exact hslave.write_master _

end Enable

section Start

variable {s : System} {rflags features : ℕ}

theorem init_writes (s : System) : initWrites.foldl (fun s w => picWrite w.1 w.2 s) s =
    { s with
      master := (((((s.master.data 0xff).command 0x11).data 0x20).data 4).data 1).data 0xff
      slave := (((((s.slave.data 0xff).command 0x11).data 0x28).data 2).data 1).data 0xff } := rfl

theorem irqInit_stands (h : (irqInit rflags features s).1 = true) : rflags &&& 0x200 = 0 ∧
    Stands (irqInit rflags features s).2 0 0 ⟨0xff, 0xff, s.ticks, s.unexpected, s.serial⟩ := by
  unfold irqInit at h ⊢
  by_cases hfirst : (s.initialized || rflags &&& 0x200 != 0) = true
  · rw [if_pos hfirst] at h
    exact absurd h (by simp)
  · rw [if_neg hfirst] at h ⊢
    have hflags : rflags &&& 0x200 = 0 := by
      rw [Bool.or_eq_true, not_or, bne_iff_ne, not_not] at hfirst
      exact hfirst.2
    by_cases hx2 : (features &&& 2 ^ 9 != 0 && s.apicBase &&& 2 ^ 10 != 0) = true
    · rw [if_pos hx2] at h
      exact absurd h (by simp)
    · rw [if_neg hx2]
      dsimp only
      rw [init_writes]
      refine ⟨hflags, ?_⟩
      by_cases hapic : (features &&& 2 ^ 9 != 0) = true
      · rw [if_pos hapic]
        exact ⟨rfl, rfl, rfl, rfl, rfl, rfl, rfl, rfl, rfl, rfl, rfl, rfl⟩
      · rw [if_neg hapic]
        exact ⟨rfl, rfl, rfl, rfl, rfl, rfl, rfl, rfl, rfl, rfl, rfl, rfl⟩

end Start

end OsByAi.PicDispatch
