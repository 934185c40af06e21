import OsByAi.ElfModel

set_option autoImplicit false

namespace OsByAi.ElfSegments
open ByteMemory ElfModel

def Loaded (p : ElfProgram) : Prop := p.type = 1 ∧ p.memsz ≠ 0

instance (p : ElfProgram) : Decidable (Loaded p) := inferInstanceAs (Decidable (_ ∧ _))

structure Fits (size : ℕ) (p : ElfProgram) : Prop where
  filesz_le : p.filesz ≤ p.memsz
  in_file : p.offset + p.filesz ≤ size
  above : 0x100000 ≤ p.vaddr
  below : p.vaddr + p.memsz ≤ 0x100000000

def Sound (size : ℕ) (p : ElfProgram) : Prop :=
  p.type ≠ 2 ∧ p.type ≠ 3 ∧ (p.type = 1 → (validSegment p size).value = true)

/-- Disjointness, in the words of `overlaps_previous_segment`. -/
def Apart (p q : ElfProgram) : Prop :=
  Loaded p → Loaded q →
    q.vaddr ≥ Word64.add p.vaddr p.memsz ∨ p.vaddr ≥ Word64.add q.vaddr q.memsz

theorem Apart.symm {p q : ElfProgram} (h : Apart p q) : Apart q p := fun hq hp => (h hp hq).symm

section Segment

variable {p q : ElfProgram} {size : ℕ}

theorem fits_of_valid (hsize : size < Word64.size) (h : (validSegment p size).value = true) :
    Fits size p := by
  unfold validSegment at h
  split at h
  · exact absurd h (by simp)
  · rename_i hfirst
    rw [Bool.or_eq_true, decide_eq_true_iff, decide_eq_true_iff] at hfirst
    have hroom : Word64.sub size p.offset = size - p.offset := Word64.sub_eq (by omega) hsize
    rw [Logged.value_bind, Logged.value_sub, hroom] at h
    split at h
    · exact absurd h (by simp)
    · split at h
      · exact absurd h (by simp)
      · split at h
        · exact absurd h (by simp)
        · rename_i hfile _ haddr
          rw [Bool.or_eq_true, decide_eq_true_iff, decide_eq_true_iff] at haddr
          have habove : Word64.sub 0x100000000 p.vaddr = 0x100000000 - p.vaddr :=
            Word64.sub_eq (by omega) (by decide)
          rw [Logged.value_bind, Logged.value_sub, habove] at h
          split at h
          · exact absurd h (by simp)
          · exact ⟨by omega, by omega, by omega, by omega⟩

theorem Sound.fits (h : Sound size p) (hsize : size < Word64.size) (htype : p.type = 1) : Fits size p :=
  fits_of_valid hsize (h.2.2 htype)

theorem Fits.sum_lt (h : Fits size p) : p.vaddr + p.memsz < Word64.size := by
  have hb := h.below
  unfold Word64.size
  omega

theorem Fits.sum_eq (h : Fits size p) : Word64.add p.vaddr p.memsz = p.vaddr + p.memsz :=
  Word64.add_eq h.sum_lt

theorem Apart.disjoint {a : ℕ} (h : Apart p q) (hp : Fits size p) (hq : Fits size q)
    (htp : p.type = 1) (htq : q.type = 1) (hap : p.vaddr ≤ a ∧ a < p.vaddr + p.memsz)
    (haq : q.vaddr ≤ a ∧ a < q.vaddr + q.memsz) : False := by
  have hor := h ⟨htp, by omega⟩ ⟨htq, by omega⟩
  rw [hp.sum_eq, hq.sum_eq] at hor
  omega

end Segment

theorem pageFloor_eq {x : ℕ} (h : x < Word64.size) : pageFloor x = x / 4096 * 4096 := by
  rw [pageFloor, Word64.and_page h, Nat.mul_comm]

def startOf (p : ElfProgram) : ℕ := pageFloor p.vaddr

def stopOf (p : ElfProgram) : ℕ := pageFloor (Word64.add (Word64.add p.vaddr p.memsz) 4095)

theorem value_widen (entry : ℕ) (s : Span) (p : ElfProgram) :
    (widen entry s p).value =
      ⟨min (startOf p) s.low, max (stopOf p) s.high, (holdsEntry entry p).value || s.entryValid⟩ := by
  unfold widen
  simp only [Logged.value_bind, Logged.value_add, Logged.value_pure]
  change Span.mk (if startOf p < s.low then startOf p else s.low)
    (if stopOf p > s.high then stopOf p else s.high) _ = _
  congr 1
  · rw [min_def]
    split <;> split <;> omega
  · rw [max_def]
    split <;> split <;> omega

def grow (entry : ℕ) (s : Span) (p : ElfProgram) : Span :=
  if Loaded p then ⟨min (startOf p) s.low, max (stopOf p) s.high, (holdsEntry entry p).value || s.entryValid⟩
  else s

theorem grow_comm (entry : ℕ) (s : Span) (p q : ElfProgram) :
    grow entry (grow entry s p) q = grow entry (grow entry s q) p := by
  unfold grow
  by_cases hp : Loaded p
  · by_cases hq : Loaded q
    · rw [if_pos hp, if_pos hq, if_pos hq, if_pos hp, min_left_comm, max_left_comm, Bool.or_left_comm]
    · rw [if_pos hp, if_neg hq, if_neg hq, if_pos hp]
  · by_cases hq : Loaded q
    · rw [if_neg hp, if_pos hq, if_neg hp]
    · rw [if_neg hp, if_neg hq, if_neg hp]

def initial : Span := ⟨Word64.size - 1, 0, false⟩

def spanOf (entry : ℕ) (ps : List ElfProgram) : Span := ps.foldl (grow entry) initial

theorem spanOf_perm {entry : ℕ} {ps qs : List ElfProgram} (h : ps.Perm qs) :
    spanOf entry ps = spanOf entry qs :=
  h.foldl_eq' (fun p _ q _ s => grow_comm entry s p q) initial

theorem spanOf_concat (entry : ℕ) (ps : List ElfProgram) (p : ElfProgram) :
    spanOf entry (ps ++ [p]) = grow entry (spanOf entry ps) p := by
  rw [spanOf, List.foldl_append]
  rfl

structure Proper (s : Span) : Prop where
  low_aligned : s.low % 4096 = 0
  high_aligned : s.high % 4096 = 0
  above : 0x100000 ≤ s.low
  below : s.high ≤ 0x100000000

section Spans

variable {entry size : ℕ} {ps : List ElfProgram}

theorem Fits.startOf_eq {p : ElfProgram} (h : Fits size p) : startOf p = p.vaddr / 4096 * 4096 := by
  have hb := h.below
  apply pageFloor_eq
  unfold Word64.size
  omega

theorem Fits.stopOf_eq {p : ElfProgram} (h : Fits size p) :
    stopOf p = (p.vaddr + p.memsz + 4095) / 4096 * 4096 := by
  have hb := h.below
  have hadd : Word64.add (p.vaddr + p.memsz) 4095 = p.vaddr + p.memsz + 4095 := by
    apply Word64.add_eq
    unfold Word64.size
    omega
  rw [stopOf, h.sum_eq, hadd]
  apply pageFloor_eq
  unfold Word64.size
  omega

variable (entry) in
theorem spanOf_contains {p : ElfProgram} (hp : p ∈ ps) (hl : Loaded p) :
    (spanOf entry ps).low ≤ startOf p ∧ stopOf p ≤ (spanOf entry ps).high := by
  induction ps using List.reverseRecOn with
  | nil => exact absurd hp List.not_mem_nil
  | append_singleton ps q ih =>
    rw [spanOf_concat, grow]
    rcases List.mem_append.mp hp with hmem | hmem
    · obtain ⟨hlow, hhigh⟩ := ih hmem
      split
      · exact ⟨le_trans (min_le_right _ _) hlow, le_trans hhigh (le_max_right _ _)⟩
      · exact ⟨hlow, hhigh⟩
    · rw [← List.mem_singleton.mp hmem, if_pos hl]
      exact ⟨min_le_left _ _, le_max_left _ _⟩

theorem initial_grown {p : ElfProgram} (h : Fits size p) :
    min (startOf p) initial.low = startOf p ∧ max (stopOf p) initial.high = stopOf p := by
  have hstart := h.startOf_eq
  have hbelow := h.below
  refine ⟨?_, max_eq_left (Nat.zero_le _)⟩
  apply min_eq_left
  change startOf p ≤ Word64.size - 1
  unfold Word64.size
  omega

variable (entry) in
theorem spanOf_proper (h : ∀ p ∈ ps, p.type = 1 → Fits size p) :
    spanOf entry ps = initial ∨ Proper (spanOf entry ps) := by
  induction ps using List.reverseRecOn with
  | nil => exact .inl rfl
  | append_singleton ps p ih =>
    have hps := ih fun q hq => h q (List.mem_append_left _ hq)
    rw [spanOf_concat, grow]
    by_cases hl : Loaded p
    · have hfit := h p (List.mem_append_right _ (List.mem_singleton_self p)) hl.1
      have hstart := hfit.startOf_eq
      have hstop := hfit.stopOf_eq
      have habove := hfit.above
      have hbelow := hfit.below
      rw [if_pos hl]
      right
      rcases hps with hps | ⟨hla, hha, hlo, hhi⟩
      · obtain ⟨hmin, hmax⟩ := initial_grown hfit
        rw [hps, hmin, hmax]
        exact ⟨by simp only; omega, by simp only; omega, by simp only; omega, by simp only; omega⟩
      · have hlow : min (startOf p) (spanOf entry ps).low % 4096 = 0 := by
          rcases min_choice (startOf p) (spanOf entry ps).low with he | he
          · omega
          · omega
        have hhigh : max (stopOf p) (spanOf entry ps).high % 4096 = 0 := by
          rcases max_choice (stopOf p) (spanOf entry ps).high with he | he
          · omega
          · omega
        exact ⟨hlow, hhigh, le_min (by omega) hlo, max_le (by omega) hhi⟩
    · rw [if_neg hl]
      exact hps

theorem spanOf_entry (h : (spanOf entry ps).entryValid = true) :
    ∃ p ∈ ps, Loaded p ∧ (holdsEntry entry p).value = true := by
  induction ps using List.reverseRecOn with
  | nil => exact absurd h (by simp [spanOf, initial])
  | append_singleton ps p ih =>
    rw [spanOf_concat, grow] at h
    by_cases hl : Loaded p
    · rw [if_pos hl, Bool.or_eq_true] at h
      rcases h with h | h
      · exact ⟨p, List.mem_append_right _ (List.mem_singleton_self p), hl, h⟩
      · obtain ⟨q, hq, hq'⟩ := ih h
        exact ⟨q, List.mem_append_left _ hq, hq'⟩
    · rw [if_neg hl] at h
      obtain ⟨q, hq, hq'⟩ := ih h
      exact ⟨q, List.mem_append_left _ hq, hq'⟩

end Spans

section Loop

variable {m : Memory} {programs entry size : ℕ}

def programOf (m : Memory) (programs i : ℕ) : ElfProgram := (readProgram m programs i).value

theorem value_apart (current : ElfProgram) (hcur : Loaded current) (i : ℕ) :
    (apart m programs current i).value = true ↔ Apart (programOf m programs i) current := by
  unfold apart Apart
  rw [Logged.value_bind]
  change Logged.value (if (programOf m programs i).type != 1 || (programOf m programs i).memsz == 0 then _
    else _) = true ↔ _
  split
  · rename_i hskip
    rw [Bool.or_eq_true, bne_iff_ne, beq_iff_eq] at hskip
    simp only [Logged.value_pure, true_iff]
    intro hl
    exact absurd hskip (by rw [not_or, not_not]; exact hl)
  · rename_i hload
    rw [Bool.or_eq_true, bne_iff_ne, beq_iff_eq, not_or, not_not] at hload
    rw [Logged.value_bind, Logged.value_add]
    split
    · rename_i hge
      simp only [Logged.value_pure, true_iff]
      exact fun _ _ => .inl hge
    · rename_i hlt
      rw [Logged.value_bind, Logged.value_add, Logged.value_pure, Bool.not_eq_true', decide_eq_false_iff_not]
      constructor
      · exact fun h _ _ => .inr (not_lt.mp h)
      · exact fun h => not_lt.mpr ((h hload hcur).resolve_left hlt)

theorem value_overlapsPreviousSegment {i : ℕ} (hcur : Loaded (programOf m programs i)) :
    (overlapsPreviousSegment m programs i).value = false ↔
      ∀ j, j < i → Apart (programOf m programs j) (programOf m programs i) := by
  unfold overlapsPreviousSegment
  simp only [Logged.value_bind, Logged.value_allBelow, Logged.value_pure]
  rw [Bool.not_eq_false', List.all_eq_true]
  constructor
  · exact fun h j hj => (value_apart _ hcur j).mp (h j (List.mem_range.mpr hj))
  · exact fun h j hj => (value_apart _ hcur j).mpr (h j (List.mem_range.mp hj))

def Passes (m : Memory) (programs size i : ℕ) : Prop :=
  Sound size (programOf m programs i) ∧
    (Loaded (programOf m programs i) → ∀ j, j < i → Apart (programOf m programs j) (programOf m programs i))

def Rejection (status : ℕ) : Prop := status = efiUnsupported ∨ status = efiLoadError

theorem value_inspect_load {i : ℕ} {s : Span} (htype : (programOf m programs i).type = 1) :
    (Passes m programs size i ∧ (inspectHeader m programs entry size i s).value =
      .ok (grow entry s (programOf m programs i))) ∨
    (¬ Passes m programs size i ∧ (inspectHeader m programs entry size i s).value = .error efiLoadError) := by
  unfold inspectHeader
  rw [Logged.value_bind, ← programOf, if_neg (by rw [htype]; decide), if_neg (by rw [htype]; decide),
    Logged.value_bind]
  by_cases hvalid : (validSegment (programOf m programs i) size).value = true
  · have hsound : Sound size (programOf m programs i) := ⟨by omega, by omega, fun _ => hvalid⟩
    rw [if_neg (by rw [hvalid]; decide)]
    by_cases hmem : (programOf m programs i).memsz = 0
    · have hnot : ¬ Loaded (programOf m programs i) := fun h => h.2 hmem
      rw [if_pos (beq_iff_eq.mpr hmem), grow, if_neg hnot, Logged.value_pure]
      exact .inl ⟨⟨hsound, fun h => absurd h hnot⟩, rfl⟩
    · have hload : Loaded (programOf m programs i) := ⟨htype, hmem⟩
      rw [if_neg (mt beq_iff_eq.mp hmem), Logged.value_bind]
      cases hover : (overlapsPreviousSegment m programs i).value with
      | false =>
        rw [if_neg (by decide), Logged.value_bind, value_widen, Logged.value_pure, grow, if_pos hload]
        exact .inl ⟨⟨hsound, fun _ => (value_overlapsPreviousSegment hload).mp hover⟩, rfl⟩
      | true =>
        rw [if_pos rfl, Logged.value_pure]
        refine .inr ⟨fun h => ?_, rfl⟩
        have hfree := (value_overlapsPreviousSegment hload).mpr (h.2 hload)
        exact absurd (hover.symm.trans hfree) (by decide)
  · rw [if_pos (by rw [Bool.eq_false_iff.mpr hvalid]; rfl), Logged.value_pure]
    exact .inr ⟨fun h => hvalid (h.1.2.2 htype), rfl⟩

variable (m programs entry size) in
theorem value_inspectHeader (i : ℕ) (s : Span) :
    (Passes m programs size i ∧ (inspectHeader m programs entry size i s).value =
      .ok (grow entry s (programOf m programs i))) ∨
    (¬ Passes m programs size i ∧
      ∃ status, Rejection status ∧ (inspectHeader m programs entry size i s).value = .error status) := by
  by_cases htype : (programOf m programs i).type = 1
  · rcases value_inspect_load htype with hpass | ⟨hfail, herr⟩
    · exact .inl hpass
    · exact .inr ⟨hfail, efiLoadError, .inr rfl, herr⟩
  · unfold inspectHeader
    rw [Logged.value_bind, ← programOf]
    by_cases hdyn : ((programOf m programs i).type == 2 || (programOf m programs i).type == 3) = true
    · rw [if_pos hdyn, Logged.value_pure]
      rw [Bool.or_eq_true, beq_iff_eq, beq_iff_eq] at hdyn
      refine .inr ⟨fun h => ?_, efiUnsupported, .inl rfl, rfl⟩
      exact hdyn.elim h.1.1 h.1.2.1
    · have hnot : ¬ Loaded (programOf m programs i) := fun h => htype h.1
      rw [if_neg hdyn, if_pos (bne_iff_ne.mpr htype), Logged.value_pure, grow, if_neg hnot]
      rw [Bool.or_eq_true, beq_iff_eq, beq_iff_eq, not_or] at hdyn
      exact .inl ⟨⟨⟨hdyn.1, hdyn.2, fun h => absurd h htype⟩, fun h => absurd h hnot⟩, rfl⟩

def listFrom (m : Memory) (programs i left : ℕ) : List ElfProgram :=
  (List.range' i left).map (programOf m programs)

variable (m programs entry size) in
theorem value_inspectFrom (i left : ℕ) (s : Span) :
    ((∀ k, i ≤ k → k < i + left → Passes m programs size k) ∧
      (inspectFrom m programs entry size i left s).value =
        .ok ((listFrom m programs i left).foldl (grow entry) s)) ∨
    ((¬ ∀ k, i ≤ k → k < i + left → Passes m programs size k) ∧
      ∃ status, Rejection status ∧ (inspectFrom m programs entry size i left s).value = .error status) := by
  induction left generalizing i s with
  | zero => exact .inl ⟨fun k _ _ => by omega, rfl⟩
  | succ left ih =>
    rw [inspectFrom, Logged.value_bind]
    rcases value_inspectHeader m programs entry size i s with ⟨hpass, heq⟩ | ⟨hfail, status, hrej, herr⟩
    · rw [heq]
      rcases ih (i + 1) (grow entry s (programOf m programs i)) with ⟨hall, hok⟩ | ⟨hsome, herr⟩
      · refine .inl ⟨fun k hk hlt => ?_, hok⟩
        by_cases he : k = i
        · rw [he]
          exact hpass
        · exact hall k (by omega) (by omega)
      · exact .inr ⟨fun hall => hsome fun k hk hlt => hall k (by omega) (by omega), herr⟩
    · rw [herr]
      exact .inr ⟨fun hall => hfail (hall i (le_refl i) (by omega)), status, hrej, rfl⟩

/-- The verdict on a list of headers, whatever their order. -/
structure Accepted (size : ℕ) (ps : List ElfProgram) : Prop where
  sound : ∀ p ∈ ps, Sound size p
  apart : ps.Pairwise Apart

theorem Accepted.perm {ps qs : List ElfProgram} (h : Accepted size ps) (hperm : ps.Perm qs) :
    Accepted size qs where
  sound p hp := h.sound p (hperm.mem_iff.mpr hp)
  apart := (hperm.pairwise_iff fun {_ _} hpq => hpq.symm).mp h.apart

variable (m programs size) in
theorem passes_iff_accepted (n : ℕ) :
    (∀ k, 0 ≤ k → k < 0 + n → Passes m programs size k) ↔ Accepted size (listFrom m programs 0 n) := by
  constructor
  · intro h
    refine ⟨fun p hp => ?_, ?_⟩
    · obtain ⟨k, hk, rfl⟩ := List.mem_map.mp hp
      obtain ⟨-, hlt⟩ := List.mem_range'_1.mp hk
      exact (h k (Nat.zero_le k) hlt).1
    · rw [List.pairwise_iff_getElem]
      intro j k hj hk hlt
      have hlen : (listFrom m programs 0 n).length = n := by simp [listFrom]
      simp only [listFrom, List.getElem_map, List.getElem_range', Nat.zero_add, Nat.one_mul]
      exact fun hlj hlk => (h k (Nat.zero_le k) (by omega)).2 hlk j hlt hlj hlk
  · intro h k _ hk
    have hget : ∀ j, j < n → programOf m programs j ∈ listFrom m programs 0 n := fun j hj =>
      List.mem_map.mpr ⟨j, List.mem_range'_1.mpr ⟨Nat.zero_le j, by omega⟩, rfl⟩
    refine ⟨h.sound _ (hget k (by omega)), fun _ j hj => ?_⟩
    have hpair := List.pairwise_iff_getElem.mp h.apart j k (by simp [listFrom]; omega)
      (by simp [listFrom]; omega) hj
    simpa [listFrom] using hpair

end Loop

end OsByAi.ElfSegments
