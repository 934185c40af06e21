import OsByAi.ElfPlacement

set_option autoImplicit false

namespace OsByAi.ElfAcceptance
open ByteMemory ElfModel ElfSegments ElfPlacement

structure Valid (size : ℕ) (p : ElfProgram) : Prop where
  filesz_le : p.filesz ≤ p.memsz
  in_file : p.offset + p.filesz ≤ size
  physical : p.paddr = p.vaddr
  above : 0x100000 ≤ p.vaddr
  start_below : p.vaddr < 0x100000000
  below : p.vaddr + p.memsz ≤ 0x100000000
  aligned : p.align ≤ 1 ∨ (∃ k, p.align = 2 ^ k) ∧ p.vaddr ≡ p.offset [MOD p.align]

def Disjoint (p q : ElfProgram) : Prop :=
  Loaded p → Loaded q → p.vaddr + p.memsz ≤ q.vaddr ∨ q.vaddr + q.memsz ≤ p.vaddr

def pageStart (p : ElfProgram) : ℕ := p.vaddr / 4096 * 4096

def pageStop (p : ElfProgram) : ℕ := (p.vaddr + p.memsz + 4095) / 4096 * 4096

/-- The pages that the non-empty PT_LOADs touch reach from `base` to `stop`. -/
structure IsSpan (ps : List ElfProgram) (range : ImageRange) : Prop where
  base : IsLeast {a | ∃ p ∈ ps, Loaded p ∧ pageStart p = a} range.base
  stop : IsGreatest {a | ∃ p ∈ ps, Loaded p ∧ pageStop p = a} range.stop

/-- A supported table of headers, and the range of its image. -/
structure Supported (entry size : ℕ) (ps : List ElfProgram) (range : ImageRange) : Prop where
  static : ∀ p ∈ ps, p.type ≠ 2 ∧ p.type ≠ 3
  valid : ∀ p ∈ ps, p.type = 1 → Valid size p
  disjoint : ps.Pairwise Disjoint
  entry : ∃ p ∈ ps, Loaded p ∧ p.flags &&& 1 ≠ 0 ∧ p.vaddr ≤ entry ∧ entry < p.vaddr + p.filesz
  span : IsSpan ps range
  short : range.stop - range.base ≤ 64 * 1024 * 1024

section Segment

variable {p : ElfProgram} {size : ℕ}

theorem validAlign_iff (halign : p.align < Word64.size) : (validAlign p).value = true ↔
    (p.align ≤ 1 ∨ (∃ k, p.align = 2 ^ k) ∧ p.vaddr ≡ p.offset [MOD p.align]) := by
  unfold validAlign
  by_cases hle : p.align ≤ 1
  · rw [if_pos hle, Logged.value_pure]
    exact ⟨fun _ => .inl hle, fun _ => rfl⟩
  · have hsub : Word64.sub p.align 1 = p.align - 1 := Word64.sub_eq (by omega) halign
    have hpow := Nat.and_sub_one_eq_zero_iff_isPowerOfTwo (n := p.align) (by omega)
    rw [if_neg hle, Logged.value_bind, Logged.value_sub, hsub]
    by_cases hbits : p.align &&& (p.align - 1) = 0
    · rw [if_neg (by rw [hbits]; decide)]
      simp only [Logged.value_bind, Logged.value_mod, Logged.value_pure, beq_iff_eq]
      exact ⟨fun h => .inr ⟨hpow.mp hbits, h⟩, fun h => (h.resolve_left hle).2⟩
    · rw [if_pos (bne_iff_ne.mpr hbits), Logged.value_pure]
      exact ⟨fun h => absurd h (by decide), fun h => absurd (hpow.mpr (h.resolve_left hle).1) hbits⟩

theorem validSegment_iff (hsize : size < Word64.size) (halign : p.align < Word64.size) :
    (validSegment p size).value = true ↔ Valid size p := by
  unfold validSegment
  by_cases hfirst : (decide (p.filesz > p.memsz) || decide (p.offset > size)) = true
  · rw [if_pos hfirst, Logged.value_pure]
    rw [Bool.or_eq_true, decide_eq_true_iff, decide_eq_true_iff] at hfirst
    refine ⟨fun h => absurd h (by decide), fun h => ?_⟩
    have hle := h.filesz_le
    have hin := h.in_file
    omega
  · rw [if_neg hfirst]
    rw [Bool.or_eq_true, decide_eq_true_iff, decide_eq_true_iff] at hfirst
    have hroom : Word64.sub size p.offset = size - p.offset := Word64.sub_eq (by omega) hsize
    rw [Logged.value_bind, Logged.value_sub, hroom]
    by_cases hfile : p.filesz > size - p.offset
    · rw [if_pos hfile, Logged.value_pure]
      refine ⟨fun h => absurd h (by decide), fun h => ?_⟩
      have hin := h.in_file
      omega
    · rw [if_neg hfile]
      by_cases hphys : p.paddr = p.vaddr
      · rw [if_neg (by rw [hphys]; simp)]
        by_cases haddr : (decide (p.vaddr < 0x100000) || decide (p.vaddr ≥ 0x100000000)) = true
        · rw [if_pos haddr, Logged.value_pure]
          rw [Bool.or_eq_true, decide_eq_true_iff, decide_eq_true_iff] at haddr
          refine ⟨fun h => absurd h (by decide), fun h => ?_⟩
          have hlow := h.above
          have hhigh := h.start_below
          omega
        · rw [if_neg haddr]
          rw [Bool.or_eq_true, decide_eq_true_iff, decide_eq_true_iff] at haddr
          have habove : Word64.sub 0x100000000 p.vaddr = 0x100000000 - p.vaddr :=
            Word64.sub_eq (by omega) (by decide)
          rw [Logged.value_bind, Logged.value_sub, habove]
          by_cases hmem : p.memsz > 0x100000000 - p.vaddr
          · rw [if_pos hmem, Logged.value_pure]
            refine ⟨fun h => absurd h (by decide), fun h => ?_⟩
            have hbelow := h.below
            omega
          · rw [if_neg hmem, validAlign_iff halign]
            exact ⟨fun h => ⟨by omega, by omega, hphys, by omega, by omega, by omega, h⟩, fun h => h.aligned⟩
      · rw [if_pos (bne_iff_ne.mpr hphys), Logged.value_pure]
        exact ⟨fun h => absurd h (by decide), fun h => absurd h.physical hphys⟩

theorem Valid.fits (h : Valid size p) : Fits size p := ⟨h.filesz_le, h.in_file, h.above, h.below⟩

theorem holdsEntry_iff {entry : ℕ} (hentry : entry < Word64.size) : (holdsEntry entry p).value = true ↔
    p.flags &&& 1 ≠ 0 ∧ p.vaddr ≤ entry ∧ entry < p.vaddr + p.filesz := by
  unfold holdsEntry
  rw [Logged.value_both, Bool.and_eq_true, Logged.value_pure, Bool.and_eq_true, bne_iff_ne, decide_eq_true_iff,
    and_assoc]
  refine and_congr_right fun _ => and_congr_right fun hge => ?_
  have hsub : Word64.sub entry p.vaddr = entry - p.vaddr := Word64.sub_eq hge hentry
  rw [Logged.value_bind, Logged.value_sub, hsub, Logged.value_pure, decide_eq_true_iff]
  omega

end Segment

section Table

variable {entry size : ℕ} {ps : List ElfProgram} {range : ImageRange}

variable (entry) in
theorem spanOf_attained (h : ∀ p ∈ ps, p.type = 1 → Fits size p) : spanOf entry ps = initial ∨
    (∃ p ∈ ps, Loaded p ∧ startOf p = (spanOf entry ps).low) ∧
      ∃ p ∈ ps, Loaded p ∧ stopOf p = (spanOf entry ps).high := by
  induction ps using List.reverseRecOn with
  | nil => exact .inl rfl
  | append_singleton ps p ih =>
    have hps := ih fun q hq => h q (List.mem_append_left _ hq)
    have hlast : p ∈ ps ++ [p] := List.mem_append_right _ (List.mem_singleton_self p)
    rw [spanOf_concat, grow]
    by_cases hl : Loaded p
    · rw [if_pos hl]
      right
      rcases hps with hps | ⟨⟨q, hq, hlq, hlow⟩, r, hr, hlr, hhigh⟩
      · have hfit := h p hlast hl.1
        obtain ⟨hmin, hmax⟩ := initial_grown hfit
        rw [hps, hmin, hmax]
        exact ⟨⟨p, hlast, hl, rfl⟩, p, hlast, hl, rfl⟩
      · constructor
        · rcases min_choice (startOf p) (spanOf entry ps).low with he | he
          · exact ⟨p, hlast, hl, he.symm⟩
          · exact ⟨q, List.mem_append_left _ hq, hlq, hlow.trans he.symm⟩
        · rcases max_choice (stopOf p) (spanOf entry ps).high with he | he
          · exact ⟨p, hlast, hl, he.symm⟩
          · exact ⟨r, List.mem_append_left _ hr, hlr, hhigh.trans he.symm⟩
    · rw [if_neg hl]
      rcases hps with hps | ⟨⟨q, hq, hq'⟩, r, hr, hr'⟩
      · exact .inl hps
      · exact .inr ⟨⟨q, List.mem_append_left _ hq, hq'⟩, r, List.mem_append_left _ hr, hr'⟩

theorem spanOf_entry_iff : (spanOf entry ps).entryValid = true ↔
    ∃ p ∈ ps, Loaded p ∧ (holdsEntry entry p).value = true := by
  refine ⟨spanOf_entry, ?_⟩
  rintro ⟨p, hp, hl, hentry⟩
  induction ps using List.reverseRecOn with
  | nil => exact absurd hp List.not_mem_nil
  | append_singleton ps q ih =>
    rw [spanOf_concat, grow]
    rcases List.mem_append.mp hp with hmem | hmem
    · split
      · change ((holdsEntry entry q).value || (spanOf entry ps).entryValid) = true
        rw [ih hmem, Bool.or_true]
      · exact ih hmem
    · rw [← List.mem_singleton.mp hmem, if_pos hl]
      change ((holdsEntry entry p).value || (spanOf entry ps).entryValid) = true
      rw [hentry, Bool.true_or]

variable (entry) in
theorem spanOf_iff (h : ∀ p ∈ ps, p.type = 1 → Fits size p) (hsome : ∃ p ∈ ps, Loaded p) :
    ((spanOf entry ps).low = range.base ∧ (spanOf entry ps).high = range.stop) ↔ IsSpan ps range := by
  have hstart : ∀ p ∈ ps, Loaded p → startOf p = pageStart p := fun p hp hl => (h p hp hl.1).startOf_eq
  have hstop : ∀ p ∈ ps, Loaded p → stopOf p = pageStop p := fun p hp hl => (h p hp hl.1).stopOf_eq
  have hin : ∀ p ∈ ps, Loaded p → (spanOf entry ps).low ≤ startOf p ∧ stopOf p ≤ (spanOf entry ps).high :=
    fun p hp hl => spanOf_contains entry hp hl
  have hattained : (∃ p ∈ ps, Loaded p ∧ startOf p = (spanOf entry ps).low) ∧
      ∃ p ∈ ps, Loaded p ∧ stopOf p = (spanOf entry ps).high := by
    refine (spanOf_attained entry h).resolve_left fun hinit => ?_
    obtain ⟨p, hp, hl⟩ := hsome
    have hmax := (hin p hp hl).2
    have habove := (h p hp hl.1).above
    rw [hinit, hstop p hp hl, pageStop] at hmax
    change _ ≤ 0 at hmax
    omega
  have hspan : IsSpan ps ⟨(spanOf entry ps).low, (spanOf entry ps).high⟩ := by
    obtain ⟨⟨q, hq, hlq, hlow⟩, r, hr, hlr, hhigh⟩ := hattained
    refine ⟨⟨⟨q, hq, hlq, (hstart q hq hlq).symm.trans hlow⟩, ?_⟩,
      ⟨r, hr, hlr, (hstop r hr hlr).symm.trans hhigh⟩, ?_⟩
    · rintro a ⟨p, hp, hl, rfl⟩
      rw [← hstart p hp hl]
      exact (hin p hp hl).1
    · rintro a ⟨p, hp, hl, rfl⟩
      rw [← hstop p hp hl]
      exact (hin p hp hl).2
  constructor
  · rintro ⟨hbase, hstop'⟩
    rw [hbase, hstop'] at hspan
    exact hspan
  · intro hrange
    exact ⟨hspan.base.unique hrange.base, hspan.stop.unique hrange.stop⟩

theorem accepted_iff (hsize : size < Word64.size) (halign : ∀ p ∈ ps, p.align < Word64.size) :
    Accepted size ps ↔ (∀ p ∈ ps, p.type ≠ 2 ∧ p.type ≠ 3) ∧ (∀ p ∈ ps, p.type = 1 → Valid size p) ∧
      ps.Pairwise Disjoint := by
  have hsame : ∀ p q : ElfProgram, (p.type = 1 → Fits size p) → (q.type = 1 → Fits size q) →
      (Apart p q ↔ Disjoint p q) := by
    intro p q hp hq
    refine forall_congr' fun hlp => forall_congr' fun hlq => ?_
    rw [(hp hlp.1).sum_eq, (hq hlq.1).sum_eq]
  constructor
  · intro h
    have hvalid : ∀ p ∈ ps, p.type = 1 → Valid size p := fun p hp htype =>
      (validSegment_iff hsize (halign p hp)).mp ((h.sound p hp).2.2 htype)
    refine ⟨fun p hp => ⟨(h.sound p hp).1, (h.sound p hp).2.1⟩, hvalid, ?_⟩
    exact h.apart.imp_of_mem fun {p q} hp hq hpq =>
      (hsame p q (fun ht => (hvalid p hp ht).fits) fun ht => (hvalid q hq ht).fits).mp hpq
  · rintro ⟨hstatic, hvalid, hdisjoint⟩
    refine ⟨fun p hp => ⟨(hstatic p hp).1, (hstatic p hp).2, fun ht =>
      (validSegment_iff hsize (halign p hp)).mpr (hvalid p hp ht)⟩, ?_⟩
    exact hdisjoint.imp_of_mem fun {p q} hp hq hpq =>
      (hsame p q (fun ht => (hvalid p hp ht).fits) fun ht => (hvalid q hq ht).fits).mpr hpq

end Table

section Result

variable {m : Memory} {data size : ℕ} {range : ImageRange}

variable (m data) in
theorem headers_align_lt : ∀ p ∈ headers m data, p.align < Word64.size := by
  intro p hp
  obtain ⟨i, -, rfl⟩ := mem_headers.mp hp
  exact load_lt m _ 8

theorem inspected_iff (hlt : size < Word64.size) (hroom : sizeofHeader ≤ size)
    (hvalid : (validElfHeader (headerAt m data) size).value = true) :
    Inspected m data size range ↔ Supported (headerAt m data).entry size (headers m data) range := by
  have hentry : (headerAt m data).entry < Word64.size := load_lt m (data + 24) 8
  have haccepted := accepted_iff hlt (headers_align_lt m data)
  constructor
  · intro h
    obtain ⟨hstatic, hval, hdisjoint⟩ := haccepted.mp h.accepted
    have hseen : (spanOf (headerAt m data).entry (headers m data)).entryValid = true := by rw [h.span]
    obtain ⟨p, hp, hl, hholds⟩ := spanOf_entry_iff.mp hseen
    refine ⟨hstatic, hval, hdisjoint, ⟨p, hp, hl, (holdsEntry_iff hentry).mp hholds⟩, ?_, h.short⟩
    refine (spanOf_iff (headerAt m data).entry (fun q hq ht => (hval q hq ht).fits) ⟨p, hp, hl⟩).mp ?_
    rw [h.span]
    exact ⟨rfl, rfl⟩
  · intro h
    obtain ⟨p, hp, hl, hholds⟩ := h.entry
    have hfits : ∀ q ∈ headers m data, q.type = 1 → Fits size q := fun q hq ht => (h.valid q hq ht).fits
    have hseen : (spanOf (headerAt m data).entry (headers m data)).entryValid = true :=
      spanOf_entry_iff.mpr ⟨p, hp, hl, (holdsEntry_iff hentry).mpr hholds⟩
    obtain ⟨hlow, hhigh⟩ := (spanOf_iff (headerAt m data).entry hfits ⟨p, hp, hl⟩).mpr h.span
    refine ⟨hroom, hvalid, haccepted.mpr ⟨h.static, h.valid, h.disjoint⟩, ?_, ?_, h.short⟩
    · rw [← hlow, ← hhigh, ← hseen]
    · have hbase := h.span.base.2 ⟨p, hp, hl, rfl⟩
      have hstop := h.span.stop.2 ⟨p, hp, hl, rfl⟩
      have hmem := hl.2
      unfold pageStart at hbase
      unfold pageStop at hstop
      omega

theorem inspectSegments_iff (hbuf : data + size ≤ Word64.size) (hlt : size < Word64.size)
    (hroom : sizeofHeader ≤ size) (hvalid : (validElfHeader (headerAt m data) size).value = true) :
    (inspectSegments m data (headerAt m data) size).value = .ok range ↔
      Supported (headerAt m data).entry size (headers m data) range := by
  rw [← inspected_iff hlt hroom hvalid]
  rcases value_inspectSegments hbuf hlt hroom hvalid with ⟨range', h, hval⟩ | ⟨hno, status, -, hval⟩
  · rw [hval]
    constructor
    · intro he
      injection he with he
      rw [← he]
      exact h
    · intro h'
      rw [h.unique h']
  · rw [hval]
    exact ⟨fun he => absurd he (by simp), fun h => absurd ⟨range, h⟩ hno⟩

/-- `inspect_segments` succeeds exactly on the supported tables and returns exactly their span; the
    order of the headers matters neither for the verdict nor for the range. -/
theorem inspect_segments_exact (hbuf : data + size ≤ Word64.size) (hlt : size < Word64.size)
    (hroom : sizeofHeader ≤ size) (hvalid : (validElfHeader (headerAt m data) size).value = true) :
    (∀ range, (inspectSegments m data (headerAt m data) size).value = .ok range ↔
      Supported (headerAt m data).entry size (headers m data) range) ∧
    ∀ m' data', data' + size ≤ Word64.size → headerAt m' data' = headerAt m data →
      (headers m' data').Perm (headers m data) → ∀ range,
        (inspectSegments m' data' (headerAt m' data') size).value = .ok range ↔
          (inspectSegments m data (headerAt m data) size).value = .ok range := by
  refine ⟨fun range => inspectSegments_iff hbuf hlt hroom hvalid, ?_⟩
  intro m' data' hbuf' hhead hperm range
  have hvalid' : (validElfHeader (headerAt m' data') size).value = true := by rw [hhead]; exact hvalid
  rw [inspectSegments_iff hbuf' hlt hroom hvalid', inspectSegments_iff hbuf hlt hroom hvalid,
    ← inspected_iff hlt hroom hvalid', ← inspected_iff hlt hroom hvalid]
  exact ⟨fun h => h.reorder hhead.symm hperm.symm, fun h => h.reorder hhead hperm⟩

end Result

theorem sample_supported : Supported 0x100000 181 [textSegment, dataSegment] ⟨0x100000, 0x10a000⟩ := by
  have hsupported := ((inspect_segments_exact (by decide) (by decide) (by decide) sample_valid).1 _).mp sample_span
  rw [sample_entry, sample_headers] at hsupported
  exact hsupported

end OsByAi.ElfAcceptance
