import OsByAi.ElfSegments

set_option autoImplicit false

namespace OsByAi.ElfPlacement
open ByteMemory ElfModel ElfSegments

def header (m : Memory) (data i : ℕ) : ElfProgram :=
  programAt m (data + (headerAt m data).phoff + sizeofProgram * i)

def headers (m : Memory) (data : ℕ) : List ElfProgram :=
  (List.range (headerAt m data).phnum).map (header m data)

theorem mem_headers {m : Memory} {data : ℕ} {p : ElfProgram} :
    p ∈ headers m data ↔ ∃ i, i < (headerAt m data).phnum ∧ header m data i = p := by
  simp only [headers, List.mem_map, List.mem_range]

/-- What the tests before `inspect_segments` leave: the table of headers lies in the file. -/
structure TableFits (m : Memory) (data size : ℕ) : Prop where
  room : sizeofHeader ≤ size
  nonempty : 0 < (headerAt m data).phnum
  few : (headerAt m data).phnum ≤ 128
  table : (headerAt m data).phoff + sizeofProgram * (headerAt m data).phnum ≤ size

section Table

variable {m : Memory} {data size : ℕ}

theorem tableFits_of_valid (hsize : sizeofHeader ≤ size) (hlt : size < Word64.size)
    (h : (validElfHeader (headerAt m data) size).value = true) : TableFits m data size := by
  unfold validElfHeader at h
  rw [Logged.value_both, Bool.and_eq_true] at h
  obtain ⟨hfirst, hcount⟩ := h
  rw [Logged.value_pure] at hfirst
  simp only [Bool.and_eq_true, decide_eq_true_iff, bne_iff_ne] at hfirst
  obtain ⟨⟨⟨⟨-, hne⟩, hfew⟩, -⟩, hoff⟩ := hfirst
  have hroom : Word64.sub size (headerAt m data).phoff = size - (headerAt m data).phoff :=
    Word64.sub_eq hoff hlt
  simp only [Logged.value_bind, Logged.value_sub, Logged.value_div, Logged.value_pure, decide_eq_true_iff,
    hroom] at hcount
  have hmul := (Nat.le_div_iff_mul_le (by decide)).mp hcount
  refine ⟨hsize, by omega, hfew, ?_⟩
  rw [Nat.mul_comm]
  omega

theorem TableFits.programs_eq (h : TableFits m data size) (hbuf : data + size ≤ Word64.size) :
    Word64.add data (headerAt m data).phoff = data + (headerAt m data).phoff := by
  obtain ⟨hh, hn, -, ht⟩ := h
  unfold sizeofProgram at ht
  apply Word64.add_eq
  omega

theorem TableFits.skip_eq (h : TableFits m data size) {i : ℕ} (hi : i < (headerAt m data).phnum) :
    Word64.mul sizeofProgram i = sizeofProgram * i := by
  have hfew := h.few
  apply Word64.mul_eq
  unfold sizeofProgram Word64.size
  omega

theorem TableFits.address_eq (h : TableFits m data size) (hbuf : data + size ≤ Word64.size) {i : ℕ}
    (hi : i < (headerAt m data).phnum) :
    Word64.add (data + (headerAt m data).phoff) (sizeofProgram * i) =
      data + (headerAt m data).phoff + sizeofProgram * i := by
  have ht := h.table
  have hle : sizeofProgram * (i + 1) ≤ sizeofProgram * (headerAt m data).phnum := Nat.mul_le_mul_left _ hi
  rw [Nat.mul_add] at hle
  unfold sizeofProgram at *
  apply Word64.add_eq
  omega

theorem TableFits.programOf_eq (h : TableFits m data size) (hbuf : data + size ≤ Word64.size) {M : Memory}
    (hsame : ∀ a, data ≤ a → a < data + size → M a = m a) {i : ℕ} (hi : i < (headerAt m data).phnum) :
    programOf M (data + (headerAt m data).phoff) i = header m data i := by
  have ht := h.table
  have hle : sizeofProgram * (i + 1) ≤ sizeofProgram * (headerAt m data).phnum := Nat.mul_le_mul_left _ hi
  rw [Nat.mul_add] at hle
  unfold programOf readProgram
  rw [Logged.value_bind, Logged.value_bind, Logged.value_mul, Logged.value_add, h.skip_eq hi,
    h.address_eq hbuf hi]
  change programAt M _ = programAt m _
  have field : ∀ o n, o + n ≤ sizeofProgram →
      load M (data + (headerAt m data).phoff + sizeofProgram * i + o) n =
        load m (data + (headerAt m data).phoff + sizeofProgram * i + o) n :=
    fun o n hn => load_congr fun x hx hlt => hsame x (by omega) (by omega)
  have first := field 0 4 (by decide)
  rw [Nat.add_zero] at first
  unfold programAt
  rw [first, field 4 4 (by decide), field 8 8 (by decide), field 16 8 (by decide), field 24 8 (by decide),
    field 32 8 (by decide), field 40 8 (by decide), field 48 8 (by decide)]

theorem TableFits.listFrom_eq (h : TableFits m data size) (hbuf : data + size ≤ Word64.size) :
    listFrom m (data + (headerAt m data).phoff) 0 (headerAt m data).phnum = headers m data := by
  unfold listFrom headers
  rw [← List.range_eq_range']
  apply List.map_congr_left
  intro i hi
  exact h.programOf_eq hbuf (fun _ _ _ => rfl) (List.mem_range.mp hi)

theorem headerAt_congr {M : Memory} (hsize : sizeofHeader ≤ size)
    (hsame : ∀ a, data ≤ a → a < data + size → M a = m a) : headerAt M data = headerAt m data := by
  have field : ∀ o n, o + n ≤ sizeofHeader → load M (data + o) n = load m (data + o) n :=
    fun o n hn => load_congr fun x hx hlt => hsame x (by omega) (by omega)
  unfold headerAt
  rw [field 16 2 (by decide), field 18 2 (by decide), field 20 4 (by decide), field 24 8 (by decide),
    field 32 8 (by decide), field 52 2 (by decide), field 54 2 (by decide), field 56 2 (by decide)]
  congr 1
  funext i
  have hi := i.isLt
  unfold sizeofHeader at hsize
  exact hsame _ (by omega) (by omega)

end Table

/-- The file has passed every test, and `range` is its span. -/
structure Inspected (m : Memory) (data size : ℕ) (range : ImageRange) : Prop where
  room : sizeofHeader ≤ size
  valid : (validElfHeader (headerAt m data) size).value = true
  accepted : Accepted size (headers m data)
  span : spanOf (headerAt m data).entry (headers m data) = ⟨range.base, range.stop, true⟩
  nonempty : range.base < range.stop
  short : range.stop - range.base ≤ 64 * 1024 * 1024

section Verdict

variable {m : Memory} {data size : ℕ} {range : ImageRange}

theorem Inspected.tableFits (h : Inspected m data size range) (hlt : size < Word64.size) :
    TableFits m data size := tableFits_of_valid h.room hlt h.valid

theorem Inspected.proper (h : Inspected m data size range) (hlt : size < Word64.size) :
    Proper ⟨range.base, range.stop, true⟩ := by
  have hfits : ∀ p ∈ headers m data, p.type = 1 → Fits size p := fun p hp => (h.accepted.sound p hp).fits hlt
  rcases spanOf_proper (headerAt m data).entry hfits with he | he
  · rw [h.span] at he
    exact absurd (congrArg Span.entryValid he) (by simp [initial])
  · rw [h.span] at he
    exact he

theorem value_closeSpan (s : Span) (hhigh : s.high < Word64.size) :
    (∃ range : ImageRange, s = ⟨range.base, range.stop, true⟩ ∧ range.base < range.stop ∧
      range.stop - range.base ≤ 64 * 1024 * 1024 ∧ (closeSpan s).value = .ok range) ∨
    ((¬ ∃ range : ImageRange, s = ⟨range.base, range.stop, true⟩ ∧ range.base < range.stop ∧
      range.stop - range.base ≤ 64 * 1024 * 1024) ∧ (closeSpan s).value = .error efiLoadError) := by
  obtain ⟨low, high, valid⟩ := s
  unfold closeSpan
  by_cases hfirst : (!valid || decide (high ≤ low)) = true
  · rw [if_pos hfirst, Logged.value_pure]
    refine .inr ⟨?_, rfl⟩
    rintro ⟨range, he, hlt, -⟩
    injection he with h1 h2 h3
    subst h1 h2 h3
    simp only [Bool.not_true, Bool.false_or, decide_eq_true_iff] at hfirst
    omega
  · rw [if_neg hfirst]
    simp only [Bool.or_eq_true, Bool.not_eq_true', decide_eq_true_iff, not_or, Bool.not_eq_false] at hfirst
    obtain ⟨hvalid, hlow⟩ := hfirst
    have hsub : Word64.sub high low = high - low := Word64.sub_eq (by omega) hhigh
    rw [Logged.value_bind, Logged.value_sub, hsub]
    by_cases hlong : high - low > 64 * 1024 * 1024
    · rw [if_pos hlong, Logged.value_pure]
      refine .inr ⟨?_, rfl⟩
      rintro ⟨range, he, -, hshort⟩
      injection he with h1 h2 h3
      subst h1 h2 h3
      omega
    · rw [if_neg hlong, Logged.value_pure]
      exact .inl ⟨⟨low, high⟩, by rw [hvalid], by simp only; omega, by simp only; omega, rfl⟩

theorem spanOf_high_lt {entry : ℕ} {ps : List ElfProgram} (h : ∀ p ∈ ps, p.type = 1 → Fits size p) :
    (spanOf entry ps).high < Word64.size := by
  rcases spanOf_proper entry h with he | he
  · rw [he]
    decide
  · have hb := he.below
    unfold Word64.size
    omega

theorem value_inspectSegments (hbuf : data + size ≤ Word64.size) (hlt : size < Word64.size)
    (hroom : sizeofHeader ≤ size) (hvalid : (validElfHeader (headerAt m data) size).value = true) :
    (∃ range, Inspected m data size range ∧ (inspectSegments m data (headerAt m data) size).value = .ok range) ∨
    ((¬ ∃ range, Inspected m data size range) ∧ ∃ status, Rejection status ∧
      (inspectSegments m data (headerAt m data) size).value = .error status) := by
  have htable := tableFits_of_valid hroom hlt hvalid
  have hlist := htable.listFrom_eq hbuf
  have hverdict := passes_iff_accepted m (data + (headerAt m data).phoff) size (headerAt m data).phnum
  rw [hlist] at hverdict
  unfold inspectSegments
  rw [Logged.value_bind, Logged.value_bind, Logged.value_add, htable.programs_eq hbuf]
  rcases value_inspectFrom m (data + (headerAt m data).phoff) (headerAt m data).entry size 0
    (headerAt m data).phnum initial with ⟨hall, hok⟩ | ⟨hsome, status, hrej, herr⟩
  · have haccepted := hverdict.mp hall
    have hhigh : (spanOf (headerAt m data).entry (headers m data)).high < Word64.size :=
      spanOf_high_lt fun p hp => (haccepted.sound p hp).fits hlt
    rw [hlist] at hok
    rw [← initial, hok]
    rcases value_closeSpan _ hhigh with ⟨range, hspan, hne, hshort, hval⟩ | ⟨hno, hval⟩
    · exact .inl ⟨range, ⟨hroom, hvalid, haccepted, hspan, hne, hshort⟩, hval⟩
    · refine .inr ⟨?_, efiLoadError, .inr rfl, hval⟩
      rintro ⟨range, h⟩
      exact hno ⟨range, h.span, h.nonempty, h.short⟩
  · rw [← initial, herr]
    refine .inr ⟨?_, status, hrej, rfl⟩
    rintro ⟨range, h⟩
    exact hsome (hverdict.mpr h.accepted)

theorem placeKernel_cases (hbuf : data + size ≤ Word64.size) (hlt : size < Word64.size)
    (allocatePages : ℕ → ℕ → Allocation) (kernel : LoadedKernel) :
    (∃ range, Inspected m data size range ∧
      (placeKernel allocatePages m data size kernel).value =
        (allocateImage allocatePages m data kernel range).value) ∨
    ((¬ ∃ range, Inspected m data size range) ∧ ∃ status, Rejection status ∧
      (placeKernel allocatePages m data size kernel).value = ⟨status, m, kernel, none⟩) := by
  unfold placeKernel
  by_cases hroom : size < sizeofHeader
  · rw [if_pos hroom, Logged.value_pure]
    refine .inr ⟨?_, efiLoadError, .inr rfl, rfl⟩
    rintro ⟨range, h⟩
    exact absurd h.room (by omega)
  · have hhead : (readHeader m data).value = headerAt m data := by rw [readHeader]
    rw [if_neg hroom, Logged.value_bind, Logged.value_bind, hhead]
    by_cases hvalid : (validElfHeader (headerAt m data) size).value = true
    · rw [if_neg (by rw [hvalid]; decide), Logged.value_bind]
      rcases value_inspectSegments hbuf hlt (not_lt.mp hroom) hvalid with
        ⟨range, h, hval⟩ | ⟨hno, status, hrej, hval⟩
      · rw [hval]
        exact .inl ⟨range, h, rfl⟩
      · rw [hval]
        exact .inr ⟨hno, status, hrej, rfl⟩
    · rw [if_pos (by rw [Bool.eq_false_iff.mpr hvalid]; rfl), Logged.value_pure]
      refine .inr ⟨?_, efiLoadError, .inr rfl, rfl⟩
      rintro ⟨range, h⟩
      exact hvalid h.valid

end Verdict

section Copy

variable {m : Memory} {data size : ℕ} {range : ImageRange}

def Backed (p : ElfProgram) (a : ℕ) : Prop := p.type = 1 ∧ p.vaddr ≤ a ∧ a < p.vaddr + p.filesz

def Outside (data size : ℕ) (range : ImageRange) : Prop := range.stop ≤ data ∨ data + size ≤ range.base

theorem Inspected.fits (h : Inspected m data size range) (hlt : size < Word64.size) {p : ElfProgram}
    (hp : p ∈ headers m data) (htype : p.type = 1) : Fits size p := (h.accepted.sound p hp).fits hlt htype

theorem Inspected.inside (h : Inspected m data size range) (hlt : size < Word64.size) {p : ElfProgram}
    (hp : p ∈ headers m data) (htype : p.type = 1) (hmem : p.memsz ≠ 0) :
    range.base ≤ p.vaddr ∧ p.vaddr + p.memsz ≤ range.stop := by
  have hfit := h.fits hlt hp htype
  have hspan := spanOf_contains (headerAt m data).entry hp ⟨htype, hmem⟩
  rw [h.span, hfit.startOf_eq, hfit.stopOf_eq] at hspan
  have hlow : range.base ≤ p.vaddr / 4096 * 4096 := hspan.1
  have hhigh : (p.vaddr + p.memsz + 4095) / 4096 * 4096 ≤ range.stop := hspan.2
  omega

theorem Inspected.backed_inside (h : Inspected m data size range) (hlt : size < Word64.size) {p : ElfProgram}
    {a : ℕ} (hp : p ∈ headers m data) (ha : Backed p a) : range.base ≤ a ∧ a < range.stop := by
  obtain ⟨htype, hlow, hhigh⟩ := ha
  have hle := (h.fits hlt hp htype).filesz_le
  have hin := h.inside hlt hp htype (by omega)
  omega

theorem Inspected.backed_unique (h : Inspected m data size range) (hlt : size < Word64.size) {i j a : ℕ}
    (hi : i < (headerAt m data).phnum) (hj : j < (headerAt m data).phnum)
    (hai : Backed (header m data i) a) (haj : Backed (header m data j) a) : i = j := by
  have hmem : ∀ k, k < (headerAt m data).phnum → header m data k ∈ headers m data :=
    fun k hk => mem_headers.mpr ⟨k, hk, rfl⟩
  have key : ∀ i j, i < j → j < (headerAt m data).phnum → Backed (header m data i) a →
      Backed (header m data j) a → False := by
    intro i j hij hj hai haj
    have hfi := h.fits hlt (hmem i (by omega)) hai.1
    have hfj := h.fits hlt (hmem j hj) haj.1
    have hpair := List.pairwise_iff_getElem.mp h.accepted.apart i j (by simp [headers]; omega)
      (by simp [headers]; omega) hij
    simp only [headers, List.getElem_map, List.getElem_range] at hpair
    have hli := hfi.filesz_le
    have hlj := hfj.filesz_le
    obtain ⟨hti, hai⟩ := hai
    obtain ⟨htj, haj⟩ := haj
    exact hpair.disjoint hfi hfj hti htj (a := a) (by omega) (by omega)
  rcases Nat.lt_trichotomy i j with hlt' | heq | hgt
  · exact absurd haj (key i j hlt' hj hai)
  · exact heq
  · exact absurd hai (key j i hgt hi haj)

theorem value_clear (h : Inspected m data size range) (hlt : size < Word64.size) (a : ℕ) :
    (Logged.foldBelow (range.stop - range.base) (clearByte range.base) m).value a =
      if range.base ≤ a ∧ a < range.stop then 0 else m a := by
  have hne := h.nonempty
  have hbelow : range.stop ≤ 0x100000000 := (h.proper hlt).below
  have hinv := Logged.value_foldBelow_invariant (range.stop - range.base) (clearByte range.base) m
    (motive := fun i M => M a = if range.base ≤ a ∧ a < range.base + i then 0 else m a) ?_ ?_
  · rw [hinv]
    have e : range.base + (range.stop - range.base) = range.stop := by omega
    rw [e]
  · rw [if_neg (by omega)]
  · intro i M hi hM
    have hadd : Word64.add range.base i = range.base + i := by
      apply Word64.add_eq
      unfold Word64.size
      omega
    unfold clearByte
    rw [Logged.value_bind, Logged.value_add, hadd]
    change Function.update M (range.base + i) 0 a = _
    by_cases ha : a = range.base + i
    · rw [ha, Function.update_self, if_pos (by omega)]
    · rw [Function.update_of_ne ha, hM]
      by_cases hin : range.base ≤ a ∧ a < range.base + i
      · rw [if_pos hin, if_pos (by omega)]
      · rw [if_neg hin, if_neg (by omega)]

theorem value_copySegment (h : Inspected m data size range) (hbuf : data + size ≤ Word64.size)
    (hlt : size < Word64.size) (hout : Outside data size range) {M : Memory}
    (hsame : ∀ a, ¬ (range.base ≤ a ∧ a < range.stop) → M a = m a) {i : ℕ}
    (hi : i < (headerAt m data).phnum) (a : ℕ) :
    (Backed (header m data i) a →
      (copySegment data (data + (headerAt m data).phoff) M i).value a =
        m (data + (header m data i).offset + (a - (header m data i).vaddr))) ∧
    (¬ Backed (header m data i) a →
      (copySegment data (data + (headerAt m data).phoff) M i).value a = M a) := by
  have hmem : header m data i ∈ headers m data := mem_headers.mpr ⟨i, hi, rfl⟩
  have hfile : ∀ x, data ≤ x → x < data + size → M x = m x := by
    intro x hx hlt'
    apply hsame
    rcases hout with ho | ho
    · omega
    · omega
  have hprog := (h.tableFits hlt).programOf_eq hbuf hfile hi
  unfold copySegment
  rw [Logged.value_bind, ← programOf, hprog]
  by_cases htype : (header m data i).type = 1
  · have hfit := h.fits hlt hmem htype
    have hin := hfit.in_file
    have hbelow := hfit.below
    have hle := hfit.filesz_le
    rw [if_neg (by rw [htype]; decide)]
    have hinv := Logged.value_foldBelow_invariant (header m data i).filesz (copyByte data (header m data i)) M
      (motive := fun j N => (∀ x, ¬ ((header m data i).vaddr ≤ x ∧ x < (header m data i).vaddr + j) → N x = M x) ∧
        ∀ k, k < j → N ((header m data i).vaddr + k) = m (data + (header m data i).offset + k)) ?_ ?_
    · refine ⟨fun hb => ?_, fun hb => hinv.1 a fun hr => hb ⟨htype, hr⟩⟩
      obtain ⟨-, hlow, hhigh⟩ := hb
      have hcopy := hinv.2 (a - (header m data i).vaddr) (by omega)
      rwa [Nat.add_sub_cancel' hlow] at hcopy
    · exact ⟨fun x _ => rfl, fun k hk => by omega⟩
    · intro j N hj hN
      have hoffset : Word64.add (header m data i).offset j = (header m data i).offset + j :=
        Word64.add_eq (by omega)
      have hsource : Word64.add data ((header m data i).offset + j) = data + ((header m data i).offset + j) :=
        Word64.add_eq (by omega)
      have haddress : Word64.add (header m data i).vaddr j = (header m data i).vaddr + j := by
        apply Word64.add_eq
        unfold Word64.size
        omega
      have hrange := h.inside hlt hmem htype (by omega)
      -- The byte read is still the one of the file: the copy so far went into the range.
      have hread : N (data + ((header m data i).offset + j)) = m (data + (header m data i).offset + j) := by
        rw [hN.1 _ (by rcases hout with ho | ho <;> omega), ← Nat.add_assoc]
        exact hfile _ (by omega) (by omega)
      have hvalue : (copyByte data (header m data i) N j).value =
          Function.update N ((header m data i).vaddr + j) (m (data + (header m data i).offset + j)) := by
        unfold copyByte
        simp only [Logged.value_bind, Logged.value_add, hoffset, hsource, haddress]
        rw [readByte, hread, writeByte]
      rw [hvalue]
      refine ⟨fun x hx => ?_, fun k hk => ?_⟩
      · rw [Function.update_of_ne (by omega)]
        exact hN.1 x (by omega)
      · by_cases he : k = j
        · rw [he, Function.update_self]
        · rw [Function.update_of_ne (by omega)]
          exact hN.2 k (by omega)
  · rw [if_pos (bne_iff_ne.mpr htype), Logged.value_pure]
    exact ⟨fun hb => absurd hb.1 htype, fun _ => rfl⟩

structure Image (m : Memory) (data : ℕ) (range : ImageRange) (M : Memory) : Prop where
  outside : ∀ a, ¬ (range.base ≤ a ∧ a < range.stop) → M a = m a
  backed : ∀ p ∈ headers m data, ∀ a, Backed p a → M a = m (data + p.offset + (a - p.vaddr))
  blank : ∀ a, range.base ≤ a → a < range.stop → (∀ p ∈ headers m data, ¬ Backed p a) → M a = 0

theorem value_copySegments (h : Inspected m data size range) (hbuf : data + size ≤ Word64.size)
    (hlt : size < Word64.size) (hout : Outside data size range) :
    Image m data range (copySegments m data range).value := by
  have htable := h.tableFits hlt
  have hne := h.nonempty
  have hstop : range.stop < Word64.size := by
    have hbelow : range.stop ≤ 0x100000000 := (h.proper hlt).below
    unfold Word64.size
    omega
  have hsub : Word64.sub range.stop range.base = range.stop - range.base := Word64.sub_eq (by omega) hstop
  have hhead : (readHeader m data).value = headerAt m data := by rw [readHeader]
  unfold copySegments
  rw [Logged.value_bind, Logged.value_bind, Logged.value_bind, Logged.value_bind, hhead, Logged.value_add,
    htable.programs_eq hbuf, Logged.value_sub, hsub]
  have hinv := Logged.value_foldBelow_invariant (headerAt m data).phnum
    (copySegment data (data + (headerAt m data).phoff))
    (Logged.foldBelow (range.stop - range.base) (clearByte range.base) m).value
    (motive := fun i M => (∀ a, ¬ (range.base ≤ a ∧ a < range.stop) → M a = m a) ∧
      (∀ j, j < i → ∀ a, Backed (header m data j) a →
        M a = m (data + (header m data j).offset + (a - (header m data j).vaddr))) ∧
      ∀ a, range.base ≤ a → a < range.stop → (∀ j, j < i → ¬ Backed (header m data j) a) → M a = 0) ?_ ?_
  · refine ⟨hinv.1, fun p hp a ha => ?_, fun a hlow hhigh hno => ?_⟩
    · obtain ⟨i, hi, rfl⟩ := mem_headers.mp hp
      exact hinv.2.1 i hi a ha
    · exact hinv.2.2 a hlow hhigh fun j hj => hno _ (mem_headers.mpr ⟨j, hj, rfl⟩)
  · refine ⟨fun a ha => ?_, fun j hj => by omega, fun a hlow hhigh _ => ?_⟩
    · rw [value_clear h hlt, if_neg ha]
    · rw [value_clear h hlt, if_pos ⟨hlow, hhigh⟩]
  · rintro i M hi ⟨hsame, hback, hblank⟩
    have hstep := value_copySegment h hbuf hlt hout hsame hi
    have hin : ∀ a, Backed (header m data i) a → range.base ≤ a ∧ a < range.stop :=
      fun a => h.backed_inside hlt (mem_headers.mpr ⟨i, hi, rfl⟩)
    refine ⟨fun a ha => ?_, fun j hj a ha => ?_, fun a hlow hhigh hno => ?_⟩
    · rw [(hstep a).2 fun hb => ha (hin a hb)]
      exact hsame a ha
    · by_cases he : j = i
      · rw [he] at ha ⊢
        exact (hstep a).1 ha
      · rw [(hstep a).2 fun hb => he (h.backed_unique hlt (by omega) hi ha hb)]
        exact hback j (by omega) a ha
    · rw [(hstep a).2 (hno i (by omega))]
      exact hblank a hlow hhigh fun j hj => hno j (by omega)

end Copy

/-- What the firmware promises of `AllocatePages(AllocateAddress, ...)`: on success exactly the
    pages asked for, which were free and so are not those of the file buffer. -/
structure Grants (allocatePages : ℕ → ℕ → Allocation) (data size : ℕ) : Prop where
  exact : ∀ pages address, efiError (allocatePages pages address).status = false →
    (allocatePages pages address).address = address
  fresh : ∀ pages address, efiError (allocatePages pages address).status = false →
    address + pages * 4096 ≤ data ∨ data + size ≤ address

def placed (allocatePages : ℕ → ℕ → Allocation) (m : Memory) (data size : ℕ) (kernel : LoadedKernel) : Placement :=
  (placeKernel allocatePages m data size kernel).value

section Result

variable {allocatePages : ℕ → ℕ → Allocation} {m : Memory} {data size : ℕ} {range : ImageRange}

theorem rejection_error {status : ℕ} (h : Rejection status) : efiError status = true := by
  rcases h with rfl | rfl
  · decide +kernel
  · decide +kernel

theorem Inspected.pages_eq (h : Inspected m data size range) (hlt : size < Word64.size) :
    range.base + (range.stop - range.base) / 4096 * 4096 = range.stop := by
  have hproper := h.proper hlt
  have hlow : range.base % 4096 = 0 := hproper.low_aligned
  have hhigh : range.stop % 4096 = 0 := hproper.high_aligned
  have hne := h.nonempty
  omega

theorem Inspected.length_eq (h : Inspected m data size range) (hlt : size < Word64.size) :
    Word64.sub range.stop range.base = range.stop - range.base := by
  have hbelow : range.stop ≤ 0x100000000 := (h.proper hlt).below
  have hne := h.nonempty
  apply Word64.sub_eq (by omega)
  unfold Word64.size
  omega

theorem value_allocateImage (h : Inspected m data size range) (hbuf : data + size ≤ Word64.size)
    (hlt : size < Word64.size) (hgrant : Grants allocatePages data size) (kernel : LoadedKernel) :
    (efiError (allocatePages ((range.stop - range.base) / 4096) range.base).status = true ∧
      (allocateImage allocatePages m data kernel range).value =
        ⟨(allocatePages ((range.stop - range.base) / 4096) range.base).status, m, kernel, some range⟩) ∨
    (efiError (allocatePages ((range.stop - range.base) / 4096) range.base).status = false ∧
      ∃ M, Image m data range M ∧ (allocateImage allocatePages m data kernel range).value =
        ⟨efiSuccess, M, ⟨range.base, (range.stop - range.base) / 4096, (headerAt m data).entry⟩, some range⟩) := by
  unfold allocateImage
  rw [Logged.value_bind, Logged.value_sub, h.length_eq hlt]
  cases herr : efiError (allocatePages ((range.stop - range.base) / 4096) range.base).status with
  | true =>
    rw [if_pos herr, Logged.value_pure]
    exact .inl ⟨rfl, rfl⟩
  | false =>
    have hout : Outside data size range := by
      have hfresh := hgrant.fresh _ _ herr
      rw [h.pages_eq hlt] at hfresh
      exact hfresh
    have himage := value_copySegments h hbuf hlt hout
    have hhead : (readHeader (copySegments m data range).value data).value = headerAt m data := by
      rw [readHeader]
      apply headerAt_congr h.room
      intro a hlow hhigh
      apply himage.outside
      rcases hout with ho | ho
      · omega
      · omega
    rw [if_neg (by rw [herr]; decide), Logged.value_bind, Logged.value_bind, Logged.value_pure, hhead,
      hgrant.exact _ _ herr]
    exact .inr ⟨rfl, _, himage, rfl⟩

theorem Inspected.unique {range' : ImageRange} (h : Inspected m data size range)
    (h' : Inspected m data size range') : range = range' := by
  obtain ⟨base, stop⟩ := range
  obtain ⟨base', stop'⟩ := range'
  have hspan := h.span.symm.trans h'.span
  injection hspan with hbase hstop
  exact congrArg₂ ImageRange.mk hbase hstop

theorem placed_of_granted (h : Inspected m data size range) (hbuf : data + size ≤ Word64.size)
    (hlt : size < Word64.size) (hgrant : Grants allocatePages data size) (kernel : LoadedKernel)
    (hgranted : efiError (allocatePages ((range.stop - range.base) / 4096) range.base).status = false) :
    ∃ M, Image m data range M ∧ placed allocatePages m data size kernel =
      ⟨efiSuccess, M, ⟨range.base, (range.stop - range.base) / 4096, (headerAt m data).entry⟩, some range⟩ := by
  unfold placed
  rcases placeKernel_cases hbuf hlt allocatePages kernel with ⟨range', h', hval⟩ | ⟨hno, -⟩
  · obtain rfl := h'.unique h
    rw [hval]
    rcases value_allocateImage h hbuf hlt hgrant kernel with ⟨herr, -⟩ | ⟨-, himage⟩
    · exact absurd (herr.symm.trans hgranted) (by decide)
    · exact himage
  · exact absurd ⟨range, h⟩ hno

theorem granted_of_placed (hbuf : data + size ≤ Word64.size) (hlt : size < Word64.size)
    (hgrant : Grants allocatePages data size) {kernel : LoadedKernel}
    (hok : efiError (placed allocatePages m data size kernel).status = false) :
    ∃ range, Inspected m data size range ∧
      efiError (allocatePages ((range.stop - range.base) / 4096) range.base).status = false := by
  unfold placed at hok
  rcases placeKernel_cases hbuf hlt allocatePages kernel with ⟨range, h, hval⟩ | ⟨-, status, hrej, hval⟩
  · rw [hval] at hok
    rcases value_allocateImage h hbuf hlt hgrant kernel with ⟨herr, himage⟩ | ⟨herr, -⟩
    · rw [himage] at hok
      exact absurd (herr.symm.trans hok) (by decide)
    · exact ⟨range, h, herr⟩
  · rw [hval] at hok
    exact absurd ((rejection_error hrej).symm.trans hok) (by decide)

theorem Inspected.entry_backed (h : Inspected m data size range) :
    ∃ p ∈ headers m data, Backed p (headerAt m data).entry ∧ p.flags &&& 1 ≠ 0 := by
  have hvalid : (spanOf (headerAt m data).entry (headers m data)).entryValid = true := by rw [h.span]
  obtain ⟨p, hp, hl, hentry⟩ := spanOf_entry hvalid
  unfold holdsEntry at hentry
  rw [Logged.value_both, Bool.and_eq_true, Logged.value_pure, Bool.and_eq_true, bne_iff_ne,
    decide_eq_true_iff] at hentry
  obtain ⟨⟨hflag, hge⟩, hdist⟩ := hentry
  have hsmall : (headerAt m data).entry < Word64.size := load_lt m (data + 24) 8
  have hsub : Word64.sub (headerAt m data).entry p.vaddr = (headerAt m data).entry - p.vaddr :=
    Word64.sub_eq hge hsmall
  rw [Logged.value_bind, Logged.value_sub, hsub, Logged.value_pure, decide_eq_true_iff] at hdist
  exact ⟨p, hp, ⟨hl.1, hge, by omega⟩, hflag⟩

theorem Inspected.reorder (h : Inspected m data size range) {m' : Memory} {data' : ℕ}
    (hhead : headerAt m' data' = headerAt m data) (hperm : (headers m' data').Perm (headers m data)) :
    Inspected m' data' size range where
  room := h.room
  valid := by rw [hhead]; exact h.valid
  accepted := h.accepted.perm hperm.symm
  span := by rw [hhead, spanOf_perm hperm]; exact h.span
  nonempty := h.nonempty
  short := h.short

/-- On success the image holds the file's bytes where exactly one header says so and zero elsewhere,
    it contains every segment and an executable byte at the entry point, and another order of the
    headers gives the same image. -/
theorem kernel_image_correct (hbuf : data + size ≤ Word64.size) (hlt : size < Word64.size)
    (hgrant : Grants allocatePages data size) {kernel : LoadedKernel}
    (hok : efiError (placed allocatePages m data size kernel).status = false) :
    (∀ a, (placed allocatePages m data size kernel).kernel.base ≤ a →
      a < (placed allocatePages m data size kernel).kernel.base +
        (placed allocatePages m data size kernel).kernel.pages * 4096 →
      (∀ p ∈ headers m data, Backed p a → p.offset + (a - p.vaddr) < size ∧
        (placed allocatePages m data size kernel).memory a = m (data + p.offset + (a - p.vaddr))) ∧
      ((∀ p ∈ headers m data, ¬ Backed p a) →
        (placed allocatePages m data size kernel).memory a = 0)) ∧
    (∀ i j a, i < (headerAt m data).phnum → j < (headerAt m data).phnum → Backed (header m data i) a →
      Backed (header m data j) a → i = j) ∧
    (∀ p ∈ headers m data, p.type = 1 → ∀ a, p.vaddr ≤ a → a < p.vaddr + p.memsz →
      (placed allocatePages m data size kernel).kernel.base ≤ a ∧
      a < (placed allocatePages m data size kernel).kernel.base +
        (placed allocatePages m data size kernel).kernel.pages * 4096) ∧
    ((placed allocatePages m data size kernel).kernel.entry = (headerAt m data).entry ∧
      ∃ p ∈ headers m data, Backed p (headerAt m data).entry ∧ p.flags &&& 1 ≠ 0) ∧
    ∀ m' data' kernel', data' + size ≤ Word64.size → Grants allocatePages data' size →
      headerAt m' data' = headerAt m data → (headers m' data').Perm (headers m data) →
      (∀ p ∈ headers m data, p.type = 1 → ∀ k, k < p.filesz →
        m' (data' + p.offset + k) = m (data + p.offset + k)) →
      (placed allocatePages m' data' size kernel').status = (placed allocatePages m data size kernel).status ∧
      (placed allocatePages m' data' size kernel').kernel = (placed allocatePages m data size kernel).kernel ∧
      ∀ a, (placed allocatePages m data size kernel).kernel.base ≤ a →
        a < (placed allocatePages m data size kernel).kernel.base +
          (placed allocatePages m data size kernel).kernel.pages * 4096 →
        (placed allocatePages m' data' size kernel').memory a =
          (placed allocatePages m data size kernel).memory a := by
  obtain ⟨range, h, hgranted⟩ := granted_of_placed hbuf hlt hgrant hok
  obtain ⟨M, himage, hval⟩ := placed_of_granted h hbuf hlt hgrant kernel hgranted
  rw [hval, h.pages_eq hlt]
  refine ⟨fun a hlow hhigh => ⟨fun p hp ha => ?_, himage.blank a hlow hhigh⟩,
    fun i j a hi hj => h.backed_unique hlt hi hj, fun p hp htype a hlow hhigh => ?_,
    ⟨rfl, h.entry_backed⟩, ?_⟩
  · have hin := (h.fits hlt hp ha.1).in_file
    obtain ⟨htype, hlow', hhigh'⟩ := ha
    exact ⟨by omega, himage.backed p hp a ⟨htype, hlow', hhigh'⟩⟩
  · have hin := h.inside hlt hp htype (by omega)
    change range.base ≤ a ∧ a < range.stop
    omega
  · intro m' data' kernel' hbuf' hgrant' hhead hperm hbytes
    obtain ⟨M', himage', hval'⟩ :=
      placed_of_granted (h.reorder hhead hperm) hbuf' hlt hgrant' kernel' hgranted
    rw [hval', hhead]
    refine ⟨rfl, rfl, fun a hlow hhigh => ?_⟩
    change M' a = M a
    by_cases hsome : ∃ p ∈ headers m data, Backed p a
    · obtain ⟨p, hp, ha⟩ := hsome
      rw [himage.backed p hp a ha, himage'.backed p (hperm.mem_iff.mpr hp) a ha]
      obtain ⟨htype, hlow', hhigh'⟩ := ha
      exact hbytes p hp htype (a - p.vaddr) (by omega)
    · have hno : ∀ p ∈ headers m data, ¬ Backed p a := fun p hp ha => hsome ⟨p, hp, ha⟩
      rw [himage.blank a hlow hhigh hno,
        himage'.blank a hlow hhigh fun p hp => hno p (hperm.mem_iff.mp hp)]

end Result

def programWords (p : ElfProgram) : List ℕ :=
  [p.type + p.flags * 2 ^ 32, p.offset, p.vaddr, p.paddr, p.filesz, p.memsz, p.align]

/-- An image of five bytes behind its headers, with the entry point at 1 MiB. -/
def imageMemory (segments : List ElfProgram) : Memory :=
  layWords 0x200000 ([0x00010102464c457f, 0, 0x00000001003e0002, 0x100000, 64, 0, 0x0038004000000000, segments.length] ++
    segments.flatMap programWords ++ [0x090807ccf4])

/-- Two bytes of code, and two zeros. -/
def textSegment : ElfProgram := ⟨1, 5, 176, 0x100000, 0x100000, 2, 4, 1⟩

/-- Three bytes of data, and zeros to the end of nine pages. -/
def dataSegment : ElfProgram := ⟨1, 6, 178, 0x101000, 0x101000, 3, 0x9000, 1⟩

def sampleImage : Memory := imageMemory [textSegment, dataSegment]

def swappedImage : Memory := imageMemory [dataSegment, textSegment]

def sampleFirmware (pages address : ℕ) : Allocation :=
  if pages = 10 ∧ address = 0x100000 then ⟨efiSuccess, address⟩ else ⟨efiInvalidParameter, address⟩

theorem sampleFirmware_grants : Grants sampleFirmware 0x200000 181 := by
  have hreply : ∀ pages address, efiError (sampleFirmware pages address).status = false →
      pages = 10 ∧ address = 0x100000 := by
    intro pages address h
    unfold sampleFirmware at h
    split at h
    · assumption
    · have herror : efiError efiInvalidParameter = true := by decide +kernel
      exact absurd (herror.symm.trans h) (by decide)
  refine ⟨fun pages address _ => ?_, fun pages address h => ?_⟩
  · unfold sampleFirmware
    split
    · rfl
    · rfl
  · obtain ⟨rfl, rfl⟩ := hreply pages address h
    omega

theorem sample_span : (inspectSegments sampleImage 0x200000 (headerAt sampleImage 0x200000) 181).value =
    .ok ⟨0x100000, 0x10a000⟩ := by
  decide +kernel

theorem sample_valid : (validElfHeader (headerAt sampleImage 0x200000) 181).value = true := by decide +kernel

theorem sample_entry : (headerAt sampleImage 0x200000).entry = 0x100000 := by decide +kernel

theorem sample_headers : headers sampleImage 0x200000 = [textSegment, dataSegment] := by decide +kernel

theorem swapped_headers : headers swappedImage 0x200000 = [dataSegment, textSegment] := by decide +kernel

theorem sample_same {p : ElfProgram} (hp : p ∈ [textSegment, dataSegment]) {k : ℕ} (hk : k < p.filesz) :
    swappedImage (0x200000 + p.offset + k) = sampleImage (0x200000 + p.offset + k) := by
  have htext : ∀ k < 2, swappedImage (0x200000 + 176 + k) = sampleImage (0x200000 + 176 + k) := by decide +kernel
  have hdata : ∀ k < 3, swappedImage (0x200000 + 178 + k) = sampleImage (0x200000 + 178 + k) := by decide +kernel
  simp only [List.mem_cons, List.not_mem_nil, or_false] at hp
  rcases hp with rfl | rfl
  · exact htext k hk
  · exact hdata k hk

theorem sample_start : headerAt swappedImage 0x200000 = headerAt sampleImage 0x200000 := by
  have hbytes : ∀ k < 64, swappedImage (0x200000 + k) = sampleImage (0x200000 + k) := by decide +kernel
  refine headerAt_congr (le_refl sizeofHeader) fun a hlo hhi => ?_
  obtain ⟨k, rfl⟩ := Nat.exists_eq_add_of_le hlo
  exact hbytes k (by unfold sizeofHeader at hhi; omega)

/-- A byte of the data and a zero past the code, with the headers in either order. -/
theorem sample_image : (placed sampleFirmware sampleImage 0x200000 181 ⟨0, 0, 0⟩).memory 0x101001 = 8 ∧
    (placed sampleFirmware sampleImage 0x200000 181 ⟨0, 0, 0⟩).memory 0x100002 = 0 ∧
    (placed sampleFirmware swappedImage 0x200000 181 ⟨0, 0, 0⟩).memory 0x101001 = 8 ∧
    (placed sampleFirmware swappedImage 0x200000 181 ⟨0, 0, 0⟩).memory 0x100002 = 0 := by
  have hbase : (placed sampleFirmware sampleImage 0x200000 181 ⟨0, 0, 0⟩).kernel.base = 0x100000 := by decide +kernel
  have hpages : (placed sampleFirmware sampleImage 0x200000 181 ⟨0, 0, 0⟩).kernel.pages = 10 := by decide +kernel
  have hok : efiError (placed sampleFirmware sampleImage 0x200000 181 ⟨0, 0, 0⟩).status = false := by decide +kernel
  have hcorrect := kernel_image_correct (by decide) (by decide) sampleFirmware_grants hok
  obtain ⟨hbytes, -, -, -, horder⟩ := hcorrect
  rw [hbase, hpages, sample_headers] at hbytes horder
  obtain ⟨-, -, hsame⟩ := horder swappedImage 0x200000 ⟨0, 0, 0⟩ (by decide) sampleFirmware_grants sample_start
    (by rw [swapped_headers]; exact List.Perm.swap _ _ _) fun p hp _ k hk => sample_same hp hk
  have hdata := ((hbytes 0x101001 (by decide) (by decide)).1 dataSegment (by simp) ⟨rfl, by decide, by decide⟩).2
  have hzero := (hbytes 0x100002 (by decide) (by decide)).2 fun p hp hback => by
    obtain ⟨-, hlo, hhi⟩ := hback
    simp only [List.mem_cons, List.not_mem_nil, or_false] at hp
    rcases hp with rfl | rfl
    · exact absurd hhi (by decide)
    · exact absurd hlo (by decide)
  have hbyte : sampleImage (0x200000 + dataSegment.offset + (0x101001 - dataSegment.vaddr)) = 8 := by decide +kernel
  rw [hbyte] at hdata
  exact ⟨hdata, hzero, (hsame _ (by decide) (by decide)).trans hdata, (hsame _ (by decide) (by decide)).trans hzero⟩

end OsByAi.ElfPlacement
