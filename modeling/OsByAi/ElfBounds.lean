import OsByAi.ElfPlacement

set_option autoImplicit false

namespace OsByAi.ElfBounds
open ByteMemory ElfModel ElfSegments ElfPlacement

def Allowed (data size : ℕ) (granted : ImageRange → Prop) : Logged.Event → Prop
  | .fault => False
  | .read a n => data ≤ a ∧ a + n ≤ data + size
  | .write a _ => ∃ range, granted range ∧ range.base ≤ a ∧ a < range.stop

section Inspection

variable {m M : Memory} {data size : ℕ} {granted : ImageRange → Prop}

theorem only_readHeader (hroom : sizeofHeader ≤ size) :
    Logged.Only (Allowed data size granted) (readHeader M data) := by
  intro e he
  rw [List.mem_singleton.mp he]
  exact ⟨le_refl data, by omega⟩

theorem only_readProgram (h : TableFits m data size) (hbuf : data + size ≤ Word64.size) {i : ℕ}
    (hi : i < (headerAt m data).phnum) :
    Logged.Only (Allowed data size granted) (readProgram M (data + (headerAt m data).phoff) i) := by
  have hfew := h.few
  have htable := h.table
  unfold readProgram
  refine Logged.only_bind (Logged.only_mul ?_) ?_
  · unfold sizeofProgram Word64.size
    omega
  · rw [Logged.value_mul, h.skip_eq hi]
    unfold sizeofProgram at *
    refine Logged.only_bind (Logged.only_add (by omega)) ?_
    intro e he
    have haddress := h.address_eq hbuf hi
    unfold sizeofProgram at haddress
    rw [Logged.value_add, haddress] at he
    rw [List.mem_singleton.mp he]
    exact ⟨by omega, by omega⟩

theorem only_validElfHeader (h : ElfHeader) :
    Logged.Only (Allowed data size granted) (validElfHeader h size) := by
  unfold validElfHeader
  refine Logged.only_both (Logged.only_pure _) fun hfirst => ?_
  rw [Logged.value_pure, Bool.and_eq_true, decide_eq_true_iff] at hfirst
  refine Logged.only_bind (Logged.only_sub hfirst.2) (Logged.only_bind (Logged.only_div (by decide)) ?_)
  exact Logged.only_pure _

theorem only_validAlign (p : ElfProgram) : Logged.Only (Allowed data size granted) (validAlign p) := by
  unfold validAlign
  split
  · exact Logged.only_pure _
  · rename_i halign
    refine Logged.only_bind (Logged.only_sub (by omega)) ?_
    split
    · exact Logged.only_pure _
    · refine Logged.only_bind (Logged.only_mod (by omega)) (Logged.only_bind (Logged.only_mod (by omega)) ?_)
      exact Logged.only_pure _

theorem only_validSegment (p : ElfProgram) (fileSize : ℕ) :
    Logged.Only (Allowed data size granted) (validSegment p fileSize) := by
  unfold validSegment
  split
  · exact Logged.only_pure _
  · rename_i hfirst
    rw [Bool.or_eq_true, decide_eq_true_iff, decide_eq_true_iff] at hfirst
    refine Logged.only_bind (Logged.only_sub (by omega)) ?_
    split
    · exact Logged.only_pure _
    · split
      · exact Logged.only_pure _
      · split
        · exact Logged.only_pure _
        · rename_i haddr
          rw [Bool.or_eq_true, decide_eq_true_iff, decide_eq_true_iff] at haddr
          refine Logged.only_bind (Logged.only_sub (by omega)) ?_
          split
          · exact Logged.only_pure _
          · exact only_validAlign p

/-- The end of an earlier header is computed only when it has been validated. -/
theorem only_apart (h : TableFits m data size) (hbuf : data + size ≤ Word64.size) {current : ElfProgram}
    (hcur : Fits size current) {i : ℕ} (hi : i < (headerAt m data).phnum)
    (hother : (header m data i).type = 1 → Fits size (header m data i)) :
    Logged.Only (Allowed data size granted) (apart m (data + (headerAt m data).phoff) current i) := by
  unfold apart
  refine Logged.only_bind (only_readProgram h hbuf hi) ?_
  rw [← programOf, h.programOf_eq hbuf (fun _ _ _ => rfl) hi]
  split
  · exact Logged.only_pure _
  · rename_i hload
    rw [Bool.or_eq_true, bne_iff_ne, beq_iff_eq, not_or, not_not] at hload
    refine Logged.only_bind (Logged.only_add (hother hload.1).sum_lt) ?_
    split
    · exact Logged.only_pure _
    · exact Logged.only_bind (Logged.only_add hcur.sum_lt) (Logged.only_pure _)

theorem only_widen (entry : ℕ) (s : Span) {p : ElfProgram} (hp : Fits size p) :
    Logged.Only (Allowed data size granted) (widen entry s p) := by
  have hb := hp.below
  unfold widen
  refine Logged.only_bind ?_ (Logged.only_bind (Logged.only_add hp.sum_lt) (Logged.only_bind ?_ (Logged.only_pure _)))
  · unfold holdsEntry
    refine Logged.only_both (Logged.only_pure _) fun hfirst => ?_
    rw [Logged.value_pure, Bool.and_eq_true, decide_eq_true_iff] at hfirst
    exact Logged.only_bind (Logged.only_sub hfirst.2) (Logged.only_pure _)
  · rw [Logged.value_add, hp.sum_eq]
    apply Logged.only_add
    unfold Word64.size
    omega

theorem only_inspectHeader (h : TableFits m data size) (hbuf : data + size ≤ Word64.size)
    (hlt : size < Word64.size) (entry : ℕ) (s : Span) {i : ℕ} (hi : i < (headerAt m data).phnum)
    (hprev : ∀ j, j < i → (header m data j).type = 1 → Fits size (header m data j)) :
    Logged.Only (Allowed data size granted)
      (inspectHeader m (data + (headerAt m data).phoff) entry size i s) := by
  unfold inspectHeader
  refine Logged.only_bind (only_readProgram h hbuf hi) ?_
  have hprog := h.programOf_eq hbuf (fun _ _ _ => rfl) hi
  rw [← programOf, hprog]
  split
  · exact Logged.only_pure _
  · split
    · exact Logged.only_pure _
    · refine Logged.only_bind (only_validSegment _ _) ?_
      split
      · exact Logged.only_pure _
      · rename_i hvalid
        rw [Bool.not_eq_true', Bool.not_eq_false] at hvalid
        have hfits := fits_of_valid hlt hvalid
        split
        · exact Logged.only_pure _
        · refine Logged.only_bind ?_ ?_
          · unfold overlapsPreviousSegment
            refine Logged.only_bind (only_readProgram h hbuf hi) (Logged.only_bind ?_ (Logged.only_pure _))
            rw [← programOf, hprog]
            exact Logged.only_allBelow fun j hj _ => only_apart h hbuf hfits (by omega) (hprev j hj)
          · split
            · exact Logged.only_pure _
            · exact Logged.only_bind (only_widen entry s hfits) (Logged.only_pure _)

theorem only_inspectFrom (h : TableFits m data size) (hbuf : data + size ≤ Word64.size)
    (hlt : size < Word64.size) (entry : ℕ) {i left : ℕ} (s : Span) (hi : i + left ≤ (headerAt m data).phnum)
    (hprev : ∀ j, j < i → (header m data j).type = 1 → Fits size (header m data j)) :
    Logged.Only (Allowed data size granted)
      (inspectFrom m (data + (headerAt m data).phoff) entry size i left s) := by
  induction left generalizing i s with
  | zero => exact Logged.only_pure _
  | succ left ih =>
    rw [inspectFrom]
    refine Logged.only_bind (only_inspectHeader h hbuf hlt entry s (by omega) hprev) ?_
    rcases value_inspectHeader m (data + (headerAt m data).phoff) entry size i s with ⟨hpass, hval⟩ | ⟨-, status, -, hval⟩
    · rw [hval]
      apply ih _ (by omega)
      intro j hj htype
      by_cases he : j = i
      · rw [he] at htype ⊢
        have hsound := hpass.1
        rw [h.programOf_eq hbuf (fun _ _ _ => rfl) (by omega)] at hsound
        exact hsound.fits hlt htype
      · exact hprev j (by omega) htype
    · rw [hval]
      exact Logged.only_pure _

theorem only_inspectSegments (h : TableFits m data size) (hbuf : data + size ≤ Word64.size)
    (hlt : size < Word64.size) :
    Logged.Only (Allowed data size granted) (inspectSegments m data (headerAt m data) size) := by
  have htable := h.table
  have hsome := h.nonempty
  unfold sizeofProgram at htable
  unfold inspectSegments
  refine Logged.only_bind (Logged.only_add (by omega)) ?_
  rw [Logged.value_add, h.programs_eq hbuf]
  refine Logged.only_bind (only_inspectFrom h hbuf hlt _ _ (by omega) fun j hj => by omega) ?_
  split
  · exact Logged.only_pure _
  · unfold closeSpan
    split
    · exact Logged.only_pure _
    · rename_i hfirst
      simp only [Bool.or_eq_true, decide_eq_true_iff, not_or] at hfirst
      refine Logged.only_bind (Logged.only_sub (by omega)) ?_
      split
      · exact Logged.only_pure _
      · exact Logged.only_pure _

end Inspection

section Copying

variable {m M : Memory} {data size : ℕ} {range : ImageRange} {granted : ImageRange → Prop}

theorem only_writeByte {a : ℕ} {value : UInt8} (hgranted : granted range) (hlow : range.base ≤ a)
    (hhigh : a < range.stop) : Logged.Only (Allowed data size granted) (writeByte M a value) := by
  intro e he
  rw [List.mem_singleton.mp he]
  exact ⟨range, hgranted, hlow, hhigh⟩

theorem only_clearByte (h : Inspected m data size range) (hlt : size < Word64.size) (hgranted : granted range)
    {i : ℕ} (hi : i < range.stop - range.base) :
    Logged.Only (Allowed data size granted) (clearByte range.base M i) := by
  have hbelow : range.stop ≤ 0x100000000 := (h.proper hlt).below
  have hfits : range.base + i < Word64.size := by
    unfold Word64.size
    omega
  unfold clearByte
  refine Logged.only_bind (Logged.only_add hfits) ?_
  rw [Logged.value_add, Word64.add_eq hfits]
  exact only_writeByte hgranted (by omega) (by omega)

theorem only_copyByte (h : Inspected m data size range) (hbuf : data + size ≤ Word64.size)
    (hlt : size < Word64.size) (hgranted : granted range) {p : ElfProgram} (hp : p ∈ headers m data)
    (htype : p.type = 1) {j : ℕ} (hj : j < p.filesz) :
    Logged.Only (Allowed data size granted) (copyByte data p M j) := by
  have hfit := h.fits hlt hp htype
  have hin := hfit.in_file
  have hbelow := hfit.below
  have hle := hfit.filesz_le
  have hrange := h.inside hlt hp htype (by omega)
  have hoffset : p.offset + j < Word64.size := by omega
  have hsource : data + (p.offset + j) < Word64.size := by omega
  have haddress : p.vaddr + j < Word64.size := by
    unfold Word64.size
    omega
  unfold copyByte
  refine Logged.only_bind (Logged.only_add hoffset) ?_
  rw [Logged.value_add, Word64.add_eq hoffset]
  refine Logged.only_bind (Logged.only_add hsource) ?_
  rw [Logged.value_add, Word64.add_eq hsource]
  refine Logged.only_bind ?_ (Logged.only_bind (Logged.only_add haddress) ?_)
  · intro e he
    rw [List.mem_singleton.mp he]
    exact ⟨by omega, by omega⟩
  · rw [Logged.value_add, Word64.add_eq haddress]
    exact only_writeByte hgranted (by omega) (by omega)

theorem only_copySegments (h : Inspected m data size range) (hbuf : data + size ≤ Word64.size)
    (hlt : size < Word64.size) (hout : Outside data size range) (hgranted : granted range) :
    Logged.Only (Allowed data size granted) (copySegments m data range) := by
  have htable := h.tableFits hlt
  have hne := h.nonempty
  have hsum : data + (headerAt m data).phoff < Word64.size := by
    have hfits := htable.table
    have hsome := htable.nonempty
    unfold sizeofProgram at hfits
    omega
  unfold copySegments
  refine Logged.only_bind (only_readHeader h.room) (Logged.only_bind (Logged.only_add hsum)
    (Logged.only_bind (Logged.only_sub (by omega)) (Logged.only_bind ?_ ?_)))
  · rw [Logged.value_sub, h.length_eq hlt]
    exact Logged.only_foldBelow fun N i hi => only_clearByte h hlt hgranted hi
  · rw [Logged.value_add, Logged.value_sub, h.length_eq hlt, readHeader, Word64.add_eq hsum]
    -- Whatever has been copied so far, the headers in the file are as they were.
    refine Logged.only_foldBelow_invariant (motive := fun _ N => ∀ a,
      ¬ (range.base ≤ a ∧ a < range.stop) → N a = m a) ?_ ?_ ?_
    · intro a ha
      rw [value_clear h hlt, if_neg ha]
    · intro i N hi hN a ha
      rw [(value_copySegment h hbuf hlt hout hN hi a).2 fun hb =>
        ha (h.backed_inside hlt (mem_headers.mpr ⟨i, hi, rfl⟩) hb)]
      exact hN a ha
    · intro i N hi hN
      have hfile : ∀ x, data ≤ x → x < data + size → N x = m x := by
        intro x hx hlt'
        apply hN
        rcases hout with ho | ho
        · omega
        · omega
      unfold copySegment
      refine Logged.only_bind (only_readProgram htable hbuf hi) ?_
      rw [← programOf, htable.programOf_eq hbuf hfile hi]
      split
      · exact Logged.only_pure _
      · rename_i htype
        rw [bne_iff_ne, not_not] at htype
        exact Logged.only_foldBelow fun N' j hj =>
          only_copyByte h hbuf hlt hgranted (mem_headers.mpr ⟨i, hi, rfl⟩) htype hj

end Copying

section Result

variable {allocatePages : ℕ → ℕ → Allocation} {m : Memory} {data size : ℕ} {kernel : LoadedKernel}

def Granted (allocatePages : ℕ → ℕ → Allocation) (m : Memory) (data size : ℕ) (kernel : LoadedKernel)
    (range : ImageRange) : Prop :=
  (placed allocatePages m data size kernel).request = some range ∧
    efiError (allocatePages ((range.stop - range.base) / 4096) range.base).status = false

theorem only_allocateImage {range : ImageRange} {granted : ImageRange → Prop} (h : Inspected m data size range)
    (hbuf : data + size ≤ Word64.size) (hlt : size < Word64.size) (hgrant : Grants allocatePages data size)
    (hgranted : efiError (allocatePages ((range.stop - range.base) / 4096) range.base).status = false →
      granted range) :
    Logged.Only (Allowed data size granted) (allocateImage allocatePages m data kernel range) := by
  have hne := h.nonempty
  unfold allocateImage
  refine Logged.only_bind (Logged.only_sub (by omega)) ?_
  rw [Logged.value_sub, h.length_eq hlt]
  cases herr : efiError (allocatePages ((range.stop - range.base) / 4096) range.base).status with
  | true =>
    rw [if_pos herr]
    exact Logged.only_pure _
  | false =>
    have hout : Outside data size range := by
      have hfresh := hgrant.fresh _ _ herr
      rw [h.pages_eq hlt] at hfresh
      exact hfresh
    rw [if_neg (by rw [herr]; decide)]
    refine Logged.only_bind (only_copySegments h hbuf hlt hout (hgranted herr)) ?_
    exact Logged.only_bind (only_readHeader h.room) (Logged.only_pure _)

variable (m kernel) in
theorem only_placeKernel (hbuf : data + size ≤ Word64.size) (hlt : size < Word64.size)
    (hgrant : Grants allocatePages data size) :
    Logged.Only (Allowed data size (Granted allocatePages m data size kernel))
      (placeKernel allocatePages m data size kernel) := by
  unfold placeKernel
  split
  · exact Logged.only_pure _
  · rename_i hroom
    refine Logged.only_bind (only_readHeader (by omega)) (Logged.only_bind (only_validElfHeader _) ?_)
    rw [readHeader]
    split
    · exact Logged.only_pure _
    · rename_i hvalid
      rw [Bool.not_eq_true', Bool.not_eq_false] at hvalid
      have htable := tableFits_of_valid (not_lt.mp hroom) hlt hvalid
      refine Logged.only_bind (only_inspectSegments htable hbuf hlt) ?_
      rcases value_inspectSegments hbuf hlt (not_lt.mp hroom) hvalid with ⟨range, h, hval⟩ | ⟨-, status, -, hval⟩
      · rw [hval]
        refine only_allocateImage h hbuf hlt hgrant fun hgranted => ⟨?_, hgranted⟩
        obtain ⟨M, -, himage⟩ := placed_of_granted h hbuf hlt hgrant kernel hgranted
        rw [himage]
      · rw [hval]
        exact Logged.only_pure _

/-- On any file of any size: no computation wraps, reads stay inside the file and writes inside
    granted pages, which lie between 1 MiB and 4 GiB and span at most 64 MiB. An error leaves
    memory and `*kernel` alone and no pages allocated. -/
theorem place_kernel_in_bounds (hbuf : data + size ≤ Word64.size) (hlt : size < Word64.size)
    (hgrant : Grants allocatePages data size) :
    (∀ e ∈ (placeKernel allocatePages m data size kernel).log,
      Allowed data size (Granted allocatePages m data size kernel) e) ∧
    (∀ range, (placed allocatePages m data size kernel).request = some range →
      0x100000 ≤ range.base ∧ range.base + (range.stop - range.base) / 4096 * 4096 = range.stop ∧
      range.stop ≤ 0x100000000 ∧ range.stop - range.base ≤ 64 * 1024 * 1024) ∧
    (efiError (placed allocatePages m data size kernel).status = true →
      (placed allocatePages m data size kernel).memory = m ∧
      (placed allocatePages m data size kernel).kernel = kernel ∧
      (∀ a v, .write a v ∉ (placeKernel allocatePages m data size kernel).log) ∧
      ∀ range, ¬ Granted allocatePages m data size kernel range) := by
  have honly := only_placeKernel m kernel hbuf hlt hgrant
  have hquiet : (∀ range, ¬ Granted allocatePages m data size kernel range) →
      ∀ a v, .write a v ∉ (placeKernel allocatePages m data size kernel).log := by
    intro hno a v hwrite
    obtain ⟨range, hgranted, -⟩ := honly _ hwrite
    exact hno range hgranted
  refine ⟨honly, ?_⟩
  rcases placeKernel_cases (m := m) hbuf hlt allocatePages kernel with ⟨range, h, hval⟩ | ⟨-, status, -, hval⟩
  · have hproper := h.proper hlt
    rcases value_allocateImage h hbuf hlt hgrant kernel with ⟨herr, himage⟩ | ⟨herr, M, -, himage⟩
    · have hplaced : placed allocatePages m data size kernel =
          ⟨(allocatePages ((range.stop - range.base) / 4096) range.base).status, m, kernel, some range⟩ :=
        hval.trans himage
      have hno : ∀ range', ¬ Granted allocatePages m data size kernel range' := by
        rintro range' ⟨hreq, hok⟩
        rw [hplaced] at hreq
        injection hreq with hreq
        rw [hreq] at herr
        exact absurd (herr.symm.trans hok) (by decide)
      rw [hplaced]
      refine ⟨?_, fun _ => ⟨rfl, rfl, hquiet hno, hno⟩⟩
      intro range' hreq
      injection hreq with hreq
      rw [← hreq]
      exact ⟨hproper.above, h.pages_eq hlt, hproper.below, h.short⟩
    · have hplaced : placed allocatePages m data size kernel =
          ⟨efiSuccess, M, ⟨range.base, (range.stop - range.base) / 4096, (headerAt m data).entry⟩, some range⟩ :=
        hval.trans himage
      rw [hplaced]
      have hzero : efiError efiSuccess = false := by decide +kernel
      refine ⟨?_, fun hfail => absurd (hzero.symm.trans hfail) (by decide)⟩
      intro range' hreq
      injection hreq with hreq
      rw [← hreq]
      exact ⟨hproper.above, h.pages_eq hlt, hproper.below, h.short⟩
  · have hplaced : placed allocatePages m data size kernel = ⟨status, m, kernel, none⟩ := hval
    have hno : ∀ range', ¬ Granted allocatePages m data size kernel range' := by
      rintro range' ⟨hreq, -⟩
      rw [hplaced] at hreq
      exact absurd hreq (by simp)
    rw [hplaced]
    exact ⟨fun range' hreq => absurd hreq (by simp), fun _ => ⟨rfl, rfl, hquiet hno, hno⟩⟩

end Result

theorem sample_in_bounds : (placed sampleFirmware sampleImage 0x200000 181 ⟨0, 0, 0⟩).request = some ⟨0x100000, 0x10a000⟩ ∧
    ∀ e ∈ (placeKernel sampleFirmware sampleImage 0x200000 181 ⟨0, 0, 0⟩).log,
      Allowed 0x200000 181 (Granted sampleFirmware sampleImage 0x200000 181 ⟨0, 0, 0⟩) e :=
  ⟨by decide +kernel, (place_kernel_in_bounds (by decide) (by decide) sampleFirmware_grants).1⟩

end OsByAi.ElfBounds
