import OsByAi.PmmBootMap

set_option autoImplicit false

namespace OsByAi.PmmRefinement
open ByteMemory PackedBitmap BootInformation PmmModel PmmInvariant PmmBootMap

inductive Call where
  | init (m : Memory) (info : ℕ)
  | alloc (address : Option ℕ)
  | free (address : ℕ)
  | isAllocated (address : ℕ)
  | total
  | available

structure Reply where
  ok : Bool
  value : ℕ
  address : Option ℕ

def call (s : Pmm) : Call → Reply × Pmm
  | .init m info => (⟨(pmmInit m info s).1, 0, none⟩, (pmmInit m info s).2)
  | .alloc address =>
    (⟨(pmmAlloc s address).1, 0, (pmmAlloc s address).2.1⟩, (pmmAlloc s address).2.2)
  | .free address => (⟨(pmmFree s address).1, 0, none⟩, (pmmFree s address).2)
  | .isAllocated address => (⟨pmmIsAllocated s address, 0, none⟩, s)
  | .total => (⟨true, pmmTotal s, none⟩, s)
  | .available => (⟨true, pmmAvailable s, none⟩, s)

structure Ledger where
  ready : Bool
  eligible : Finset ℕ
  outstanding : Finset ℕ

/-- Bookkeeping from one reply. Only a successful `pmm_init` fixes the eligible set. -/
def record (l : Ledger) (c : Call) (r : Reply) (after : Pmm) : Ledger :=
  match c, r.ok, r.address with
  | .init _ _, true, _ => { l with ready := true, eligible := pagesOf after.eligible }
  | .alloc _, true, some a => { l with outstanding := insert (a / 4096) l.outstanding }
  | .free a, true, _ => { l with outstanding := l.outstanding.erase (a / 4096) }
  | _, _, _ => l

def next (x : Pmm × Ledger) (c : Call) : Pmm × Ledger :=
  ((call x.1 c).2, record x.2 c (call x.1 c).1 (call x.1 c).2)

def run (calls : List Call) : Pmm × Ledger := calls.foldl next (bss, ⟨false, ∅, ∅⟩)

structure Matches (s : Pmm) (l : Ledger) : Prop where
  inv : Inv s
  ready : s.ready = l.ready
  eligible : inv.allocator.eligible = l.eligible
  allocated : inv.allocator.allocated = l.outstanding

/-- What a set allocator over the ledger's sets may answer, and when it must not move. -/
def Answers (s : Pmm) (l : Ledger) (c : Call) : Prop :=
  let r := (call s c).1
  match c with
  | .init _ _ => (r.ok = true → l.ready = false) ∧ (r.ok = false → (call s c).2 = s)
  | .alloc address =>
    (r.ok = true ↔ l.ready = true ∧ address ≠ none ∧ l.outstanding ≠ l.eligible) ∧
    (r.ok = true → ∃ page ∈ l.eligible \ l.outstanding, r.address = some (4096 * page)) ∧
    (r.ok = false → (call s c).2 = s ∧ r.address = address)
  | .free a =>
    (r.ok = true ↔ a % 4096 = 0 ∧ a / 4096 ∈ l.outstanding) ∧ (r.ok = false → (call s c).2 = s)
  | .isAllocated a =>
    (r.ok = true ↔ a % 4096 = 0 ∧ a / 4096 ∈ l.outstanding) ∧ (call s c).2 = s
  | .total => r.value = l.eligible.card ∧ (call s c).2 = s
  | .available => r.value + l.outstanding.card = l.eligible.card ∧ (call s c).2 = s

theorem Matches.mem_outstanding {s : Pmm} {l : Ledger} (h : Matches s l) (page : ℕ) :
    page ∈ l.outstanding ↔ bit s.allocated page = true := by
  rw [← h.allocated]
  exact h.inv.mem_allocated page

theorem Matches.full_iff {s : Pmm} {l : Ledger} (h : Matches s l) :
    l.outstanding = l.eligible ↔ ∀ page, ¬ IsFree s page := by
  rw [← h.allocated, ← h.eligible, ← h.inv.allocator.free_eq_empty, Finset.eq_empty_iff_forall_notMem]
  simp only [h.inv.mem_free]

theorem answers_init {s : Pmm} {l : Ledger} (h : Matches s l) (m : Memory) (info : ℕ) :
    Answers s l (.init m info) := by
  simp only [Answers, call]
  obtain ⟨hi, -⟩ | ⟨hb, -, hi⟩ := init_cases h.inv m info
  · rw [hi]
    exact ⟨fun hf => absurd hf (by simp), fun _ => rfl⟩
  · rw [hi, ← h.ready, hb]
    exact ⟨fun _ => rfl, fun hf => absurd hf (by simp)⟩

theorem answers_alloc {s : Pmm} {l : Ledger} (h : Matches s l) (address : Option ℕ) :
    Answers s l (.alloc address) := by
  simp only [Answers, call]
  obtain ⟨ha, hno⟩ | ⟨page, hr, hn, hf, -, ha⟩ := h.inv.alloc_cases address
  · rw [ha]
    refine ⟨⟨fun hf => absurd hf (by simp), ?_⟩, fun hf => absurd hf (by simp), fun _ => ⟨rfl, rfl⟩⟩
    rintro ⟨-, hn, hne⟩
    rcases hno with hno | hno
    · exact absurd hno hn
    · exact absurd (h.full_iff.mpr hno) hne
  · rw [ha]
    refine ⟨⟨fun _ => ⟨h.ready ▸ hr, hn, ?_⟩, fun _ => rfl⟩, fun _ => ⟨page, ?_, ?_⟩,
      fun hf => absurd hf (by simp)⟩
    · intro he
      exact h.full_iff.mp he page hf
    · rw [← h.eligible, ← h.allocated]
      exact (h.inv.mem_free page).mpr hf
    · rw [Nat.mul_comm]

theorem answers_free {s : Pmm} {l : Ledger} (h : Matches s l) (a : ℕ) :
    Answers s l (.free a) := by
  simp only [Answers, call, h.mem_outstanding]
  obtain ⟨hf, hno⟩ | ⟨ha, hb, hf⟩ := h.inv.free_cases a
  · rw [hf]
    exact ⟨⟨fun hf => absurd hf (by simp), fun hc => absurd hc hno⟩, fun _ => rfl⟩
  · rw [hf]
    exact ⟨⟨fun _ => ⟨ha, hb⟩, fun _ => rfl⟩, fun hf => absurd hf (by simp)⟩

theorem Matches.answers {s : Pmm} {l : Ledger} (h : Matches s l) (c : Call) : Answers s l c := by
  cases c with
  | init m info => exact answers_init h m info
  | alloc address => exact answers_alloc h address
  | free a => exact answers_free h a
  | isAllocated a =>
    simp only [Answers, call, h.mem_outstanding]
    exact ⟨h.inv.isAllocated_iff a, trivial⟩
  | total =>
    refine ⟨?_, rfl⟩
    rw [← h.eligible]
    exact h.inv.total
  | available =>
    refine ⟨?_, rfl⟩
    rw [← h.eligible, ← h.allocated]
    exact h.inv.free

theorem bss_allocator : bss_inv.allocator = .fresh ∅ := SetAllocator.ext pagesOf_empty pagesOf_empty

theorem init_allocator {map : Bitmap} (h : Inv (initialised map)) : h.allocator = .fresh (pagesOf map) :=
  SetAllocator.ext rfl pagesOf_empty

theorem take_allocator {s : Pmm} (h : Inv s) {page : ℕ} (hf : IsFree s page) (hmin : ∀ q, IsFree s q → page ≤ q) :
    (h.take hf hmin).allocator = h.allocator.take page ((h.mem_eligible page).mpr hf.1) :=
  SetAllocator.ext rfl (h.allocated_take hf)

theorem give_allocator {s : Pmm} (h : Inv s) {page : ℕ} (hb : bit s.allocated page = true) :
    (h.give hb).allocator = h.allocator.give page := SetAllocator.ext rfl (h.allocated_give page)

theorem start_matches : Matches bss ⟨false, ∅, ∅⟩ where
  inv := bss_inv
  ready := rfl
  eligible := congrArg SetAllocator.eligible bss_allocator
  allocated := congrArg SetAllocator.allocated bss_allocator

theorem next_init {s : Pmm} {l : Ledger} (h : Matches s l) (m : Memory) (info : ℕ) :
    Matches (next (s, l) (.init m info)).1 (next (s, l) (.init m info)).2 := by
  simp only [next, record, call]
  obtain ⟨hi, -⟩ | ⟨hb, hv, hi⟩ := init_cases h.inv m info
  · rw [hi]
    exact h
  · rw [hi]
    refine ⟨hv.initialised_inv, rfl, rfl, ?_⟩
    -- nothing was allocated, and nothing is
    have hnone : l.outstanding = ∅ := by
      subst hb
      exact h.allocated.symm.trans (congrArg SetAllocator.allocated bss_allocator)
    rw [hnone]
    exact congrArg SetAllocator.allocated (init_allocator hv.initialised_inv)

theorem next_alloc {s : Pmm} {l : Ledger} (h : Matches s l) (address : Option ℕ) :
    Matches (next (s, l) (.alloc address)).1 (next (s, l) (.alloc address)).2 := by
  simp only [next, record, call]
  obtain ⟨ha, -⟩ | ⟨page, -, -, hf, hmin, ha⟩ := h.inv.alloc_cases address
  · rw [ha]
    exact h
  · rw [ha]
    have htake := take_allocator h.inv hf hmin
    refine ⟨h.inv.take hf hmin, h.ready, (congrArg SetAllocator.eligible htake).trans h.eligible, ?_⟩
    refine (congrArg SetAllocator.allocated htake).trans ?_
    change insert page h.inv.allocator.allocated = insert (page * 4096 / 4096) l.outstanding
    rw [h.allocated, Nat.mul_div_cancel _ (by decide)]

theorem next_free {s : Pmm} {l : Ledger} (h : Matches s l) (a : ℕ) :
    Matches (next (s, l) (.free a)).1 (next (s, l) (.free a)).2 := by
  simp only [next, record, call]
  obtain ⟨hf, -⟩ | ⟨-, hb, hf⟩ := h.inv.free_cases a
  · rw [hf]
    exact h
  · rw [hf]
    have hgive := give_allocator h.inv hb
    refine ⟨h.inv.give hb, h.ready, (congrArg SetAllocator.eligible hgive).trans h.eligible, ?_⟩
    refine (congrArg SetAllocator.allocated hgive).trans ?_
    change h.inv.allocator.allocated.erase (a / 4096) = l.outstanding.erase (a / 4096)
    rw [h.allocated]

theorem Matches.next {s : Pmm} {l : Ledger} (h : Matches s l) (c : Call) :
    Matches (next (s, l) c).1 (next (s, l) c).2 := by
  cases c with
  | init m info => exact next_init h m info
  | alloc address => exact next_alloc h address
  | free a => exact next_free h a
  | isAllocated a =>
    exact h
  | total => exact h
  | available => exact h

theorem foldl_matches (calls : List Call) {x : Pmm × Ledger} (h : Matches x.1 x.2) :
    Matches (calls.foldl next x).1 (calls.foldl next x).2 := by
  induction calls generalizing x with
  | nil => exact h
  | cons c calls ih => exact ih (h.next c)

/-- Every sequence of calls leaves the manager in step with the ledger of its replies, and
    whatever is called next is answered as the set allocator answers it. -/
theorem pmm_refines_set_allocator (calls : List Call) :
    (run calls).2.outstanding ⊆ (run calls).2.eligible ∧
    (∀ page, page ∈ (run calls).2.outstanding ↔ bit (run calls).1.allocated page = true) ∧
    (∀ page, page ∈ (run calls).2.eligible ↔ bit (run calls).1.eligible page = true) ∧
    (run calls).1.ready = (run calls).2.ready ∧
    (run calls).1.totalPages = (run calls).2.eligible.card ∧
    (run calls).1.freePages + (run calls).2.outstanding.card = (run calls).2.eligible.card ∧
    ∀ c, Answers (run calls).1 (run calls).2 c := by
  have h : Matches (run calls).1 (run calls).2 := foldl_matches calls start_matches
  refine ⟨?_, h.mem_outstanding, ?_, h.ready, ?_, ?_, h.answers⟩
  · rw [← h.allocated, ← h.eligible]
    exact h.inv.allocator.sub
  · intro page
    rw [← h.eligible]
    exact h.inv.mem_eligible page
  · rw [← h.eligible]
    exact h.inv.total
  · rw [← h.eligible, ← h.allocated]
    exact h.inv.free

/-- The circular scan in state `s` behaves as a scan from page zero. -/
structure FirstFit (s : Pmm) : Prop where
  cursor_lt : s.cursor < pageCount
  below_cursor : ∀ page, page < s.cursor → ¬ IsFree s page
  lowest : ∀ address, (pmmAlloc s address).1 = true →
    ∃ page, (pmmAlloc s address).2.1 = some (4096 * page) ∧ IsFree s page ∧
      ∀ other, IsFree s other → page ≤ other
  refill : ∀ a, (pmmFree s a).1 = true → (∀ other, IsFree s other → a / 4096 < other) →
    ∀ old, (pmmAlloc (pmmFree s a).2 (some old)).1 = true ∧
      (pmmAlloc (pmmFree s a).2 (some old)).2.1 = some a

theorem isFree_give (s : Pmm) {page : ℕ} (he : bit s.eligible page = true) (other : ℕ) :
    IsFree (givePage s page) other ↔ other = page ∨ IsFree s other := by
  unfold IsFree givePage
  simp only [bit_clear, Bool.and_eq_false_iff, Bool.not_eq_false', decide_eq_true_eq]
  constructor
  · rintro ⟨ho, heq | ha⟩
    · exact .inl heq
    · exact .inr ⟨ho, ha⟩
  · rintro (rfl | ⟨ho, ha⟩)
    · exact ⟨he, .inl rfl⟩
    · exact ⟨ho, .inr ha⟩

theorem refill_of_inv {s : Pmm} (h : Inv s) {a : ℕ} (hok : (pmmFree s a).1 = true)
    (hlow : ∀ other, IsFree s other → a / 4096 < other) (old : ℕ) :
    (pmmAlloc (pmmFree s a).2 (some old)).1 = true ∧
      (pmmAlloc (pmmFree s a).2 (some old)).2.1 = some a := by
  obtain ⟨hf, -⟩ | ⟨hal, hb, hf⟩ := h.free_cases a
  · rw [hf] at hok
    exact absurd hok (by simp)
  · rw [hf]
    have hfree := isFree_give s (h.sub _ hb)
    obtain ⟨-, ho | hno⟩ | ⟨page, -, -, hpage, hmin, ha⟩ := (h.give hb).alloc_cases (some old)
    · exact absurd ho (by simp)
    · exact absurd ((hfree _).mpr (.inl rfl)) (hno (a / 4096))
    · have heq : page = a / 4096 := by
        have hle := hmin _ ((hfree _).mpr (.inl rfl))
        rcases (hfree page).mp hpage with heq | hold
        · exact heq
        · have := hlow page hold
          omega
      rw [ha]
      exact ⟨rfl, congrArg some (by omega)⟩

theorem firstFit_of_inv {s : Pmm} (h : Inv s) : FirstFit s where
  cursor_lt := h.cursor_lt
  below_cursor page hlt hf := absurd (h.firstFit page hf) (by omega)
  lowest address hok := by
    obtain ⟨ha, -⟩ | ⟨page, -, -, hf, hmin, ha⟩ := h.alloc_cases address
    · rw [ha] at hok
      exact absurd hok (by simp)
    · rw [ha]
      exact ⟨page, congrArg some (Nat.mul_comm _ _), hf, hmin⟩
  refill a hok hlow := refill_of_inv h hok hlow

/-- In every state of every run, `pmm_alloc` hands out the lowest free page. -/
theorem pmm_alloc_first_fit (calls : List Call) : FirstFit (run calls).1 := by
  have h : Matches (run calls).1 (run calls).2 := foldl_matches calls start_matches
  exact firstFit_of_inv h.inv

end OsByAi.PmmRefinement
