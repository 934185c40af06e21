import OsByAi.PmmModel
import OsByAi.SetAllocator

set_option autoImplicit false

namespace OsByAi.PmmInvariant
open ByteMemory PackedBitmap BootInformation PmmModel

theorem pageCount_lt_size : pageCount < Word64.size := by
  rw [pageCount_eq, Word64.size]
  omega

def pagesOf (map : Bitmap) : Finset ℕ := {page ∈ Finset.range pageCount | bit map page = true}

def IsFree (s : Pmm) (page : ℕ) : Prop := bit s.eligible page = true ∧ bit s.allocated page = false

instance (s : Pmm) (page : ℕ) : Decidable (IsFree s page) :=
  inferInstanceAs (Decidable (_ ∧ _))

structure Inv (s : Pmm) : Prop where
  cold : s.ready = false → s = bss
  bounds : ∀ page, bit s.eligible page = true → 256 ≤ page ∧ page < pageCount
  sub : ∀ page, bit s.allocated page = true → bit s.eligible page = true
  total : s.totalPages = (pagesOf s.eligible).card
  free : s.freePages + (pagesOf s.allocated).card = (pagesOf s.eligible).card
  cursor_lt : s.cursor < pageCount
  firstFit : ∀ page, IsFree s page → s.cursor ≤ page

theorem mem_pagesOf (map : Bitmap) (page : ℕ) :
    page ∈ pagesOf map ↔ page < pageCount ∧ bit map page = true := by
  simp [pagesOf]

theorem countPages_eq (map : Bitmap) : countPages map = (pagesOf map).card :=
  Nat.count_eq_card_filter_range _ _

theorem card_pagesOf_le (map : Bitmap) : (pagesOf map).card ≤ pageCount := by
  calc
    (pagesOf map).card ≤ (Finset.range pageCount).card := Finset.card_filter_le _ _
    _ = pageCount := Finset.card_range _

attribute [irreducible] pagesOf

theorem Inv.mem_eligible {s : Pmm} (h : Inv s) (page : ℕ) :
    page ∈ pagesOf s.eligible ↔ bit s.eligible page = true := by
  rw [mem_pagesOf]
  exact ⟨fun hp => hp.2, fun hp => ⟨(h.bounds page hp).2, hp⟩⟩

theorem Inv.mem_allocated {s : Pmm} (h : Inv s) (page : ℕ) :
    page ∈ pagesOf s.allocated ↔ bit s.allocated page = true := by
  rw [mem_pagesOf]
  exact ⟨fun hp => hp.2, fun hp => ⟨(h.bounds page (h.sub page hp)).2, hp⟩⟩

/-- The abstraction: a page manager is an allocator of page numbers. -/
def Inv.allocator {s : Pmm} (h : Inv s) : SetAllocator ℕ where
  eligible := pagesOf s.eligible
  allocated := pagesOf s.allocated
  sub := by
    intro page hp
    rw [h.mem_eligible]
    exact h.sub page ((h.mem_allocated page).mp hp)

theorem Inv.mem_free {s : Pmm} (h : Inv s) (page : ℕ) :
    page ∈ h.allocator.free ↔ IsFree s page := by
  rw [SetAllocator.mem_free]
  change page ∈ pagesOf s.eligible ∧ page ∉ pagesOf s.allocated ↔ _
  rw [h.mem_eligible, h.mem_allocated, Bool.not_eq_true, IsFree]

theorem Inv.freePages_eq {s : Pmm} (h : Inv s) : s.freePages = h.allocator.free.card := by
  have hc := h.allocator.card_free
  have hf := h.free
  change _ + (pagesOf s.allocated).card = (pagesOf s.eligible).card at hc
  omega

theorem Inv.freePages_le {s : Pmm} (h : Inv s) : s.freePages ≤ pageCount := by
  have := card_pagesOf_le s.eligible
  have := h.free
  omega

theorem pagesOf_set {map : Bitmap} {page : ℕ} (hp : page < pageCount) :
    pagesOf (set map page) = insert page (pagesOf map) := by
  ext q
  rw [Finset.mem_insert, mem_pagesOf, mem_pagesOf, bit_set, Bool.or_eq_true, decide_eq_true_eq]
  constructor
  · rintro ⟨hq, rfl | hq'⟩
    · exact .inl rfl
    · exact .inr ⟨hq, hq'⟩
  · rintro (rfl | ⟨hq, hq'⟩)
    · exact ⟨hp, .inl rfl⟩
    · exact ⟨hq, .inr hq'⟩

theorem Inv.allocated_take {s : Pmm} (h : Inv s) {page : ℕ} (hf : IsFree s page) :
    pagesOf (set s.allocated page) = (h.allocator.take page ((h.mem_eligible page).mpr hf.1)).allocated :=
  pagesOf_set (h.bounds page hf.1).2

theorem pagesOf_clear (map : Bitmap) (page : ℕ) :
    pagesOf (clear map page) = (pagesOf map).erase page := by
  ext q
  rw [Finset.mem_erase, mem_pagesOf, mem_pagesOf, bit_clear]
  simp only [Bool.and_eq_true, Bool.not_eq_true', decide_eq_false_iff_not]
  exact ⟨fun ⟨hq, hne, hq'⟩ => ⟨hne, hq, hq'⟩, fun ⟨hne, hq, hq'⟩ => ⟨hq, hne, hq'⟩⟩

theorem Inv.allocated_give {s : Pmm} (h : Inv s) (page : ℕ) :
    pagesOf (clear s.allocated page) = (h.allocator.give page).allocated := pagesOf_clear _ _

theorem pagesOf_empty : pagesOf empty = ∅ := by
  apply Finset.eq_empty_of_forall_notMem
  intro page hp
  rw [mem_pagesOf, bit_empty] at hp
  exact absurd hp.2 (by simp)

theorem bss_inv : Inv bss where
  cold _ := rfl
  bounds page h := by
    rw [show bss.eligible = empty from rfl, bit_empty] at h
    exact absurd h (by simp)
  sub page h := by
    rw [show bss.allocated = empty from rfl, bit_empty] at h
    exact absurd h (by simp)
  total := by
    rw [show bss.eligible = empty from rfl, pagesOf_empty, Finset.card_empty]
    rfl
  free := by
    rw [show bss.eligible = empty from rfl, show bss.allocated = empty from rfl,
      show bss.freePages = 0 from rfl, Nat.zero_add]
  cursor_lt := by
    rw [show bss.cursor = 0 from rfl, pageCount_eq]
    omega
  firstFit page _ := Nat.zero_le _

/-- The page looked at after `k` iterations. -/
def probe (s : Pmm) (k : ℕ) : ℕ := (s.cursor + k) % pageCount

theorem scan_succ (s : Pmm) (left : ℕ) :
    scan s (left + 1) =
      if IsFree s (probe s (pageCount - (left + 1))) then some (probe s (pageCount - (left + 1)))
      else scan s left := by
  have e : scan s (left + 1) =
      if (!bit s.eligible (probe s (pageCount - (left + 1))) ||
        bit s.allocated (probe s (pageCount - (left + 1)))) = true
      then scan s left else some (probe s (pageCount - (left + 1))) := rfl
  rw [e]
  by_cases he : bit s.eligible (probe s (pageCount - (left + 1))) = true <;>
    by_cases ha : bit s.allocated (probe s (pageCount - (left + 1))) = true <;>
      simp [IsFree, he, ha]

theorem scan_none {s : Pmm} {left : ℕ} (hl : left ≤ pageCount) (h : scan s left = none) :
    ∀ k, pageCount - left ≤ k → k < pageCount → ¬ IsFree s (probe s k) := by
  induction left with
  | zero => intro k hk hlt; omega
  | succ left ih =>
    rw [scan_succ] at h
    split at h
    · exact absurd h (by simp)
    · rename_i hnot
      intro k hk hlt
      by_cases he : k = pageCount - (left + 1)
      · rw [he]
        exact hnot
      · exact ih (by omega) h k (by omega) hlt

theorem scan_some {s : Pmm} {left page : ℕ} (hl : left ≤ pageCount) (h : scan s left = some page) :
    ∃ k, pageCount - left ≤ k ∧ k < pageCount ∧ page = probe s k ∧ IsFree s page ∧
      ∀ k', pageCount - left ≤ k' → k' < k → ¬ IsFree s (probe s k') := by
  induction left with
  | zero => simp [scan] at h
  | succ left ih =>
    rw [scan_succ] at h
    split at h
    · rename_i hfree
      cases h
      exact ⟨pageCount - (left + 1), le_refl _, by omega, rfl, hfree, fun k' _ _ => by omega⟩
    · rename_i hnot
      obtain ⟨k, hk, hlt, hp, hf, hmin⟩ := ih (by omega) h
      refine ⟨k, by omega, hlt, hp, hf, ?_⟩
      intro k' hk' hlt'
      by_cases he : k' = pageCount - (left + 1)
      · rw [he]
        exact hnot
      · exact hmin k' (by omega) hlt'

theorem Inv.probe_free {s : Pmm} (h : Inv s) {page : ℕ} (hf : IsFree s page) :
    probe s (page - s.cursor) = page := by
  have hc := h.firstFit page hf
  have hb := (h.bounds page hf.1).2
  rw [probe, Nat.add_sub_cancel' hc, Nat.mod_eq_of_lt hb]

theorem Inv.scan_none_iff {s : Pmm} (h : Inv s) :
    scan s pageCount = none ↔ ∀ page, ¬ IsFree s page := by
  constructor
  · intro hs page hf
    have hb := (h.bounds page hf.1).2
    refine scan_none (le_refl _) hs (page - s.cursor) (by omega) (by omega) ?_
    rw [h.probe_free hf]
    exact hf
  · intro hnot
    cases hs : scan s pageCount with
    | none => rfl
    | some page =>
      obtain ⟨_, _, _, _, hf, _⟩ := scan_some (le_refl _) hs
      exact absurd hf (hnot page)

theorem Inv.scan_lowest {s : Pmm} (h : Inv s) {page : ℕ} (hs : scan s pageCount = some page) :
    IsFree s page ∧ ∀ q, IsFree s q → page ≤ q := by
  obtain ⟨k, _, hk, hp, hf, hmin⟩ := scan_some (le_refl _) hs
  refine ⟨hf, ?_⟩
  intro q hq
  have hc := h.firstFit page hf
  have hcq := h.firstFit q hq
  have hbq := (h.bounds q hq.1).2
  have hcl := h.cursor_lt
  have hfirst : k ≤ q - s.cursor := by
    by_contra hlt
    refine hmin (q - s.cursor) (by omega) (by omega) ?_
    rw [h.probe_free hq]
    exact hq
  have hpage : page = s.cursor + k := by
    rw [hp, probe] at hc ⊢
    by_cases hw : s.cursor + k < pageCount
    · exact Nat.mod_eq_of_lt hw
    · rw [Nat.mod_eq_sub_mod (by omega), Nat.mod_eq_of_lt (by omega)] at hc
      omega
  omega

def takePage (s : Pmm) (page : ℕ) : Pmm :=
  { s with
    allocated := set s.allocated page
    freePages := s.freePages - 1
    cursor := (page + 1) % pageCount }

def givePage (s : Pmm) (page : ℕ) : Pmm :=
  { s with
    allocated := clear s.allocated page
    freePages := s.freePages + 1
    cursor := if page < s.cursor then page else s.cursor }

theorem Inv.freePages_eq_zero {s : Pmm} (h : Inv s) :
    s.freePages = 0 ↔ ∀ page, ¬ IsFree s page := by
  rw [h.freePages_eq, Finset.card_eq_zero, Finset.eq_empty_iff_forall_notMem]
  simp only [h.mem_free]

theorem Inv.not_free_of_cold {s : Pmm} (h : Inv s) (hr : s.ready = false) (page : ℕ) :
    ¬ IsFree s page := by
  rw [h.cold hr]
  rintro ⟨he, -⟩
  rw [show bss.eligible = empty from rfl, bit_empty] at he
  exact absurd he (by simp)

/-- Everything `pmm_alloc` can do: nothing, or hand out the lowest free page. -/
theorem Inv.alloc_cases {s : Pmm} (h : Inv s) (out : Option ℕ) :
    (pmmAlloc s out = (false, out, s) ∧ (out = none ∨ ∀ page, ¬ IsFree s page)) ∨
    ∃ page, s.ready = true ∧ out ≠ none ∧ IsFree s page ∧ (∀ q, IsFree s q → page ≤ q) ∧
      pmmAlloc s out = (true, some (page * 4096), takePage s page) := by
  unfold pmmAlloc
  by_cases hg : (!s.ready || out.isNone || s.freePages == 0) = true
  · rw [if_pos hg]
    refine .inl ⟨rfl, ?_⟩
    simp only [Bool.or_eq_true, Bool.not_eq_true', Option.isNone_iff_eq_none, beq_iff_eq] at hg
    obtain (hr | ho) | hz := hg
    · exact .inr (h.not_free_of_cold hr)
    · exact .inl ho
    · exact .inr (h.freePages_eq_zero.mp hz)
  · rw [if_neg hg]
    simp only [Bool.or_eq_true, Bool.not_eq_true', Option.isNone_iff_eq_none, beq_iff_eq,
      not_or] at hg
    obtain ⟨⟨hr, ho⟩, hz⟩ := hg
    cases hs : scan s pageCount with
    | none => exact .inl ⟨rfl, .inr (h.scan_none_iff.mp hs)⟩
    | some page =>
      obtain ⟨hf, hmin⟩ := h.scan_lowest hs
      refine .inr ⟨page, by simpa using hr, ho, hf, hmin, ?_⟩
      have hle := h.freePages_le
      have hlt := pageCount_lt_size
      simp only [takePage, Word64.sub_eq (show 1 ≤ s.freePages by omega) (by omega)]

theorem Inv.take {s : Pmm} (h : Inv s) {page : ℕ} (hf : IsFree s page)
    (hmin : ∀ q, IsFree s q → page ≤ q) : Inv (takePage s page) := by
  have hb := h.bounds page hf.1
  have hnot : page ∉ pagesOf s.allocated := by
    rw [h.mem_allocated, hf.2]
    simp
  have hcard := h.allocator.card_allocated_take page ((h.mem_eligible page).mpr hf.1) hnot
  rw [← h.allocated_take hf] at hcard
  have hpos : s.freePages ≠ 0 := fun hz => h.freePages_eq_zero.mp hz page hf
  refine ⟨?_, h.bounds, ?_, h.total, ?_, Nat.mod_lt _ (by omega), ?_⟩
  · intro hr
    exact absurd hf (h.not_free_of_cold hr page)
  · intro q hq
    simp only [takePage, bit_set, Bool.or_eq_true, decide_eq_true_eq] at hq ⊢
    rcases hq with rfl | hq
    · exact hf.1
    · exact h.sub q hq
  · have := h.free
    change (pagesOf (set s.allocated page)).card = (pagesOf s.allocated).card + 1 at hcard
    change s.freePages - 1 + (pagesOf (set s.allocated page)).card = (pagesOf s.eligible).card
    omega
  · rintro q ⟨he, ha⟩
    simp only [takePage, bit_set, Bool.or_eq_false_iff, decide_eq_false_iff_not] at he ha ⊢
    have hle := hmin q ⟨he, ha.2⟩
    have hqb := (h.bounds q he).2
    rw [Nat.mod_eq_of_lt (by omega)]
    omega

theorem Inv.ready_of_allocated {s : Pmm} (h : Inv s) {page : ℕ}
    (hb : bit s.allocated page = true) : s.ready = true := by
  by_contra hr
  rw [h.cold (by simpa using hr), show bss.allocated = empty from rfl, bit_empty] at hb
  exact absurd hb (by simp)

theorem Inv.free_cases {s : Pmm} (h : Inv s) (a : ℕ) :
    (pmmFree s a = (false, s) ∧ ¬ (a % 4096 = 0 ∧ bit s.allocated (a / 4096) = true)) ∨
    (a % 4096 = 0 ∧ bit s.allocated (a / 4096) = true ∧
      pmmFree s a = (true, givePage s (a / 4096))) := by
  by_cases hc : a % 4096 = 0 ∧ bit s.allocated (a / 4096) = true
  · obtain ⟨hal, hb⟩ := hc
    have he := h.sub _ hb
    have hlt := (h.bounds _ he).2
    have hr := h.ready_of_allocated hb
    have hlim : a < pmmLimit := by
      rw [pageCount_eq] at hlt
      unfold pmmLimit
      omega
    have hle := h.freePages_le
    have hsz := pageCount_lt_size
    refine .inr ⟨hal, hb, ?_⟩
    simp [pmmFree, hr, hal, hlim, he, hb, givePage,
      Word64.add_eq (show s.freePages + 1 < Word64.size by rw [pageCount_eq] at hle; unfold Word64.size; omega)]
  · refine .inl ⟨?_, hc⟩
    unfold pmmFree
    split
    · rfl
    · rename_i hg
      have hal : a % 4096 = 0 := by
        simp at hg
        omega
      have hb : bit s.allocated (a / 4096) = false := by
        by_contra hb
        exact hc ⟨hal, by simpa using hb⟩
      simp [hb]

theorem Inv.give {s : Pmm} (h : Inv s) {page : ℕ} (hb : bit s.allocated page = true) :
    Inv (givePage s page) := by
  have hcard := h.allocator.card_allocated_give page ((h.mem_allocated page).mpr hb)
  rw [← h.allocated_give page] at hcard
  refine ⟨?_, h.bounds, ?_, h.total, ?_, ?_, ?_⟩
  · intro hr
    exact absurd ((h.ready_of_allocated hb).symm.trans hr) (by simp)
  · intro q hq
    simp only [givePage, bit_clear, Bool.and_eq_true] at hq
    exact h.sub q hq.2
  · have := h.free
    change (pagesOf (clear s.allocated page)).card + 1 = (pagesOf s.allocated).card at hcard
    change s.freePages + 1 + (pagesOf (clear s.allocated page)).card = (pagesOf s.eligible).card
    omega
  · have := h.cursor_lt
    simp only [givePage]
    split <;> omega
  · rintro q ⟨he, ha⟩
    simp only [givePage, bit_clear, Bool.and_eq_false_iff, Bool.not_eq_false',
      decide_eq_true_eq] at he ha ⊢
    rcases ha with rfl | ha
    · split <;> omega
    · have := h.firstFit q ⟨he, ha⟩
      split <;> omega

theorem Inv.isAllocated_iff {s : Pmm} (h : Inv s) (a : ℕ) :
    pmmIsAllocated s a = true ↔ a % 4096 = 0 ∧ bit s.allocated (a / 4096) = true := by
  simp only [pmmIsAllocated, Bool.and_eq_true, decide_eq_true_eq, beq_iff_eq]
  constructor
  · rintro ⟨⟨⟨-, ha⟩, -⟩, hb⟩
    exact ⟨ha, hb⟩
  · rintro ⟨ha, hb⟩
    have he := h.sub _ hb
    have hlt := (h.bounds _ he).2
    rw [pageCount_eq] at hlt
    refine ⟨⟨⟨⟨h.ready_of_allocated hb, ?_⟩, ha⟩, he⟩, hb⟩
    unfold pmmLimit
    omega

end OsByAi.PmmInvariant
