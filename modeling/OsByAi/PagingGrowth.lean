import OsByAi.PagingWalk

set_option autoImplicit false

namespace OsByAi.PagingGrowth
open ByteMemory PackedBitmap PmmModel PmmInvariant PagingModel PagingEntries PagingTree PagingWalk
open RadixTree

theorem Edit.node_eq {s s' : Machine} {p q : Path} {i : Fin 512} {w : ℕ} (he : Edit s s' p i w)
    (hroot : s'.pagingRoot = s.pagingRoot) (hq : q.length ≤ 3) :
    node s' q = if q = p ++ [i] then child w else node s q := by
  induction q using List.reverseRecOn with
  | nil =>
    rw [if_neg (by simp), node_nil, node_nil, rootFrame, rootFrame, hroot]
  | append_singleton q j _ =>
    have hlen : q.length ≤ 3 := by
      simp at hq
      omega
    rw [node_concat, node_concat, he q j hlen]
    by_cases hqj : q = p ∧ j = i
    · rw [if_pos hqj, if_pos (by rw [hqj.1, hqj.2])]
    · rw [if_neg hqj, if_neg]
      intro heq
      have := List.append_inj' heq rfl
      exact hqj ⟨this.1, by simpa using this.2⟩

def Room (s : Machine) : Prop := s.pagingTableCount ≠ maxTables ∧ s.pmm.freePages ≠ 0

section Level

variable {s : Machine} {held : Finset ℕ} {p : Path} {n : ℕ}

theorem level_cases (v shift : ℕ) (h : TreeInv s held) (hp : p.length ≤ 2) (hn : node s p = some n) :
    (∃ c, node s (p ++ [pageIndex v shift]) = some c ∧
      (s.load64 (slot (4096 * n) v shift) &&& 1 != 0) = true ∧
      s.load64 (slot (4096 * n) v shift) &&& addressMask = 4096 * c) ∨
    (node s (p ++ [pageIndex v shift]) = none ∧
      (s.load64 (slot (4096 * n) v shift) &&& 1 != 0) = false ∧ ¬ Room s ∧ newTable s = (0, s)) ∨
    ∃ c, node s (p ++ [pageIndex v shift]) = none ∧
      (s.load64 (slot (4096 * n) v shift) &&& 1 != 0) = false ∧ Room s ∧
      IsFree s.pmm c ∧ (∀ q, IsFree s.pmm q → c ≤ q) ∧ 256 ≤ c ∧ c < 1048576 ∧
      newTable s = (4096 * c, withTable s c) ∧
      (withTable s c).store64 (slot (4096 * n) v shift) (4096 * c ||| tableFlags) =
        linked s n (pageIndex v shift) c ∧
      (linked s n (pageIndex v shift) c).load64 (slot (4096 * n) v shift) &&& addressMask =
        4096 * c := by
  by_cases hpres : entryAt s p (pageIndex v shift) % 2 = 1
  · obtain ⟨c, hc, hm⟩ := enter v shift h hp hpres
    refine .inl ⟨c, hc, ?_, ?_⟩
    · rw [load_entry hn, present_iff]
      exact hpres
    · rw [load_entry hn, hm]
  · have hz := inner_even (i := pageIndex v shift) h hp (by omega)
    have hnone := (h.inner_zero_iff hp).mp hz
    have habs : (s.load64 (slot (4096 * n) v shift) &&& 1 != 0) = false := by
      rw [load_entry hn, hz]
      rfl
    obtain ⟨hnew, hno⟩ | ⟨c, hcount, hf, hmin, hnew⟩ := newTable_cases h.pmm
    · refine .inr (.inl ⟨hnone, habs, ?_, hnew⟩)
      rintro ⟨hc, hfree⟩
      rcases hno with hno | hno
      · exact hc hno
      · exact hfree (h.pmm.freePages_eq_zero.mpr hno)
    · have hb := h.pmm.bounds c hf.1
      rw [pageCount_eq] at hb
      refine .inr (.inr ⟨c, hnone, habs, ⟨hcount, ?_⟩, hf, hmin, hb.1, hb.2, hnew, ?_, ?_⟩)
      · intro hzero
        exact h.pmm.freePages_eq_zero.mp hzero c hf
      · rw [slot_eq, or_tableFlags, linked]
      · rw [load64_slot, tables_linked (by omega), if_pos ⟨rfl, rfl⟩, linkEntry_mask (by omega)]

end Level

/-- The tables that a walk from `p` along `q` would have to create. -/
def missing (s : Machine) (p : Path) : Path → ℕ
  | [] => 0
  | i :: q => (if node s (p ++ [i]) = none then 1 else 0) + missing s (p ++ [i]) q

/-- `k` more tables fit the budget and the free pages. -/
def Fits (s : Machine) (k : ℕ) : Prop := s.pagingTableCount + k ≤ maxTables ∧ k ≤ s.pmm.freePages

theorem missing_congr {s s' : Machine} {p q : Path}
    (h : ∀ r, p.length < r.length → r <+: p ++ q → (node s' r = none ↔ node s r = none)) :
    missing s' p q = missing s p q := by
  induction q generalizing p with
  | nil => rfl
  | cons i q ih =>
    have hhead := h (p ++ [i]) (by simp) ⟨q, by simp⟩
    rw [missing, missing, ih]
    · simp only [hhead]
    · intro r hlen hr
      exact h r (by simp at hlen; omega) (by simpa using hr)

/-- How a walk towards `t` may grow the tree. Leaf entries stay as they are. -/
structure Grown (s s' : Machine) (held : Finset ℕ) (t : Path) : Prop where
  inv : TreeInv s' held
  frame : Frame s s'
  kept : ∀ q n, q.length ≤ 3 → node s q = some n → node s' q = some n
  fresh : ∀ q, q.length ≤ 3 → node s q = none → node s' q ≠ none → q <+: t
  leaves : ∀ q i, q.length = 3 → entryAt s' q i = entryAt s q i

theorem Grown.refl {s : Machine} {held : Finset ℕ} (h : TreeInv s held) (t : Path) :
    Grown s s held t := ⟨h, Frame.refl s, fun _ _ _ hn => hn, fun _ _ hn hs => absurd hn hs,
      fun _ _ _ => rfl⟩

theorem Grown.trans {s s' s'' : Machine} {held : Finset ℕ} {t : Path} (h : Grown s s' held t)
    (h' : Grown s' s'' held t) : Grown s s'' held t where
  inv := h'.inv
  frame := h.frame.trans h'.frame
  kept q n hq hn := h'.kept q n hq (h.kept q n hq hn)
  fresh q hq hn hs := by
    cases hm : node s' q with
    | none => exact h'.fresh q hq hm hs
    | some m => exact h.fresh q hq hn (by rw [hm]; simp)
  leaves q i hq := (h'.leaves q i hq).trans (h.leaves q i hq)

section Link

variable {s : Machine} {held : Finset ℕ} {p : Path} {i : Fin 512} {n c : ℕ}

theorem linked_level (h : TreeInv s held) (hp : p.length ≤ 2) (hn : node s p = some n)
    (hnone : node s (p ++ [i]) = none) (hf : IsFree s.pmm c) (hmin : ∀ q, IsFree s.pmm q → c ≤ q)
    (hroom : Room s) : TreeInv (linked s n i c) held ∧ node (linked s n i c) p = some n ∧
      node (linked s n i c) (p ++ [i]) = some c := by
  have hz := (h.inner_zero_iff hp).mpr hnone
  refine ⟨(h.link hp hn hz hf hmin hroom.1).1, ?_, ?_⟩
  · rw [node_linked h hf hp hn hz p (by omega), if_neg (by simp), hn]
  · rw [node_linked h hf hp hn hz _ (by simp; omega), if_pos rfl]

theorem grown_linked (h : TreeInv s held) (hp : p.length ≤ 2) (hn : node s p = some n)
    (hnone : node s (p ++ [i]) = none) (hf : IsFree s.pmm c) (hmin : ∀ q, IsFree s.pmm q → c ≤ q)
    (hroom : Room s) {t : Path} (ht : p ++ [i] <+: t) : Grown s (linked s n i c) held t := by
  have hz := (h.inner_zero_iff hp).mpr hnone
  obtain ⟨hinv, he⟩ := h.link hp hn hz hf hmin hroom.1
  refine ⟨hinv, linked_frame h (by omega) hn hf, ?_, ?_, ?_⟩
  · intro q m hq hm
    rw [node_linked h hf hp hn hz q hq, if_neg, hm]
    rintro rfl
    rw [hnone] at hm
    exact absurd hm (by simp)
  · intro q hq hno hsome
    rw [node_linked h hf hp hn hz q hq] at hsome
    split at hsome
    · rename_i heq
      rw [heq]
      exact ht
    · exact absurd hno hsome
  · intro q j hq
    rw [he q j (by omega), if_neg]
    rintro ⟨rfl, -⟩
    omega

theorem fits_linked (hroom : Room s) (k : ℕ) : Fits (linked s n i c) k ↔ Fits s (1 + k) := by
  obtain ⟨hc, hf⟩ := hroom
  unfold Fits
  rw [linked_count, linked_pmm, takePage]
  change s.pagingTableCount + 1 + k ≤ maxTables ∧ k ≤ s.pmm.freePages - 1 ↔ _
  omega

end Link

/-- The walk of `map_page`: how it grows the tree, where it ends and when it gives up. -/
theorem descend_spec {s : Machine} {held : Finset ℕ} {p : Path} {n : ℕ} (v : ℕ) (shifts : List ℕ)
    (h : TreeInv s held) (hn : node s p = some n) (hlen : p.length + shifts.length = 3) :
    Grown s (descend v shifts (4096 * n) s).2 held (p ++ indices v shifts) ∧
    ((descend v shifts (4096 * n) s).1 = none ↔ ¬ Fits s (missing s p (indices v shifts))) ∧
    ∀ table, (descend v shifts (4096 * n) s).1 = some table →
      ∃ m, table = 4096 * m ∧
        node (descend v shifts (4096 * n) s).2 (p ++ indices v shifts) = some m := by
  induction shifts generalizing s p n with
  | nil =>
    refine ⟨Grown.refl h _, ?_, ?_⟩
    · have := h.budget
      simp [descend_nil, missing, indices, Fits, this]
    · intro table ht
      cases ht
      exact ⟨n, rfl, by simpa [indices, descend_nil] using hn⟩
  | cons shift shifts ih =>
    have hp : p.length ≤ 2 := by
      simp at hlen
      omega
    have hlen' : (p ++ [pageIndex v shift]).length + shifts.length = 3 := by
      simp at hlen ⊢
      omega
    have hpath : p ++ indices v (shift :: shifts) =
        (p ++ [pageIndex v shift]) ++ indices v shifts := by
      simp [indices]
    have hmiss : missing s p (indices v (shift :: shifts)) =
        (if node s (p ++ [pageIndex v shift]) = none then 1 else 0) +
          missing s (p ++ [pageIndex v shift]) (indices v shifts) := rfl
    rw [hpath, hmiss, descend_cons]
    obtain ⟨c, hc, hpres, hmask⟩ | ⟨hnone, habs, hno, hnew⟩ |
      ⟨c, hnone, habs, hroom, hf, hmin, hlo, hhi, hnew, hstore, hmask⟩ :=
        level_cases v shift h hp hn
    · simp only [hpres, if_true, hmask, hc]
      simpa using ih h hc hlen'
    · simp only [habs, hnone, hnew]
      refine ⟨Grown.refl h _, ?_, ?_⟩
      · simp only [Room, not_and_or, not_not] at hno
        have := h.budget
        simp [Fits]
        omega
      · intro table ht
        simp at ht
    · have hne : (4096 * c == 0) = false := by
        rw [beq_eq_false_iff_ne]
        omega
      simp only [habs, hnone, hnew, hne, hstore, hmask, if_true, Bool.false_eq_true, if_false]
      have hgrow := grown_linked (t := (p ++ [pageIndex v shift]) ++ indices v shifts) h hp hn hnone
        hf hmin hroom (List.prefix_append _ _)
      obtain ⟨-, -, hchild⟩ := linked_level h hp hn hnone hf hmin hroom
      obtain ⟨hg, hfail, hend⟩ := ih hgrow.inv hchild hlen'
      refine ⟨hgrow.trans hg, ?_, hend⟩
      rw [hfail, fits_linked hroom, missing_congr]
      intro r hr hpre
      have := hpre.length_le
      rw [List.length_append, length_indices] at this
      rw [node_linked h hf hp hn ((h.inner_zero_iff hp).mpr hnone) r (by omega), if_neg]
      rintro rfl
      exact absurd hr (lt_irrefl _)

end OsByAi.PagingGrowth
