import OsByAi.PagingAgree

set_option autoImplicit false

namespace OsByAi.PagingReclaim
open ByteMemory PackedBitmap PmmModel PmmInvariant PagingModel PagingEntries PagingTree PagingWalk
open PagingGrowth PagingAgree

/-- The tables below the root on the way to `p`, the deepest first, each with its link. -/
inductive Spine (s : Machine) (v : ℕ) : Path → List (ℕ × ℕ) → Prop
  | root : Spine s v [] []
  | child {p : Path} {l : List (ℕ × ℕ)} {n c shift : ℕ} (up : Spine s v p l)
      (hn : node s p = some n) (hc : node s (p ++ [pageIndex v shift]) = some c) :
      Spine s v (p ++ [pageIndex v shift]) ((4096 * c, slot (4096 * n) v shift) :: l)

theorem Spine.congr {s s' : Machine} {v : ℕ} {p : Path} {l : List (ℕ × ℕ)} (h : Spine s v p l)
    (hnode : ∀ q, q <+: p → node s' q = node s q) : Spine s' v p l := by
  induction h with
  | root => exact .root
  | child up hn hc ih =>
    refine .child (ih fun q hq => hnode q (hq.trans (List.prefix_append _ _))) ?_ ?_
    · rw [hnode _ (List.prefix_append _ _), hn]
    · rw [hnode _ (List.prefix_refl _), hc]

/-- How tables leave the tree: only empty ones on the way to `t`, and no leaf changes. -/
structure Shrunk (s s' : Machine) (held : Finset ℕ) (t : Path) : Prop where
  inv : TreeInv s' held
  frame : Frame s s'
  kept : ∀ q n, q.length ≤ 3 → node s' q = some n → node s q = some n
  gone : ∀ q, q.length ≤ 3 → node s q ≠ none → node s' q = none → q <+: t ∧ q ≠ []
  leaves : ∀ q i, q.length = 3 → entryAt s' q i = entryAt s q i
  inUse : ∀ q, q ≠ [] → q <+: t → node s' q ≠ none → ∃ i, entryAt s' q i ≠ 0

theorem tableInUse_iff {s : Machine} {q : Path} {c : ℕ} (hc : node s q = some c) :
    tableInUse s (4096 * c) = true ↔ ∃ i, entryAt s q i ≠ 0 := by
  unfold tableInUse
  rw [List.any_eq_true]
  constructor
  · rintro ⟨i, hi, hne⟩
    refine ⟨⟨i, List.mem_range.mp hi⟩, ?_⟩
    rw [entryAt_of_node hc]
    exact bne_iff_ne.mp hne
  · rintro ⟨i, hne⟩
    refine ⟨i.val, List.mem_range.mpr i.isLt, bne_iff_ne.mpr ?_⟩
    rw [entryAt_of_node hc] at hne
    exact hne

section Reclaim

variable {s : Machine} {held : Finset ℕ} {v : ℕ} {p : Path} {l : List (ℕ × ℕ)}

theorem inUse_above (h : TreeInv s held) {t q : Path} (ht : t.length ≤ 3) (hn : node s t ≠ none)
    (hq : q <+: t) (hne : q ≠ t) : ∃ i, entryAt s q i ≠ 0 := by
  obtain ⟨r, rfl⟩ := hq
  cases r with
  | nil => exact absurd (by simp) hne
  | cons i r =>
    refine ⟨i, fun hz => hn ?_⟩
    have hlen : q.length ≤ 2 := by
      simp at ht
      omega
    have hnone := (h.inner_zero_iff hlen).mp hz
    exact RadixTree.walk_none_below hnone ⟨r, by simp⟩

theorem node_unlinked (h : TreeInv s held) {i : Fin 512} {n c : ℕ} (hp : p.length ≤ 2)
    (hn : node s p = some n) (hc : node s (p ++ [i]) = some c)
    (hempty : ∀ j, entryAt s (p ++ [i]) j = 0) {q : Path} (hq : q.length ≤ 3) :
    node (unlinked s v n i c) q = if q = p ++ [i] then none else node s q := by
  obtain ⟨-, he, hf, -⟩ := h.unlink hp hn hc hempty v
  rw [Edit.node_eq he hf.root hq, child_zero]

theorem reclaim_below {n c shift : ℕ} (hc : node s (p ++ [pageIndex v shift]) = some c) :
    reclaim v ((4096 * c, slot (4096 * n) v shift) :: l) s =
      if ∃ i, entryAt s (p ++ [pageIndex v shift]) i ≠ 0 then s
      else reclaim v l (unlinked s v n (pageIndex v shift) c) := by
  rw [reclaim]
  simp only [tableInUse_iff hc, slot_eq]
  rfl

theorem reclaim_spec (hs : Spine s v p l) (h : TreeInv s held) (hp : p.length ≤ 3) :
    Shrunk s (reclaim v l s) held p := by
  induction l generalizing s p with
  | nil =>
    cases hs
    refine ⟨h, Frame.refl s, fun _ _ _ hn => hn, fun _ _ hn hnone => absurd hnone hn,
      fun _ _ _ => rfl, ?_⟩
    intro q hne hq
    exact absurd (List.prefix_nil.mp hq) hne
  | cons link l ih =>
    cases hs with
    | child up hn hc =>
      rename_i p n c shift
      have hlen : p.length ≤ 2 := by
        simp at hp
        omega
      rw [reclaim_below hc]
      split
      · rename_i huse
        refine ⟨h, Frame.refl s, fun _ _ _ hn => hn, fun _ _ hn hnone => absurd hnone hn,
          fun _ _ _ => rfl, ?_⟩
        intro q _ hq _
        by_cases heq : q = p ++ [pageIndex v shift]
        · rw [heq]
          exact huse
        · exact inUse_above h hp (by rw [hc]; simp) hq heq
      · rename_i hidle
        have hempty : ∀ j, entryAt s (p ++ [pageIndex v shift]) j = 0 := by
          intro j
          by_contra hne
          exact hidle ⟨j, hne⟩
        obtain ⟨hinv, hedit, hframe, -⟩ := h.unlink hlen hn hc hempty v
        have hnode : ∀ q : Path, q.length ≤ 3 →
            node (unlinked s v n (pageIndex v shift) c) q =
              if q = p ++ [pageIndex v shift] then none else node s q :=
          fun q hq => node_unlinked h hlen hn hc hempty hq
        have hup : Spine (unlinked s v n (pageIndex v shift) c) v p l := by
          apply up.congr
          intro q hq
          have := hq.length_le
          rw [hnode q (by omega), if_neg]
          rintro rfl
          simp at this
        obtain ⟨inv, frame, kept, gone, leaves, inUse⟩ := ih hup hinv (by omega)
        refine ⟨inv, hframe.trans frame, ?_, ?_, ?_, ?_⟩
        · intro q m hq hm
          have := kept q m hq hm
          rw [hnode q hq] at this
          split at this
          · exact absurd this (by simp)
          · exact this
        · intro q hq hsome hnone
          by_cases heq : q = p ++ [pageIndex v shift]
          · rw [heq]
            exact ⟨List.prefix_refl _, by simp⟩
          · obtain ⟨hpre, hne⟩ := gone q hq (by rw [hnode q hq, if_neg heq]; exact hsome) hnone
            exact ⟨hpre.trans (List.prefix_append _ _), hne⟩
        · intro q j hq
          rw [leaves q j hq, hedit q j (by omega), if_neg]
          rintro ⟨rfl, -⟩
          omega
        · intro q hne hq hsome
          rcases List.prefix_concat_iff.mp hq with heq | hpre
          · -- the released table itself is gone
            exfalso
            cases hm : node (reclaim v l (unlinked s v n (pageIndex v shift) c)) q with
            | none => exact hsome hm
            | some m =>
              have := kept q m (by rw [heq]; exact hp) hm
              rw [hnode q (by rw [heq]; exact hp), if_pos heq] at this
              exact absurd this (by simp)
          · exact inUse q hne hpre hsome

theorem reclaim_agree {t : Machine} (hs : Spine s v p l) (h : TreeInv s held) (hp : p.length ≤ 3)
    (ha : Agree s t) : Agree (reclaim v l s) (reclaim v l t) := by
  induction l generalizing s t p with
  | nil => exact ha
  | cons link l ih =>
    cases hs with
    | child up hn hc =>
      rename_i p n c shift
      have hlen : p.length ≤ 2 := by
        simp at hp
        omega
      have hct : node t (p ++ [pageIndex v shift]) = some c := (ha.node_eq h (by omega)).trans hc
      rw [reclaim_below hc, reclaim_below hct]
      simp only [ha.entryAt_eq h hp]
      split
      · exact ha
      · rename_i hidle
        have hempty : ∀ j, entryAt s (p ++ [pageIndex v shift]) j = 0 := by
          intro j
          by_contra hne
          exact hidle ⟨j, hne⟩
        obtain ⟨hinv, -, -, -⟩ := h.unlink hlen hn hc hempty v
        refine ih (up.congr ?_) hinv (by omega)
          (((ha.store64 _ 0).invalidatePage v).releaseTable _)
        intro q hq
        have := hq.length_le
        rw [node_unlinked h hlen hn hc hempty (by omega), if_neg]
        rintro rfl
        simp at this

end Reclaim

end OsByAi.PagingReclaim
