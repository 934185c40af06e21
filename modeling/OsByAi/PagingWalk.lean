import OsByAi.PagingTree

set_option autoImplicit false

namespace OsByAi.PagingWalk
open ByteMemory PackedBitmap PmmModel PmmInvariant PagingModel PagingEntries PagingTree RadixTree

def indices (v : ℕ) (shifts : List ℕ) : Path := shifts.map (pageIndex v)

def upper (v : ℕ) : Path := indices v tableShifts

/-- The leaf entry for `v`, zero when a table on its path is missing. -/
def leafOf (s : Machine) (v : ℕ) : ℕ := entryAt s (upper v) (pageIndex v 12)

theorem length_indices (v : ℕ) (shifts : List ℕ) : (indices v shifts).length = shifts.length :=
  List.length_map _

theorem length_upper (v : ℕ) : (upper v).length = 3 := rfl

/-- The four indices are the page number, up to the bits above the 48 that are translated. -/
theorem page_eq_of_indices {v w : ℕ} (hu : upper v = upper w) (hi : pageIndex v 12 = pageIndex w 12) :
    v / 4096 % 2 ^ 36 = w / 4096 % 2 ^ 36 := by
  simp only [upper, indices, tableShifts, List.map_cons, List.map_nil, List.cons.injEq, and_true] at hu
  have h39 : v / 2 ^ 39 % 512 = w / 2 ^ 39 % 512 := congrArg Fin.val hu.1
  have h30 : v / 2 ^ 30 % 512 = w / 2 ^ 30 % 512 := congrArg Fin.val hu.2.1
  have h21 : v / 2 ^ 21 % 512 = w / 2 ^ 21 % 512 := congrArg Fin.val hu.2.2
  have h12 : v / 2 ^ 12 % 512 = w / 2 ^ 12 % 512 := congrArg Fin.val hi
  omega

theorem entryAt_below {s : Machine} {p q : Path} (h : node s p = none) (hq : p <+: q) (i : Fin 512) :
    entryAt s q i = 0 := entryAt_of_none (walk_none_below h hq) i

section Steps

variable {s : Machine} {held : Finset ℕ} {p : Path} {n v shift : ℕ}

theorem load_entry (hn : node s p = some n) :
    s.load64 (slot (4096 * n) v shift) = entryAt s p (pageIndex v shift) := by
  rw [load64_slot, entryAt_of_node hn]

theorem enter (v shift : ℕ) (h : TreeInv s held) (hp : p.length ≤ 2)
    (hpres : entryAt s p (pageIndex v shift) % 2 = 1) :
    ∃ c, node s (p ++ [pageIndex v shift]) = some c ∧
      entryAt s p (pageIndex v shift) &&& addressMask = 4096 * c := by
  obtain h0 | ⟨c, hc, he⟩ := h.inner p (pageIndex v shift) hp
  · rw [h0] at hpres
    exact absurd hpres (by decide)
  · refine ⟨c, ?_, ?_⟩
    · rw [node_concat, he, child_linkEntry hc]
    · rw [he, linkEntry_mask hc]

theorem inner_even (h : TreeInv s held) (hp : p.length ≤ 2) {i : Fin 512}
    (he : entryAt s p i % 2 = 0) : entryAt s p i = 0 := by
  obtain h0 | ⟨c, hc, hl⟩ := h.inner p i hp
  · exact h0
  · rw [hl, linkEntry] at he
    omega

theorem walkMapped_iff (h : TreeInv s held) (shifts : List ℕ) (hn : node s p = some n)
    (hlen : p.length + shifts.length = 3) :
    walkMapped s v shifts (4096 * n) = true ↔
      entryAt s (p ++ indices v shifts) (pageIndex v 12) % 2 = 1 ∧
        entryAt s (p ++ indices v shifts) (pageIndex v 12) &&& addressMask = v := by
  induction shifts generalizing p n with
  | nil =>
    simp only [walkMapped, load_entry hn, Bool.and_eq_true, present_iff, beq_iff_eq]
    simp [indices]
  | cons shift shifts ih =>
    have hp : p.length ≤ 2 := by
      simp at hlen
      omega
    have hpath : p ++ indices v (shift :: shifts) =
        (p ++ [pageIndex v shift]) ++ indices v shifts := by
      simp [indices]
    rw [walkMapped]
    simp only [load_entry hn, absent_iff]
    split
    · rename_i heven
      have hz := inner_even h hp heven
      have hnone := (h.inner_zero_iff hp).mp hz
      rw [hpath, entryAt_below hnone (List.prefix_append _ _)]
      simp
    · rename_i hodd
      obtain ⟨c, hc, hm⟩ := enter v shift h hp (by omega)
      rw [hm, hpath]
      exact ih hc (by simp at hlen ⊢; omega)

theorem leafTable_eq (h : TreeInv s held) (shifts : List ℕ) (hn : node s p = some n)
    (hlen : p.length + shifts.length = 3)
    (hpres : node s (p ++ indices v shifts) ≠ none) :
    ∃ m, leafTable s v shifts (4096 * n) = 4096 * m ∧ node s (p ++ indices v shifts) = some m := by
  induction shifts generalizing p n with
  | nil => exact ⟨n, rfl, by simpa [indices] using hn⟩
  | cons shift shifts ih =>
    have hp : p.length ≤ 2 := by
      simp at hlen
      omega
    have hpath : p ++ indices v (shift :: shifts) =
        (p ++ [pageIndex v shift]) ++ indices v shifts := by
      simp [indices]
    rw [hpath] at hpres ⊢
    have hodd : entryAt s p (pageIndex v shift) % 2 = 1 := by
      by_contra hne
      have hnone := (h.inner_zero_iff (i := pageIndex v shift) hp).mp
        (inner_even h hp (by omega))
      exact hpres (walk_none_below hnone (List.prefix_append _ _))
    obtain ⟨c, hc, hm⟩ := enter v shift h hp hodd
    rw [leafTable, load_entry hn, hm]
    exact ih hc (by simp at hlen ⊢; omega) hpres

theorem node_of_leaf {q : Path} {i : Fin 512} (hleaf : entryAt s q i ≠ 0) : ∃ m, node s q = some m := by
  cases hm : node s q with
  | none => exact absurd (entryAt_of_none hm i) hleaf
  | some m => exact ⟨m, rfl⟩

theorem path_cases (h : TreeInv s held) (v : ℕ) :
    (leafOf s v % 2 = 0 ∧ path s v = none) ∨
    ∃ n1 n2 n3, leafOf s v % 2 = 1 ∧ node s [pageIndex v 39] = some n1 ∧
      node s [pageIndex v 39, pageIndex v 30] = some n2 ∧ node s (upper v) = some n3 ∧
      path s v = some [4096 * rootFrame s, 4096 * n1, 4096 * n2, 4096 * n3] := by
  have hdown : ∀ q : Path, node s q = none → q <+: upper v → leafOf s v % 2 = 0 := by
    intro q hq hpre
    rw [leafOf, entryAt_below hq hpre]
  -- one level of the loop, at a table that is in the tree
  have step : ∀ (q : Path) (n shift : ℕ) (shifts : List ℕ), q.length ≤ 2 → node s q = some n →
      (node s (q ++ [pageIndex v shift]) = none ∧
        pathFrom s v (shift :: shifts) (4096 * n) = none) ∨
      ∃ c, node s (q ++ [pageIndex v shift]) = some c ∧
        pathFrom s v (shift :: shifts) (4096 * n) =
          (pathFrom s v shifts (4096 * c)).map (4096 * n :: ·) := by
    intro q n shift shifts hq hn
    rw [pathFrom]
    simp only [load_entry hn, absent_iff]
    split
    · rename_i he
      exact .inl ⟨(h.inner_zero_iff hq).mp (inner_even h hq he), rfl⟩
    · rename_i ho
      obtain ⟨c, hc, hm⟩ := enter v shift h hq (by omega)
      exact .inr ⟨c, hc, by rw [hm]⟩
  unfold path
  rw [h.root_eq]
  obtain ⟨hno, hp⟩ | ⟨n1, hn1, hp1⟩ := step [] (rootFrame s) 39 [30, 21, 12] (by simp) (node_nil s)
  · exact .inl ⟨hdown _ hno ⟨[pageIndex v 30, pageIndex v 21], rfl⟩, hp⟩
  obtain ⟨hno, hp⟩ | ⟨n2, hn2, hp2⟩ := step [pageIndex v 39] n1 30 [21, 12] (by simp) hn1
  · refine .inl ⟨hdown _ hno ⟨[pageIndex v 21], rfl⟩, ?_⟩
    rw [hp] at hp1
    exact hp1
  obtain ⟨hno, hp⟩ | ⟨n3, hn3, hp3⟩ :=
    step [pageIndex v 39, pageIndex v 30] n2 21 [12] (by simp) hn2
  · refine .inl ⟨hdown _ hno ⟨[], rfl⟩, ?_⟩
    rw [hp2, hp] at hp1
    exact hp1
  have hn3' : node s (upper v) = some n3 := hn3
  have hleaf : s.load64 (slot (4096 * n3) v 12) = leafOf s v := load_entry hn3'
  have hwhole : pathFrom s v (tableShifts ++ [12]) (4096 * rootFrame s) =
      (pathFrom s v [12] (4096 * n3)).map
        fun l => 4096 * rootFrame s :: 4096 * n1 :: 4096 * n2 :: l := by
    refine hp1.trans ?_
    rw [hp2, hp3]
    cases pathFrom s v [12] (4096 * n3) <;> rfl
  rw [hwhole, pathFrom]
  simp only [hleaf, absent_iff]
  split
  · rename_i he
    exact .inl ⟨he, rfl⟩
  · rename_i ho
    exact .inr ⟨n1, n2, n3, by omega, hn1, hn2, hn3', rfl⟩

end Steps

end OsByAi.PagingWalk
