import OsByAi.PagingGrowth

set_option autoImplicit false

/-!
# Machines that no later call can tell apart

Two machines agree when they differ at most in the cursor of the page manager, in
the bytes of eligible pages that are no tables and in the part of `table_pages` that
is not in use. Every
step of `paging.c` keeps agreement. A table that was linked and released again leaves
a machine that agrees with the one before, which is why rolling back is invisible.
-/
namespace OsByAi.PagingAgree
open ByteMemory PackedBitmap PmmModel PmmInvariant PagingModel PagingEntries PagingTree PagingWalk
open PagingGrowth RadixTree

structure SamePages (p q : Pmm) : Prop where
  inv : Inv p
  inv' : Inv q
  eq : q = { p with cursor := q.cursor }

namespace SamePages

variable {p q r : Pmm}

theorem refl (h : Inv p) : SamePages p p := ⟨h, h, rfl⟩

theorem trans (h : SamePages p q) (h' : SamePages q r) : SamePages p r := by
  refine ⟨h.inv, h'.inv', ?_⟩
  rw [h'.eq, h.eq]

theorem eligible (h : SamePages p q) : q.eligible = p.eligible := by rw [h.eq]
theorem allocated (h : SamePages p q) : q.allocated = p.allocated := by rw [h.eq]
theorem freePages (h : SamePages p q) : q.freePages = p.freePages := by rw [h.eq]
theorem totalPages (h : SamePages p q) : q.totalPages = p.totalPages := by rw [h.eq]
theorem ready (h : SamePages p q) : q.ready = p.ready := by rw [h.eq]

theorem isFree_iff (h : SamePages p q) (page : ℕ) : IsFree q page ↔ IsFree p page := by
  rw [IsFree, IsFree, h.eligible, h.allocated]

theorem take (h : SamePages p q) {page : ℕ} (hf : IsFree p page)
    (hmin : ∀ r, IsFree p r → page ≤ r) : SamePages (takePage p page) (takePage q page) := by
  refine ⟨h.inv.take hf hmin, h.inv'.take ((h.isFree_iff page).mpr hf) ?_, ?_⟩
  · intro r hr
    exact hmin r ((h.isFree_iff r).mp hr)
  · unfold takePage
    rw [h.allocated, h.freePages, h.eligible, h.totalPages, h.ready]

theorem give (h : SamePages p q) {page : ℕ} (hb : bit p.allocated page = true) :
    SamePages (givePage p page) (givePage q page) := by
  refine ⟨h.inv.give hb, h.inv'.give (by rw [h.allocated]; exact hb), ?_⟩
  unfold givePage
  rw [h.allocated, h.freePages, h.eligible, h.totalPages, h.ready]

/-- `pmm_alloc` is first fit, so the cursor does not show. -/
theorem alloc (h : SamePages p q) (out : Option ℕ) :
    (pmmAlloc q out).1 = (pmmAlloc p out).1 ∧ (pmmAlloc q out).2.1 = (pmmAlloc p out).2.1 ∧
      SamePages (pmmAlloc p out).2.2 (pmmAlloc q out).2.2 := by
  obtain ⟨hp, hno⟩ | ⟨page, hr, ho, hf, hmin, hp⟩ := h.inv.alloc_cases out <;>
    obtain ⟨hq, hno'⟩ | ⟨page', hr', ho', hf', hmin', hq⟩ := h.inv'.alloc_cases out
  · rw [hp, hq]
    exact ⟨rfl, rfl, h⟩
  · rcases hno with hno | hno
    · exact absurd hno ho'
    · exact absurd ((h.isFree_iff page').mp hf') (hno page')
  · rcases hno' with hno | hno
    · exact absurd hno ho
    · exact absurd ((h.isFree_iff page).mpr hf) (hno page)
  · have he : page' = page := Nat.le_antisymm (hmin' page ((h.isFree_iff page).mpr hf))
      (hmin page' ((h.isFree_iff page').mp hf'))
    subst he
    rw [hp, hq]
    exact ⟨rfl, rfl, h.take hf hmin⟩

theorem free (h : SamePages p q) (a : ℕ) :
    (pmmFree q a).1 = (pmmFree p a).1 ∧ SamePages (pmmFree p a).2 (pmmFree q a).2 := by
  obtain ⟨hp, hno⟩ | ⟨ha, hb, hp⟩ := h.inv.free_cases a <;>
    obtain ⟨hq, hno'⟩ | ⟨ha', hb', hq⟩ := h.inv'.free_cases a
  · rw [hp, hq]
    exact ⟨rfl, h⟩
  · rw [h.allocated] at hb'
    exact absurd ⟨ha', hb'⟩ hno
  · rw [h.allocated] at hno'
    exact absurd ⟨ha, hb⟩ hno'
  · rw [hp, hq]
    exact ⟨rfl, h.give hb⟩

theorem isAllocated (h : SamePages p q) (a : ℕ) : pmmIsAllocated q a = pmmIsAllocated p a := by
  unfold pmmIsAllocated
  rw [h.ready, h.eligible, h.allocated]

end SamePages

theorem samePages_take_give {p : Pmm} (h : Inv p) {c : ℕ} (hf : IsFree p c)
    (hmin : ∀ q, IsFree p q → c ≤ q) : SamePages p (givePage (takePage p c) c) := by
  have hb : bit (takePage p c).allocated c = true := by simp [takePage]
  have hpos : p.freePages ≠ 0 := fun hz => h.freePages_eq_zero.mp hz c hf
  refine ⟨h, (h.take hf hmin).give hb, ?_⟩
  unfold givePage takePage
  simp only [clear_set hf.2, Nat.sub_add_cancel (Nat.one_le_iff_ne_zero.mpr hpos)]

structure Agree (s t : Machine) : Prop where
  pmm : SamePages s.pmm t.pmm
  mem : ∀ x, bit s.pmm.eligible (x / 4096) = false ∨ 4096 * (x / 4096) ∈ liveTables s →
    t.mem x = s.mem x
  live : liveTables t = liveTables s
  cpu : t.cpu = s.cpu
  root : t.pagingRoot = s.pagingRoot
  previous : t.pagingPreviousCr3 = s.pagingPreviousCr3
  active : t.active = s.active

namespace Agree

variable {s t u : Machine}

theorem refl (h : Inv s.pmm) : Agree s s :=
  ⟨SamePages.refl h, fun _ _ => rfl, rfl, rfl, rfl, rfl, rfl⟩

theorem trans (h : Agree s t) (h' : Agree t u) : Agree s u where
  pmm := h.pmm.trans h'.pmm
  mem x hx := by
    refine (h'.mem x ?_).trans (h.mem x hx)
    rw [h.pmm.eligible, h.live]
    exact hx
  live := h'.live.trans h.live
  cpu := h'.cpu.trans h.cpu
  root := h'.root.trans h.root
  previous := h'.previous.trans h.previous
  active := h'.active.trans h.active

theorem count (h : Agree s t) : t.pagingTableCount = s.pagingTableCount := by
  rw [← length_liveTables, h.live, length_liveTables]

theorem tablePages (h : Agree s t) {k : ℕ} (hk : k < s.pagingTableCount) :
    t.tablePages k = s.tablePages k := by
  have hl := h.live
  unfold liveTables SwapArray.contents at hl
  rw [h.count] at hl
  exact List.map_inj_left.mp hl k (List.mem_range.mpr hk)

theorem store64 (h : Agree s t) (a v : ℕ) : Agree (s.store64 a v) (t.store64 a v) where
  pmm := h.pmm
  mem x hx := store_congr a 8 v (h.mem x hx)
  live := h.live
  cpu := h.cpu
  root := h.root
  previous := h.previous
  active := h.active

theorem invalidatePage (h : Agree s t) (a : ℕ) :
    Agree (s.invalidatePage a) (t.invalidatePage a) where
  pmm := h.pmm
  mem := h.mem
  live := h.live
  cpu := h.cpu
  root := h.root
  previous := h.previous
  active := h.active

theorem freePage (h : Agree s t) (a : ℕ) : Agree (freePage s a) (freePage t a) where
  pmm := (h.pmm.free a).2
  mem x hx := by
    apply h.mem
    have he : (pmmFree s.pmm a).2.eligible = s.pmm.eligible := by
      obtain ⟨hf, -⟩ | ⟨-, -, hf⟩ := h.pmm.inv.free_cases a
      · rw [hf]
      · rw [hf, givePage]
    rcases hx with hx | hx
    · exact .inl (he ▸ hx)
    · exact .inr hx
  live := h.live
  cpu := h.cpu
  root := h.root
  previous := h.previous
  active := h.active

theorem removeAt (h : Agree s t) {k : ℕ} (hk : k < s.pagingTableCount) :
    Agree
      { s with
        tablePages := SwapArray.removeAt s.tablePages s.pagingTableCount k
        pagingTableCount := s.pagingTableCount - 1 }
      { t with
        tablePages := SwapArray.removeAt t.tablePages t.pagingTableCount k
        pagingTableCount := t.pagingTableCount - 1 } := by
  refine ⟨h.pmm, fun x hx => h.mem x (hx.imp_right fun hl => ?_), ?_, h.cpu, h.root, h.previous,
    h.active⟩
  · exact SwapArray.mem_of_mem_removeAt hk hl
  change SwapArray.contents (SwapArray.removeAt t.tablePages t.pagingTableCount k)
      (t.pagingTableCount - 1) =
    SwapArray.contents (SwapArray.removeAt s.tablePages s.pagingTableCount k)
      (s.pagingTableCount - 1)
  rw [h.count]
  apply SwapArray.contents_congr
  intro j hj
  unfold SwapArray.removeAt
  by_cases hjk : j = k
  · rw [hjk, Function.update_self, Function.update_self, h.tablePages (by omega)]
  · rw [Function.update_of_ne hjk, Function.update_of_ne hjk, h.tablePages (by omega)]

theorem releaseTable (h : Agree s t) (a : ℕ) : Agree (releaseTable a s) (releaseTable a t) := by
  have hfind : (List.range t.pagingTableCount).find? (fun i => t.tablePages i == a) =
      (List.range s.pagingTableCount).find? (fun i => s.tablePages i == a) := by
    rw [h.count]
    apply List.find?_congr
    intro i hi
    rw [h.tablePages (List.mem_range.mp hi)]
  unfold PagingModel.releaseTable
  rw [hfind]
  cases hf : (List.range s.pagingTableCount).find? (fun i => s.tablePages i == a) with
  | none => exact h
  | some k =>
    exact (h.removeAt (List.mem_range.mp (List.mem_of_find?_eq_some hf))).freePage a

theorem rollback (h : Agree s t) (v : ℕ) (created : List (ℕ × ℕ)) :
    Agree (rollback v created s) (rollback v created t) := by
  induction created generalizing s t with
  | nil => exact h
  | cons link created ih => exact ih (((h.store64 link.1 0).invalidatePage v).releaseTable link.2)

theorem withTable (h : Agree s t) {c : ℕ} (hf : IsFree s.pmm c)
    (hmin : ∀ q, IsFree s.pmm q → c ≤ q) : Agree (withTable s c) (withTable t c) where
  pmm := by
    rw [withTable_pmm, withTable_pmm]
    exact h.pmm.take hf hmin
  mem x hx := by
    rw [withTable_mem, withTable_mem]
    rw [withTable_pmm, liveTables_withTable, List.mem_append, List.mem_singleton] at hx
    by_cases hc : x / 4096 = c
    · rw [if_pos hc, if_pos hc]
    · rw [if_neg hc, if_neg hc]
      apply h.mem
      rcases hx with he | hl | heq
      · exact .inl he
      · exact .inr hl
      · exact absurd (by omega) hc
  live := by rw [liveTables_withTable, liveTables_withTable, h.live]
  cpu := by rw [withTable_cpu, withTable_cpu, h.cpu]
  root := by rw [withTable_root, withTable_root, h.root]
  previous := by rw [withTable_previous, withTable_previous, h.previous]
  active := by rw [withTable_active, withTable_active, h.active]

theorem newTable (h : Agree s t) :
    (newTable t).1 = (newTable s).1 ∧ Agree (newTable s).2 (newTable t).2 := by
  obtain ⟨hs, hno⟩ | ⟨c, hcount, hf, hmin, hs⟩ := newTable_cases h.pmm.inv <;>
    obtain ⟨ht, hno'⟩ | ⟨c', hcount', hf', hmin', ht⟩ := newTable_cases h.pmm.inv'
  · rw [hs, ht]
    exact ⟨rfl, h⟩
  · rcases hno with hno | hno
    · exact absurd (h.count.trans hno) hcount'
    · exact absurd ((h.pmm.isFree_iff c').mp hf') (hno c')
  · rcases hno' with hno | hno
    · exact absurd (h.count.symm.trans hno) hcount
    · exact absurd ((h.pmm.isFree_iff c).mpr hf) (hno c)
  · have he : c' = c := Nat.le_antisymm (hmin' c ((h.pmm.isFree_iff c).mpr hf))
      (hmin c' ((h.pmm.isFree_iff c').mp hf'))
    subst he
    rw [hs, ht]
    exact ⟨rfl, h.withTable hf hmin⟩

variable {held : Finset ℕ}

theorem sameTables (h : Agree s t) : SameTables s t where
  root := h.root
  mem x hx := h.mem x (.inr hx)

theorem node_eq (h : Agree s t) (hs : TreeInv s held) {q : Path} (hq : q.length ≤ 4) :
    node t q = node s q := h.sameTables.node_eq hs hq

theorem entryAt_eq (h : Agree s t) (hs : TreeInv s held) {q : Path} (hq : q.length ≤ 3)
    (i : Fin 512) : entryAt t q i = entryAt s q i := h.sameTables.entryAt_eq hs hq i

theorem leafOf_eq (h : Agree s t) (hs : TreeInv s held) (v : ℕ) : leafOf t v = leafOf s v :=
  h.entryAt_eq hs (length_upper v).le _

theorem treeInv (h : Agree s t) (hs : TreeInv s held) : TreeInv t held := by
  refine h.sameTables.treeInv hs h.pmm.inv' h.live ?_ hs.disjoint
  intro page
  rw [h.pmm.allocated]
  exact hs.owned page

theorem load_slot (h : Agree s t) (hs : TreeInv s held) {p : Path} {n : ℕ} (hp : p.length ≤ 3)
    (hn : node s p = some n) (v shift : ℕ) :
    t.load64 (slot (4096 * n) v shift) = s.load64 (slot (4096 * n) v shift) := by
  rw [load64_slot, load64_slot, h.sameTables.tables_node hs hp hn]

end Agree

theorem agree_unlinked_linked {s : Machine} {held : Finset ℕ} {p : Path} {i : Fin 512} {n c : ℕ}
    (h : TreeInv s held) (hp : p.length ≤ 2) (hn : node s p = some n) (hz : entryAt s p i = 0)
    (hf : IsFree s.pmm c) (hmin : ∀ q, IsFree s.pmm q → c ≤ q)
    (hcount : s.pagingTableCount ≠ maxTables) (v : ℕ) :
    Agree s (unlinked (linked s n i c) v n i c) := by
  obtain ⟨hl, -⟩ := h.link hp hn hz hf hmin hcount
  have hlast : 4096 * c ∈ liveTables (linked s n i c) := by
    rw [liveTables_linked]
    simp
  have hu := unlinked_spec (n := n) (i := i) hl.pmm hl.nodup hlast
    ((hl.owned c).mpr (.inl hlast)) v
  have hframe := linked_frame (i := i) h (by omega) hn hf
  refine ⟨?_, ?_, hu.last _ liveTables_linked, hu.cpu.trans hframe.cpu,
    hu.root.trans hframe.root, hu.previous.trans hframe.previous, hu.active.trans hframe.active⟩
  · rw [hu.pmm, linked_pmm]
    exact samePages_take_give h.pmm hf hmin
  · intro x hx
    have hxc : x / 4096 ≠ c := by
      rintro rfl
      rcases hx with hx | hx
      · rw [hf.1] at hx
        exact absurd hx (by simp)
      · have := (h.owned _).mpr (.inl hx)
        rw [hf.2] at this
        exact absurd this (by simp)
    rw [hu.mem, linked, store64_mem]
    by_cases hin : 4096 * n + 8 * i.val ≤ x ∧ x < 4096 * n + 8 * i.val + 8
    · -- the entry held zero, byte by byte
      rw [store_zero _ _ _ _ hin]
      rw [entryAt_of_node hn] at hz
      exact (byte_zero_of_load hz hin).symm
    · rw [store_of_outside _ _ _ _ _ (by omega), store_of_outside _ _ _ _ _ (by omega),
        withTable_mem, if_neg hxc]

theorem mapWalk_some {v : ℕ} (shifts : List ℕ) (table : ℕ) (created : List (ℕ × ℕ)) (s : Machine)
    {leaf : ℕ} (h : (mapWalk v shifts table created s).1 = some leaf) :
    mapWalk v shifts table created s = descend v shifts table s := by
  induction shifts generalizing table created s with
  | nil => rfl
  | cons shift shifts ih =>
    rw [mapWalk] at h ⊢
    rw [descend_cons]
    simp only at h ⊢
    split
    · rename_i hpres
      rw [if_pos hpres] at h
      exact ih _ _ _ h
    · rename_i habs
      rw [if_neg habs] at h
      split
      · rename_i hz
        rw [if_pos hz] at h
        exact absurd h (by simp)
      · rename_i hz
        rw [if_neg hz] at h
        exact ih _ _ _ h

theorem mapWalk_isNone {v : ℕ} (shifts : List ℕ) (table : ℕ) (created : List (ℕ × ℕ)) (s : Machine) :
    (mapWalk v shifts table created s).1 = none ↔ (descend v shifts table s).1 = none := by
  induction shifts generalizing table created s with
  | nil => rfl
  | cons shift shifts ih =>
    rw [mapWalk, descend_cons]
    simp only
    split
    · exact ih _ _ _
    · split
      · rfl
      · exact ih _ _ _

section MapWalk

variable {s : Machine} {held : Finset ℕ} {p : Path} {n v : ℕ}

theorem mapWalk_none (shifts : List ℕ) (created : List (ℕ × ℕ)) (h : TreeInv s held)
    (hn : node s p = some n) (hlen : p.length + shifts.length = 3)
    (hfail : (mapWalk v shifts (4096 * n) created s).1 = none) :
    Agree (rollback v created s) (mapWalk v shifts (4096 * n) created s).2 := by
  induction shifts generalizing s p n created with
  | nil => exact absurd hfail (by simp [mapWalk])
  | cons shift shifts ih =>
    have hp : p.length ≤ 2 := by
      simp at hlen
      omega
    have hlen' : (p ++ [pageIndex v shift]).length + shifts.length = 3 := by
      simp at hlen ⊢
      omega
    rw [mapWalk] at hfail ⊢
    obtain ⟨c, hc, hpres, hmask⟩ | ⟨hnone, habs, hno, hnew⟩ |
      ⟨c, hnone, habs, hroom, hf, hmin, hlo, hhi, hnew, hstore, hmask⟩ :=
        level_cases v shift h hp hn
    · simp only [hpres, if_true, hmask] at hfail ⊢
      exact ih created h hc hlen' hfail
    · simp only [habs, hnew]
      exact ((Agree.refl h.pmm).rollback v created)
    · have hne : (4096 * c == 0) = false := by
        rw [beq_eq_false_iff_ne]
        omega
      simp only [habs, hnew, hne, hstore, hmask, Bool.false_eq_true, if_false] at hfail ⊢
      have hz := (h.inner_zero_iff hp).mpr hnone
      obtain ⟨hl, -, hchild⟩ := linked_level h hp hn hnone hf hmin hroom
      have hback := agree_unlinked_linked h hp hn hz hf hmin hroom.1 v
      refine (hback.rollback v created).trans ?_
      have := ih ((slot (4096 * n) v shift, 4096 * c) :: created) hl hchild hlen' hfail
      rw [slot_eq] at this ⊢
      exact this

theorem mapWalk_agree {t : Machine} (shifts : List ℕ) (created : List (ℕ × ℕ)) (h : TreeInv s held)
    (ha : Agree s t) (hn : node s p = some n) (hlen : p.length + shifts.length = 3) :
    (mapWalk v shifts (4096 * n) created t).1 = (mapWalk v shifts (4096 * n) created s).1 ∧
      Agree (mapWalk v shifts (4096 * n) created s).2 (mapWalk v shifts (4096 * n) created t).2 := by
  induction shifts generalizing s t p n created with
  | nil => exact ⟨rfl, ha⟩
  | cons shift shifts ih =>
    have hp : p.length ≤ 2 := by
      simp at hlen
      omega
    have hlen' : (p ++ [pageIndex v shift]).length + shifts.length = 3 := by
      simp at hlen ⊢
      omega
    have hload := ha.load_slot h (by omega) hn v shift
    have hnewt := ha.newTable
    rw [mapWalk, mapWalk]
    simp only [hload, hnewt.1]
    obtain ⟨c, hc, hpres, hmask⟩ | ⟨hnone, habs, hno, hnew⟩ |
      ⟨c, hnone, habs, hroom, hf, hmin, hlo, hhi, hnew, hstore, hmask⟩ :=
        level_cases v shift h hp hn
    · simp only [hpres, if_true, hmask]
      exact ih created h ha hc hlen'
    · rw [hnew] at hnewt
      simp only [habs, hnew]
      exact ⟨rfl, hnewt.2.rollback v created⟩
    · have hne : (4096 * c == 0) = false := by
        rw [beq_eq_false_iff_ne]
        omega
      rw [hnew] at hnewt
      have hstored := hnewt.2.store64 (slot (4096 * n) v shift) (4096 * c ||| tableFlags)
      rw [hstore] at hstored
      obtain ⟨hl, hnode, hchild⟩ := linked_level h hp hn hnone hf hmin hroom
      simp only [habs, hnew, hne, hstore, hmask, Bool.false_eq_true, if_false,
        hstored.load_slot hl (by omega) hnode v shift]
      exact ih _ hl hstored hchild hlen'

end MapWalk

end OsByAi.PagingAgree
