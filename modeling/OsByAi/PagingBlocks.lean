import OsByAi.PagingDynamic

set_option autoImplicit false

/-!
# The steps that a dynamic call is made of

`paging_map`, `paging_unmap` and `paging_protect` change the machine in three ways
only: they link a fresh table, write the leaf of their address and invalidate it, or
unlink an empty table, invalidate and release it. `Block` is one such step, with what
holds of the tree when it is taken. A fact about every call follows from the fact
about one step.
-/
namespace OsByAi.PagingBlocks
open ByteMemory PackedBitmap PmmModel PmmInvariant PagingModel PagingEntries PagingTree PagingWalk
open PagingGrowth PagingAgree PagingReclaim PagingDynamic RadixTree

inductive Block (held : Finset ℕ) (v : ℕ) : Machine → Machine → Prop
  | link {s : Machine} {p : Path} {i : Fin 512} {n c : ℕ} (tree : TreeInv s held)
      (depth : p.length ≤ 2) (table : node s p = some n) (vacant : node s (p ++ [i]) = none)
      (free : IsFree s.pmm c) (lowest : ∀ q, IsFree s.pmm q → c ≤ q) (room : Room s) :
      Block held v s (linked s n i c)
  | leaf {s : Machine} {n x : ℕ} (tree : TreeInv s held) (table : node s (upper v) = some n)
      (bound : x < Word64.size) (shape : x = 0 ∨ x % 2 = 1) : Block held v s (leafWritten s n v x)
  | unlink {s : Machine} {p : Path} {i : Fin 512} {n c : ℕ} (tree : TreeInv s held)
      (depth : p.length ≤ 2) (table : node s p = some n) (below : node s (p ++ [i]) = some c)
      (unused : ∀ j, entryAt s (p ++ [i]) j = 0) : Block held v s (unlinked s v n i c)

abbrev Blocks (held : Finset ℕ) (v : ℕ) : Machine → Machine → Prop := Relation.ReflTransGen (Block held v)

section Calls

variable {s : Machine} {held : Finset ℕ} {p : Path} {n v : ℕ}

/-- A walk that gives up also undoes its links one by one. Whatever agrees with the machine before
    the walk is a machine from which the links of earlier rounds can be undone. -/
theorem mapWalk_blocks (shifts : List ℕ) (created : List (ℕ × ℕ)) (h : TreeInv s held)
    (hn : node s p = some n) (hlen : p.length + shifts.length = 3)
    (hback : ∀ t, Agree s t → Blocks held v t (rollback v created t)) :
    Blocks held v s (mapWalk v shifts (4096 * n) created s).2 := by
  induction shifts generalizing s p n created with
  | nil => exact .refl
  | cons shift shifts ih =>
    have hp : p.length ≤ 2 := by
      simp at hlen
      omega
    have hlen' : (p ++ [pageIndex v shift]).length + shifts.length = 3 := by
      simp at hlen ⊢
      omega
    rw [mapWalk]
    obtain ⟨c, hc, hpres, hmask⟩ | ⟨hnone, habs, hno, hnew⟩ |
      ⟨c, hnone, habs, hroom, hf, hmin, hlo, hhi, hnew, hstore, hmask⟩ :=
        level_cases v shift h hp hn
    · simp only [hpres, if_true, hmask]
      exact ih created h hc hlen' hback
    · simp only [habs, hnew]
      exact hback s (Agree.refl h.pmm)
    · have hne : (4096 * c == 0) = false := by
        rw [beq_eq_false_iff_ne]
        omega
      simp only [habs, hnew, hne, hstore, hmask, Bool.false_eq_true, if_false]
      obtain ⟨hl, hnode, hchild⟩ := linked_level h hp hn hnone hf hmin hroom
      refine .head (.link h hp hn hnone hf hmin hroom) (ih _ hl hchild hlen' fun t ha => ?_)
      -- the link made last goes first, and what is left agrees with `s`
      have hz := (h.inner_zero_iff hp).mpr hnone
      have htree := ha.treeInv hl
      have htable : node t p = some n := (ha.node_eq hl (by omega)).trans hnode
      have hbelow : node t (p ++ [pageIndex v shift]) = some c :=
        (ha.node_eq hl (by simp; omega)).trans hchild
      have hunused : ∀ j, entryAt t (p ++ [pageIndex v shift]) j = 0 := by
        intro j
        obtain ⟨-, hedit⟩ := h.link hp hn hz hf hmin hroom.1
        rw [ha.entryAt_eq hl (by simp; omega), hedit _ _ (by simp; omega), if_neg (by simp)]
        exact entryAt_of_none hnone j
      refine .head (.unlink htree hp htable hbelow hunused) ?_
      have hagree := ((ha.store64 (4096 * n + 8 * (pageIndex v shift).val) 0).invalidatePage v).releaseTable (4096 * c)
      have := hback _ ((agree_unlinked_linked h hp hn hz hf hmin hroom.1 v).trans hagree)
      rw [slot_eq]
      exact this

theorem pagingMap_blocks (h : TreeInv s held) (physical : ℕ) (f : Flags) :
    Blocks held v s (pagingMap v physical f s).2 := by
  unfold pagingMap
  split
  · exact .refl
  rename_i hguard
  simp only [Bool.or_eq_true, Bool.not_eq_true', not_or, Bool.not_eq_false] at hguard
  obtain ⟨-, halloc⟩ := hguard
  split
  · exact .refl
  · have hwalk := mapWalk_blocks (v := v) tableShifts [] h (node_nil s) rfl fun t _ => .refl
    obtain ⟨hgrown, -, hend⟩ := descend_spec v tableShifts h (node_nil s) rfl
    rw [h.root_eq]
    cases hres : (mapWalk v tableShifts (4096 * rootFrame s) [] s).1 with
    | none =>
      rw [← Prod.eta (mapWalk v tableShifts (4096 * rootFrame s) [] s), hres]
      exact hwalk
    | some table =>
      have heq := mapWalk_some _ _ _ _ hres
      rw [heq] at hres hwalk ⊢
      obtain ⟨m, rfl, hnode⟩ := hend table hres
      have hinv := hgrown.inv
      rw [← Prod.eta (descend v tableShifts (4096 * rootFrame s) s), hres]
      generalize (descend v tableShifts (4096 * rootFrame s) s).2 = d at hwalk hnode hinv ⊢
      simp only
      split
      · exact hwalk
      · obtain ⟨hal, hb⟩ := (h.pmm.isAllocated_iff physical).mp halloc
        have hpage : physical / 4096 < 2 ^ 40 := by
          have := (h.pmm.bounds _ (h.pmm.sub _ hb)).2
          rw [pageCount_eq] at this
          omega
        have hentry : physical ||| leafFlags f = leafEntry (physical / 4096) (wantsWrite f) (!wantsExec f) := by
          rw [← or_leafFlags hpage]
          congr 1
          omega
        rw [hentry]
        exact hwalk.tail (.leaf hinv hnode (leafEntry_lt hpage _ _) (.inr (leafEntry_mod_two _ _ _)))

theorem reclaim_blocks {l : List (ℕ × ℕ)} (hs : Spine s v p l) (h : TreeInv s held) (hp : p.length ≤ 3) :
    Blocks held v s (reclaim v l s) := by
  induction l generalizing s p with
  | nil => exact .refl
  | cons link l ih =>
    cases hs with
    | child up hn hc =>
      rename_i p n c shift
      have hlen : p.length ≤ 2 := by
        simp at hp
        omega
      rw [reclaim_below hc]
      split
      · exact .refl
      · rename_i hidle
        have hempty : ∀ j, entryAt s (p ++ [pageIndex v shift]) j = 0 := by
          intro j
          by_contra hne
          exact hidle ⟨j, hne⟩
        obtain ⟨hinv, -⟩ := h.unlink hlen hn hc hempty v
        refine .head (.unlink h hlen hn hc hempty) (ih (up.congr ?_) hinv (by omega))
        intro q hq
        have := hq.length_le
        rw [node_unlinked h hlen hn hc hempty (by omega), if_neg]
        rintro rfl
        simp at this

theorem pagingUnmap_blocks (h : DynInv s held) (hv : v < Word64.size) :
    Blocks held v s (pagingUnmap v s).2 := by
  obtain ⟨-, hd | hp⟩ | ⟨n1, n2, n3, page, g, hw, hd, -, -, -, -, hn1, hn2, hn3, hp⟩ := h.find hv
  · rw [show pagingUnmap v s = (false, s) by simp [pagingUnmap, hd]]
  · rw [show pagingUnmap v s = (false, s) by simp [pagingUnmap, hp]]
  · obtain ⟨hexc, -⟩ := leafWritten_spec (h.except _) hw hn3 (.inl rfl)
    have hspine := leafWritten_spine (h.except _) hw hn1 hn2 hn3
    have hreclaim := reclaim_blocks hspine hexc.tree (length_upper v).le
    refine .head (.leaf h.tree hn3 (by decide) (.inl rfl)) ?_
    simp only [pagingUnmap, hd, hp, Bool.not_true, Bool.false_eq_true, if_false]
    exact hreclaim

theorem pagingProtect_blocks (h : DynInv s held) (hv : v < Word64.size) (f : Flags) :
    Blocks held v s (pagingProtect v f s).2 := by
  cases hf : validFlags f with
  | false =>
    rw [show pagingProtect v f s = (false, s) by simp [pagingProtect, hf]]
  | true =>
    obtain ⟨-, hd | hp⟩ | ⟨n1, n2, n3, page, g, hw, hd, hpage, -, hl, -, hn1, hn2, hn3, hp⟩ := h.find hv
    · rw [show pagingProtect v f s = (false, s) by simp [pagingProtect, hd]]
    · rw [show pagingProtect v f s = (false, s) by simp [pagingProtect, hp]]
    · have hleaf : s.load64 (slot (4096 * n3) v 12) = leafOf s v := load_entry hn3
      simp only [pagingProtect, hd, hp, hf, hleaf, hl, leafEntry_mask hpage, or_leafFlags hpage,
        Bool.not_true, Bool.or_self, Bool.false_eq_true, if_false]
      exact .single (.leaf h.tree hn3 (leafEntry_lt hpage _ _) (.inr (leafEntry_mod_two _ _ _)))

end Calls

section Held

variable {s t : Machine} {held : Finset ℕ} {v : ℕ}

def KeepsHeld (held : Finset ℕ) (s t : Machine) : Prop := ∀ x, x / 4096 ∈ held → t.mem x = s.mem x

theorem KeepsHeld.trans {u : Machine} (h : KeepsHeld held s t) (h' : KeepsHeld held t u) : KeepsHeld held s u :=
  fun x hx => (h' x hx).trans (h x hx)

theorem store_keepsHeld {p : Path} {n : ℕ} (h : TreeInv s held) (hp : p.length ≤ 3) (hn : node s p = some n)
    (i : Fin 512) (w : ℕ) : KeepsHeld held s (s.store64 (4096 * n + 8 * i.val) w) := by
  intro x hx
  rw [store64_mem, store_other_page]
  rintro rfl
  exact h.disjoint _ hx (h.node_live hp hn)

theorem Block.keepsHeld (h : Block held v s t) : KeepsHeld held s t := by
  cases h with
  | link tree depth table vacant free lowest room =>
    intro x hx
    have hxc := tree.disjoint _ hx
    rw [linked, store64_mem, store_other_page, withTable_mem, if_neg]
    · rintro rfl
      have := (tree.owned _).mpr (.inr hx)
      rw [free.2] at this
      exact absurd this (by simp)
    · rintro rfl
      exact hxc (tree.node_live (by omega) table)
  | leaf tree table bound shape =>
    have := store_keepsHeld tree (length_upper v).le table (pageIndex v 12)
    rw [← slot_eq] at this
    exact this _
  | unlink tree depth table below unused =>
    obtain ⟨-, -, -, hu⟩ := tree.unlink depth table below unused v
    intro x hx
    rw [hu.mem]
    exact store_keepsHeld tree (by omega) table _ 0 x hx

theorem Blocks.keepsHeld (h : Blocks held v s t) : KeepsHeld held s t := by
  induction h with
  | refl => exact fun _ _ => rfl
  | tail _ hb ih => exact ih.trans hb.keepsHeld

end Held

end OsByAi.PagingBlocks
