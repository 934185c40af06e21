import OsByAi.PagingReclaim

set_option autoImplicit false

namespace OsByAi.PagingDynamic
open ByteMemory PackedBitmap PmmModel PmmInvariant PagingModel PagingEntries PagingTree PagingWalk
open PagingGrowth PagingAgree PagingReclaim RadixTree

def Window (v : ℕ) : Prop :=
  v % 4096 = 0 ∧ pagingDynamicBase ≤ v ∧ v < pagingDynamicBase + pagingDynamicSize

instance (v : ℕ) : Decidable (Window v) := inferInstanceAs (Decidable (_ ∧ _ ∧ _))

theorem Window.slot {v : ℕ} (h : Window v) : pageIndex v 39 = 256 := by
  obtain ⟨-, hlo, hhi⟩ := h
  unfold pagingDynamicBase at hlo hhi
  unfold pagingDynamicSize at hhi
  apply Fin.ext
  change v / 2 ^ 39 % 512 = 256
  omega

theorem Window.head {v : ℕ} (h : Window v) : (upper v).head? = some 256 := by
  rw [← h.slot]
  rfl

theorem Window.ext {v w : ℕ} (hv : Window v) (hw : Window w) (hu : upper v = upper w)
    (hi : pageIndex v 12 = pageIndex w 12) : v = w := by
  obtain ⟨hva, hvlo, hvhi⟩ := hv
  obtain ⟨hwa, hwlo, hwhi⟩ := hw
  unfold pagingDynamicBase at *
  unfold pagingDynamicSize at *
  have hpage := page_eq_of_indices hu hi
  omega

theorem dynamicAddress_iff {s : Machine} {v : ℕ} (hv : v < Word64.size) :
    dynamicAddress s v = true ↔ s.active = true ∧ s.cpu.rflags &&& 0x200 = 0 ∧ Window v := by
  have hal : v &&& 4095 = v % 4096 := Word64.and_low v 12
  simp only [dynamicAddress, Bool.and_eq_true, beq_iff_eq, decide_eq_true_eq, hal, Window]
  constructor
  · rintro ⟨⟨⟨⟨ha, hr⟩, hm⟩, hlo⟩, hhi⟩
    rw [Word64.sub_eq hlo hv] at hhi
    exact ⟨ha, hr, hm, hlo, by omega⟩
  · rintro ⟨ha, hr, hm, hlo, hhi⟩
    rw [Word64.sub_eq hlo hv]
    exact ⟨⟨⟨⟨ha, hr⟩, hm⟩, hlo⟩, by omega⟩

/-- What the tables say about a window address. -/
def dynamicMap (s : Machine) (v : ℕ) : Option (ℕ × Flags) :=
  if Window v ∧ leafOf s v % 2 = 1 then some (leafOf s v &&& addressMask, entryFlags (leafOf s v))
  else none

structure SameOutside (s s' : Machine) : Prop where
  node : ∀ q, q.length ≤ 3 → q.head? ≠ some 256 → node s' q = node s q
  leaf : ∀ q i, q.length = 3 → q.head? ≠ some 256 → entryAt s' q i = entryAt s q i

theorem SameOutside.trans {s t u : Machine} (h : SameOutside s t) (h' : SameOutside t u) :
    SameOutside s u :=
  ⟨fun q hq hne => (h'.node q hq hne).trans (h.node q hq hne),
    fun q i hq hne => (h'.leaf q i hq hne).trans (h.leaf q i hq hne)⟩

/-- The window's leaf entries are zero or as `paging_map` writes them. -/
def LeafShape (w : ℕ) : Prop :=
  w = 0 ∨ ∃ page f, page < 2 ^ 40 ∧ validFlags f = true ∧
    w = leafEntry page (wantsWrite f) (!wantsExec f)

structure DynInv (s : Machine) (held : Finset ℕ) : Prop where
  tree : TreeInv s held
  active : s.active = true
  interruptsOff : s.cpu.rflags &&& 0x200 = 0
  inUse : ∀ q, q.length ≤ 3 → q.head? = some 256 → node s q ≠ none → ∃ i, entryAt s q i ≠ 0
  shape : ∀ v, Window v → LeafShape (leafOf s v)

section Reading

variable {s s' : Machine} {held : Finset ℕ} {v page : ℕ} {f : Flags}

theorem dynamicMap_of_zero (hl : leafOf s v = 0) : dynamicMap s v = none := by
  unfold dynamicMap
  rw [hl, if_neg (by simp)]

theorem dynamicMap_of_leaf (hv : Window v) (hp : page < 2 ^ 40) (hf : validFlags f = true)
    (hl : leafOf s v = leafEntry page (wantsWrite f) (!wantsExec f)) :
    dynamicMap s v = some (4096 * page, f) := by
  unfold dynamicMap
  rw [hl, if_pos ⟨hv, leafEntry_mod_two _ _ _⟩, leafEntry_mask hp, entryFlags_leafEntry hp hf]

theorem dynamicMap_outside (hv : ¬ Window v) : dynamicMap s v = none := by
  unfold dynamicMap
  exact if_neg fun h => hv h.1

theorem dynamicMap_none_iff (hv : Window v) : dynamicMap s v = none ↔ leafOf s v % 2 = 0 := by
  unfold dynamicMap
  by_cases h : leafOf s v % 2 = 1
  · rw [if_pos ⟨hv, h⟩, h]
    simp
  · rw [if_neg fun hc => h hc.2]
    exact iff_of_true rfl (by omega)

theorem dynamicMap_congr (h : ∀ w, Window w → leafOf s' w = leafOf s w) :
    dynamicMap s' = dynamicMap s := by
  funext w
  by_cases hw : Window w
  · unfold dynamicMap
    rw [h w hw]
  · rw [dynamicMap_outside hw, dynamicMap_outside hw]

theorem dynamicMap_update {x : Option (ℕ × Flags)}
    (h : ∀ w, Window w → w ≠ v → leafOf s' w = leafOf s w) (hx : dynamicMap s' v = x) :
    dynamicMap s' = Function.update (dynamicMap s) v x := by
  funext w
  by_cases hwv : w = v
  · rw [hwv, Function.update_self, hx]
  · rw [Function.update_of_ne hwv]
    by_cases hw : Window w
    · unfold dynamicMap
      rw [h w hw hwv]
    · rw [dynamicMap_outside hw, dynamicMap_outside hw]

theorem leafOf_edit {x : ℕ} (hv : Window v) (he : Edit s s' (upper v) (pageIndex v 12) x) {w : ℕ}
    (hw : Window w) : leafOf s' w = if w = v then x else leafOf s w := by
  rw [leafOf, he _ _ (length_upper w).le, leafOf]
  by_cases hwv : w = v
  · rw [hwv, if_pos ⟨rfl, rfl⟩, if_pos rfl]
  · rw [if_neg hwv, if_neg fun hc => hwv (hw.ext hv hc.1 hc.2)]

theorem sameOutside_edit {x : ℕ} (hv : Window v) (hroot : s'.pagingRoot = s.pagingRoot)
    (he : Edit s s' (upper v) (pageIndex v 12) x) : SameOutside s s' := by
  refine ⟨?_, ?_⟩
  · intro q hq _
    rw [Edit.node_eq he hroot hq, if_neg]
    rintro rfl
    simp [length_upper] at hq
  · intro q i hq hne
    rw [he q i (by omega), if_neg]
    rintro ⟨rfl, -⟩
    exact hne hv.head

end Reading

section Agreement

variable {s t : Machine} {held : Finset ℕ}

theorem SameTables.sameOutside (hs : SameTables s t) (h : TreeInv s held) : SameOutside s t :=
  ⟨fun _ hq _ => hs.node_eq h (by omega), fun _ i hq _ => hs.entryAt_eq h (by omega) i⟩

theorem SameTables.dynamicMap_eq (hs : SameTables s t) (h : TreeInv s held) :
    dynamicMap t = dynamicMap s :=
  dynamicMap_congr fun w _ => hs.entryAt_eq h (length_upper w).le _

theorem DynInv.sameTables {held' : Finset ℕ} (h : DynInv s held) (hs : SameTables s t)
    (ht : TreeInv t held') (hcpu : t.cpu = s.cpu) (hact : t.active = s.active) : DynInv t held' where
  tree := ht
  active := hact.trans h.active
  interruptsOff := by
    rw [hcpu]
    exact h.interruptsOff
  inUse q hq hhead hn := by
    rw [hs.node_eq h.tree (by omega)] at hn
    obtain ⟨i, hi⟩ := h.inUse q hq hhead hn
    exact ⟨i, by rw [hs.entryAt_eq h.tree hq]; exact hi⟩
  shape v hv := by
    rw [leafOf, hs.entryAt_eq h.tree (length_upper v).le]
    exact h.shape v hv

theorem DynInv.agree (h : DynInv s held) (ha : Agree s t) : DynInv t held :=
  h.sameTables ha.sameTables (ha.treeInv h.tree) ha.cpu ha.active

end Agreement

section Shape

variable {s s' : Machine} {held : Finset ℕ} {q t : Path}

theorem inner_nonzero (h : TreeInv s held) (h' : TreeInv s' held) (hq : q.length ≤ 2) {i : Fin 512}
    (hn : node s (q ++ [i]) ≠ none → node s' (q ++ [i]) ≠ none) (hne : entryAt s q i ≠ 0) :
    entryAt s' q i ≠ 0 :=
  fun hz => hn (fun hnone => hne ((h.inner_zero_iff hq).mpr hnone)) ((h'.inner_zero_iff hq).mp hz)

theorem head_of_initial (ht : t.head? = some 256) (hq : q <+: t) (hne : q ≠ []) :
    q.head? = some 256 := by
  obtain ⟨r, rfl⟩ := hq
  cases q with
  | nil => exact absurd rfl hne
  | cons i q => exact ht

theorem Grown.sameOutside (hg : Grown s s' held t) (ht : t.head? = some 256) : SameOutside s s' := by
  refine ⟨?_, fun q i hq _ => hg.leaves q i hq⟩
  intro q hq hne
  cases hn : node s q with
  | some n => exact hg.kept q n hq hn
  | none =>
    by_contra hsome
    refine hne (head_of_initial ht (hg.fresh q hq hn hsome) ?_)
    rintro rfl
    exact absurd hn (by simp [node_nil])

theorem Shrunk.sameOutside (hs : Shrunk s s' held t) (ht : t.head? = some 256) :
    SameOutside s s' := by
  refine ⟨?_, fun q i hq _ => hs.leaves q i hq⟩
  intro q hq hne
  cases hn : node s' q with
  | some n => exact (hs.kept q n hq hn).symm
  | none =>
    by_contra hsome
    obtain ⟨hpre, hnil⟩ := hs.gone q hq (fun he => hsome he.symm) hn
    exact hne (head_of_initial ht hpre hnil)

end Shape

section Calls

variable {s : Machine} {held : Finset ℕ} {v : ℕ} {f : Flags}

theorem DynInv.dynamicAddress_iff (h : DynInv s held) (hv : v < Word64.size) :
    dynamicAddress s v = true ↔ Window v := by
  rw [PagingDynamic.dynamicAddress_iff hv, h.active]
  simp [h.interruptsOff]

theorem DynInv.find (h : DynInv s held) (hv : v < Word64.size) :
    (dynamicMap s v = none ∧ (dynamicAddress s v = false ∨ path s v = none)) ∨
    ∃ n1 n2 n3 page g, Window v ∧ dynamicAddress s v = true ∧ page < 2 ^ 40 ∧ validFlags g = true ∧
      leafOf s v = leafEntry page (wantsWrite g) (!wantsExec g) ∧
      dynamicMap s v = some (4096 * page, g) ∧
      node s [pageIndex v 39] = some n1 ∧ node s [pageIndex v 39, pageIndex v 30] = some n2 ∧
      node s (upper v) = some n3 ∧
      path s v = some [4096 * rootFrame s, 4096 * n1, 4096 * n2, 4096 * n3] := by
  by_cases hw : Window v
  · have hd := (h.dynamicAddress_iff hv).mpr hw
    obtain ⟨heven, hp⟩ | ⟨n1, n2, n3, hodd, hn1, hn2, hn3, hp⟩ := path_cases h.tree v
    · exact .inl ⟨(dynamicMap_none_iff hw).mpr heven, .inr hp⟩
    · rcases h.shape v hw with hz | ⟨page, g, hpage, hg, hl⟩
      · rw [hz] at hodd
        exact absurd hodd (by decide)
      · exact .inr ⟨n1, n2, n3, page, g, hw, hd, hpage, hg, hl, dynamicMap_of_leaf hw hpage hg hl,
          hn1, hn2, hn3, hp⟩
  · refine .inl ⟨dynamicMap_outside hw, .inl ?_⟩
    rw [← Bool.not_eq_true]
    exact fun hd => hw ((h.dynamicAddress_iff hv).mp hd)

theorem query_cases (h : DynInv s held) (hv : v < Word64.size) (physical : ℕ) (flags : Flags) :
    (dynamicMap s v = none ∧
      pagingQuery v (some physical) (some flags) s = (false, some physical, some flags)) ∨
    ∃ a g, dynamicMap s v = some (a, g) ∧
      pagingQuery v (some physical) (some flags) s = (true, some a, some g) := by
  obtain ⟨hm, hd | hp⟩ | ⟨n1, n2, n3, page, g, hw, hd, hpage, hg, hl, hm, hn1, hn2, hn3, hp⟩ :=
    h.find hv
  · exact .inl ⟨hm, by simp [pagingQuery, hd]⟩
  · exact .inl ⟨hm, by simp [pagingQuery, hp]⟩
  · refine .inr ⟨4096 * page, g, hm, ?_⟩
    simp only [pagingQuery, hd, hp, load_entry hn3, Option.isNone_some, Bool.not_true, Bool.or_self,
      Bool.false_eq_true, if_false]
    rw [show entryAt s (upper v) (pageIndex v 12) = leafOf s v from rfl, hl, leafEntry_mask hpage,
      entryFlags_leafEntry hpage hg]

/-- What a successful call leaves: a new value at `v` and nothing else in sight. -/
structure Changed (s s' : Machine) (held : Finset ℕ) (v : ℕ) (x : Option (ℕ × Flags)) : Prop where
  inv : DynInv s' held
  frame : Frame s s'
  outside : SameOutside s s'
  map : dynamicMap s' = Function.update (dynamicMap s) v x

/-- `DynInv` in the middle of a call, when tables on the way to `t` may be empty. -/
structure DynExcept (s : Machine) (held : Finset ℕ) (t : Path) : Prop where
  tree : TreeInv s held
  active : s.active = true
  interruptsOff : s.cpu.rflags &&& 0x200 = 0
  inUse : ∀ q, q.length ≤ 3 → q.head? = some 256 → ¬ q <+: t → node s q ≠ none →
    ∃ i, entryAt s q i ≠ 0
  shape : ∀ v, Window v → LeafShape (leafOf s v)

theorem DynInv.except (h : DynInv s held) (t : Path) : DynExcept s held t :=
  ⟨h.tree, h.active, h.interruptsOff, fun q hq hhead _ => h.inUse q hq hhead, h.shape⟩

/-- A path with a leaf at its end has no empty table. -/
theorem DynExcept.close (h : DynExcept s held (upper v)) (hne : leafOf s v ≠ 0) : DynInv s held := by
  refine ⟨h.tree, h.active, h.interruptsOff, ?_, h.shape⟩
  intro q hq hhead hn
  by_cases hpre : q <+: upper v
  · by_cases heq : q = upper v
    · rw [heq]
      exact ⟨_, hne⟩
    · obtain ⟨m, hm⟩ := node_of_leaf hne
      exact inUse_above h.tree (length_upper v).le (by rw [hm]; simp) hpre heq
  · exact h.inUse q hq hhead hpre hn

theorem DynExcept.grow {s' : Machine} (h : DynInv s held) (hg : Grown s s' held (upper v)) :
    DynExcept s' held (upper v) := by
  refine ⟨hg.inv, hg.frame.active.trans h.active, by rw [hg.frame.cpu]; exact h.interruptsOff, ?_, ?_⟩
  · intro q hq hhead hpre hn
    have hold : node s q ≠ none := fun hnone => hpre (hg.fresh q hq hnone hn)
    obtain ⟨i, hi⟩ := h.inUse q hq hhead hold
    refine ⟨i, ?_⟩
    by_cases hlen : q.length ≤ 2
    · refine inner_nonzero h.tree hg.inv hlen ?_ hi
      intro hsome
      cases hm : node s (q ++ [i]) with
      | none => exact absurd hm hsome
      | some m =>
        rw [hg.kept _ m (by simp; omega) hm]
        simp
    · rw [hg.leaves q i (by omega)]
      exact hi
  · intro w hw
    rw [leafOf, hg.leaves _ _ (length_upper w)]
    exact h.shape w hw

theorem DynExcept.shrink {s' : Machine} (h : DynExcept s held (upper v))
    (hs : Shrunk s s' held (upper v)) : DynInv s' held := by
  refine ⟨hs.inv, hs.frame.active.trans h.active, by rw [hs.frame.cpu]; exact h.interruptsOff, ?_, ?_⟩
  · intro q hq hhead hn
    by_cases hpre : q <+: upper v
    · refine hs.inUse q ?_ hpre hn
      rintro rfl
      exact absurd hhead (by simp)
    · have hold : node s q ≠ none := by
        cases hm : node s' q with
        | none => exact absurd hm hn
        | some m =>
          rw [hs.kept q m hq hm]
          simp
      obtain ⟨i, hi⟩ := h.inUse q hq hhead hpre hold
      refine ⟨i, ?_⟩
      by_cases hlen : q.length ≤ 2
      · refine inner_nonzero h.tree hs.inv hlen ?_ hi
        intro hsome hnone
        exact hpre ((List.prefix_append _ _).trans (hs.gone _ (by simp; omega) hsome hnone).1)
      · rw [hs.leaves q i (by omega)]
        exact hi
  · intro w hww
    rw [leafOf, hs.leaves _ _ (length_upper w)]
    exact h.shape w hww

theorem LeafShape.lt {x : ℕ} (h : LeafShape x) : x < Word64.size := by
  obtain rfl | ⟨page, g, hpage, -, rfl⟩ := h
  · decide
  · exact leafEntry_lt hpage _ _

theorem LeafShape.parity {x : ℕ} (h : LeafShape x) : x = 0 ∨ x % 2 = 1 := by
  obtain rfl | ⟨page, g, -, -, rfl⟩ := h
  · exact .inl rfl
  · exact .inr (leafEntry_mod_two _ _ _)

def leafWritten (s : Machine) (n v x : ℕ) : Machine :=
  (s.store64 (slot (4096 * n) v 12) x).invalidatePage v

theorem leafWritten_spec {n x : ℕ} (h : DynExcept s held (upper v)) (hw : Window v)
    (hn : node s (upper v) = some n) (hx : LeafShape x) :
    DynExcept (leafWritten s n v x) held (upper v) ∧ Frame s (leafWritten s n v x) ∧
      SameOutside s (leafWritten s n v x) ∧
      (∀ q, q.length ≤ 3 → node (leafWritten s n v x) q = node s q) ∧
      ∀ w, Window w → leafOf (leafWritten s n v x) w = if w = v then x else leafOf s w := by
  obtain ⟨hwritten, hedit'⟩ :=
    h.tree.writeLeaf (i := pageIndex v 12) (length_upper v) hn hx.lt hx.parity
  have hstore := store_frame (i := pageIndex v 12) h.tree (length_upper v).le hn x
  rw [← slot_eq] at hwritten hedit' hstore
  have htree : TreeInv (leafWritten s n v x) held := hwritten.congr rfl rfl rfl rfl rfl
  have hedit : Edit s (leafWritten s n v x) (upper v) (pageIndex v 12) x := hedit'
  have hframe : Frame s (leafWritten s n v x) :=
    ⟨hstore.cpu, hstore.root, hstore.previous, hstore.active, hstore.ready, hstore.eligible,
      hstore.total, hstore.mem⟩
  generalize leafWritten s n v x = s' at htree hedit hframe ⊢
  have hnode : ∀ q, q.length ≤ 3 → node s' q = node s q := by
    intro q hq
    rw [Edit.node_eq hedit hframe.root hq, if_neg]
    rintro rfl
    simp [length_upper] at hq
  have hleaf : ∀ w, Window w → leafOf s' w = if w = v then x else leafOf s w :=
    fun w hww => leafOf_edit hw hedit hww
  refine ⟨⟨htree, hframe.active.trans h.active, ?_, ?_, ?_⟩, hframe,
    sameOutside_edit hw hframe.root hedit, hnode, hleaf⟩
  · rw [hframe.cpu]
    exact h.interruptsOff
  · intro q hq hhead hpre hsome
    rw [hnode q hq] at hsome
    obtain ⟨i, hi⟩ := h.inUse q hq hhead hpre hsome
    refine ⟨i, ?_⟩
    rw [hedit q i hq, if_neg]
    · exact hi
    · rintro ⟨rfl, -⟩
      exact hpre (List.prefix_refl _)
  · intro w hww
    rw [hleaf w hww]
    split
    · exact hx
    · exact h.shape w hww

theorem changed_leaf {n page : ℕ} (h : DynExcept s held (upper v)) (hw : Window v)
    (hn : node s (upper v) = some n) (hpage : page < 2 ^ 40) (hf : validFlags f = true) :
    Changed s (leafWritten s n v (leafEntry page (wantsWrite f) (!wantsExec f))) held v
      (some (4096 * page, f)) := by
  obtain ⟨hexc, hframe, hout, -, hleaf⟩ := leafWritten_spec h hw hn (.inr ⟨page, f, hpage, hf, rfl⟩)
  have hv := hleaf v hw
  rw [if_pos rfl] at hv
  refine ⟨hexc.close ?_, hframe, hout, ?_⟩
  · rw [hv]
    exact leafEntry_ne_zero _ _ _
  · apply dynamicMap_update
    · intro w hww hne
      rw [hleaf w hww, if_neg hne]
    · exact dynamicMap_of_leaf hw hpage hf hv

theorem protect_cases (h : DynInv s held) (hv : v < Word64.size) (f : Flags) :
    (pagingProtect v f s = (false, s) ∧ (dynamicMap s v = none ∨ validFlags f = false)) ∨
    ∃ a g s', pagingProtect v f s = (true, s') ∧ dynamicMap s v = some (a, g) ∧
      validFlags f = true ∧ Changed s s' held v (some (a, f)) := by
  cases hf : validFlags f with
  | false => exact .inl ⟨by simp [pagingProtect, hf], .inr rfl⟩
  | true =>
    obtain ⟨hm, hd | hp⟩ | ⟨n1, n2, n3, page, g, hw, hd, hpage, hg, hl, hm, hn1, hn2, hn3, hp⟩ :=
      h.find hv
    · exact .inl ⟨by simp [pagingProtect, hd], .inl hm⟩
    · exact .inl ⟨by simp [pagingProtect, hp], .inl hm⟩
    · refine .inr ⟨4096 * page, g, _, ?_, hm, rfl, changed_leaf (h.except _) hw hn3 hpage hf⟩
      have hleaf : s.load64 (slot (4096 * n3) v 12) = leafOf s v := load_entry hn3
      simp only [pagingProtect, hd, hp, hf, hleaf, hl, leafEntry_mask hpage, or_leafFlags hpage,
        Bool.not_true, Bool.or_self, Bool.false_eq_true, if_false, leafWritten]

theorem spine_of_nodes {n1 n2 n3 : ℕ} (h1 : node s [pageIndex v 39] = some n1)
    (h2 : node s [pageIndex v 39, pageIndex v 30] = some n2) (h3 : node s (upper v) = some n3) :
    Spine s v (upper v) [(4096 * n3, slot (4096 * n2) v 21), (4096 * n2, slot (4096 * n1) v 30),
      (4096 * n1, slot (4096 * rootFrame s) v 39)] :=
  .child (p := [pageIndex v 39, pageIndex v 30])
    (.child (p := [pageIndex v 39]) (.child (p := []) .root (node_nil s) h1) h1 h2) h2 h3

/-- Clearing a leaf leaves the path to its table in place. -/
theorem leafWritten_spine {n1 n2 n3 : ℕ} (h : DynExcept s held (upper v)) (hw : Window v)
    (hn1 : node s [pageIndex v 39] = some n1) (hn2 : node s [pageIndex v 39, pageIndex v 30] = some n2)
    (hn3 : node s (upper v) = some n3) :
    Spine (leafWritten s n3 v 0) v (upper v) [(4096 * n3, slot (4096 * n2) v 21),
      (4096 * n2, slot (4096 * n1) v 30), (4096 * n1, slot (4096 * rootFrame s) v 39)] := by
  obtain ⟨-, hframe, -, hnode, -⟩ := leafWritten_spec h hw hn3 (.inl rfl)
  have hroot : rootFrame (leafWritten s n3 v 0) = rootFrame s := by
    rw [rootFrame, hframe.root, rootFrame]
  rw [← hroot]
  apply spine_of_nodes
  · exact (hnode _ (by simp)).trans hn1
  · exact (hnode _ (by simp)).trans hn2
  · exact (hnode _ (length_upper v).le).trans hn3

theorem unmap_cases (h : DynInv s held) (hv : v < Word64.size) :
    (pagingUnmap v s = (false, s) ∧ dynamicMap s v = none) ∨
    ∃ s', pagingUnmap v s = (true, s') ∧ dynamicMap s v ≠ none ∧ Changed s s' held v none := by
  obtain ⟨hm, hd | hp⟩ | ⟨n1, n2, n3, page, g, hw, hd, hpage, hg, hl, hm, hn1, hn2, hn3, hp⟩ :=
    h.find hv
  · exact .inl ⟨by simp [pagingUnmap, hd], hm⟩
  · exact .inl ⟨by simp [pagingUnmap, hp], hm⟩
  · obtain ⟨hexc, hframe, hout, -, hleaf⟩ := leafWritten_spec (h.except _) hw hn3 (.inl rfl)
    have hspine := leafWritten_spine (h.except _) hw hn1 hn2 hn3
    have hshrunk := reclaim_spec hspine hexc.tree (length_upper v).le
    refine .inr ⟨_, ?_, by rw [hm]; simp, hexc.shrink hshrunk, hframe.trans hshrunk.frame,
      hout.trans (Shrunk.sameOutside hshrunk hw.head), ?_⟩
    · simp only [pagingUnmap, hd, hp, Bool.not_true, Bool.false_eq_true, if_false]
      rfl
    · have hleaf' : ∀ w, leafOf (reclaim v _ (leafWritten s n3 v 0)) w = leafOf _ w :=
        fun w => hshrunk.leaves _ _ (length_upper w)
      apply dynamicMap_update
      · intro w hww hne
        rw [hleaf', hleaf w hww, if_neg hne]
      · apply dynamicMap_of_zero
        rw [hleaf', hleaf v hw, if_pos rfl]

theorem isTablePage_iff (s : Machine) (a : ℕ) : isTablePage s a = true ↔ a ∈ liveTables s := by
  rw [mem_liveTables, isTablePage, List.any_eq_true]
  simp only [List.mem_range, beq_iff_eq]

structure MapAllowed (s : Machine) (v physical : ℕ) (f : Flags) : Prop where
  window : Window v
  flags : validFlags f = true
  allocated : pmmIsAllocated s.pmm physical = true
  notTable : physical ∉ liveTables s
  unmapped : dynamicMap s v = none
  fits : Fits s (missing s [] (upper v))

theorem mapWalk_present {p : Path} {n m : ℕ} (shifts : List ℕ) (created : List (ℕ × ℕ))
    (h : TreeInv s held) (hn : node s p = some n) (hlen : p.length + shifts.length = 3)
    (hm : node s (p ++ indices v shifts) = some m) :
    mapWalk v shifts (4096 * n) created s = (some (4096 * m), s) := by
  induction shifts generalizing p n with
  | nil =>
    rw [indices, List.map_nil, List.append_nil, hn] at hm
    rw [mapWalk, Option.some.inj hm]
  | cons shift shifts ih =>
    have hp : p.length ≤ 2 := by
      simp at hlen
      omega
    have hpath : p ++ indices v (shift :: shifts) =
        (p ++ [pageIndex v shift]) ++ indices v shifts := by
      simp [indices]
    rw [hpath] at hm
    rw [mapWalk]
    obtain ⟨c, hc, hpres, hmask⟩ | ⟨hnone, -⟩ | ⟨c, hnone, -⟩ :=
        level_cases v shift h hp hn
    · simp only [hpres, if_true, hmask]
      exact ih hc (by simp at hlen ⊢; omega) hm
    · rw [show node s (p ++ [pageIndex v shift] ++ indices v shifts) = none from
        walk_none_below hnone (List.prefix_append _ _)] at hm
      exact absurd hm (by simp)
    · rw [show node s (p ++ [pageIndex v shift] ++ indices v shifts) = none from
        walk_none_below hnone (List.prefix_append _ _)] at hm
      exact absurd hm (by simp)

/-- A call for an address that is mapped changes nothing: the leaf is there, so every table
    above it is. -/
theorem map_present (h : TreeInv s held) (hodd : leafOf s v % 2 = 1) (physical : ℕ) (f : Flags) :
    pagingMap v physical f s = (false, s) := by
  obtain ⟨m, hm⟩ : ∃ m, node s (upper v) = some m := by
    apply node_of_leaf (i := pageIndex v 12)
    intro hz
    rw [leafOf, hz] at hodd
    exact absurd hodd (by decide)
  have hwalk := mapWalk_present (v := v) tableShifts [] h (node_nil s) rfl hm
  have hleaf : s.load64 (slot (4096 * m) v 12) = leafOf s v := load_entry hm
  unfold pagingMap
  split
  · rfl
  · split
    · rfl
    · rw [h.root_eq, hwalk]
      simp only [hleaf, (present_iff _).mpr hodd, if_true]

theorem map_cases (h : DynInv s held) (hv : v < Word64.size) (physical : ℕ) (f : Flags) :
    (∃ s', pagingMap v physical f s = (false, s') ∧ ¬ MapAllowed s v physical f ∧ Agree s s') ∨
    ∃ s', pagingMap v physical f s = (true, s') ∧ MapAllowed s v physical f ∧
      Changed s s' held v (some (physical, f)) := by
  by_cases hodd : leafOf s v % 2 = 1
  · refine .inl ⟨s, map_present h.tree hodd physical f, fun hok => ?_, Agree.refl h.tree.pmm⟩
    have := (dynamicMap_none_iff hok.window).mp hok.unmapped
    omega
  have hroot := h.tree.root_eq
  unfold pagingMap
  split
  · rename_i hguard
    refine .inl ⟨s, rfl, ?_, Agree.refl h.tree.pmm⟩
    intro hok
    simp [(h.dynamicAddress_iff hv).mpr hok.window, hok.flags, hok.allocated] at hguard
  · rename_i hguard
    simp only [Bool.or_eq_true, Bool.not_eq_true', not_or, Bool.not_eq_false] at hguard
    obtain ⟨⟨hd, hf⟩, halloc⟩ := hguard
    have hw := (h.dynamicAddress_iff hv).mp hd
    split
    · rename_i htable
      exact .inl ⟨s, rfl, fun hok => hok.notTable ((isTablePage_iff s _).mp htable),
        Agree.refl h.tree.pmm⟩
    · rename_i htable
      have hnotTable : physical ∉ liveTables s := fun hm => htable ((isTablePage_iff s _).mpr hm)
      rw [hroot]
      have hnone := (dynamicMap_none_iff (s := s) hw).mpr (by omega)
      obtain ⟨hgrown, hgives, hend⟩ := descend_spec v tableShifts h.tree (node_nil s) rfl
      cases hres : (mapWalk v tableShifts (4096 * rootFrame s) [] s).1 with
      | none =>
        have hag := mapWalk_none (v := v) tableShifts [] h.tree (node_nil s) rfl hres
        refine .inl ⟨(mapWalk v tableShifts (4096 * rootFrame s) [] s).2, ?_, ?_, hag⟩
        · rw [← Prod.eta (mapWalk v tableShifts (4096 * rootFrame s) [] s), hres]
        · intro hok
          exact hgives.mp ((mapWalk_isNone _ _ _ _).mp hres) hok.fits
      | some table =>
        have heq := mapWalk_some _ _ _ _ hres
        rw [heq] at hres ⊢
        obtain ⟨m, hm, hnode⟩ := hend table hres
        have hfits : Fits s (missing s [] (upper v)) := by
          by_contra hno
          rw [hgives.mpr hno] at hres
          exact absurd hres (by simp)
        have hexc := DynExcept.grow h hgrown
        have hleaf : leafOf (descend v tableShifts (4096 * rootFrame s) s).2 v % 2 = 0 := by
          rw [leafOf, hgrown.leaves _ _ (length_upper v)]
          change leafOf s v % 2 = 0
          omega
        have hload : (descend v tableShifts (4096 * rootFrame s) s).2.load64 (slot (4096 * m) v 12) =
            leafOf (descend v tableShifts (4096 * rootFrame s) s).2 v := load_entry hnode
        obtain ⟨hal, hb⟩ := (h.tree.pmm.isAllocated_iff physical).mp halloc
        have hpage : physical / 4096 < 2 ^ 40 := by
          have := (h.tree.pmm.bounds _ (h.tree.pmm.sub _ hb)).2
          rw [pageCount_eq] at this
          omega
        have hphys : physical = 4096 * (physical / 4096) := by omega
        have hchanged := changed_leaf hexc hw hnode hpage hf
        refine .inr ⟨_, ?_, ⟨hw, hf, halloc, hnotTable, hnone, hfits⟩, hchanged.inv,
          hgrown.frame.trans hchanged.frame,
          (Grown.sameOutside hgrown hw.head).trans hchanged.outside, ?_⟩
        · rw [← Prod.eta (descend v tableShifts (4096 * rootFrame s) s), hres]
          have habs : ((descend v tableShifts (4096 * rootFrame s) s).2.load64
              (slot (4096 * m) v 12) &&& 1 != 0) = false := by
            rw [← Bool.not_eq_true, present_iff, hload]
            omega
          rw [hm]
          simp only [habs, Bool.false_eq_true, if_false]
          conv_lhs => rw [hphys, or_leafFlags hpage]
          rfl
        · rw [hchanged.map, ← hphys, dynamicMap_congr]
          intro w _
          exact hgrown.leaves _ _ (length_upper w)

end Calls

end OsByAi.PagingDynamic
