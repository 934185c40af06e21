import OsByAi.PagingAddressSpace

set_option autoImplicit false

namespace OsByAi.PagingOwnership
open ByteMemory PackedBitmap PmmModel PmmInvariant PmmBootMap
open PagingModel PagingEntries PagingTree PagingWalk PagingGrowth PagingDynamic PagingBuild
open PagingInit KernelRuns PagingAddressSpace RadixTree

section Paths

variable {s : Machine} {held : Finset ℕ}

def tablePaths (s : Machine) : Set Path := {p | p.length ≤ 3 ∧ node s p ≠ none}

theorem tablePaths_injOn (h : TreeInv s held) :
    Set.InjOn (fun p => 4096 * (node s p).getD 0) (tablePaths s) := by
  rintro p ⟨hp, hpn⟩ q ⟨hq, hqn⟩ heq
  obtain ⟨m, hm⟩ := Option.ne_none_iff_exists'.mp hpn
  obtain ⟨n, hn⟩ := Option.ne_none_iff_exists'.mp hqn
  simp only [hm, hn, Option.getD_some] at heq
  have hmn : m = n := by omega
  exact h.separated p q m hp hq hm (hmn ▸ hn)

theorem image_tablePaths (h : TreeInv s held) :
    (fun p => 4096 * (node s p).getD 0) '' tablePaths s = ((liveTables s).toFinset : Set ℕ) := by
  ext a
  rw [Finset.mem_coe, List.mem_toFinset, h.live]
  constructor
  · rintro ⟨p, ⟨hp, hpn⟩, rfl⟩
    obtain ⟨n, hn⟩ := Option.ne_none_iff_exists'.mp hpn
    exact ⟨p, n, hp, hn, by simp [hn]⟩
  · rintro ⟨p, n, hp, hn, rfl⟩
    exact ⟨p, ⟨hp, by rw [hn]; simp⟩, by simp [hn]⟩

theorem tablePaths_finite (h : TreeInv s held) : (tablePaths s).Finite := by
  refine Set.Finite.of_finite_image ?_ (tablePaths_injOn h)
  rw [image_tablePaths h]
  exact Finset.finite_toSet _

theorem count_eq_ncard (h : TreeInv s held) : s.pagingTableCount = (tablePaths s).ncard := by
  rw [← Set.InjOn.ncard_image (tablePaths_injOn h), image_tablePaths h, Set.ncard_coe_finset,
    List.toFinset_card_of_nodup h.nodup, length_liveTables]

theorem parent_unique (h : TreeInv s held) {a : ℕ} (ha : a ∈ liveTables s) (hroot : a ≠ s.pagingRoot) :
    ∃! x : ℕ × Fin 512, (∃ p, p.length ≤ 2 ∧ node s p = some x.1) ∧
      child (tables s.mem x.1 x.2) = some (a / 4096) := by
  obtain ⟨q, c, hq, hc, rfl⟩ := (h.live a).mp ha
  rw [Nat.mul_div_cancel_left _ (by decide)]
  have hne : q ≠ [] := by
    rintro rfl
    rw [node_nil, Option.some.injEq] at hc
    rw [h.root_eq, hc] at hroot
    exact hroot rfl
  obtain ⟨p, i, hpi⟩ := (List.eq_nil_or_concat q).resolve_left hne
  rw [List.concat_eq_append] at hpi
  subst hpi
  have hp : p.length ≤ 2 := by
    simp at hq
    omega
  obtain ⟨n, hn⟩ : ∃ n, node s p = some n := by
    cases hn : node s p with
    | none =>
      rw [show node s (p ++ [i]) = none from walk_none_below hn (List.prefix_append _ _)] at hc
      exact absurd hc (by simp)
    | some n => exact ⟨n, rfl⟩
  refine ⟨(n, i), ⟨⟨p, hp, hn⟩, ?_⟩, ?_⟩
  · rw [← entryAt_of_node hn, ← node_concat, hc]
  · rintro ⟨n', i'⟩ ⟨⟨p', hp', hn'⟩, hchild⟩
    rw [← entryAt_of_node hn', ← node_concat] at hchild
    have heq := h.separated (p' ++ [i']) (p ++ [i]) c (by simp; omega) hq hchild hc
    have hsplit := List.append_inj' heq rfl
    have hi : i' = i := by simpa using hsplit.2
    rw [hsplit.1, hn] at hn'
    rw [Option.some.inj hn', hi]

end Paths

def windowAddress (i j k : Fin 512) : ℕ :=
  pagingDynamicBase + i.val * 2 ^ 30 + j.val * 2 ^ 21 + k.val * 2 ^ 12

theorem windowAddress_spec (i j k : Fin 512) :
    Window (windowAddress i j k) ∧ upper (windowAddress i j k) = [256, i, j] ∧
      pageIndex (windowAddress i j k) 12 = k := by
  have hi := i.isLt
  have hj := j.isLt
  have hk := k.isLt
  have hw : Window (windowAddress i j k) := by
    unfold Window windowAddress pagingDynamicBase pagingDynamicSize
    omega
  have h30 : pageIndex (windowAddress i j k) 30 = i := by
    apply Fin.ext
    change windowAddress i j k / 2 ^ 30 % 512 = i.val
    unfold windowAddress pagingDynamicBase
    omega
  have h21 : pageIndex (windowAddress i j k) 21 = j := by
    apply Fin.ext
    change windowAddress i j k / 2 ^ 21 % 512 = j.val
    unfold windowAddress pagingDynamicBase
    omega
  refine ⟨hw, ?_, ?_⟩
  · rw [upper, indices, tableShifts, List.map_cons, List.map_cons, List.map_cons, List.map_nil, hw.slot,
      h30, h21]
  · apply Fin.ext
    change windowAddress i j k / 2 ^ 12 % 512 = k.val
    unfold windowAddress pagingDynamicBase
    omega

section Window

variable {s : Machine} {held : Finset ℕ}

def mappedSet (s : Machine) : Set ℕ := {v | dynamicMap s v ≠ none}

theorem mem_mappedSet {v : ℕ} : v ∈ mappedSet s ↔ Window v ∧ leafOf s v % 2 = 1 := by
  unfold mappedSet
  by_cases hw : Window v
  · rw [Set.mem_ofPred_eq, ne_eq, dynamicMap_none_iff hw]
    constructor
    · exact fun hne => ⟨hw, by omega⟩
    · exact fun hc => by omega
  · rw [Set.mem_ofPred_eq, dynamicMap_outside hw]
    simp [hw]

theorem mappedSet_finite (s : Machine) : (mappedSet s).Finite :=
  (Set.finite_Iio (pagingDynamicBase + pagingDynamicSize)).subset fun _ hv =>
    (mem_mappedSet.mp hv).1.2.2

theorem DynInv.leads_to_leaf (h : DynInv s held) (k : ℕ) {q : Path} (hlen : q.length + k = 3)
    (hhead : q.head? = some 256) (hn : node s q ≠ none) : ∃ v ∈ mappedSet s, q <+: upper v := by
  induction k generalizing q with
  | zero =>
    obtain ⟨i, hi⟩ := h.inUse q (by omega) hhead hn
    obtain ⟨a, b, c, rfl⟩ := List.length_eq_three.mp hlen
    rw [List.head?_cons, Option.some.injEq] at hhead
    subst hhead
    obtain ⟨hw, hu, hidx⟩ := windowAddress_spec b c i
    have hleaf : leafOf s (windowAddress b c i) ≠ 0 := by
      rw [leafOf, hu, hidx]
      exact hi
    refine ⟨windowAddress b c i, mem_mappedSet.mpr ⟨hw, ?_⟩, by rw [hu]⟩
    rcases (h.shape _ hw).parity with hz | hodd
    · exact absurd hz hleaf
    · exact hodd
  | succ k ih =>
    obtain ⟨i, hi⟩ := h.inUse q (by omega) hhead hn
    have hnext : node s (q ++ [i]) ≠ none :=
      fun hnone => hi ((h.tree.inner_zero_iff (by omega)).mpr hnone)
    have hh : (q ++ [i]).head? = some 256 := by
      rw [List.head?_append, hhead]
      rfl
    obtain ⟨v, hv, hpre⟩ := ih (by simp; omega) hh hnext
    exact ⟨v, hv, (List.prefix_append _ _).trans hpre⟩

theorem DynInv.node_iff (h : DynInv s held) {q : Path} (hq : q.length ≤ 3)
    (hhead : q.head? = some 256) : node s q ≠ none ↔ ∃ v ∈ mappedSet s, q <+: upper v := by
  constructor
  · exact fun hn => DynInv.leads_to_leaf h (3 - q.length) (by omega) hhead hn
  · rintro ⟨v, hv, hpre⟩ hnone
    obtain ⟨-, hodd⟩ := mem_mappedSet.mp hv
    rw [leafOf, entryAt_below hnone hpre] at hodd
    exact absurd hodd (by decide)

theorem Window.upper_eq {v : ℕ} (h : Window v) :
    upper v = [256, pageIndex v 30, pageIndex v 21] := by
  rw [upper, indices, tableShifts, List.map_cons, List.map_cons, List.map_cons, List.map_nil, h.slot]

/-- A table has 512 entries; named, so that the indices below all refer to one proof. -/
local instance entriesPerTable : NeZero 512 := ⟨by decide⟩

/-- The paths of the tables below slot 256, by depth. -/
def dynamicPaths (M : Set ℕ) : Set Path :=
  {p | p = [256] ∧ M.Nonempty} ∪
    ((fun x : ℕ => ([256, Fin.ofNat 512 x] : Path)) '' ((fun v => v / 2 ^ 30) '' M) ∪
      (fun x : ℕ => ([256, Fin.ofNat 512 (x / 512), Fin.ofNat 512 x] : Path)) ''
        ((fun v => v / 2 ^ 21) '' M))

theorem pageIndex_ofNat (v shift : ℕ) : pageIndex v shift = Fin.ofNat 512 (v / 2 ^ shift) := rfl

theorem window_paths (h : DynInv s held) :
    {p | p ∈ tablePaths s ∧ p.head? = some 256} = dynamicPaths (mappedSet s) := by
  have h512 : ∀ v : ℕ, Fin.ofNat 512 (v / 2 ^ 21 / 512) = pageIndex v 30 := by
    intro v
    rw [Nat.div_div_eq_div_mul]
    rfl
  have hiff : ∀ q : Path, q.length ≤ 3 → q.head? = some 256 →
      (node s q ≠ none ↔ ∃ v ∈ mappedSet s, q <+: [256, pageIndex v 30, pageIndex v 21]) := by
    intro q hq hhead
    rw [DynInv.node_iff h hq hhead]
    constructor
    · rintro ⟨v, hv, hpre⟩
      exact ⟨v, hv, by rwa [Window.upper_eq (mem_mappedSet.mp hv).1] at hpre⟩
    · rintro ⟨v, hv, hpre⟩
      exact ⟨v, hv, by rwa [Window.upper_eq (mem_mappedSet.mp hv).1]⟩
  ext p
  constructor
  · rintro ⟨⟨hlen, hn⟩, hhead⟩
    obtain ⟨v, hv, hpre⟩ := (hiff p hlen hhead).mp hn
    cases p with
    | nil => exact absurd hhead (by simp)
    | cons a p =>
      rw [List.head?_cons, Option.some.injEq] at hhead
      subst hhead
      cases p with
      | nil => exact .inl ⟨rfl, ⟨v, hv⟩⟩
      | cons b p =>
        cases p with
        | nil =>
          have hb : b = pageIndex v 30 := by simpa using hpre
          exact .inr (.inl ⟨_, ⟨v, hv, rfl⟩, by rw [hb]; rfl⟩)
        | cons c p =>
          obtain rfl : p = [] := by
            apply List.eq_nil_of_length_eq_zero
            simp only [List.length_cons] at hlen
            omega
          obtain ⟨hb, hc⟩ : b = pageIndex v 30 ∧ c = pageIndex v 21 := by simpa using hpre
          exact .inr (.inr ⟨_, ⟨v, hv, rfl⟩, by simp only [h512]; rw [hb, hc]; rfl⟩)
  · rintro (⟨rfl, v, hv⟩ | ⟨x, ⟨v, hv, rfl⟩, rfl⟩ | ⟨x, ⟨v, hv, rfl⟩, rfl⟩)
    · exact ⟨⟨by simp, (hiff _ (by simp) rfl).mpr ⟨v, hv, by simp⟩⟩, rfl⟩
    · exact ⟨⟨by simp, (hiff _ (by simp) rfl).mpr ⟨v, hv, by simp [pageIndex_ofNat]⟩⟩, rfl⟩
    · refine ⟨⟨by simp, (hiff _ (by simp) rfl).mpr ⟨v, hv, ?_⟩⟩, rfl⟩
      simp only [h512]
      exact List.prefix_refl _

/-- The tables that the dynamic mappings need: one, plus one for each GiB and each 2 MiB in use. -/
theorem ncard_dynamicPaths {M : Set ℕ} (hfin : M.Finite) (hM : ∀ v ∈ M, Window v) [Decidable M.Nonempty] :
    (dynamicPaths M).ncard = (if M.Nonempty then 1 else 0) +
      ((fun v => v / 2 ^ 30) '' M).ncard + ((fun v => v / 2 ^ 21) '' M).ncard := by
  have hone : ({p : Path | p = [256] ∧ M.Nonempty}).ncard = if M.Nonempty then 1 else 0 := by
    split
    · rename_i hne
      rw [show {p : Path | p = [256] ∧ M.Nonempty} = {[256]} by ext p; simp [hne], Set.ncard_singleton]
    · rename_i hne
      rw [show {p : Path | p = [256] ∧ M.Nonempty} = ∅ by ext p; simp [hne], Set.ncard_empty]
  have htwo : Set.InjOn (fun x : ℕ => ([256, Fin.ofNat 512 x] : Path)) ((fun v => v / 2 ^ 30) '' M) := by
    rintro _ ⟨v, hv, rfl⟩ _ ⟨u, hu, rfl⟩ heq
    obtain ⟨-, hvlo, hvhi⟩ := hM v hv
    obtain ⟨-, hulo, huhi⟩ := hM u hu
    simp only [List.cons.injEq, and_true, true_and] at heq
    have := congrArg Fin.val heq
    simp only [Fin.val_ofNat] at this ⊢
    unfold pagingDynamicBase at *
    unfold pagingDynamicSize at *
    omega
  have hthree : Set.InjOn (fun x : ℕ => ([256, Fin.ofNat 512 (x / 512), Fin.ofNat 512 x] : Path))
      ((fun v => v / 2 ^ 21) '' M) := by
    rintro _ ⟨v, hv, rfl⟩ _ ⟨u, hu, rfl⟩ heq
    obtain ⟨-, hvlo, hvhi⟩ := hM v hv
    obtain ⟨-, hulo, huhi⟩ := hM u hu
    simp only [List.cons.injEq, and_true, true_and] at heq
    have h1 := congrArg Fin.val heq.1
    have h2 := congrArg Fin.val heq.2
    simp only [Fin.val_ofNat] at h1 h2 ⊢
    unfold pagingDynamicBase at *
    unfold pagingDynamicSize at *
    omega
  have hfin1 : ({p : Path | p = [256] ∧ M.Nonempty}).Finite :=
    (Set.finite_singleton ([256] : Path)).subset fun p hp => hp.1
  have hfin2 := ((hfin.image fun v => v / 2 ^ 30).image fun x : ℕ => ([256, Fin.ofNat 512 x] : Path))
  have hfin3 := ((hfin.image fun v => v / 2 ^ 21).image
    fun x : ℕ => ([256, Fin.ofNat 512 (x / 512), Fin.ofNat 512 x] : Path))
  unfold dynamicPaths
  rw [Set.ncard_union_eq ?_ hfin1 (hfin2.union hfin3), Set.ncard_union_eq ?_ hfin2 hfin3, hone,
    Set.InjOn.ncard_image htwo, Set.InjOn.ncard_image hthree, Nat.add_assoc]
  · rw [Set.disjoint_left]
    rintro _ ⟨x, -, rfl⟩ ⟨y, -, heq⟩
    exact absurd heq (by simp)
  · rw [Set.disjoint_left]
    rintro _ ⟨rfl, -⟩ (⟨y, -, heq⟩ | ⟨y, -, heq⟩)
    · exact absurd heq (by simp)
    · exact absurd heq (by simp)

end Window

open scoped Classical in
/-- The tables of `w`, against the callers' ledger and the machine `base` right after
    `paging_init`. -/
structure TablesOwned (base : Machine) (w : World) : Prop where
  distinct : (liveTables w.machine).Nodup
  reachable : ∀ a, a ∈ liveTables w.machine ↔
    ∃ p n, p.length ≤ 3 ∧ node w.machine p = some n ∧ a = 4096 * n
  parent : ∀ a ∈ liveTables w.machine, a ≠ w.machine.pagingRoot →
    ∃! x : ℕ × Fin 512, (∃ p, p.length ≤ 2 ∧ node w.machine p = some x.1) ∧
      child (tables w.machine.mem x.1 x.2) = some (a / 4096)
  allocated : ∀ a ∈ liveTables w.machine,
    pmmIsAllocated w.machine.pmm a = true ∧ a / 4096 ∉ w.ledger.held
  accounting : w.machine.pmm.freePages ≤ w.machine.pmm.totalPages ∧
    w.machine.pmm.totalPages - w.machine.pmm.freePages =
      w.machine.pagingTableCount + w.ledger.held.card
  inUse : ∀ q n, q.length ≤ 3 → q.head? = some 256 → node w.machine q = some n →
    ∃ i, tables w.machine.mem n i ≠ 0
  count : w.machine.pagingTableCount = base.pagingTableCount +
    (if {v | w.ledger.mapping v ≠ none}.Nonempty then 1 else 0) +
    ((fun v => v / 2 ^ 30) '' {v | w.ledger.mapping v ≠ none}).ncard +
    ((fun v => v / 2 ^ 21) '' {v | w.ledger.mapping v ≠ none}).ncard
  drained : (∀ v, w.ledger.mapping v = none) →
    w.machine.pagingTableCount = base.pagingTableCount

section Runs

variable {base : Machine} {w : World}

theorem ncard_outside (h : ActiveWorld base w) :
    {p | p ∈ tablePaths w.machine ∧ p.head? ≠ some 256} =
      {p | p ∈ tablePaths base ∧ p.head? ≠ some 256} := by
  ext p
  constructor
  · rintro ⟨⟨hlen, hn⟩, hhead⟩
    exact ⟨⟨hlen, by rw [← h.outside.node p hlen hhead]; exact hn⟩, hhead⟩
  · rintro ⟨⟨hlen, hn⟩, hhead⟩
    exact ⟨⟨hlen, by rw [h.outside.node p hlen hhead]; exact hn⟩, hhead⟩

open scoped Classical in
theorem count_formula {held : Finset ℕ} (hbase : TreeInv base held)
    (hempty : ∀ p ∈ tablePaths base, p.head? ≠ some 256) (h : ActiveWorld base w) :
    w.machine.pagingTableCount = base.pagingTableCount +
      (if (mappedSet w.machine).Nonempty then 1 else 0) +
      ((fun v => v / 2 ^ 30) '' mappedSet w.machine).ncard +
      ((fun v => v / 2 ^ 21) '' mappedSet w.machine).ncard := by
  have hfin := tablePaths_finite h.dyn.tree
  have hsplit : tablePaths w.machine = {p | p ∈ tablePaths w.machine ∧ p.head? ≠ some 256} ∪
      {p | p ∈ tablePaths w.machine ∧ p.head? = some 256} := by
    ext p
    by_cases hp : p.head? = some 256 <;> simp [hp]
  have hdisj : Disjoint {p | p ∈ tablePaths w.machine ∧ p.head? ≠ some 256}
      {p | p ∈ tablePaths w.machine ∧ p.head? = some 256} := by
    rw [Set.disjoint_left]
    exact fun p hp hq => hp.2 hq.2
  have hall : {p | p ∈ tablePaths base ∧ p.head? ≠ some 256} = tablePaths base := by
    ext p
    exact ⟨fun hp => hp.1, fun hp => ⟨hp, hempty p hp⟩⟩
  rw [count_eq_ncard h.dyn.tree, hsplit, Set.ncard_union_eq hdisj (hfin.subset fun p hp => hp.1)
    (hfin.subset fun p hp => hp.1), ncard_outside h, hall, window_paths h.dyn,
    ncard_dynamicPaths (mappedSet_finite _) fun v hv => (mem_mappedSet.mp hv).1,
    count_eq_ncard hbase]
  omega

theorem mappedSet_eq (h : ActiveWorld base w) :
    mappedSet w.machine = {v | w.ledger.mapping v ≠ none} := by
  rw [mappedSet, h.map]

theorem ActiveWorld.tablesOwned {held : Finset ℕ} (hbase : TreeInv base held)
    (hempty : ∀ p ∈ tablePaths base, p.head? ≠ some 256) (h : ActiveWorld base w) :
    TablesOwned base w := by
  have hcount := count_formula hbase hempty h
  rw [mappedSet_eq h] at hcount
  refine ⟨h.dyn.tree.nodup, h.dyn.tree.live, fun a ha hroot => parent_unique h.dyn.tree ha hroot,
    ?_, ?_, ?_, hcount, ?_⟩
  · intro a ha
    obtain ⟨p, n, hp, hn, rfl⟩ := (h.dyn.tree.live a).mp ha
    have hdiv : 4096 * n / 4096 = n := Nat.mul_div_cancel_left _ (by decide)
    refine ⟨(h.dyn.tree.pmm.isAllocated_iff _).mpr ⟨Nat.mul_mod_right _ _, ?_⟩, ?_⟩
    · rw [hdiv]
      exact h.dyn.tree.node_allocated hp hn
    · rw [hdiv]
      exact fun hh => h.dyn.tree.disjoint n hh ha
  · have := PagingBuild.accounting h.dyn.tree
    omega
  · intro q n hq hhead hn
    obtain ⟨i, hi⟩ := h.dyn.inUse q hq hhead (by rw [hn]; simp)
    exact ⟨i, by rwa [entryAt_of_node hn] at hi⟩
  · intro hnone
    have hM : {v | w.ledger.mapping v ≠ none} = ∅ := by
      ext v
      simp [hnone v]
    rw [hM] at hcount
    simpa using hcount

/-- After a successful `paging_init`, whatever the callers do, the recorded tables are the tree,
    belong to nobody else, and are no more than the mappings need. -/
theorem table_ownership {L : Layout} {info : ℕ} {before after : World}
    (h : Booted L info before after) {calls : List Call}
    (hc : Follows OwnPages L info after calls) :
    TablesOwned after.machine (run L info after calls) := by
  obtain ⟨-, -, hinst, hact⟩ := h.cases
  refine ActiveWorld.tablesOwned hinst.built.tree ?_ (hact.run hc)
  rintro p ⟨hlen, hn⟩ hhead
  exact hn (Installed.no_dynamic hinst hlen hhead)

theorem small_ownership : (run smallLayout smallInfo smallAfter smallCalls).ledger.mapping 0xffff800000000000 = some (smallPage, 3) ∧
    TablesOwned smallAfter.machine (run smallLayout smallInfo smallAfter smallCalls) :=
  ⟨small_mapped, table_ownership small_booted ⟨trivial, trivial, trivial⟩⟩

end Runs

end OsByAi.PagingOwnership
