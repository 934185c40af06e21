import OsByAi.PagingAddressSpace
import OsByAi.PagingFill

set_option autoImplicit false

namespace OsByAi.PagingInitFailure
open ByteMemory PackedBitmap BootInformation PmmModel PmmInvariant PmmBootMap
open PagingModel PagingEntries PagingTree PagingWalk PagingGrowth PagingAgree PagingBuild PagingInit PagingFill
open KernelRuns PagingAddressSpace RadixTree

/-- `paging_init` with the descriptor loop cut off after `fuel` rounds. An arbitrary BOOT_INFO may
    describe a map of any length, so nothing is assumed of `fuel`. -/
def pagingInitFor (fuel : ℕ) (L : Layout) (info : ℕ) (s : Machine) : Bool × Machine := pagingInitWith newTable fuel L info s

/-- The model's bound is one choice of `fuel`. -/
theorem pagingInit_eq_for (L : Layout) (info : ℕ) (s : Machine) : pagingInit L info s = pagingInitFor 65537 L info s := rfl

section Discard

variable {P : ℕ → Prop} {s s0 : Machine} {held : Finset ℕ} {info : ℕ}

theorem discardFrom_quiet (n : ℕ) (s : Machine) :
    Confined P s (discardFrom n s) ∧ (discardFrom n s).pagingPreviousCr3 = s.pagingPreviousCr3 := by
  induction n generalizing s with
  | zero => exact ⟨Confined.refl s, rfl⟩
  | succ n ih =>
    obtain ⟨hrest, hprevious⟩ := ih (freePage { s with pagingTableCount := n } (s.tablePages n))
    have hone : Confined P s (freePage { s with pagingTableCount := n } (s.tablePages n)) := by
      refine ⟨⟨[.pmmFree (s.tablePages n)], rfl, ?_⟩, fun _ _ => rfl⟩
      intro e he
      rw [List.mem_singleton] at he
      exact .inr ⟨_, he⟩
    rw [discardFrom]
    exact ⟨hone.trans hrest, hprevious⟩

theorem idle_live (h : Idle s held info) : liveTables s = [] := by
  unfold liveTables
  rw [h.count]
  rfl

theorem samePages_idle {p q : Pmm} (hp : Inv p) (hq : Inv q) (hready : q.ready = p.ready)
    (heligible : q.eligible = p.eligible) (htotal : q.totalPages = p.totalPages)
    (hallocated : ∀ page, bit q.allocated page = bit p.allocated page) : SamePages p q := by
  have hmap := ext_bit hallocated
  have hfree := hp.free
  have hfree' := hq.free
  rw [hmap, heligible] at hfree'
  have hsame : q.freePages = p.freePages := by omega
  refine ⟨hp, hq, ?_⟩
  rw [← hready, ← heligible, ← htotal, ← hmap, ← hsame]

theorem discard_agree (h0 : Idle s0 held info) (hroot : s0.pagingRoot = 0) (h : TreeInv s held)
    (hf : MemFrame s0 s) (hcpu : s.cpu = s0.cpu) (hprevious : s.pagingPreviousCr3 = s0.pagingPreviousCr3)
    (hact : s.active = s0.active) : Agree s0 (discardPageTables s) := by
  obtain ⟨hinv, hc, ho, hfr, ha, hcpu'⟩ := discardFrom_spec s.pagingTableCount (TreeInv.recorded h) rfl
  have hf' := hf.trans hfr
  refine ⟨?_, ?_, ?_, hcpu'.trans hcpu, ?_, ?_, ha.trans hact⟩
  · apply samePages_idle h0.pmm hinv hf'.ready hf'.eligible hf'.total
    intro page
    rw [Bool.eq_iff_iff]
    exact (ho page).trans (h0.owned page).symm
  · intro x hx
    rcases hx with hx | hx
    · exact hf'.mem x hx
    · rw [idle_live h0] at hx
      exact absurd hx (by simp)
  · have hcount : (discardPageTables s).pagingTableCount = 0 := hc
    unfold liveTables
    rw [hcount, h0.count]
    rfl
  · rw [hroot]
    rfl
  · exact (discardFrom_quiet (P := fun _ => True) _ s).2.trans hprevious

end Discard

section Failing

variable {L : Layout} {s : Machine} {held : Finset ℕ} {info : ℕ}

theorem loose_free (h : Idle s held info) {page : ℕ} (he : bit s.pmm.eligible page = true) (hh : page ∉ held) :
    IsFree s.pmm page := by
  refine ⟨he, ?_⟩
  by_contra hb
  exact hh ((h.owned page).mp (by simpa using hb))

structure Filling (s0 s : Machine) (held : Finset ℕ) : Prop where
  tree : TreeInv s held
  memory : MemFrame s0 s
  confined : Confined (IsFree s0.pmm) s0 s
  cpu : s.cpu = s0.cpu
  previous : s.pagingPreviousCr3 = s0.pagingPreviousCr3
  active : s.active = s0.active

theorem Filling.grow {s0 s' : Machine} {V : ℕ → Prop} (h0 : Idle s0 held info) (h : Filling s0 s held)
    (hf : Filled s s' held V) : Filling s0 s' held where
  tree := hf.inv
  memory := h.memory.trans (Frame.memFrame hf.frame)
  confined := h.confined.trans (hf.confined _ fun page he hh => loose_free h0 (by rw [← h.memory.eligible]; exact he) hh)
  cpu := hf.frame.cpu.trans h.cpu
  previous := hf.frame.previous.trans h.previous
  active := hf.frame.active.trans h.active

theorem Filling.discard {s0 : Machine} (h0 : Idle s0 held info) (hroot : s0.pagingRoot = 0) (h : Filling s0 s held) :
    Agree s0 (discardPageTables s) ∧ Confined (IsFree s0.pmm) s0 (discardPageTables s) := by
  refine ⟨discard_agree h0 hroot h.tree h.memory h.cpu h.previous h.active, ?_⟩
  have hquiet := (discardFrom_quiet (P := IsFree s0.pmm) s.pagingTableCount s).1
  exact h.confined.trans ⟨hquiet.trace, hquiet.mem⟩

theorem planted_filling {c : ℕ} (h : Idle s held info) (hf : IsFree s.pmm c) (hmin : ∀ q, IsFree s.pmm q → c ≤ q)
    (L : Layout) : Filling s (planted s c) held where
  tree := (planted_built (L := L) h hf hmin).tree
  memory := planted_memFrame hf
  confined := by
    have hwipe := withTable_confined s hf
    exact ⟨hwipe.trace, hwipe.mem⟩
  cpu := by rw [planted, rooted_cpu, withTable_cpu]
  previous := by
    rw [planted, rooted]
    exact withTable_previous s c
  active := by rw [planted, rooted_active, withTable_active]

theorem fillRootWith_failed {s0 : Machine} (h0 : Idle s0 held info) (hroot : s0.pagingRoot = 0) (h : Filling s0 s held)
    (fuel cr4 base : ℕ) (hfail : (fillRootWith newTable fuel L base cr4 s).1 = false) :
    Agree s0 (fillRootWith newTable fuel L base cr4 s).2 ∧ Confined (IsFree s0.pmm) s0 (fillRootWith newTable fuel L base cr4 s).2 := by
  have hmap := h.grow h0 (mapBootRamFrom_filled (L := L) base fuel 0 h.tree)
  rw [fillRootWith_eq] at hfail ⊢
  rcases hres : mapBootRamFrom L base fuel 0 s with ⟨ok, s1⟩
  rw [hres] at hmap hfail
  cases ok with
  | false => exact hmap.discard h0 hroot
  | true =>
    cases hreq : requiredRegionsMapped base s1 with
    | false =>
      simp only [hreq, Bool.not_false, if_true]
      exact hmap.discard h0 hroot
    | true =>
      have hun := hmap.grow h0 (unmapGuards_filled (stackGuards L (bootInfoAt s1.mem base)) hmap.tree
        (stackGuards_lt L _)).1
      simp only [hreq, Bool.not_true, Bool.false_eq_true, if_false] at hfail ⊢
      rcases hg : unmapStackGuards L base s1 with ⟨ok, s2⟩
      rw [unmapStackGuards] at hg
      rw [hg] at hun
      rw [unmapStackGuards, hg] at hfail
      cases ok with
      | false => exact hun.discard h0 hroot
      | true => exact absurd hfail (by simp)

theorem pagingInitFor_failed (h : Idle s held info) (hroot : s.pagingRoot = 0) (fuel base : ℕ)
    (hfail : (pagingInitFor fuel L base s).1 = false) :
    Agree s (pagingInitFor fuel L base s).2 ∧ Confined (IsFree s.pmm) s (pagingInitFor fuel L base s).2 := by
  have unchanged : Agree s s ∧ Confined (IsFree s.pmm) s s := ⟨Agree.refl h.pmm, Confined.refl s⟩
  rw [pagingInitFor, pagingInitWith_unfold] at hfail ⊢
  split
  · exact unchanged
  · rename_i hguard
    rw [if_neg hguard] at hfail
    split
    · exact unchanged
    · rename_i hcpu
      rw [if_neg hcpu] at hfail
      obtain ⟨hnew, -⟩ | ⟨c, -, hfree, hmin, hnew⟩ := newTable_cases h.pmm
      · rw [hnew]
        simp only [beq_self_eq_true, if_true]
        exact ⟨⟨SamePages.refl h.pmm, fun _ _ => rfl, rfl, rfl, hroot.symm, rfl, rfl⟩,
          ⟨[], (List.append_nil _).symm, nofun⟩, fun _ _ => rfl⟩
      · have hbounds := h.pmm.bounds c hfree.1
        have hne : (4096 * c == 0) = false := by
          rw [beq_eq_false_iff_ne]
          omega
        rw [hnew] at hfail ⊢
        simp only [hne, Bool.false_eq_true, if_false] at hfail ⊢
        rw [← planted] at hfail ⊢
        exact fillRootWith_failed h hroot (planted_filling h hfree hmin L) fuel s.cpu.cr4 base hfail

end Failing

section Later

variable {L : Layout} {s t s0 : Machine} {held : Finset ℕ} {info v : ℕ}

theorem descend_agree {p : Path} {n : ℕ} (shifts : List ℕ) (h : TreeInv s held) (ha : Agree s t)
    (hn : node s p = some n) (hlen : p.length + shifts.length = 3) :
    (descend v shifts (4096 * n) t).1 = (descend v shifts (4096 * n) s).1 ∧
      Agree (descend v shifts (4096 * n) s).2 (descend v shifts (4096 * n) t).2 := by
  induction shifts generalizing s t p n with
  | nil => exact ⟨rfl, ha⟩
  | cons shift shifts ih =>
    have hp : p.length ≤ 2 := by
      simp at hlen
      omega
    have hlen' : (p ++ [pageIndex v shift]).length + shifts.length = 3 := by
      simp at hlen ⊢
      omega
    have hload := ha.load_slot h (by omega) hn v shift
    have hnewt := ha.newTable
    rw [descend_cons, descend_cons]
    simp only [hload, hnewt.1]
    obtain ⟨c, hc, hpres, hmask⟩ | ⟨hnone, habs, hno, hnew⟩ |
      ⟨c, hnone, habs, hroom, hf, hmin, hlo, hhi, hnew, hstore, hmask⟩ :=
        level_cases v shift h hp hn
    · simp only [hpres, if_true, hmask]
      exact ih h ha hc hlen'
    · rw [hnew] at hnewt
      simp only [habs, hnew]
      exact ⟨rfl, hnewt.2⟩
    · have hne : (4096 * c == 0) = false := by
        rw [beq_eq_false_iff_ne]
        omega
      rw [hnew] at hnewt
      have hstored := hnewt.2.store64 (slot (4096 * n) v shift) (4096 * c ||| tableFlags)
      rw [hstore] at hstored
      obtain ⟨hl, hnode, hchild⟩ := linked_level h hp hn hnone hf hmin hroom
      simp only [habs, hnew, hne, hstore, hmask, Bool.false_eq_true, if_false,
        hstored.load_slot hl (by omega) hnode v shift]
      exact ih hl hstored hchild hlen'

theorem mapPage_agree (h : TreeInv s held) (ha : Agree s t) :
    (mapPage L v t).1 = (mapPage L v s).1 ∧ Agree (mapPage L v s).2 (mapPage L v t).2 := by
  obtain ⟨hres, hag⟩ := descend_agree (v := v) tableShifts h ha (node_nil s) rfl
  rw [mapPage_eq, mapPage_eq]
  rw [ha.root, h.root_eq]
  rcases hs : descend v tableShifts (4096 * rootFrame s) s with ⟨table, s1⟩
  rcases ht : descend v tableShifts (4096 * rootFrame s) t with ⟨table', t1⟩
  rw [hs, ht] at hres hag
  simp only at hres hag
  subst hres
  cases table' with
  | none => exact ⟨rfl, hag⟩
  | some table => exact ⟨rfl, hag.store64 _ _⟩

theorem mapPages_agree (n : ℕ) (h : TreeInv s held) (ha : Agree s t) {page : ℕ}
    (hlim : page + 4096 * n ≤ Word64.size + 4095) :
    (mapPages L n page t).1 = (mapPages L n page s).1 ∧
      Agree (mapPages L n page s).2 (mapPages L n page t).2 := by
  induction n generalizing s t page with
  | zero => exact ⟨rfl, ha⟩
  | succ n ih =>
    obtain ⟨hres, hag⟩ := mapPage_agree (L := L) (v := page) h ha
    have hfilled := (mapPage_filled (L := L) h (v := page) (by omega)).1
    rw [mapPages_succ, mapPages_succ]
    rcases hs : mapPage L page s with ⟨ok, s1⟩
    rcases ht : mapPage L page t with ⟨ok', t1⟩
    rw [hs] at hfilled
    rw [hs, ht] at hres hag
    simp only at hres hag
    subst hres
    cases ok' with
    | false => exact ⟨rfl, hag⟩
    | true => exact ih hfilled.inv hag (by omega)

theorem mapDescriptor_agree (d : Descriptor) (h : TreeInv s held) (ha : Agree s t) :
    (mapDescriptor L d t).1 = (mapDescriptor L d s).1 ∧
      Agree (mapDescriptor L d s).2 (mapDescriptor L d t).2 := by
  rw [mapDescriptor_eq, mapDescriptor_eq]
  split
  · exact ⟨rfl, ha⟩
  · split
    · exact ⟨rfl, ha⟩
    · split
      · exact ⟨rfl, ha⟩
      · have hend : clipEnd d ≤ pmmLimit := by
          unfold clipEnd
          split <;> omega
        unfold pmmLimit at hend
        exact mapPages_agree _ h ha (by unfold Word64.size; omega)

theorem mapBootRamFrom_agree (hb : BootOk s0 info) (fuel i : ℕ) (h : TreeInv s held) (hf : MemFrame s0 s)
    (ha : Agree s t) (hi : i ≤ mapCount s0.mem info) :
    (mapBootRamFrom L info fuel (i * (bootInfoAt s0.mem info).descriptorSize) t).1 =
        (mapBootRamFrom L info fuel (i * (bootInfoAt s0.mem info).descriptorSize) s).1 ∧
      Agree (mapBootRamFrom L info fuel (i * (bootInfoAt s0.mem info).descriptorSize) s).2
        (mapBootRamFrom L info fuel (i * (bootInfoAt s0.mem info).descriptorSize) t).2 := by
  induction fuel generalizing s t i with
  | zero => exact ⟨rfl, ha⟩
  | succ fuel ih =>
    have hft : MemFrame s0 t := hf.trans (Agree.memFrame ha)
    rw [mapBootRamFrom_succ, mapBootRamFrom_succ]
    simp only [hb.bootInfo_eq hf, hb.bootInfo_eq hft]
    by_cases hlt : i < mapCount s0.mem info
    · rw [descriptor_read hb hf hlt, descriptor_read hb hft hlt]
      obtain ⟨hres, hag⟩ := mapDescriptor_agree (L := L) (descriptor s0.mem info i) h ha
      have hfilled := mapDescriptor_filled (L := L) (descriptor s0.mem info i) h
      rcases hs : mapDescriptor L (descriptor s0.mem info i) s with ⟨ok, s1⟩
      rcases ht : mapDescriptor L (descriptor s0.mem info i) t with ⟨ok', t1⟩
      rw [hs] at hfilled
      rw [hs, ht] at hres hag
      simp only at hres hag
      subst hres
      split
      · cases ok' with
        | false => exact ⟨rfl, hag⟩
        | true =>
          have hf1 : MemFrame s0 s1 := hf.trans (Frame.memFrame hfilled.frame)
          have hft1 : MemFrame s0 t1 := hf1.trans (Agree.memFrame hag)
          simp only [hb.bootInfo_eq hf1, hb.bootInfo_eq hft1, offset_next hb hlt]
          exact ih (i + 1) hfilled.inv hf1 hag hlt
      · exact ⟨rfl, ha⟩
    · have hstop : ¬ i * (bootInfoAt s0.mem info).descriptorSize < (bootInfoAt s0.mem info).memoryMapSize := by
        rw [mapSize_eq hb.valid, show i = mapCount s0.mem info by omega]
        exact lt_irrefl _
      rw [if_neg hstop, if_neg hstop]
      exact ⟨rfl, ha⟩

theorem walkMapped_agree (h : TreeInv s held) (ha : Agree s t) (page : ℕ) :
    walkMapped t page tableShifts (4096 * rootFrame s) = walkMapped s page tableShifts (4096 * rootFrame s) := by
  have hroot : node t [] = some (rootFrame s) := (ha.node_eq h (by simp)).trans (node_nil s)
  rw [Bool.eq_iff_iff, PagingWalk.walkMapped_iff (ha.treeInv h) tableShifts hroot rfl,
    PagingWalk.walkMapped_iff h tableShifts (node_nil s) rfl, ha.entryAt_eq h (by rfl)]

theorem mappedRange_agree (h : TreeInv s held) (ha : Agree s t) (base size : ℕ) :
    mappedRange t base size = mappedRange s base size := by
  unfold mappedRange
  simp only [ha.root, h.root_eq, walkMapped_agree h ha]

theorem requiredRegionsMapped_agree (hb : BootOk s0 info) (h : TreeInv s held) (hf : MemFrame s0 s)
    (ha : Agree s t) : requiredRegionsMapped info t = requiredRegionsMapped info s := by
  have htables : (List.range s.pagingTableCount).all (fun i => mappedRange s (t.tablePages i) 4096) =
      (List.range s.pagingTableCount).all (fun i => mappedRange s (s.tablePages i) 4096) := by
    rw [Bool.eq_iff_iff, List.all_eq_true, List.all_eq_true]
    apply forall₂_congr
    intro i hi
    rw [ha.tablePages (List.mem_range.mp hi)]
  unfold requiredRegionsMapped
  simp only [hb.bootInfo_eq hf, hb.bootInfo_eq (hf.trans (Agree.memFrame ha)), mappedRange_agree h ha,
    ha.count, htables]

theorem unmapGuards_agree (gs : List ℕ) (h : TreeInv s held) (ha : Agree s t) (hgs : ∀ g ∈ gs, g < Word64.size) :
    (unmapGuards gs t).1 = (unmapGuards gs s).1 ∧ Agree (unmapGuards gs s).2 (unmapGuards gs t).2 := by
  induction gs generalizing s t with
  | nil => exact ⟨rfl, ha⟩
  | cons g gs ih =>
    rw [unmapGuards, unmapGuards, mappedRange_agree h ha]
    cases hmap : mappedRange s g 4096 with
    | false => exact ⟨rfl, ha⟩
    | true =>
      have hpres := mappedRange_first h (hgs g (by simp)) hmap
      obtain ⟨n, htab, hn⟩ := leafTable_eq (v := g) h tableShifts (node_nil s) rfl hpres
      have hroot : node t [] = some (rootFrame s) := (ha.node_eq h (by simp)).trans (node_nil s)
      have hpres' : node t (upper g) ≠ none := by
        rw [ha.node_eq h (by rw [length_upper]; decide)]
        exact hpres
      obtain ⟨m, htab', hm⟩ := leafTable_eq (v := g) (ha.treeInv h) tableShifts hroot rfl hpres'
      rw [ha.node_eq h (by rw [List.nil_append, length_indices]; decide), hn] at hm
      obtain rfl := Option.some.inj hm
      obtain ⟨hleaf, -⟩ := writeLeaf_filled (V := fun _ => False) (x := 0) h g (length_upper g) hn
        (by decide) (.inl rfl)
      simp only [Bool.not_true, Bool.false_eq_true, if_false, ha.root, h.root_eq, htab, htab']
      exact ih hleaf.inv (ha.store64 _ 0) (fun x hx => hgs x (by simp [hx]))

theorem discardFrom_agree (n : ℕ) (ha : Agree s t) (hn : s.pagingTableCount = n) :
    Agree (discardFrom n s) (discardFrom n t) := by
  induction n generalizing s t with
  | zero => exact ha
  | succ n ih =>
    have hremoved := ha.removeAt (k := n) (by omega)
    have hsame : ∀ u : Machine, u.pagingTableCount = n + 1 →
        SwapArray.removeAt u.tablePages u.pagingTableCount n = u.tablePages := by
      intro u hu
      rw [SwapArray.removeAt, hu, Nat.add_sub_cancel, Function.update_eq_self]
    rw [hsame s hn, hsame t (ha.count.trans hn), ha.count, hn, Nat.add_sub_cancel] at hremoved
    rw [discardFrom, discardFrom, ha.tablePages (by omega)]
    exact ih (hremoved.freePage (s.tablePages n)) rfl

theorem discardPageTables_agree (ha : Agree s t) : Agree (discardPageTables s) (discardPageTables t) := by
  have hfrom := discardFrom_agree s.pagingTableCount ha rfl
  unfold discardPageTables
  rw [ha.count]
  exact ⟨hfrom.pmm, hfrom.mem, hfrom.live, hfrom.cpu, rfl, hfrom.previous, hfrom.active⟩

theorem activate_agree (ha : Agree s t) (cr4 : ℕ) : Agree (activatePageTables cr4 s) (activatePageTables cr4 t) := by
  unfold activatePageTables
  rw [ha.cpu, ha.root]
  exact ⟨ha.pmm, ha.mem, ha.live, rfl, rfl, rfl, rfl⟩

theorem fillRootWith_agree (hb : BootOk s0 info) (h : TreeInv s held) (hf : MemFrame s0 s) (ha : Agree s t)
    (fuel cr4 : ℕ) : (fillRootWith newTable fuel L info cr4 t).1 = (fillRootWith newTable fuel L info cr4 s).1 ∧
      Agree (fillRootWith newTable fuel L info cr4 s).2 (fillRootWith newTable fuel L info cr4 t).2 := by
  have hmap := mapBootRamFrom_agree (L := L) hb fuel 0 h hf ha (Nat.zero_le _)
  have hfilled := mapBootRamFrom_filled (L := L) info fuel 0 h
  rw [Nat.zero_mul] at hmap
  rw [fillRootWith_eq, fillRootWith_eq]
  rcases hs : mapBootRamFrom L info fuel 0 s with ⟨ok, s1⟩
  rcases ht : mapBootRamFrom L info fuel 0 t with ⟨ok', t1⟩
  rw [hs] at hfilled
  rw [hs, ht] at hmap
  obtain ⟨hres, hag⟩ := hmap
  simp only at hres hag
  subst hres
  cases ok' with
  | false => exact ⟨rfl, discardPageTables_agree hag⟩
  | true =>
    have hf1 : MemFrame s0 s1 := hf.trans (Frame.memFrame hfilled.frame)
    have hinfo : bootInfoAt t1.mem info = bootInfoAt s1.mem info :=
      (hb.bootInfo_eq (hf1.trans (Agree.memFrame hag))).trans (hb.bootInfo_eq hf1).symm
    simp only [requiredRegionsMapped_agree hb hfilled.inv hf1 hag]
    split
    · exact ⟨rfl, discardPageTables_agree hag⟩
    · obtain ⟨hres, hag'⟩ := unmapGuards_agree (stackGuards L (bootInfoAt s1.mem info)) hfilled.inv hag
        (stackGuards_lt L _)
      rw [unmapStackGuards, unmapStackGuards, hinfo]
      rcases hs2 : unmapGuards (stackGuards L (bootInfoAt s1.mem info)) s1 with ⟨ok, s2⟩
      rcases ht2 : unmapGuards (stackGuards L (bootInfoAt s1.mem info)) t1 with ⟨ok', t2⟩
      rw [hs2, ht2] at hres hag'
      simp only at hres hag'
      subst hres
      cases ok' with
      | false => exact ⟨rfl, discardPageTables_agree hag'⟩
      | true => exact ⟨rfl, activate_agree hag' cr4⟩

theorem rooted_agree (ha : Agree s t) (root : ℕ) : Agree (rooted s root) (rooted t root) where
  pmm := ha.pmm
  mem := ha.mem
  live := ha.live
  cpu := ha.cpu
  root := rfl
  previous := ha.previous
  active := ha.active

theorem pagingInitFor_agree {base : ℕ} (h : Idle s held base) (hb : BootOk s info) (ha : Agree s t) (fuel : ℕ) :
    (pagingInitFor fuel L info t).1 = (pagingInitFor fuel L info s).1 ∧
      Agree (pagingInitFor fuel L info s).2 (pagingInitFor fuel L info t).2 := by
  have hguard : (t.active || info == 0 || pmmTotal t.pmm == 0) = (s.active || info == 0 || pmmTotal s.pmm == 0) := by
    rw [ha.active, pmmTotal, pmmTotal, ha.pmm.totalPages]
  obtain ⟨hsame, hag⟩ := ha.newTable
  rw [pagingInitFor, pagingInitFor, pagingInitWith_unfold, pagingInitWith_unfold, hguard, ha.cpu, hsame]
  split
  · exact ⟨rfl, ha⟩
  · split
    · exact ⟨rfl, ha⟩
    · have hrooted := rooted_agree hag (newTable s).1
      split
      · exact ⟨rfl, hrooted⟩
      · rename_i hne
        obtain ⟨hnew, -⟩ | ⟨c, -, hfree, hmin, hnew⟩ := newTable_cases h.pmm
        · rw [hnew] at hne
          exact absurd rfl hne
        · have hplanted : rooted (newTable s).2 (newTable s).1 = planted s c := by rw [hnew, planted]
          have hfilling := planted_filling h hfree hmin L
          rw [hplanted] at hrooted ⊢
          exact fillRootWith_agree hb hfilling.tree hfilling.memory hrooted fuel s.cpu.cr4

end Later

/-- Worlds in which no `paging_init` has succeeded. Each call may get another BOOT_INFO, and the
    processor may change between calls. -/
inductive Dormant (L : Layout) : World → Prop where
  | start (m : Memory) (cpu : Cpu) : Dormant L (World.powerOn m cpu)
  | processor {w : World} (h : Dormant L w) (cpu : Cpu) :
      Dormant L ⟨{ w.machine with cpu := cpu }, w.ledger⟩
  | step {w : World} (h : Dormant L w) (info : ℕ) (c : Call) (hown : OwnPages w.ledger c)
      (hc : c ≠ .pagingInit) : Dormant L (next L info w c)
  | failed {w : World} (h : Dormant L w) (fuel info : ℕ)
      (hfail : (pagingInitFor fuel L info w.machine).1 = false) :
      Dormant L ⟨(pagingInitFor fuel L info w.machine).2, w.ledger⟩

section Dormant

variable {L : Layout} {w : World} {info base : ℕ}

theorem next_root (h : IdleWorld base w) (c : Call) (hc : c ≠ .pagingInit) :
    (next L info w c).machine.pagingRoot = w.machine.pagingRoot := by
  have hdyn := inactive_dynamicAddress h.idle.inactive
  cases c with
  | pagingInit => exact absurd rfl hc
  | pagingMap v p f => simp [next, call, pagingMap, hdyn]
  | pagingUnmap v => simp [next, call, pagingUnmap, hdyn]
  | pagingProtect v f => simp [next, call, pagingProtect, hdyn]
  | _ => rfl

theorem next_idle (h : IdleWorld base w) (info : ℕ) (c : Call) (hown : OwnPages w.ledger c)
    (hc : c ≠ .pagingInit) : ∃ base', IdleWorld base' (next L info w c) := by
  by_cases hinit : c = .pmmInit
  · subst hinit
    by_cases hready : w.machine.pmm.ready = true
    · have hsame : PmmModel.pmmInit w.machine.mem info w.machine.pmm = (false, w.machine.pmm) := by
        simp [PmmModel.pmmInit, hready]
      refine ⟨base, ?_, h.unmapped⟩
      simp only [next, call, record, hsame]
      exact h.idle
    · have hcold : IdleWorld info w :=
        ⟨⟨h.idle.pmm, h.idle.count, h.idle.inactive, h.idle.owned, fun hr => absurd hr hready⟩, h.unmapped⟩
      exact ⟨info, hcold.next .pmmInit hown (by simp)⟩
  · have hsame : next L info w c = next L base w c := by
      cases c with
      | pmmInit => exact absurd rfl hinit
      | pagingInit => exact absurd rfl hc
      | _ => rfl
    rw [hsame]
    exact ⟨base, h.next c hown fun he => absurd he hc⟩

theorem idle_agree {s t : Machine} {held : Finset ℕ} (h : Idle s held base) (ha : Agree s t) : Idle t held base where
  pmm := ha.pmm.inv'
  count := ha.count.trans h.count
  inactive := ha.active.trans h.inactive
  owned page := by
    rw [ha.pmm.allocated]
    exact h.owned page
  boot hr := (h.boot (by rw [← ha.pmm.ready]; exact hr)).frame (Agree.memFrame ha)

theorem Dormant.idle (h : Dormant L w) : ∃ base, IdleWorld base w ∧ w.machine.pagingRoot = 0 := by
  induction h with
  | start m cpu => exact ⟨0, powerOn_idle m cpu 0, rfl⟩
  | processor h cpu ih =>
    obtain ⟨base, hidle, hroot⟩ := ih
    have hi := hidle.idle
    exact ⟨base, ⟨⟨hi.pmm, hi.count, hi.inactive, hi.owned, fun hr => ⟨(hi.boot hr).valid, (hi.boot hr).eligible⟩⟩,
      hidle.unmapped⟩, hroot⟩
  | step h info c hown hc ih =>
    obtain ⟨base, hidle, hroot⟩ := ih
    obtain ⟨base', hnext⟩ := next_idle (L := L) hidle info c hown hc
    exact ⟨base', hnext, (next_root hidle c hc).trans hroot⟩
  | failed h fuel info hfail ih =>
    obtain ⟨base, hidle, hroot⟩ := ih
    obtain ⟨hag, -⟩ := pagingInitFor_failed hidle.idle hroot fuel info hfail
    exact ⟨base, ⟨idle_agree hidle.idle hag, hidle.unmapped⟩, hag.root.trans hroot⟩

/-- What a call that left `s'` behind has not touched. `cpu` has CR0, CR3, CR4 and the MSRs. -/
structure NoTrace (L : Layout) (s s' : Machine) : Prop where
  cpu : s'.cpu = s.cpu
  active : s'.active = s.active
  root : s'.pagingRoot = s.pagingRoot
  previous : s'.pagingPreviousCr3 = s.pagingPreviousCr3
  count : s'.pagingTableCount = s.pagingTableCount
  allocated : ∀ page, bit s'.pmm.allocated page = bit s.pmm.allocated page
  freePages : s'.pmm.freePages = s.pmm.freePages
  events : ∃ events, s'.trace = s.trace ++ events ∧ ∀ e ∈ events, Allowed (IsFree s.pmm) e
  memory : ∀ x, ¬ IsFree s.pmm (x / 4096) → s'.mem x = s.mem x
  later : ∀ fuel info cpu, BootOk s info →
    (pagingInitFor fuel L info { s' with cpu := cpu }).1 = (pagingInitFor fuel L info { s with cpu := cpu }).1 ∧
      Agree (pagingInitFor fuel L info { s with cpu := cpu }).2 (pagingInitFor fuel L info { s' with cpu := cpu }).2

/-- Wherever `paging_init` gives up, and whatever BOOT_INFO it was given, it leaves no trace. -/
theorem failed_paging_init_no_trace (L : Layout) :
    (∀ fuel info s, s.active = true → pagingInitFor fuel L info s = (false, s)) ∧
    ∀ w, Dormant L w → ∀ fuel info, (pagingInitFor fuel L info w.machine).1 = false →
      NoTrace L w.machine (pagingInitFor fuel L info w.machine).2 := by
  refine ⟨?_, ?_⟩
  · intro fuel info s hact
    simp [pagingInitFor, pagingInitWith, hact]
  · intro w hw fuel info hfail
    obtain ⟨base, hidle, hroot⟩ := hw.idle
    obtain ⟨hag, hconf⟩ := pagingInitFor_failed hidle.idle hroot fuel info hfail
    refine ⟨hag.cpu, hag.active, hag.root, hag.previous, hag.count, ?_, hag.pmm.freePages, hconf.trace, hconf.mem, ?_⟩
    · intro page
      rw [hag.pmm.allocated]
    · intro fuel' info' cpu hb
      have hi := hidle.idle
      have hidle' : Idle { w.machine with cpu := cpu } w.ledger.held base :=
        ⟨hi.pmm, hi.count, hi.inactive, hi.owned, fun hr => ⟨(hi.boot hr).valid, (hi.boot hr).eligible⟩⟩
      have hag' : Agree { w.machine with cpu := cpu } { (pagingInitFor fuel L info w.machine).2 with cpu := cpu } :=
        ⟨hag.pmm, hag.mem, hag.live, rfl, hag.root, hag.previous, hag.active⟩
      exact pagingInitFor_agree hidle' ⟨hb.valid, hb.eligible⟩ hag' fuel'

theorem prepared_dormant (L : Layout) (cpu : Cpu) {m : Memory} (h : ValidMap m info) :
    Dormant L ⟨prepared m cpu info, Ledger.blank⟩ := by
  have hstep : next L info (World.powerOn m cpu) .pmmInit = ⟨prepared m cpu info, Ledger.blank⟩ := run_pmmInit L cpu h
  rw [← hstep]
  exact (Dormant.start m cpu).step info .pmmInit trivial (by simp)

/-- The small machine with its stack up to the end of the range: no RAM for the guard above it. -/
def outsideMemory : Memory := handoffMemory 0x201000 0x213000 0x10000

theorem outside_laidOut : LaidOut outsideMemory 0x201000 0x213000 0x10000 :=
  laidOut_of_bytes (by decide +kernel) (by decide +kernel) (by decide) (by decide)

def outsideWorld : World := ⟨prepared outsideMemory smallCpu smallInfo, Ledger.blank⟩

/-- The tables are built and the regions are found in them before the guard is not. -/
theorem small_no_trace : Dormant smallLayout outsideWorld ∧
    (∃ c s1, newTable outsideWorld.machine = (4096 * c, withTable outsideWorld.machine c) ∧
      mapBootRam smallLayout smallInfo (planted outsideWorld.machine c) = (true, s1) ∧
      requiredRegionsMapped smallInfo s1 = true) ∧
    (pagingInitFor 65537 smallLayout smallInfo outsideWorld.machine).1 = false ∧
    NoTrace smallLayout outsideWorld.machine (pagingInitFor 65537 smallLayout smallInfo outsideWorld.machine).2 := by
  have hvalid := outside_laidOut.valid
  have hidle : Idle outsideWorld.machine ∅ smallInfo := prepared_idle smallCpu hvalid
  have hok : BootOk outsideWorld.machine smallInfo := ⟨hvalid, initialised_eligible _⟩
  have hample : Ample outsideWorld.machine ∅ := LaidOut.ample outside_laidOut smallCpu
  have hdormant : Dormant smallLayout outsideWorld := prepared_dormant smallLayout smallCpu hvalid
  have hfail : (pagingInitFor 65537 smallLayout smallInfo outsideWorld.machine).1 = false := by
    rw [← pagingInit_eq_for]
    obtain ⟨s', hi, -⟩ | ⟨s', -, hinst⟩ := pagingInit_cases (L := smallLayout) hidle
    · rw [hi]
    · -- the guard above the stack would have to be RAM
      have hguards : GuardsOk (BootRam outsideMemory smallInfo)
          (stackGuards smallLayout (bootInfoAt outsideMemory smallInfo)) := hinst.guards
      rw [LaidOut.stackGuards_eq outside_laidOut (by decide)] at hguards
      obtain ⟨-, hhigh, -⟩ := hguards
      have hram := (hhigh.pages 0x223000 (by decide) (by decide) (by decide)).1
      have hranges := (LaidOut.bootRam_iff outside_laidOut 0x223000).mp hram
      omega
  obtain ⟨c, hfree, hmin, hnew⟩ := newTable_of_ample hidle hample
  obtain ⟨s1, hmap, hframe, hbuilt⟩ := mapBootRam_of_ample (L := smallLayout) hidle hok hample (LaidOut.writeBack outside_laidOut) hfree hmin
  have hregions := (requiredRegionsMapped_iff hok hframe hbuilt).mpr (LaidOut.regions outside_laidOut)
  exact ⟨hdormant, ⟨c, s1, hnew, hmap, hregions⟩, hfail,
    (failed_paging_init_no_trace smallLayout).2 outsideWorld hdormant 65537 smallInfo hfail⟩

end Dormant

end OsByAi.PagingInitFailure
