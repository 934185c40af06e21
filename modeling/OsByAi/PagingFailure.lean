import OsByAi.PagingAddressSpace

set_option autoImplicit false

namespace OsByAi.PagingFailure
open ByteMemory PackedBitmap PmmModel PmmInvariant PmmBootMap
open PagingModel PagingEntries PagingTree PagingWalk PagingGrowth PagingAgree PagingReclaim PagingDynamic PagingInit KernelRuns PagingAddressSpace

section Calls

variable {s t : Machine} {held : Finset ℕ} {v : ℕ}

theorem dynamicAddress_agree (ha : Agree s t) (v : ℕ) : dynamicAddress t v = dynamicAddress s v := by
  unfold dynamicAddress
  rw [ha.active, ha.cpu]

theorem path_agree (h : TreeInv s held) (ha : Agree s t) (v : ℕ) : path t v = path s v := by
  have hroot : rootFrame t = rootFrame s := ha.sameTables.rootFrame_eq
  have hleaf := ha.leafOf_eq h v
  obtain ⟨heven, hp⟩ | ⟨n1, n2, n3, hodd, h1, h2, h3, hp⟩ := path_cases h v <;>
    obtain ⟨heven', hp'⟩ | ⟨m1, m2, m3, hodd', h1', h2', h3', hp'⟩ := path_cases (ha.treeInv h) v
  · rw [hp, hp']
  · omega
  · omega
  · rw [ha.node_eq h (by simp), h1] at h1'
    rw [ha.node_eq h (by simp), h2] at h2'
    rw [ha.node_eq h (by rw [length_upper]; decide), h3] at h3'
    rw [hp, hp', hroot, Option.some.inj h1', Option.some.inj h2', Option.some.inj h3']

theorem query_agree (h : TreeInv s held) (ha : Agree s t) (v : ℕ) (physical : Option ℕ)
    (flags : Option Flags) : pagingQuery v physical flags t = pagingQuery v physical flags s := by
  unfold pagingQuery
  rw [dynamicAddress_agree ha, path_agree h ha]
  obtain ⟨-, hp⟩ | ⟨n1, n2, n3, -, h1, h2, h3, hp⟩ := path_cases h v
  · rw [hp]
  · rw [hp]
    simp only [ha.load_slot h (length_upper v).le h3]

theorem protect_agree (h : TreeInv s held) (ha : Agree s t) (v : ℕ) (f : Flags) :
    (pagingProtect v f t).1 = (pagingProtect v f s).1 ∧
      Agree (pagingProtect v f s).2 (pagingProtect v f t).2 := by
  unfold pagingProtect
  rw [dynamicAddress_agree ha, path_agree h ha]
  split
  · exact ⟨rfl, ha⟩
  · obtain ⟨-, hp⟩ | ⟨n1, n2, n3, -, h1, h2, h3, hp⟩ := path_cases h v
    · rw [hp]
      exact ⟨rfl, ha⟩
    · rw [hp]
      simp only [ha.load_slot h (length_upper v).le h3]
      exact ⟨trivial, (ha.store64 _ _).invalidatePage _⟩

theorem unmap_eq {t0 t1 t2 n : ℕ} (hd : dynamicAddress s v = true)
    (hp : path s v = some [t0, t1, t2, 4096 * n]) :
    pagingUnmap v s = (true, reclaim v
      [(4096 * n, slot t2 v 21), (t2, slot t1 v 30), (t1, slot t0 v 39)] (leafWritten s n v 0)) := by
  unfold pagingUnmap leafWritten
  rw [hd, hp]
  rfl

theorem answers_agree {a b : Bool × Machine} {s' t' : Machine} (ok : Bool) (hs : a = (ok, s'))
    (ht : b = (ok, t')) (ha : Agree s' t') : b.1 = a.1 ∧ Agree a.2 b.2 := by
  subst hs ht
  exact ⟨rfl, ha⟩

theorem unmap_agree (h : DynInv s held) (hv : v < Word64.size) (ha : Agree s t) :
    (pagingUnmap v t).1 = (pagingUnmap v s).1 ∧
      Agree (pagingUnmap v s).2 (pagingUnmap v t).2 := by
  have hpath := path_agree h.tree ha v
  have hdyn := dynamicAddress_agree ha v
  obtain ⟨-, hd | hp⟩ | ⟨n1, n2, n3, page, g, hw, hd, -, -, -, -, h1, h2, h3, hp⟩ := h.find hv
  · exact answers_agree false (by simp [pagingUnmap, hd]) (by simp [pagingUnmap, hdyn, hd]) ha
  · exact answers_agree false (by simp [pagingUnmap, hp]) (by simp [pagingUnmap, hpath, hp])
      ha
  · obtain ⟨hexc, -⟩ := leafWritten_spec (h.except _) hw h3 (.inl rfl)
    have hspine := leafWritten_spine (h.except _) hw h1 h2 h3
    have hag : Agree (leafWritten s n3 v 0) (leafWritten t n3 v 0) :=
      (ha.store64 (slot (4096 * n3) v 12) 0).invalidatePage v
    have hall := reclaim_agree hspine hexc.tree (length_upper v).le hag
    exact answers_agree true (unmap_eq hd hp) (unmap_eq (hdyn.trans hd) (hpath.trans hp)) hall

theorem isTablePage_agree (ha : Agree s t) (a : ℕ) : isTablePage t a = isTablePage s a := by
  rw [Bool.eq_iff_iff, isTablePage_iff, isTablePage_iff, ha.live]

theorem map_agree (h : TreeInv s held) (ha : Agree s t) (v physical : ℕ) (f : Flags) :
    (pagingMap v physical f t).1 = (pagingMap v physical f s).1 ∧
      Agree (pagingMap v physical f s).2 (pagingMap v physical f t).2 := by
  unfold pagingMap
  rw [dynamicAddress_agree ha, ha.pmm.isAllocated, isTablePage_agree ha, ha.root, h.root_eq]
  split
  · exact ⟨rfl, ha⟩
  · split
    · exact ⟨rfl, ha⟩
    · obtain ⟨hres, hag⟩ := mapWalk_agree (v := v) tableShifts [] h ha (node_nil s) rfl
      obtain ⟨hgrown, -, hend⟩ := descend_spec v tableShifts h (node_nil s) rfl
      cases hs : mapWalk v tableShifts (4096 * rootFrame s) [] s with
      | mk leaf s1 =>
        cases ht : mapWalk v tableShifts (4096 * rootFrame s) [] t with
        | mk leaf' t1 =>
          rw [hs, ht] at hres hag
          simp only at hres hag
          subst hres
          cases leaf' with
          | none => exact ⟨rfl, hag⟩
          | some table =>
            have heq := mapWalk_some _ _ _ _ (by rw [hs])
            rw [hs] at heq
            rw [← heq] at hgrown hend
            obtain ⟨m, rfl, hm⟩ := hend table rfl
            have hload := hag.load_slot hgrown.inv (length_upper v).le hm v 12
            simp only [hload]
            split
            · exact ⟨rfl, hag⟩
            · exact ⟨rfl, (hag.store64 _ _).invalidatePage v⟩

end Calls

def replies (L : Layout) (info : ℕ) : Machine → List Call → List Reply
  | _, [] => []
  | s, c :: calls => (call L info s c).1 :: replies L info (call L info s c).2 calls

section Runs

variable {L : Layout} {info : ℕ} {base t : Machine} {w : World}

theorem agree_pmm {s : Machine} {p q : Pmm} (ha : Agree s t) (hp : SamePages p q)
    (he : p.eligible = s.pmm.eligible) : Agree { s with pmm := p } { t with pmm := q } where
  pmm := hp
  mem x hx := ha.mem x (hx.imp_left fun h => he ▸ h)
  live := ha.live
  cpu := ha.cpu
  root := ha.root
  previous := ha.previous
  active := ha.active

theorem agree_write {s : Machine} (ha : Agree s t) (a : ℕ) (value : UInt8) :
    Agree { s with mem := Function.update s.mem a value }
      { t with mem := Function.update t.mem a value } where
  pmm := ha.pmm
  mem x hx := by
    by_cases hxa : x = a
    · simp [hxa]
    · simp only [Function.update_of_ne hxa]
      exact ha.mem x hx
  live := ha.live
  cpu := ha.cpu
  root := ha.root
  previous := ha.previous
  active := ha.active

theorem eligible_alloc {p : Pmm} (h : Inv p) (out : Option ℕ) :
    (pmmAlloc p out).2.2.eligible = p.eligible := by
  obtain ⟨ha, -⟩ | ⟨page, -, -, -, -, ha⟩ := h.alloc_cases out
  · rw [ha]
  · rw [ha, takePage]

theorem eligible_free {p : Pmm} (h : Inv p) (a : ℕ) : (pmmFree p a).2.eligible = p.eligible := by
  obtain ⟨ha, -⟩ | ⟨-, -, ha⟩ := h.free_cases a
  · rw [ha]
  · rw [ha, givePage]

theorem call_agree (h : ActiveWorld base w) (ha : Agree w.machine t) (c : Call) :
    (call L info t c).1 = (call L info w.machine c).1 ∧
      Agree (call L info w.machine c).2 (call L info t c).2 := by
  have hinv := h.dyn.tree.pmm
  cases c with
  | pmmInit =>
    have hs : pmmInit w.machine.mem info w.machine.pmm = (false, w.machine.pmm) := by
      simp [pmmInit, DynInv.ready h.dyn]
    have ht : pmmInit t.mem info t.pmm = (false, t.pmm) := by
      simp [pmmInit, ha.pmm.ready, DynInv.ready h.dyn]
    simp only [call, hs, ht]
    exact ⟨trivial, ha⟩
  | pmmAlloc address =>
    obtain ⟨h1, h2, h3⟩ := ha.pmm.alloc address
    simp only [call, h1, h2]
    exact ⟨trivial, agree_pmm ha h3 (eligible_alloc hinv address)⟩
  | pmmFree a =>
    obtain ⟨h1, h2⟩ := ha.pmm.free a.toNat
    simp only [call, h1]
    exact ⟨trivial, agree_pmm ha h2 (eligible_free hinv a.toNat)⟩
  | pmmIsAllocated a =>
    simp only [call, ha.pmm.isAllocated]
    exact ⟨trivial, ha⟩
  | pmmTotal =>
    simp only [call, PmmModel.pmmTotal, ha.pmm.totalPages]
    exact ⟨trivial, ha⟩
  | pmmAvailable =>
    simp only [call, PmmModel.pmmAvailable, ha.pmm.freePages]
    exact ⟨trivial, ha⟩
  | pagingInit =>
    have hs : pagingInit L info w.machine = (false, w.machine) := by
      simp [pagingInit, pagingInitWith, h.dyn.active]
    have ht : pagingInit L info t = (false, t) := by
      simp [pagingInit, pagingInitWith, ha.active, h.dyn.active]
    simp only [call, hs, ht]
    exact ⟨trivial, ha⟩
  | pagingMap v p f =>
    obtain ⟨h1, h2⟩ := map_agree h.dyn.tree ha v.toNat p.toNat f
    simp only [call, h1]
    exact ⟨trivial, h2⟩
  | pagingUnmap v =>
    obtain ⟨h1, h2⟩ := unmap_agree h.dyn (toNat_lt_size v) ha
    simp only [call, h1]
    exact ⟨trivial, h2⟩
  | pagingProtect v f =>
    obtain ⟨h1, h2⟩ := protect_agree h.dyn.tree ha v.toNat f
    simp only [call, h1]
    exact ⟨trivial, h2⟩
  | pagingQuery v p f =>
    simp only [call, query_agree h.dyn.tree ha]
    exact ⟨trivial, ha⟩
  | write a value => exact ⟨rfl, agree_write ha a value⟩

theorem replies_agree (calls : List Call) (h : ActiveWorld base w) (ha : Agree w.machine t)
    (hc : Follows OwnPages L info w calls) :
    replies L info t calls = replies L info w.machine calls := by
  induction calls generalizing w t with
  | nil => rfl
  | cons c calls ih =>
    obtain ⟨hreply, hag⟩ : _ ∧ Agree (call L info w.machine c).2 (call L info t c).2 :=
      call_agree h ha c
    rw [replies, replies, hreply]
    congr 1
    exact ih (h.next c hc.1) hag hc.2

def Dynamic : Call → Prop
  | .pagingMap _ _ _ | .pagingUnmap _ | .pagingProtect _ _ | .pagingQuery _ _ _ => True
  | _ => False

structure Invisible (L : Layout) (info : ℕ) (w : World) (c : Call) : Prop where
  tables : ∀ a ∈ liveTables w.machine, ∀ x, 4096 * (x / 4096) = a →
    (call L info w.machine c).2.mem x = w.machine.mem x
  live : liveTables (call L info w.machine c).2 = liveTables w.machine
  count : (call L info w.machine c).2.pagingTableCount = w.machine.pagingTableCount
  allocated : (call L info w.machine c).2.pmm.allocated = w.machine.pmm.allocated
  free : (call L info w.machine c).2.pmm.freePages = w.machine.pmm.freePages
  outputs : ∀ v physical flags, c = .pagingQuery v physical flags →
    (call L info w.machine c).1.address = physical ∧ (call L info w.machine c).1.flags = flags
  later : ∀ calls, Follows OwnPages L info w calls →
    replies L info (call L info w.machine c).2 calls = replies L info w.machine calls
  present : ∀ v p f, c = .pagingMap v p f → w.ledger.mapping v.toNat ≠ none →
    (call L info w.machine c).2 = w.machine

theorem failed_agrees (h : ActiveWorld base w) {c : Call} (hd : Dynamic c)
    (hfail : (call L info w.machine c).1.ok = false) :
    Agree w.machine (call L info w.machine c).2 := by
  have hrefl := Agree.refl h.dyn.tree.pmm
  cases c with
  | pagingMap v p f =>
    obtain ⟨s', hm, -, hag⟩ | ⟨s', hm, -⟩ := map_cases h.dyn (toNat_lt_size v) p.toNat f
    · simp only [call, hm]
      exact hag
    · simp [call, hm] at hfail
  | pagingUnmap v =>
    obtain ⟨hm, -⟩ | ⟨s', hm, -⟩ := unmap_cases h.dyn (toNat_lt_size v)
    · simp only [call, hm]
      exact hrefl
    · simp [call, hm] at hfail
  | pagingProtect v f =>
    obtain ⟨hm, -⟩ | ⟨a, g, s', hm, -⟩ := protect_cases h.dyn (toNat_lt_size v) f
    · simp only [call, hm]
      exact hrefl
    · simp [call, hm] at hfail
  | pagingQuery v p f => exact hrefl
  | _ => exact absurd hd (by simp [Dynamic])

theorem query_fails_unchanged {s : Machine} {v : ℕ} {physical : Option ℕ} {flags : Option Flags}
    (hfail : (pagingQuery v physical flags s).1 = false) :
    (pagingQuery v physical flags s).2 = (physical, flags) := by
  unfold pagingQuery at hfail ⊢
  split
  · rfl
  · rename_i hguard
    rw [if_neg hguard] at hfail
    split
    · rename_i hp
      rw [hp] at hfail
      exact absurd hfail (by simp)
    · rfl

/-- Every failing call of the dynamic interface, in every run, is invisible. -/
theorem failed_paging_call_invisible {before after : World} (h : Booted L info before after)
    {calls : List Call} (hc : Follows OwnPages L info after calls) {c : Call} (hd : Dynamic c)
    (hfail : (call L info (run L info after calls).machine c).1.ok = false) :
    Invisible L info (run L info after calls) c := by
  obtain ⟨-, -, -, hact⟩ := h.cases
  have hw := hact.run hc
  generalize run L info after calls = w at hw hfail ⊢
  have hag := failed_agrees hw hd hfail
  refine ⟨?_, hag.live, hag.count, hag.pmm.allocated, hag.pmm.freePages, ?_, ?_, ?_⟩
  · rintro a ha x rfl
    exact hag.mem x (.inr ha)
  · rintro v physical flags rfl
    have := query_fails_unchanged hfail
    exact ⟨congrArg Prod.fst this, congrArg Prod.snd this⟩
  · intro later hlater
    exact replies_agree later hw hag hlater
  · rintro v p f rfl hm
    rw [← hw.map] at hm
    have hodd : leafOf w.machine v.toNat % 2 = 1 := by
      unfold dynamicMap at hm
      by_contra hno
      exact hm (if_neg fun hc => hno hc.2)
    simp only [call, map_present hw.dyn.tree hodd]

theorem follows_alloc (L : Layout) (info : ℕ) (w : World) (k : ℕ) :
    Follows OwnPages L info w (List.replicate k (.pmmAlloc (some 0))) := by
  induction k generalizing w with
  | zero => trivial
  | succ k ih => exact ⟨trivial, ih _⟩

/-- The callers have taken all pages but two, and one of theirs is to be mapped: `paging_map` makes two of the
    three tables it needs and gives up. -/
structure Exhausted (L : Layout) (info : ℕ) (w : World) (page : ℕ) : Prop where
  held : page ∈ w.ledger.held
  unmapped : w.ledger.mapping 0xffff800000000000 = none
  free : w.machine.pmm.freePages = 2
  missing : missing w.machine [] (upper 0xffff800000000000) = 3
  fails : (call L info w.machine (.pagingMap 0xffff800000000000 (BitVec.ofNat 64 (4096 * page)) 3)).1.ok = false

theorem exhausted_run {before after : World} (h : Booted L info before after) (hblank : after.ledger = Ledger.blank) {k : ℕ}
    (hk : after.machine.pmm.freePages = k + 2) (hpos : 0 < k) :
    ∃ page, Exhausted L info (run L info after (List.replicate k (.pmmAlloc (some 0)))) page := by
  obtain ⟨-, -, hinst, hact⟩ := h.cases
  have hrun := hact.run (follows_alloc L info after k)
  obtain ⟨pmm, held, htaken, hfree, hcard⟩ := @ActiveWorld.alloc_run L info after.machine after hact k (by omega) 0
  rw [htaken] at hrun ⊢
  obtain ⟨page, hpage⟩ : held.Nonempty := by
    rw [← Finset.card_pos]
    omega
  have hmissing : missing after.machine [] (upper 0xffff800000000000) = 3 := Installed.missing_eq hinst (by decide)
  refine ⟨page, hpage, by rw [hblank]; rfl, by simp only [hfree]; omega, hmissing, ?_⟩
  obtain ⟨s', hm, -⟩ | ⟨s', -, hok, -⟩ := map_cases hrun.dyn (toNat_lt_size 0xffff800000000000)
    (BitVec.ofNat 64 (4096 * page)).toNat 3
  · simp only [call, hm]
  · have hfits := hok.fits.2
    change missing after.machine [] (upper 0xffff800000000000) ≤ pmm.freePages at hfits
    omega

theorem small_failure : ∃ k page, Exhausted smallLayout smallInfo
      (run smallLayout smallInfo smallAfter (List.replicate k (.pmmAlloc (some 0)))) page ∧
    Invisible smallLayout smallInfo (run smallLayout smallInfo smallAfter (List.replicate k (.pmmAlloc (some 0))))
      (.pagingMap 0xffff800000000000 (BitVec.ofNat 64 (4096 * page)) 3) := by
  obtain ⟨-, hledger, -, -⟩ := small_booted.cases
  obtain ⟨hroom, -⟩ := small_room
  obtain ⟨k, hk⟩ := Nat.exists_eq_add_of_le hroom
  rw [show 2042 + k = (2040 + k) + 2 by omega] at hk
  obtain ⟨page, hpage⟩ := exhausted_run small_booted hledger hk (by omega)
  exact ⟨_, page, hpage, failed_paging_call_invisible small_booted (follows_alloc _ _ _ _) trivial hpage.fails⟩

end Runs

end OsByAi.PagingFailure
