import OsByAi.TranslationCache
import OsByAi.PagingBlocks

set_option autoImplicit false

/-!
# No stale entry survives a dynamic call

Along the events of a call the cache holds current entries, and between a store and the
invalidation after it also entries that are dead and that the invalidation is about to
drop. Each step of a call keeps this, so a table that is handed back is named by no
cached entry, and on return everything cached is what a walk finds.
-/
namespace OsByAi.PagingCoherence
open ByteMemory PackedBitmap PmmModel PmmInvariant PagingModel PagingEntries PagingTree PagingWalk
open PagingGrowth PagingAgree PagingReclaim PagingDynamic PagingBlocks TranslationCache WalkCache

/-- Every cached entry is current, or dead and in `P`; none was read before the last CR3 load. -/
structure Sees (P : Entries → Prop) (c : Core) (s : Machine) : Prop where
  inStep : InStep c s
  root : s.cpu.cr3 = s.pagingRoot
  fresh : ∀ x ∈ c.cache, x.record.tag = c.loads
  short : ∀ x ∈ c.cache, x.record.path.length ≤ 4
  current : ∀ x ∈ c.cache, Current child 0 (tables s.mem) (rootFrame s) x.record ∨
    (Dead child (tables s.mem) (rootFrame s) 3 x.record ∧ P x.record)

abbrev Coherent (c : Core) (s : Machine) : Prop := Sees (fun _ => False) c s

/-- What `invlpg` drops. -/
def Doomed (v : ℕ) (x : Entries) : Prop := ¬ (IsLeaf x ∧ ¬ x.path <+: fullPath v)

section Sees

variable {P : Entries → Prop} {c c' : Core} {s t : Machine} {v : ℕ}

theorem Sees.now (h : Coherent c s) {x : Cached} (hx : x ∈ c.cache) :
    Current child 0 (tables s.mem) (rootFrame s) x.record := by
  rcases h.current x hx with hcur | ⟨-, hno⟩
  · exact hcur
  · exact absurd hno id

theorem Sees.fills (h : Sees P c s) (hf : c.Fills c') : Sees P c' s := by
  have hstep := h.inStep.fills hf
  obtain ⟨cache, rfl, hcache⟩ := hf
  have hroot : c.cr3 / 4096 = rootFrame s := by
    rw [h.inStep.cr3, h.root, rootFrame]
  have old : ∀ x ∈ Cached.record '' c.cache, x.tag = c.loads ∧ x.path.length ≤ 4 ∧
      (Current child 0 (tables s.mem) (rootFrame s) x ∨
        (Dead child (tables s.mem) (rootFrame s) 3 x ∧ P x)) := by
    rintro _ ⟨x, hx, rfl⟩
    exact ⟨h.fresh x hx, h.short x hx, h.current x hx⟩
  refine ⟨hstep, h.root, ?_, ?_, ?_⟩ <;> intro x hx <;> rcases hcache x hx with hold | hnew
  · exact h.fresh x hold
  · rcases hnew.walked.tag_cases with htag | ⟨y, hy, htag⟩
    · exact htag
    · rw [← htag]
      exact (old y hy).1
  · exact h.short x hold
  · exact hnew.walked.length_le fun y hy => (old y hy).2.1
  · exact h.current x hold
  · have hwalk := hnew.walked
    rw [h.inStep.mem, hroot] at hwalk
    rcases hwalk.current_or rfl fun y hy => (old y hy).2.2.imp_right And.left with hcur | hmem
    · exact .inl hcur
    · exact (old _ hmem).2.2

theorem Sees.invlpg (h : Sees (Doomed v) c s) : Coherent (c.apply (.invlpg v)) (s.invalidatePage v) := by
  refine ⟨⟨h.inStep.mem, h.inStep.cr3, h.inStep.cr4⟩, h.root, fun x hx => h.fresh x hx.1, fun x hx => h.short x hx.1, ?_⟩
  rintro x ⟨hx, hleaf, hoff⟩
  rcases h.current x hx with hcur | ⟨-, hdoomed⟩
  · exact .inl hcur
  · exact absurd ⟨hleaf, hoff⟩ hdoomed

theorem Sees.store (h : Coherent c s) (a w : ℕ)
    (hstore : ∀ x : Entries, x.path.length ≤ 4 → Current child 0 (tables s.mem) (rootFrame s) x →
      Current child 0 (tables (s.store64 a w).mem) (rootFrame s) x ∨
        (Dead child (tables (s.store64 a w).mem) (rootFrame s) 3 x ∧ P x)) :
    Sees P (c.apply (.store a w)) (s.store64 a w) := by
  refine ⟨⟨?_, h.inStep.cr3, h.inStep.cr4⟩, h.root, h.fresh, h.short, ?_⟩
  · change ByteMemory.store c.mem a 8 w = ByteMemory.store s.mem a 8 w
    rw [h.inStep.mem]
  · exact fun x hx => hstore x.record (h.short x hx) (h.now hx)

theorem Sees.congr (h : Coherent c s) (hstep : InStep c t) (hroot : t.cpu.cr3 = t.pagingRoot)
    (hentry : ∀ q i, q.length ≤ 3 → entryAt t q i = entryAt s q i) : Coherent c t := by
  refine ⟨hstep, hroot, h.fresh, h.short, fun x hx => .inl ((h.now hx).congr fun q i hq => hentry q i ?_)⟩
  have hlen := hq.length_le
  have hshort := h.short x hx
  simp at hlen
  omega

theorem named_live {held : Finset ℕ} (h : TreeInv s held) {x : Entries}
    (hx : Current child 0 (tables s.mem) (rootFrame s) x) {a : ℕ} (ha : a ∈ tablesOf x) : a ∈ liveTables s := by
  obtain ⟨w, hw, rfl⟩ := List.mem_map.mp ha
  obtain ⟨k, hk, hget⟩ := List.mem_take_iff_getElem.mp hw
  have hklen : k < x.path.length := by
    rw [← hx.length]
    omega
  have hpre : x.path.take k ++ [x.path[k]] <+: x.path := by
    rw [List.take_append_getElem]
    exact List.take_prefix _ _
  have htake : (x.path.take k).length = k := by
    rw [List.length_take]
    omega
  obtain ⟨hword, hchild⟩ := hx.words _ _ hpre
  rw [htake, List.getElem?_eq_getElem (by omega), hget, Option.some.injEq] at hword
  have hodd : w % 2 = 1 := by
    by_contra heven
    rw [← hword] at hchild
    exact hchild (child_of_even (by omega))
  have hnode : node s (x.path.take k ++ [x.path[k]]) = some (w / 4096 % 2 ^ 40) := by
    rw [node_concat, show entryAt s (x.path.take k) x.path[k] = w from hword.symm, child_of_odd hodd]
  rw [and_addressMask]
  refine h.node_live ?_ hnode
  simp only [List.length_append, htake, List.length_singleton]
  omega

end Sees

/-- From `s` to `t` a coherent core stays coherent, and no page is handed back while it is named. -/
structure Safe (s t : Machine) : Prop where
  emitted : s.trace <+: t.trace
  coherent : ∀ c c' es, t.trace = s.trace ++ es → Coherent c s → Plays c es c' → Coherent c' t
  handedBack : ∀ c c' pre post a, t.trace = s.trace ++ (pre ++ .pmmFree a :: post) → Coherent c s →
    Plays c pre c' → ∀ x ∈ c'.cache, a ∉ tablesOf x.record

section Safe

variable {s t u : Machine} {held : Finset ℕ} {v : ℕ}

theorem Safe.trans (h : Safe s t) (h' : Safe t u) : Safe s u := by
  obtain ⟨fs, hfs⟩ := h.emitted
  obtain ⟨gs, hgs⟩ := h'.emitted
  have hwhole : ∀ es, u.trace = s.trace ++ es → es = fs ++ gs := by
    intro es hes
    rw [← hgs, ← hfs, List.append_assoc] at hes
    exact (List.append_cancel_left hes).symm
  refine ⟨h.emitted.trans h'.emitted, ?_, ?_⟩
  · intro c c' es hes hc hp
    rw [hwhole es hes] at hp
    obtain ⟨m, hm, hrest⟩ := plays_append hp
    exact h'.coherent m c' gs hgs.symm (h.coherent c m fs hfs.symm hc hm) hrest
  · intro c c' pre post a hes hc hp
    -- the page goes back in the first part or in the second
    rcases List.append_eq_append_iff.mp (hwhole _ hes) with ⟨rest, hpre, hgs'⟩ | ⟨rest, hpre, hfs'⟩
    · cases rest with
      | nil =>
        rw [List.append_nil] at hpre
        rw [List.nil_append] at hgs'
        refine h'.handedBack c' c' [] post a ?_ (h.coherent c c' fs hfs.symm hc (hpre ▸ hp)) (.idle (fills_refl c'))
        rw [← hgs, List.nil_append, hgs']
      | cons e rest =>
        obtain ⟨rfl, hpost⟩ := List.cons.inj hgs'
        refine h.handedBack c c' pre rest a ?_ hc hp
        rw [← hfs, hpre]
    · rw [hpre] at hp
      obtain ⟨m, hm, hrest⟩ := plays_append hp
      refine h'.handedBack m c' rest post a ?_ (h.coherent c m fs hfs.symm hc hm) hrest
      rw [← hgs, hfs']

theorem safe_unseen (hm : t.mem = s.mem) (hcpu : t.cpu = s.cpu) (hroot : t.pagingRoot = s.pagingRoot)
    (htrace : t.trace = s.trace) : Safe s t := by
  refine ⟨by rw [htrace], ?_, ?_⟩
  · intro c c' es hes hc hp
    obtain rfl : es = [] := by
      rw [htrace] at hes
      simpa using hes
    have hc' := hc.fills (plays_nil hp)
    refine hc'.congr ⟨?_, ?_, ?_⟩ ?_ ?_
    · rw [hm, hc'.inStep.mem]
    · rw [hcpu, hc'.inStep.cr3]
    · rw [hcpu, hc'.inStep.cr4]
    · rw [hcpu, hroot, hc'.root]
    · intro q i _
      rw [entryAt, entryAt, rootFrame, rootFrame, hm, hroot]
  · intro c c' pre post a hes
    rw [htrace] at hes
    simp at hes

theorem Safe.refl (s : Machine) : Safe s s := safe_unseen rfl rfl rfl rfl

theorem safe_store {a w : ℕ} (hstore : ∀ c, Coherent c s → Coherent (c.apply (.store a w)) (s.store64 a w)) :
    Safe s (s.store64 a w) := by
  have htrace : (s.store64 a w).trace = s.trace ++ [.store a w] := rfl
  refine ⟨⟨_, htrace.symm⟩, ?_, ?_⟩
  · intro c c' es hes hc hp
    rw [htrace] at hes
    obtain rfl := List.append_cancel_left hes
    obtain ⟨c₁, hf, hrest⟩ := plays_cons hp
    exact (hstore c₁ (hc.fills hf)).fills (plays_nil hrest)
  · intro c c' pre post b hes
    rw [htrace] at hes
    have := List.append_cancel_left hes
    rcases pre with _ | ⟨e, pre⟩ <;> simp at this

theorem safe_invalidated {a w : ℕ}
    (hstore : ∀ c, Coherent c s → Sees (Doomed v) (c.apply (.store a w)) (s.store64 a w)) :
    Safe s ((s.store64 a w).invalidatePage v) := by
  have htrace : ((s.store64 a w).invalidatePage v).trace = s.trace ++ [.store a w, .invlpg v] := by
    simp [Machine.invalidatePage, Machine.store64]
  refine ⟨⟨_, htrace.symm⟩, ?_, ?_⟩
  · intro c c' es hes hc hp
    rw [htrace] at hes
    obtain rfl := List.append_cancel_left hes
    obtain ⟨c₁, hf, hrest⟩ := plays_cons hp
    obtain ⟨c₂, hf₂, hrest⟩ := plays_cons hrest
    exact (((hstore c₁ (hc.fills hf)).fills hf₂).invlpg).fills (plays_nil hrest)
  · intro c c' pre post b hes
    rw [htrace] at hes
    have := List.append_cancel_left hes
    rcases pre with _ | ⟨e, _ | ⟨e', pre⟩⟩ <;> simp at this

theorem safe_store_outside (h : TreeInv s held) (hs : SameTables s t) (a w page : ℕ)
    (hlo : 4096 * page ≤ a) (hhi : a + 8 ≤ 4096 * (page + 1)) (hoff : 4096 * page ∉ liveTables s) :
    SameTables s (t.store64 a w) ∧ Safe t (t.store64 a w) := by
  have hs' : SameTables s (t.store64 a w) := by
    refine ⟨hs.root, fun x hx => ?_⟩
    rw [store64_mem, store_of_outside, hs.mem x hx]
    by_contra hin
    have hpage : x / 4096 = page := by omega
    rw [hpage] at hx
    exact hoff hx
  refine ⟨hs', safe_store fun c hc => hc.store a w fun x hlen hx => .inl (hx.congr fun q i hq => ?_)⟩
  have hqlen := hq.length_le
  simp at hqlen
  have hq3 : q.length ≤ 3 := by omega
  exact (hs'.entryAt_eq h hq3 i).trans (hs.entryAt_eq h hq3 i).symm

theorem zeroFrom_safe (h : TreeInv s held) (hs : SameTables s t) (page : ℕ) {i k : ℕ} (hk : i + k ≤ 512)
    (hoff : 4096 * page ∉ liveTables s) :
    SameTables s (zeroFrom t (4096 * page) i k) ∧ Safe t (zeroFrom t (4096 * page) i k) := by
  induction k generalizing t i with
  | zero => exact ⟨hs, Safe.refl t⟩
  | succ k ih =>
    obtain ⟨hs', hfirst⟩ := safe_store_outside h hs (4096 * page + 8 * i) 0 page (by omega) (by omega) hoff
    obtain ⟨hlast, hrest⟩ := ih hs' (by omega : i + 1 + k ≤ 512)
    exact ⟨hlast, hfirst.trans hrest⟩

theorem withTable_safe (h : TreeInv s held) {c : ℕ} (hf : IsFree s.pmm c) :
    SameTables s (withTable s c) ∧ Safe s (withTable s c) := by
  have hoff : 4096 * c ∉ liveTables s := by
    intro hlive
    have := (h.owned c).mpr (.inl hlive)
    rw [hf.2] at this
    exact absurd this (by simp)
  unfold withTable
  have hstart : SameTables s { s with
      pmm := takePage s.pmm c
      tablePages := Function.update s.tablePages s.pagingTableCount (4096 * c)
      pagingTableCount := s.pagingTableCount + 1 } := ⟨rfl, fun _ _ => rfl⟩
  obtain ⟨hs, hzero⟩ := zeroFrom_safe h hstart c (by omega : 0 + 512 ≤ 512) hoff
  refine ⟨hs, Safe.trans ?_ hzero⟩
  exact safe_unseen rfl rfl rfl rfl

variable {p : Path} {i : Fin 512} {n c : ℕ}

theorem link_safe (h : TreeInv s held) (hp : p.length ≤ 2) (hn : node s p = some n)
    (hnone : node s (p ++ [i]) = none) (hf : IsFree s.pmm c) (hmin : ∀ q, IsFree s.pmm q → c ≤ q)
    (hroom : Room s) : Safe s (linked s n i c) := by
  have hz := (h.inner_zero_iff hp).mpr hnone
  obtain ⟨hsame, hwipe⟩ := withTable_safe h hf
  obtain ⟨-, hedit⟩ := h.link hp hn hz hf hmin hroom.1
  refine hwipe.trans (safe_store fun core hc => hc.store _ _ fun x hlen hx => .inl ?_)
  have hroot : rootFrame (linked s n i c) = rootFrame (withTable s c) := by
    rw [hsame.rootFrame_eq, rootFrame, (linked_frame h (by omega) hn hf).root, rootFrame]
  have he : EditedAt child 0 (tables (withTable s c).mem) (tables (linked s n i c).mem) (rootFrame (withTable s c)) 3
      p i (linkEntry c) := by
    intro q j hq
    rw [← hroot]
    refine (hedit q j hq).trans ?_
    rw [hroot]
    split
    · rfl
    · exact (hsame.entryAt_eq h hq j).symm
  refine hx.filled he hlen ?_
  have hold : entryAt (withTable s c) p i = 0 := (hsame.entryAt_eq h (by omega) i).trans hz
  change child (entryAt (withTable s c) p i) = none
  rw [hold, child_zero]

theorem leaf_safe {x : ℕ} (h : TreeInv s held) (hn : node s (upper v) = some n) (hx : x < Word64.size)
    (hshape : x = 0 ∨ x % 2 = 1) : Safe s (leafWritten s n v x) := by
  obtain ⟨-, hedit⟩ := h.writeLeaf (i := pageIndex v 12) (length_upper v) hn hx hshape
  refine safe_invalidated fun core hc => hc.store _ _ fun r hlen hr => ?_
  rw [slot_eq]
  have he : EditedAt child 0 (tables s.mem) (tables (s.store64 (4096 * n + 8 * (pageIndex v 12).val) x).mem)
      (rootFrame s) 3 (upper v) (pageIndex v 12) x := hedit
  by_cases hpre : fullPath v <+: r.path
  · have hlong := hpre.length_le
    have hfull : (fullPath v).length = 4 := rfl
    have heq : fullPath v = r.path := hpre.eq_of_length (by omega)
    refine .inr ⟨.inl (by omega), fun hdoomed => hdoomed.2 ?_⟩
    rw [heq]
  · exact .inl (hr.edited he hlen hpre)

theorem unlinked_trace (h : TreeInv s held) (hp : p.length ≤ 2) (hc : node s (p ++ [i]) = some c) (address : ℕ) :
    ∃ t : Machine, t.mem = ((s.store64 (4096 * n + 8 * i.val) 0).invalidatePage address).mem ∧
      t.cpu = s.cpu ∧ t.pagingRoot = s.pagingRoot ∧
      t.trace = ((s.store64 (4096 * n + 8 * i.val) 0).invalidatePage address).trace ∧
      unlinked s address n i c = freePage t (4096 * c) := by
  have hlen : (p ++ [i]).length ≤ 3 := by
    simp
    omega
  obtain ⟨k, hk, hkc⟩ := (mem_liveTables s _).mp (h.node_live hlen hc)
  refine ⟨{ (s.store64 (4096 * n + 8 * i.val) 0).invalidatePage address with
    tablePages := SwapArray.removeAt s.tablePages s.pagingTableCount k
    pagingTableCount := s.pagingTableCount - 1 }, rfl, rfl, rfl, rfl, ?_⟩
  unfold unlinked
  rw [← hkc]
  exact releaseTable_eq (s := (s.store64 (4096 * n + 8 * i.val) 0).invalidatePage address) h.nodup hk

/-- An unlinked table is empty, so only the link itself may still be cached, until it is invalidated. -/
theorem unlink_safe (h : TreeInv s held) (hp : p.length ≤ 2) (hn : node s p = some n)
    (hc : node s (p ++ [i]) = some c) (hempty : ∀ j, entryAt s (p ++ [i]) j = 0) :
    Safe s (unlinked s v n i c) := by
  obtain ⟨hinv, hedit, hframe, hu⟩ := h.unlink hp hn hc hempty v
  obtain ⟨t, hm, hcpu, hroot, htrace, heq⟩ := unlinked_trace (n := n) h hp hc v
  have hlink : Safe s ((s.store64 (4096 * n + 8 * i.val) 0).invalidatePage v) := by
    refine safe_invalidated fun core hcore => hcore.store _ _ fun x hlen hx => ?_
    have he : EditedAt child 0 (tables s.mem) (tables (s.store64 (4096 * n + 8 * i.val) 0).mem) (rootFrame s) 3 p i 0 := by
      intro q j hq
      have := hedit q j hq
      rwa [entryAt, rootFrame, hu.root, hu.mem] at this
    rcases hx.emptied he hlen fun j => by
        change child (entryAt s (p ++ [i]) j) = none
        rw [hempty j, child_zero] with hcur | hpath
    · exact .inl hcur
    · refine .inr ⟨.inr ?_, ?_⟩
      · intro m hm' j
        rw [hx.target_eq rfl, hpath] at hm'
        obtain rfl : m = c := Option.some.inj (hm'.symm.trans hc)
        rw [store64_mem, tables_store _ _ _ (by decide)]
        split
        · rfl
        · rw [← entryAt_of_node hc, hempty j, child_zero]
      · rintro ⟨hfour | ⟨-, w, hw, hbit⟩, -⟩
        · rw [hpath] at hfour
          simp at hfour
          omega
        · have hentry := h.inner_link hp hc
          obtain ⟨hget, -⟩ := hx.words p i (by rw [hpath])
          have hlast : x.words.getLast? = some (entryAt s p i) := by
            rw [List.getLast?_eq_getElem?, hx.length, hpath, List.length_append, List.length_singleton,
              Nat.add_sub_cancel]
            exact hget
          rw [hlast, hentry, Option.some.injEq] at hw
          rw [← hw, linkEntry] at hbit
          omega
  have hlinkt : Safe s t := hlink.trans (safe_unseen hm hcpu hroot htrace)
  have hfree : Safe t (freePage t (4096 * c)) := by
    refine ⟨⟨_, rfl⟩, ?_, ?_⟩
    · intro core core' es hes hcore hplay
      obtain rfl : [.pmmFree (4096 * c)] = es := List.append_cancel_left hes
      obtain ⟨c₁, hf, hrest⟩ := plays_cons hplay
      have hcoh := (hcore.fills hf).fills (plays_nil hrest)
      exact hcoh.congr ⟨hcoh.inStep.mem, hcoh.inStep.cr3, hcoh.inStep.cr4⟩ hcoh.root fun _ _ _ => rfl
    · intro core core' pre post a hes hcore hplay x hx hmem
      have hsplit : [.pmmFree (4096 * c)] = pre ++ .pmmFree a :: post := List.append_cancel_left hes
      obtain ⟨rfl, rfl, rfl⟩ : pre = [] ∧ a = 4096 * c ∧ post = [] := by
        rcases pre with _ | ⟨e, pre⟩
        · simpa [eq_comm] using hsplit
        · simp at hsplit
      -- what is cached is current for the tables without `c`
      have hcoh := hcore.fills (plays_nil hplay)
      have hcur : Current child 0 (tables (unlinked s v n i c).mem) (rootFrame (unlinked s v n i c)) x.record := by
        rw [heq]
        exact hcoh.now hx
      exact ((hu.live _).mp (named_live hinv hcur hmem)).2 rfl
  rw [heq]
  exact hlinkt.trans hfree

theorem Block.safe (h : Block held v s t) : Safe s t := by
  cases h with
  | link tree depth table vacant free lowest room => exact link_safe tree depth table vacant free lowest room
  | leaf tree table bound shape => exact leaf_safe tree table bound shape
  | unlink tree depth table below unused => exact unlink_safe tree depth table below unused

theorem Blocks.safe (h : Blocks held v s t) : Safe s t := by
  induction h with
  | refl => exact Safe.refl s
  | tail _ hb ih => exact ih.trans (Block.safe hb)

end Safe

end OsByAi.PagingCoherence
