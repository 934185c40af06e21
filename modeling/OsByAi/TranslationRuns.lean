import OsByAi.PagingCoherence
import OsByAi.PagingIsolation

set_option autoImplicit false

namespace OsByAi.TranslationRuns
open Word64 (Canonical)
open ByteMemory PackedBitmap BootInformation PmmModel PmmInvariant PmmBootMap
open PagingModel PagingEntries PagingTree PagingWalk PagingGrowth PagingDynamic PagingBuild PagingInit
open KernelRuns PagingAddressSpace PagingIsolation PagingBlocks TranslationCache PagingCoherence WalkCache

section Init

variable {L : Layout} {info : ℕ} {s : Machine}

theorem tracks_mapBootRam (L : Layout) (info : ℕ) (s : Machine) : Tracks s (mapBootRam L info s).2 := by
  rw [mapBootRam]
  exact tracks_mapBootRamFrom L info _ 0 s

theorem tracks_rooted (s : Machine) : Tracks s (rooted (newTable s).2 (newTable s).1) :=
  (tracks_newTable s).trans (tracks_unseen rfl rfl rfl)

theorem pagingInit_tracks (L : Layout) (info : ℕ) (s : Machine) :
    ((pagingInit L info s).1 = false ∧ Tracks s (pagingInit L info s).2) ∨
    ∃ t, Tracks s t ∧ pagingInit L info s = (true, activatePageTables s.cpu.cr4 t) := by
  have hroot := tracks_rooted s
  rw [pagingInit_unfold]
  split
  · exact .inl ⟨rfl, Tracks.refl s⟩
  split
  · exact .inl ⟨rfl, Tracks.refl s⟩
  split
  · exact .inl ⟨rfl, hroot⟩
  have hmap := tracks_mapBootRam L info (rooted (newTable s).2 (newTable s).1)
  generalize rooted (newTable s).2 (newTable s).1 = t at hroot hmap ⊢
  rw [fillRoot_eq]
  rcases hm : mapBootRam L info t with ⟨ok, u⟩
  rw [hm] at hmap
  have hu := hroot.trans hmap
  simp only at hu
  cases ok with
  | false => exact .inl ⟨rfl, hu.trans (tracks_discardPageTables u)⟩
  | true =>
    simp only
    split
    · exact .inl ⟨rfl, hu.trans (tracks_discardPageTables u)⟩
    have hguards := tracks_unmapGuards (stackGuards L (bootInfoAt u.mem info)) u
    rcases hg : unmapStackGuards L info u with ⟨ok', x⟩
    rw [unmapStackGuards] at hg
    rw [hg] at hguards
    cases ok' with
    | false => exact .inl ⟨rfl, (hu.trans hguards).trans (tracks_discardPageTables x)⟩
    | true => exact .inr ⟨x, hu.trans hguards, rfl⟩

theorem globalPages_off (cr4 : ℕ) : globalPages (cr4 &&& (Word64.size - 1 - 0x80)) = false := by
  have h : (Word64.size - 1 - 0x80) &&& 0x80 = 0 := by decide
  rw [globalPages, Nat.and_assoc, h, Nat.and_zero]
  rfl

variable {c c' : Core}

/-- The switch of CR3 happens with global pages off, so nothing cached survives it. -/
theorem switch_coherent {cr4 : ℕ} (hc : InStep c s) (hg : GlobalsAllowed c)
    (hp : Plays c [.writeMsr 0xc0000080 (s.cpu.msr 0xc0000080 ||| 2 ^ 11), .writeCr0 (s.cpu.cr0 ||| 2 ^ 16),
      .writeCr4 (cr4 &&& (Word64.size - 1 - 0x80)), .writeCr3 s.pagingRoot, .writeCr4 cr4] c') :
    Coherent c' (activatePageTables cr4 s) ∧ c'.loads = c.loads + 1 := by
  obtain ⟨c₁, hf₁, hp⟩ := plays_cons hp
  obtain ⟨c₂, hf₂, hp⟩ := plays_cons hp
  obtain ⟨c₃, hf₃, hp⟩ := plays_cons hp
  obtain ⟨c₄, hf₄, hp⟩ := plays_cons hp
  obtain ⟨c₅, hf₅, hp⟩ := plays_cons hp
  have hmem : c₄.mem = s.mem ∧ c₄.loads = c.loads ∧ globalPages c₄.cr4 = false := by
    obtain ⟨k₁, rfl, -⟩ := hf₁
    obtain ⟨k₂, rfl, -⟩ := hf₂
    obtain ⟨k₃, rfl, -⟩ := hf₃
    obtain ⟨k₄, rfl, -⟩ := hf₄
    exact ⟨hc.mem, rfl, globalPages_off cr4⟩
  have hg₄ := (((((hg.fills hf₁).apply _).fills hf₂).apply _).fills hf₃).apply
    (.writeCr4 (cr4 &&& (Word64.size - 1 - 0x80))) |>.fills hf₄
  have hempty : ∀ x, x ∉ (c₄.apply (.writeCr3 s.pagingRoot)).cache := by
    rintro x ⟨hx, hglobal⟩
    rw [hg₄ x hx hglobal] at hmem
    exact absurd hmem.2.2 (by simp)
  -- CR4 still lacks PGE when the first entries of the new tables are cached
  have hswitched : Coherent (c₄.apply (.writeCr3 s.pagingRoot))
      { activatePageTables cr4 s with cpu := { (activatePageTables cr4 s).cpu with cr4 := c₄.cr4 } } :=
    ⟨⟨hmem.1, rfl, rfl⟩, rfl, fun x hx => absurd hx (hempty x), fun x hx => absurd hx (hempty x),
      fun x hx => absurd hx (hempty x)⟩
  have hfilled := hswitched.fills hf₅
  have hfinal : Coherent (c₅.apply (.writeCr4 cr4)) (activatePageTables cr4 s) :=
    ⟨⟨hfilled.inStep.mem, hfilled.inStep.cr3, rfl⟩, hfilled.root, fun x hx => hfilled.fresh x hx.1,
      fun x hx => hfilled.short x hx.1, fun x hx => hfilled.current x hx.1⟩
  refine ⟨hfinal.fills (plays_nil hp), ?_⟩
  obtain ⟨k₅, rfl, -⟩ := hf₅
  obtain ⟨k₆, rfl, -⟩ := plays_nil hp
  change c₄.loads + 1 = c.loads + 1
  rw [hmem.2.1]

end Init

def callEvents (L : Layout) (info : ℕ) (s : Machine) (a : Call) : List Event :=
  (call L info s a).2.trace.drop s.trace.length

def writeByte (c : Core) (a : ℕ) (value : UInt8) : Core := { c with mem := Function.update c.mem a value }

inductive CoreStep (L : Layout) (info : ℕ) (w : World) (c : Core) : Call → Core → Prop
  | write {a : ℕ} {value : UInt8} {c₁ c' : Core} (before : c.Fills c₁)
      (after : (writeByte c₁ a value).Fills c') : CoreStep L info w c (.write a value) c'
  | call {a : Call} {c' : Core} (hne : ∀ x value, a ≠ .write x value)
      (events : Plays c (callEvents L info w.machine a) c') : CoreStep L info w c a c'

inductive CoreRun (L : Layout) (info : ℕ) : World → Core → List Call → Core → Prop
  | nil {w : World} {c : Core} : CoreRun L info w c [] c
  | cons {w : World} {c c₁ c' : Core} {a : Call} {calls : List Call} (first : CoreStep L info w c a c₁)
      (rest : CoreRun L info (next L info w a) c₁ calls c') : CoreRun L info w c (a :: calls) c'

/-- No record is dated after the last CR3 load. -/
def Dated (c : Core) : Prop := ∀ x ∈ c.cache, x.record.tag ≤ c.loads

section Cores

variable {L : Layout} {info : ℕ} {s t : Machine} {w : World} {c c' : Core} {es : List Event}

theorem inStep_writeByte (h : InStep c s) (a : ℕ) (value : UInt8) :
    InStep (writeByte c a value) { s with mem := Function.update s.mem a value } := by
  refine ⟨?_, h.cr3, h.cr4⟩
  simp only [writeByte, h.mem]

theorem Dated.fills (h : Dated c) (hf : c.Fills c') : Dated c' := by
  obtain ⟨cache, rfl, hcache⟩ := hf
  intro x hx
  rcases hcache x hx with hold | hnew
  · exact h x hold
  · rcases hnew.walked.tag_cases with htag | ⟨_, ⟨y, hy, rfl⟩, htag⟩
    · exact htag.le
    · rw [← htag]
      exact h y hy

theorem Dated.apply (h : Dated c) (e : Event) : Dated (c.apply e) := by
  cases e with
  | store a v => exact h
  | invlpg a => exact fun x hx => h x hx.1
  | writeCr3 v => exact fun x hx => (h x hx.1).trans (Nat.le_succ _)
  | writeCr4 v => exact fun x hx => h x hx.1
  | writeMsr i v => exact h
  | writeCr0 v => exact h
  | pmmFree a => exact h

theorem Dated.plays (h : Dated c) (hp : Plays c es c') : Dated c' := by
  induction hp with
  | idle hf => exact h.fills hf
  | event hf rest ih => exact ih ((h.fills hf).apply _)

theorem loads_apply (c : Core) (e : Event) : c.loads ≤ (c.apply e).loads := by
  cases e <;> simp [Core.apply]

theorem loads_le (hp : Plays c es c') : c.loads ≤ c'.loads := by
  induction hp with
  | idle hf =>
    obtain ⟨k, rfl, -⟩ := hf
    exact le_rfl
  | @event c c₁ c' e es hf rest ih =>
    obtain ⟨k, rfl, -⟩ := hf
    exact (loads_apply { c with cache := k } e).trans ih

theorem callEvents_spec {a : Call} (h : w.machine.trace <+: (call L info w.machine a).2.trace) :
    (call L info w.machine a).2.trace = w.machine.trace ++ callEvents L info w.machine a := by
  rw [callEvents, List.prefix_iff_eq_append.mp h]

theorem call_safe (L : Layout) (info : ℕ) {base : Machine} (h : ActiveWorld base w) {a : Call} (hne : ∀ x value, a ≠ .write x value) :
    Safe w.machine (call L info w.machine a).2 := by
  have hdyn := h.dyn
  cases a with
  | pmmInit => exact safe_unseen rfl rfl rfl rfl
  | pmmAlloc address => exact safe_unseen rfl rfl rfl rfl
  | pmmFree address => exact safe_unseen rfl rfl rfl rfl
  | pmmIsAllocated address => exact Safe.refl _
  | pmmTotal => exact Safe.refl _
  | pmmAvailable => exact Safe.refl _
  | pagingInit =>
    have hi : PagingModel.pagingInit L info w.machine = (false, w.machine) := by
      simp [PagingModel.pagingInit, pagingInitWith, hdyn.active]
    simp only [call, hi]
    exact Safe.refl _
  | pagingMap v p f => exact Blocks.safe (pagingMap_blocks hdyn.tree p.toNat f)
  | pagingUnmap v => exact Blocks.safe (pagingUnmap_blocks hdyn (toNat_lt_size v))
  | pagingProtect v f => exact Blocks.safe (pagingProtect_blocks hdyn (toNat_lt_size v) f)
  | pagingQuery v p f => exact Safe.refl _
  | write x value => exact absurd rfl (hne x value)

theorem call_tracks (h : IdleWorld info w) {a : Call} (hne : ∀ x value, a ≠ .write x value)
    (hinit : a = .pagingInit → (pagingInit L info w.machine).1 = false) :
    Tracks w.machine (call L info w.machine a).2 := by
  have hdyn := inactive_dynamicAddress h.idle.inactive
  cases a with
  | pmmInit => exact tracks_unseen rfl rfl rfl
  | pmmAlloc address => exact tracks_unseen rfl rfl rfl
  | pmmFree address => exact tracks_unseen rfl rfl rfl
  | pmmIsAllocated address => exact Tracks.refl _
  | pmmTotal => exact Tracks.refl _
  | pmmAvailable => exact Tracks.refl _
  | pagingInit =>
    obtain ⟨-, ht⟩ | ⟨t, -, ht⟩ := pagingInit_tracks L info w.machine
    · exact ht
    · have := hinit rfl
      rw [ht] at this
      exact absurd this (by simp)
  | pagingMap v p f =>
    have hm : PagingModel.pagingMap v.toNat p.toNat f w.machine = (false, w.machine) := by
      simp [PagingModel.pagingMap, hdyn]
    simp only [call, hm]
    exact Tracks.refl _
  | pagingUnmap v =>
    have hm : PagingModel.pagingUnmap v.toNat w.machine = (false, w.machine) := by
      simp [PagingModel.pagingUnmap, hdyn]
    simp only [call, hm]
    exact Tracks.refl _
  | pagingProtect v f =>
    have hm : PagingModel.pagingProtect v.toNat f w.machine = (false, w.machine) := by
      simp [PagingModel.pagingProtect, hdyn]
    simp only [call, hm]
    exact Tracks.refl _
  | pagingQuery v p f => exact Tracks.refl _
  | write x value => exact absurd rfl (hne x value)

theorem init_coherent (hok : (pagingInit L info w.machine).1 = true) (hc : InStep c w.machine) (hg : GlobalsAllowed c)
    (hp : Plays c (callEvents L info w.machine .pagingInit) c') :
    Coherent c' (pagingInit L info w.machine).2 ∧ c.loads < c'.loads := by
  obtain ⟨hno, -⟩ | ⟨t, ht, hres⟩ := pagingInit_tracks L info w.machine
  · rw [hno] at hok
    exact absurd hok (by simp)
  · obtain ⟨fs, hfs⟩ := ht.emitted
    have hevents : callEvents L info w.machine .pagingInit = fs ++ [.writeMsr 0xc0000080 (t.cpu.msr 0xc0000080 ||| 2 ^ 11),
        .writeCr0 (t.cpu.cr0 ||| 2 ^ 16), .writeCr4 (w.machine.cpu.cr4 &&& (Word64.size - 1 - 0x80)),
        .writeCr3 t.pagingRoot, .writeCr4 w.machine.cpu.cr4] := by
      simp only [callEvents, call, hres, activatePageTables]
      rw [← hfs, List.append_assoc, List.drop_left]
    rw [hevents] at hp
    obtain ⟨m, hm, hswitch⟩ := plays_append hp
    obtain ⟨hcoh, hloads⟩ := switch_coherent (ht.inStep c m fs hfs.symm hc hm) (hg.plays hm) hswitch
    rw [hres]
    exact ⟨hcoh, by have := loads_le hm; omega⟩

inductive Phase (info : ℕ) (w : World) (c : Core) : Prop
  | before (idle : IdleWorld info w) (inStep : InStep c w.machine) (globals : GlobalsAllowed c)
  | after (base : Machine) (active : ActiveWorld base w) (coherent : Coherent c w.machine)

theorem Phase.step (h : Phase info w c) {a : Call} (hown : OwnPages w.ledger a) (hs : CoreStep L info w c a c') :
    Phase info (next L info w a) c' := by
  cases h with
  | before idle inStep globals =>
    cases hs with
    | @write a value c₁ c' before after =>
      have hold : GlobalsAllowed c₁ := globals.fills before
      have hbyte : GlobalsAllowed (writeByte c₁ a value) := hold
      exact .before (idle.next _ hown (by simp)) ((inStep_writeByte (inStep.fills before) a value).fills after)
        (hbyte.fills after)
    | call hne events =>
      by_cases hinit : a = .pagingInit ∧ (pagingInit L info w.machine).1 = true
      · obtain ⟨rfl, hok⟩ := hinit
        obtain ⟨hcoh, -⟩ := init_coherent hok inStep globals events
        obtain ⟨s', hi, -⟩ | ⟨s', hi, hinst⟩ := pagingInit_cases (L := L) idle.idle
        · rw [hi] at hok
          exact absurd hok (by simp)
        · rw [hi] at hcoh
          refine .after s' ?_ ?_
          · simp only [KernelRuns.next, KernelRuns.call, record, hi]
            exact Installed.activeWorld hinst idle.unmapped
          · simp only [KernelRuns.next, KernelRuns.call, hi]
            exact hcoh
      · have hno : a = .pagingInit → (pagingInit L info w.machine).1 = false := fun he => by
          by_contra hok
          exact hinit ⟨he, by simpa using hok⟩
        have ht := call_tracks (L := L) idle hne hno
        exact .before (idle.next a hown hno) (ht.inStep c c' _ (callEvents_spec ht.emitted) inStep events)
          (globals.plays events)
  | after base active coherent =>
    refine .after base (active.next a hown) ?_
    cases hs with
    | @write a value c₁ c' before after =>
      have hc := coherent.fills before
      have hsame := sameTables_write active.dyn.tree hown value
      have hbyte : Coherent (writeByte c₁ a value)
          { w.machine with mem := Function.update w.machine.mem a value } := by
        have hstep := inStep_writeByte hc.inStep a value
        exact ⟨hstep, hc.root, hc.fresh, hc.short, fun x hx => .inl ((hc.now hx).congr fun q i hq => by
          have hlen := hq.length_le
          have hshort := hc.short x hx
          simp at hlen
          exact hsame.entryAt_eq active.dyn.tree (by omega) i)⟩
      exact hbyte.fills after
    | call hne events =>
      have hsafe := call_safe L info active hne
      exact hsafe.coherent c c' _ (callEvents_spec hsafe.emitted) coherent events

theorem Dated.step (h : Dated c) {a : Call} (hs : CoreStep L info w c a c') : Dated c' := by
  cases hs with
  | @write a value c₁ c' before after =>
    have hold : Dated c₁ := h.fills before
    have hbyte : Dated (writeByte c₁ a value) := hold
    exact hbyte.fills after
  | call hne events => exact h.plays events

theorem Phase.run {calls : List Call} (hr : CoreRun L info w c calls c') (h : Phase info w c) (hd : Dated c)
    (hown : Follows OwnPages L info w calls) : Phase info (run L info w calls) c' ∧ Dated c' := by
  induction hr with
  | nil => exact ⟨h, hd⟩
  | cons first rest ih => exact ih (h.step hown.1 first) (hd.step first) hown.2

/-- A call that takes tables out of use while the processor walks them. -/
def Rewrites : Call → Prop
  | .pagingMap _ _ _ | .pagingUnmap _ | .pagingProtect _ _ => True
  | _ => False

structure NoStale (L : Layout) (info : ℕ) (w : World) (c : Core) : Prop where
  dated : ∀ x ∈ c.cache, x.record.tag ≤ c.loads
  switched : (pagingInit L info w.machine).1 = true → ∀ c', Plays c (callEvents L info w.machine .pagingInit) c' →
    ∀ x ∈ c'.cache, c.loads < x.record.tag
  handedBack : w.machine.active = true → ∀ a, OwnPages w.ledger a → Rewrites a → ∀ pre table post,
    callEvents L info w.machine a = pre ++ .pmmFree table :: post → ∀ c', Plays c pre c' →
    ∀ x ∈ c'.cache, table ∉ tablesOf x.record
  returned : w.machine.active = true → ∀ x ∈ c.cache, IsLeaf x.record → ∀ v, Canonical v →
    x.record.path <+: fullPath v → reached w.machine v = some (rights x.record.words)

theorem rewrites_not_write {a : Call} (h : Rewrites a) : ∀ x value, a ≠ .write x value := by
  rintro x value rfl
  exact h

theorem walkEntries_below {held : Finset ℕ} (h : TreeInv s held) {p : Path} {n k v shift : ℕ} (hp : p.length ≤ 2)
    (hn : node s p = some n) (hk : node s (p ++ [pageIndex v shift]) = some k) (shifts : List ℕ) :
    walkEntries s.mem v (shift :: shifts) (4096 * n) =
      (walkEntries s.mem v shifts (4096 * k)).map (entryAt s p (pageIndex v shift) :: ·) := by
  have hload : load s.mem (slot (4096 * n) v shift) 8 = entryAt s p (pageIndex v shift) := load_entry hn
  have hlink := h.inner_link hp hk
  have hlt := (h.node_bounds (by simp; omega) hk).2
  have hodd : ¬ linkEntry k % 2 = 0 := by
    rw [linkEntry]
    omega
  rw [walkEntries]
  simp only [hload, hlink, absent_iff, hodd, if_false, linkEntry_mask (show k < 2 ^ 40 by omega)]

theorem reached_of_current {held : Finset ℕ} (h : TreeInv s held) (hroot : s.cpu.cr3 = s.pagingRoot) {x : Entries}
    (hx : Current child 0 (tables s.mem) (rootFrame s) x) (hshort : x.path.length ≤ 4) (hleaf : IsLeaf x) {v : ℕ}
    (hv : Canonical v) (hpath : x.path <+: fullPath v) : reached s v = some (rights x.words) := by
  -- no entry above a leaf maps a large page
  have hlen : x.path.length = 4 := by
    rcases hleaf with hfour | ⟨htwo, word, hlast, hbit⟩
    · exact hfour
    · by_contra hne
      obtain ⟨q, i, hq⟩ := (List.eq_nil_or_concat x.path).resolve_left fun hnil => by simp [hnil] at htwo
      rw [List.concat_eq_append] at hq
      have hlen : q.length + 1 = x.path.length := by rw [hq]; simp
      obtain ⟨hget, hchild⟩ := hx.words q i (by rw [hq])
      have hentry : x.words.getLast? = some (entryAt s q i) := by
        rw [List.getLast?_eq_getElem?, hx.length, ← hlen, Nat.add_sub_cancel]
        exact hget
      rw [hlast, Option.some.injEq] at hentry
      rcases h.inner q i (by omega) with hz | ⟨n, hn, hlink⟩
      · rw [hentry, hz] at hbit
        exact absurd hbit (by decide)
      · rw [hentry, hlink, linkEntry] at hbit
        omega
  have hfull : x.path = fullPath v := hpath.eq_of_length (by rw [hlen]; rfl)
  have entry : ∀ q i, q ++ [i] <+: fullPath v → x.words[q.length]? = some (entryAt s q i) ∧
      child (entryAt s q i) ≠ none := by
    rw [← hfull]
    exact hx.words
  obtain ⟨h0, -⟩ := entry [] (pageIndex v 39) ⟨[pageIndex v 30, pageIndex v 21, pageIndex v 12], rfl⟩
  obtain ⟨h1, -⟩ := entry [pageIndex v 39] (pageIndex v 30) ⟨[pageIndex v 21, pageIndex v 12], rfl⟩
  obtain ⟨h2, -⟩ := entry [pageIndex v 39, pageIndex v 30] (pageIndex v 21) ⟨[pageIndex v 12], rfl⟩
  obtain ⟨h3, hpresent⟩ := entry (upper v) (pageIndex v 12) (List.prefix_refl _)
  have hodd : leafOf s v % 2 = 1 := by
    by_contra heven
    exact hpresent (child_of_even (by rw [leafOf] at heven; omega))
  have hwords : x.words = [entryAt s [] (pageIndex v 39), entryAt s [pageIndex v 39] (pageIndex v 30),
      entryAt s [pageIndex v 39, pageIndex v 30] (pageIndex v 21), leafOf s v] := by
    have hfour : x.words.length = 4 := by rw [hx.length, hlen]
    apply List.ext_getElem?
    intro k
    rcases k with _ | _ | _ | _ | k
    · exact h0
    · exact h1
    · exact h2
    · exact h3
    · rw [List.getElem?_eq_none (by omega), List.getElem?_eq_none (by simp)]
  obtain ⟨heven, -⟩ | ⟨n1, n2, n3, -, hn1, hn2, hn3, -⟩ := path_cases h v
  · omega
  · have hload : load s.mem (slot (4096 * n3) v 12) 8 = leafOf s v := load_entry hn3
    have hleafOdd : ¬ leafOf s v % 2 = 0 := by omega
    unfold reached PagingAddressSpace.translate
    rw [hroot, if_pos hv, hwords, h.root_eq]
    change Option.map rights (walkEntries s.mem v (39 :: [30, 21, 12]) (4096 * rootFrame s)) = _
    rw [walkEntries_below (p := []) h (by simp) (node_nil s) hn1,
      walkEntries_below (p := [pageIndex v 39]) h (by simp) hn1 hn2,
      walkEntries_below (p := [pageIndex v 39, pageIndex v 30]) h (by simp) hn2 hn3]
    simp only [walkEntries, hload, absent_iff, hleafOdd, if_false, Option.map_some]

/-- Whatever a processor had in its caches at power-on and whatever it caches on the way, no call of
    any run leaves it a stale entry. -/
theorem no_stale_translation (L : Layout) (info : ℕ) (m : Memory) (cpu : Cpu) (calls : List Call)
    (hown : Follows OwnPages L info (World.powerOn m cpu) calls) (c₀ c : Core)
    (hstep : InStep c₀ (World.powerOn m cpu).machine) (hglobal : GlobalsAllowed c₀) (hdated : Dated c₀)
    (hrun : CoreRun L info (World.powerOn m cpu) c₀ calls c) :
    NoStale L info (run L info (World.powerOn m cpu) calls) c := by
  obtain ⟨hphase, hd⟩ := Phase.run hrun (.before (powerOn_idle m cpu info) hstep hglobal) hdated hown
  have hactive : (run L info (World.powerOn m cpu) calls).machine.active = true →
      ∃ base, ActiveWorld base (run L info (World.powerOn m cpu) calls) ∧
        Coherent c (run L info (World.powerOn m cpu) calls).machine := by
    intro hact
    cases hphase with
    | before idle inStep globals =>
      rw [idle.idle.inactive] at hact
      exact absurd hact (by simp)
    | after base active coherent => exact ⟨base, active, coherent⟩
  generalize run L info (World.powerOn m cpu) calls = w at hphase hactive ⊢
  refine ⟨hd, ?_, ?_, ?_⟩
  · intro hok c' hp x hx
    cases hphase with
    | before idle inStep globals =>
      obtain ⟨hcoh, hlt⟩ := init_coherent hok inStep globals hp
      rw [hcoh.fresh x hx]
      exact hlt
    | after base active coherent =>
      have hi : pagingInit L info w.machine = (false, w.machine) := by
        simp [pagingInit, pagingInitWith, active.dyn.active]
      rw [hi] at hok
      exact absurd hok (by simp)
  · intro hact a _ hrewrites pre table post hevents c' hp
    obtain ⟨base, hw, hcoh⟩ := hactive hact
    have hsafe := call_safe L info hw (rewrites_not_write hrewrites)
    refine hsafe.handedBack c c' pre post table ?_ hcoh hp
    rw [← hevents]
    exact callEvents_spec hsafe.emitted
  · intro hact x hx hleaf v hv hpath
    obtain ⟨base, hw, hcoh⟩ := hactive hact
    exact reached_of_current hw.dyn.tree hcoh.root (hcoh.now hx) (hcoh.short x hx) hleaf hv hpath

theorem coreRun_exists (L : Layout) (info : ℕ) (w : World) (c : Core) (calls : List Call) :
    ∃ c', CoreRun L info w c calls c' := by
  induction calls generalizing w c with
  | nil => exact ⟨c, .nil⟩
  | cons a calls ih =>
    obtain ⟨c₁, hfirst⟩ : ∃ c₁, CoreStep L info w c a c₁ := by
      by_cases hw : ∃ x value, a = .write x value
      · obtain ⟨x, value, rfl⟩ := hw
        exact ⟨_, .write (fills_refl c) (fills_refl _)⟩
      · obtain ⟨c₁, hp⟩ := plays_exists c (callEvents L info w.machine a)
        exact ⟨c₁, .call (fun x value he => hw ⟨x, value, he⟩) hp⟩
    obtain ⟨c', hrest⟩ := ih (next L info w a) c₁
    exact ⟨c', .cons hfirst hrest⟩

/-- A core that has cached an entry of the firmware's tables. -/
def smallCore : Core := ⟨smallMemory, 0x1000, 0x20, 0, {⟨⟨[pageIndex 0x400000 39], [0x2003], 0⟩, false⟩}⟩

theorem small_no_stale :
    (run smallLayout smallInfo (World.powerOn smallMemory smallCpu) bootCalls).ledger.mapping 0xffff800000000000 =
      some (smallPage, 3) ∧
    ∃ c, CoreRun smallLayout smallInfo (World.powerOn smallMemory smallCpu) smallCore
        (bootCalls ++ [.pagingUnmap 0xffff800000000000]) c ∧
      NoStale smallLayout smallInfo (run smallLayout smallInfo (World.powerOn smallMemory smallCpu)
        (bootCalls ++ [.pagingUnmap 0xffff800000000000])) c := by
  obtain ⟨c, hrun⟩ := coreRun_exists smallLayout smallInfo (World.powerOn smallMemory smallCpu) smallCore
    (bootCalls ++ [.pagingUnmap 0xffff800000000000])
  have hown : Follows OwnPages smallLayout smallInfo (World.powerOn smallMemory smallCpu)
      (bootCalls ++ [.pagingUnmap 0xffff800000000000]) := ⟨trivial, trivial, trivial, trivial, trivial, trivial⟩
  refine ⟨?_, c, hrun, no_stale_translation smallLayout smallInfo smallMemory smallCpu
    (bootCalls ++ [.pagingUnmap 0xffff800000000000]) hown smallCore c ⟨rfl, rfl, rfl⟩ ?_ ?_ hrun⟩
  · rw [run_bootCalls]
    exact small_mapped
  · rintro x rfl hglobal
    exact absurd hglobal (by decide)
  · rintro x rfl
    exact le_rfl

end Cores

end OsByAi.TranslationRuns
