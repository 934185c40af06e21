import OsByAi.KernelRuns
import OsByAi.WalkCache

set_option autoImplicit false

/-!
# The processor's caches of page-table entries

A processor core beside the kernel: it may at any moment cache what it reads on a walk
of the tables that CR3 names, start such a walk from anything it has cached, and drop
what it likes. The kernel's stores and its writes to control registers reach it as the
events of `Machine.trace`. A record with four words is a translation; a shorter one
refers to a table, unless its last entry maps a large page.
-/
namespace OsByAi.TranslationCache
open ByteMemory PagingModel PagingEntries PagingTree PagingWalk WalkCache

/-- The entries read on a walk; the tag is the number of CR3 loads before the walk began. -/
abbrev Entries := Record (Fin 512) ℕ ℕ

structure Cached where
  record : Entries
  isGlobal : Bool

structure Core where
  mem : Memory
  cr3 : ℕ
  cr4 : ℕ
  loads : ℕ
  cache : Set Cached

/-- CR4.PGE. -/
def globalPages (cr4 : ℕ) : Bool := cr4 &&& 0x80 != 0

def LastBit (x : Entries) (k : ℕ) : Prop := ∃ w, x.words.getLast? = some w ∧ w / 2 ^ k % 2 = 1

/-- A translation: of a page of 4 KiB, or by bit 7 of a larger one. -/
def IsLeaf (x : Entries) : Prop := x.path.length = 4 ∨ (2 ≤ x.path.length ∧ LastBit x 7)

/-- The tables below the root that the record refers to or was read from. -/
def tablesOf (x : Entries) : List ℕ := (x.words.take 3).map (· &&& addressMask)

def fullPath (v : ℕ) : Path := upper v ++ [pageIndex v 12]

structure Core.MayCache (c : Core) (x : Cached) : Prop where
  walked : Extends child (tables c.mem) (c.cr3 / 4096) 3 c.loads (Cached.record '' c.cache) x.record
  proper : x.record.path ≠ []
  isGlobal : x.isGlobal = true → globalPages c.cr4 = true ∧ LastBit x.record 8

/-- Between two events any of it may enter the cache, and anything may leave. -/
def Core.Fills (c c' : Core) : Prop :=
  ∃ cache, c' = { c with cache := cache } ∧ ∀ x ∈ cache, x ∈ c.cache ∨ c.MayCache x

def Core.apply (c : Core) : Event → Core
  | .store a v => { c with mem := store c.mem a 8 v }
  | .invlpg a => { c with cache := {x | x ∈ c.cache ∧ IsLeaf x.record ∧ ¬ x.record.path <+: fullPath a} }
  | .writeCr3 v => { c with cr3 := v, loads := c.loads + 1, cache := {x | x ∈ c.cache ∧ x.isGlobal = true} }
  | .writeCr4 v =>
    { c with
      cr4 := v
      cache := {x | x ∈ c.cache ∧ ¬ (globalPages c.cr4 = true ∧ globalPages v = false)} }
  | .writeMsr _ _ | .writeCr0 _ | .pmmFree _ => c

inductive Plays : Core → List Event → Core → Prop
  | idle {c c' : Core} (hf : c.Fills c') : Plays c [] c'
  | event {c c₁ c' : Core} {e : Event} {es : List Event} (hf : c.Fills c₁) (rest : Plays (c₁.apply e) es c') :
      Plays c (e :: es) c'

structure InStep (c : Core) (s : Machine) : Prop where
  mem : c.mem = s.mem
  cr3 : c.cr3 = s.cpu.cr3
  cr4 : c.cr4 = s.cpu.cr4

/-- Global entries exist only while CR4.PGE is 1. -/
def GlobalsAllowed (c : Core) : Prop := ∀ x ∈ c.cache, x.isGlobal = true → globalPages c.cr4 = true

section Plays

variable {c c' : Core} {s : Machine} {es fs : List Event} {e : Event}

theorem fills_refl (c : Core) : c.Fills c := ⟨c.cache, rfl, fun _ hx => .inl hx⟩

theorem InStep.fills (h : InStep c s) (hf : c.Fills c') : InStep c' s := by
  obtain ⟨cache, rfl, -⟩ := hf
  exact ⟨h.mem, h.cr3, h.cr4⟩

theorem plays_nil (h : Plays c [] c') : c.Fills c' := by
  cases h with
  | idle hf => exact hf

theorem plays_cons (h : Plays c (e :: es) c') : ∃ c₁, c.Fills c₁ ∧ Plays (c₁.apply e) es c' := by
  cases h with
  | event hf rest => exact ⟨_, hf, rest⟩

theorem plays_append (h : Plays c (es ++ fs) c') : ∃ m, Plays c es m ∧ Plays m fs c' := by
  induction es generalizing c with
  | nil => exact ⟨c, .idle (fills_refl c), h⟩
  | cons e es ih =>
    obtain ⟨c₁, hf, hrest⟩ := plays_cons h
    obtain ⟨m, hm, hfs⟩ := ih hrest
    exact ⟨m, .event hf hm, hfs⟩

theorem plays_exists (c : Core) (es : List Event) : ∃ c', Plays c es c' := by
  induction es generalizing c with
  | nil => exact ⟨c, .idle (fills_refl c)⟩
  | cons e es ih =>
    obtain ⟨c', h⟩ := ih (c.apply e)
    exact ⟨c', .event (fills_refl c) h⟩

theorem GlobalsAllowed.fills (h : GlobalsAllowed c) (hf : c.Fills c') : GlobalsAllowed c' := by
  obtain ⟨cache, rfl, hcache⟩ := hf
  intro x hx hglobal
  rcases hcache x hx with hold | hnew
  · exact h x hold hglobal
  · exact (hnew.isGlobal hglobal).1

theorem GlobalsAllowed.apply (h : GlobalsAllowed c) (e : Event) : GlobalsAllowed (c.apply e) := by
  cases e with
  | store a v => exact h
  | invlpg a => exact fun x hx hglobal => h x hx.1 hglobal
  | writeCr3 v => exact fun x hx hglobal => h x hx.1 hglobal
  | writeCr4 v =>
    rintro x ⟨hx, hkeep⟩ hglobal
    have hold := h x hx hglobal
    by_contra hoff
    exact hkeep ⟨hold, by simpa [Core.apply] using hoff⟩
  | writeMsr i v => exact h
  | writeCr0 v => exact h
  | pmmFree a => exact h

theorem GlobalsAllowed.plays (h : GlobalsAllowed c) (hp : Plays c es c') : GlobalsAllowed c' := by
  induction hp with
  | idle hf => exact h.fills hf
  | event hf rest ih => exact ih ((h.fills hf).apply _)

end Plays

/-- The events from `s` to `t` take a core from the one to the other. -/
structure Tracks (s t : Machine) : Prop where
  emitted : s.trace <+: t.trace
  inStep : ∀ c c' es, t.trace = s.trace ++ es → InStep c s → Plays c es c' → InStep c' t

section Tracks

variable {s t u : Machine}

theorem Tracks.trans (h : Tracks s t) (h' : Tracks t u) : Tracks s u := by
  refine ⟨h.emitted.trans h'.emitted, ?_⟩
  intro c c' es hes hc hp
  obtain ⟨fs, hfs⟩ := h.emitted
  obtain ⟨gs, hgs⟩ := h'.emitted
  obtain rfl : es = fs ++ gs := by
    rw [← hgs, ← hfs, List.append_assoc] at hes
    exact (List.append_cancel_left hes).symm
  obtain ⟨m, hm, hrest⟩ := plays_append hp
  exact h'.inStep m c' gs hgs.symm (h.inStep c m fs hfs.symm hc hm) hrest

theorem tracks_unseen (hm : t.mem = s.mem) (hcpu : t.cpu = s.cpu) (htrace : t.trace = s.trace) : Tracks s t := by
  refine ⟨by rw [htrace], ?_⟩
  intro c c' es hes hc hp
  obtain rfl : es = [] := by
    rw [htrace] at hes
    simpa using hes
  obtain ⟨h1, h2, h3⟩ := hc.fills (plays_nil hp)
  exact ⟨h1.trans hm.symm, by rw [hcpu]; exact h2, by rw [hcpu]; exact h3⟩

theorem Tracks.refl (s : Machine) : Tracks s s := tracks_unseen rfl rfl rfl

theorem tracks_event {e : Event} (htrace : t.trace = s.trace ++ [e])
    (happly : ∀ c, InStep c s → InStep (c.apply e) t) : Tracks s t := by
  refine ⟨⟨[e], htrace.symm⟩, ?_⟩
  intro c c' es hes hc hp
  obtain rfl : es = [e] := by
    rw [htrace] at hes
    exact (List.append_cancel_left hes).symm
  obtain ⟨c₁, hf, hrest⟩ := plays_cons hp
  exact (happly c₁ (hc.fills hf)).fills (plays_nil hrest)

theorem tracks_store64 (s : Machine) (a v : ℕ) : Tracks s (s.store64 a v) := by
  refine tracks_event (e := .store a v) rfl fun c hc => ⟨?_, hc.cr3, hc.cr4⟩
  change store c.mem a 8 v = store s.mem a 8 v
  rw [hc.mem]

theorem tracks_freePage (s : Machine) (a : ℕ) : Tracks s (freePage s a) :=
  tracks_event (e := .pmmFree a) rfl fun _ hc => ⟨hc.mem, hc.cr3, hc.cr4⟩

theorem tracks_zeroFrom (s : Machine) (table i n : ℕ) : Tracks s (zeroFrom s table i n) := by
  induction n generalizing s i with
  | zero => exact Tracks.refl s
  | succ n ih => exact (tracks_store64 s _ 0).trans (ih _ _)

theorem tracks_newTable (s : Machine) : Tracks s (newTable s).2 := by
  unfold newTable
  split
  · exact Tracks.refl s
  · split
    · dsimp only
      refine Tracks.trans ?_ (tracks_zeroFrom _ _ _ 512)
      exact tracks_unseen rfl rfl rfl
    · exact tracks_unseen rfl rfl rfl

theorem tracks_descend (v : ℕ) (shifts : List ℕ) (table : ℕ) (s : Machine) :
    Tracks s (descend v shifts table s).2 := by
  induction shifts generalizing table s with
  | nil => exact Tracks.refl s
  | cons shift shifts ih =>
    rw [descend_cons]
    simp only
    split
    · exact ih _ _
    · split
      · exact tracks_newTable s
      · exact ((tracks_newTable s).trans (tracks_store64 _ _ _)).trans (ih _ _)

theorem tracks_mapPage (L : Layout) (v : ℕ) (s : Machine) : Tracks s (mapPage L v s).2 := by
  have h := tracks_descend v tableShifts s.pagingRoot s
  rw [mapPage_eq]
  rcases hd : descend v tableShifts s.pagingRoot s with ⟨table, d⟩
  rw [hd] at h
  cases table with
  | none => exact h
  | some table => exact h.trans (tracks_store64 _ _ _)

theorem tracks_mapPages (L : Layout) (n page : ℕ) (s : Machine) : Tracks s (mapPages L n page s).2 := by
  induction n generalizing page s with
  | zero => exact Tracks.refl s
  | succ n ih =>
    have h := tracks_mapPage L page s
    rw [mapPages_succ]
    rcases hm : mapPage L page s with ⟨ok, t⟩
    rw [hm] at h
    cases ok with
    | false => exact h
    | true => exact h.trans (ih _ _)

theorem tracks_mapDescriptor (L : Layout) (d : BootInformation.Descriptor) (s : Machine) :
    Tracks s (mapDescriptor L d s).2 := by
  rw [mapDescriptor_eq]
  split
  · exact Tracks.refl s
  · split
    · exact Tracks.refl s
    · split
      · exact Tracks.refl s
      · exact tracks_mapPages L _ _ s

theorem tracks_mapBootRamFrom (L : Layout) (info fuel offset : ℕ) (s : Machine) :
    Tracks s (mapBootRamFrom L info fuel offset s).2 := by
  induction fuel generalizing offset s with
  | zero => exact Tracks.refl s
  | succ fuel ih =>
    have h := tracks_mapDescriptor L (BootInformation.descriptorAt s.mem
      (Word64.add (BootInformation.bootInfoAt s.mem info).memoryMap offset)) s
    rw [mapBootRamFrom_succ]
    split
    · split
      · rename_i heq
        rw [heq] at h
        exact h
      · rename_i heq
        rw [heq] at h
        exact h.trans (ih _ _)
    · exact Tracks.refl s

theorem tracks_unmapGuards (gs : List ℕ) (s : Machine) : Tracks s (unmapGuards gs s).2 := by
  induction gs generalizing s with
  | nil => exact Tracks.refl s
  | cons g gs ih =>
    rw [unmapGuards]
    split
    · exact Tracks.refl s
    · exact (tracks_store64 _ _ _).trans (ih _)

theorem tracks_discardFrom (n : ℕ) (s : Machine) : Tracks s (discardFrom n s) := by
  induction n generalizing s with
  | zero => exact Tracks.refl s
  | succ n ih =>
    refine Tracks.trans ?_ (ih _)
    exact Tracks.trans (t := { s with pagingTableCount := n }) (tracks_unseen rfl rfl rfl) (tracks_freePage _ _)

theorem tracks_discardPageTables (s : Machine) : Tracks s (discardPageTables s) :=
  (tracks_discardFrom s.pagingTableCount s).trans (tracks_unseen rfl rfl rfl)

end Tracks

end OsByAi.TranslationCache
