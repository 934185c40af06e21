import OsByAi.Attempt
import OsByAi.PagingIsolation

set_option autoImplicit false

/-!
# The self-tests of the boot

`pmm_check.c` and the boot part of `paging_check.c`. A check that returns false is one
that gives up. `pmm_boot_check` runs with and without the kernel's own tables and
reaches a page at its physical address; the paging checks reach memory through the
tables, and an access that these refuse is a page fault, after which nothing returns. What
the processor caches of the tables it never shows, by the results of `TranslationRuns`.
-/
namespace OsByAi.BootChecks
open ByteMemory BootInformation PmmModel PagingModel PagingIsolation

/-- Why a check never returns: a fatal exception, or a loop that goes on. -/
inductive Stop where
  | pageFault
  | endless
deriving DecidableEq

abbrev Check (α : Type) : Type := Attempt Machine Stop α

/-- `if (!pmm_alloc(&page)) return false;` -/
def allocPage : Check ℕ := fun s =>
  match pmmAlloc s.pmm (some 0) with
  | (true, some page, pmm) => .done page { s with pmm := pmm }
  | (_, _, pmm) => .failed { s with pmm := pmm }

def freeingPage (address : ℕ) : Check Bool :=
  Attempt.perform fun s => ((pmmFree s.pmm address).1, { s with pmm := (pmmFree s.pmm address).2 })

def availablePages : Check ℕ := Attempt.inspect fun s => pmmAvailable s.pmm

def mapping (address physical : ℕ) (flags : Flags) : Check Bool := Attempt.perform (pagingMap address physical flags)

def unmapping (address : ℕ) : Check Bool := Attempt.perform (pagingUnmap address)

def protecting (address : ℕ) (flags : Flags) : Check Bool := Attempt.perform (pagingProtect address flags)

/-- The returned flag and the variables `result` and `flags` afterwards. -/
def querying (address result : ℕ) (flags : Flags) : Check (Bool × Option ℕ × Option Flags) :=
  Attempt.inspect (pagingQuery address (some result) (some flags))

/-- A 64-bit load at a virtual address, within one page. -/
def loadAt (v : ℕ) : Check ℕ := fun s =>
  match reached s v with
  | some t => .done (s.load64 (t.physical + v % 4096)) s
  | none => .stopped .pageFault

/-- A 64-bit load at a virtual address that may reach into a second page. -/
def loadAcross (v : ℕ) : Check ℕ := fun s =>
  match reached s v, reached s (v + 7) with
  | some t, some u =>
    let byte (offset : ℕ) := s.mem (if offset < 4096 then t.physical + offset else u.physical + (offset - 4096))
    .done (load byte (v % 4096) 8) s
  | _, _ => .stopped .pageFault

/-- A 64-bit store at a virtual address, within one page. CR0.WP is set. -/
def storeAt (v value : ℕ) : Check Unit := fun s =>
  match reached s v with
  | some t => if t.writable then .done () (s.store64 (t.physical + v % 4096) value) else .stopped .pageFault
  | none => .stopped .pageFault

/-! ## pmm_boot_check -/

/-- `n` iterations of `memory[j] = pages[i] ^ j`, starting at `j`. -/
def fillFrom (page : ℕ) : ℕ → ℕ → Machine → Machine
  | _, 0, s => s
  | j, n + 1, s => fillFrom page (j + 1) n (s.store64 (page + 8 * j) (page ^^^ j))

/-- `memory[j] == (pages[i] ^ j)` for every `j`. -/
def filledWith (page : ℕ) (s : Machine) : Bool :=
  (List.range 512).all fun j => s.load64 (page + 8 * j) == page ^^^ j

/-- `n` iterations of the first loop, after `pages`. -/
def takePages : ℕ → List ℕ → Check (List ℕ)
  | 0, pages => pure pages
  | n + 1, pages => do
    let page ← allocPage
    Attempt.require (!pages.contains page)
    Attempt.perform fun s => ((), fillFrom page 0 512 s)
    takePages n (pages ++ [page])

def verifyPages : List ℕ → Check Unit
  | [] => pure ()
  | page :: pages => do
    Attempt.require (← Attempt.inspect (filledWith page))
    verifyPages pages

def pmmBootCheck : Check Unit := do
  let before ← availablePages
  Attempt.require (!decide (before < 3))
  let pages ← takePages 3 []
  verifyPages pages
  Attempt.require ((← availablePages) == Word64.sub before 3)
  Attempt.require (!(← freeingPage (Word64.add (pages.getD 0 0) 1)))
  Attempt.require (!(← freeingPage 0))
  Attempt.require (← freeingPage (pages.getD 1 0))
  Attempt.require (!(← freeingPage (pages.getD 1 0)))
  let again ← allocPage
  Attempt.require (again == pages.getD 1 0)
  Attempt.require (← freeingPage (pages.getD 0 0))
  Attempt.require (← freeingPage again)
  Attempt.require (← freeingPage (pages.getD 2 0))
  Attempt.require ((← availablePages) == before)

/-! ## paging_boot_check -/

def refusesMap (address physical : ℕ) (flags : Flags) : Check Unit := do
  Attempt.require (!(← mapping address physical flags))

def rejectsInvalidMappings (L : Layout) (info p : ℕ) : Check Unit := do
  let v := pagingDynamicBase
  refusesMap v L.kernelTextStart pagingWrite
  refusesMap v L.kernelRodataStart pagingWrite
  let stackBase ← loadAcross (info + 64)
  refusesMap v (Word64.sub stackBase 4096) pagingWrite
  refusesMap v L.doubleFaultGuardLow pagingWrite
  refusesMap 0x100000 p 0
  refusesMap (v + 1) p 0
  refusesMap (v + pagingDynamicSize) p 0
  refusesMap 0x800000000000 p 0
  refusesMap v (Word64.add p 1) 0
  refusesMap v 0 0
  refusesMap v p 4
  Attempt.require (!(← unmapping v))
  Attempt.require (!(← protecting v 0))
  let answer ← querying v 123 123
  Attempt.require (!answer.1)
  Attempt.require (answer.2.1 == some 123)
  Attempt.require (answer.2.2 == some 123)

def checkAliasesAndPermissions (L : Layout) (info : ℕ) : Check Unit := do
  let before ← availablePages
  let v := pagingDynamicBase
  let other := v + 0x200000
  let p ← allocPage
  let q ← allocPage
  rejectsInvalidMappings L info p
  Attempt.require (← mapping v p pagingWrite)
  Attempt.require (!(← mapping v q 0))
  Attempt.require (← mapping other p 0)
  storeAt v 0x123456789abcdef0
  let viaPhysical ← loadAt p
  let viaAlias ← loadAt v
  Attempt.require (viaPhysical == viaAlias)
  let viaOther ← loadAt other
  let viaAlias ← loadAt v
  Attempt.require (viaOther == viaAlias)
  let answer ← querying v 0 0
  Attempt.require answer.1
  Attempt.require (answer.2.1 == some p)
  Attempt.require (answer.2.2 == some pagingWrite)
  Attempt.require (← protecting v 0)
  let answer ← querying v p pagingWrite
  Attempt.require answer.1
  Attempt.require (answer.2.2 == some 0)
  Attempt.require (← protecting v pagingWrite)
  storeAt v 42
  Attempt.require (← unmapping v)
  let answer ← querying v p 0
  Attempt.require (!answer.1)
  Attempt.require (!(← unmapping v))
  Attempt.require (← mapping v q pagingWrite)
  storeAt v 99
  let ofQ ← loadAt q
  Attempt.require (ofQ == 99)
  let ofP ← loadAt p
  Attempt.require (ofP == 42)
  Attempt.require (← unmapping v)
  Attempt.require (← unmapping other)
  Attempt.require (← freeingPage p)
  Attempt.require (← freeingPage q)
  Attempt.require ((← availablePages) == before)

/-- `while (pmm_available() > 2)`, with every page linked to the one before. The page manager has
    at most `PAGE_COUNT` pages to give. -/
def holdPages : ℕ → ℕ → Check ℕ
  | 0, _ => fun _ => .stopped .endless
  | fuel + 1, held => do
    let available ← availablePages
    if available > 2 then do
      let q ← allocPage
      storeAt q held
      holdPages fuel q
    else pure held

/-- `while (held)`. -/
def releaseHeld : ℕ → ℕ → Check Unit
  | 0, _ => fun _ => .stopped .endless
  | fuel + 1, held =>
    if held != 0 then do
      let q ← loadAt held
      Attempt.require (← freeingPage held)
      releaseHeld fuel q
    else pure ()

def checkFailedMapCleanup : Check Unit := do
  let before ← availablePages
  let v := pagingDynamicBase
  let p ← allocPage
  let held ← holdPages (pageCount + 1) 0
  Attempt.require (!(← mapping v p pagingWrite))
  Attempt.require ((← availablePages) == 2)
  let answer ← querying v 0 0
  Attempt.require (!answer.1)
  releaseHeld (pageCount + 1) held
  Attempt.require (← mapping v p pagingWrite)
  Attempt.require (← unmapping v)
  Attempt.require (← freeingPage p)
  Attempt.require ((← availablePages) == before)

def pagingBootCheck (L : Layout) (info : ℕ) : Check Unit := do
  checkAliasesAndPermissions L info
  checkFailedMapCleanup

end OsByAi.BootChecks
