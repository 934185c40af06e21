import OsByAi.PagingDynamic
import OsByAi.PagingInit

set_option autoImplicit false

/-!
# Runs of the kernel's memory interface

From power-on the callers make any sequence of `pmm` and `paging` calls and write to
the pages they hold. The ledger is kept from the replies alone: the pages a caller
holds and the dynamic mappings it has been granted.
-/
namespace OsByAi.KernelRuns
open ByteMemory PackedBitmap BootInformation PmmModel PmmInvariant PmmBootMap
open PagingModel PagingEntries PagingTree PagingWalk PagingGrowth PagingAgree PagingDynamic
open PagingBuild PagingInit

/-- A call with its arguments. The kernel has one BOOT_INFO, which both initialisers get.
    `write` is not a call: a caller stores a byte into a page of its own. -/
inductive Call where
  | pmmInit
  | pmmAlloc (address : Option ℕ)
  | pmmFree (address : BitVec 64)
  | pmmIsAllocated (address : BitVec 64)
  | pmmTotal
  | pmmAvailable
  | pagingInit
  | pagingMap (address physical : BitVec 64) (flags : Flags)
  | pagingUnmap (address : BitVec 64)
  | pagingProtect (address : BitVec 64) (flags : Flags)
  | pagingQuery (address : BitVec 64) (physical : Option ℕ) (flags : Option Flags)
  | write (address : ℕ) (value : UInt8)

structure Reply where
  ok : Bool
  value : ℕ
  address : Option ℕ
  flags : Option Flags

def call (L : Layout) (info : ℕ) (s : Machine) : Call → Reply × Machine
  | .pmmInit => (⟨(pmmInit s.mem info s.pmm).1, 0, none, none⟩,
      { s with pmm := (pmmInit s.mem info s.pmm).2 })
  | .pmmAlloc address => (⟨(pmmAlloc s.pmm address).1, 0, (pmmAlloc s.pmm address).2.1, none⟩,
      { s with pmm := (pmmAlloc s.pmm address).2.2 })
  | .pmmFree address => (⟨(pmmFree s.pmm address.toNat).1, 0, none, none⟩,
      { s with pmm := (pmmFree s.pmm address.toNat).2 })
  | .pmmIsAllocated address => (⟨pmmIsAllocated s.pmm address.toNat, 0, none, none⟩, s)
  | .pmmTotal => (⟨true, pmmTotal s.pmm, none, none⟩, s)
  | .pmmAvailable => (⟨true, pmmAvailable s.pmm, none, none⟩, s)
  | .pagingInit => (⟨(pagingInit L info s).1, 0, none, none⟩, (pagingInit L info s).2)
  | .pagingMap address physical flags =>
      (⟨(pagingMap address.toNat physical.toNat flags s).1, 0, none, none⟩,
        (pagingMap address.toNat physical.toNat flags s).2)
  | .pagingUnmap address =>
      (⟨(pagingUnmap address.toNat s).1, 0, none, none⟩, (pagingUnmap address.toNat s).2)
  | .pagingProtect address flags =>
      (⟨(pagingProtect address.toNat flags s).1, 0, none, none⟩,
        (pagingProtect address.toNat flags s).2)
  | .pagingQuery address physical flags =>
      (⟨(pagingQuery address.toNat physical flags s).1, 0,
        (pagingQuery address.toNat physical flags s).2.1,
        (pagingQuery address.toNat physical flags s).2.2⟩, s)
  | .write address value =>
      (⟨true, 0, none, none⟩, { s with mem := Function.update s.mem address value })

structure Ledger where
  held : Finset ℕ
  mapping : ℕ → Option (ℕ × Flags)

def Ledger.blank : Ledger := ⟨∅, fun _ => none⟩

def Ledger.granted (l : Ledger) (v : ℕ) (x : Option (ℕ × Flags)) : Ledger :=
  { l with mapping := Function.update l.mapping v x }

def record (l : Ledger) (c : Call) (r : Reply) : Ledger :=
  match c with
  | .pmmAlloc _ =>
    match r.ok, r.address with
    | true, some a => { l with held := insert (a / 4096) l.held }
    | _, _ => l
  | .pmmFree a => if r.ok then { l with held := l.held.erase (a.toNat / 4096) } else l
  | .pagingMap v p f => if r.ok then l.granted v.toNat (some (p.toNat, f)) else l
  | .pagingUnmap v => if r.ok then l.granted v.toNat none else l
  | .pagingProtect v f =>
    if r.ok then l.granted v.toNat ((l.mapping v.toNat).map fun x => (x.1, f)) else l
  | _ => l

structure World where
  machine : Machine
  ledger : Ledger

def World.powerOn (m : Memory) (cpu : Cpu) : World := ⟨PagingModel.powerOn m cpu, Ledger.blank⟩

def next (L : Layout) (info : ℕ) (w : World) (c : Call) : World :=
  ⟨(call L info w.machine c).2, record w.ledger c (call L info w.machine c).1⟩

def run (L : Layout) (info : ℕ) (w : World) (calls : List Call) : World := calls.foldl (next L info) w

/-- Callers free only pages they hold, and write only to those. -/
def OwnPages (l : Ledger) : Call → Prop
  | .pmmFree a => a.toNat % 4096 = 0 ∧ a.toNat / 4096 ∈ l.held
  | .write a _ => a / 4096 ∈ l.held
  | _ => True

/-- Besides, no page is freed while a dynamic mapping refers to it. -/
def OwnUnmapped (l : Ledger) (c : Call) : Prop :=
  OwnPages l c ∧ ∀ a, c = .pmmFree a → ∀ v f, l.mapping v ≠ some (a.toNat, f)

def Follows (P : Ledger → Call → Prop) (L : Layout) (info : ℕ) : World → List Call → Prop
  | _, [] => True
  | w, c :: calls => P w.ledger c ∧ Follows P L info (next L info w c) calls

/-- The world right after the call of `paging_init` that succeeded. -/
structure Booted (L : Layout) (info : ℕ) (before after : World) : Prop where
  reached : ∃ m cpu calls, Follows OwnPages L info (World.powerOn m cpu) calls ∧
    before = run L info (World.powerOn m cpu) calls
  succeeded : (pagingInit L info before.machine).1 = true
  after_eq : after = next L info before .pagingInit

/-- Induction over a run: what every call keeps, the run keeps. -/
theorem Follows.invariant {P : Ledger → Call → Prop} {L : Layout} {info : ℕ} {I : World → Prop}
    (step : ∀ w c, I w → P w.ledger c → I (next L info w c)) {w : World} {calls : List Call}
    (h : Follows P L info w calls) (hw : I w) : I (run L info w calls) := by
  induction calls generalizing w with
  | nil => exact hw
  | cons c calls ih => exact ih h.2 (step w c hw h.1)

section Idle

variable {L : Layout} {info : ℕ} {w : World}

structure IdleWorld (info : ℕ) (w : World) : Prop where
  idle : Idle w.machine w.ledger.held info
  unmapped : w.ledger.mapping = fun _ => none

theorem powerOn_idle (m : Memory) (cpu : Cpu) (info : ℕ) : IdleWorld info (World.powerOn m cpu) := by
  refine ⟨⟨bss_inv, rfl, rfl, ?_, fun hr => absurd hr (by simp [World.powerOn, PagingModel.powerOn, bss])⟩, rfl⟩
  intro page
  change bit empty page = true ↔ page ∈ (∅ : Finset ℕ)
  simp

theorem bootOk_pmm {s : Machine} {pmm : Pmm} (h : BootOk s info)
    (he : pmm.eligible = s.pmm.eligible) : BootOk { s with pmm := pmm } info :=
  ⟨h.valid, he.trans h.eligible⟩

theorem initialised_eligible (map : Bitmap) : (initialised map).eligible = map := rfl

theorem initialised_allocated (map : Bitmap) : (initialised map).allocated = empty := rfl

theorem idle_init {s : Machine} {held : Finset ℕ} (h : Idle s held info) (hb : s.pmm = bss)
    (hv : ValidMap s.mem info) :
    Idle { s with pmm := initialised (bootEligible s.mem info) } held info := by
  have hinv := hv.initialised_inv
  have he := initialised_eligible (bootEligible s.mem info)
  have ha := initialised_allocated (bootEligible s.mem info)
  generalize initialised (bootEligible s.mem info) = pmm at hinv he ha ⊢
  refine ⟨hinv, h.count, h.inactive, ?_, fun _ => ⟨hv, he⟩⟩
  intro page
  have := h.owned page
  rw [hb] at this
  change bit pmm.allocated page = true ↔ page ∈ held
  rw [ha]
  exact this

theorem idle_alloc {s : Machine} {held : Finset ℕ} (h : Idle s held info) {page : ℕ}
    (hf : IsFree s.pmm page) (hmin : ∀ q, IsFree s.pmm q → page ≤ q) :
    Idle { s with pmm := takePage s.pmm page } (insert page held) info := by
  refine ⟨h.pmm.take hf hmin, h.count, h.inactive, ?_, fun hr => bootOk_pmm (h.boot hr) rfl⟩
  intro q
  simp only [takePage, bit_set, Bool.or_eq_true, decide_eq_true_eq, h.owned, Finset.mem_insert]

theorem idle_free {s : Machine} {held : Finset ℕ} (h : Idle s held info) {page : ℕ}
    (hb : bit s.pmm.allocated page = true) :
    Idle { s with pmm := givePage s.pmm page } (held.erase page) info := by
  refine ⟨h.pmm.give hb, h.count, h.inactive, ?_, fun hr => bootOk_pmm (h.boot hr) rfl⟩
  intro q
  simp only [givePage, bit_clear, Bool.and_eq_true, Bool.not_eq_true', decide_eq_false_iff_not, h.owned,
    Finset.mem_erase, ne_eq]

theorem write_memFrame {s : Machine} {a : ℕ} (he : bit s.pmm.eligible (a / 4096) = true)
    (value : UInt8) : MemFrame s { s with mem := Function.update s.mem a value } := by
  refine ⟨rfl, rfl, rfl, fun x hx => Function.update_of_ne ?_ _ _⟩
  rintro rfl
  rw [he] at hx
  exact absurd hx (by simp)

theorem idle_write {s : Machine} {held : Finset ℕ} (h : Idle s held info) {a : ℕ}
    (ha : a / 4096 ∈ held) (value : UInt8) :
    Idle { s with mem := Function.update s.mem a value } held info := by
  have he := h.pmm.sub _ ((h.owned _).mpr ha)
  exact ⟨h.pmm, h.count, h.inactive, h.owned, fun hr => (h.boot hr).frame (write_memFrame he value)⟩

theorem inactive_dynamicAddress {s : Machine} (h : s.active = false) (v : ℕ) :
    dynamicAddress s v = false := by
  simp [dynamicAddress, h]

theorem IdleWorld.next (h : IdleWorld info w) (c : Call) (hc : OwnPages w.ledger c)
    (hinit : c = .pagingInit → (pagingInit L info w.machine).1 = false) :
    IdleWorld info (next L info w c) := by
  obtain ⟨s, held, mapping⟩ := w
  obtain ⟨hidle, rfl⟩ := h
  simp only at hidle
  cases c with
  | pmmInit =>
    refine ⟨?_, rfl⟩
    change Idle { s with pmm := (PmmModel.pmmInit s.mem info s.pmm).2 } held info
    obtain ⟨hi, -⟩ | ⟨hb, hv, hi⟩ := init_cases hidle.pmm s.mem info
    · rw [hi]
      exact hidle
    · rw [hi]
      exact idle_init hidle hb hv
  | pmmAlloc address =>
    obtain ⟨ha, -⟩ | ⟨page, -, -, hf, hmin, ha⟩ := hidle.pmm.alloc_cases address
    · refine ⟨?_, ?_⟩ <;> simp only [KernelRuns.next, call, record, ha]
      exact hidle
    · refine ⟨?_, ?_⟩ <;> simp only [KernelRuns.next, call, record, ha]
      rw [Nat.mul_div_cancel _ (by decide)]
      exact idle_alloc hidle hf hmin
  | pmmFree a =>
    obtain ⟨ha, -⟩ | ⟨-, hb, ha⟩ := hidle.pmm.free_cases a.toNat
    · refine ⟨?_, ?_⟩ <;> simp only [KernelRuns.next, call, record, ha, Bool.false_eq_true, if_false]
      exact hidle
    · refine ⟨?_, ?_⟩ <;> simp only [KernelRuns.next, call, record, ha, if_true]
      exact idle_free hidle hb
  | pmmIsAllocated a => exact ⟨hidle, rfl⟩
  | pmmTotal => exact ⟨hidle, rfl⟩
  | pmmAvailable => exact ⟨hidle, rfl⟩
  | pagingInit =>
    refine ⟨?_, rfl⟩
    obtain ⟨s', hi, hs', -⟩ | ⟨s', hi, -⟩ := pagingInit_cases (L := L) hidle
    · simp only [KernelRuns.next, call, record, hi]
      exact hs'
    · have := hinit rfl
      simp only [hi] at this
      exact absurd this (by simp)
  | pagingMap v p f =>
    have hm : pagingMap v.toNat p.toNat f s = (false, s) := by
      simp [pagingMap, inactive_dynamicAddress hidle.inactive]
    refine ⟨?_, ?_⟩ <;> simp only [KernelRuns.next, call, record, hm, Bool.false_eq_true, if_false]
    exact hidle
  | pagingUnmap v =>
    have hm : pagingUnmap v.toNat s = (false, s) := by
      simp [pagingUnmap, inactive_dynamicAddress hidle.inactive]
    refine ⟨?_, ?_⟩ <;> simp only [KernelRuns.next, call, record, hm, Bool.false_eq_true, if_false]
    exact hidle
  | pagingProtect v f =>
    have hm : pagingProtect v.toNat f s = (false, s) := by
      simp [pagingProtect, inactive_dynamicAddress hidle.inactive]
    refine ⟨?_, ?_⟩ <;> simp only [KernelRuns.next, call, record, hm, Bool.false_eq_true, if_false]
    exact hidle
  | pagingQuery v p f => exact ⟨hidle, rfl⟩
  | write a value => exact ⟨idle_write hidle hc value, rfl⟩

end Idle

section Active

variable {L : Layout} {info : ℕ} {base s : Machine} {held : Finset ℕ} {w : World}

/-- The window holds what the ledger says; all else is as `paging_init` left it in `base`. -/
structure ActiveWorld (base : Machine) (w : World) : Prop where
  dyn : DynInv w.machine w.ledger.held
  map : dynamicMap w.machine = w.ledger.mapping
  outside : SameOutside base w.machine
  frame : MemFrame base w.machine
  cpu : w.machine.cpu = base.cpu
  root : w.machine.pagingRoot = base.pagingRoot

theorem DynInv.ready (h : DynInv s held) : s.pmm.ready = true :=
  h.tree.pmm.ready_of_allocated (h.tree.node_allocated (p := []) (by simp) (node_nil s))

theorem sameTables_pmm (s : Machine) (pmm : Pmm) : SameTables s { s with pmm := pmm } :=
  ⟨rfl, fun _ _ => rfl⟩

theorem DynInv.alloc (h : DynInv s held) {page : ℕ} (hf : IsFree s.pmm page)
    (hmin : ∀ q, IsFree s.pmm q → page ≤ q) :
    DynInv { s with pmm := takePage s.pmm page } (insert page held) := by
  refine h.sameTables (sameTables_pmm s _) ?_ rfl rfl
  refine (sameTables_pmm s _).treeInv h.tree (h.tree.pmm.take hf hmin) rfl ?_ ?_
  · intro q
    simp only [takePage, bit_set, Bool.or_eq_true, decide_eq_true_eq, h.tree.owned, Finset.mem_insert]
    exact or_left_comm
  · intro q hq hlive
    rcases Finset.mem_insert.mp hq with rfl | hq
    · have := (h.tree.owned q).mpr (.inl hlive)
      rw [hf.2] at this
      exact absurd this (by simp)
    · exact h.tree.disjoint q hq hlive

theorem DynInv.free (h : DynInv s held) {page : ℕ} (hp : page ∈ held) :
    DynInv { s with pmm := givePage s.pmm page } (held.erase page) := by
  have hb := (h.tree.owned page).mpr (.inr hp)
  have hnot := h.tree.disjoint page hp
  refine h.sameTables (sameTables_pmm s _) ?_ rfl rfl
  refine (sameTables_pmm s _).treeInv h.tree (h.tree.pmm.give hb) rfl ?_ ?_
  · intro q
    simp only [givePage, bit_clear, Bool.and_eq_true, Bool.not_eq_true', decide_eq_false_iff_not,
      h.tree.owned, Finset.mem_erase, ne_eq]
    constructor
    · rintro ⟨hne, hl | hh⟩
      · exact .inl hl
      · exact .inr ⟨hne, hh⟩
    · rintro (hl | ⟨hne, hh⟩)
      · exact ⟨fun e => hnot (e ▸ hl), .inl hl⟩
      · exact ⟨hne, .inr hh⟩
  · intro q hq
    exact h.tree.disjoint q (Finset.mem_of_mem_erase hq)

theorem sameTables_write (h : TreeInv s held) {a : ℕ} (ha : a / 4096 ∈ held) (value : UInt8) :
    SameTables s { s with mem := Function.update s.mem a value } := by
  refine ⟨rfl, fun x hx => Function.update_of_ne ?_ _ _⟩
  rintro rfl
  exact h.disjoint _ ha hx

theorem DynInv.write (h : DynInv s held) {a : ℕ} (ha : a / 4096 ∈ held) (value : UInt8) :
    DynInv { s with mem := Function.update s.mem a value } held := by
  have hs := sameTables_write h.tree ha value
  exact h.sameTables hs (hs.treeInv h.tree h.tree.pmm rfl h.tree.owned h.tree.disjoint) rfl rfl

theorem ActiveWorld.changed (h : ActiveWorld base w) {s' : Machine} {v : ℕ}
    {x : Option (ℕ × Flags)} (hc : Changed w.machine s' w.ledger.held v x) :
    ActiveWorld base ⟨s', w.ledger.granted v x⟩ where
  dyn := hc.inv
  map := by
    rw [hc.map, h.map]
    rfl
  outside := h.outside.trans hc.outside
  frame := h.frame.trans (Frame.memFrame hc.frame)
  cpu := hc.frame.cpu.trans h.cpu
  root := hc.frame.root.trans h.root

theorem Agree.memFrame {t : Machine} (ha : Agree s t) : MemFrame s t :=
  ⟨ha.pmm.ready, ha.pmm.eligible, ha.pmm.totalPages, fun x hx => ha.mem x (.inl hx)⟩

theorem ActiveWorld.agree (h : ActiveWorld base w) {s' : Machine} (ha : Agree w.machine s') :
    ActiveWorld base ⟨s', w.ledger⟩ where
  dyn := h.dyn.agree ha
  map := (SameTables.dynamicMap_eq ha.sameTables h.dyn.tree).trans h.map
  outside := h.outside.trans (SameTables.sameOutside ha.sameTables h.dyn.tree)
  frame := h.frame.trans (Agree.memFrame ha)
  cpu := ha.cpu.trans h.cpu
  root := ha.root.trans h.root

theorem ActiveWorld.elsewhere (h : ActiveWorld base w) {s' : Machine} {held' : Finset ℕ}
    (hd : DynInv s' held') (hs : SameTables w.machine s') (hf : MemFrame w.machine s')
    (hcpu : s'.cpu = w.machine.cpu) : ActiveWorld base ⟨s', { w.ledger with held := held' }⟩ where
  dyn := hd
  map := (SameTables.dynamicMap_eq hs h.dyn.tree).trans h.map
  outside := h.outside.trans (SameTables.sameOutside hs h.dyn.tree)
  frame := h.frame.trans hf
  cpu := hcpu.trans h.cpu
  root := hs.root.trans h.root

theorem toNat_lt_size (v : BitVec 64) : v.toNat < Word64.size := v.isLt

theorem ActiveWorld.next (h : ActiveWorld base w) (c : Call) (hc : OwnPages w.ledger c) :
    ActiveWorld base (next L info w c) := by
  obtain ⟨s, l⟩ := w
  have hdyn := h.dyn
  have hmap := h.map
  simp only at hdyn hmap
  cases c with
  | pmmInit =>
    have hi : PmmModel.pmmInit s.mem info s.pmm = (false, s.pmm) := by
      simp [PmmModel.pmmInit, DynInv.ready hdyn]
    simp only [KernelRuns.next, call, record, hi]
    exact h
  | pmmAlloc address =>
    obtain ⟨ha, -⟩ | ⟨page, -, -, hf, hmin, ha⟩ := hdyn.tree.pmm.alloc_cases address
    · simp only [KernelRuns.next, call, record, ha]
      exact h
    · simp only [KernelRuns.next, call, record, ha]
      rw [Nat.mul_div_cancel _ (by decide)]
      exact h.elsewhere (DynInv.alloc hdyn hf hmin) (sameTables_pmm s _)
        ⟨rfl, rfl, rfl, fun _ _ => rfl⟩ rfl
  | pmmFree a =>
    obtain ⟨hal, hheld⟩ := hc
    have hb := (hdyn.tree.owned _).mpr (.inr hheld)
    obtain ⟨-, hno⟩ | ⟨-, -, ha⟩ := hdyn.tree.pmm.free_cases a.toNat
    · exact absurd ⟨hal, hb⟩ hno
    · simp only [KernelRuns.next, call, record, ha, if_true]
      exact h.elsewhere (DynInv.free hdyn hheld) (sameTables_pmm s _)
        ⟨rfl, rfl, rfl, fun _ _ => rfl⟩ rfl
  | pmmIsAllocated a => exact h
  | pmmTotal => exact h
  | pmmAvailable => exact h
  | pagingInit =>
    have hi : PagingModel.pagingInit L info s = (false, s) := by
      simp [PagingModel.pagingInit, pagingInitWith, hdyn.active]
    simp only [KernelRuns.next, call, record, hi]
    exact h
  | pagingMap v p f =>
    obtain ⟨s', hm, -, hag⟩ | ⟨s', hm, -, hch⟩ := map_cases hdyn (toNat_lt_size v) p.toNat f
    · simp only [KernelRuns.next, call, record, hm, Bool.false_eq_true, if_false]
      exact h.agree hag
    · simp only [KernelRuns.next, call, record, hm, if_true]
      exact h.changed hch
  | pagingUnmap v =>
    obtain ⟨hm, -⟩ | ⟨s', hm, -, hch⟩ := unmap_cases hdyn (toNat_lt_size v)
    · simp only [KernelRuns.next, call, record, hm, Bool.false_eq_true, if_false]
      exact h
    · simp only [KernelRuns.next, call, record, hm, if_true]
      exact h.changed hch
  | pagingProtect v f =>
    obtain ⟨hm, -⟩ | ⟨a, g, s', hm, hold, -, hch⟩ := protect_cases hdyn (toNat_lt_size v) f
    · simp only [KernelRuns.next, call, record, hm, Bool.false_eq_true, if_false]
      exact h
    · simp only [KernelRuns.next, call, record, hm, if_true]
      rw [hmap] at hold
      rw [hold]
      exact h.changed hch
  | pagingQuery v p f => exact h
  | write a value =>
    exact h.elsewhere (DynInv.write hdyn hc value) (sameTables_write hdyn.tree hc value)
      (write_memFrame (hdyn.tree.pmm.sub _ ((hdyn.tree.owned _).mpr (.inr hc))) value) rfl

theorem ActiveWorld.run (h : ActiveWorld base w) {calls : List Call}
    (hc : Follows OwnPages L info w calls) : ActiveWorld base (run L info w calls) :=
  hc.invariant (fun _ c hw hown => hw.next c hown) h

theorem ActiveWorld.alloc_page (h : ActiveWorld base w) (hfree : 0 < w.machine.pmm.freePages) (a : ℕ) :
    ∃ page, page < pageCount ∧ page ∉ w.ledger.held ∧ (pmmAlloc w.machine.pmm (some a)).2.1 = some (page * 4096) ∧
      KernelRuns.next L info w (.pmmAlloc (some a)) =
        ⟨{ w.machine with pmm := takePage w.machine.pmm page }, { w.ledger with held := insert page w.ledger.held }⟩ := by
  have hinv := h.dyn.tree.pmm
  obtain ⟨-, hno⟩ | ⟨page, -, -, hf, -, ha⟩ := hinv.alloc_cases (some a)
  · rcases hno with hno | hno
    · exact absurd hno (by simp)
    · have hzero := hinv.freePages_eq_zero.mpr hno
      omega
  · refine ⟨page, (hinv.bounds _ hf.1).2, fun hheld => ?_, by rw [ha], ?_⟩
    · have htaken := (h.dyn.tree.owned page).mpr (.inr hheld)
      rw [hf.2] at htaken
      exact absurd htaken (by simp)
    simp only [KernelRuns.next, call, record, ha]
    rw [Nat.mul_div_cancel _ (by decide)]

theorem ActiveWorld.map_page (h : ActiveWorld base w) {page : ℕ} (hheld : page ∈ w.ledger.held) {v p : BitVec 64}
    (hp : p.toNat = page * 4096) (hv : Window v.toNat) {f : Flags} (hf : validFlags f = true)
    (hnone : w.ledger.mapping v.toNat = none) (hfits : Fits w.machine (missing w.machine [] (upper v.toNat))) :
    (KernelRuns.next L info w (.pagingMap v p f)).ledger = w.ledger.granted v.toNat (some (page * 4096, f)) := by
  have htree := h.dyn.tree
  have hdiv : page * 4096 / 4096 = page := Nat.mul_div_cancel _ (by decide)
  have hallowed : MapAllowed w.machine v.toNat p.toNat f := by
    refine ⟨hv, hf, ?_, ?_, by rw [h.map, hnone], hfits⟩
    · rw [htree.pmm.isAllocated_iff, hp, hdiv]
      exact ⟨Nat.mul_mod_left _ _, (htree.owned page).mpr (.inr hheld)⟩
    · rw [hp, Nat.mul_comm]
      exact htree.disjoint page hheld
  obtain ⟨s', -, hno, -⟩ | ⟨s', hm, -⟩ := map_cases h.dyn (toNat_lt_size v) p.toNat f
  · exact absurd hallowed hno
  · simp only [KernelRuns.next, call, record, hm, if_true]
    rw [hp]

theorem ActiveWorld.alloc_run (h : ActiveWorld base w) {k : ℕ} (hk : k ≤ w.machine.pmm.freePages) (a : ℕ) :
    ∃ pmm held, KernelRuns.run L info w (List.replicate k (.pmmAlloc (some a))) =
        ⟨{ w.machine with pmm := pmm }, { w.ledger with held := held }⟩ ∧
      pmm.freePages = w.machine.pmm.freePages - k ∧ held.card = w.ledger.held.card + k := by
  induction k generalizing w with
  | zero => exact ⟨w.machine.pmm, w.ledger.held, rfl, rfl, rfl⟩
  | succ k ih =>
    obtain ⟨page, -, hfresh, -, hnext⟩ := @ActiveWorld.alloc_page L info base w h (by omega) a
    have hstep : ActiveWorld base (KernelRuns.next L info w (.pmmAlloc (some a))) := h.next _ trivial
    rw [hnext] at hstep
    have hfree : (takePage w.machine.pmm page).freePages = w.machine.pmm.freePages - 1 := rfl
    obtain ⟨pmm, held, hrun, hleft, hcard⟩ := ih hstep (by simp only [hfree]; omega)
    refine ⟨pmm, held, ?_, ?_, ?_⟩
    · rw [List.replicate_succ, KernelRuns.run, List.foldl_cons, hnext]
      exact hrun
    · simp only [hfree] at hleft
      omega
    · rw [hcard, Finset.card_insert_of_notMem hfresh]
      omega

theorem ActiveWorld.alloc_map (h : ActiveWorld base w) (hfree : 4 ≤ w.machine.pmm.freePages)
    (htables : w.machine.pagingTableCount + 3 ≤ maxTables) {v : BitVec 64} (hv : Window v.toNat) {f : Flags}
    (hf : validFlags f = true) (hnone : w.ledger.mapping v.toNat = none) {a : ℕ}
    (ha : (pmmAlloc w.machine.pmm (some 0)).2.1.getD 0 = a) :
    (KernelRuns.run L info w [.pmmAlloc (some 0), .pagingMap v (BitVec.ofNat 64 a) f]).ledger =
      ⟨insert (a / 4096) w.ledger.held, Function.update w.ledger.mapping v.toNat (some (a, f))⟩ := by
  obtain ⟨page, hpage, -, hgiven, hnext⟩ := @ActiveWorld.alloc_page L info base w h (by omega) 0
  obtain rfl : page * 4096 = a := by
    rw [← ha, hgiven]
    rfl
  have hstep : ActiveWorld base (KernelRuns.next L info w (.pmmAlloc (some 0))) := h.next _ trivial
  change (KernelRuns.next L info (KernelRuns.next L info w (.pmmAlloc (some 0)))
    (.pagingMap v (BitVec.ofNat 64 (page * 4096)) f)).ledger = _
  rw [hnext] at hstep ⊢
  have hmissing := missing_le w.machine [] (upper v.toNat)
  rw [length_upper] at hmissing
  have hnat : (BitVec.ofNat 64 (page * 4096)).toNat = page * 4096 := by
    rw [BitVec.toNat_ofNat, Nat.mod_eq_of_lt]
    rw [pageCount_eq] at hpage
    omega
  have hfits : Fits { w.machine with pmm := takePage w.machine.pmm page } (missing w.machine [] (upper v.toNat)) := by
    refine ⟨?_, ?_⟩
    · change w.machine.pagingTableCount + _ ≤ maxTables
      omega
    · change _ ≤ w.machine.pmm.freePages - 1
      omega
  rw [hstep.map_page (Finset.mem_insert_self page _) hnat hv hf hnone hfits, Nat.mul_div_cancel _ (by decide)]
  rfl

theorem Installed.no_dynamic {s' : Machine} (h : Installed L info s s' held) {q : Path}
    (hq : q.length ≤ 3) (hhead : q.head? = some 256) : node s' q = none := by
  by_contra hsome
  obtain ⟨v, hv, hpre⟩ := h.built.low q hq hsome
  have h39 : pageIndex v 39 = 0 := by
    unfold pmmLimit at hv
    apply Fin.ext
    change v / 2 ^ 39 % 512 = 0
    omega
  obtain ⟨r, hr⟩ := hpre
  cases q with
  | nil => exact absurd hhead (by simp)
  | cons i q =>
    have hi : i = pageIndex v 39 := (List.cons.inj hr).1
    rw [hi, h39, List.head?_cons, Option.some.injEq] at hhead
    exact absurd hhead (by decide)

theorem Installed.missing_eq {s' : Machine} (h : Installed L info s s' held) {v : ℕ} (hv : Window v) :
    missing s' [] (upper v) = 3 :=
  missing_absent s' fun q hq => Installed.no_dynamic h (by simp; omega) (by rw [hv.slot]; rfl)

theorem Installed.leaf_zero {s' : Machine} (h : Installed L info s s' held) {v : ℕ} (hv : Window v) :
    leafOf s' v = 0 := entryAt_of_none (Installed.no_dynamic h (length_upper v).le hv.head) _

theorem Installed.activeWorld {s' : Machine} {l : Ledger} (h : Installed L info s s' l.held)
    (hl : l.mapping = fun _ => none) : ActiveWorld s' ⟨s', l⟩ where
  dyn := by
    refine ⟨h.built.tree, h.active, h.interruptsOff, ?_, ?_⟩
    · intro q hq hhead hsome
      exact absurd (Installed.no_dynamic h hq hhead) hsome
    · intro v hv
      exact .inl (Installed.leaf_zero h hv)
  map := by
    funext v
    rw [hl]
    by_cases hv : Window v
    · exact dynamicMap_of_zero (Installed.leaf_zero h hv)
    · exact dynamicMap_outside hv
  outside := ⟨fun _ _ _ => rfl, fun _ _ _ _ => rfl⟩
  frame := ⟨rfl, rfl, rfl, fun _ _ => rfl⟩
  cpu := rfl
  root := rfl

theorem idle_or_active (m : Memory) (cpu : Cpu) {calls : List Call}
    (hc : Follows OwnPages L info (World.powerOn m cpu) calls) :
    IdleWorld info (KernelRuns.run L info (World.powerOn m cpu) calls) ∨
      ∃ base, ActiveWorld base (KernelRuns.run L info (World.powerOn m cpu) calls) := by
  refine hc.invariant (I := fun w => IdleWorld info w ∨ ∃ base, ActiveWorld base w) ?_
    (.inl (powerOn_idle m cpu info))
  rintro w c (hidle | ⟨base, hact⟩) hown
  · by_cases hinit : c = .pagingInit ∧ (PagingModel.pagingInit L info w.machine).1 = true
    · obtain ⟨rfl, hok⟩ := hinit
      obtain ⟨s', hi, -⟩ | ⟨s', hi, hinst⟩ := pagingInit_cases (L := L) hidle.idle
      · rw [hi] at hok
        exact absurd hok (by simp)
      · refine .inr ⟨s', ?_⟩
        simp only [KernelRuns.next, call, record, hi]
        exact Installed.activeWorld hinst hidle.unmapped
    · refine .inl (hidle.next c hown fun he => ?_)
      by_contra hok
      exact hinit ⟨he, by simpa using hok⟩
  · exact .inr ⟨base, hact.next c hown⟩

theorem Booted.cases {before after : World} (h : Booted L info before after) :
    IdleWorld info before ∧ after.ledger = before.ledger ∧
      Installed L info before.machine after.machine before.ledger.held ∧
      ActiveWorld after.machine after := by
  obtain ⟨⟨m, cpu, calls, hc, rfl⟩, hok, rfl⟩ := h
  obtain hidle | ⟨base, hact⟩ := idle_or_active m cpu hc
  · obtain ⟨s', hi, -⟩ | ⟨s', hi, hinst⟩ := pagingInit_cases (L := L) hidle.idle
    · rw [hi] at hok
      exact absurd hok (by simp)
    · simp only [KernelRuns.next, call, record, hi]
      exact ⟨hidle, trivial, hinst, Installed.activeWorld hinst hidle.unmapped⟩
  · have hi : ∀ s : Machine, s.active = true → PagingModel.pagingInit L info s = (false, s) := by
      intro s ha
      simp [PagingModel.pagingInit, pagingInitWith, ha]
    rw [hi _ hact.dyn.active] at hok
    exact absurd hok (by simp)

end Active

end OsByAi.KernelRuns
