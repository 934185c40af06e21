import OsByAi.PagingFailure
import OsByAi.PagingInitFailure
import OsByAi.PagingBlocks
import OsByAi.PagingCheckCalls

set_option autoImplicit false

namespace OsByAi.HeldMemory
open ByteMemory PackedBitmap BootInformation PmmModel PmmInvariant PmmBootMap PagingModel PagingEntries PagingTree
open PagingWalk PagingGrowth PagingDynamic PagingBuild PagingInit PagingFill PagingInitFailure PagingBlocks KernelRuns
open PagingAddressSpace PagingFailure PagingIsolation PagingCheckCalls

variable {L : Layout} {info : ℕ} {w : World}

/-- The two phases of a run. A `paging_init` that fails puts its root back to zero. -/
def Phase (info : ℕ) (w : World) : Prop :=
  (IdleWorld info w ∧ w.machine.pagingRoot = 0) ∨
    ∃ base : Machine, base.cpu.cr3 = base.pagingRoot ∧ ActiveWorld base w

theorem powerOn_phase (m : Memory) (cpu : Cpu) (info : ℕ) : Phase info (World.powerOn m cpu) :=
  .inl ⟨powerOn_idle m cpu info, rfl⟩

theorem Phase.pmm (h : Phase info w) : Inv w.machine.pmm := by
  obtain ⟨hidle, -⟩ | ⟨base, -, hact⟩ := h
  · exact hidle.idle.pmm
  · exact hact.dyn.tree.pmm

theorem Phase.held_eligible (h : Phase info w) {page : ℕ} (hp : page ∈ w.ledger.held) :
    bit w.machine.pmm.eligible page = true := by
  refine h.pmm.sub page ?_
  obtain ⟨hidle, -⟩ | ⟨base, -, hact⟩ := h
  · exact (hidle.idle.owned page).mpr hp
  · exact (hact.dyn.tree.owned page).mpr (.inr hp)

/-- A byte that no call may write: in a page that a caller holds, or that is not managed. -/
def Private (w : World) (x : ℕ) : Prop :=
  x / 4096 ∈ w.ledger.held ∨ bit w.machine.pmm.eligible (x / 4096) = false

section Init

variable {s : Machine} {held : Finset ℕ}

theorem pagingInit_mem (h : Idle s held info) (hroot : s.pagingRoot = 0) {x : ℕ} (hx : ¬ IsFree s.pmm (x / 4096)) :
    (pagingInit L info s).2.mem x = s.mem x := by
  by_cases hok : (pagingInit L info s).1 = true
  · obtain ⟨-, c, s1, s2, hfree, hmin, hmap, -, hun, hres⟩ := pagingInit_true h hok
    have hplanted := planted_filling h hfree hmin L
    have hmapped := hplanted.grow h (mapBootRamFrom_filled (L := L) info 65537 0 hplanted.tree)
    rw [← mapBootRam, hmap] at hmapped
    have hcleared := hmapped.grow h (unmapGuards_filled (stackGuards L (bootInfoAt s1.mem info)) hmapped.tree
      (stackGuards_lt L _)).1
    rw [unmapStackGuards] at hun
    rw [hun] at hcleared
    rw [hres]
    exact hcleared.confined.mem x hx
  · rw [pagingInit_eq_for] at hok ⊢
    exact (pagingInitFor_failed h hroot 65537 info (by simpa using hok)).2.mem x hx

theorem pagingInit_failed_root (h : Idle s held info) (hroot : s.pagingRoot = 0)
    (hfail : (pagingInit L info s).1 = false) : (pagingInit L info s).2.pagingRoot = 0 := by
  rw [pagingInit_eq_for] at hfail ⊢
  exact (pagingInitFor_failed h hroot 65537 info hfail).1.root.trans hroot

end Init

section Window

variable {s : Machine} {held : Finset ℕ} {v x : ℕ}

theorem pagingMap_mem (h : DynInv s held) (hv : v < Word64.size) (physical : ℕ) (f : Flags)
    (hx : x / 4096 ∈ held ∨ bit s.pmm.eligible (x / 4096) = false) : (pagingMap v physical f s).2.mem x = s.mem x := by
  rcases hx with hx | hx
  · exact (pagingMap_blocks h.tree physical f).keepsHeld x hx
  · obtain ⟨s', hm, -, hag⟩ | ⟨s', hm, -, hch⟩ := map_cases h hv physical f
    · rw [hm]
      exact hag.mem x (.inl hx)
    · rw [hm]
      exact hch.frame.mem x hx

theorem pagingUnmap_mem (h : DynInv s held) (hv : v < Word64.size)
    (hx : x / 4096 ∈ held ∨ bit s.pmm.eligible (x / 4096) = false) : (pagingUnmap v s).2.mem x = s.mem x := by
  rcases hx with hx | hx
  · exact (pagingUnmap_blocks h hv).keepsHeld x hx
  · obtain ⟨hm, -⟩ | ⟨s', hm, -, hch⟩ := unmap_cases h hv
    · rw [hm]
    · rw [hm]
      exact hch.frame.mem x hx

theorem pagingProtect_mem (h : DynInv s held) (hv : v < Word64.size) (f : Flags)
    (hx : x / 4096 ∈ held ∨ bit s.pmm.eligible (x / 4096) = false) : (pagingProtect v f s).2.mem x = s.mem x := by
  rcases hx with hx | hx
  · exact (pagingProtect_blocks h hv f).keepsHeld x hx
  · obtain ⟨hm, -⟩ | ⟨a, g, s', hm, -, -, hch⟩ := protect_cases h hv f
    · rw [hm]
    · rw [hm]
      exact hch.frame.mem x hx

end Window

def written (x : ℕ) (old : UInt8) : Call → UInt8
  | .write a value => if x = a then value else old
  | _ => old

theorem Phase.next (h : Phase info w) (c : Call) (hc : OwnPages w.ledger c) : Phase info (next L info w c) := by
  obtain ⟨hidle, hroot⟩ | ⟨base, hcr3, hact⟩ := h
  · by_cases hinit : c = .pagingInit
    · subst hinit
      obtain ⟨s', hi, -⟩ | ⟨s', hi, hinst⟩ := pagingInit_cases (L := L) hidle.idle
      · have hfail : (PagingModel.pagingInit L info w.machine).1 = false := by
          rw [hi]
        exact .inl ⟨hidle.next .pagingInit hc fun _ => hfail, pagingInit_failed_root hidle.idle hroot hfail⟩
      · refine .inr ⟨s', hinst.cr3, ?_⟩
        simp only [KernelRuns.next, call, record, hi]
        exact Installed.activeWorld hinst hidle.unmapped
    · exact .inl ⟨hidle.next c hc fun he => absurd he hinit, (next_root hidle c hinit).trans hroot⟩
  · exact .inr ⟨base, hcr3, hact.next c hc⟩

theorem Phase.byte (h : Phase info w) (c : Call) (hc : OwnPages w.ledger c) {x : ℕ} (hx : Private w x) :
    (KernelRuns.next L info w c).machine.mem x = written x (w.machine.mem x) c := by
  obtain ⟨hidle, hroot⟩ | ⟨base, -, hact⟩ := h
  · have hdyn := inactive_dynamicAddress hidle.idle.inactive
    cases c with
    | pagingInit =>
      refine pagingInit_mem hidle.idle hroot fun hfree => ?_
      rcases hx with hx | hx
      · have := (hidle.idle.owned _).mpr hx
        rw [hfree.2] at this
        exact absurd this (by simp)
      · rw [hfree.1] at hx
        exact absurd hx (by simp)
    | pagingMap v p f => simp [KernelRuns.next, call, pagingMap, hdyn, written]
    | pagingUnmap v => simp [KernelRuns.next, call, pagingUnmap, hdyn, written]
    | pagingProtect v f => simp [KernelRuns.next, call, pagingProtect, hdyn, written]
    | write a value => exact Function.update_apply _ _ _ _
    | _ => rfl
  · have hdyn := hact.dyn
    cases c with
    | pagingInit =>
      have hi : PagingModel.pagingInit L info w.machine = (false, w.machine) := by
        simp [PagingModel.pagingInit, pagingInitWith, hdyn.active]
      simp only [KernelRuns.next, call, hi, written]
    | pagingMap v p f => exact pagingMap_mem hdyn (toNat_lt_size v) p.toNat f hx
    | pagingUnmap v => exact pagingUnmap_mem hdyn (toNat_lt_size v) hx
    | pagingProtect v f => exact pagingProtect_mem hdyn (toNat_lt_size v) f hx
    | write a value => exact Function.update_apply _ _ _ _
    | _ => rfl

theorem Phase.eligible_next (h : Phase info w) (c : Call) (hc : OwnPages w.ledger c) {page : ℕ}
    (he : bit w.machine.pmm.eligible page = true) : bit (KernelRuns.next L info w c).machine.pmm.eligible page = true := by
  have hsame : c ≠ .pmmInit → (KernelRuns.next L info w c).machine.pmm.eligible = w.machine.pmm.eligible := by
    intro hinit
    obtain ⟨hidle, hroot⟩ | ⟨base, -, hact⟩ := h
    · have hdyn := inactive_dynamicAddress hidle.idle.inactive
      cases c with
      | pmmInit => exact absurd rfl hinit
      | pmmAlloc address => exact eligible_alloc hidle.idle.pmm address
      | pmmFree a => exact eligible_free hidle.idle.pmm a.toNat
      | pagingInit =>
        obtain ⟨s', hi, -⟩ | ⟨s', hi, hinst⟩ := pagingInit_cases (L := L) hidle.idle
        · have hfail := pagingInit_eq_for L info w.machine
          rw [hi] at hfail
          have hag := (pagingInitFor_failed (L := L) hidle.idle hroot 65537 info (by rw [← hfail])).1
          rw [← hfail] at hag
          simp only [KernelRuns.next, call, hi]
          exact hag.pmm.eligible
        · simp only [KernelRuns.next, call, hi]
          exact hinst.frame.eligible
      | pagingMap v p f => simp [KernelRuns.next, call, pagingMap, hdyn]
      | pagingUnmap v => simp [KernelRuns.next, call, pagingUnmap, hdyn]
      | pagingProtect v f => simp [KernelRuns.next, call, pagingProtect, hdyn]
      | _ => rfl
    · have hnext : ActiveWorld base (KernelRuns.next L info w c) := hact.next c hc
      exact hnext.frame.eligible.trans hact.frame.eligible.symm
  by_cases hinit : c = .pmmInit
  · subst hinit
    obtain ⟨hi, -⟩ | ⟨hb, -, -⟩ := init_cases h.pmm w.machine.mem info
    · simp only [KernelRuns.next, call, hi]
      exact he
    · rw [hb, show bss.eligible = empty from rfl, bit_empty] at he
      exact absurd he (by simp)
  · rw [hsame hinit]
    exact he

theorem held_if {p : Prop} [Decidable p] {l l' : Ledger} {page : ℕ} (hl : p → page ∈ l.held) (hl' : page ∈ l'.held) :
    page ∈ (if p then l else l').held := by
  split
  · rename_i hp
    exact hl hp
  · exact hl'

theorem held_next {c : Call} {page : ℕ} (hp : page ∈ w.ledger.held)
    (hkeep : ∀ a, c = .pmmFree a → a.toNat / 4096 ≠ page) : page ∈ (KernelRuns.next L info w c).ledger.held := by
  cases c with
  | pmmAlloc address =>
    simp only [KernelRuns.next, call, record]
    split
    · exact Finset.mem_insert_of_mem hp
    · exact hp
  | pmmFree a => exact held_if (fun _ => Finset.mem_erase.mpr ⟨(hkeep a rfl).symm, hp⟩) hp
  | pagingMap v p f => exact held_if (fun _ => hp) hp
  | pagingUnmap v => exact held_if (fun _ => hp) hp
  | pagingProtect v f => exact held_if (fun _ => hp) hp
  | _ => exact hp

theorem held_run (h : Phase info w) {calls : List Call} (hc : Follows OwnPages L info w calls) {x : ℕ}
    (hx : x / 4096 ∈ w.ledger.held) (hkeep : ∀ a, Call.pmmFree a ∈ calls → a.toNat / 4096 ≠ x / 4096) :
    (run L info w calls).machine.mem x = calls.foldl (written x) (w.machine.mem x) := by
  induction calls generalizing w with
  | nil => rfl
  | cons c calls ih =>
    have hheld : x / 4096 ∈ (KernelRuns.next L info w c).ledger.held :=
      held_next hx fun a ha => hkeep a (ha ▸ List.mem_cons_self ..)
    have hrest := ih (h.next c hc.1) hc.2 hheld fun a ha => hkeep a (List.mem_cons_of_mem _ ha)
    rw [h.byte c hc.1 (.inl hx)] at hrest
    exact hrest

theorem unmanaged_run (h : Phase info w) {calls : List Call} (hc : Follows OwnPages L info w calls) {x : ℕ}
    (hx : bit (run L info w calls).machine.pmm.eligible (x / 4096) = false) :
    (run L info w calls).machine.mem x = w.machine.mem x := by
  induction calls generalizing w with
  | nil => rfl
  | cons c calls ih =>
    have hrest := ih (h.next c hc.1) hc.2 hx
    have hnow : bit w.machine.pmm.eligible (x / 4096) = false := by
      by_contra he
      have hlater := hc.2.invariant (I := fun u => Phase info u ∧ bit u.machine.pmm.eligible (x / 4096) = true)
        (fun u d hu hd => ⟨hu.1.next d hd, hu.1.eligible_next d hd hu.2⟩)
        ⟨h.next c hc.1, h.eligible_next c hc.1 (by simpa using he)⟩
      have hthen : bit (run L info (KernelRuns.next L info w c) calls).machine.pmm.eligible (x / 4096) = false := hx
      exact absurd (hlater.2.symm.trans hthen) (by simp)
    rw [h.byte c hc.1 (.inr hnow)] at hrest
    refine hrest.trans ?_
    cases c with
    | write a value =>
      refine if_neg ?_
      rintro rfl
      rw [h.held_eligible hc.1] at hnow
      exact absurd hnow (by simp)
    | _ => rfl

theorem Phase.run (h : Phase info w) {calls : List Call} (hc : Follows OwnPages L info w calls) :
    Phase info (KernelRuns.run L info w calls) :=
  hc.invariant (fun _ c hw hown => hw.next c hown) h

theorem follows_append {P : Ledger → Call → Prop} {w : World} {before later : List Call} :
    Follows P L info w (before ++ later) ↔ Follows P L info w before ∧ Follows P L info (run L info w before) later := by
  induction before generalizing w with
  | nil => exact ⟨fun h => ⟨trivial, h⟩, fun h => h.2⟩
  | cons c before ih =>
    constructor
    · rintro ⟨hc, hrest⟩
      obtain ⟨hbefore, hlater⟩ := ih.mp hrest
      exact ⟨⟨hc, hbefore⟩, hlater⟩
    · rintro ⟨⟨hc, hbefore⟩, hlater⟩
      exact ⟨hc, ih.mpr ⟨hbefore, hlater⟩⟩

theorem run_append (w : World) (before later : List Call) :
    run L info w (before ++ later) = run L info (run L info w before) later := List.foldl_append

theorem Phase.window (h : Phase info w) {v a o : ℕ} {f : Flags} (hv : w.ledger.mapping v = some (a, f)) (ho : o < 4096) :
    a % 4096 = 0 ∧ v % 4096 = 0 ∧ reached w.machine (v + o) = some ⟨a, wantsWrite f, wantsExec f, false⟩ := by
  obtain ⟨hidle, -⟩ | ⟨base, hcr3, hact⟩ := h
  · rw [hidle.unmapped] at hv
    exact absurd hv (by simp)
  · have hmap : dynamicMap w.machine v = some (a, f) := by rw [hact.map, hv]
    have hw : Window v := by
      by_contra hno
      rw [dynamicMap_outside hno] at hmap
      exact absurd hmap (by simp)
    obtain ⟨haligned, -, hhi⟩ := id hw
    have hlt : v < Word64.size := by
      unfold pagingDynamicBase pagingDynamicSize at hhi
      unfold Word64.size
      omega
    obtain ⟨hno, -⟩ | ⟨-, -, -, page, g, -, -, -, -, -, hfound, -⟩ := hact.dyn.find hlt
    · exact absurd (hno.symm.trans hmap) (by simp)
    · obtain ⟨rfl, rfl⟩ := Prod.mk.inj (Option.some.inj (hfound.symm.trans hmap))
      have hroot : w.machine.cpu.cr3 = w.machine.pagingRoot := by
        rw [hact.cpu, hcr3, hact.root]
      have hpage := reached_window hcr3 (show At base w.machine w.ledger.held w.ledger.mapping from hact) hlt hv
      refine ⟨Nat.mul_mod_right _ _, haligned, ?_⟩
      rw [reached, hroot] at hpage ⊢
      rw [← translate_page hact.dyn.tree, show 4096 * ((v + o) / 4096) = v by omega]
      exact hpage

/-- The byte that a load from `v` gets. -/
def seen (s : Machine) (v : ℕ) : Option UInt8 := (reached s v).map fun t => s.mem (t.physical + v % 4096)

/-- What is stored in memory that no call may write, in every run of well-behaved callers. -/
structure PrivateMemory (L : Layout) (info : ℕ) (m : Memory) (cpu : Cpu) : Prop where
  held : ∀ before later x, Follows OwnPages L info (World.powerOn m cpu) (before ++ later) →
    x / 4096 ∈ (run L info (World.powerOn m cpu) before).ledger.held →
    (∀ a, Call.pmmFree a ∈ later → a.toNat / 4096 ≠ x / 4096) →
    (run L info (World.powerOn m cpu) (before ++ later)).machine.mem x =
      later.foldl (written x) ((run L info (World.powerOn m cpu) before).machine.mem x)
  mapped : ∀ before later v a f o, Follows OwnPages L info (World.powerOn m cpu) (before ++ later) →
    a / 4096 ∈ (run L info (World.powerOn m cpu) before).ledger.held →
    (∀ b, Call.pmmFree b ∈ later → b.toNat / 4096 ≠ a / 4096) →
    (run L info (World.powerOn m cpu) (before ++ later)).ledger.mapping v = some (a, f) → o < 4096 →
    seen (run L info (World.powerOn m cpu) (before ++ later)).machine (v + o) =
      some (later.foldl (written (a + o)) ((run L info (World.powerOn m cpu) before).machine.mem (a + o)))
  unmanaged : ∀ calls x, Follows OwnPages L info (World.powerOn m cpu) calls →
    bit (run L info (World.powerOn m cpu) calls).machine.pmm.eligible (x / 4096) = false →
    (run L info (World.powerOn m cpu) calls).machine.mem x = m x

theorem held_kept {m : Memory} {cpu : Cpu} {before later : List Call} {x : ℕ}
    (hc : Follows OwnPages L info (World.powerOn m cpu) (before ++ later))
    (hx : x / 4096 ∈ (run L info (World.powerOn m cpu) before).ledger.held)
    (hkeep : ∀ a, Call.pmmFree a ∈ later → a.toNat / 4096 ≠ x / 4096) :
    (run L info (World.powerOn m cpu) (before ++ later)).machine.mem x =
      later.foldl (written x) ((run L info (World.powerOn m cpu) before).machine.mem x) := by
  obtain ⟨hbefore, hlater⟩ := follows_append.mp hc
  rw [run_append]
  exact held_run ((powerOn_phase m cpu info).run hbefore) hlater hx hkeep

/-- The pages of a caller are a memory of its own, at the pages' addresses and through every mapping. -/
theorem callers_memory_private (L : Layout) (info : ℕ) (m : Memory) (cpu : Cpu) : PrivateMemory L info m cpu where
  held before later x hc hx hkeep := held_kept hc hx hkeep
  mapped before later v a f o hc ha hkeep hv ho := by
    obtain ⟨halign, hvalign, hreached⟩ := ((powerOn_phase m cpu info).run hc).window hv ho
    have hpage : (a + o) / 4096 = a / 4096 := by omega
    have hoffset : (v + o) % 4096 = o := by omega
    rw [seen, hreached, Option.map_some, hoffset, held_kept hc (by rw [hpage]; exact ha) (by rw [hpage]; exact hkeep)]
  unmanaged calls x hc hx := unmanaged_run (powerOn_phase m cpu info) hc hx

theorem ledger_write (L : Layout) (info : ℕ) (w : World) (x : ℕ) (value : UInt8) :
    (run L info w [.write x value]).ledger = w.ledger := rfl

/-- A byte written to the page is read back through its mapping. -/
theorem small_read_back : seen (run smallLayout smallInfo (World.powerOn smallMemory smallCpu)
    (bootCalls ++ [.write smallPage 7])).machine 0xffff800000000000 = some 7 := by
  have hledger : (run smallLayout smallInfo (World.powerOn smallMemory smallCpu) bootCalls).ledger =
      ⟨insert (smallPage / 4096) ∅, Function.update (fun _ => none) 0xffff800000000000 (some (smallPage, 3))⟩ := by
    rw [run_bootCalls, small_granted]
  have hheld : smallPage / 4096 ∈ (run smallLayout smallInfo (World.powerOn smallMemory smallCpu) bootCalls).ledger.held := by
    rw [hledger]
    exact Finset.mem_insert_self _ _
  have hboot : Follows OwnPages smallLayout smallInfo (World.powerOn smallMemory smallCpu) bootCalls :=
    ⟨trivial, trivial, trivial, trivial, trivial⟩
  have hwrite : Follows OwnPages smallLayout smallInfo
      (run smallLayout smallInfo (World.powerOn smallMemory smallCpu) bootCalls) [.write smallPage 7] := ⟨hheld, trivial⟩
  have hown : Follows OwnPages smallLayout smallInfo (World.powerOn smallMemory smallCpu)
      (bootCalls ++ [.write smallPage 7]) := follows_append.mpr ⟨hboot, hwrite⟩
  have hmapping : (run smallLayout smallInfo (World.powerOn smallMemory smallCpu)
      (bootCalls ++ [.write smallPage 7])).ledger.mapping 0xffff800000000000 = some (smallPage, 3) := by
    rw [run_append, ledger_write, run_bootCalls]
    exact small_mapped
  have hseen := (callers_memory_private smallLayout smallInfo smallMemory smallCpu).mapped bootCalls [.write smallPage 7]
    0xffff800000000000 smallPage 3 0 hown hheld (by simp) hmapping (by decide)
  rw [List.foldl_cons, List.foldl_nil, written, if_pos (Nat.add_zero _), Nat.add_zero] at hseen
  exact hseen

end OsByAi.HeldMemory
