import OsByAi.PagingIsolation

set_option autoImplicit false

namespace OsByAi.PagingRam
open ByteMemory PackedBitmap BootInformation PmmModel PmmInvariant PmmBootMap
open PagingModel PagingEntries PagingTree PagingWalk PagingDynamic PagingBuild PagingInit
open KernelRuns PagingAddressSpace PagingIsolation

/-- What the loader and the linker see to: the pages of the stack guards are not conventional
    memory, and the kernel's range contains the sections and the guards of the second stack. -/
structure GuardsDescribed (L : Layout) (m : Memory) (info : ℕ) : Prop where
  aroundStack : ∀ g, g = Word64.sub (bootInfoAt m info).stackBase 4096 ∨
    g = Word64.add (bootInfoAt m info).stackBase (bootInfoAt m info).stackSize →
    ∃ i, i < mapCount m info ∧ (descriptor m info i).type ≠ 7 ∧ Descriptor.Covers (descriptor m info i) (g / 4096)
  text : (bootInfoAt m info).kernelBase ≤ L.kernelTextStart ∧
    L.kernelTextEnd ≤ (bootInfoAt m info).kernelBase + (bootInfoAt m info).kernelSize
  rodata : (bootInfoAt m info).kernelBase ≤ L.kernelRodataStart ∧
    L.kernelRodataEnd ≤ (bootInfoAt m info).kernelBase + (bootInfoAt m info).kernelSize
  guards : (bootInfoAt m info).kernelBase ≤ L.doubleFaultGuardLow ∧
    L.doubleFaultGuardHigh + 4096 ≤ (bootInfoAt m info).kernelBase + (bootInfoAt m info).kernelSize

/-- The byte at `a` can be read and written at its physical address, and never executed. -/
def Usable (s : Machine) (a : ℕ) : Prop := reached s a = some ⟨4096 * (a / 4096), true, false, false⟩

section Pages

variable {L : Layout} {m : Memory} {info page : ℕ}

theorem not_touches_kernel (h : ValidMap m info) (he : bit (bootEligible m info) page = true) :
    ¬ Touches (bootInfoAt m info).kernelBase (bootInfoAt m info).kernelSize page := by
  obtain ⟨-, -, -, hno⟩ := (bit_bootEligible h page).mp he
  exact fun htouch => hno (.inl htouch)

theorem GuardsDescribed.spares_guard (hd : GuardsDescribed L m info) (h : ValidMap m info)
    (he : bit (bootEligible m info) page = true) {g : ℕ} (hg : g ∈ stackGuards L (bootInfoAt m info)) : page ≠ g / 4096 := by
  rintro rfl
  have hkernel := not_touches_kernel h he
  have hlow := hd.guards.1
  have hhigh := hd.guards.2
  have hguard := L.guardHigh_eq
  unfold Touches at hkernel
  simp only [stackGuards, List.mem_cons, List.not_mem_nil, or_false] at hg
  rcases hg with hg | hg | hg | hg
  · obtain ⟨i, hi, htype, hcov⟩ := hd.aroundStack g (.inl hg)
    rw [not_eligible_of_described h hi htype hcov] at he
    exact absurd he (by simp)
  · obtain ⟨i, hi, htype, hcov⟩ := hd.aroundStack g (.inr hg)
    rw [not_eligible_of_described h hi htype hcov] at he
    exact absurd he (by simp)
  · omega
  · omega

theorem GuardsDescribed.spares_sections (hd : GuardsDescribed L m info) (h : ValidMap m info)
    (he : bit (bootEligible m info) page = true) : ¬ InText L (4096 * page) ∧ ¬ InRodata L (4096 * page) := by
  have hkernel := not_touches_kernel h he
  obtain ⟨htlo, hthi⟩ := hd.text
  obtain ⟨hrlo, hrhi⟩ := hd.rodata
  unfold Touches at hkernel
  unfold InText InRodata
  omega

end Pages

section Runs

variable {L : Layout} {info : ℕ} {before after w : World} {held : Finset ℕ}

theorem eligible_mapped (hinst : Installed L info before.machine after.machine held)
    (hd : GuardsDescribed L before.machine.mem info) {page : ℕ} (he : bit before.machine.pmm.eligible page = true) :
    Mapped L before.machine.mem info (4096 * page) := by
  have hram := (eligible_inSet hinst.boot he).pages (4096 * page) (by omega) (by omega) (by omega)
  rw [hinst.boot.eligible] at he
  refine ⟨hram, fun g hg heq => hd.spares_guard hinst.boot.valid he hg ?_⟩
  omega

theorem eligible_usable (hinst : Installed L info before.machine after.machine held)
    (hd : GuardsDescribed L before.machine.mem info) {a : ℕ} (he : bit before.machine.pmm.eligible (a / 4096) = true) :
    Usable after.machine a := by
  have hmapped := eligible_mapped hinst hd he
  rw [Usable, reached, hinst.cr3, ← translate_page hinst.built.tree]
  obtain ⟨-, ht⟩ | ⟨hno, -⟩ := Installed.translate_eq hinst (v := 4096 * (a / 4096)) (by omega)
  · rw [hinst.boot.eligible] at he
    obtain ⟨htext, hrodata⟩ := hd.spares_sections hinst.boot.valid he
    rw [ht, identityWrite, identityExec, decide_eq_false htext, decide_eq_false hrodata]
    rfl
  · exact absurd hmapped hno

theorem usable_later (hinst : Installed L info before.machine after.machine held)
    (hd : GuardsDescribed L before.machine.mem info) (h : ActiveWorld after.machine w) {a : ℕ}
    (he : bit w.machine.pmm.eligible (a / 4096) = true) : Usable w.machine a := by
  rw [h.frame.eligible, hinst.frame.eligible] at he
  have hbounds := (bootRam_lt (eligible_mapped hinst hd he).1).2
  have hslot : pageIndex a 39 ≠ 256 := by
    intro hidx
    have hval : a / 2 ^ 39 % 512 = 256 := congrArg Fin.val hidx
    unfold pmmLimit at hbounds
    omega
  rw [Usable, reached_identity hinst h hslot]
  exact eligible_usable hinst hd he

end Runs

/-- What the page manager hands out, and what it may yet hand out, is usable; so is every table. -/
structure AllUsable (s : Machine) : Prop where
  eligible : ∀ a, bit s.pmm.eligible (a / 4096) = true → Usable s a
  allocation : ∀ out page pmm, pmmAlloc s.pmm out = (true, some page, pmm) → ∀ k < 4096, Usable s (page + k)
  nextTable : (newTable s).1 ≠ 0 → ∀ k < 4096, Usable s ((newTable s).1 + k)
  tables : ∀ table ∈ liveTables s, ∀ k < 4096, Usable s (table + k)
  enforced : Enforced s.cpu

theorem ActiveWorld.allUsable {base : Machine} {w : World} (h : ActiveWorld base w)
    (heligible : ∀ a, bit w.machine.pmm.eligible (a / 4096) = true → Usable w.machine a)
    (henforced : Enforced w.machine.cpu) : AllUsable w.machine where
  eligible := heligible
  allocation := by
    intro out page pmm halloc k hk
    obtain ⟨hr, -⟩ | ⟨q, -, -, hfree, -, hr⟩ := h.dyn.tree.pmm.alloc_cases out
    · rw [hr] at halloc
      exact absurd (congrArg Prod.fst halloc) (by simp)
    · rw [hr] at halloc
      obtain rfl : q * 4096 = page := Option.some.inj (congrArg (fun r => r.2.1) halloc)
      refine heligible _ ?_
      rw [show (q * 4096 + k) / 4096 = q by omega]
      exact hfree.1
  nextTable := by
    intro hne k hk
    obtain ⟨hr, -⟩ | ⟨q, -, hfree, -, hr⟩ := newTable_cases h.dyn.tree.pmm
    · rw [hr] at hne
      exact absurd rfl hne
    · rw [hr]
      refine heligible _ ?_
      rw [show (4096 * q + k) / 4096 = q by omega]
      exact hfree.1
  tables := by
    intro table ht k hk
    obtain ⟨p, n, hp, hn, rfl⟩ := (h.dyn.tree.live table).mp ht
    refine heligible _ ?_
    rw [show (4096 * n + k) / 4096 = n by omega]
    exact h.dyn.tree.node_eligible hp hn
  enforced := henforced

/-- Everything that the page manager manages is usable memory after the switch of the tables. -/
theorem managed_usable {L : Layout} {info : ℕ} {before after : World} (h : Booted L info before after)
    (hd : GuardsDescribed L before.machine.mem info) {calls : List Call} (hc : Follows OwnPages L info after calls) :
    AllUsable (run L info after calls).machine := by
  obtain ⟨-, -, hinst, hact⟩ := h.cases
  have hrun := hact.run hc
  refine ActiveWorld.allUsable hrun (fun a he => usable_later hinst hd hrun he) ?_
  rw [hrun.cpu]
  exact hinst.enforced

theorem small_described : GuardsDescribed smallLayout smallMemory smallInfo := by
  refine ⟨?_, ?_, ?_, ?_⟩
  · intro g hg
    have hpage : g / 4096 = 0x211 ∨ g / 4096 = 0x222 := by
      rw [small_bootInfo] at hg
      rcases hg with rfl | rfl
      · exact .inl (by decide)
      · exact .inr (by decide)
    refine ⟨1, by rw [small_count]; decide, ?_⟩
    rw [small_handoff]
    unfold Descriptor.Covers
    simp only
    omega
  · rw [small_bootInfo]
    decide
  · rw [small_bootInfo]
    decide
  · rw [small_bootInfo]
    decide

theorem small_usable : (run smallLayout smallInfo smallAfter smallCalls).ledger.mapping 0xffff800000000000 = some (smallPage, 3) ∧
    AllUsable (run smallLayout smallInfo smallAfter smallCalls).machine := by
  have hmem : smallBefore.machine.mem = smallMemory := rfl
  have hd : GuardsDescribed smallLayout smallBefore.machine.mem smallInfo := by
    rw [hmem]
    exact small_described
  exact ⟨small_mapped, managed_usable small_booted hd ⟨trivial, trivial, trivial⟩⟩

end OsByAi.PagingRam
