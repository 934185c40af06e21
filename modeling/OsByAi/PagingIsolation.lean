import OsByAi.PagingAddressSpace

set_option autoImplicit false

namespace OsByAi.PagingIsolation
open Word64 (Canonical)
open ByteMemory PackedBitmap BootInformation PmmModel PmmInvariant PmmBootMap
open PagingModel PagingEntries PagingTree PagingWalk PagingGrowth PagingDynamic
open PagingBuild PagingInit KernelRuns PagingAddressSpace

/-- One region of 35 pages holds BOOT_INFO, the memory map and the stack between its two guards.
    The map describes it and the kernel image as memory in use, and the linker's symbols are
    inside the image. -/
structure Handoff (L : Layout) (m : Memory) (info : ℕ) : Prop where
  aligned : info % 4096 = 0
  memoryMap : (bootInfoAt m info).memoryMap = info + 4096
  stackBase : (bootInfoAt m info).stackBase = info + 18 * 4096
  stackSize : (bootInfoAt m info).stackSize = 16 * 4096
  described : ∀ page, Touches info (35 * 4096) page ∨
    Touches (bootInfoAt m info).kernelBase (bootInfoAt m info).kernelSize page →
    ∃ i, i < mapCount m info ∧ (descriptor m info i).type ≠ 7 ∧
      Descriptor.Covers (descriptor m info i) page
  imageStart : (bootInfoAt m info).kernelBase ≤ L.kernelTextStart
  imageEnd : L.doubleFaultGuardHigh + 4096 ≤
    (bootInfoAt m info).kernelBase + (bootInfoAt m info).kernelSize

/-- Page `page` meets the kernel image, BOOT_INFO, the memory map, the stack or a guard. -/
def InUse (L : Layout) (m : Memory) (info page : ℕ) : Prop :=
  BootRegion m info page ∨ ∃ g ∈ stackGuards L (bootInfoAt m info), Touches g 4096 page

section Boot

variable {L : Layout} {m : Memory} {info : ℕ}

theorem not_eligible_of_described (h : ValidMap m info) {page i : ℕ} (hi : i < mapCount m info)
    (ht : (descriptor m info i).type ≠ 7) (hc : Descriptor.Covers (descriptor m info i) page) :
    bit (bootEligible m info) page = false := by
  rw [← Bool.not_eq_true, bit_bootEligible h]
  rintro ⟨-, -, ⟨j, hj, ht', -, hc'⟩, -⟩
  have hij : i ≠ j := fun he => ht (he ▸ ht')
  have hdis := h.disjoint hi hj hij
  rw [h.limit hi, h.limit hj] at hdis
  unfold Descriptor.Covers at hc hc'
  omega

theorem Handoff.guards_eq (h : Handoff L m info) (hv : ValidMap m info) :
    stackGuards L (bootInfoAt m info) =
      [info + 17 * 4096, info + 34 * 4096, L.doubleFaultGuardLow, L.doubleFaultGuardHigh] := by
  obtain ⟨-, -, -, -, -, ⟨-, hst⟩, -⟩ := header_fields hv.header
  have hsum := h.stackBase
  have hsize := h.stackSize
  have hlow : Word64.sub (bootInfoAt m info).stackBase 4096 = info + 17 * 4096 := by
    rw [Word64.sub_eq (by omega) (by omega)]
    omega
  have hhigh : Word64.add (bootInfoAt m info).stackBase (bootInfoAt m info).stackSize =
      info + 34 * 4096 := by
    rw [Word64.add_eq hst]
    omega
  unfold stackGuards
  rw [hlow, hhigh]

theorem Handoff.guard_aligned (h : Handoff L m info) (hv : ValidMap m info) {g : ℕ}
    (hg : g ∈ stackGuards L (bootInfoAt m info)) : g % 4096 = 0 := by
  have hal := h.aligned
  have hlow := L.guardLow_aligned
  have hhigh := L.guardHigh_eq
  rw [h.guards_eq hv] at hg
  simp only [List.mem_cons, List.not_mem_nil, or_false] at hg
  omega

theorem Handoff.guard_region (h : Handoff L m info) (hv : ValidMap m info) {g page : ℕ}
    (hg : g ∈ stackGuards L (bootInfoAt m info)) (ht : Touches g 4096 page) :
    Touches info (35 * 4096) page ∨
      Touches (bootInfoAt m info).kernelBase (bootInfoAt m info).kernelSize page := by
  have hstart := h.imageStart
  have hstop := h.imageEnd
  have hhigh := L.guardHigh_eq
  have hord := L.ordered
  rw [h.guards_eq hv] at hg
  simp only [List.mem_cons, List.not_mem_nil, or_false] at hg
  unfold Touches at ht ⊢
  omega

theorem Handoff.not_eligible (h : Handoff L m info) (hv : ValidMap m info) {page : ℕ}
    (hu : InUse L m info page) : bit (bootEligible m info) page = false := by
  rcases hu with hb | ⟨g, hg, ht⟩
  · exact not_eligible_of_bootRegion hv hb
  · obtain ⟨i, hi, hne, hc⟩ := h.described page (h.guard_region hv hg ht)
    exact not_eligible_of_described hv hi hne hc

end Boot

def Backed (l : Ledger) : Prop :=
  ∀ v a f, l.mapping v = some (a, f) → a % 4096 = 0 ∧ a / 4096 ∈ l.held

section Held

variable {L : Layout} {info : ℕ} {base : Machine} {w : World}

theorem Backed.granted {l : Ledger} (h : Backed l) {v : ℕ} {x : Option (ℕ × Flags)}
    (hx : ∀ a f, x = some (a, f) → a % 4096 = 0 ∧ a / 4096 ∈ l.held) : Backed (l.granted v x) := by
  intro u a f hu
  have hu' : Function.update l.mapping v x u = some (a, f) := hu
  by_cases he : u = v
  · rw [he, Function.update_self] at hu'
    exact hx a f hu'
  · rw [Function.update_of_ne he] at hu'
    exact h u a f hu'

theorem backed_if {ok : Bool} {l l' : Ledger} (h : Backed l) (h' : Backed l') :
    Backed (if ok then l else l') := by
  cases ok with
  | true => exact h
  | false => exact h'

/-- What `paging_map` accepts is a page of a caller, since it is allocated and no table. -/
theorem held_of_allowed (h : ActiveWorld base w) {v p : ℕ} {f : Flags}
    (hm : MapAllowed w.machine v p f) : p % 4096 = 0 ∧ p / 4096 ∈ w.ledger.held := by
  obtain ⟨hal, hbit⟩ := (h.dyn.tree.pmm.isAllocated_iff p).mp hm.allocated
  refine ⟨hal, ?_⟩
  rcases (h.dyn.tree.owned _).mp hbit with hl | hh
  · rw [show 4096 * (p / 4096) = p by omega] at hl
    exact absurd hl hm.notTable
  · exact hh

theorem backed_next (h : ActiveWorld base w) (hb : Backed w.ledger) (c : Call)
    (hc : OwnUnmapped w.ledger c) : Backed (next L info w c).ledger := by
  have hdyn := h.dyn
  cases c with
  | pmmAlloc address =>
    obtain ⟨ha, -⟩ | ⟨page, -, -, -, -, ha⟩ := hdyn.tree.pmm.alloc_cases address
    · simp only [KernelRuns.next, call, record, ha]
      exact hb
    · simp only [KernelRuns.next, call, record, ha]
      intro v a f hv
      exact ⟨(hb v a f hv).1, Finset.mem_insert_of_mem (hb v a f hv).2⟩
  | pmmFree address =>
    refine backed_if ?_ hb
    intro v a f hv
    obtain ⟨hal, hheld⟩ := hb v a f hv
    refine ⟨hal, Finset.mem_erase.mpr ⟨fun he => ?_, hheld⟩⟩
    have hown := hc.1.1
    have ha : a = address.toNat := by omega
    rw [ha] at hv
    exact hc.2 address rfl v f hv
  | pagingMap v p f =>
    obtain ⟨s', hm, -, -⟩ | ⟨s', hm, hallowed, -⟩ := map_cases hdyn (toNat_lt_size v) p.toNat f
    · simp only [KernelRuns.next, call, record, hm, Bool.false_eq_true, if_false]
      exact hb
    · simp only [KernelRuns.next, call, record, hm, if_true]
      apply hb.granted
      rintro a g ⟨⟩
      exact held_of_allowed h hallowed
  | pagingUnmap v =>
    exact backed_if (hb.granted fun a f hx => absurd hx (by simp)) hb
  | pagingProtect v f =>
    refine backed_if (hb.granted ?_) hb
    intro a g hx
    obtain ⟨⟨b, f'⟩, hold, heq⟩ := Option.map_eq_some_iff.mp hx
    cases heq
    exact hb _ _ _ hold
  | pmmInit => exact hb
  | pmmIsAllocated a => exact hb
  | pmmTotal => exact hb
  | pmmAvailable => exact hb
  | pagingInit => exact hb
  | pagingQuery v p f => exact hb
  | write a value => exact hb

theorem backed_run (h : ActiveWorld base w) (hb : Backed w.ledger) {calls : List Call}
    (hc : Follows OwnUnmapped L info w calls) :
    ActiveWorld base (run L info w calls) ∧ Backed (run L info w calls).ledger := by
  refine hc.invariant (I := fun w => ActiveWorld base w ∧ Backed w.ledger) ?_ ⟨h, hb⟩
  rintro w c ⟨hact, hback⟩ hown
  exact ⟨hact.next c hown.1, backed_next hact hback c hown⟩

end Held

section Pages

variable {s : Machine} {held : Finset ℕ}

theorem pageIndex_page (v : ℕ) {shift : ℕ} (hs : 12 ≤ shift) :
    pageIndex (4096 * (v / 4096)) shift = pageIndex v shift := by
  obtain ⟨k, rfl⟩ := Nat.exists_eq_add_of_le hs
  apply Fin.ext
  change 4096 * (v / 4096) / 2 ^ (12 + k) % 512 = v / 2 ^ (12 + k) % 512
  rw [Nat.pow_add, show (2 : ℕ) ^ 12 = 4096 from rfl, ← Nat.div_div_eq_div_mul,
    ← Nat.div_div_eq_div_mul, Nat.mul_div_cancel_left _ (by decide)]

theorem leafOf_page (s : Machine) (v : ℕ) : leafOf s (4096 * (v / 4096)) = leafOf s v := by
  rw [leafOf, leafOf, upper, upper, indices, indices, pageIndex_page v (by decide)]
  congr 1
  apply List.map_congr_left
  intro shift hs
  simp only [tableShifts, List.mem_cons, List.not_mem_nil, or_false] at hs
  exact pageIndex_page v (by omega)

theorem canonical_page (v : ℕ) : Canonical (4096 * (v / 4096)) ↔ Canonical v := by
  unfold Canonical
  omega

theorem translate_page (h : TreeInv s held) (v : ℕ) :
    translate s.mem s.pagingRoot (4096 * (v / 4096)) = translate s.mem s.pagingRoot v := by
  simp only [translate_eq h, leafOf_page, canonical_page]

theorem translate_some (h : TreeInv s held) {v : ℕ} {t : Translation}
    (ht : translate s.mem s.pagingRoot v = some t) :
    Canonical v ∧ leafOf s v % 2 = 1 ∧ t.physical = leafOf s v &&& addressMask := by
  rw [translate_eq h] at ht
  split at ht
  · rename_i hc
    cases ht
    exact ⟨hc.1, hc.2, rfl⟩
  · exact absurd ht (by simp)

theorem dynamicMap_of_translate (h : TreeInv s held) {v : ℕ} {t : Translation}
    (hslot : pageIndex v 39 = 256) (ht : translate s.mem s.pagingRoot v = some t) :
    ∃ f, dynamicMap s (4096 * (v / 4096)) = some (t.physical, f) := by
  obtain ⟨hc, hodd, hp⟩ := translate_some h ht
  have hw : Window (4096 * (v / 4096)) := by
    have hidx : v / 2 ^ 39 % 512 = 256 := congrArg Fin.val hslot
    unfold Canonical at hc
    refine ⟨by omega, ?_, ?_⟩
    · unfold pagingDynamicBase
      omega
    · unfold pagingDynamicBase pagingDynamicSize
      omega
  refine ⟨entryFlags (leafOf s v), ?_⟩
  rw [dynamicMap, leafOf_page, if_pos ⟨hw, hodd⟩, hp]

end Pages

/-- What the processor finds at `v`, starting from its own CR3. -/
def reached (s : Machine) (v : ℕ) : Option Translation := translate s.mem s.cpu.cr3 v

structure Isolated (L : Layout) (info : ℕ) (before after w : World) : Prop where
  identity : ∀ v, pageIndex v 39 ≠ 256 → reached w.machine v = reached after.machine v
  dynamic : ∀ v t, pageIndex v 39 = 256 → reached w.machine v = some t →
    t.physical % 4096 = 0 ∧ bit w.machine.pmm.allocated (t.physical / 4096) = true ∧
      t.physical ∉ liveTables w.machine ∧
      ¬ InUse L before.machine.mem info (t.physical / 4096)
  readOnly : ∀ v t, reached w.machine v = some t → t.writable = true →
    ¬ InText L t.physical ∧ ¬ InRodata L t.physical
  guards : ∀ v t, reached w.machine v = some t →
    ∀ g ∈ stackGuards L (bootInfoAt before.machine.mem info), ¬ Touches g 4096 (t.physical / 4096)
  tables : ∀ v t, reached w.machine v = some t → t.physical ∈ liveTables w.machine →
    t.physical = 4096 * (v / 4096)
  enforced : Enforced w.machine.cpu

section Runs

variable {L : Layout} {info : ℕ} {before after w : World} {held : Finset ℕ}

theorem reached_eq (hinst : Installed L info before.machine after.machine held)
    (h : ActiveWorld after.machine w) (v : ℕ) :
    reached w.machine v = translate w.machine.mem w.machine.pagingRoot v := by
  rw [reached, h.cpu, hinst.cr3, h.root]

theorem reached_identity (hinst : Installed L info before.machine after.machine held)
    (h : ActiveWorld after.machine w) {v : ℕ} (hslot : pageIndex v 39 ≠ 256) :
    reached w.machine v = reached after.machine v := by
  have hleaf : leafOf w.machine v = leafOf after.machine v := by
    apply h.outside.leaf _ _ (length_upper v)
    intro hhead
    exact hslot (Option.some.inj hhead)
  rw [reached_eq hinst h, reached, hinst.cr3, translate_eq h.dyn.tree, translate_eq hinst.built.tree,
    hleaf]

theorem identity_page (hinst : Installed L info before.machine after.machine held) {v : ℕ}
    {t : Translation} (ht : reached after.machine v = some t) :
    Mapped L before.machine.mem info (4096 * (v / 4096)) ∧ t.physical = 4096 * (v / 4096) ∧
      t.writable = identityWrite L (4096 * (v / 4096)) := by
  rw [reached, hinst.cr3, ← translate_page hinst.built.tree] at ht
  obtain ⟨hm, he⟩ | ⟨-, he⟩ := Installed.translate_eq hinst (v := 4096 * (v / 4096)) (by omega)
  · rw [he] at ht
    cases ht
    exact ⟨hm, rfl, rfl⟩
  · rw [he] at ht
    exact absurd ht (by simp)

theorem dynamic_page (hinst : Installed L info before.machine after.machine held)
    (hoff : Handoff L before.machine.mem info) (h : ActiveWorld after.machine w)
    (hb : Backed w.ledger) {v : ℕ} {t : Translation} (hslot : pageIndex v 39 = 256)
    (ht : reached w.machine v = some t) :
    t.physical % 4096 = 0 ∧ bit w.machine.pmm.allocated (t.physical / 4096) = true ∧
      t.physical ∉ liveTables w.machine ∧
      ¬ InUse L before.machine.mem info (t.physical / 4096) := by
  rw [reached_eq hinst h] at ht
  obtain ⟨f, hmap⟩ := dynamicMap_of_translate h.dyn.tree hslot ht
  rw [h.map] at hmap
  obtain ⟨hal, hheld⟩ := hb _ _ _ hmap
  have hbit := (h.dyn.tree.owned _).mpr (.inr hheld)
  refine ⟨hal, hbit, ?_, ?_⟩
  · have := h.dyn.tree.disjoint _ hheld
    rwa [show 4096 * (t.physical / 4096) = t.physical by omega] at this
  · intro hu
    have hel := h.dyn.tree.pmm.sub _ hbit
    rw [h.frame.eligible, hinst.frame.eligible, hinst.boot.eligible,
      hoff.not_eligible hinst.boot.valid hu] at hel
    exact absurd hel (by simp)

theorem inUse_of_section (hoff : Handoff L before.machine.mem info) {a : ℕ} (ha : a % 4096 = 0)
    (hs : InText L a ∨ InRodata L a) : InUse L before.machine.mem info (a / 4096) := by
  have hstart := hoff.imageStart
  have hstop := hoff.imageEnd
  have hord := L.ordered
  have hhigh := L.guardHigh_eq
  refine .inl (.inl ?_)
  unfold InText InRodata at hs
  unfold Touches
  omega

theorem isolated_of_active (hinst : Installed L info before.machine after.machine held)
    (hoff : Handoff L before.machine.mem info) (h : ActiveWorld after.machine w)
    (hb : Backed w.ledger) : Isolated L info before after w where
  identity v hslot := reached_identity hinst h hslot
  dynamic v t hslot ht := dynamic_page hinst hoff h hb hslot ht
  readOnly v t ht hw := by
    by_cases hslot : pageIndex v 39 = 256
    · obtain ⟨hal, -, -, hno⟩ := dynamic_page hinst hoff h hb hslot ht
      exact ⟨fun hin => hno (inUse_of_section hoff hal (.inl hin)),
        fun hin => hno (inUse_of_section hoff hal (.inr hin))⟩
    · rw [reached_identity hinst h hslot] at ht
      obtain ⟨-, hp, hwr⟩ := identity_page hinst ht
      rw [hwr, identityWrite] at hw
      simpa [hp] using hw
  guards v t ht g hg hg' := by
    by_cases hslot : pageIndex v 39 = 256
    · obtain ⟨-, -, -, hno⟩ := dynamic_page hinst hoff h hb hslot ht
      exact hno (.inr ⟨g, hg, hg'⟩)
    · rw [reached_identity hinst h hslot] at ht
      obtain ⟨hm, hp, -⟩ := identity_page hinst ht
      have hal := hoff.guard_aligned hinst.boot.valid hg
      have hne := hm.2 g hg
      unfold Touches at hg'
      omega
  tables v t ht hl := by
    by_cases hslot : pageIndex v 39 = 256
    · obtain ⟨-, -, hno, -⟩ := dynamic_page hinst hoff h hb hslot ht
      exact absurd hl hno
    · rw [reached_identity hinst h hslot] at ht
      exact (identity_page hinst ht).2.1
  enforced := by
    rw [h.cpu]
    exact hinst.enforced

theorem backed_after (h : Booted L info before after) : Backed after.ledger := by
  obtain ⟨hidle, hledger, -, -⟩ := h.cases
  intro v a f hv
  rw [hledger, hidle.unmapped] at hv
  exact absurd hv (by simp)

/-- Whatever well-behaved callers do after `paging_init`, text, read-only data, guards and tables
    stay out of reach of every virtual address but their own. -/
theorem address_space_isolated (h : Booted L info before after)
    (hoff : Handoff L before.machine.mem info) {calls : List Call}
    (hc : Follows OwnUnmapped L info after calls) :
    Isolated L info before after (run L info after calls) := by
  obtain ⟨-, -, hinst, hact⟩ := h.cases
  obtain ⟨hrun, hback⟩ := backed_run hact (backed_after h) hc
  exact isolated_of_active hinst hoff hrun hback

theorem small_handoff_layout : Handoff smallLayout smallMemory smallInfo := by
  have hinfo : smallInfo = 0x200000 := rfl
  refine ⟨by decide, ?_, ?_, ?_, ?_, ?_, ?_⟩
  · rw [small_bootInfo, hinfo]
  · rw [small_bootInfo, hinfo]
  · rw [small_bootInfo]
  · rw [small_bootInfo]
    unfold Touches Descriptor.Covers
    rintro page (ht | ht)
    · refine ⟨1, by rw [small_count]; decide, ?_⟩
      rw [small_handoff]
      refine ⟨by decide, ?_⟩
      simp only
      omega
    · refine ⟨0, by rw [small_count]; decide, ?_⟩
      rw [small_kernel]
      refine ⟨by decide, ?_⟩
      simp only at ht ⊢
      omega
  · rw [small_bootInfo]
    exact le_refl _
  · rw [small_bootInfo]
    decide

theorem small_isolated : Handoff smallLayout smallBefore.machine.mem smallInfo ∧
    (run smallLayout smallInfo smallAfter smallCalls).ledger.mapping 0xffff800000000000 = some (smallPage, 3) ∧
    Isolated smallLayout smallInfo smallBefore smallAfter (run smallLayout smallInfo smallAfter smallCalls) := by
  have hmem : smallBefore.machine.mem = smallMemory := rfl
  have hoff : Handoff smallLayout smallBefore.machine.mem smallInfo := by
    rw [hmem]
    exact small_handoff_layout
  have hown : Follows OwnUnmapped smallLayout smallInfo smallAfter smallCalls :=
    ⟨⟨trivial, nofun⟩, ⟨trivial, nofun⟩, trivial⟩
  exact ⟨hoff, small_mapped, address_space_isolated small_booted hoff hown⟩

end Runs

end OsByAi.PagingIsolation
