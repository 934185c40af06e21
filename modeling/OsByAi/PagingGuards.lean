import OsByAi.PagingBudget
import OsByAi.KernelMain

set_option autoImplicit false

namespace OsByAi.PagingGuards
open ByteMemory PackedBitmap BootInformation PmmModel PmmInvariant PmmBootMap KernelMain
open PagingModel PagingEntries PagingTree PagingWalk PagingBuild PagingInit PagingFill
open KernelRuns PagingAddressSpace PagingBudget

def Keeps {α : Type} (P : Machine → Prop) (f : Machine → α × Machine) : Prop := ∀ s, P s → P (f s).2

section Build

variable {P : Machine → Prop} {L : Layout}

theorem descend_keeps (hstore : ∀ s a v, P s → P (s.store64 a v)) (hnew : Keeps P newTable) (address : ℕ)
    (shifts : List ℕ) (table : ℕ) : Keeps P (descend address shifts table) := by
  induction shifts generalizing table with
  | nil => exact fun _ hs => hs
  | cons shift shifts ih =>
    intro s hs
    rw [descend_cons]
    simp only
    split
    · exact ih _ s hs
    · split
      · exact hnew s hs
      · exact ih _ _ (hstore _ _ _ (hnew s hs))

theorem mapPage_keeps (hstore : ∀ s a v, P s → P (s.store64 a v)) (hnew : Keeps P newTable) (address : ℕ) :
    Keeps P (mapPage L address) := by
  intro s hs
  have hd := descend_keeps hstore hnew address tableShifts s.pagingRoot s hs
  rw [mapPage_eq]
  rcases hr : descend address tableShifts s.pagingRoot s with ⟨found, t⟩
  rw [hr] at hd
  cases found with
  | none => exact hd
  | some table => exact hstore _ _ _ hd

theorem mapPages_keeps (hstore : ∀ s a v, P s → P (s.store64 a v)) (hnew : Keeps P newTable) (n page : ℕ) :
    Keeps P (mapPages L n page) := by
  induction n generalizing page with
  | zero => exact fun _ hs => hs
  | succ n ih =>
    intro s hs
    have hone := mapPage_keeps (L := L) hstore hnew page s hs
    rw [mapPages_succ]
    rcases hr : mapPage L page s with ⟨ok, t⟩
    rw [hr] at hone
    cases ok with
    | false => exact hone
    | true => exact ih _ t hone

theorem mapDescriptor_keeps (hstore : ∀ s a v, P s → P (s.store64 a v)) (hnew : Keeps P newTable) (d : Descriptor) :
    Keeps P (mapDescriptor L d) := by
  intro s hs
  rw [mapDescriptor_eq]
  split
  · exact hs
  · split
    · exact hs
    · split
      · exact hs
      · exact mapPages_keeps hstore hnew _ _ s hs

theorem mapBootRamFrom_keeps (hstore : ∀ s a v, P s → P (s.store64 a v)) (hnew : Keeps P newTable) (info fuel offset : ℕ) :
    Keeps P (mapBootRamFrom L info fuel offset) := by
  induction fuel generalizing offset with
  | zero => exact fun _ hs => hs
  | succ fuel ih =>
    intro s hs
    rw [mapBootRamFrom_succ]
    split
    · generalize descriptorAt s.mem (Word64.add (bootInfoAt s.mem info).memoryMap offset) = d
      have hone := mapDescriptor_keeps (L := L) hstore hnew d s hs
      rcases hr : mapDescriptor L d s with ⟨ok, t⟩
      rw [hr] at hone
      cases ok with
      | false => exact hone
      | true => exact ih _ t hone
    · exact hs

theorem unmapGuards_keeps (hstore : ∀ s a v, P s → P (s.store64 a v)) (guards : List ℕ) : Keeps P (unmapGuards guards) := by
  induction guards with
  | nil => exact fun _ hs => hs
  | cons guard guards ih =>
    intro s hs
    unfold unmapGuards
    split
    · exact hs
    · exact ih _ (hstore _ _ _ hs)

end Build

/-- Every page that is still free lies above every table. -/
def TablesFirst (s : Machine) : Prop := Inv s.pmm ∧ ∀ a ∈ liveTables s, ∀ q, IsFree s.pmm q → a / 4096 < q

theorem isFree_takePage {s : Pmm} {page q : ℕ} : IsFree (takePage s page) q ↔ IsFree s q ∧ q ≠ page := by
  simp only [IsFree, takePage, bit_set, Bool.or_eq_false_iff, decide_eq_false_iff_not, and_assoc]
  constructor
  · rintro ⟨he, hne, ha⟩
    exact ⟨he, ha, hne⟩
  · rintro ⟨he, ha, hne⟩
    exact ⟨he, hne, ha⟩

theorem newTable_first : Keeps TablesFirst newTable := by
  rintro s ⟨hinv, hfirst⟩
  obtain ⟨hr, -⟩ | ⟨page, -, hfree, hmin, hr⟩ := newTable_cases hinv
  · rw [hr]
    exact ⟨hinv, hfirst⟩
  · rw [hr]
    refine ⟨?_, fun a ha q hq => ?_⟩
    · simp only [withTable_pmm]
      exact hinv.take hfree hmin
    · simp only [withTable_pmm, isFree_takePage] at hq
      simp only [liveTables_withTable, List.mem_append, List.mem_singleton] at ha
      obtain ha | rfl := ha
      · exact hfirst a ha q hq.1
      · rw [Nat.mul_div_cancel_left _ (by decide)]
        exact lt_of_le_of_ne (hmin q hq.1) hq.2.symm

theorem store64_first (s : Machine) (a v : ℕ) (h : TablesFirst s) : TablesFirst (s.store64 a v) := h

theorem pagingInit_first {L : Layout} {s : Machine} {held : Finset ℕ} {info : ℕ} (h : Idle s held info)
    (hok : (pagingInit L info s).1 = true) : TablesFirst (pagingInit L info s).2 := by
  obtain ⟨-, c, s1, s2, hfree, hmin, hmap, -, hun, hres⟩ := pagingInit_true h hok
  have hstart : TablesFirst (planted s c) := by
    have hnone : liveTables s = [] := by
      rw [liveTables, h.count]
      rfl
    have hlive : liveTables (planted s c) = [4096 * c] := by
      rw [planted, liveTables_rooted, liveTables_withTable, hnone, List.nil_append]
    refine ⟨?_, fun a ha q hq => ?_⟩
    · rw [planted_pmm]
      exact h.pmm.take hfree hmin
    · rw [hlive, List.mem_singleton] at ha
      rw [planted_pmm, isFree_takePage] at hq
      rw [ha, Nat.mul_div_cancel_left _ (by decide)]
      exact lt_of_le_of_ne (hmin q hq.1) hq.2.symm
  have hbuild := mapBootRamFrom_keeps (L := L) store64_first newTable_first info 65537 0 _ hstart
  rw [← mapBootRam, hmap] at hbuild
  have hguards := unmapGuards_keeps store64_first (stackGuards L (bootInfoAt s1.mem info)) s1 hbuild
  rw [unmapStackGuards] at hun
  rw [hun] at hguards
  obtain ⟨-, hpmm, htab, hcount, -⟩ := activate_fields s.cpu.cr4 s2
  rw [hres]
  generalize activatePageTables s.cpu.cr4 s2 = t at hpmm htab hcount
  unfold TablesFirst liveTables at hguards ⊢
  rw [hpmm, htab, hcount]
  exact hguards

def lowestFree (s : Pmm) (n : ℕ) : Set ℕ := {p | IsFree s p ∧ {q | IsFree s q ∧ q < p}.ncard < n}

theorem mem_lower_iff {F T : Set ℕ} (hfin : F.Finite) (hsub : T ⊆ F) (hlow : ∀ t ∈ T, ∀ q ∈ F, q ∉ T → t < q) (p : ℕ) :
    p ∈ T ↔ p ∈ F ∧ {q | q ∈ F ∧ q < p}.ncard < T.ncard := by
  have hfinT : T.Finite := hfin.subset hsub
  constructor
  · intro hp
    refine ⟨hsub hp, Set.ncard_lt_ncard ?_ hfinT⟩
    refine ⟨fun q hq => ?_, fun hall => lt_irrefl p (hall hp).2⟩
    by_contra hno
    exact absurd (hlow p hp q hq.1 hno) (by have := hq.2; omega)
  · rintro ⟨hp, hcard⟩
    by_contra hno
    have hbelow : T ⊆ {q | q ∈ F ∧ q < p} := fun t ht => ⟨hsub ht, hlow t ht p hp hno⟩
    have hle := Set.ncard_le_ncard hbelow (hfin.subset fun q hq => hq.1)
    omega

theorem tables_lowestFree {L : Layout} {s s' : Machine} {held : Finset ℕ} {info : ℕ} (h : Idle s held info)
    (hres : pagingInit L info s = (true, s')) (hinst : Installed L info s s' held) (p : ℕ) :
    4096 * p ∈ liveTables s' ↔ p ∈ lowestFree s.pmm (tablesNeeded s.mem info) := by
  have hfirst := pagingInit_first (L := L) h (by rw [hres])
  rw [hres] at hfirst
  have htree := hinst.built.tree
  have helig := hinst.frame.eligible
  have hfree : ∀ q, IsFree s.pmm q ↔ bit s.pmm.eligible q = true ∧ q ∉ held := by
    intro q
    rw [IsFree, ← Bool.not_eq_true, h.owned]
  have hfin : {q | IsFree s.pmm q}.Finite := by
    refine (pagesOf s.pmm.eligible).finite_toSet.subset fun q hq => ?_
    exact (mem_pagesOf _ _).mpr ⟨(h.pmm.bounds q hq.1).2, hq.1⟩
  have hsub : {q | 4096 * q ∈ liveTables s'} ⊆ {q | IsFree s.pmm q} := by
    intro q hq
    refine (hfree q).mpr ⟨?_, fun hheld => htree.disjoint q hheld hq⟩
    rw [← helig]
    exact htree.pmm.sub q ((htree.owned q).mpr (.inl hq))
  have hlow : ∀ t ∈ {q | 4096 * q ∈ liveTables s'}, ∀ q ∈ {q | IsFree s.pmm q}, q ∉ {q | 4096 * q ∈ liveTables s'} → t < q := by
    intro t ht q hq hno
    have hstill : IsFree s'.pmm q := by
      refine ⟨by rw [helig]; exact hq.1, ?_⟩
      rw [← Bool.not_eq_true, htree.owned]
      rintro (hlive | hheld)
      · exact hno hlive
      · exact ((hfree q).mp hq).2 hheld
    have hlt := hfirst.2 _ ht q hstill
    rw [Nat.mul_div_cancel_left _ (by decide)] at hlt
    exact hlt
  have hcard : {q | 4096 * q ∈ liveTables s'}.ncard = tablesNeeded s.mem info := by
    rw [← Installed.count_eq h hres hinst, ← length_liveTables, ← List.toFinset_card_of_nodup htree.nodup,
      ← Set.ncard_coe_finset]
    refine Set.ncard_congr (fun q _ => 4096 * q) (fun q hq => List.mem_toFinset.mpr hq) ?_ ?_
    · intro a b _ _ hab
      omega
    · intro a ha
      obtain ⟨q, c, hq, hc, rfl⟩ := (htree.live a).mp (List.mem_toFinset.mp ha)
      exact ⟨c, (htree.live _).mpr ⟨q, c, hq, hc, rfl⟩, rfl⟩
  have hmem := mem_lower_iff hfin hsub hlow p
  rw [hcard] at hmem
  exact hmem

def Identity (s : Machine) (a : ℕ) : Prop :=
  ∃ t, translate s.mem s.pagingRoot (4096 * (a / 4096)) = some t ∧ t.physical = 4096 * (a / 4096)

/-- Everything in use is identity mapped in `t`: `m` is the memory in which BOOT_INFO was found. -/
structure NothingLost (L : Layout) (m : Memory) (info : ℕ) (t : Machine) : Prop where
  stack : ∀ a, (bootInfoAt m info).stackBase ≤ a → a < (bootInfoAt m info).stackBase + (bootInfoAt m info).stackSize →
    Identity t a
  bootInfo : ∀ a, info ≤ a → a < info + sizeofBootInfo → Identity t a
  memoryMap : ∀ a, (bootInfoAt m info).memoryMap ≤ a →
    a < (bootInfoAt m info).memoryMap + (bootInfoAt m info).memoryMapSize → Identity t a
  tables : ∀ i < t.pagingTableCount, ∀ a, t.tablePages i ≤ a → a < t.tablePages i + 4096 → Identity t a
  kernel : ∀ a, (bootInfoAt m info).kernelBase ≤ a → a < (bootInfoAt m info).kernelBase + (bootInfoAt m info).kernelSize →
    a / 4096 ≠ L.doubleFaultGuardLow / 4096 → a / 4096 ≠ L.doubleFaultGuardHigh / 4096 → Identity t a

structure GuardsApart (L : Layout) (info : ℕ) (s : Machine) : Prop where
  stack : ∀ g ∈ stackGuards L (bootInfoAt s.mem info),
    ¬ Touches (bootInfoAt s.mem info).stackBase (bootInfoAt s.mem info).stackSize (g / 4096)
  bootInfo : ∀ g ∈ stackGuards L (bootInfoAt s.mem info), ¬ Touches info sizeofBootInfo (g / 4096)
  memoryMap : ∀ g ∈ stackGuards L (bootInfoAt s.mem info),
    ¬ Touches (bootInfoAt s.mem info).memoryMap (bootInfoAt s.mem info).memoryMapSize (g / 4096)
  tables : ∀ g ∈ stackGuards L (bootInfoAt s.mem info), g / 4096 ∉ lowestFree s.pmm (tablesNeeded s.mem info)
  kernel : ∀ g ∈ stackGuards L (bootInfoAt s.mem info),
    Touches (bootInfoAt s.mem info).kernelBase (bootInfoAt s.mem info).kernelSize (g / 4096) →
      g / 4096 = L.doubleFaultGuardLow / 4096 ∨ g / 4096 = L.doubleFaultGuardHigh / 4096

section Lost

variable {L : Layout} {info : ℕ} {s s' : Machine} {held : Finset ℕ}

theorem identity_iff (h : Installed L info s s' held) (a : ℕ) : Identity s' a ↔ Mapped L s.mem info (4096 * (a / 4096)) := by
  unfold Identity
  obtain ⟨hm, ht⟩ | ⟨hm, ht⟩ := Installed.translate_eq h (v := 4096 * (a / 4096)) (by omega)
  · rw [ht]
    exact iff_of_true ⟨_, rfl, rfl⟩ hm
  · rw [ht]
    exact iff_of_false (by rintro ⟨t, ht, -⟩; exact absurd ht (by simp)) hm

theorem range_identity (h : Installed L info s s' held) {base size : ℕ} (hin : InSet (BootRam s.mem info) base size) {a : ℕ}
    (hlo : base ≤ a) (hhi : a < base + size) :
    Identity s' a ↔ ∀ g ∈ stackGuards L (bootInfoAt s.mem info), g / 4096 ≠ a / 4096 := by
  rw [identity_iff h]
  have hram := hin.pages (4096 * (a / 4096)) (by omega) (by omega) (by omega)
  constructor
  · intro hm g hg heq
    exact hm.2 g hg (by rw [heq])
  · intro hall
    refine ⟨hram, fun g hg heq => hall g hg ?_⟩
    omega

theorem range_kept_iff (h : Installed L info s s' held) {base size : ℕ} (hin : InSet (BootRam s.mem info) base size) :
    (∀ a, base ≤ a → a < base + size → Identity s' a) ↔
      ∀ g ∈ stackGuards L (bootInfoAt s.mem info), ¬ Touches base size (g / 4096) := by
  constructor
  · rintro hall g hg ⟨hstart, hstop⟩
    have hne := hin.nonempty
    -- a byte of the range in the page of the guard
    have hbyte : ∃ a, base ≤ a ∧ a < base + size ∧ a / 4096 = g / 4096 := by
      refine ⟨max base (4096 * (g / 4096)), by omega, by omega, by omega⟩
    obtain ⟨a, hlo, hhi, hpage⟩ := hbyte
    exact (range_identity h hin hlo hhi).mp (hall a hlo hhi) g hg hpage.symm
  · intro hno a hlo hhi
    refine (range_identity h hin hlo hhi).mpr fun g hg heq => hno g hg ?_
    unfold Touches
    omega

theorem kernel_kept_iff (h : Installed L info s s' held) {base size : ℕ} (hin : InSet (BootRam s.mem info) base size)
    (low high : ℕ) :
    (∀ a, base ≤ a → a < base + size → a / 4096 ≠ low → a / 4096 ≠ high → Identity s' a) ↔
      ∀ g ∈ stackGuards L (bootInfoAt s.mem info), Touches base size (g / 4096) → g / 4096 = low ∨ g / 4096 = high := by
  constructor
  · rintro hall g hg ⟨hstart, hstop⟩
    have hne := hin.nonempty
    have hbyte : ∃ a, base ≤ a ∧ a < base + size ∧ a / 4096 = g / 4096 := by
      refine ⟨max base (4096 * (g / 4096)), by omega, by omega, by omega⟩
    obtain ⟨a, hlo, hhi, hpage⟩ := hbyte
    by_contra hno
    rw [not_or] at hno
    have hid := hall a hlo hhi (by rw [hpage]; exact hno.1) (by rw [hpage]; exact hno.2)
    exact (range_identity h hin hlo hhi).mp hid g hg hpage.symm
  · intro hguards a hlo hhi hnlow hnhigh
    refine (range_identity h hin hlo hhi).mpr fun g hg heq => ?_
    have htouch : Touches base size (g / 4096) := by
      unfold Touches
      omega
    rcases hguards g hg htouch with hpage | hpage
    · exact hnlow (heq.symm.trans hpage)
    · exact hnhigh (heq.symm.trans hpage)

theorem tables_kept_iff (h : Idle s held info) (hres : pagingInit L info s = (true, s')) (hinst : Installed L info s s' held) :
    (∀ i < s'.pagingTableCount, ∀ a, s'.tablePages i ≤ a → a < s'.tablePages i + 4096 → Identity s' a) ↔
      ∀ g ∈ stackGuards L (bootInfoAt s.mem info), g / 4096 ∉ lowestFree s.pmm (tablesNeeded s.mem info) := by
  have htree := hinst.built.tree
  have hone : ∀ n, 4096 * n ∈ liveTables s' → ((∀ a, 4096 * n ≤ a → a < 4096 * n + 4096 → Identity s' a) ↔
      ∀ g ∈ stackGuards L (bootInfoAt s.mem info), ¬ Touches (4096 * n) 4096 (g / 4096)) := by
    intro n hn
    have helig := htree.pmm.sub n ((htree.owned n).mpr (.inl hn))
    rw [hinst.frame.eligible] at helig
    exact range_kept_iff hinst (eligible_inSet hinst.boot helig)
  constructor
  · intro hall g hg hfree
    have hlive := (tables_lowestFree h hres hinst _).mpr hfree
    obtain ⟨i, hi, ha⟩ := (mem_liveTables s' _).mp hlive
    have hmapped := hall i hi
    rw [ha] at hmapped
    exact (hone _ hlive).mp hmapped g hg ⟨by omega, by omega⟩
  · intro hno i hi
    have hlive : s'.tablePages i ∈ liveTables s' := (mem_liveTables s' _).mpr ⟨i, hi, rfl⟩
    obtain ⟨p, n, hp, hn, ha⟩ := (htree.live _).mp hlive
    rw [ha] at hlive ⊢
    refine (hone n hlive).mpr fun g hg htouch => ?_
    obtain ⟨hstart, hstop⟩ := htouch
    have hpage : g / 4096 = n := by omega
    exact hno g hg ((tables_lowestFree h hres hinst _).mp (by rw [hpage]; exact hlive))

end Lost

/-- `paging_init` keeps everything in use mapped exactly when the guards lie apart from it. -/
theorem guard_removal_exact {L : Layout} {info : ℕ} {before after : World} (h : Booted L info before after) :
    NothingLost L before.machine.mem info after.machine ↔ GuardsApart L info before.machine := by
  obtain ⟨hidle, -, hinst, -⟩ := h.cases
  have hres : pagingInit L info before.machine = (true, after.machine) := by
    rw [h.after_eq]
    exact Prod.ext h.succeeded rfl
  have hregions := hinst.regions
  have hstack := range_kept_iff hinst hregions.stack
  have hinfo := range_kept_iff hinst hregions.bootInfo
  have hmap := range_kept_iff hinst hregions.memoryMap
  have htables := tables_kept_iff hidle.idle hres hinst
  have hkernel := kernel_kept_iff hinst hregions.kernel (L.doubleFaultGuardLow / 4096) (L.doubleFaultGuardHigh / 4096)
  constructor
  · intro hn
    exact ⟨hstack.mp hn.stack, hinfo.mp hn.bootInfo, hmap.mp hn.memoryMap, htables.mp hn.tables, hkernel.mp hn.kernel⟩
  · intro ha
    exact ⟨hstack.mpr ha.stack, hinfo.mpr ha.bootInfo, hmap.mpr ha.memoryMap, htables.mpr ha.tables, hkernel.mpr ha.kernel⟩

theorem small_not_free {page : ℕ} (hp : page < 4096) (n : ℕ) : page ∉ lowestFree smallBefore.machine.pmm n := by
  rintro ⟨⟨helig, -⟩, -⟩
  have hpages := (small_laidOut.eligible_iff page).mp helig
  omega

/-- The loader's layout: the guards lie apart. -/
theorem small_nothing_lost : NothingLost smallLayout smallBefore.machine.mem smallInfo smallAfter.machine := by
  have hguards : ∀ g ∈ stackGuards smallLayout (bootInfoAt smallMemory smallInfo),
      g / 4096 = 0x211 ∨ g / 4096 = 0x222 ∨ g / 4096 = 0x104 ∨ g / 4096 = 0x109 := by
    rw [small_bootInfo]
    decide +kernel
  refine (guard_removal_exact small_booted).mpr ?_
  have hmem : smallBefore.machine.mem = smallMemory := rfl
  have hinfo : smallInfo = 0x200000 := rfl
  constructor <;> rw [hmem] <;> intro g hg <;> have hpage := hguards g hg
  · unfold Touches
    rw [small_bootInfo]
    simp only
    omega
  · unfold Touches sizeofBootInfo
    omega
  · unfold Touches
    rw [small_bootInfo]
    simp only
    omega
  · exact small_not_free (by omega) _
  · intro htouch
    rw [small_bootInfo] at htouch
    obtain ⟨hstart, hstop⟩ := htouch
    have hlow : smallLayout.doubleFaultGuardLow / 4096 = 0x104 := by decide
    have hhigh : smallLayout.doubleFaultGuardHigh / 4096 = 0x109 := by decide
    simp only at hstart hstop
    omega

section Skewed

/-- The small machine, its stack moved up by 16 bytes: 60 KiB from 0x212010. -/
def skewedMemory : Memory := handoffMemory 0x201000 0x212010 0xf000

def skewedBefore : World := ⟨prepared skewedMemory smallCpu smallInfo, Ledger.blank⟩

def skewedAfter : World := next smallLayout smallInfo skewedBefore .pagingInit

theorem skewed_laidOut : LaidOut skewedMemory 0x201000 0x212010 0xf000 :=
  laidOut_of_bytes (by decide +kernel) (by decide +kernel) (by decide) (by decide)

theorem skewed_accepted : validBootHeader skewedMemory smallInfo = true ∧ validMemoryMap skewedMemory smallInfo = true ∧
    validStack skewedMemory smallInfo 0x221000 0x221010 = true := by
  unfold validBootHeader validMemoryMap validStack
  rw [skewed_laidOut.bootInfo]
  decide

theorem skewed_booted : Booted smallLayout smallInfo skewedBefore skewedAfter :=
  booted_of_bootable skewed_laidOut.valid (LaidOut.bootable skewed_laidOut (by decide) (by decide) (by decide))

end Skewed

/-- `kernel_main` and `pmm_init` accept this BOOT_INFO and `paging_init` succeeds, but the last 16 bytes
    of the stack are in the page of the upper guard. -/
theorem skewed_stack_lost : validBootHeader skewedMemory smallInfo = true ∧ validMemoryMap skewedMemory smallInfo = true ∧
    validStack skewedMemory smallInfo 0x221000 0x221010 = true ∧ (pmmInit skewedMemory smallInfo bss).1 = true ∧
    skewedBefore.machine.mem = skewedMemory ∧ Booted smallLayout smallInfo skewedBefore skewedAfter ∧
    ¬ NothingLost smallLayout skewedMemory smallInfo skewedAfter.machine := by
  obtain ⟨hheader, hmap, hstack⟩ := skewed_accepted
  have hpmm : (pmmInit skewedMemory smallInfo bss).1 = true := by
    obtain ⟨-, hno⟩ | ⟨-, -, he⟩ := init_cases bss_inv skewedMemory smallInfo
    · exact absurd ⟨rfl, skewed_laidOut.valid⟩ hno
    · exact congrArg Prod.fst he
  refine ⟨hheader, hmap, hstack, hpmm, rfl, skewed_booted, fun hnone => ?_⟩
  obtain ⟨-, -, hinst, -⟩ := skewed_booted.cases
  have hid := hnone.stack 0x221000 (by rw [skewed_laidOut.bootInfo]; decide) (by rw [skewed_laidOut.bootInfo]; decide)
  have hmapped := (identity_iff hinst 0x221000).mp hid
  have hguard : 0x221010 ∈ stackGuards smallLayout (bootInfoAt skewedMemory smallInfo) := by
    rw [LaidOut.stackGuards_eq skewed_laidOut (by decide)]
    decide
  exact hmapped.2 0x221010 hguard rfl

end OsByAi.PagingGuards
