import OsByAi.BootContract
import OsByAi.PagingAddressSpace

set_option autoImplicit false

namespace OsByAi.BootMapping
open CallTree ByteMemory PackedBitmap BootInformation PmmModel PmmInvariant PmmBootMap
open ElfModel ElfPlacement LoaderModel LoaderInfo BootContract
open PagingModel PagingEntries PagingTree PagingWalk PagingBuild PagingInit KernelRuns PagingAddressSpace

section Checks

variable {L : Layout} {s s1 t : Machine} {held : Finset ℕ} {info root : ℕ}

structure ChecksPass (L : Layout) (info : ℕ) (s1 : Machine) : Prop where
  regions : requiredRegionsMapped info s1 = true
  guards : (unmapStackGuards L info s1).1 = true

theorem pmmTotal_ne_zero (h : Inv s.pmm) (hnew : newTable s = (root, t)) (hroot : root ≠ 0) : pmmTotal s.pmm ≠ 0 := by
  obtain ⟨hz, -⟩ | ⟨c, -, hfree, -, -⟩ := newTable_cases h
  · rw [hz] at hnew
    exact absurd (congrArg Prod.fst hnew).symm hroot
  · have hmem := (mem_pagesOf s.pmm.eligible c).mpr ⟨(h.bounds c hfree.1).2, hfree.1⟩
    have hpos := Finset.card_pos.mpr ⟨c, hmem⟩
    have htotal := h.total
    unfold pmmTotal
    omega

theorem pagingInit_of_built (h : Idle s held info) (hb : BootOk s info) (hcpu : supportedCpuState s.cpu s.cpu.cr4 = true)
    (hnew : newTable s = (root, t)) (hroot : root ≠ 0)
    (hbuild : mapBootRam L info (rooted t root) = (true, s1)) :
    (pagingInit L info s).1 = true ↔ ChecksPass L info s1 := by
  have hinfo := info_ne_zero hb.valid.header
  rw [pagingInit_eq h.inactive hinfo (pmmTotal_ne_zero h.pmm hnew hroot) hcpu hnew hroot]
  rw [fillRoot_eq]
  simp only [hbuild]
  cases hreq : requiredRegionsMapped info s1 with
  | false =>
    simp only [Bool.not_false, if_true, Bool.false_eq_true, false_iff]
    intro hpass
    rw [hpass.regions] at hreq
    exact absurd hreq (by simp)
  | true =>
    rcases hun : unmapStackGuards L info s1 with ⟨ok, s2⟩
    cases ok with
    | false =>
      simp only [Bool.not_true, Bool.false_eq_true, if_false, false_iff]
      intro hpass
      have hguards := hpass.guards
      rw [hun] at hguards
      exact absurd hguards (by simp)
    | true =>
      simp only [Bool.not_true, Bool.false_eq_true, if_false, true_iff]
      exact ⟨hreq, by rw [hun]⟩

theorem checksPass_iff (h : Idle s held info) (hb : BootOk s info) (hnew : newTable s = (root, t)) (hroot : root ≠ 0)
    (hbuild : mapBootRam L info (rooted t root) = (true, s1)) :
    ChecksPass L info s1 ↔ RegionsIn s.mem info (BootRam s.mem info) ∧
      GuardsOk (BootRam s.mem info) (stackGuards L (bootInfoAt s.mem info)) := by
  obtain ⟨hz, -⟩ | ⟨c, -, hfree, hmin, hc⟩ := newTable_cases h.pmm
  · rw [hz] at hnew
    exact absurd (congrArg Prod.fst hnew).symm hroot
  · rw [hc] at hnew
    obtain ⟨rfl, rfl⟩ := Prod.mk.inj hnew
    rw [← planted] at hbuild
    have hmemory := planted_memFrame (s := s) hfree
    have houtcome := mapBootRam_outcome (L := L) hb hmemory (planted_built h hfree hmin)
    rw [hbuild] at houtcome
    have hbuilt := houtcome.done rfl
    have hframe := hmemory.trans (Frame.memFrame houtcome.frame)
    obtain ⟨hguards, hok⟩ := unmapGuards_outcome (stackGuards L (bootInfoAt s.mem info)) hbuilt (stackGuards_lt L _)
    have hun : unmapStackGuards L info s1 = unmapGuards (stackGuards L (bootInfoAt s.mem info)) s1 := by
      rw [unmapStackGuards, hb.bootInfo_eq hframe]
    constructor
    · intro hpass
      refine ⟨(requiredRegionsMapped_iff hb hframe hbuilt).mp hpass.regions, hok ?_⟩
      rw [← hun]
      exact hpass.guards
    · rintro ⟨hregions, hguardsOk⟩
      refine ⟨(requiredRegionsMapped_iff hb hframe hbuilt).mpr hregions, ?_⟩
      rw [hun]
      by_contra hno
      exact hguards.failed (Bool.eq_false_of_not_eq_true hno) hguardsOk

end Checks

/-- The final map describes the hand-off range as loader data and the kernel as loader code, all of it
    write-back and none of it runtime memory. -/
structure MapDescribes (r : MapReply) (kernel : LoadedKernel) (info : ℕ) : Prop where
  handoff : ∀ page, info ≤ 4096 * page → 4096 * (page + 1) ≤ info + handoffPages * 4096 →
    ∃ i < entryCount r, (entryOf r i).type = 2 ∧ (entryOf r i).runtime = false ∧ (entryOf r i).writeBack = true ∧
      Descriptor.Covers (entryOf r i) page
  kernel : ∀ page, kernel.base ≤ 4096 * page → 4096 * (page + 1) ≤ kernel.base + 4096 * kernel.pages →
    ∃ i < entryCount r, (entryOf r i).type = 1 ∧ (entryOf r i).runtime = false ∧ (entryOf r i).writeBack = true ∧
      Descriptor.Covers (entryOf r i) page

/-- The linker put the double-fault stack with its guards into the image. -/
def GuardsLinked (L : Layout) (kernel : LoadedKernel) : Prop :=
  kernel.base ≤ L.doubleFaultGuardLow ∧ L.doubleFaultGuardHigh + 4096 ≤ kernel.base + 4096 * kernel.pages

def InWindow (info : ℕ) : Prop := 0x100000 ≤ info ∧ info + handoffPages * 4096 ≤ pmmLimit

structure HandedOver (m : Memory) (kernel : LoadedKernel) (info : ℕ) (r : MapReply) : Prop where
  bootInfo : bootInfoAt m info = finalInfo kernel info r
  entries : ∀ i < entryCount r, descriptor m info i = entryOf r i

section Window

variable {L : Layout} {m : Memory} {kernel : LoadedKernel} {info : ℕ} {r : MapReply}

theorem bootRam_of_entry (h : HandedOver m kernel info r) {v i : ℕ} (hv : v % 4096 = 0) (hlo : 0x100000 ≤ v) (hhi : v < pmmLimit)
    (hi : i < entryCount r) (htype : (entryOf r i).type = 1 ∨ (entryOf r i).type = 2) (hrun : (entryOf r i).runtime = false)
    (hcov : Descriptor.Covers (entryOf r i) (v / 4096)) : BootRam m info v := by
  obtain ⟨hstart, hstop⟩ := hcov
  refine ⟨i, ?_, ?_⟩
  · rw [mapCount_final h.bootInfo]
    exact hi
  · rw [h.entries i hi]
    refine ⟨⟨?_, hrun⟩, hlo, hhi, by omega, by omega⟩
    rcases htype with ht | ht
    · exact .inl ht
    · exact .inr (.inl ht)

theorem bootRam_handoff (h : HandedOver m kernel info r) (hd : MapDescribes r kernel info) (hw : InWindow info)
    (ha : info % 4096 = 0) {v : ℕ} (hv : v % 4096 = 0) (hlo : info ≤ v) (hhi : v < info + handoffPages * 4096) :
    BootRam m info v := by
  obtain ⟨hlow, hhigh⟩ := hw
  unfold handoffPages at hhi hhigh
  obtain ⟨i, hi, htype, hrun, -, hcov⟩ := hd.handoff (v / 4096) (by omega) (by unfold handoffPages; omega)
  exact bootRam_of_entry h hv (by omega) (by omega) hi (.inr htype) hrun hcov

theorem bootRam_kernel (h : HandedOver m kernel info r) (hd : MapDescribes r kernel info) (hk : KernelRange kernel)
    {v : ℕ} (hv : v % 4096 = 0) (hlo : kernel.base ≤ v) (hhi : v < kernel.base + 4096 * kernel.pages) : BootRam m info v := by
  have habove := hk.above
  have hbelow := hk.below
  have haligned := hk.aligned
  obtain ⟨i, hi, htype, hrun, -, hcov⟩ := hd.kernel (v / 4096) (by omega) (by omega)
  exact bootRam_of_entry h hv (by omega) (by unfold pmmLimit; omega) hi (.inl htype) hrun hcov

/-- The kernel and the hand-off range have no page in common: their descriptors have different types. -/
theorem ranges_apart (hr : Conforms r) (hd : MapDescribes r kernel info) (page : ℕ)
    (hin : info ≤ 4096 * page ∧ 4096 * (page + 1) ≤ info + handoffPages * 4096)
    (hker : kernel.base ≤ 4096 * page ∧ 4096 * (page + 1) ≤ kernel.base + 4096 * kernel.pages) : False := by
  obtain ⟨i, hi, hti, -, -, hci⟩ := hd.handoff page hin.1 hin.2
  obtain ⟨j, hj, htj, -, -, hcj⟩ := hd.kernel page hker.1 hker.2
  have hne : i ≠ j := by
    rintro rfl
    omega
  have hdis := hr.disjoint hi hj hne
  unfold Descriptor.Covers at hci hcj
  simp only [Function.onFun, PmmAcceptance.bytes, Set.Ico_disjoint_Ico] at hdis
  omega

end Window

theorem handoff_guards {L : Layout} {kernel : LoadedKernel} {info : ℕ} {r : MapReply} (ha : info % 4096 = 0)
    (hroom : info + handoffPages * 4096 ≤ Word64.size) :
    stackGuards L (finalInfo kernel info r) =
      [info + 17 * 4096, info + 34 * 4096, L.doubleFaultGuardLow, L.doubleFaultGuardHigh] := by
  unfold handoffPages at hroom
  have hlow : Word64.sub (handoffStack info) 4096 = info + 17 * 4096 := by
    unfold handoffStack
    exact (Word64.sub_eq (by omega) (by omega)).trans (by omega)
  have hhigh : Word64.add (handoffStack info) handoffStackSize = info + 34 * 4096 := by
    unfold handoffStack handoffStackSize
    exact (Word64.add_eq (by omega)).trans (by omega)
  have hstack : (finalInfo kernel info r).stackBase = handoffStack info := rfl
  have hsize : (finalInfo kernel info r).stackSize = handoffStackSize := rfl
  rw [stackGuards, hstack, hsize, hlow, hhigh]

section Accepted

variable {L : Layout} {m : Memory} {kernel : LoadedKernel} {info : ℕ} {r : MapReply}

theorem inSet_page {S : ℕ → Prop} {g : ℕ} (ha : g % 4096 = 0) (hlo : 0x100000 ≤ g) (hhi : g + 4096 ≤ pmmLimit) (hS : S g) :
    InSet S g 4096 := by
  refine ⟨by decide, hlo, hhi, fun v hv hvlo hvhi => ?_⟩
  obtain rfl : v = g := by omega
  exact hS

theorem without_one {S : ℕ → Prop} {g v : ℕ} (ha : g % 4096 = 0) (hS : S v) (hne : v ≠ g) : Without S [g] v := by
  refine ⟨hS, fun x hx => ?_⟩
  rw [List.mem_singleton] at hx
  omega

theorem guardsOk_handoff (h : HandedOver m kernel info r) (hr : Conforms r) (hd : MapDescribes r kernel info)
    (hk : KernelRange kernel) (hl : GuardsLinked L kernel) (ha : info % 4096 = 0) (hw : InWindow info) :
    GuardsOk (BootRam m info) [info + 17 * 4096, info + 34 * 4096, L.doubleFaultGuardLow, L.doubleFaultGuardHigh] := by
  obtain ⟨hlow, hhigh⟩ := hw
  have hkbase := hk.aligned
  have habove := hk.above
  have hbelow := hk.below
  have hguard := L.guardHigh_eq
  have hgalign := L.guardLow_aligned
  obtain ⟨hllo, hlhi⟩ := hl
  have apart := ranges_apart hr hd
  have ram := fun v hv hlo hhi => bootRam_handoff (v := v) h hd ⟨hlow, hhigh⟩ ha hv hlo hhi
  have kram := fun v hv hlo hhi => bootRam_kernel (v := v) h hd hk hv hlo hhi
  unfold handoffPages at hhigh apart ram
  generalize L.doubleFaultGuardLow = low at hguard hgalign hllo ⊢
  generalize L.doubleFaultGuardHigh = high at hguard hlhi ⊢
  subst hguard
  unfold pmmLimit at hhigh
  -- a guard of the second stack is in the kernel, so it is not in the hand-off range
  have far : ∀ k, k < 35 → ∀ g, g % 4096 = 0 → kernel.base ≤ g → g + 4096 ≤ kernel.base + 4096 * kernel.pages →
      g ≠ info + k * 4096 := by
    rintro k hk35 g hg hlo hhi rfl
    exact apart ((info + k * 4096) / 4096) ⟨by omega, by omega⟩ ⟨by omega, by omega⟩
  have h17 := far 17 (by decide) low hgalign hllo (by omega)
  have h34 := far 34 (by decide) low hgalign hllo (by omega)
  have h17' := far 17 (by decide) (low + 0x5000) (by omega) (by omega) hlhi
  have h34' := far 34 (by decide) (low + 0x5000) (by omega) (by omega) hlhi
  have hfirst := ram (info + 17 * 4096) (by omega) (by omega) (by omega)
  have hsecond := ram (info + 34 * 4096) (by omega) (by omega) (by omega)
  have hthird := kram low hgalign hllo (by omega)
  have hfourth := kram (low + 0x5000) (by omega) (by omega) (by omega)
  have a17 : (info + 17 * 4096) % 4096 = 0 := by omega
  have a34 : (info + 34 * 4096) % 4096 = 0 := by omega
  have b17 : 0x100000 ≤ info + 17 * 4096 ∧ info + 17 * 4096 + 4096 ≤ pmmLimit := by
    unfold pmmLimit
    omega
  have b34 : 0x100000 ≤ info + 34 * 4096 ∧ info + 34 * 4096 + 4096 ≤ pmmLimit := by
    unfold pmmLimit
    omega
  have hne : info + 34 * 4096 ≠ info + 17 * 4096 := by omega
  generalize info + 17 * 4096 = first at *
  generalize info + 34 * 4096 = second at *
  refine ⟨inSet_page a17 b17.1 b17.2 hfirst, inSet_page a34 b34.1 b34.2 (without_one a17 hsecond hne), ?_, ?_, trivial⟩
  · refine inSet_page hgalign (by omega) (by unfold pmmLimit; omega) ?_
    exact without_one a34 (without_one a17 hthird h17) h34
  · refine inSet_page (by omega) (by omega) (by unfold pmmLimit; omega) ?_
    exact without_one hgalign (without_one a34 (without_one a17 hfourth h17') h34') (by omega)

theorem regionsIn_handoff (h : HandedOver m kernel info r) (hr : Conforms r) (hd : MapDescribes r kernel info)
    (hk : KernelRange kernel) (ha : info % 4096 = 0) (hw : InWindow info) : RegionsIn m info (BootRam m info) := by
  have ram := fun v hv hlo hhi => bootRam_handoff (v := v) h hd hw ha hv hlo hhi
  obtain ⟨hlow, hhigh⟩ := hw
  have hkbase := hk.aligned
  have habove := hk.above
  have hbelow := hk.below
  have hne := hk.nonempty
  have hsize := hr.nonempty
  have hcap := hr.capacity
  unfold handoffPages at hhigh ram
  unfold mapCapacity at hcap
  have inRam : ∀ base size, size ≠ 0 → info ≤ base → base + size ≤ info + 35 * 4096 → InSet (BootRam m info) base size := by
    intro base size hs hlo hhi
    exact ⟨hs, by omega, by omega, fun v hv hvlo hvhi => ram v hv (by omega) (by omega)⟩
  constructor
  · rw [h.bootInfo]
    refine ⟨by simp only [finalInfo]; omega, habove, ?_, fun v hv hlo hhi => ?_⟩
    · unfold pmmLimit
      exact hbelow
    · simp only [finalInfo] at hlo hhi
      exact bootRam_kernel h hd hk hv (by omega) hhi
  · rw [h.bootInfo]
    refine inRam _ _ (show handoffStackSize ≠ 0 by decide) ?_ ?_
    · simp only [finalInfo, handoffStack]
      omega
    · simp only [finalInfo, handoffStack, handoffStackSize]
      omega
  · exact inRam _ _ (by decide) (le_refl _) (by unfold sizeofBootInfo; omega)
  · rw [h.bootInfo]
    simp only [finalInfo]
    exact inRam _ _ hsize (by omega) (by omega)

theorem accepted_iff (h : HandedOver m kernel info r) (hr : Conforms r) (hd : MapDescribes r kernel info)
    (hk : KernelRange kernel) (hl : GuardsLinked L kernel) (ha : info % 4096 = 0)
    (hroom : info + handoffPages * 4096 ≤ Word64.size) :
    RegionsIn m info (BootRam m info) ∧ GuardsOk (BootRam m info) (stackGuards L (bootInfoAt m info)) ↔ InWindow info := by
  rw [h.bootInfo, handoff_guards ha hroom]
  constructor
  · rintro ⟨hregions, -, hupper, -⟩
    have hhigh := hupper.high
    refine ⟨hregions.bootInfo.low, ?_⟩
    unfold handoffPages
    omega
  · intro hw
    exact ⟨regionsIn_handoff h hr hd hk ha hw, guardsOk_handoff h hr hd hk hl ha hw⟩

theorem HandedOver.later (h : HandedOver m kernel info r) {s : Machine} {cpu : Cpu} (hb : BootOk s info)
    (hmem : MemFrame (prepared m cpu info) s) : HandedOver s.mem kernel info r := by
  have hkeeps : KeepsBoot s.mem m info := by
    intro a ha
    rw [← hb.eligible, hmem.eligible] at ha
    exact (hmem.mem a ha).symm
  have hinfo := bootInfoAt_stable hb.valid hkeeps
  have hinfo' : bootInfoAt s.mem info = finalInfo kernel info r := hinfo.symm.trans h.bootInfo
  refine ⟨hinfo', fun i hi => ?_⟩
  rw [← descriptor_stable hb.valid hkeeps (by rw [mapCount_final hinfo']; exact hi)]
  exact h.entries i hi

end Accepted

section Loader

variable {image : ℕ} {table : SystemTable} {kernel : LoadedKernel} {m₀ m : Memory} {t : Trace} {entry info top : ℕ}

theorem handedOver_entry (hk : KernelRange kernel)
    (hentered : Issues (startKernel image table kernel m₀) t ⟨.enterKernel entry info top, m⟩) (hbase : HandoffBase info)
    (hmap : ∀ r, FinalMap t r → Conforms r) : ∃ r, FinalMap t r ∧ HandedOver m kernel info r ∧ ValidMap m info := by
  obtain ⟨r, m', hfinal, hm', hm, -⟩ := (startKernel_entry (t := [])).issues hentered entry info top rfl
  have hinfo := bootInfo_final hk hbase hm hm'
  have hr := hmap r hfinal
  have hheader := validBootInfo_final hk hbase hr hinfo
  have hwell := (PmmAcceptance.wellFormed_iff hheader).mpr (wellFormed_final hbase hr hinfo hm')
  exact ⟨r, hfinal, ⟨hinfo, fun i hi => descriptor_final hbase hr hinfo hm' hi⟩, hheader, hwell⟩

end Loader

/-- Whenever the tables can be built, `paging_init` accepts what the loader hands over exactly when the
    firmware put the 35 pages between 1 MiB and 4 GiB. -/
theorem handoff_mappable_iff (L : Layout) (image : ℕ) (table : SystemTable) (kernel : LoadedKernel) (m₀ : Memory)
    (hk : Placed kernel) (hl : GuardsLinked L kernel) (t : Trace) (entry info top : ℕ) (m : Memory)
    (hentered : Issues (startKernel image table kernel m₀) t ⟨.enterKernel entry info top, m⟩)
    (ha : info % 4096 = 0) (hroom : info + handoffPages * 4096 ≤ Word64.size)
    (hmap : ∀ r, FinalMap t r → Conforms r ∧ MapDescribes r kernel info)
    (cpu : Cpu) (s : Machine) (held : Finset ℕ) (hs : Idle s held info) (hready : s.pmm.ready = true)
    (hmem : MemFrame (prepared m cpu info) s) (hcpu : supportedCpuState s.cpu s.cpu.cr4 = true) (root : ℕ) (made s1 : Machine)
    (hnew : newTable s = (root, made)) (hroot : root ≠ 0) (hbuild : mapBootRam L info (rooted made root) = (true, s1)) :
    (ChecksPass L info s1 ↔ InWindow info) ∧ ((pagingInit L info s).1 = true ↔ InWindow info) := by
  have hb := hs.boot hready
  have hinfo := info_ne_zero hb.valid.header
  obtain ⟨r, hfinal, hover, -⟩ := handedOver_entry hk.range hentered ⟨hinfo, ha, hroom⟩ fun r hr => (hmap r hr).1
  obtain ⟨hr, hd⟩ := hmap r hfinal
  have hchecks : ChecksPass L info s1 ↔ InWindow info :=
    (checksPass_iff hs hb hnew hroot hbuild).trans (accepted_iff (hover.later hb hmem) hr hd hk.range hl ha hroom)
  exact ⟨hchecks, (pagingInit_of_built hs hb hcpu hnew hroot hbuild).trans hchecks⟩

section Sample

theorem SampleBase.describes {base : ℕ} (h : SampleBase base) : MapDescribes (sampleMap base) sampleKernel base where
  handoff := by
    intro page hlo hhi
    unfold handoffPages at hhi
    refine ⟨1, by rw [sample_count]; decide, ?_⟩
    rw [h.handoff]
    exact ⟨rfl, by simp [Descriptor.runtime], by simp [Descriptor.writeBack], hlo, by simp only; omega⟩
  kernel := by
    intro page hlo hhi
    unfold sampleKernel at hlo hhi
    refine ⟨0, by rw [sample_count]; decide, ?_⟩
    rw [h.kernel]
    exact ⟨rfl, rfl, rfl, hlo, hhi⟩

theorem low_sample : SampleBase 0x50000 :=
  ⟨by decide, .inl (by decide), by decide, by decide +kernel, by decide +kernel, by decide +kernel⟩

theorem sample_linked : GuardsLinked smallLayout sampleKernel := by
  unfold GuardsLinked
  decide

section Prepared

variable {base : ℕ} {m : Memory}

theorem sample_bootInfo (h : HandedOver m sampleKernel base (sampleMap base)) :
    (bootInfoAt m base).kernelBase = 0x100000 ∧ (bootInfoAt m base).kernelSize = 4096 * 10 ∧
      (bootInfoAt m base).memoryMap = base + 4096 ∧ (bootInfoAt m base).memoryMapSize = 120 ∧
      (bootInfoAt m base).stackBase = handoffStack base ∧ (bootInfoAt m base).stackSize = handoffStackSize := by
  rw [h.bootInfo]
  exact ⟨rfl, rfl, rfl, rfl, rfl, rfl⟩

theorem sample_eligible (hb : SampleBase base) (h : HandedOver m sampleKernel base (sampleMap base)) (hv : ValidMap m base)
    {page : ℕ} (hlo : 4096 ≤ page) (hhi : page < 8192) : bit (bootEligible m base) page = true := by
  have hapart := hb.apart
  obtain ⟨hkernel, hsize, hmap, hmapsize, hstack, hstacksize⟩ := sample_bootInfo h
  rw [bit_bootEligible hv]
  refine ⟨by omega, by rw [pageCount_eq]; omega, ⟨2, ?_, ?_⟩, ?_⟩
  · rw [mapCount_final h.bootInfo, sample_count]
    decide
  · rw [h.entries 2 (by rw [sample_count]; decide), hb.ram]
    exact ⟨rfl, rfl, by simp only; omega, by simp only; omega⟩
  · unfold BootRegion Touches sizeofBootInfo
    rw [hkernel, hsize, hmap, hmapsize, hstack, hstacksize]
    unfold handoffStack handoffStackSize
    omega

theorem sample_ample (hb : SampleBase base) (h : HandedOver m sampleKernel base (sampleMap base)) (hv : ValidMap m base) :
    Ample (prepared m smallCpu base) ∅ := by
  have hsub : Finset.Ico 4096 8192 ⊆ pagesOf (bootEligible m base) := by
    intro page hp
    rw [Finset.mem_Ico] at hp
    rw [mem_pagesOf, pageCount_eq]
    exact ⟨by omega, sample_eligible hb h hv hp.1 hp.2⟩
  have hcard := Finset.card_le_card hsub
  rw [Nat.card_Ico] at hcard
  change 2057 + 0 ≤ countPages (bootEligible m base)
  rw [countPages_eq]
  omega

theorem sample_writeBack (hb : SampleBase base) (h : HandedOver m sampleKernel base (sampleMap base)) : AllWriteBack m base := by
  intro i hi
  rw [mapCount_final h.bootInfo, sample_count] at hi
  rw [h.entries i (by rw [sample_count]; exact hi)]
  intro _ _
  obtain rfl | rfl | rfl : i = 0 ∨ i = 1 ∨ i = 2 := by omega
  · rw [hb.kernel]
    rfl
  · rw [hb.handoff]
    simp [Descriptor.writeBack]
  · rw [hb.ram]
    rfl

theorem sample_built (hb : SampleBase base) (h : HandedOver m sampleKernel base (sampleMap base)) (hv : ValidMap m base) :
    ∃ root made s1, newTable (prepared m smallCpu base) = (root, made) ∧ root ≠ 0 ∧
      mapBootRam smallLayout base (rooted made root) = (true, s1) := by
  have hidle := prepared_idle smallCpu hv
  have hample := sample_ample hb h hv
  obtain ⟨c, hfree, hmin, hnew⟩ := newTable_of_ample hidle hample
  have hbounds := hidle.pmm.bounds c hfree.1
  obtain ⟨s1, hmap, -⟩ := mapBootRam_of_ample (L := smallLayout) hidle ⟨hv, initialised_eligible _⟩ hample
    (sample_writeBack hb h) hfree hmin
  exact ⟨_, _, s1, hnew, by omega, hmap⟩

end Prepared

theorem sample_run {base : ℕ} (hb : SampleBase base) : ∃ t, ∃ x : ℕ × Memory,
    Issues (startKernel 1 ⟨0, 0⟩ sampleKernel sampleImage) t ⟨.enterKernel 0x100000 base x.1, x.2⟩ ∧
    (∀ r, FinalMap t r → Conforms r ∧ MapDescribes r sampleKernel base) ∧
    HandedOver x.2 sampleKernel base (sampleMap base) ∧ ValidMap x.2 base := by
  have hapart := hb.apart
  obtain ⟨t, x, hentered, hfinal⟩ := entered_with_map 1 ⟨0, 0⟩ sampleKernel sampleImage base (sampleMap base) (by
    change efiError efiSuccess = false
    decide)
  have hmap : ∀ r, FinalMap t r → Conforms r ∧ MapDescribes r sampleKernel base := by
    intro r hr
    rw [hfinal r hr]
    exact ⟨hb.conforms, SampleBase.describes hb⟩
  have hbase : HandoffBase base := by
    refine ⟨hb.nonnull, hb.aligned, ?_⟩
    unfold handoffPages Word64.size
    omega
  obtain ⟨r, hr, hover, hvalid⟩ := handedOver_entry sample_placed.range hentered hbase fun r hr => (hmap r hr).1
  rw [hfinal r hr] at hover
  exact ⟨t, x, hentered, hmap, hover, hvalid⟩

end Sample

/-- A firmware may return a range below 1 MiB: every page of it is described, and yet the kernel gives up. -/
theorem low_handoff_refused : Placed sampleKernel ∧ GuardsLinked smallLayout sampleKernel ∧
    supportedCpuState smallCpu smallCpu.cr4 = true ∧ ∃ t, ∃ x : ℕ × Memory, ∃ root made s1,
      Issues (startKernel 1 ⟨0, 0⟩ sampleKernel sampleImage) t ⟨.enterKernel 0x100000 0x50000 x.1, x.2⟩ ∧
      (∀ r, FinalMap t r → Conforms r ∧ MapDescribes r sampleKernel 0x50000) ∧
      (pmmInit x.2 0x50000 bss).1 = true ∧ newTable (prepared x.2 smallCpu 0x50000) = (root, made) ∧ root ≠ 0 ∧
      mapBootRam smallLayout 0x50000 (rooted made root) = (true, s1) ∧ ¬ ChecksPass smallLayout 0x50000 s1 ∧
      (pagingInit smallLayout 0x50000 (prepared x.2 smallCpu 0x50000)).1 ≠ true := by
  obtain ⟨t, x, hentered, hmap, hover, hvalid⟩ := sample_run low_sample
  have hidle := prepared_idle smallCpu hvalid
  obtain ⟨root, made, s1, hnew, hroot, hbuild⟩ := sample_built low_sample hover hvalid
  have hok : BootOk (prepared x.2 smallCpu 0x50000) 0x50000 := ⟨hvalid, initialised_eligible _⟩
  have hpmm : (pmmInit x.2 0x50000 bss).1 = true := by
    obtain ⟨-, hno⟩ | ⟨-, -, he⟩ := init_cases bss_inv x.2 0x50000
    · exact absurd ⟨rfl, hvalid⟩ hno
    · exact congrArg Prod.fst he
  have hchecks : ¬ ChecksPass smallLayout 0x50000 s1 := by
    rw [checksPass_iff hidle hok hnew hroot hbuild]
    intro hregions
    exact absurd hregions.1.bootInfo.low (by decide)
  refine ⟨sample_placed, sample_linked, smallCpu_supported, t, x, root, made, s1, hentered, hmap, hpmm, hnew, hroot, hbuild,
    hchecks, fun htrue => ?_⟩
  exact hchecks ((pagingInit_of_built hidle hok smallCpu_supported hnew hroot hbuild).mp htrue)

/-- The same hand-off at 2 MiB is mapped. -/
theorem high_handoff_mapped : ∃ m, (pagingInit smallLayout 0x200000 (prepared m smallCpu 0x200000)).1 = true := by
  obtain ⟨t, x, hentered, hmap, hover, hvalid⟩ := sample_run high_sample
  have hidle := prepared_idle smallCpu hvalid
  obtain ⟨root, made, s1, hnew, hroot, hbuild⟩ := sample_built high_sample hover hvalid
  have hsame : MemFrame (prepared x.2 smallCpu 0x200000) (prepared x.2 smallCpu 0x200000) := ⟨rfl, rfl, rfl, fun _ _ => rfl⟩
  have hiff := handoff_mappable_iff smallLayout 1 ⟨0, 0⟩ sampleKernel sampleImage sample_placed sample_linked t 0x100000 0x200000
    x.1 x.2 hentered (by decide) (by decide) hmap smallCpu (prepared x.2 smallCpu 0x200000) ∅ hidle rfl hsame smallCpu_supported
    root made s1 hnew hroot hbuild
  exact ⟨x.2, hiff.2.mpr ⟨by decide, by decide⟩⟩

end OsByAi.BootMapping
