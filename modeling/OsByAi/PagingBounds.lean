import OsByAi.PagingBudget

set_option autoImplicit false

namespace OsByAi.PagingBounds
open ByteMemory BootInformation PmmModel PmmInvariant PagingModel PagingTree PagingInit PagingBudget KernelRuns
open PagingAddressSpace PmmBootMap

/-- The machine with `junk` past the end of `table_pages`. -/
def beyond (junk : ℕ → ℕ) (s : Machine) : Machine :=
  { s with tablePages := fun i => if i < maxTables then s.tablePages i else junk i }

/-- The count stays within the array, and what lies past its end is neither read nor changed. -/
def InBounds {α : Type} (f : Machine → α × Machine) : Prop :=
  ∀ s, s.pagingTableCount ≤ maxTables → (f s).2.pagingTableCount ≤ maxTables ∧
    ∀ junk, f (beyond junk s) = ((f s).1, beyond junk (f s).2)

section Beyond

variable (junk : ℕ → ℕ) (s : Machine)

@[simp] theorem beyond_mem : (beyond junk s).mem = s.mem := rfl
@[simp] theorem beyond_cpu : (beyond junk s).cpu = s.cpu := rfl
@[simp] theorem beyond_pmm : (beyond junk s).pmm = s.pmm := rfl
@[simp] theorem beyond_count : (beyond junk s).pagingTableCount = s.pagingTableCount := rfl
@[simp] theorem beyond_root : (beyond junk s).pagingRoot = s.pagingRoot := rfl
@[simp] theorem beyond_active : (beyond junk s).active = s.active := rfl
@[simp] theorem beyond_load64 (a : ℕ) : (beyond junk s).load64 a = s.load64 a := rfl
@[simp] theorem beyond_store64 (a v : ℕ) : (beyond junk s).store64 a v = beyond junk (s.store64 a v) := rfl
@[simp] theorem beyond_invalidatePage (a : ℕ) :
    (beyond junk s).invalidatePage a = beyond junk (s.invalidatePage a) := rfl
theorem beyond_rooted (root : ℕ) : rooted (beyond junk s) root = beyond junk (rooted s root) := rfl

theorem beyond_tablePages {i : ℕ} (hi : i < maxTables) : (beyond junk s).tablePages i = s.tablePages i := if_pos hi

theorem beyond_update {i : ℕ} (hi : i < maxTables) (a : ℕ) :
    Function.update (beyond junk s).tablePages i a =
      fun k => if k < maxTables then Function.update s.tablePages i a k else junk k := by
  funext k
  by_cases hk : k = i
  · rw [hk, Function.update_self, Function.update_self, if_pos hi]
  · rw [Function.update_of_ne hk, Function.update_of_ne hk]
    rfl

theorem zeroFrom_beyond (table i k : ℕ) : zeroFrom (beyond junk s) table i k = beyond junk (zeroFrom s table i k) := by
  induction k generalizing s i with
  | zero => rfl
  | succ k ih => rw [zeroFrom, zeroFrom, beyond_store64, ih]

theorem walkMapped_beyond (page : ℕ) (shifts : List ℕ) (table : ℕ) :
    walkMapped (beyond junk s) page shifts table = walkMapped s page shifts table := by
  induction shifts generalizing table with
  | nil => rfl
  | cons shift shifts ih => simp only [walkMapped, beyond_load64, ih]

theorem mappedRange_beyond (base size : ℕ) : mappedRange (beyond junk s) base size = mappedRange s base size := by
  simp only [mappedRange, walkMapped_beyond, beyond_root]

theorem leafTable_beyond (address : ℕ) (shifts : List ℕ) (table : ℕ) :
    leafTable (beyond junk s) address shifts table = leafTable s address shifts table := by
  induction shifts generalizing table with
  | nil => rfl
  | cons shift shifts ih => simp only [leafTable, beyond_load64, ih]

theorem pathFrom_beyond (address : ℕ) (shifts : List ℕ) (table : ℕ) :
    pathFrom (beyond junk s) address shifts table = pathFrom s address shifts table := by
  induction shifts generalizing table with
  | nil => rfl
  | cons shift shifts ih => simp only [pathFrom, beyond_load64, ih]

theorem path_beyond (address : ℕ) : path (beyond junk s) address = path s address := by
  simp only [path, pathFrom_beyond, beyond_root]

theorem dynamicAddress_beyond (address : ℕ) : dynamicAddress (beyond junk s) address = dynamicAddress s address := rfl

theorem tableInUse_beyond (table : ℕ) : tableInUse (beyond junk s) table = tableInUse s table := rfl

end Beyond

section Build

variable {L : Layout} {info : ℕ}

theorem newTable_inBounds : InBounds newTable := by
  intro s hs
  unfold newTable
  by_cases hfull : s.pagingTableCount = maxTables
  · have hfull' : ∀ junk, (beyond junk s).pagingTableCount = maxTables := fun junk => hfull
    simp only [hfull, hfull', beq_self_eq_true, if_true]
    exact ⟨le_refl _, fun _ => trivial⟩
  · have hlt : s.pagingTableCount < maxTables := by omega
    simp only [beyond_count, beyond_pmm, beq_iff_eq, hfull, if_false, beyond_update _ _ hlt]
    rcases pmmAlloc s.pmm (some 0) with ⟨ok, address, pmm⟩
    cases ok with
    | false => exact ⟨hs, fun _ => rfl⟩
    | true =>
      cases address with
      | none => exact ⟨hs, fun _ => rfl⟩
      | some address =>
        refine ⟨?_, fun junk => ?_⟩
        · simp only [zeroFrom_count]
          omega
        · rw [← zeroFrom_beyond]
          rfl

theorem descend_inBounds (address : ℕ) (shifts : List ℕ) (table : ℕ) : InBounds (descend address shifts table) := by
  induction shifts generalizing table with
  | nil => exact fun s hs => ⟨hs, fun _ => rfl⟩
  | cons shift shifts ih =>
    intro s hs
    obtain ⟨hcount, hnew⟩ := newTable_inBounds s hs
    simp only [descend_cons, beyond_load64, hnew, beyond_store64]
    split
    · exact ih _ s hs
    · split
      · exact ⟨hcount, fun _ => rfl⟩
      · exact ih _ _ (by rw [store64_count]; exact hcount)

theorem mapPage_inBounds (address : ℕ) : InBounds (mapPage L address) := by
  intro s hs
  obtain ⟨hcount, hdown⟩ := descend_inBounds address tableShifts s.pagingRoot s hs
  simp only [mapPage_eq, beyond_root, hdown]
  generalize descend address tableShifts s.pagingRoot s = r at hcount ⊢
  obtain ⟨table, t⟩ := r
  cases table with
  | none => exact ⟨hcount, fun _ => rfl⟩
  | some table => exact ⟨hcount, fun _ => rfl⟩

theorem mapPages_inBounds (n page : ℕ) : InBounds (mapPages L n page) := by
  induction n generalizing page with
  | zero => exact fun s hs => ⟨hs, fun _ => rfl⟩
  | succ n ih =>
    intro s hs
    obtain ⟨hcount, hpage⟩ := mapPage_inBounds (L := L) page s hs
    simp only [mapPages_succ, hpage]
    generalize mapPage L page s = r at hcount ⊢
    obtain ⟨ok, t⟩ := r
    cases ok with
    | false => exact ⟨hcount, fun _ => rfl⟩
    | true => exact ih (page + 4096) t hcount

theorem mapDescriptor_inBounds (d : Descriptor) : InBounds (mapDescriptor L d) := by
  intro s hs
  simp only [mapDescriptor_eq]
  split
  · exact ⟨hs, fun _ => rfl⟩
  · split
    · exact ⟨hs, fun _ => rfl⟩
    · split
      · exact ⟨hs, fun _ => rfl⟩
      · exact mapPages_inBounds _ _ s hs

theorem mapBootRamFrom_inBounds (L : Layout) (info fuel offset : ℕ) : InBounds (mapBootRamFrom L info fuel offset) := by
  induction fuel generalizing offset with
  | zero => exact fun s hs => ⟨hs, fun _ => rfl⟩
  | succ fuel ih =>
    intro s hs
    by_cases hlt : offset < (bootInfoAt s.mem info).memoryMapSize
    · obtain ⟨hcount, hone⟩ := mapDescriptor_inBounds (L := L)
        (descriptorAt s.mem (Word64.add (bootInfoAt s.mem info).memoryMap offset)) s hs
      rcases hr : mapDescriptor L (descriptorAt s.mem (Word64.add (bootInfoAt s.mem info).memoryMap offset)) s with
        ⟨ok, t⟩
      rw [hr] at hcount
      simp only [hr] at hone
      cases ok with
      | false =>
        simp only [mapBootRamFrom_succ, beyond_mem, hlt, if_true, hone, hr]
        exact ⟨hcount, fun _ => trivial⟩
      | true =>
        simp only [mapBootRamFrom_succ, beyond_mem, hlt, if_true, hone, hr]
        exact ih _ t hcount
    · simp only [mapBootRamFrom_succ, beyond_mem, hlt, if_false]
      exact ⟨hs, fun _ => trivial⟩

theorem mapBootRam_inBounds (L : Layout) (info : ℕ) : InBounds (mapBootRam L info) := mapBootRamFrom_inBounds L info 65537 0

theorem requiredRegionsMapped_beyond (junk : ℕ → ℕ) {s : Machine} (hs : s.pagingTableCount ≤ maxTables) :
    requiredRegionsMapped info (beyond junk s) = requiredRegionsMapped info s := by
  have htables : (List.range s.pagingTableCount).all (fun i => mappedRange s ((beyond junk s).tablePages i) 4096) =
      (List.range s.pagingTableCount).all (fun i => mappedRange s (s.tablePages i) 4096) := by
    rw [Bool.eq_iff_iff, List.all_eq_true, List.all_eq_true]
    apply forall₂_congr
    intro i hi
    have hlt := List.mem_range.mp hi
    rw [beyond_tablePages junk s (by omega)]
  simp only [requiredRegionsMapped, beyond_mem, mappedRange_beyond, beyond_count, htables]

theorem unmapGuards_inBounds (guards : List ℕ) : InBounds (unmapGuards guards) := by
  induction guards with
  | nil => exact fun s hs => ⟨hs, fun _ => rfl⟩
  | cons guard guards ih =>
    intro s hs
    unfold unmapGuards
    simp only [mappedRange_beyond, leafTable_beyond, beyond_root, beyond_store64]
    split
    · exact ⟨hs, fun _ => rfl⟩
    · exact ih _ (by rw [store64_count]; exact hs)

theorem unmapStackGuards_inBounds (L : Layout) (info : ℕ) : InBounds (unmapStackGuards L info) := by
  intro s hs
  simp only [unmapStackGuards, beyond_mem]
  generalize stackGuards L (bootInfoAt s.mem info) = guards
  exact unmapGuards_inBounds guards s hs

theorem discardFrom_beyond (junk : ℕ → ℕ) (n : ℕ) (s : Machine) (hn : n ≤ maxTables) :
    discardFrom n (beyond junk s) = beyond junk (discardFrom n s) := by
  induction n generalizing s with
  | zero => rfl
  | succ n ih =>
    rw [discardFrom, discardFrom, beyond_tablePages junk s (by omega), ← ih _ (by omega)]
    rfl

theorem discardFrom_count (n : ℕ) (s : Machine) (hs : s.pagingTableCount = n) : (discardFrom n s).pagingTableCount = 0 := by
  induction n generalizing s with
  | zero => exact hs
  | succ n ih =>
    rw [discardFrom]
    exact ih _ rfl

theorem discard_count (s : Machine) : (discardPageTables s).pagingTableCount = 0 := discardFrom_count _ s rfl

theorem discard_beyond (junk : ℕ → ℕ) {s : Machine} (hs : s.pagingTableCount ≤ maxTables) :
    discardPageTables (beyond junk s) = beyond junk (discardPageTables s) := by
  unfold discardPageTables
  rw [beyond_count, discardFrom_beyond junk _ s hs]
  rfl

theorem activatePageTables_beyond (junk : ℕ → ℕ) (cr4 : ℕ) (s : Machine) :
    activatePageTables cr4 (beyond junk s) = beyond junk (activatePageTables cr4 s) := by
  simp only [activatePageTables, beyond]

theorem fillRoot_inBounds (L : Layout) (info cr4 : ℕ) : InBounds (fillRoot L info cr4) := by
  intro s hs
  obtain ⟨hmapped, hmap⟩ := mapBootRam_inBounds L info s hs
  rcases hr : mapBootRam L info s with ⟨ok, t⟩
  simp only [hr] at hmapped hmap
  have hdiscard : (discardPageTables t).pagingTableCount ≤ maxTables := by
    rw [discard_count]
    exact Nat.zero_le _
  cases ok with
  | false =>
    simp only [fillRoot_eq, hr, hmap, discard_beyond _ hmapped]
    exact ⟨hdiscard, fun _ => trivial⟩
  | true =>
    simp only [fillRoot_eq, hr, hmap, discard_beyond _ hmapped, requiredRegionsMapped_beyond _ hmapped]
    cases hreq : requiredRegionsMapped info t with
    | false =>
      simp only [Bool.not_false, if_true]
      exact ⟨hdiscard, fun _ => trivial⟩
    | true =>
      obtain ⟨hcleared, hguards⟩ := unmapStackGuards_inBounds L info t hmapped
      rcases hu : unmapStackGuards L info t with ⟨ok, u⟩
      simp only [hu] at hcleared hguards
      simp only [Bool.not_true, Bool.false_eq_true, if_false, hguards]
      cases ok with
      | false =>
        simp only [discard_beyond _ hcleared, discard_count]
        exact ⟨Nat.zero_le _, fun _ => trivial⟩
      | true =>
        simp only [activatePageTables_beyond]
        exact ⟨hcleared, fun _ => trivial⟩

theorem pagingInit_inBounds (L : Layout) (info : ℕ) : InBounds (pagingInit L info) := by
  intro s hs
  obtain ⟨hcount, hnew⟩ := newTable_inBounds s hs
  simp only [pagingInit_unfold, beyond_active, beyond_pmm, beyond_cpu, hnew, beyond_rooted]
  split
  · exact ⟨hs, fun _ => rfl⟩
  · split
    · exact ⟨hs, fun _ => rfl⟩
    · split
      · exact ⟨hcount, fun _ => rfl⟩
      · exact fillRoot_inBounds L info s.cpu.cr4 _ hcount

end Build

section Window

theorem releaseTable_inBounds (address : ℕ) {s : Machine} (hs : s.pagingTableCount ≤ maxTables) :
    (releaseTable address s).pagingTableCount ≤ maxTables ∧ ∀ junk,
      releaseTable address (beyond junk s) = beyond junk (releaseTable address s) := by
  have hfind : ∀ junk, (List.range s.pagingTableCount).find? (fun i => (beyond junk s).tablePages i == address) =
      (List.range s.pagingTableCount).find? (fun i => s.tablePages i == address) := by
    intro junk
    apply List.find?_congr
    intro i hi
    have hlt := List.mem_range.mp hi
    rw [beyond_tablePages junk s (by omega)]
  unfold releaseTable
  simp only [beyond_count, hfind]
  cases hf : (List.range s.pagingTableCount).find? (fun i => s.tablePages i == address) with
  | none => exact ⟨hs, fun _ => rfl⟩
  | some i =>
    have hi := List.mem_range.mp (List.mem_of_find?_eq_some hf)
    refine ⟨?_, fun junk => ?_⟩
    · change s.pagingTableCount - 1 ≤ maxTables
      omega
    · simp only [beyond_update junk s (show i < maxTables by omega),
        beyond_tablePages junk s (show s.pagingTableCount - 1 < maxTables by omega)]
      rfl

theorem rollback_inBounds (address : ℕ) (created : List (ℕ × ℕ)) {s : Machine} (hs : s.pagingTableCount ≤ maxTables) :
    (rollback address created s).pagingTableCount ≤ maxTables ∧ ∀ junk,
      rollback address created (beyond junk s) = beyond junk (rollback address created s) := by
  induction created generalizing s with
  | nil => exact ⟨hs, fun _ => rfl⟩
  | cons link created ih =>
    obtain ⟨hcount, hrelease⟩ := releaseTable_inBounds link.2 (s := (s.store64 link.1 0).invalidatePage address) hs
    simp only [rollback, beyond_store64, beyond_invalidatePage, hrelease]
    exact ih hcount

theorem mapWalk_inBounds (address : ℕ) (shifts : List ℕ) (table : ℕ) (created : List (ℕ × ℕ)) :
    InBounds (mapWalk address shifts table created) := by
  induction shifts generalizing table created with
  | nil => exact fun s hs => ⟨hs, fun _ => rfl⟩
  | cons shift shifts ih =>
    intro s hs
    obtain ⟨hcount, hnew⟩ := newTable_inBounds s hs
    obtain ⟨hrolled, hback⟩ := rollback_inBounds address created hcount
    unfold mapWalk
    simp only [beyond_load64, hnew, beyond_store64, hback]
    split
    · exact ih _ _ s hs
    · split
      · exact ⟨hrolled, fun _ => rfl⟩
      · exact ih _ _ _ (by rw [store64_count]; exact hcount)

theorem isTablePage_beyond (junk : ℕ → ℕ) (physical : ℕ) {s : Machine} (hs : s.pagingTableCount ≤ maxTables) :
    isTablePage (beyond junk s) physical = isTablePage s physical := by
  unfold isTablePage
  rw [beyond_count, Bool.eq_iff_iff, List.any_eq_true, List.any_eq_true]
  apply exists_congr
  intro i
  apply and_congr_right
  intro hi
  have hlt := List.mem_range.mp hi
  rw [beyond_tablePages junk s (by omega)]

theorem pagingMap_inBounds (address physical : ℕ) (flags : Flags) : InBounds (pagingMap address physical flags) := by
  intro s hs
  obtain ⟨hcount, hwalk⟩ := mapWalk_inBounds address tableShifts s.pagingRoot [] s hs
  unfold pagingMap
  simp only [dynamicAddress_beyond, beyond_pmm, isTablePage_beyond _ physical hs, beyond_root, hwalk]
  split
  · exact ⟨hs, fun _ => rfl⟩
  · split
    · exact ⟨hs, fun _ => rfl⟩
    · generalize mapWalk address tableShifts s.pagingRoot [] s = r at hcount ⊢
      obtain ⟨table, t⟩ := r
      cases table with
      | none => exact ⟨hcount, fun _ => rfl⟩
      | some table =>
        by_cases hleaf : (t.load64 (slot table address 12) &&& 1 != 0) = true
        · simp only [beyond_load64, hleaf, if_true]
          exact ⟨hcount, fun _ => trivial⟩
        · simp only [beyond_load64, hleaf]
          exact ⟨hcount, fun _ => rfl⟩

theorem reclaim_inBounds (address : ℕ) (spine : List (ℕ × ℕ)) {s : Machine} (hs : s.pagingTableCount ≤ maxTables) :
    (reclaim address spine s).pagingTableCount ≤ maxTables ∧ ∀ junk,
      reclaim address spine (beyond junk s) = beyond junk (reclaim address spine s) := by
  induction spine generalizing s with
  | nil => exact ⟨hs, fun _ => rfl⟩
  | cons link spine ih =>
    obtain ⟨hcount, hrelease⟩ := releaseTable_inBounds link.1 (s := (s.store64 link.2 0).invalidatePage address) hs
    simp only [reclaim, tableInUse_beyond, beyond_store64, beyond_invalidatePage, hrelease]
    split
    · exact ⟨hs, fun _ => rfl⟩
    · exact ih hcount

theorem pagingUnmap_inBounds (address : ℕ) : InBounds (pagingUnmap address) := by
  intro s hs
  unfold pagingUnmap
  simp only [dynamicAddress_beyond, path_beyond]
  split
  · exact ⟨hs, fun _ => rfl⟩
  · split
    · rename_i t0 t1 t2 t3 hp
      obtain ⟨hcount, hreclaim⟩ := reclaim_inBounds address
        [(t3, slot t2 address 21), (t2, slot t1 address 30), (t1, slot t0 address 39)]
        (s := (s.store64 (slot t3 address 12) 0).invalidatePage address) hs
      simp only [beyond_store64, beyond_invalidatePage, hreclaim]
      exact ⟨hcount, fun _ => trivial⟩
    · exact ⟨hs, fun _ => rfl⟩

theorem pagingProtect_inBounds (address : ℕ) (flags : Flags) : InBounds (pagingProtect address flags) := by
  intro s hs
  unfold pagingProtect
  simp only [dynamicAddress_beyond, path_beyond]
  split
  · exact ⟨hs, fun _ => rfl⟩
  · split
    · exact ⟨hs, fun _ => rfl⟩
    · exact ⟨hs, fun _ => rfl⟩

theorem pagingQuery_beyond (junk : ℕ → ℕ) (s : Machine) (address : ℕ) (physical : Option ℕ) (flags : Option Flags) :
    pagingQuery address physical flags (beyond junk s) = pagingQuery address physical flags s := by
  unfold pagingQuery
  simp only [dynamicAddress_beyond, path_beyond, beyond_load64]

theorem call_inBounds (L : Layout) (info : ℕ) (c : Call) : InBounds fun s => call L info s c := by
  cases c with
  | pagingInit =>
    intro s hs
    obtain ⟨hcount, hsame⟩ := pagingInit_inBounds L info s hs
    simp only [call, hsame]
    exact ⟨hcount, fun _ => trivial⟩
  | pagingMap v p f =>
    intro s hs
    obtain ⟨hcount, hsame⟩ := pagingMap_inBounds v.toNat p.toNat f s hs
    simp only [call, hsame]
    exact ⟨hcount, fun _ => trivial⟩
  | pagingUnmap v =>
    intro s hs
    obtain ⟨hcount, hsame⟩ := pagingUnmap_inBounds v.toNat s hs
    simp only [call, hsame]
    exact ⟨hcount, fun _ => trivial⟩
  | pagingProtect v f =>
    intro s hs
    obtain ⟨hcount, hsame⟩ := pagingProtect_inBounds v.toNat f s hs
    simp only [call, hsame]
    exact ⟨hcount, fun _ => trivial⟩
  | pagingQuery v p f =>
    intro s hs
    simp only [call, pagingQuery_beyond]
    exact ⟨hs, fun _ => trivial⟩
  | _ => exact fun s hs => ⟨hs, fun _ => rfl⟩

theorem run_count (L : Layout) (info : ℕ) (m : Memory) (cpu : Cpu) (calls : List Call) :
    (run L info (World.powerOn m cpu) calls).machine.pagingTableCount ≤ maxTables := by
  have key : ∀ w : World, w.machine.pagingTableCount ≤ maxTables →
      (run L info w calls).machine.pagingTableCount ≤ maxTables := by
    induction calls with
    | nil => exact fun w hw => hw
    | cons c calls ih => exact fun w hw => ih (next L info w c) (call_inBounds L info c w.machine hw).1
  exact key _ (Nat.zero_le _)

end Window

structure Budget (L : Layout) (info : ℕ) : Prop where
  made : ∀ before after, Booted L info before after →
    after.machine.pagingTableCount = tablesNeeded before.machine.mem info ∧
    after.machine.pagingTableCount ≤ 2054 ∧ 2042 ≤ maxTables - after.machine.pagingTableCount
  untested : ∀ m cpu calls, Follows OwnPages L info (World.powerOn m cpu) calls →
    ∀ new : Machine → ℕ × Machine, (∀ t, t.pagingTableCount ≠ maxTables → new t = newTable t) →
      pagingInitWith new 65537 L info (run L info (World.powerOn m cpu) calls).machine =
        pagingInit L info (run L info (World.powerOn m cpu) calls).machine
  inside : ∀ m cpu calls, (run L info (World.powerOn m cpu) calls).machine.pagingTableCount ≤ maxTables ∧
    ∀ c junk, call L info (beyond junk (run L info (World.powerOn m cpu) calls).machine) c =
      ((call L info (run L info (World.powerOn m cpu) calls).machine c).1,
        beyond junk (call L info (run L info (World.powerOn m cpu) calls).machine c).2)

theorem booted_count {L : Layout} {info : ℕ} {before after : World} (h : Booted L info before after) :
    after.machine.pagingTableCount = tablesNeeded before.machine.mem info ∧
      after.machine.pagingTableCount ≤ 2054 ∧ 2042 ≤ maxTables - after.machine.pagingTableCount := by
  obtain ⟨hidle, -, hinst, -⟩ := h.cases
  have hres : pagingInit L info before.machine = (true, after.machine) := by
    rw [h.after_eq]
    exact Prod.ext h.succeeded rfl
  have hle := hinst.built.count_le
  refine ⟨Installed.count_eq hidle.idle hres hinst, hle, ?_⟩
  unfold maxTables
  omega

theorem table_budget (L : Layout) (info : ℕ) : Budget L info where
  made := fun _ _ h => booted_count h
  untested := by
    intro m cpu calls hc new hnew
    obtain hidle | ⟨base, hact⟩ := idle_or_active m cpu hc
    · exact pagingInitWith_eq hnew hidle.idle
    · simp only [pagingInitWith_unfold, pagingInit_unfold, hact.dyn.active, Bool.true_or, if_true]
  inside := fun m cpu calls =>
    ⟨run_count L info m cpu calls, fun c => (call_inBounds L info c _ (run_count L info m cpu calls)).2⟩

/-- `small_booted` is a start at which the count is the sum. -/
theorem small_budget : smallAfter.machine.pagingTableCount = tablesNeeded smallBefore.machine.mem smallInfo ∧
    smallAfter.machine.pagingTableCount ≤ 2054 :=
  ⟨((table_budget smallLayout smallInfo).made smallBefore smallAfter small_booted).1,
    ((table_budget smallLayout smallInfo).made smallBefore smallAfter small_booted).2.1⟩

end OsByAi.PagingBounds
