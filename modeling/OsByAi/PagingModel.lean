import OsByAi.PmmModel

set_option autoImplicit false

/-!
# The kernel's page tables

`Machine` is physical memory, the control registers and the static variables of
`pmm.c` and `paging.c`. The kernel reaches a table through its physical address,
so a table access is a memory access at that address. `trace` lists the stores and
invalidations in the order in which the code makes them; no function reads it.
-/
namespace OsByAi.PagingModel
open ByteMemory PackedBitmap BootInformation PmmModel

def addressMask : ℕ := 0x000ffffffffff000
/-- FLAGS: present, writable, supervisor, PAT index 0. -/
def tableFlags : ℕ := 3
def maxTables : ℕ := 4096
def nx : ℕ := 2 ^ 63
def pagingDynamicBase : ℕ := 0xffff800000000000
def pagingDynamicSize : ℕ := 2 ^ 39

/-- C's `unsigned`, the type of the permission arguments. -/
abbrev Flags := BitVec 32

def pagingWrite : Flags := 1
def pagingExec : Flags := 2

/-- The symbols of `linker.ld` that `layout.h` declares: 64-bit addresses on page boundaries. -/
structure Layout where
  kernelTextStart : ℕ
  kernelTextEnd : ℕ
  kernelRodataStart : ℕ
  kernelRodataEnd : ℕ
  doubleFaultGuardLow : ℕ
  doubleFaultGuardHigh : ℕ
  textStart_aligned : kernelTextStart % 4096 = 0
  textEnd_aligned : kernelTextEnd % 4096 = 0
  rodataStart_aligned : kernelRodataStart % 4096 = 0
  rodataEnd_aligned : kernelRodataEnd % 4096 = 0
  guardLow_aligned : doubleFaultGuardLow % 4096 = 0
  guardHigh_eq : doubleFaultGuardHigh = doubleFaultGuardLow + 0x5000
  ordered : kernelTextStart ≤ kernelTextEnd ∧ kernelTextEnd ≤ kernelRodataStart ∧
    kernelRodataStart ≤ kernelRodataEnd ∧ kernelRodataEnd ≤ doubleFaultGuardLow
  guardHigh_lt : doubleFaultGuardHigh < Word64.size

structure CpuidResult where
  eax : ℕ
  edx : ℕ

structure Cpu where
  rflags : ℕ
  cr0 : ℕ
  cr3 : ℕ
  cr4 : ℕ
  msr : ℕ → ℕ
  cpuid : ℕ → ℕ → CpuidResult

inductive Event where
  | store (address value : ℕ)
  | invlpg (address : ℕ)
  | writeMsr (index value : ℕ)
  | writeCr0 (value : ℕ)
  | writeCr3 (value : ℕ)
  | writeCr4 (value : ℕ)
  | pmmFree (address : ℕ)
deriving DecidableEq

structure Machine where
  mem : Memory
  cpu : Cpu
  pmm : Pmm
  tablePages : ℕ → ℕ
  pagingTableCount : ℕ
  pagingRoot : ℕ
  pagingPreviousCr3 : ℕ
  active : Bool
  trace : List Event

/-- Any memory and processor state, with the kernel's static variables still zero. -/
def powerOn (m : Memory) (cpu : Cpu) : Machine := ⟨m, cpu, bss, fun _ => 0, 0, 0, 0, false, []⟩

def Machine.load64 (s : Machine) (a : ℕ) : ℕ := load s.mem a 8

def Machine.store64 (s : Machine) (a v : ℕ) : Machine :=
  { s with mem := store s.mem a 8 v, trace := s.trace ++ [.store a v] }

def Machine.invalidatePage (s : Machine) (a : ℕ) : Machine :=
  { s with trace := s.trace ++ [.invlpg a] }

/-- `n` iterations of `table[i] = 0`, starting at `i`. -/
def zeroFrom (s : Machine) (table : ℕ) : ℕ → ℕ → Machine
  | _, 0 => s
  | i, n + 1 => zeroFrom (s.store64 (table + 8 * i) 0) table (i + 1) n

def newTable (s : Machine) : ℕ × Machine :=
  if s.pagingTableCount == maxTables then (0, s) else
    match pmmAlloc s.pmm (some 0) with
    | (true, some address, pmm) =>
      (address, zeroFrom { s with
        pmm := pmm
        tablePages := Function.update s.tablePages s.pagingTableCount address
        pagingTableCount := s.pagingTableCount + 1 } address 0 512)
    | (_, _, pmm) => (0, { s with pmm := pmm })

def tableIndex (address shift : ℕ) : ℕ := (address >>> shift) &&& 511

/-- `&table[(address >> shift) & 511]`. -/
def slot (table address shift : ℕ) : ℕ := table + 8 * tableIndex address shift

/-- `for (shift = 39; shift > 12; shift -= 9)`. -/
def tableShifts : List ℕ := [39, 30, 21]

/-- The loop of `map_page`: follow the path of `address`, creating missing tables. The build has
    `new_table` as a parameter. -/
def descendWith (new : Machine → ℕ × Machine) (address : ℕ) : List ℕ → ℕ → Machine → Option ℕ × Machine
  | [], table, s => (some table, s)
  | shift :: shifts, table, s =>
    let entry := slot table address shift
    if s.load64 entry &&& 1 != 0 then
      descendWith new address shifts (s.load64 entry &&& addressMask) s
    else
      let made := new s
      if made.1 == 0 then (none, made.2) else
        let s := made.2.store64 entry (made.1 ||| tableFlags)
        descendWith new address shifts (s.load64 entry &&& addressMask) s

def descend (address : ℕ) (shifts : List ℕ) (table : ℕ) (s : Machine) : Option ℕ × Machine :=
  descendWith newTable address shifts table s

def identityFlags (L : Layout) (address : ℕ) : ℕ :=
  if L.kernelTextStart ≤ address ∧ address < L.kernelTextEnd then 1
  else if L.kernelRodataStart ≤ address ∧ address < L.kernelRodataEnd then 1 ||| nx
  else tableFlags ||| nx

def mapPageWith (new : Machine → ℕ × Machine) (L : Layout) (address : ℕ) (s : Machine) : Bool × Machine :=
  match descendWith new address tableShifts s.pagingRoot s with
  | (none, s) => (false, s)
  | (some table, s) =>
    (true, s.store64 (slot table address 12) (address ||| identityFlags L address))

def mapPage (L : Layout) (address : ℕ) (s : Machine) : Bool × Machine := mapPageWith newTable L address s

/-- The inner loop of `mapped_range` for one page. -/
def walkMapped (s : Machine) (page : ℕ) : List ℕ → ℕ → Bool
  | [], table =>
    let entry := s.load64 (slot table page 12)
    entry &&& 1 != 0 && entry &&& addressMask == page
  | shift :: shifts, table =>
    let entry := s.load64 (slot table page shift)
    if entry &&& 1 == 0 then false else walkMapped s page shifts (entry &&& addressMask)

def mappedRange (s : Machine) (base size : ℕ) : Bool :=
  if size == 0 || decide (base < 0x100000) || decide (base ≥ pmmLimit) ||
      decide (size > pmmLimit - base) then false
  else
    let first := base &&& (Word64.size - 4096)
    let stop := Word64.add base size
    (List.range ((stop - first + 4095) / 4096)).all fun k =>
      walkMapped s (first + 4096 * k) tableShifts s.pagingRoot

def supportedCpuState (cpu : Cpu) (cr4 : ℕ) : Bool :=
  if cr4 &&& (2 ^ 12 ||| 2 ^ 17) != 0 || cpu.rflags &&& 0x200 != 0 then false else
  if cpu.msr 0x277 &&& 255 != 6 then false else
  if (cpu.cpuid 0x80000000 0).eax < 0x80000001 then false else
  (cpu.cpuid 0x80000001 0).edx &&& 2 ^ 20 != 0

/-- `n` iterations of the page loop of `map_boot_ram`. -/
def mapPagesWith (new : Machine → ℕ × Machine) (L : Layout) : ℕ → ℕ → Machine → Bool × Machine
  | 0, _, s => (true, s)
  | n + 1, page, s =>
    match mapPageWith new L page s with
    | (false, s) => (false, s)
    | (true, s) => mapPagesWith new L n (page + 4096) s

def mapPages (L : Layout) (n page : ℕ) (s : Machine) : Bool × Machine := mapPagesWith newTable L n page s

/-- The body of the descriptor loop of `map_boot_ram`. -/
def mapDescriptorWith (new : Machine → ℕ × Machine) (L : Layout) (d : Descriptor) (s : Machine) : Bool × Machine :=
  if (d.type != 1 && d.type != 2 && d.type != 7) || d.runtime then (true, s) else
  if clipBegin d ≥ clipEnd d then (true, s) else
  if !d.writeBack then (false, s) else
  mapPagesWith new L ((clipEnd d - clipBegin d + 4095) / 4096) (clipBegin d) s

def mapDescriptor (L : Layout) (d : Descriptor) (s : Machine) : Bool × Machine := mapDescriptorWith newTable L d s

/-- The descriptor loop. BOOT_INFO and the map are read again in each round. -/
def mapBootRamFromWith (new : Machine → ℕ × Machine) (L : Layout) (info : ℕ) : ℕ → ℕ → Machine → Bool × Machine
  | 0, _, s => (false, s)
  | fuel + 1, offset, s =>
    let b := bootInfoAt s.mem info
    if offset < b.memoryMapSize then
      match mapDescriptorWith new L (descriptorAt s.mem (Word64.add b.memoryMap offset)) s with
      | (false, s) => (false, s)
      | (true, s) =>
        mapBootRamFromWith new L info fuel (Word64.add offset (bootInfoAt s.mem info).descriptorSize) s
    else (true, s)

def mapBootRamFrom (L : Layout) (info fuel offset : ℕ) (s : Machine) : Bool × Machine :=
  mapBootRamFromWith newTable L info fuel offset s

/-- A map that `pmm_init` accepted has at most 65536 bytes, so it ends before the fuel does. -/
def mapBootRam (L : Layout) (info : ℕ) (s : Machine) : Bool × Machine := mapBootRamFrom L info 65537 0 s

def requiredRegionsMapped (info : ℕ) (s : Machine) : Bool :=
  let b := bootInfoAt s.mem info
  mappedRange s b.kernelBase b.kernelSize && mappedRange s b.stackBase b.stackSize &&
    mappedRange s info sizeofBootInfo && mappedRange s b.memoryMap b.memoryMapSize &&
    (List.range s.pagingTableCount).all fun i => mappedRange s (s.tablePages i) 4096

/-- The page table that maps `address`, once its path is known to be present. -/
def leafTable (s : Machine) (address : ℕ) : List ℕ → ℕ → ℕ
  | [], table => table
  | shift :: shifts, table =>
    leafTable s address shifts (s.load64 (slot table address shift) &&& addressMask)

def unmapGuards : List ℕ → Machine → Bool × Machine
  | [], s => (true, s)
  | guard :: guards, s =>
    if !mappedRange s guard 4096 then (false, s) else
      unmapGuards guards
        (s.store64 (slot (leafTable s guard tableShifts s.pagingRoot) guard 12) 0)

def stackGuards (L : Layout) (b : BootInfo) : List ℕ :=
  [Word64.sub b.stackBase 4096, Word64.add b.stackBase b.stackSize,
    L.doubleFaultGuardLow, L.doubleFaultGuardHigh]

def unmapStackGuards (L : Layout) (info : ℕ) (s : Machine) : Bool × Machine :=
  unmapGuards (stackGuards L (bootInfoAt s.mem info)) s

def activatePageTables (cr4 : ℕ) (s : Machine) : Machine :=
  let efer := s.cpu.msr 0xc0000080 ||| 2 ^ 11
  let cr0 := s.cpu.cr0 ||| 2 ^ 16
  let noGlobal := cr4 &&& (Word64.size - 1 - 0x80)
  { s with
    pagingPreviousCr3 := s.cpu.cr3
    cpu := { s.cpu with
      msr := Function.update s.cpu.msr 0xc0000080 efer
      cr0 := cr0
      cr3 := s.pagingRoot
      cr4 := cr4 }
    active := true
    trace := s.trace ++ [.writeMsr 0xc0000080 efer, .writeCr0 cr0, .writeCr4 noGlobal,
      .writeCr3 s.pagingRoot, .writeCr4 cr4] }

/-- `pmm_free(address)`, leaving a mark in the trace. -/
def freePage (s : Machine) (address : ℕ) : Machine :=
  { s with pmm := (pmmFree s.pmm address).2, trace := s.trace ++ [.pmmFree address] }

/-- `while (paging_table_count) pmm_free(table_pages[--paging_table_count]);` -/
def discardFrom : ℕ → Machine → Machine
  | 0, s => s
  | n + 1, s => discardFrom n (freePage { s with pagingTableCount := n } (s.tablePages n))

def discardPageTables (s : Machine) : Machine :=
  { discardFrom s.pagingTableCount s with pagingRoot := 0 }

/-- `paging_init` from `map_boot_ram` on. -/
def fillRootWith (new : Machine → ℕ × Machine) (fuel : ℕ) (L : Layout) (info cr4 : ℕ) (s : Machine) : Bool × Machine :=
  match mapBootRamFromWith new L info fuel 0 s with
  | (false, s) => (false, discardPageTables s)
  | (true, s) =>
    if !requiredRegionsMapped info s then (false, discardPageTables s) else
    match unmapStackGuards L info s with
    | (false, s) => (false, discardPageTables s)
    | (true, s) => (true, activatePageTables cr4 s)

def pagingInitWith (new : Machine → ℕ × Machine) (fuel : ℕ) (L : Layout) (info : ℕ) (s : Machine) : Bool × Machine :=
  if s.active || info == 0 || pmmTotal s.pmm == 0 then (false, s) else
  let cr4 := s.cpu.cr4
  if !supportedCpuState s.cpu cr4 then (false, s) else
  let made := new s
  let s := { made.2 with pagingRoot := made.1 }
  if s.pagingRoot == 0 then (false, s) else
  fillRootWith new fuel L info cr4 s

def fillRoot (L : Layout) (info cr4 : ℕ) (s : Machine) : Bool × Machine := fillRootWith newTable 65537 L info cr4 s

def pagingInit (L : Layout) (info : ℕ) (s : Machine) : Bool × Machine := pagingInitWith newTable 65537 L info s

section Instances

variable (L : Layout) (info : ℕ) (s : Machine)

theorem descend_nil (address table : ℕ) : descend address [] table s = (some table, s) := rfl

theorem descend_cons (address shift : ℕ) (shifts : List ℕ) (table : ℕ) :
    descend address (shift :: shifts) table s =
      let entry := slot table address shift
      if s.load64 entry &&& 1 != 0 then
        descend address shifts (s.load64 entry &&& addressMask) s
      else
        let made := newTable s
        if made.1 == 0 then (none, made.2) else
          let s := made.2.store64 entry (made.1 ||| tableFlags)
          descend address shifts (s.load64 entry &&& addressMask) s := rfl

theorem mapPage_eq (address : ℕ) : mapPage L address s =
    match descend address tableShifts s.pagingRoot s with
    | (none, s) => (false, s)
    | (some table, s) => (true, s.store64 (slot table address 12) (address ||| identityFlags L address)) := rfl

theorem mapPages_zero (page : ℕ) : mapPages L 0 page s = (true, s) := rfl

theorem mapPages_succ (n page : ℕ) : mapPages L (n + 1) page s =
    match mapPage L page s with
    | (false, s) => (false, s)
    | (true, s) => mapPages L n (page + 4096) s := rfl

theorem mapDescriptor_eq (d : Descriptor) : mapDescriptor L d s =
    if (d.type != 1 && d.type != 2 && d.type != 7) || d.runtime then (true, s) else
    if clipBegin d ≥ clipEnd d then (true, s) else
    if !d.writeBack then (false, s) else
    mapPages L ((clipEnd d - clipBegin d + 4095) / 4096) (clipBegin d) s := rfl

theorem mapBootRamFrom_succ (fuel offset : ℕ) : mapBootRamFrom L info (fuel + 1) offset s =
    if offset < (bootInfoAt s.mem info).memoryMapSize then
      match mapDescriptor L (descriptorAt s.mem (Word64.add (bootInfoAt s.mem info).memoryMap offset)) s with
      | (false, s) => (false, s)
      | (true, s) => mapBootRamFrom L info fuel (Word64.add offset (bootInfoAt s.mem info).descriptorSize) s
    else (true, s) := rfl

theorem fillRootWith_eq (fuel cr4 : ℕ) : fillRootWith newTable fuel L info cr4 s =
    match mapBootRamFrom L info fuel 0 s with
    | (false, s) => (false, discardPageTables s)
    | (true, s) =>
      if !requiredRegionsMapped info s then (false, discardPageTables s) else
      match unmapStackGuards L info s with
      | (false, s) => (false, discardPageTables s)
      | (true, s) => (true, activatePageTables cr4 s) := rfl

theorem fillRoot_eq (cr4 : ℕ) : fillRoot L info cr4 s =
    match mapBootRam L info s with
    | (false, s) => (false, discardPageTables s)
    | (true, s) =>
      if !requiredRegionsMapped info s then (false, discardPageTables s) else
      match unmapStackGuards L info s with
      | (false, s) => (false, discardPageTables s)
      | (true, s) => (true, activatePageTables cr4 s) := by
  rw [fillRoot, fillRootWith_eq, mapBootRam]

end Instances

def dynamicAddress (s : Machine) (address : ℕ) : Bool :=
  s.active && s.cpu.rflags &&& 0x200 == 0 && address &&& 4095 == 0 &&
    decide (address ≥ pagingDynamicBase) &&
    decide (Word64.sub address pagingDynamicBase < pagingDynamicSize)

def releaseTable (address : ℕ) (s : Machine) : Machine :=
  match (List.range s.pagingTableCount).find? fun i => s.tablePages i == address with
  | none => s
  | some i =>
    freePage { s with
      tablePages := Function.update s.tablePages i (s.tablePages (s.pagingTableCount - 1))
      pagingTableCount := s.pagingTableCount - 1 } address

def leafFlags (flags : Flags) : ℕ :=
  1 ||| (if flags &&& pagingWrite != 0 then 2 else 0) ||| (if flags &&& pagingExec != 0 then 0 else nx)

/-- `flags & ~(PAGING_WRITE | PAGING_EXEC)` is zero. -/
def validFlags (flags : Flags) : Bool := flags &&& ~~~(pagingWrite ||| pagingExec) == 0

/-- The tables of an existing path, from `table` down to the page table. -/
def pathFrom (s : Machine) (address : ℕ) : List ℕ → ℕ → Option (List ℕ)
  | [], _ => some []
  | shift :: shifts, table =>
    let entry := s.load64 (slot table address shift)
    if entry &&& 1 == 0 then none
    else (pathFrom s address shifts (entry &&& addressMask)).map (table :: ·)

def path (s : Machine) (address : ℕ) : Option (List ℕ) :=
  pathFrom s address (tableShifts ++ [12]) s.pagingRoot

/-- Undo the links created by this call, the latest first. -/
def rollback (address : ℕ) : List (ℕ × ℕ) → Machine → Machine
  | [], s => s
  | (link, child) :: created, s =>
    rollback address created (releaseTable child ((s.store64 link 0).invalidatePage address))

/-- The loop of `paging_map`; `created` pairs each new link with its table, the latest first. -/
def mapWalk (address : ℕ) : List ℕ → ℕ → List (ℕ × ℕ) → Machine → Option ℕ × Machine
  | [], table, _, s => (some table, s)
  | shift :: shifts, table, created, s =>
    let entry := slot table address shift
    if s.load64 entry &&& 1 != 0 then
      mapWalk address shifts (s.load64 entry &&& addressMask) created s
    else
      let made := newTable s
      if made.1 == 0 then (none, rollback address created made.2) else
        let s := made.2.store64 entry (made.1 ||| tableFlags)
        mapWalk address shifts (s.load64 entry &&& addressMask) ((entry, made.1) :: created) s

def isTablePage (s : Machine) (physical : ℕ) : Bool :=
  (List.range s.pagingTableCount).any fun i => s.tablePages i == physical

def pagingMap (address physical : ℕ) (flags : Flags) (s : Machine) : Bool × Machine :=
  if !dynamicAddress s address || !validFlags flags || !pmmIsAllocated s.pmm physical then
    (false, s)
  else if isTablePage s physical then (false, s) else
    match mapWalk address tableShifts s.pagingRoot [] s with
    | (none, s) => (false, s)
    | (some table, s) =>
      let leaf := slot table address 12
      if s.load64 leaf &&& 1 != 0 then (false, s) else
        (true, (s.store64 leaf (physical ||| leafFlags flags)).invalidatePage address)

def tableInUse (s : Machine) (table : ℕ) : Bool :=
  (List.range 512).any fun i => s.load64 (table + 8 * i) != 0

/-- Give back empty tables bottom-up; each comes with the link in its parent. -/
def reclaim (address : ℕ) : List (ℕ × ℕ) → Machine → Machine
  | [], s => s
  | (table, link) :: rest, s =>
    if tableInUse s table then s
    else reclaim address rest (releaseTable table ((s.store64 link 0).invalidatePage address))

def pagingUnmap (address : ℕ) (s : Machine) : Bool × Machine :=
  if !dynamicAddress s address then (false, s) else
  match path s address with
  | some [t0, t1, t2, t3] =>
    let s := (s.store64 (slot t3 address 12) 0).invalidatePage address
    (true, reclaim address
      [(t3, slot t2 address 21), (t2, slot t1 address 30), (t1, slot t0 address 39)] s)
  | _ => (false, s)

def pagingProtect (address : ℕ) (flags : Flags) (s : Machine) : Bool × Machine :=
  if !dynamicAddress s address || !validFlags flags then (false, s) else
  match path s address with
  | some [_, _, _, t3] =>
    let leaf := slot t3 address 12
    (true, (s.store64 leaf ((s.load64 leaf &&& addressMask) ||| leafFlags flags)).invalidatePage
      address)
  | _ => (false, s)

def entryFlags (entry : ℕ) : Flags :=
  (if entry &&& 2 != 0 then pagingWrite else 0) ||| (if entry &&& nx != 0 then 0 else pagingExec)

def pagingQuery (address : ℕ) (physical : Option ℕ) (flags : Option Flags) (s : Machine) :
    Bool × Option ℕ × Option Flags :=
  if !dynamicAddress s address || physical.isNone || flags.isNone then (false, physical, flags) else
  match path s address with
  | some [_, _, _, t3] =>
    let entry := s.load64 (slot t3 address 12)
    (true, some (entry &&& addressMask), some (entryFlags entry))
  | _ => (false, physical, flags)

end OsByAi.PagingModel
