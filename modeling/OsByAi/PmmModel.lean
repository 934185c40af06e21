import OsByAi.BootInformation
import OsByAi.PackedBitmap

set_option autoImplicit false

/-!
# The physical page manager

`Pmm` holds the static variables of `pmm.c`; they start out zero. The two bitmaps
cover the pages below 4 GiB. An output pointer is an `Option`: `none` is the null
pointer and `some v` a variable that currently holds `v`.
-/
namespace OsByAi.PmmModel
open ByteMemory PackedBitmap BootInformation

def pageSize : ℕ := 4096
def pmmLimit : ℕ := 0x100000000

/-- `PMM_LIMIT / PMM_PAGE_SIZE`. Kept symbolic, so that no proof unfolds a loop over all pages. -/
@[irreducible] def pageCount : ℕ := 1048576

theorem pageCount_eq : pageCount = 1048576 := by
  unfold pageCount
  rfl

structure Pmm where
  eligible : Bitmap
  allocated : Bitmap
  totalPages : ℕ
  freePages : ℕ
  cursor : ℕ
  ready : Bool

/-- The static variables before any call. -/
def bss : Pmm := ⟨empty, empty, 0, 0, 0, false⟩

def validRange (base size : ℕ) : Bool := size != 0 && decide (base ≤ Word64.size - 1 - size)

def reserve (map : Bitmap) (base size : ℕ) : Bitmap :=
  if base ≥ pmmLimit then map else
    let sum := Word64.add base size
    let stop := if sum > pmmLimit then pmmLimit else sum
    clearFrom map (base / pageSize) (Word64.add stop 4095 / 4096 - base / pageSize)

def descriptor (m : Memory) (info index : ℕ) : Descriptor :=
  descriptorAt m (Word64.add (bootInfoAt m info).memoryMap
    (Word64.mul index (bootInfoAt m info).descriptorSize))

def validBootInfo (m : Memory) (info : ℕ) : Bool :=
  let b := bootInfoAt m info
  info != 0 && b.magic == bootInfoMagic && b.version == bootInfoVersion &&
    b.size == sizeofBootInfo && b.flags == bootServicesExited &&
    b.memoryMap != 0 && b.memoryMap % 8 == 0 &&
    decide (sizeofDescriptor ≤ b.descriptorSize) &&
    b.descriptorSize % 8 == 0 && b.descriptorVersion == 1 &&
    validRange b.memoryMap b.memoryMapSize &&
    decide (b.memoryMapSize ≤ 65536) && b.memoryMapSize % b.descriptorSize == 0 &&
    validRange b.kernelBase b.kernelSize && validRange b.stackBase b.stackSize &&
    validRange info sizeofBootInfo

def validDescriptor (d : Descriptor) : Bool :=
  d.physicalStart % pageSize == 0 && d.numberOfPages != 0 &&
    decide (d.numberOfPages ≤ (Word64.size - 1 - d.physicalStart) / pageSize)

/-- `memory_map_size / descriptor_size`. -/
def mapCount (m : Memory) (info : ℕ) : ℕ :=
  (bootInfoAt m info).memoryMapSize / (bootInfoAt m info).descriptorSize

def overlaps (d other : Descriptor) : Bool :=
  decide (d.physicalStart < other.limit) && decide (other.physicalStart < d.limit)

def validMapRanges (m : Memory) (info : ℕ) : Bool :=
  (List.range (mapCount m info)).all fun i =>
    validDescriptor (descriptor m info i) &&
      (List.range i).all fun j => !overlaps (descriptor m info i) (descriptor m info j)

/-- `if (begin < 0x100000) begin = 0x100000;` -/
def clipBegin (d : Descriptor) : ℕ := if d.physicalStart < 0x100000 then 0x100000 else d.physicalStart

/-- `if (end > PMM_LIMIT) end = PMM_LIMIT;` -/
def clipEnd (d : Descriptor) : ℕ := if d.limit > pmmLimit then pmmLimit else d.limit

def markDescriptor (map : Bitmap) (d : Descriptor) : Bitmap :=
  if d.type != 7 || d.runtime then map else
    setFrom map (clipBegin d / 4096) (clipEnd d / 4096 - clipBegin d / 4096)

def markUsablePages (m : Memory) (info : ℕ) (map : Bitmap) : Bitmap :=
  (List.range (mapCount m info)).foldl (fun map i => markDescriptor map (descriptor m info i)) map

def reserveBootRegions (m : Memory) (info : ℕ) (map : Bitmap) : Bitmap :=
  let b := bootInfoAt m info
  let map := reserve map b.kernelBase b.kernelSize
  let map := reserve map info sizeofBootInfo
  let map := reserve map b.memoryMap b.memoryMapSize
  reserve map b.stackBase b.stackSize

/-- `for (page = 0; page < PAGE_COUNT; ++page) if (bit(eligible, page)) ++total_pages;` -/
def countPages (map : Bitmap) : ℕ := Nat.count (fun page => bit map page = true) pageCount

def pmmInit (m : Memory) (info : ℕ) (s : Pmm) : Bool × Pmm :=
  if s.ready || !validBootInfo m info then (false, s) else
  if !validMapRanges m info then (false, s) else
    let eligible := reserveBootRegions m info (markUsablePages m info s.eligible)
    let total := Word64.add s.totalPages (countPages eligible)
    (true, { s with eligible := eligible, totalPages := total, freePages := total, ready := true })

/-- The scan of `pmm_alloc` with `left` iterations to go. -/
def scan (s : Pmm) : ℕ → Option ℕ
  | 0 => none
  | left + 1 =>
    let page := (s.cursor + (pageCount - (left + 1))) % pageCount
    if !bit s.eligible page || bit s.allocated page then scan s left else some page

def pmmAlloc (s : Pmm) (address : Option ℕ) : Bool × Option ℕ × Pmm :=
  if !s.ready || address.isNone || s.freePages == 0 then (false, address, s) else
    match scan s pageCount with
    | none => (false, address, s)
    | some page =>
      (true, some (page * 4096), { s with
        allocated := set s.allocated page
        freePages := Word64.sub s.freePages 1
        cursor := (page + 1) % pageCount })

def pmmFree (s : Pmm) (address : ℕ) : Bool × Pmm :=
  if !s.ready || address % 4096 != 0 || decide (address ≥ pmmLimit) then (false, s) else
    let page := address / 4096
    if !bit s.eligible page || !bit s.allocated page then (false, s) else
      (true, { s with
        allocated := clear s.allocated page
        freePages := Word64.add s.freePages 1
        cursor := if page < s.cursor then page else s.cursor })

def pmmTotal (s : Pmm) : ℕ := s.totalPages
def pmmAvailable (s : Pmm) : ℕ := s.freePages

def pmmIsAllocated (s : Pmm) (address : ℕ) : Bool :=
  s.ready && decide (address < pmmLimit) && address % 4096 == 0 &&
    bit s.eligible (address / 4096) && bit s.allocated (address / 4096)

end OsByAi.PmmModel
