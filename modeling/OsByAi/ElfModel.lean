import OsByAi.ByteMemory
import OsByAi.LoggedWord

set_option autoImplicit false

/-!
# Placing the kernel image

`place_kernel` of the boot loader and what it calls. The file lies in memory at `data`,
and everything the code computes, reads and writes goes into the log. Reading a structure
is logged as a whole. `AllocatePages` belongs to the firmware, so it is a parameter.
-/
namespace OsByAi.ElfModel
open ByteMemory

def efiSuccess : ℕ := 0
def efiErrorBit : ℕ := 2 ^ 63
def efiError (status : ℕ) : Bool := status &&& efiErrorBit != 0
def efiLoadError : ℕ := efiErrorBit ||| 1
def efiInvalidParameter : ℕ := efiErrorBit ||| 2
def efiUnsupported : ℕ := efiErrorBit ||| 3
def efiDeviceError : ℕ := efiErrorBit ||| 7

def sizeofHeader : ℕ := 64
def sizeofProgram : ℕ := 56

structure ElfHeader where
  ident : Fin 16 → UInt8
  type : ℕ
  machine : ℕ
  version : ℕ
  entry : ℕ
  phoff : ℕ
  ehsize : ℕ
  phentsize : ℕ
  phnum : ℕ

def headerAt (m : Memory) (a : ℕ) : ElfHeader where
  ident i := m (a + i.val)
  type := load m (a + 16) 2
  machine := load m (a + 18) 2
  version := load m (a + 20) 4
  entry := load m (a + 24) 8
  phoff := load m (a + 32) 8
  ehsize := load m (a + 52) 2
  phentsize := load m (a + 54) 2
  phnum := load m (a + 56) 2

structure ElfProgram where
  type : ℕ
  flags : ℕ
  offset : ℕ
  vaddr : ℕ
  paddr : ℕ
  filesz : ℕ
  memsz : ℕ
  align : ℕ
deriving DecidableEq

def programAt (m : Memory) (a : ℕ) : ElfProgram where
  type := load m a 4
  flags := load m (a + 4) 4
  offset := load m (a + 8) 8
  vaddr := load m (a + 16) 8
  paddr := load m (a + 24) 8
  filesz := load m (a + 32) 8
  memsz := load m (a + 40) 8
  align := load m (a + 48) 8

def readHeader (m : Memory) (data : ℕ) : Logged ElfHeader := ⟨headerAt m data, [.read data sizeofHeader]⟩

def readProgram (m : Memory) (programs i : ℕ) : Logged ElfProgram := do
  let skip ← Logged.mul sizeofProgram i
  let address ← Logged.add programs skip
  ⟨programAt m address, [.read address sizeofProgram]⟩

def readByte (m : Memory) (address : ℕ) : Logged UInt8 := ⟨m address, [.read address 1]⟩

def writeByte (m : Memory) (address : ℕ) (value : UInt8) : Logged Memory :=
  ⟨Function.update m address value, [.write address value]⟩

def validElfHeader (h : ElfHeader) (size : ℕ) : Logged Bool :=
  Logged.both (pure (h.ident 0 == 0x7f && h.ident 1 == 69 && h.ident 2 == 76 && h.ident 3 == 70 &&
    h.ident 4 == 2 && h.ident 5 == 1 && h.ident 6 == 1 &&
    h.type == 2 && h.machine == 62 && h.version == 1 &&
    h.ehsize == sizeofHeader && h.phentsize == sizeofProgram &&
    h.phnum != 0 && decide (h.phnum ≤ 128) &&
    h.phoff % 8 == 0 && decide (h.phoff ≤ size))) do
      let room ← Logged.sub size h.phoff
      let count ← Logged.div room sizeofProgram
      pure (decide (h.phnum ≤ count))

/-- The last two tests of `valid_segment`. -/
def validAlign (p : ElfProgram) : Logged Bool :=
  if p.align ≤ 1 then pure true else do
    let low ← Logged.sub p.align 1
    if p.align &&& low != 0 then pure false else do
      let a ← Logged.mod p.vaddr p.align
      let b ← Logged.mod p.offset p.align
      pure (a == b)

def validSegment (p : ElfProgram) (fileSize : ℕ) : Logged Bool :=
  if p.filesz > p.memsz || p.offset > fileSize then pure false else do
    let room ← Logged.sub fileSize p.offset
    if p.filesz > room then pure false else
      if p.paddr != p.vaddr then pure false else
        if p.vaddr < 0x100000 || p.vaddr ≥ 0x100000000 then pure false else do
          let above ← Logged.sub 0x100000000 p.vaddr
          if p.memsz > above then pure false else validAlign p

/-- One iteration of `overlaps_previous_segment`: whether the loop goes on. -/
def apart (m : Memory) (programs : ℕ) (current : ElfProgram) (i : ℕ) : Logged Bool := do
  let other ← readProgram m programs i
  if other.type != 1 || other.memsz == 0 then pure true else do
    let otherEnd ← Logged.add other.vaddr other.memsz
    if current.vaddr ≥ otherEnd then pure true else do
      let stop ← Logged.add current.vaddr current.memsz
      pure (!decide (other.vaddr < stop))

def overlapsPreviousSegment (m : Memory) (programs index : ℕ) : Logged Bool := do
  let current ← readProgram m programs index
  let clear ← Logged.allBelow index (apart m programs current)
  pure (!clear)

/-- The local variables of `inspect_segments`. -/
structure Span where
  low : ℕ
  high : ℕ
  entryValid : Bool

/-- `x & ~4095` -/
def pageFloor (x : ℕ) : ℕ := x &&& (Word64.size - 4096)

/-- `(p->flags & 1) && h->entry >= p->vaddr && h->entry - p->vaddr < p->filesz` -/
def holdsEntry (entry : ℕ) (p : ElfProgram) : Logged Bool :=
  Logged.both (pure (p.flags &&& 1 != 0 && decide (entry ≥ p.vaddr))) do
    let distance ← Logged.sub entry p.vaddr
    pure (decide (distance < p.filesz))

def widen (entry : ℕ) (s : Span) (p : ElfProgram) : Logged Span := do
  let here ← holdsEntry entry p
  let last ← Logged.add p.vaddr p.memsz
  let up ← Logged.add last 4095
  let start := pageFloor p.vaddr
  let stop := pageFloor up
  pure ⟨if start < s.low then start else s.low, if stop > s.high then stop else s.high, here || s.entryValid⟩

/-- One iteration of `inspect_segments`: an error status, or the variables after it. -/
def inspectHeader (m : Memory) (programs entry size i : ℕ) (s : Span) : Logged (Except ℕ Span) := do
  let p ← readProgram m programs i
  if p.type == 2 || p.type == 3 then pure (.error efiUnsupported) else
    if p.type != 1 then pure (.ok s) else do
      let valid ← validSegment p size
      if !valid then pure (.error efiLoadError) else
        if p.memsz == 0 then pure (.ok s) else do
          let overlap ← overlapsPreviousSegment m programs i
          if overlap then pure (.error efiLoadError) else do
            let s ← widen entry s p
            pure (.ok s)

/-- The loop with `left` headers to go. -/
def inspectFrom (m : Memory) (programs entry size : ℕ) : ℕ → ℕ → Span → Logged (Except ℕ Span)
  | _, 0, s => pure (.ok s)
  | i, left + 1, s => do
    let r ← inspectHeader m programs entry size i s
    match r with
    | .error status => pure (.error status)
    | .ok s => inspectFrom m programs entry size (i + 1) left s

structure ImageRange where
  base : ℕ
  stop : ℕ
deriving DecidableEq

/-- The tests after the loop: at most 64 MiB, and the entry point was seen. -/
def closeSpan (s : Span) : Logged (Except ℕ ImageRange) :=
  if !s.entryValid || s.high ≤ s.low then pure (.error efiLoadError) else do
    let length ← Logged.sub s.high s.low
    if length > 64 * 1024 * 1024 then pure (.error efiLoadError) else pure (.ok ⟨s.low, s.high⟩)

def inspectSegments (m : Memory) (data : ℕ) (h : ElfHeader) (size : ℕ) : Logged (Except ℕ ImageRange) := do
  let programs ← Logged.add data h.phoff
  let r ← inspectFrom m programs h.entry size 0 h.phnum ⟨Word64.size - 1, 0, false⟩
  match r with
  | .error status => pure (.error status)
  | .ok s => closeSpan s

def clearByte (base : ℕ) (m : Memory) (i : ℕ) : Logged Memory := do
  let address ← Logged.add base i
  writeByte m address 0

def copyByte (data : ℕ) (p : ElfProgram) (m : Memory) (j : ℕ) : Logged Memory := do
  let offset ← Logged.add p.offset j
  let source ← Logged.add data offset
  let byte ← readByte m source
  let address ← Logged.add p.vaddr j
  writeByte m address byte

/-- One iteration of `copy_segments`. The header is read from memory as it is by then. -/
def copySegment (data programs : ℕ) (m : Memory) (i : ℕ) : Logged Memory := do
  let p ← readProgram m programs i
  if p.type != 1 then pure m else Logged.foldBelow p.filesz (copyByte data p) m

/-- `phnum` is read once: the firmware grants the image apart from the file (`Grants`), so every round
    of the loop would find it unchanged. -/
def copySegments (m : Memory) (data : ℕ) (range : ImageRange) : Logged Memory := do
  let h ← readHeader m data
  let programs ← Logged.add data h.phoff
  let length ← Logged.sub range.stop range.base
  let m ← Logged.foldBelow length (clearByte range.base) m
  Logged.foldBelow h.phnum (copySegment data programs) m

/-! ## place_kernel -/

structure LoadedKernel where
  base : ℕ
  pages : ℕ
  entry : ℕ
deriving DecidableEq

/-- What `AllocatePages` returns, and `*Memory` afterwards. -/
structure Allocation where
  status : ℕ
  address : ℕ

/-- `request` is the range that `AllocatePages` was asked for. -/
structure Placement where
  status : ℕ
  memory : Memory
  kernel : LoadedKernel
  request : Option ImageRange

/-- `allocatePages` stands for `AllocatePages(AllocateAddress, EfiLoaderCode, pages, &address)`. -/
def allocateImage (allocatePages : ℕ → ℕ → Allocation) (m : Memory) (data : ℕ) (kernel : LoadedKernel)
    (range : ImageRange) : Logged Placement := do
  let length ← Logged.sub range.stop range.base
  let pages := length / 4096
  let a := allocatePages pages range.base
  if efiError a.status then pure ⟨a.status, m, kernel, some range⟩ else do
    let m ← copySegments m data range
    let h ← readHeader m data
    pure ⟨efiSuccess, m, ⟨a.address, pages, h.entry⟩, some range⟩

def placeKernel (allocatePages : ℕ → ℕ → Allocation) (m : Memory) (data size : ℕ) (kernel : LoadedKernel) :
    Logged Placement :=
  if size < sizeofHeader then pure ⟨efiLoadError, m, kernel, none⟩ else do
    let h ← readHeader m data
    let valid ← validElfHeader h size
    if !valid then pure ⟨efiLoadError, m, kernel, none⟩ else do
      let r ← inspectSegments m data h size
      match r with
      | .error status => pure ⟨status, m, kernel, none⟩
      | .ok range => allocateImage allocatePages m data kernel range

end OsByAi.ElfModel
