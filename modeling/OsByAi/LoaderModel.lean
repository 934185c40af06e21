import OsByAi.CallTree
import OsByAi.BootInformation
import OsByAi.ElfModel

set_option autoImplicit false

/-!
# The boot loader

`boot/load.c` and `boot/main.c` as programs that call the firmware. A call shows the
firmware the service with its arguments and the memory as it is then; a reply carries
the status and what the service puts in its output parameters, which it does only when
the status is no error. Entering the kernel is a call too, since control leaves the loader.
-/
namespace OsByAi.LoaderModel
open CallTree ByteMemory BootInformation ElfModel

inductive Protocol where
  | serialIo
  | loadedImage
  | simpleFileSystem
deriving DecidableEq

inductive Service where
  | setWatchdogTimer (timeout code dataSize data : ℕ)
  | locateProtocol (protocol : Protocol)
  | handleProtocol (handle : ℕ) (protocol : Protocol)
  | setAttributes (serial baudRate fifoDepth timeout parity dataBits stopBits : ℕ)
  | serialWrite (serial : ℕ) (text : String)
  | outputString (output : ℕ) (text : String)
  | openVolume (fs : ℕ)
  | openFile (root : ℕ) (path : String) (mode attributes : ℕ)
  | setPosition (file position : ℕ)
  | getPosition (file : ℕ)
  | read (file count pointer : ℕ)
  | close (file : ℕ)
  | allocatePool (type size : ℕ)
  | freePool (buffer : ℕ)
  | allocatePages (type memoryType pages address : ℕ)
  | freePages (address pages : ℕ)
  | getMemoryMap (size buffer : ℕ)
  | exitBootServices (image key : ℕ)
  | enterKernel (entry info stackTop : ℕ)
deriving DecidableEq

structure Output where
  status : ℕ
  value : ℕ
deriving Inhabited

/-- `data` are the bytes that `Read` stores from its pointer on. -/
structure ReadReply where
  status : ℕ
  count : ℕ
  data : ℕ → UInt8

instance : Inhabited ReadReply := ⟨⟨0, 0, fun _ => 0⟩⟩

structure MapReply where
  status : ℕ
  size : BitVec 64
  key : BitVec 64
  descriptorSize : BitVec 64
  descriptorVersion : BitVec 32
  data : ℕ → UInt8

instance : Inhabited MapReply := ⟨⟨0, 0, 0, 0, 0, fun _ => 0⟩⟩

abbrev Service.Reply : Service → Type
  | .locateProtocol _ | .handleProtocol _ _ | .serialWrite _ _ | .openVolume _ | .openFile _ _ _ _
  | .getPosition _ | .allocatePool _ _ | .allocatePages _ _ _ _ => Output
  | .read _ _ _ => ReadReply
  | .getMemoryMap _ _ => MapReply
  | .enterKernel _ _ _ => Unit
  | _ => ℕ

structure Call where
  service : Service
  memory : Memory

abbrev Call.Reply (c : Call) : Type := c.service.Reply

abbrev Loader := Tree Call Call.Reply

abbrev Trace := List (Exchange Call Call.Reply)

def ask (service : Service) (m : Memory) : Loader service.Reply := Tree.call (Call.mk service m)

section Ask

variable {α : Type} {service : Service} {m : Memory} {g : service.Reply → Loader α} {t : Trace}

theorem returns_ask_bind {a : α} :
    Returns (ask service m >>= g) t a ↔ ∃ r t', t = ⟨⟨service, m⟩, r⟩ :: t' ∧ Returns (g r) t' a := returns_call_bind

theorem safe_ask_bind {ok : Trace → Call → Prop} {out : Trace → α → Prop} :
    Safe ok out t (ask service m >>= g) ↔
      ok t ⟨service, m⟩ ∧ ∀ r, Safe ok out (t ++ [⟨⟨service, m⟩, r⟩]) (g r) := safe_call_bind

end Ask

def put (m : Memory) (a n : ℕ) (data : ℕ → UInt8) : Memory :=
  fun x => if a ≤ x ∧ x < a + n then data (x - a) else m x

/-! ## boot/load.c -/

/-- `place_kernel` from the buffer at `data`. -/
def placeKernelCall (m : Memory) (data size : ℕ) (kernel : LoadedKernel) : Loader (ℕ × LoadedKernel × Memory) :=
  if size < sizeofHeader then pure (efiLoadError, kernel, m) else
  let header := headerAt m data
  if !(validElfHeader header size).value then pure (efiLoadError, kernel, m) else
  match (inspectSegments m data header size).value with
  | .error status => pure (status, kernel, m)
  | .ok range => do
    let pages := Word64.sub range.stop range.base / 4096
    let a ← ask (.allocatePages 2 1 pages range.base) m
    if efiError (Output.status a) then pure (Output.status a, kernel, m) else
      let m := (copySegments m data range).value
      pure (efiSuccess, ⟨Output.value a, pages, (headerAt m data).entry⟩, m)

/-- The loop of `read_entire_file`, `total` bytes having been read. -/
def readFrom (file buffer length total : ℕ) (m : Memory) : Loader (ℕ × Memory) :=
  if _h : total < length then do
    let r : ReadReply ← ask (.read file (length - total) (buffer + total)) m
    if efiError r.status then pure (r.status, m) else
      if _h' : r.count = 0 ∨ r.count > length - total then pure (efiLoadError, m) else
        readFrom file buffer length (total + r.count) (put m (buffer + total) r.count r.data)
  else pure (efiSuccess, m)
termination_by length - total

def readEntireFile (file buffer length : ℕ) (m : Memory) : Loader (ℕ × Memory) := readFrom file buffer length 0 m

/-- `if (pointer) ...`, the result being ignored. -/
def unlessNull (pointer : ℕ) (service : Service) (m : Memory) : Loader Unit :=
  if pointer != 0 then do
    let _ ← ask service m
    pure ()
  else pure ()

/-- The label `cleanup` of `load_kernel`. -/
def cleanup (root file buffer status : ℕ) (kernel : LoadedKernel) (m : Memory) : Loader (ℕ × LoadedKernel × Memory) := do
  unlessNull buffer (.freePool buffer) m
  unlessNull file (.close file) m
  let _ ← ask (.close root) m
  pure (status, kernel, m)

/-- `load_kernel` once the file is open. -/
def loadFile (root file : ℕ) (kernel : LoadedKernel) (m : Memory) : Loader (ℕ × LoadedKernel × Memory) := do
  let status : ℕ ← ask (.setPosition file (Word64.size - 1)) m
  if efiError status then cleanup root file 0 status kernel m else
  let length : Output ← ask (.getPosition file) m
  if efiError length.status then cleanup root file 0 length.status kernel m else
  if length.value < sizeofHeader || length.value > 16 * 1024 * 1024 then
    cleanup root file 0 efiLoadError kernel m else
  let status : ℕ ← ask (.setPosition file 0) m
  if efiError status then cleanup root file 0 status kernel m else
  let buffer : Output ← ask (.allocatePool 2 length.value) m
  if efiError buffer.status then cleanup root file 0 buffer.status kernel m else
  let (status, m) ← readEntireFile file buffer.value length.value m
  if efiError status then cleanup root file buffer.value status kernel m else
  let (status, kernel, m) ← placeKernelCall m buffer.value length.value kernel
  cleanup root file buffer.value status kernel m

/-- `kernel` is what the caller's variable holds before. -/
def loadKernel (image : ℕ) (kernel : LoadedKernel) (m : Memory) : Loader (ℕ × LoadedKernel × Memory) := do
  let loaded : Output ← ask (.handleProtocol image .loadedImage) m
  if efiError loaded.status then pure (loaded.status, kernel, m) else
  let device := load m (loaded.value + 24) 8
  let fs : Output ← ask (.handleProtocol device .simpleFileSystem) m
  if efiError fs.status then pure (fs.status, kernel, m) else
  let root : Output ← ask (.openVolume fs.value) m
  if efiError root.status then pure (root.status, kernel, m) else
  let file : Output ← ask (.openFile root.value "\\kernel.elf" 1 0) m
  if efiError file.status then cleanup root.value 0 0 file.status kernel m else
  loadFile root.value file.value kernel m

/-! ## boot/main.c -/

structure SystemTable where
  stdErr : ℕ
  conOut : ℕ

def SystemTable.output (table : SystemTable) : ℕ := if table.stdErr != 0 then table.stdErr else table.conOut

def hex (value : ℕ) : String := String.ofList ((List.range 16).map fun i => Nat.digitChar (value >>> ((15 - i) * 4) &&& 15))

def reportTexts (operation : String) (status : ℕ) : List String :=
  "\r\nBOOT ERROR: " :: operation.toList.map Char.toString ++ [" status=0x" ++ hex status ++ "\r\n"]

def outputAll (output : ℕ) (m : Memory) : List String → Loader Unit
  | [] => pure ()
  | text :: texts => do
    let _ ← ask (.outputString output text) m
    outputAll output m texts

def reportError (table : SystemTable) (operation : String) (status : ℕ) (m : Memory) : Loader ℕ :=
  if table.output != 0 then do
    outputAll table.output m (reportTexts operation status)
    pure status
  else pure status

def handoffPages : ℕ := 35
def mapCapacity : ℕ := 16 * 4096

/-- The assignments of `allocate_handoff`, in their order. -/
def fillInfo (kernel : LoadedKernel) (info : ℕ) (m : Memory) : Memory :=
  let m := store m info (handoffPages * 4096) 0
  let m := store m info 8 bootInfoMagic
  let m := store m (info + 8) 4 bootInfoVersion
  let m := store m (info + 12) 4 sizeofBootInfo
  let m := store m (info + 16) 8 (Word64.add info 4096)
  let m := store m (info + 48) 8 kernel.base
  let m := store m (info + 56) 8 (Word64.mul kernel.pages 4096)
  let m := store m (info + 64) 8 (Word64.add (load m (info + 16) 8) (mapCapacity + 4096))
  store m (info + 72) 8 (16 * 4096)

/-- An error status, or the address of BOOT_INFO. -/
def allocateHandoff (kernel : LoadedKernel) (m : Memory) : Loader (Except ℕ ℕ × Memory) := do
  let base : Output ← ask (.allocatePages 0 2 handoffPages 0) m
  if efiError base.status then pure (.error base.status, m) else
  pure (.ok base.value, fillInfo kernel base.value m)

/-- How `start_kernel` ends: it returns, or spins with `boot_exit_failure` set, in this memory. -/
inductive Ending where
  | returned (status : ℕ)
  | spinning (bootExitFailure : ℕ) (memory : Memory)

/-- The fields that each successful `GetMemoryMap` sets. -/
def recordMap (info : ℕ) (r : MapReply) (m : Memory) : Memory :=
  let m := store m (info + 24) 8 r.size.toNat
  let m := store m (info + 32) 8 r.descriptorSize.toNat
  store m (info + 40) 4 r.descriptorVersion.toNat

def setFlags (info : ℕ) (m : Memory) : Memory := store m (info + 80) 8 bootServicesExited

/-- The loop of `start_kernel` with `left` attempts to go, the last status being `status`. -/
def attempts (image : ℕ) (table : SystemTable) (kernel : LoadedKernel) (info : ℕ) : ℕ → ℕ → Memory → Loader Ending
  | 0, status, m => pure (.spinning status m)
  | left + 1, _, m => do
    let buffer := load m (info + 16) 8
    let r : MapReply ← ask (.getMemoryMap mapCapacity buffer) m
    if efiError r.status then
      if left == 7 then
        let _ ← ask (.freePages info handoffPages) m
        let _ ← ask (.freePages kernel.base kernel.pages) m
        let status ← reportError table "GetMemoryMap" r.status m
        pure (.returned status)
      else pure (.spinning r.status m)
    else
      let m := recordMap info r (put m buffer (min r.size.toNat mapCapacity) r.data)
      let status : ℕ ← ask (.exitBootServices image r.key.toNat) m
      if status = efiSuccess then
        let m := setFlags info m
        let top := Word64.add (load m (info + 64) 8) (load m (info + 72) 8)
        let _ ← ask (.enterKernel kernel.entry info top) m
        pure (.spinning efiLoadError m)
      else if status ≠ efiInvalidParameter then pure (.spinning status m)
      else attempts image table kernel info left status m

def startKernel (image : ℕ) (table : SystemTable) (kernel : LoadedKernel) (m : Memory) : Loader Ending := do
  let (r, m) ← allocateHandoff kernel m
  match r with
  | .error status =>
    let _ ← ask (.freePages kernel.base kernel.pages) m
    let status ← reportError table "AllocatePages(boot information)" status m
    pure (.returned status)
  | .ok info => attempts image table kernel info 8 efiSuccess m

def banner : String :=
  "\r\nBOOT: UEFI x86_64 C entry\r\n" ++
  "BOOT: EFI_SERIAL_IO_PROTOCOL via LocateProtocol\r\n" ++
  "BOOT: serial ready (115200 8N1)\r\n" ++
  "BOOT: loading kernel.elf\r\n"

def entryText (entry : ℕ) : String := "BOOT: kernel entry=0x" ++ hex entry ++ "\r\n"

def reportAndReturn (table : SystemTable) (operation : String) (status : ℕ) (m : Memory) : Loader Ending := do
  let status ← reportError table operation status m
  pure (.returned status)

/-- The part of `efi_main` after the serial port is set up. -/
def loadAndStart (image : ℕ) (table : SystemTable) (serial : ℕ) (kernel : LoadedKernel) (m : Memory) : Loader Ending := do
  let (status, kernel, m) ← loadKernel image kernel m
  if efiError status then reportAndReturn table "load kernel.elf" status m else
  let text := entryText kernel.entry
  let written : Output ← ask (.serialWrite serial text) m
  if efiError written.status || written.value != text.length then
    let _ ← ask (.freePages kernel.base kernel.pages) m
    reportAndReturn table "Serial IO Write" (if efiError written.status then written.status else efiDeviceError) m
  else startKernel image table kernel m

/-- `kernel` stands for the local variable that `load_kernel` fills in. -/
def efiMain (image : ℕ) (table : SystemTable) (kernel : LoadedKernel) (m : Memory) : Loader Ending := do
  let status : ℕ ← ask (.setWatchdogTimer 0 0 0 0) m
  if efiError status then reportAndReturn table "SetWatchdogTimer" status m else
  let serial : Output ← ask (.locateProtocol .serialIo) m
  if efiError serial.status then reportAndReturn table "LocateProtocol(Serial IO)" serial.status m else
  if serial.value == 0 then reportAndReturn table "LocateProtocol(Serial IO)" efiDeviceError m else
  let status : ℕ ← ask (.setAttributes serial.value 115200 0 10000 1 8 1) m
  if efiError status then reportAndReturn table "Serial IO SetAttributes" status m else
  let written : Output ← ask (.serialWrite serial.value banner) m
  let status := if !efiError written.status && written.value != banner.length then efiDeviceError else written.status
  if efiError status then reportAndReturn table "Serial IO Write" status m else
  loadAndStart image table serial.value kernel m

end OsByAi.LoaderModel
