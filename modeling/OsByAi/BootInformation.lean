import OsByAi.ByteMemory
import OsByAi.Word64

set_option autoImplicit false

/-!
# BOOT_INFO and the firmware memory map

Both live in physical memory, so a reader sees whatever the bytes hold when it
looks. Pointers are addresses and the null pointer is `0`.
-/
namespace OsByAi.BootInformation
open ByteMemory

def bootInfoMagic : ℕ := 0x4f5342494e464f31
def bootInfoVersion : ℕ := 2
def bootServicesExited : ℕ := 1
def sizeofBootInfo : ℕ := 88
def sizeofDescriptor : ℕ := 40

structure BootInfo where
  magic : ℕ
  version : ℕ
  size : ℕ
  memoryMap : ℕ
  memoryMapSize : ℕ
  descriptorSize : ℕ
  descriptorVersion : ℕ
  reserved : ℕ
  kernelBase : ℕ
  kernelSize : ℕ
  stackBase : ℕ
  stackSize : ℕ
  flags : ℕ
deriving DecidableEq, Repr

/-- `*info`, field by field at the offsets of the ABI. -/
def bootInfoAt (m : Memory) (info : ℕ) : BootInfo where
  magic := load m info 8
  version := load m (info + 8) 4
  size := load m (info + 12) 4
  memoryMap := load m (info + 16) 8
  memoryMapSize := load m (info + 24) 8
  descriptorSize := load m (info + 32) 8
  descriptorVersion := load m (info + 40) 4
  reserved := load m (info + 44) 4
  kernelBase := load m (info + 48) 8
  kernelSize := load m (info + 56) 8
  stackBase := load m (info + 64) 8
  stackSize := load m (info + 72) 8
  flags := load m (info + 80) 8

/-- The fields of BOOT_MEMORY_DESCRIPTOR that the kernel reads. -/
structure Descriptor where
  type : ℕ
  physicalStart : ℕ
  numberOfPages : ℕ
  attributes : ℕ
deriving DecidableEq, Repr

def descriptorAt (m : Memory) (a : ℕ) : Descriptor where
  type := load m a 4
  physicalStart := load m (a + 8) 8
  numberOfPages := load m (a + 24) 8
  attributes := load m (a + 32) 8

/-- `attributes & (1 << 63)`: EFI_MEMORY_RUNTIME. -/
def Descriptor.runtime (d : Descriptor) : Bool := d.attributes &&& 2 ^ 63 != 0

/-- `attributes & 8`: EFI_MEMORY_WB. -/
def Descriptor.writeBack (d : Descriptor) : Bool := d.attributes &&& 2 ^ 3 != 0

/-- `physical_start + number_of_pages * 4096`, as the code computes it. -/
def Descriptor.limit (d : Descriptor) : ℕ :=
  Word64.add d.physicalStart (Word64.mul d.numberOfPages 4096)

theorem bootInfoAt_congr {m m' : Memory} {info : ℕ}
    (h : ∀ a, info ≤ a → a < info + sizeofBootInfo → m' a = m a) :
    bootInfoAt m' info = bootInfoAt m info := by
  have field : ∀ o n, o + n ≤ sizeofBootInfo → load m' (info + o) n = load m (info + o) n :=
    fun o n hn => load_congr fun x hx hlt => h x (by omega) (by omega)
  have first := field 0 8 (by decide)
  rw [Nat.add_zero] at first
  unfold bootInfoAt
  rw [first, field 8 4 (by decide), field 12 4 (by decide), field 16 8 (by decide),
    field 24 8 (by decide), field 32 8 (by decide), field 40 4 (by decide), field 44 4 (by decide),
    field 48 8 (by decide), field 56 8 (by decide), field 64 8 (by decide), field 72 8 (by decide),
    field 80 8 (by decide)]

theorem descriptorAt_congr {m m' : Memory} {a : ℕ}
    (h : ∀ x, a ≤ x → x < a + sizeofDescriptor → m' x = m x) :
    descriptorAt m' a = descriptorAt m a := by
  have field : ∀ o n, o + n ≤ sizeofDescriptor → load m' (a + o) n = load m (a + o) n :=
    fun o n hn => load_congr fun x hx hlt => h x (by omega) (by omega)
  have first := field 0 4 (by decide)
  rw [Nat.add_zero] at first
  unfold descriptorAt
  rw [first, field 8 8 (by decide), field 24 8 (by decide), field 32 8 (by decide)]

end OsByAi.BootInformation
