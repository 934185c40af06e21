import OsByAi.LoaderModel

set_option autoImplicit false

namespace OsByAi.LoaderInfo
open ByteMemory BootInformation ElfModel LoaderModel

/-- The fields that `allocate_handoff` sets; the others are zero. -/
def freshInfo (kernel : LoadedKernel) (info : ℕ) : BootInfo where
  magic := bootInfoMagic
  version := bootInfoVersion
  size := sizeofBootInfo
  memoryMap := Word64.add info 4096
  memoryMapSize := 0
  descriptorSize := 0
  descriptorVersion := 0
  reserved := 0
  kernelBase := kernel.base % Word64.size
  kernelSize := Word64.mul kernel.pages 4096
  stackBase := Word64.add (Word64.add info 4096) (mapCapacity + 4096)
  stackSize := 16 * 4096
  flags := 0

def BootInfo.withMap (b : BootInfo) (r : MapReply) : BootInfo :=
  { b with
    memoryMapSize := r.size.toNat
    descriptorSize := r.descriptorSize.toNat
    descriptorVersion := r.descriptorVersion.toNat }

section Fields

variable {m : Memory} {info : ℕ}

theorem load_store_mod (m : Memory) (a n v : ℕ) : load (store m a n v) a n = v % 256 ^ n := by
  induction n generalizing m a v with
  | zero => simp [load, Nat.mod_one]
  | succ n ih =>
    rw [load, store, ih, store_of_outside _ _ _ _ _ (by omega), Function.update_self, UInt8.toNat_ofNat',
      Nat.pow_succ 256 n, Nat.mul_comm (256 ^ n), Nat.mod_mul]

theorem bootInfoAt_recordMap (r : MapReply) (m : Memory) (info : ℕ) :
    bootInfoAt (recordMap info r m) info = BootInfo.withMap (bootInfoAt m info) r := by
  have hsize := r.size.isLt
  have hstride := r.descriptorSize.isLt
  have hversion := r.descriptorVersion.isLt
  have same : ∀ o n, (o + n ≤ 24 ∨ 44 ≤ o) → load (recordMap info r m) (info + o) n = load m (info + o) n := by
    intro o n h
    unfold recordMap
    rw [load_store_of_disjoint _ _ _ _ _ _ (by omega), load_store_of_disjoint _ _ _ _ _ _ (by omega),
      load_store_of_disjoint _ _ _ _ _ _ (by omega)]
  have first := same 0 8 (by decide)
  rw [Nat.add_zero] at first
  have h24 : load (recordMap info r m) (info + 24) 8 = r.size.toNat := by
    unfold recordMap
    rw [load_store_of_disjoint _ _ _ _ _ _ (by omega), load_store_of_disjoint _ _ _ _ _ _ (by omega),
      load_store_same _ _ _ _ (by omega)]
  have h32 : load (recordMap info r m) (info + 32) 8 = r.descriptorSize.toNat := by
    unfold recordMap
    rw [load_store_of_disjoint _ _ _ _ _ _ (by omega), load_store_same _ _ _ _ (by omega)]
  have h40 : load (recordMap info r m) (info + 40) 4 = r.descriptorVersion.toNat := by
    unfold recordMap
    rw [load_store_same _ _ _ _ (by omega)]
  simp only [bootInfoAt, BootInfo.withMap, first, same 8 4 (by decide), same 12 4 (by decide), same 16 8 (by decide),
    h24, h32, h40, same 44 4 (by decide), same 48 8 (by decide), same 56 8 (by decide), same 64 8 (by decide),
    same 72 8 (by decide), same 80 8 (by decide)]

theorem bootInfoAt_setFlags (m : Memory) (info : ℕ) :
    bootInfoAt (setFlags info m) info = { bootInfoAt m info with flags := bootServicesExited } := by
  have same : ∀ o n, o + n ≤ 80 → load (setFlags info m) (info + o) n = load m (info + o) n := by
    intro o n h
    unfold setFlags
    rw [load_store_of_disjoint _ _ _ _ _ _ (by omega)]
  have first := same 0 8 (by decide)
  rw [Nat.add_zero] at first
  have h80 : load (setFlags info m) (info + 80) 8 = bootServicesExited := by
    unfold setFlags
    rw [load_store_same _ _ _ _ (by decide)]
  simp only [bootInfoAt, first, same 8 4 (by decide), same 12 4 (by decide), same 16 8 (by decide), same 24 8 (by decide),
    same 32 8 (by decide), same 40 4 (by decide), same 44 4 (by decide), same 48 8 (by decide), same 56 8 (by decide),
    same 64 8 (by decide), same 72 8 (by decide), h80]

/-- The buffer for the map does not meet BOOT_INFO, even where the addition wraps. -/
theorem mapBuffer_apart {info n x : ℕ} (hn : n ≤ mapCapacity)
    (hx : info ≤ x ∧ x < info + sizeofBootInfo) : ¬ (Word64.add info 4096 ≤ x ∧ x < Word64.add info 4096 + n) := by
  unfold Word64.add Word64.size at *
  unfold sizeofBootInfo at hx
  unfold mapCapacity at hn
  omega

theorem bootInfoAt_put {n : ℕ} (hn : n ≤ mapCapacity) (data : ℕ → UInt8) :
    bootInfoAt (put m (Word64.add info 4096) n data) info = bootInfoAt m info :=
  bootInfoAt_congr fun _ hlo hhi => if_neg (mapBuffer_apart hn ⟨hlo, hhi⟩)

theorem bootInfoAt_fillInfo (kernel : LoadedKernel) (info : ℕ) (m : Memory) :
    bootInfoAt (fillInfo kernel info m) info = freshInfo kernel info := by
  have hzero : ∀ o n, o + n ≤ sizeofBootInfo → load (store m info (handoffPages * 4096) 0) (info + o) n = 0 := by
    intro o n h
    refine load_zero fun x hlo hhi => store_zero _ _ _ _ ?_
    unfold sizeofBootInfo at h
    unfold handoffPages
    omega
  unfold fillInfo
  generalize store m info (handoffPages * 4096) 0 = c at hzero ⊢
  have hmap : load (store (store (store (store (store (store c info 8 bootInfoMagic) (info + 8) 4 bootInfoVersion)
      (info + 12) 4 sizeofBootInfo) (info + 16) 8 (Word64.add info 4096)) (info + 48) 8 kernel.base)
      (info + 56) 8 (Word64.mul kernel.pages 4096)) (info + 16) 8 = Word64.add info 4096 := by
    rw [load_store_of_disjoint _ _ _ _ _ _ (by omega), load_store_of_disjoint _ _ _ _ _ _ (by omega),
      load_store_same _ _ _ _ (Word64.add_lt _ _)]
  have h24 := hzero 24 8 (by decide)
  have h32 := hzero 32 8 (by decide)
  have h40 := hzero 40 4 (by decide)
  have h44 := hzero 44 4 (by decide)
  have h80 := hzero 80 8 (by decide)
  simp only [hmap]
  simp (disch := omega) only [bootInfoAt, freshInfo, load_store_of_disjoint, load_store_mod, h24, h32, h40, h44, h80]
  rw [Nat.mod_eq_of_lt (show bootInfoMagic < 256 ^ 8 by decide), Nat.mod_eq_of_lt (show bootInfoVersion < 256 ^ 4 by decide),
    Nat.mod_eq_of_lt (show sizeofBootInfo < 256 ^ 4 by decide), Nat.mod_eq_of_lt (show 16 * 4096 < 256 ^ 8 by decide),
    Nat.mod_eq_of_lt (show Word64.add info 4096 < 256 ^ 8 from Word64.add_lt _ _),
    Nat.mod_eq_of_lt (show Word64.mul kernel.pages 4096 < 256 ^ 8 from Nat.mod_lt _ (by decide)),
    Nat.mod_eq_of_lt (show Word64.add (Word64.add info 4096) (mapCapacity + 4096) < 256 ^ 8 from Word64.add_lt _ _),
    show 256 ^ 8 = Word64.size by decide]

end Fields

end OsByAi.LoaderInfo
