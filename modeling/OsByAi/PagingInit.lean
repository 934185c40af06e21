import OsByAi.PagingBuild

set_option autoImplicit false

namespace OsByAi.PagingInit
open ByteMemory PackedBitmap BootInformation PmmModel PmmInvariant PmmBootMap
open PagingModel PagingEntries PagingTree PagingWalk PagingGrowth PagingBuild RadixTree

/-- The page manager's sets and the memory outside them are the same. -/
structure MemFrame (s s' : Machine) : Prop where
  ready : s'.pmm.ready = s.pmm.ready
  eligible : s'.pmm.eligible = s.pmm.eligible
  total : s'.pmm.totalPages = s.pmm.totalPages
  mem : ∀ x, bit s.pmm.eligible (x / 4096) = false → s'.mem x = s.mem x

theorem MemFrame.trans {s t u : Machine} (h : MemFrame s t) (h' : MemFrame t u) : MemFrame s u where
  ready := h'.ready.trans h.ready
  eligible := h'.eligible.trans h.eligible
  total := h'.total.trans h.total
  mem x hx := (h'.mem x (by rw [h.eligible]; exact hx)).trans (h.mem x hx)

theorem Frame.memFrame {s s' : Machine} (h : Frame s s') : MemFrame s s' :=
  ⟨h.ready, h.eligible, h.total, h.mem⟩

/-- The page manager was initialised from the BOOT_INFO at `info`, which is still there. -/
structure BootOk (s : Machine) (info : ℕ) : Prop where
  valid : ValidMap s.mem info
  eligible : s.pmm.eligible = bootEligible s.mem info

namespace BootOk

variable {s s' : Machine} {info : ℕ}

theorem keepsBoot (h : BootOk s info) (hf : MemFrame s s') : KeepsBoot s.mem s'.mem info := by
  intro a ha
  apply hf.mem
  rw [h.eligible]
  exact ha

theorem frame (h : BootOk s info) (hf : MemFrame s s') : BootOk s' info where
  valid := validMap_stable h.valid (h.keepsBoot hf)
  eligible := by
    rw [hf.eligible, h.eligible, bootEligible_stable h.valid (h.keepsBoot hf)]

theorem bootInfo_eq (h : BootOk s info) (hf : MemFrame s s') :
    bootInfoAt s'.mem info = bootInfoAt s.mem info := bootInfoAt_stable h.valid (h.keepsBoot hf)

end BootOk

/-- Address `v` is mapped by one of the first `k` descriptors. -/
def RamBelow (m : Memory) (info k v : ℕ) : Prop :=
  ∃ i, i < k ∧ Mappable (descriptor m info i) ∧ Clipped (descriptor m info i) v

/-- Boot RAM between 1 MiB and 4 GiB: types 1, 2 and 7 without the runtime attribute. -/
def BootRam (m : Memory) (info v : ℕ) : Prop := RamBelow m info (mapCount m info) v

def AllWriteBack (m : Memory) (info : ℕ) : Prop :=
  ∀ i, i < mapCount m info → WriteBackOk (descriptor m info i)

section Loop

variable {L : Layout} {s s0 : Machine} {held : Finset ℕ} {info : ℕ}

theorem mapSize_eq (h : ValidMap s0.mem info) :
    (bootInfoAt s0.mem info).memoryMapSize =
      mapCount s0.mem info * (bootInfoAt s0.mem info).descriptorSize := by
  obtain ⟨-, -, hmod, -⟩ := header_fields h.header
  rw [mapCount, Nat.div_mul_cancel (Nat.dvd_of_mod_eq_zero hmod)]

theorem mapCount_lt (h : ValidMap s0.mem info) : mapCount s0.mem info < 65537 := by
  obtain ⟨hd, hsize, -⟩ := header_fields h.header
  have hle : mapCount s0.mem info ≤ (bootInfoAt s0.mem info).memoryMapSize := Nat.div_le_self _ _
  omega

theorem offset_lt (h : ValidMap s0.mem info) {i : ℕ} (hi : i < mapCount s0.mem info) :
    i * (bootInfoAt s0.mem info).descriptorSize < (bootInfoAt s0.mem info).memoryMapSize := by
  have hd := (header_fields h.header).1
  unfold sizeofDescriptor at hd
  rw [mapSize_eq h]
  exact Nat.mul_lt_mul_of_pos_right hi (by omega)

theorem descriptor_read (hb : BootOk s0 info) (hf : MemFrame s0 s) {i : ℕ} (hi : i < mapCount s0.mem info) :
    descriptorAt s.mem (Word64.add (bootInfoAt s0.mem info).memoryMap
      (i * (bootInfoAt s0.mem info).descriptorSize)) = descriptor s0.mem info i := by
  have hoff := offset_lt hb.valid hi
  have hmul : Word64.mul i (bootInfoAt s0.mem info).descriptorSize =
      i * (bootInfoAt s0.mem info).descriptorSize := by
    have := (header_fields hb.valid.header).2.1
    apply Word64.mul_eq
    unfold Word64.size
    omega
  rw [← descriptor_stable hb.valid (hb.keepsBoot hf) hi, descriptor, hb.bootInfo_eq hf, hmul]

theorem offset_next (hb : BootOk s0 info) {i : ℕ} (hi : i < mapCount s0.mem info) :
    Word64.add (i * (bootInfoAt s0.mem info).descriptorSize) (bootInfoAt s0.mem info).descriptorSize =
      (i + 1) * (bootInfoAt s0.mem info).descriptorSize := by
  have hfit : (i + 1) * (bootInfoAt s0.mem info).descriptorSize ≤ (bootInfoAt s0.mem info).memoryMapSize := by
    rw [mapSize_eq hb.valid]
    exact Nat.mul_le_mul_right _ hi
  have hsize := (header_fields hb.valid.header).2.1
  rw [Nat.add_mul, Nat.one_mul] at *
  apply Word64.add_eq
  unfold Word64.size
  omega

theorem mapBootRamFrom_outcome (hb : BootOk s0 info) (fuel i : ℕ) (hf : MemFrame s0 s)
    (hfuel : mapCount s0.mem info < i + fuel) (hi : i ≤ mapCount s0.mem info)
    (h : Built L s held (RamBelow s0.mem info i)) :
    Outcome L s (mapBootRamFrom L info fuel (i * (bootInfoAt s0.mem info).descriptorSize) s) held
      (BootRam s0.mem info) (¬ Ample s held ∨ ¬ AllWriteBack s0.mem info) := by
  induction fuel generalizing s i with
  | zero => omega
  | succ fuel ih =>
    rw [mapBootRamFrom_succ]
    simp only [hb.bootInfo_eq hf]
    by_cases hlt : i < mapCount s0.mem info
    · rw [if_pos (offset_lt hb.valid hlt), descriptor_read hb hf hlt]
      have hone := mapDescriptor_outcome h (hb.valid.descriptor_valid hlt)
        (descriptorAt_start_lt _ _)
      cases hres : mapDescriptor L (descriptor s0.mem info i) s with
      | mk ok s' =>
        rw [hres] at hone
        have hf' : MemFrame s0 s' := hf.trans (Frame.memFrame hone.frame)
        have hwhy : ¬ WriteBackOk (descriptor s0.mem info i) → ¬ AllWriteBack s0.mem info :=
          fun hno hall => hno (hall i hlt)
        cases ok with
        | false =>
          refine ⟨hone.frame, hone.tree, fun hc => absurd hc (by simp), fun _ => ?_⟩
          exact (hone.failed rfl).imp_right hwhy
        | true =>
          have hbuilt : Built L s' held (RamBelow s0.mem info (i + 1)) := by
            refine (hone.done rfl).congr fun v _ _ => ?_
            constructor
            · rintro ⟨j, hj, hm, hc⟩
              by_cases hji : j = i
              · subst hji
                exact .inr ⟨hm, hc⟩
              · exact .inl ⟨j, by omega, hm, hc⟩
            · rintro (⟨j, hj, hm, hc⟩ | ⟨hm, hc⟩)
              · exact ⟨j, by omega, hm, hc⟩
              · exact ⟨i, by omega, hm, hc⟩
          have hrest := ih (i + 1) hf' (by omega) hlt hbuilt
          simp only [hb.bootInfo_eq hf', offset_next hb hlt]
          refine ⟨hone.frame.trans hrest.frame, hrest.tree, hrest.done, fun hno => ?_⟩
          exact (hrest.failed hno).imp_left fun hna ha => hna ((Frame.ample hone.frame).mpr ha)
    · have heq : i = mapCount s0.mem info := by omega
      rw [if_neg (by rw [mapSize_eq hb.valid, heq]; exact lt_irrefl _)]
      refine ⟨Frame.refl s, h.tree, fun _ => ?_, fun hc => absurd hc (by simp)⟩
      rw [heq] at h
      exact h

theorem mapBootRam_outcome (hb : BootOk s0 info) (hf : MemFrame s0 s)
    (h : Built L s held fun _ => False) :
    Outcome L s (mapBootRam L info s) held (BootRam s0.mem info)
      (¬ Ample s held ∨ ¬ AllWriteBack s0.mem info) := by
  have hempty : Built L s held (RamBelow s0.mem info 0) :=
    h.congr fun v _ _ => by simp [RamBelow]
  have := mapBootRamFrom_outcome hb 65537 0 hf (by have := mapCount_lt hb.valid; omega)
    (Nat.zero_le _) hempty
  rw [Nat.zero_mul] at this
  exact this

end Loop

section Checks

variable {L : Layout} {s : Machine} {held : Finset ℕ} {S : ℕ → Prop}

theorem Built.walkMapped_iff (h : Built L s held S) {v : ℕ} (hv : v % 4096 = 0) (hlt : v < 2 ^ 48) :
    walkMapped s v tableShifts s.pagingRoot = true ↔ S v := by
  rw [h.tree.root_eq, PagingWalk.walkMapped_iff h.tree tableShifts (node_nil s) rfl]
  change leafOf s v % 2 = 1 ∧ leafOf s v &&& addressMask = v ↔ S v
  constructor
  · intro hc
    by_contra hno
    rw [h.unmapped v hv hlt hno] at hc
    exact absurd hc.1 (by decide)
  · intro hS
    rw [h.mapped v hv hlt hS]
    refine ⟨leafEntry_mod_two _ _ _, ?_⟩
    rw [identityEntry, leafEntry_mask (by omega)]
    omega

/-- The pages of `[base, base + size)` are boot RAM below 4 GiB and in the set `S`. -/
structure InSet (S : ℕ → Prop) (base size : ℕ) : Prop where
  nonempty : size ≠ 0
  low : 0x100000 ≤ base
  high : base + size ≤ pmmLimit
  pages : ∀ v, v % 4096 = 0 → 4096 * (base / 4096) ≤ v → v < base + size → S v

theorem mappedRange_iff_walks (s : Machine) {base size : ℕ} (hb : base < Word64.size) :
    mappedRange s base size = true ↔ InSet (fun v => walkMapped s v tableShifts s.pagingRoot = true) base size := by
  unfold mappedRange
  split
  · rename_i hguard
    constructor
    · exact fun hc => absurd hc (by simp)
    · rintro ⟨hne, hlow, hhigh, -⟩
      simp [hne] at hguard
      omega
  · rename_i hguard
    simp only [Bool.or_eq_true, beq_iff_eq, decide_eq_true_eq, not_or, Nat.not_lt, ge_iff_le,
      Nat.not_le, gt_iff_lt] at hguard
    obtain ⟨⟨⟨hne, hlow⟩, hlim⟩, hsize⟩ := hguard
    have hstop : Word64.add base size = base + size := by
      apply Word64.add_eq
      unfold pmmLimit at *
      unfold Word64.size
      omega
    simp only [Word64.and_page hb, hstop, List.all_eq_true, List.mem_range]
    constructor
    · intro hall
      refine ⟨hne, hlow, by omega, ?_⟩
      intro v hv hlo hhi
      have hk := hall ((v - 4096 * (base / 4096)) / 4096) (by omega)
      rw [show 4096 * (base / 4096) + 4096 * ((v - 4096 * (base / 4096)) / 4096) = v by omega] at hk
      exact hk
    · rintro ⟨-, -, hhigh, hpages⟩ k hk
      exact hpages _ (by omega) (by omega) (by omega)

theorem InSet.imp {S T : ℕ → Prop} {base size : ℕ} (h : InSet S base size)
    (hST : ∀ v, v % 4096 = 0 → v < 2 ^ 32 → S v → T v) : InSet T base size := by
  refine ⟨h.nonempty, h.low, h.high, fun v hv hlo hhi => ?_⟩
  have hhigh := h.high
  unfold pmmLimit at hhigh
  exact hST v hv (by omega) (h.pages v hv hlo hhi)

theorem Built.mappedRange_iff (h : Built L s held S) {base size : ℕ} (hb : base < Word64.size) :
    mappedRange s base size = true ↔ InSet S base size := by
  rw [mappedRange_iff_walks s hb]
  constructor
  · exact fun hin => hin.imp fun v hv hlt => (Built.walkMapped_iff h hv (by omega)).mp
  · exact fun hin => hin.imp fun v hv hlt => (Built.walkMapped_iff h hv (by omega)).mpr

def Without (S : ℕ → Prop) (guards : List ℕ) (v : ℕ) : Prop := S v ∧ ∀ g ∈ guards, v ≠ 4096 * (g / 4096)

/-- Each guard is mapped when its turn comes. -/
def GuardsOk (S : ℕ → Prop) : List ℕ → Prop
  | [] => True
  | g :: gs => InSet S g 4096 ∧ GuardsOk (Without S [g]) gs

theorem upper_page (g : ℕ) : upper g = upper (4096 * (g / 4096)) ∧
    pageIndex g 12 = pageIndex (4096 * (g / 4096)) 12 := by
  have index : ∀ shift, 12 ≤ shift → pageIndex g shift = pageIndex (4096 * (g / 4096)) shift := by
    intro shift hs
    apply Fin.ext
    change g / 2 ^ shift % 512 = 4096 * (g / 4096) / 2 ^ shift % 512
    obtain ⟨k, rfl⟩ := Nat.exists_eq_add_of_le hs
    rw [Nat.pow_add, ← Nat.div_div_eq_div_mul, ← Nat.div_div_eq_div_mul, show (2 : ℕ) ^ 12 = 4096 from rfl,
      Nat.mul_div_cancel_left _ (by decide)]
  refine ⟨?_, index 12 (le_refl _)⟩
  rw [upper, upper, indices, indices]
  apply List.map_congr_left
  intro shift hs
  simp only [tableShifts, List.mem_cons, List.not_mem_nil, or_false] at hs
  exact index shift (by omega)

theorem unmapGuards_outcome (gs : List ℕ) (h : Built L s held S) (hgs : ∀ g ∈ gs, g < Word64.size) :
    Outcome L s (unmapGuards gs s) held (Without S gs) (¬ GuardsOk S gs) ∧
      ((unmapGuards gs s).1 = true → GuardsOk S gs) := by
  induction gs generalizing s S with
  | nil =>
    refine ⟨⟨Frame.refl s, h.tree, fun _ => ?_, fun hc => absurd hc (by simp [unmapGuards])⟩,
      fun _ => trivial⟩
    exact h.congr fun v _ _ => by simp [Without]
  | cons g gs ih =>
    have hiff : mappedRange s g 4096 = true ↔ InSet S g 4096 :=
      Built.mappedRange_iff h (hgs g (by simp))
    rw [unmapGuards]
    cases hmap : mappedRange s g 4096 with
    | false =>
      have hno : ¬ InSet S g 4096 := by
        rw [← hiff, hmap]
        simp
      exact ⟨⟨Frame.refl s, h.tree, fun hc => absurd hc (by simp), fun _ hok => hno hok.1⟩,
        fun hc => absurd hc (by simp)⟩
    | true =>
      have hin := hiff.mp hmap
      have hhigh := hin.high
      unfold pmmLimit at hhigh
      obtain ⟨hup, hidx⟩ := upper_page g
      have hS : S (4096 * (g / 4096)) := hin.pages _ (by omega) (le_refl _) (by omega)
      have hleaf := h.mapped _ (by omega) (by omega) hS
      obtain ⟨m, hm⟩ : ∃ m, node s (upper (4096 * (g / 4096))) = some m := by
        apply node_of_leaf (i := pageIndex (4096 * (g / 4096)) 12)
        rw [← leafOf, hleaf]
        exact leafEntry_ne_zero _ _ _
      obtain ⟨n, htab, hn⟩ := leafTable_eq (v := g) h.tree tableShifts (node_nil s) rfl
        (by rw [List.nil_append, ← upper, hup, hm]; simp)
      have hn' : node s (upper (4096 * (g / 4096))) = some n := by
        rw [← hup]
        exact hn
      obtain ⟨hb, hf⟩ := h.write (Without S [g]) (v := 4096 * (g / 4096)) (by omega) (by omega) hn'
        (.inr ⟨fun hc => hc.2 g (by simp) rfl, rfl⟩) (fun w hne => by simp [Without, hne])
      have hslot : slot (leafTable s g tableShifts s.pagingRoot) g 12 =
          4096 * n + 8 * (pageIndex (4096 * (g / 4096)) 12).val := by
        rw [h.tree.root_eq, htab, slot_eq, hidx]
      simp only [Bool.not_true, Bool.false_eq_true, if_false, hslot]
      obtain ⟨hrest, hok⟩ := ih hb (fun x hx => hgs x (by simp [hx]))
      refine ⟨⟨hf.trans hrest.frame, hrest.tree, fun hc => ?_, fun hc hall => ?_⟩,
        fun hc => ⟨hin, hok hc⟩⟩
      · refine (hrest.done hc).congr fun v _ _ => ?_
        simp only [Without, List.mem_cons, List.not_mem_nil, or_false, forall_eq_or_imp, forall_eq]
        exact and_assoc.symm
      · exact hrest.failed hc hall.2

end Checks

/-- Between calls, before `paging_init` has succeeded: the only allocated pages are callers'. -/
structure Idle (s : Machine) (held : Finset ℕ) (info : ℕ) : Prop where
  pmm : Inv s.pmm
  count : s.pagingTableCount = 0
  inactive : s.active = false
  owned : ∀ page, bit s.pmm.allocated page = true ↔ page ∈ held
  boot : s.pmm.ready = true → BootOk s info

section Root

variable {L : Layout} {s : Machine} {held : Finset ℕ} {info c : ℕ}

def rooted (t : Machine) (root : ℕ) : Machine := { t with pagingRoot := root }

@[simp] theorem rooted_mem (t : Machine) (root : ℕ) : (rooted t root).mem = t.mem := rfl
@[simp] theorem rooted_pmm (t : Machine) (root : ℕ) : (rooted t root).pmm = t.pmm := rfl
@[simp] theorem rooted_count (t : Machine) (root : ℕ) :
    (rooted t root).pagingTableCount = t.pagingTableCount := rfl
@[simp] theorem rooted_active (t : Machine) (root : ℕ) : (rooted t root).active = t.active := rfl
@[simp] theorem rooted_cpu (t : Machine) (root : ℕ) : (rooted t root).cpu = t.cpu := rfl

theorem liveTables_rooted (t : Machine) (root : ℕ) : liveTables (rooted t root) = liveTables t := rfl

theorem rootFrame_rooted (t : Machine) (root : ℕ) : rootFrame (rooted t root) = root / 4096 := rfl

/-- The machine after `paging_root = new_table()` took page `c`. -/
def planted (s : Machine) (c : ℕ) : Machine := rooted (withTable s c) (4096 * c)

theorem planted_pmm (s : Machine) (c : ℕ) : (planted s c).pmm = takePage s.pmm c := by
  rw [planted, rooted_pmm, withTable_pmm]

theorem planted_memFrame (hf : IsFree s.pmm c) : MemFrame s (planted s c) where
  ready := by rw [planted_pmm, takePage]
  eligible := by rw [planted_pmm, takePage]
  total := by rw [planted_pmm, takePage]
  mem x hx := by
    rw [planted, rooted_mem, withTable_mem, if_neg]
    rintro rfl
    rw [hf.1] at hx
    exact absurd hx (by simp)

theorem planted_rootFrame (s : Machine) (c : ℕ) : rootFrame (planted s c) = c := by
  rw [planted, rootFrame_rooted, Nat.mul_div_cancel_left _ (by decide)]

theorem planted_nil (s : Machine) (c : ℕ) : node (planted s c) [] = some c := by rw [node_nil, planted_rootFrame]

theorem planted_entry (s : Machine) (c : ℕ) (i : Fin 512) : entryAt (planted s c) [] i = 0 := by
  rw [entryAt_of_node (planted_nil s c), planted, rooted_mem, tables_withTable, if_pos rfl]

theorem planted_node (s : Machine) (c : ℕ) {q : Path} (hq : q ≠ []) : node (planted s c) q = none := by
  cases q with
  | nil => exact absurd rfl hq
  | cons i q =>
    have hi : node (planted s c) [i] = none := by
      have hchild := node_concat (planted s c) [] i
      rw [planted_entry] at hchild
      exact hchild
    exact walk_none_below hi ⟨q, rfl⟩

theorem planted_node_iff {s : Machine} {p : Path} {n : ℕ} : node (planted s c) p = some n ↔ p = [] ∧ n = c := by
  by_cases hp : p = []
  · rw [hp, planted_nil, Option.some.injEq]
    exact ⟨fun he => ⟨rfl, he.symm⟩, fun he => he.2.symm⟩
  · rw [planted_node s c hp]
    exact ⟨fun he => absurd he (by simp), fun he => absurd he.1 hp⟩

theorem planted_entryAt (s : Machine) (c : ℕ) (p : Path) (i : Fin 512) : entryAt (planted s c) p i = 0 := by
  by_cases hp : p = []
  · rw [hp, planted_entry]
  · exact entryAt_of_none (planted_node s c hp) i

theorem planted_live (h : Idle s held info) : liveTables (planted s c) = [4096 * c] := by
  rw [planted, liveTables_rooted, liveTables_withTable, liveTables, h.count]
  rfl

theorem planted_owned (h : Idle s held info) (page : ℕ) :
    bit (planted s c).pmm.allocated page = true ↔ 4096 * page ∈ liveTables (planted s c) ∨ page ∈ held := by
  rw [planted_pmm, planted_live h, List.mem_singleton]
  simp only [takePage, bit_set, Bool.or_eq_true, decide_eq_true_eq, h.owned]
  constructor
  · rintro (rfl | hh)
    · exact .inl rfl
    · exact .inr hh
  · rintro (he | hh)
    · exact .inl (by omega)
    · exact .inr hh

theorem planted_disjoint (h : Idle s held info) (hf : IsFree s.pmm c) {page : ℕ} (hh : page ∈ held) :
    4096 * page ∉ liveTables (planted s c) := by
  intro hm
  rw [planted_live h, List.mem_singleton] at hm
  obtain rfl : page = c := by omega
  have hallocated := (h.owned page).mpr hh
  rw [hf.2] at hallocated
  exact absurd hallocated (by simp)

theorem planted_treeInv (h : Idle s held info) (hf : IsFree s.pmm c) (hmin : ∀ q, IsFree s.pmm q → c ≤ q) :
    TreeInv (planted s c) held where
  pmm := by
    rw [planted_pmm]
    exact h.pmm.take hf hmin
  root := by
    rw [planted, rooted]
    exact Nat.mul_mod_right _ _
  separated p q n _ _ hp hq := by
    rw [(planted_node_iff.mp hp).1, (planted_node_iff.mp hq).1]
  live a := by
    rw [planted_live h, List.mem_singleton]
    constructor
    · rintro rfl
      exact ⟨[], c, by simp, planted_nil s c, rfl⟩
    · rintro ⟨p, n, -, hn, rfl⟩
      rw [(planted_node_iff.mp hn).2]
  nodup := by
    rw [planted_live h]
    exact List.nodup_singleton _
  owned := planted_owned h
  disjoint _ := planted_disjoint h hf
  inner p i _ := .inl (planted_entryAt s c p i)
  leaf p i _ := .inl (planted_entryAt s c p i)
  budget := by
    rw [planted, rooted_count, withTable_count, h.count]
    decide

theorem planted_built (h : Idle s held info) (hf : IsFree s.pmm c)
    (hmin : ∀ q, IsFree s.pmm q → c ≤ q) : Built L (planted s c) held fun _ => False := by
  refine ⟨planted_treeInv h hf hmin, fun v _ _ hc => absurd hc (by simp), fun v _ _ _ => planted_entryAt _ _ _ _, ?_⟩
  intro q _ hsome
  by_cases hq : q = []
  · exact ⟨0, by decide, by rw [hq]; exact List.nil_prefix⟩
  · exact absurd (planted_node s c hq) hsome

/-- What is allocated is held or among the first `n` recorded tables. -/
structure Recorded (s : Machine) (n : ℕ) (held : Finset ℕ) : Prop where
  pmm : Inv s.pmm
  nodup : (SwapArray.contents s.tablePages n).Nodup
  aligned : ∀ a ∈ SwapArray.contents s.tablePages n, a % 4096 = 0
  owned : ∀ page, bit s.pmm.allocated page = true ↔
    4096 * page ∈ SwapArray.contents s.tablePages n ∨ page ∈ held
  disjoint : ∀ page ∈ held, 4096 * page ∉ SwapArray.contents s.tablePages n

theorem TreeInv.recorded (h : TreeInv s held) : Recorded s s.pagingTableCount held where
  pmm := h.pmm
  nodup := h.nodup
  aligned a ha := by
    obtain ⟨_, n, -, -, rfl⟩ := (h.live a).mp ha
    exact Nat.mul_mod_right _ _
  owned := h.owned
  disjoint := h.disjoint

theorem Recorded.last_eq {n : ℕ} (h : Recorded s (n + 1) held) : 4096 * (s.tablePages n / 4096) = s.tablePages n := by
  have hal := h.aligned (s.tablePages n) (by simp [SwapArray.contents_succ])
  omega

theorem Recorded.free_last {n : ℕ} (h : Recorded s (n + 1) held) :
    bit s.pmm.allocated (s.tablePages n / 4096) = true ∧
      (pmmFree s.pmm (s.tablePages n)).2 = givePage s.pmm (s.tablePages n / 4096) := by
  have hb : bit s.pmm.allocated (s.tablePages n / 4096) = true := by
    rw [h.owned, h.last_eq, SwapArray.contents_succ]
    simp
  refine ⟨hb, ?_⟩
  obtain ⟨-, hno⟩ | ⟨-, -, hf⟩ := h.pmm.free_cases (s.tablePages n)
  · have hal := h.last_eq
    exact absurd ⟨by omega, hb⟩ hno
  · rw [hf]

/-- Freeing the last recorded table leaves the others recorded. -/
theorem Recorded.pop {n : ℕ} (h : Recorded s (n + 1) held) {t : Machine} (htables : t.tablePages = s.tablePages)
    (hpmm : t.pmm = givePage s.pmm (s.tablePages n / 4096)) : Recorded t n held := by
  have hfour := h.last_eq
  obtain ⟨hinit, -, hapart⟩ := List.nodup_append.mp (SwapArray.contents_succ s.tablePages n ▸ h.nodup)
  have hlast : s.tablePages n ∉ SwapArray.contents s.tablePages n :=
    fun hm => hapart _ hm _ (List.mem_singleton_self _) rfl
  have hmem : ∀ a, a ∈ SwapArray.contents s.tablePages (n + 1) ↔
      a ∈ SwapArray.contents s.tablePages n ∨ a = s.tablePages n := by
    intro a
    rw [SwapArray.contents_succ, List.mem_append, List.mem_singleton]
  refine ⟨?_, ?_, ?_, ?_, ?_⟩
  · rw [hpmm]
    exact h.pmm.give h.free_last.1
  · rw [htables]
    exact hinit
  · rw [htables]
    exact fun a ha => h.aligned a ((hmem a).mpr (.inl ha))
  · intro page
    rw [hpmm, htables]
    simp only [givePage, bit_clear, Bool.and_eq_true, Bool.not_eq_true', decide_eq_false_iff_not, h.owned, hmem]
    constructor
    · rintro ⟨hne, (hm | he) | hh⟩
      · exact .inl hm
      · exact absurd (by omega) hne
      · exact .inr hh
    · rintro (hm | hh)
      · refine ⟨fun he => hlast ?_, .inl (.inl hm)⟩
        rw [he, hfour] at hm
        exact hm
      · refine ⟨fun he => h.disjoint page hh ?_, .inr hh⟩
        rw [he, hfour]
        exact (hmem _).mpr (.inr rfl)
  · rw [htables]
    exact fun page hh hm => h.disjoint page hh ((hmem _).mpr (.inl hm))

theorem discardFrom_spec (n : ℕ) (h : Recorded s n held) (hcount : s.pagingTableCount = n) :
    Inv (discardFrom n s).pmm ∧ (discardFrom n s).pagingTableCount = 0 ∧
      (∀ page, bit (discardFrom n s).pmm.allocated page = true ↔ page ∈ held) ∧
      MemFrame s (discardFrom n s) ∧ (discardFrom n s).active = s.active ∧
      (discardFrom n s).cpu = s.cpu := by
  induction n generalizing s with
  | zero =>
    refine ⟨h.pmm, hcount, ?_, ⟨rfl, rfl, rfl, fun _ _ => rfl⟩, rfl, rfl⟩
    intro page
    have howned := h.owned page
    simp only [SwapArray.contents, List.range_zero, List.map_nil, List.not_mem_nil, false_or] at howned
    exact howned
  | succ n ih =>
    rw [discardFrom]
    generalize ht : freePage { s with pagingTableCount := n } (s.tablePages n) = t
    have hpmm : t.pmm = givePage s.pmm (s.tablePages n / 4096) := by
      rw [← ht, ← h.free_last.2]
      rfl
    have hframe : MemFrame s t := by
      refine ⟨?_, ?_, ?_, fun x _ => by rw [← ht]; rfl⟩
      · rw [hpmm, givePage]
      · rw [hpmm, givePage]
      · rw [hpmm, givePage]
    obtain ⟨hinv, hnone, howned, hrest, hact, hcpu⟩ := ih (h.pop (by rw [← ht]; rfl) hpmm) (by rw [← ht]; rfl)
    exact ⟨hinv, hnone, howned, hframe.trans hrest, hact.trans (by rw [← ht]; rfl), hcpu.trans (by rw [← ht]; rfl)⟩

theorem discard_idle {s0 : Machine} (h0 : Idle s0 held info) (h : TreeInv s held)
    (hf : MemFrame s0 s) (hact : s.active = false) :
    Idle (discardPageTables s) held info ∧ MemFrame s0 (discardPageTables s) := by
  obtain ⟨hinv, hc, ho, hfr, ha, -⟩ := discardFrom_spec s.pagingTableCount (TreeInv.recorded h) rfl
  have hf' : MemFrame s0 (discardPageTables s) :=
    hf.trans ⟨hfr.ready, hfr.eligible, hfr.total, hfr.mem⟩
  refine ⟨⟨hinv, hc, ha.trans hact, ho, fun hr => ?_⟩, hf'⟩
  exact (h0.boot (by rw [← hf'.ready]; exact hr)).frame hf'

end Root

section Init

variable {L : Layout} {s : Machine} {held : Finset ℕ} {info : ℕ}

theorem eligible_inSet (hb : BootOk s info) {page : ℕ} (he : bit s.pmm.eligible page = true) :
    InSet (BootRam s.mem info) (4096 * page) 4096 := by
  rw [hb.eligible] at he
  obtain ⟨hlo, hhi, ⟨i, hi, ht, hr, hcov⟩, -⟩ := (bit_bootEligible hb.valid page).mp he
  rw [pageCount_eq] at hhi
  obtain ⟨hstart, hstop⟩ := hcov
  refine ⟨by decide, by omega, by unfold pmmLimit; omega, ?_⟩
  intro v hv hvlo hvhi
  refine ⟨i, hi, ⟨.inr (.inr ht), hr⟩, by omega, by unfold pmmLimit; omega, by omega, by omega⟩

structure RegionsIn (m : Memory) (info : ℕ) (S : ℕ → Prop) : Prop where
  kernel : InSet S (bootInfoAt m info).kernelBase (bootInfoAt m info).kernelSize
  stack : InSet S (bootInfoAt m info).stackBase (bootInfoAt m info).stackSize
  bootInfo : InSet S info sizeofBootInfo
  memoryMap : InSet S (bootInfoAt m info).memoryMap (bootInfoAt m info).memoryMapSize

theorem requiredRegionsMapped_iff {s0 : Machine} (hb : BootOk s0 info) (hf : MemFrame s0 s)
    (h : Built L s held (BootRam s0.mem info)) :
    requiredRegionsMapped info s = true ↔ RegionsIn s0.mem info (BootRam s0.mem info) := by
  obtain ⟨-, -, -, ⟨-, hmap⟩, ⟨-, hker⟩, ⟨-, hst⟩, hinf⟩ := header_fields hb.valid.header
  have htables : ((List.range s.pagingTableCount).all fun i => mappedRange s (s.tablePages i) 4096) =
      true := by
    rw [List.all_eq_true]
    intro i hi
    obtain ⟨p, n, hp, hn, ha⟩ := (h.tree.live (s.tablePages i)).mp
      ((mem_liveTables s _).mpr ⟨i, List.mem_range.mp hi, rfl⟩)
    have hbounds := h.tree.node_bounds hp hn
    rw [ha, Built.mappedRange_iff h (by unfold Word64.size; omega)]
    have he := h.tree.node_eligible hp hn
    rw [hf.eligible] at he
    exact eligible_inSet hb he
  unfold requiredRegionsMapped
  simp only [Bool.and_eq_true, htables, and_true, hb.bootInfo_eq hf]
  rw [Built.mappedRange_iff h (by omega), Built.mappedRange_iff h (by omega),
    Built.mappedRange_iff h (by omega), Built.mappedRange_iff h (by omega)]
  exact ⟨fun ⟨⟨⟨hk, hs⟩, hi⟩, hm⟩ => ⟨hk, hs, hi, hm⟩, fun ⟨hk, hs, hi, hm⟩ => ⟨⟨⟨hk, hs⟩, hi⟩, hm⟩⟩

structure Bootable (L : Layout) (s : Machine) (held : Finset ℕ) (info : ℕ) : Prop where
  cpu : supportedCpuState s.cpu s.cpu.cr4 = true
  ample : Ample s held
  writeBack : AllWriteBack s.mem info
  regions : RegionsIn s.mem info (BootRam s.mem info)
  guards : GuardsOk (BootRam s.mem info) (stackGuards L (bootInfoAt s.mem info))

/-- CR0.WP and EFER.NXE are set, without which the supervisor may write and execute any page. -/
structure Enforced (cpu : Cpu) : Prop where
  writeProtect : cpu.cr0 &&& 2 ^ 16 ≠ 0
  noExecute : cpu.msr 0xc0000080 &&& 2 ^ 11 ≠ 0

theorem activate_enforced (cr4 : ℕ) (s : Machine) : Enforced (activatePageTables cr4 s).cpu where
  writeProtect := Word64.or_bit_ne_zero _ 16
  noExecute := by
    simp only [activatePageTables, Function.update_self]
    exact Word64.or_bit_ne_zero _ 11

structure Installed (L : Layout) (info : ℕ) (s s' : Machine) (held : Finset ℕ) : Prop where
  boot : BootOk s info
  built : Built L s' held
    (Without (BootRam s.mem info) (stackGuards L (bootInfoAt s.mem info)))
  frame : MemFrame s s'
  active : s'.active = true
  interruptsOff : s'.cpu.rflags &&& 0x200 = 0
  cr3 : s'.cpu.cr3 = s'.pagingRoot
  enforced : Enforced s'.cpu
  regions : RegionsIn s.mem info (BootRam s.mem info)
  guards : GuardsOk (BootRam s.mem info) (stackGuards L (bootInfoAt s.mem info))

theorem stackGuards_lt (L : Layout) (b : BootInfo) : ∀ g ∈ stackGuards L b, g < Word64.size := by
  intro g hg
  have hhigh := L.guardHigh_eq
  have hlt := L.guardHigh_lt
  simp only [stackGuards, List.mem_cons, List.not_mem_nil, or_false] at hg
  rcases hg with hg | hg | hg | hg
  · rw [hg]
    exact Word64.sub_lt _ _
  · rw [hg]
    exact Word64.add_lt _ _
  · omega
  · omega

theorem pagingInitWith_unfold (new : Machine → ℕ × Machine) (fuel : ℕ) (L : Layout) (info : ℕ) (s : Machine) :
    pagingInitWith new fuel L info s =
      if s.active || info == 0 || pmmTotal s.pmm == 0 then (false, s) else
      if !supportedCpuState s.cpu s.cpu.cr4 then (false, s) else
      if (new s).1 == 0 then (false, rooted (new s).2 (new s).1) else
      fillRootWith new fuel L info s.cpu.cr4 (rooted (new s).2 (new s).1) := rfl

theorem pagingInit_unfold (L : Layout) (info : ℕ) (s : Machine) :
    pagingInit L info s =
      if s.active || info == 0 || pmmTotal s.pmm == 0 then (false, s) else
      if !supportedCpuState s.cpu s.cpu.cr4 then (false, s) else
      if (newTable s).1 == 0 then (false, rooted (newTable s).2 (newTable s).1) else
      fillRoot L info s.cpu.cr4 (rooted (newTable s).2 (newTable s).1) := by
  rw [pagingInit, pagingInitWith_unfold, fillRoot]

theorem pagingInit_eq {t : Machine} {root : ℕ} (hact : s.active = false) (hinfo : info ≠ 0)
    (htotal : pmmTotal s.pmm ≠ 0) (hcpu : supportedCpuState s.cpu s.cpu.cr4 = true)
    (hnew : newTable s = (root, t)) (hroot : root ≠ 0) :
    pagingInit L info s = fillRoot L info s.cpu.cr4 (rooted t root) := by
  have hguard : (s.active || info == 0 || pmmTotal s.pmm == 0) = false := by
    simp [hact, hinfo, htotal]
  have hnonzero : (root == 0) = false := by simp [hroot]
  simp only [pagingInit_unfold, hguard, hcpu, hnew, hnonzero, Bool.not_true, Bool.false_eq_true, if_false]

theorem activate_fields (cr4 : ℕ) (s : Machine) :
    (activatePageTables cr4 s).mem = s.mem ∧ (activatePageTables cr4 s).pmm = s.pmm ∧
      (activatePageTables cr4 s).tablePages = s.tablePages ∧
      (activatePageTables cr4 s).pagingTableCount = s.pagingTableCount ∧
      (activatePageTables cr4 s).pagingRoot = s.pagingRoot ∧
      (activatePageTables cr4 s).cpu.rflags = s.cpu.rflags ∧
      (activatePageTables cr4 s).cpu.cr3 = s.pagingRoot ∧
      (activatePageTables cr4 s).active = true := by
  rw [activatePageTables]
  exact ⟨rfl, rfl, rfl, rfl, rfl, rfl, rfl, rfl⟩

theorem Built.activate {S : ℕ → Prop} (h : Built L s held S) (cr4 : ℕ) :
    Built L (activatePageTables cr4 s) held S := by
  obtain ⟨hmem, hpmm, htab, hcount, hroot, -⟩ := activate_fields cr4 s
  generalize activatePageTables cr4 s = s' at hmem hpmm htab hcount hroot ⊢
  have hsame : SameTables s s' := ⟨hroot, fun x _ => by rw [hmem]⟩
  refine ⟨h.tree.congr hmem hpmm htab hcount hroot, ?_, ?_, ?_⟩
  · intro v hv hlt hS
    rw [leafOf, hsame.entryAt_eq h.tree (length_upper v).le]
    exact h.mapped v hv hlt hS
  · intro v hv hlt hS
    rw [leafOf, hsame.entryAt_eq h.tree (length_upper v).le]
    exact h.unmapped v hv hlt hS
  · intro q hq hsome
    rw [hsame.node_eq h.tree (by omega)] at hsome
    exact h.low q hq hsome

theorem activate_memFrame {s0 : Machine} (hf : MemFrame s0 s) (cr4 : ℕ) : MemFrame s0 (activatePageTables cr4 s) := by
  obtain ⟨hmem, hpmm, -⟩ := activate_fields cr4 s
  refine ⟨?_, ?_, ?_, fun x hx => ?_⟩
  · rw [hpmm, hf.ready]
  · rw [hpmm, hf.eligible]
  · rw [hpmm, hf.total]
  · rw [hmem, hf.mem x hx]

theorem interrupts_off {cpu : Cpu} {cr4 : ℕ} (h : supportedCpuState cpu cr4 = true) : cpu.rflags &&& 0x200 = 0 := by
  unfold supportedCpuState at h
  split at h
  · exact absurd h (by simp)
  · rename_i hno
    simp only [Bool.or_eq_true, bne_iff_ne, not_or, not_not] at hno
    exact hno.2

theorem fillRoot_cases {s0 : Machine} (h0 : Idle s0 held info) (hb : BootOk s0 info)
    (hf : MemFrame s0 s) (hact : s.active = false) (hcpu : s.cpu = s0.cpu)
    (hif : s0.cpu.rflags &&& 0x200 = 0) (h : Built L s held fun _ => False) (cr4 : ℕ) :
    (∃ s', fillRoot L info cr4 s = (false, s') ∧ Idle s' held info ∧ MemFrame s0 s' ∧
      ¬ Bootable L s0 held info) ∨
    ∃ s', fillRoot L info cr4 s = (true, s') ∧ Installed L info s0 s' held := by
  have hmap := mapBootRam_outcome hb hf h
  have hample : Ample s held ↔ Ample s0 held := by
    unfold Ample
    rw [hf.total]
  rw [fillRoot_eq]
  cases hres : mapBootRam L info s with
  | mk ok s1 =>
    rw [hres] at hmap
    have hf1 : MemFrame s0 s1 := hf.trans (Frame.memFrame hmap.frame)
    have hact1 : s1.active = false := hmap.frame.active.trans hact
    cases ok with
    | false =>
      obtain ⟨hidle, hfr⟩ := discard_idle h0 hmap.tree hf1 hact1
      refine .inl ⟨_, rfl, hidle, hfr, fun hboot => ?_⟩
      rcases hmap.failed rfl with hno | hno
      · exact hno (hample.mpr hboot.ample)
      · exact hno hboot.writeBack
    | true =>
      have hbuilt := hmap.done rfl
      have hreq := requiredRegionsMapped_iff hb hf1 hbuilt
      simp only at hbuilt hreq ⊢
      cases hr : requiredRegionsMapped info s1 with
      | false =>
        obtain ⟨hidle, hfr⟩ := discard_idle h0 hmap.tree hf1 hact1
        refine .inl ⟨_, rfl, hidle, hfr, fun hboot => ?_⟩
        rw [hreq.mpr hboot.regions] at hr
        exact absurd hr (by simp)
      | true =>
        obtain ⟨hguards, hok⟩ := unmapGuards_outcome (stackGuards L (bootInfoAt s0.mem info)) hbuilt
          (stackGuards_lt L _)
        have hun : unmapStackGuards L info s1 =
            unmapGuards (stackGuards L (bootInfoAt s0.mem info)) s1 := by
          rw [unmapStackGuards, hb.bootInfo_eq hf1]
        rw [hun]
        cases hg : unmapGuards (stackGuards L (bootInfoAt s0.mem info)) s1 with
        | mk ok s2 =>
          rw [hg] at hguards hok
          have hf2 : MemFrame s0 s2 := hf1.trans (Frame.memFrame hguards.frame)
          have hact2 : s2.active = false := hguards.frame.active.trans hact1
          cases ok with
          | false =>
            obtain ⟨hidle, hfr⟩ := discard_idle h0 hguards.tree hf2 hact2
            exact .inl ⟨_, rfl, hidle, hfr, fun hboot => hguards.failed rfl hboot.guards⟩
          | true =>
            have hdone := hguards.done rfl
            have hcpu2 : s2.cpu = s0.cpu :=
              (hguards.frame.cpu.trans hmap.frame.cpu).trans hcpu
            simp only at hdone hcpu2
            obtain ⟨-, -, -, -, hroot, hrf, hcr3, hact'⟩ := activate_fields cr4 s2
            refine .inr ⟨activatePageTables cr4 s2, rfl, hb, Built.activate hdone cr4, activate_memFrame hf2 cr4, hact', ?_,
              ?_, activate_enforced cr4 s2, hreq.mp hr, hok rfl⟩
            · rw [hrf, hcpu2]
              exact hif
            · rw [hcr3, hroot]

theorem newTable_of_ample (h : Idle s held info) (hample : Ample s held) :
    ∃ c, IsFree s.pmm c ∧ (∀ q, IsFree s.pmm q → c ≤ q) ∧ newTable s = (4096 * c, withTable s c) := by
  obtain ⟨-, hno⟩ | ⟨c, -, hfree, hmin, hnew⟩ := newTable_cases h.pmm
  · have hfree : s.pmm.freePages = 0 := by
      rcases hno with hno | hno
      · rw [h.count] at hno
        exact absurd hno (by decide)
      · exact h.pmm.freePages_eq_zero.mpr hno
    have hcard : (pagesOf s.pmm.allocated).card = held.card := by
      congr 1
      ext page
      rw [h.pmm.mem_allocated, h.owned]
    have hsum := h.pmm.free
    have htot := h.pmm.total
    unfold Ample at hample
    omega
  · exact ⟨c, hfree, hmin, hnew⟩

theorem mapBootRam_of_ample (h : Idle s held info) (hb : BootOk s info) (hample : Ample s held)
    (hback : AllWriteBack s.mem info) {c : ℕ} (hfree : IsFree s.pmm c) (hmin : ∀ q, IsFree s.pmm q → c ≤ q) :
    ∃ s1, mapBootRam L info (planted s c) = (true, s1) ∧ MemFrame s s1 ∧ Built L s1 held (BootRam s.mem info) := by
  have hframe := planted_memFrame (s := s) hfree
  have houtcome := mapBootRam_outcome (L := L) hb hframe (planted_built h hfree hmin)
  rcases hmap : mapBootRam L info (planted s c) with ⟨ok, s1⟩
  rw [hmap] at houtcome
  cases ok with
  | true => exact ⟨s1, rfl, hframe.trans (Frame.memFrame houtcome.frame), houtcome.done rfl⟩
  | false =>
    have hplanted : Ample (planted s c) held := by
      unfold Ample at hample ⊢
      rw [hframe.total]
      exact hample
    rcases houtcome.failed rfl with hno | hno
    · exact absurd hplanted hno
    · exact absurd hback hno

theorem pagingInit_cases (h : Idle s held info) :
    (∃ s', pagingInit L info s = (false, s') ∧ Idle s' held info ∧ MemFrame s s' ∧
      ¬ Bootable L s held info) ∨
    ∃ s', pagingInit L info s = (true, s') ∧ Installed L info s s' held := by
  have unchanged : (pagingInit L info s = (false, s) ∧ ¬ Bootable L s held info) →
      ∃ s', pagingInit L info s = (false, s') ∧ Idle s' held info ∧ MemFrame s s' ∧
        ¬ Bootable L s held info :=
    fun hc => ⟨s, hc.1, h, ⟨rfl, rfl, rfl, fun _ _ => rfl⟩, hc.2⟩
  by_cases htotal : pmmTotal s.pmm = 0
  · refine .inl (unchanged ⟨by simp [pagingInit, pagingInitWith, htotal], fun hboot => ?_⟩)
    have := hboot.ample
    unfold Ample at this
    unfold pmmTotal at htotal
    omega
  have hready : s.pmm.ready = true := by
    by_contra hno
    rw [h.pmm.cold (by simpa using hno)] at htotal
    exact htotal rfl
  have hb := h.boot hready
  have hinfo := info_ne_zero hb.valid.header
  cases hcpu : supportedCpuState s.cpu s.cpu.cr4 with
  | false =>
    refine .inl (unchanged ⟨?_, fun hboot => ?_⟩)
    · rw [pagingInit_unfold]
      simp [hcpu]
    · rw [hboot.cpu] at hcpu
      exact absurd hcpu (by simp)
  | true =>
    have hif := interrupts_off hcpu
    obtain ⟨hnew, -⟩ | ⟨c, -, hfree, hmin, hnew⟩ := newTable_cases h.pmm
    · refine .inl ?_
      refine ⟨rooted s 0, ?_, ⟨h.pmm, h.count, h.inactive, h.owned, fun hr => ?_⟩,
        ⟨rfl, rfl, rfl, fun _ _ => rfl⟩, fun hboot => ?_⟩
      · have hguard : (s.active || info == 0 || pmmTotal s.pmm == 0) = false := by
          simp [h.inactive, hinfo, htotal]
        simp only [pagingInit_unfold, hguard, hcpu, hnew, Bool.not_true, Bool.false_eq_true, if_false, beq_self_eq_true,
          if_true]
      · exact ⟨(h.boot hr).valid, (h.boot hr).eligible⟩
      · obtain ⟨c, hfree, -, hc⟩ := newTable_of_ample h hboot.ample
        have hbounds := h.pmm.bounds c hfree.1
        rw [hnew] at hc
        have hroot := congrArg Prod.fst hc
        simp only at hroot
        omega
    · have hbounds := h.pmm.bounds c hfree.1
      rw [pagingInit_eq h.inactive hinfo htotal hcpu hnew (by omega)]
      have hbuilt := planted_built (L := L) h hfree hmin
      have hframe := planted_memFrame hfree
      have hact : (planted s c).active = false := by
        rw [planted, rooted_active, withTable_active, h.inactive]
      have hcpu' : (planted s c).cpu = s.cpu := by
        rw [planted, rooted_cpu, withTable_cpu]
      rw [← planted]
      exact fillRoot_cases h hb hframe hact hcpu' hif hbuilt _

end Init

end OsByAi.PagingInit
