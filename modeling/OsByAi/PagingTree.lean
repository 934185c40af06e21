import OsByAi.PagingEntries
import OsByAi.PmmInvariant
import OsByAi.SwapArray

set_option autoImplicit false

/-!
# The tree of page tables and its three edits

`TreeInv` ties together the tree in memory, the array `table_pages` and the page
manager. Every change the kernel makes to its tables is one of three edits: a leaf
is written, a fresh table is linked, an empty table is unlinked and released. Each
keeps `TreeInv` and changes a single entry of the tree.
-/
namespace OsByAi.PagingTree
open ByteMemory PackedBitmap PmmModel PmmInvariant PagingModel PagingEntries RadixTree

abbrev Path := List (Fin 512)

def rootFrame (s : Machine) : ℕ := s.pagingRoot / 4096

/-- The frame of the table at path `p`. -/
def node (s : Machine) (p : Path) : Option ℕ := walk child (tables s.mem) (rootFrame s) p

/-- Entry `i` of the table at path `p`; zero when there is no such table. -/
def entryAt (s : Machine) (p : Path) (i : Fin 512) : ℕ :=
  word child 0 (tables s.mem) (rootFrame s) p i

/-- The entries of `table_pages` in use. -/
def liveTables (s : Machine) : List ℕ := SwapArray.contents s.tablePages s.pagingTableCount

/-- The pages in `held` belong to callers; every other allocated page is a table. -/
structure TreeInv (s : Machine) (held : Finset ℕ) : Prop where
  pmm : Inv s.pmm
  root : s.pagingRoot % 4096 = 0
  separated : Separated child (tables s.mem) (rootFrame s) 3
  live : ∀ a, a ∈ liveTables s ↔ ∃ p n, p.length ≤ 3 ∧ node s p = some n ∧ a = 4096 * n
  nodup : (liveTables s).Nodup
  owned : ∀ page, bit s.pmm.allocated page = true ↔ 4096 * page ∈ liveTables s ∨ page ∈ held
  disjoint : ∀ page ∈ held, 4096 * page ∉ liveTables s
  inner : ∀ p i, p.length ≤ 2 → entryAt s p i = 0 ∨ ∃ c, c < 2 ^ 40 ∧ entryAt s p i = linkEntry c
  leaf : ∀ p i, p.length = 3 → entryAt s p i = 0 ∨ entryAt s p i % 2 = 1
  budget : s.pagingTableCount ≤ maxTables

/-- What no table edit touches: registers, the eligible set, memory outside it. -/
structure Frame (s s' : Machine) : Prop where
  cpu : s'.cpu = s.cpu
  root : s'.pagingRoot = s.pagingRoot
  previous : s'.pagingPreviousCr3 = s.pagingPreviousCr3
  active : s'.active = s.active
  ready : s'.pmm.ready = s.pmm.ready
  eligible : s'.pmm.eligible = s.pmm.eligible
  total : s'.pmm.totalPages = s.pmm.totalPages
  mem : ∀ x, bit s.pmm.eligible (x / 4096) = false → s'.mem x = s.mem x

theorem Frame.refl (s : Machine) : Frame s s := ⟨rfl, rfl, rfl, rfl, rfl, rfl, rfl, fun _ _ => rfl⟩

theorem Frame.trans {s t u : Machine} (h : Frame s t) (h' : Frame t u) : Frame s u where
  cpu := h'.cpu.trans h.cpu
  root := h'.root.trans h.root
  previous := h'.previous.trans h.previous
  active := h'.active.trans h.active
  ready := h'.ready.trans h.ready
  eligible := h'.eligible.trans h.eligible
  total := h'.total.trans h.total
  mem x hx := (h'.mem x (by rw [h.eligible]; exact hx)).trans (h.mem x hx)

def Edit (s s' : Machine) (p : Path) (i : Fin 512) (w : ℕ) : Prop :=
  ∀ q j, q.length ≤ 3 → entryAt s' q j = if q = p ∧ j = i then w else entryAt s q j

theorem node_nil (s : Machine) : node s [] = some (rootFrame s) := rfl

theorem node_concat (s : Machine) (p : Path) (i : Fin 512) :
    node s (p ++ [i]) = child (entryAt s p i) := walk_concat_word rfl _ _ _

theorem entryAt_of_node {s : Machine} {p : Path} {n : ℕ} (h : node s p = some n) (i : Fin 512) :
    entryAt s p i = tables s.mem n i := by
  unfold node at h
  simp [entryAt, word, h]

theorem entryAt_of_none {s : Machine} {p : Path} (h : node s p = none) (i : Fin 512) :
    entryAt s p i = 0 := by
  unfold node at h
  simp [entryAt, word, h]

theorem mem_liveTables (s : Machine) (a : ℕ) :
    a ∈ liveTables s ↔ ∃ i < s.pagingTableCount, s.tablePages i = a :=
  SwapArray.mem_contents _ _ _

theorem length_liveTables (s : Machine) : (liveTables s).length = s.pagingTableCount :=
  SwapArray.length_contents _ _

namespace TreeInv

variable {s : Machine} {held : Finset ℕ} {p q : Path} {i : Fin 512} {n c : ℕ}

theorem node_live (h : TreeInv s held) (hp : p.length ≤ 3) (hn : node s p = some n) :
    4096 * n ∈ liveTables s := (h.live _).mpr ⟨p, n, hp, hn, rfl⟩

theorem node_allocated (h : TreeInv s held) (hp : p.length ≤ 3) (hn : node s p = some n) :
    bit s.pmm.allocated n = true := (h.owned n).mpr (.inl (h.node_live hp hn))

theorem node_eligible (h : TreeInv s held) (hp : p.length ≤ 3) (hn : node s p = some n) :
    bit s.pmm.eligible n = true := h.pmm.sub n (h.node_allocated hp hn)

theorem node_bounds (h : TreeInv s held) (hp : p.length ≤ 3) (hn : node s p = some n) :
    256 ≤ n ∧ n < 1048576 := by
  have := h.pmm.bounds n (h.node_eligible hp hn)
  rw [pageCount_eq] at this
  exact this

theorem root_eq (h : TreeInv s held) : s.pagingRoot = 4096 * rootFrame s := by
  have := h.root
  unfold rootFrame
  omega

theorem not_node_of_free (h : TreeInv s held) (hf : IsFree s.pmm c) :
    ¬ IsNode child (tables s.mem) (rootFrame s) 3 c := by
  rintro ⟨p, hp, hn⟩
  have := h.node_allocated hp hn
  rw [hf.2] at this
  exact absurd this (by simp)

theorem inner_zero_iff (h : TreeInv s held) (hp : p.length ≤ 2) :
    entryAt s p i = 0 ↔ node s (p ++ [i]) = none := by
  rw [node_concat]
  obtain h0 | ⟨c, hc, he⟩ := h.inner p i hp
  · rw [h0]
    simp
  · rw [he, child_linkEntry hc]
    simp [linkEntry]

theorem inner_link (h : TreeInv s held) (hp : p.length ≤ 2) (hn : node s (p ++ [i]) = some c) :
    entryAt s p i = linkEntry c := by
  rw [node_concat] at hn
  obtain h0 | ⟨c', hc, he⟩ := h.inner p i hp
  · rw [h0] at hn
    exact absurd hn (by simp)
  · rw [he, child_linkEntry hc] at hn
    rw [he, Option.some.inj hn]

end TreeInv

section Fields

variable (s : Machine) (a v table i k : ℕ)

-- Proved by rewriting: as `rfl` lemmas they would send the kernel through `zeroFrom` in `simp`.
@[simp] theorem store64_mem : (s.store64 a v).mem = store s.mem a 8 v := by
  rw [Machine.store64]
@[simp] theorem store64_cpu : (s.store64 a v).cpu = s.cpu := by
  rw [Machine.store64]
@[simp] theorem store64_pmm : (s.store64 a v).pmm = s.pmm := by
  rw [Machine.store64]
@[simp] theorem store64_tablePages : (s.store64 a v).tablePages = s.tablePages := by
  rw [Machine.store64]
@[simp] theorem store64_count : (s.store64 a v).pagingTableCount = s.pagingTableCount := by
  rw [Machine.store64]
@[simp] theorem store64_root : (s.store64 a v).pagingRoot = s.pagingRoot := by
  rw [Machine.store64]
@[simp] theorem store64_previous : (s.store64 a v).pagingPreviousCr3 = s.pagingPreviousCr3 := by
  rw [Machine.store64]
@[simp] theorem store64_active : (s.store64 a v).active = s.active := by
  rw [Machine.store64]

theorem zeroFrom_eq : zeroFrom s table i k =
    { s with mem := (zeroFrom s table i k).mem, trace := (zeroFrom s table i k).trace } := by
  induction k generalizing s i with
  | zero => rfl
  | succ k ih =>
    rw [zeroFrom, ih]
    rfl

@[simp] theorem zeroFrom_cpu : (zeroFrom s table i k).cpu = s.cpu := by
  rw [zeroFrom_eq]
@[simp] theorem zeroFrom_pmm : (zeroFrom s table i k).pmm = s.pmm := by
  rw [zeroFrom_eq]
@[simp] theorem zeroFrom_tablePages : (zeroFrom s table i k).tablePages = s.tablePages := by
  rw [zeroFrom_eq]
@[simp] theorem zeroFrom_count : (zeroFrom s table i k).pagingTableCount = s.pagingTableCount := by
  rw [zeroFrom_eq]
@[simp] theorem zeroFrom_root : (zeroFrom s table i k).pagingRoot = s.pagingRoot := by
  rw [zeroFrom_eq]
@[simp] theorem zeroFrom_previous :
    (zeroFrom s table i k).pagingPreviousCr3 = s.pagingPreviousCr3 := by
  rw [zeroFrom_eq]
@[simp] theorem zeroFrom_active : (zeroFrom s table i k).active = s.active := by
  rw [zeroFrom_eq]

end Fields

/-- The machine after `new_table` took `page`. -/
def withTable (s : Machine) (page : ℕ) : Machine :=
  zeroFrom { s with
    pmm := takePage s.pmm page
    tablePages := Function.update s.tablePages s.pagingTableCount (4096 * page)
    pagingTableCount := s.pagingTableCount + 1 } (4096 * page) 0 512

theorem newTable_cases {s : Machine} (h : Inv s.pmm) :
    (newTable s = (0, s) ∧ (s.pagingTableCount = maxTables ∨ ∀ page, ¬ IsFree s.pmm page)) ∨
    ∃ page, s.pagingTableCount ≠ maxTables ∧ IsFree s.pmm page ∧
      (∀ q, IsFree s.pmm q → page ≤ q) ∧ newTable s = (4096 * page, withTable s page) := by
  unfold newTable
  by_cases hc : s.pagingTableCount = maxTables
  · exact .inl ⟨by simp [hc], .inl hc⟩
  · simp only [beq_iff_eq, hc, if_false]
    obtain ⟨ha, hno⟩ | ⟨page, -, -, hf, hmin, ha⟩ := h.alloc_cases (some 0)
    · rw [ha]
      refine .inl ⟨rfl, .inr ?_⟩
      rcases hno with hno | hno
      · exact absurd hno (by simp)
      · exact hno
    · rw [ha]
      refine .inr ⟨page, hc, hf, hmin, ?_⟩
      rw [Nat.mul_comm page 4096]
      rfl

theorem liveTables_withTable (s : Machine) (page : ℕ) :
    liveTables (withTable s page) = liveTables s ++ [4096 * page] := by
  unfold liveTables withTable
  rw [zeroFrom_count, zeroFrom_tablePages]
  exact SwapArray.contents_push _ _ _

theorem withTable_mem (s : Machine) (page x : ℕ) :
    (withTable s page).mem x = if x / 4096 = page then 0 else s.mem x := by
  unfold withTable
  rw [zeroFrom_mem _ _ _ _ (by omega)]
  by_cases h : x / 4096 = page
  · rw [if_pos h, if_pos (by omega)]
  · rw [if_neg h, if_neg (by omega)]

theorem tables_withTable (s : Machine) (page n : ℕ) (i : Fin 512) :
    tables (withTable s page).mem n i = if n = page then 0 else tables s.mem n i := by
  by_cases h : n = page
  · rw [if_pos h]
    apply load_zero
    intro x hx hlt
    have := i.isLt
    rw [withTable_mem, if_pos (by omega)]
  · rw [if_neg h]
    apply tables_congr
    intro x hx
    rw [withTable_mem, if_neg (by omega)]

section WithTable

variable (s : Machine) (page : ℕ)

@[simp] theorem withTable_cpu : (withTable s page).cpu = s.cpu := by rw [withTable, zeroFrom_cpu]
@[simp] theorem withTable_pmm : (withTable s page).pmm = takePage s.pmm page := by
  rw [withTable, zeroFrom_pmm]
@[simp] theorem withTable_count :
    (withTable s page).pagingTableCount = s.pagingTableCount + 1 := by
  rw [withTable, zeroFrom_count]
@[simp] theorem withTable_root : (withTable s page).pagingRoot = s.pagingRoot := by
  rw [withTable, zeroFrom_root]
@[simp] theorem withTable_previous :
    (withTable s page).pagingPreviousCr3 = s.pagingPreviousCr3 := by
  rw [withTable, zeroFrom_previous]
@[simp] theorem withTable_active : (withTable s page).active = s.active := by
  rw [withTable, zeroFrom_active]

end WithTable

attribute [irreducible] withTable

section Edits

variable {s : Machine} {held : Finset ℕ} {p : Path} {i : Fin 512} {n c w : ℕ}

theorem TreeInv.congr {s' : Machine} (h : TreeInv s held) (hm : s'.mem = s.mem)
    (hp : s'.pmm = s.pmm) (ht : s'.tablePages = s.tablePages)
    (hc : s'.pagingTableCount = s.pagingTableCount) (hr : s'.pagingRoot = s.pagingRoot) :
    TreeInv s' held := by
  obtain ⟨mem, cpu, pmm, pages, count, root, prev, act, tr⟩ := s
  obtain ⟨mem', cpu', pmm', pages', count', root', prev', act', tr'⟩ := s'
  cases hm
  cases hp
  cases ht
  cases hc
  cases hr
  exact ⟨h.pmm, h.root, h.separated, h.live, h.nodup, h.owned, h.disjoint, h.inner, h.leaf, h.budget⟩

theorem editAt_store (hw : w < Word64.size) :
    EditAt child (tables s.mem) (tables (store s.mem (4096 * n + 8 * i.val) 8 w))
      (rootFrame s) 3 n i w := by
  refine ⟨?_, ?_⟩
  · rw [tables_store _ _ _ hw, if_pos ⟨rfl, rfl⟩]
  · intro m j _ hne
    rw [tables_store _ _ _ hw, if_neg]
    rintro ⟨rfl, rfl⟩
    simp at hne

theorem store_frame (h : TreeInv s held) (hp : p.length ≤ 3) (hn : node s p = some n) (v : ℕ) :
    Frame s (s.store64 (4096 * n + 8 * i.val) v) where
  cpu := rfl
  root := rfl
  previous := rfl
  active := rfl
  ready := rfl
  eligible := rfl
  total := rfl
  mem x hx := by
    apply store_other_page
    rintro rfl
    rw [h.node_eligible hp hn] at hx
    exact absurd hx (by simp)

theorem Edit.inner {s' : Machine} (he : Edit s s' p i w) (h : TreeInv s held)
    (hw : p.length ≤ 2 → w = 0 ∨ ∃ c, c < 2 ^ 40 ∧ w = linkEntry c) (q : Path) (j : Fin 512) (hq : q.length ≤ 2) :
    entryAt s' q j = 0 ∨ ∃ c, c < 2 ^ 40 ∧ entryAt s' q j = linkEntry c := by
  rw [he q j (by omega)]
  split
  · rename_i hsame
    exact hw (hsame.1 ▸ hq)
  · exact h.inner q j hq

theorem Edit.leaf {s' : Machine} (he : Edit s s' p i w) (h : TreeInv s held) (hw : p.length = 3 → w = 0 ∨ w % 2 = 1)
    (q : Path) (j : Fin 512) (hq : q.length = 3) : entryAt s' q j = 0 ∨ entryAt s' q j % 2 = 1 := by
  rw [he q j (by omega)]
  split
  · rename_i hsame
    exact hw (hsame.1 ▸ hq)
  · exact h.leaf q j hq

theorem TreeInv.writeLeaf (h : TreeInv s held) (hp : p.length = 3) (hn : node s p = some n)
    (hw : w < Word64.size) (hshape : w = 0 ∨ w % 2 = 1) :
    TreeInv (s.store64 (4096 * n + 8 * i.val) w) held ∧
      Edit s (s.store64 (4096 * n + 8 * i.val) w) p i w := by
  have hed : Edited child 0 (tables s.mem) (tables (store s.mem (4096 * n + 8 * i.val) 8 w))
      (rootFrame s) 3 p i w :=
    edited_payload h.separated hn hp (editAt_store hw)
  have hedit : Edit s (s.store64 (4096 * n + 8 * i.val) w) p i w := hed.word_eq
  have hnode : ∀ q : Path, q.length ≤ 3 →
      node (s.store64 (4096 * n + 8 * i.val) w) q = node s q := by
    intro q hq
    refine (hed.walk_eq q hq).trans (if_neg ?_)
    rintro rfl
    simp at hq
    omega
  refine ⟨⟨h.pmm, h.root, hed.separated, ?_, h.nodup, h.owned, h.disjoint, hedit.inner h (by omega),
    hedit.leaf h fun _ => hshape, h.budget⟩, hedit⟩
  intro a
  rw [show liveTables (s.store64 (4096 * n + 8 * i.val) w) = liveTables s from rfl, h.live]
  constructor
  · rintro ⟨q, m, hq, hm, rfl⟩
    exact ⟨q, m, hq, (hnode q hq).trans hm, rfl⟩
  · rintro ⟨q, m, hq, hm, rfl⟩
    exact ⟨q, m, hq, (hnode q hq).symm.trans hm, rfl⟩

/-- The machine after a fresh table was linked at entry `i` of table `n`. -/
def linked (s : Machine) (n : ℕ) (i : Fin 512) (c : ℕ) : Machine :=
  (withTable s c).store64 (4096 * n + 8 * i.val) (linkEntry c)

theorem tables_linked (hc : c < 2 ^ 40) (m : ℕ) (j : Fin 512) :
    tables (linked s n i c).mem m j =
      if m = n ∧ j = i then linkEntry c else if m = c then 0 else tables s.mem m j := by
  rw [linked, store64_mem, tables_store _ _ _ (linkEntry_lt hc), tables_withTable]

theorem liveTables_linked : liveTables (linked s n i c) = liveTables s ++ [4096 * c] := by
  rw [← liveTables_withTable s c, linked, liveTables, store64_tablePages, store64_count, liveTables]

@[simp] theorem linked_pmm : (linked s n i c).pmm = takePage s.pmm c := by
  rw [linked, store64_pmm, withTable_pmm]

@[simp] theorem linked_count : (linked s n i c).pagingTableCount = s.pagingTableCount + 1 := by
  rw [linked, store64_count, withTable_count]

theorem linked_frame (h : TreeInv s held) (hp : p.length ≤ 3) (hn : node s p = some n)
    (hf : IsFree s.pmm c) : Frame s (linked s n i c) where
  cpu := by rw [linked, store64_cpu, withTable_cpu]
  root := by rw [linked, store64_root, withTable_root]
  previous := by rw [linked, store64_previous, withTable_previous]
  active := by rw [linked, store64_active, withTable_active]
  ready := by rw [linked_pmm, takePage]
  eligible := by rw [linked_pmm, takePage]
  total := by rw [linked_pmm, takePage]
  mem x hx := by
    have hxn : x / 4096 ≠ n := by
      rintro rfl
      rw [h.node_eligible hp hn] at hx
      exact absurd hx (by simp)
    have hxc : x / 4096 ≠ c := by
      rintro rfl
      rw [hf.1] at hx
      exact absurd hx (by simp)
    rw [linked, store64_mem, store_other_page _ _ _ _ _ hxn, withTable_mem, if_neg hxc]

section Link

variable (h : TreeInv s held) (hf : IsFree s.pmm c)
include h hf

theorem frame_lt : c < 2 ^ 40 := by
  have hbound := (h.pmm.bounds c hf.1).2
  rw [pageCount_eq] at hbound
  omega

theorem not_live : 4096 * c ∉ liveTables s := by
  intro hm
  have hb := (h.owned c).mpr (.inl hm)
  rw [hf.2] at hb
  exact absurd hb (by simp)

theorem not_held : c ∉ held := by
  intro hm
  have hb := (h.owned c).mpr (.inr hm)
  rw [hf.2] at hb
  exact absurd hb (by simp)

theorem owned_linked (page : ℕ) : bit (linked s n i c).pmm.allocated page = true ↔
    4096 * page ∈ liveTables (linked s n i c) ∨ page ∈ held := by
  rw [linked_pmm, liveTables_linked]
  simp only [takePage, bit_set, Bool.or_eq_true, decide_eq_true_eq, List.mem_append, List.mem_singleton, h.owned]
  constructor
  · rintro (rfl | hl | hh)
    · exact .inl (.inr rfl)
    · exact .inl (.inl hl)
    · exact .inr hh
  · rintro ((hl | he) | hh)
    · exact .inr (.inl hl)
    · exact .inl (by omega)
    · exact .inr (.inr hh)

theorem disjoint_linked : ∀ page ∈ held, 4096 * page ∉ liveTables (linked s n i c) := by
  intro page hh hm
  rw [liveTables_linked, List.mem_append, List.mem_singleton] at hm
  rcases hm with hm | he
  · exact h.disjoint page hh hm
  · have hpc : page = c := by omega
    exact not_held h hf (hpc ▸ hh)

variable (hp : p.length ≤ 2) (hn : node s p = some n) (hz : entryAt s p i = 0)
include hp hn

theorem rootFrame_linked : rootFrame (linked s n i c) = rootFrame s := by
  rw [rootFrame, (linked_frame h (by omega) hn hf).root, rootFrame]

include hz

theorem edited_linked : Edited child 0 (tables s.mem) (tables (linked s n i c).mem) (rootFrame s) 3 p i (linkEntry c) := by
  have hc := frame_lt h hf
  have hnc : c ≠ n := by
    rintro rfl
    exact not_live h hf (h.node_live (by omega) hn)
  apply edited_link rfl h.separated hn (by omega)
  · refine ⟨?_, ?_⟩
    · rw [tables_linked hc, if_pos ⟨rfl, rfl⟩]
    · intro m j hm hne
      have hmc : m ≠ c := by
        rintro rfl
        exact h.not_node_of_free hf hm
      rw [tables_linked hc, if_neg (by rintro ⟨rfl, rfl⟩; simp at hne), if_neg hmc]
  · rw [← entryAt_of_node hn, hz]
    rfl
  · exact child_linkEntry hc
  · exact h.not_node_of_free hf
  · intro j
    rw [tables_linked hc, if_neg (fun e => hnc e.1), if_pos rfl]

theorem edit_linked : Edit s (linked s n i c) p i (linkEntry c) := by
  unfold Edit entryAt
  rw [rootFrame_linked h hf hp hn]
  exact (edited_linked h hf hp hn hz).word_eq

theorem node_linked (q : Path) (hq : q.length ≤ 3) : node (linked s n i c) q = if q = p ++ [i] then some c else node s q := by
  unfold node
  rw [rootFrame_linked h hf hp hn, (edited_linked h hf hp hn hz).walk_eq q hq, child_linkEntry (frame_lt h hf)]

theorem live_linked (a : ℕ) : a ∈ liveTables (linked s n i c) ↔
    ∃ q m, q.length ≤ 3 ∧ node (linked s n i c) q = some m ∧ a = 4096 * m := by
  have hnode := node_linked h hf hp hn hz
  rw [liveTables_linked, List.mem_append, List.mem_singleton, h.live]
  constructor
  · rintro (⟨q, m, hq, hm, rfl⟩ | rfl)
    · refine ⟨q, m, hq, ?_, rfl⟩
      rw [hnode q hq, if_neg, hm]
      rintro rfl
      rw [node_concat, hz] at hm
      exact absurd hm (by simp)
    · have hlen : (p ++ [i]).length ≤ 3 := by simp; omega
      exact ⟨p ++ [i], c, hlen, by rw [hnode _ hlen, if_pos rfl], rfl⟩
  · rintro ⟨q, m, hq, hm, rfl⟩
    rw [hnode q hq] at hm
    split at hm
    · exact .inr (by rw [Option.some.inj hm])
    · exact .inl ⟨q, m, hq, hm, rfl⟩

end Link

theorem TreeInv.link (h : TreeInv s held) (hp : p.length ≤ 2) (hn : node s p = some n)
    (hz : entryAt s p i = 0) (hf : IsFree s.pmm c) (hmin : ∀ q, IsFree s.pmm q → c ≤ q)
    (hcount : s.pagingTableCount ≠ maxTables) :
    TreeInv (linked s n i c) held ∧ Edit s (linked s n i c) p i (linkEntry c) := by
  have hedit := edit_linked h hf hp hn hz
  refine ⟨⟨?_, ?_, ?_, live_linked h hf hp hn hz, ?_, owned_linked h hf, disjoint_linked h hf,
    hedit.inner h fun _ => .inr ⟨c, frame_lt h hf, rfl⟩, hedit.leaf h (by omega), ?_⟩, hedit⟩
  · rw [linked_pmm]
    exact h.pmm.take hf hmin
  · rw [(linked_frame h (by omega) hn hf).root]
    exact h.root
  · rw [rootFrame_linked h hf hp hn]
    exact (edited_linked h hf hp hn hz).separated
  · rw [liveTables_linked]
    exact h.nodup.append (List.nodup_singleton _) (by simpa using not_live h hf)
  · have hbudget := h.budget
    rw [linked_count]
    omega

theorem releaseTable_eq {k : ℕ} (h : (liveTables s).Nodup) (hk : k < s.pagingTableCount) :
    releaseTable (s.tablePages k) s =
      freePage { s with
        tablePages := SwapArray.removeAt s.tablePages s.pagingTableCount k
        pagingTableCount := s.pagingTableCount - 1 } (s.tablePages k) := by
  rw [releaseTable, SwapArray.find_position h hk]
  rfl

/-- The machine after entry `i` of table `n` was cleared and table `c` below it released. -/
def unlinked (s : Machine) (address n : ℕ) (i : Fin 512) (c : ℕ) : Machine :=
  releaseTable (4096 * c) ((s.store64 (4096 * n + 8 * i.val) 0).invalidatePage address)

structure Unlinked (s s' : Machine) (n : ℕ) (i : Fin 512) (c : ℕ) : Prop where
  mem : s'.mem = store s.mem (4096 * n + 8 * i.val) 8 0
  pmm : s'.pmm = givePage s.pmm c
  count : s'.pagingTableCount = s.pagingTableCount - 1
  live : ∀ a, a ∈ liveTables s' ↔ a ∈ liveTables s ∧ a ≠ 4096 * c
  nodup : (liveTables s').Nodup
  last : ∀ l, liveTables s = l ++ [4096 * c] → liveTables s' = l
  cpu : s'.cpu = s.cpu
  root : s'.pagingRoot = s.pagingRoot
  previous : s'.pagingPreviousCr3 = s.pagingPreviousCr3
  active : s'.active = s.active

theorem unlinked_spec (hpmm : Inv s.pmm) (hnodup : (liveTables s).Nodup)
    (hlive : 4096 * c ∈ liveTables s) (hb : bit s.pmm.allocated c = true) (address : ℕ) :
    Unlinked s (unlinked s address n i c) n i c := by
  obtain ⟨k, hk, hkc⟩ := (mem_liveTables s _).mp hlive
  have e : unlinked s address n i c =
      freePage { (s.store64 (4096 * n + 8 * i.val) 0).invalidatePage address with
        tablePages := SwapArray.removeAt s.tablePages s.pagingTableCount k
        pagingTableCount := s.pagingTableCount - 1 } (4096 * c) := by
    unfold unlinked
    rw [← hkc]
    exact releaseTable_eq (s := (s.store64 (4096 * n + 8 * i.val) 0).invalidatePage address) hnodup hk
  have hfree : (pmmFree s.pmm (4096 * c)).2 = givePage s.pmm c := by
    have hdiv : 4096 * c / 4096 = c := Nat.mul_div_cancel_left _ (by decide)
    obtain ⟨-, hno⟩ | ⟨-, -, hf⟩ := hpmm.free_cases (4096 * c)
    · rw [hdiv] at hno
      exact absurd ⟨Nat.mul_mod_right _ _, hb⟩ hno
    · rw [hf, hdiv]
  rw [e]
  refine ⟨rfl, hfree, rfl, ?_, SwapArray.nodup_removeAt hnodup hk, ?_, rfl, rfl, rfl, rfl⟩
  · intro a
    rw [← hkc]
    exact SwapArray.mem_removeAt hnodup hk a
  · intro l hl
    -- the released table is the last one, so nothing is moved
    have hlen : s.pagingTableCount = l.length + 1 := by
      rw [← length_liveTables, hl]
      simp
    have hsplit : l = SwapArray.contents s.tablePages l.length ∧ s.tablePages l.length = 4096 * c := by
      rw [liveTables, hlen, SwapArray.contents_succ] at hl
      have := List.append_inj' hl rfl
      exact ⟨this.1.symm, by simpa using this.2⟩
    have hkl : k = s.pagingTableCount - 1 := by
      have hinj := (SwapArray.nodup_contents_iff _ _).mp hnodup
      exact hinj k hk _ (by omega) (by rw [hkc, hlen, Nat.add_sub_cancel, hsplit.2])
    change SwapArray.contents (SwapArray.removeAt s.tablePages s.pagingTableCount k)
      (s.pagingTableCount - 1) = l
    rw [hkl, SwapArray.removeAt_last, hlen, Nat.add_sub_cancel]
    exact hsplit.1.symm

section Unlink

variable {s' : Machine} (hu : Unlinked s s' n i c) (h : TreeInv s held)
include hu

theorem Unlinked.rootFrame_eq : rootFrame s' = rootFrame s := by
  rw [rootFrame, hu.root, rootFrame]

include h

theorem Unlinked.frame (hp : p.length ≤ 3) (hn : node s p = some n) : Frame s s' where
  cpu := hu.cpu
  root := hu.root
  previous := hu.previous
  active := hu.active
  ready := by rw [hu.pmm, givePage]
  eligible := by rw [hu.pmm, givePage]
  total := by rw [hu.pmm, givePage]
  mem x hx := by
    rw [hu.mem]
    exact (store_frame h hp hn 0).mem x hx

theorem Unlinked.owned (hc : c ∉ held) (page : ℕ) :
    bit s'.pmm.allocated page = true ↔ 4096 * page ∈ liveTables s' ∨ page ∈ held := by
  rw [hu.pmm, hu.live]
  simp only [givePage, bit_clear, Bool.and_eq_true, Bool.not_eq_true', decide_eq_false_iff_not, h.owned]
  constructor
  · rintro ⟨hne, hl | hh⟩
    · exact .inl ⟨hl, by omega⟩
    · exact .inr hh
  · rintro (⟨hl, hne⟩ | hh)
    · exact ⟨by omega, .inl hl⟩
    · exact ⟨fun e => hc (e ▸ hh), .inr hh⟩

variable (hp : p.length ≤ 2) (hn : node s p = some n) (hc : node s (p ++ [i]) = some c)
  (hempty : ∀ j, entryAt s (p ++ [i]) j = 0)
include hp hn hc hempty

theorem Unlinked.edited : Edited child 0 (tables s.mem) (tables s'.mem) (rootFrame s) 3 p i 0 := by
  rw [hu.mem]
  apply edited_unlink rfl h.separated hn (by omega) (editAt_store (by decide)) (c := c)
  · rw [← entryAt_of_node hn, ← node_concat, hc]
  · intro j
    rw [← entryAt_of_node hc, hempty]
  · rfl

theorem Unlinked.edit : Edit s s' p i 0 := by
  unfold Edit entryAt
  rw [hu.rootFrame_eq]
  exact (hu.edited h hp hn hc hempty).word_eq

theorem Unlinked.node_eq (q : Path) (hq : q.length ≤ 3) : node s' q = if q = p ++ [i] then none else node s q := by
  unfold node
  rw [hu.rootFrame_eq, (hu.edited h hp hn hc hempty).walk_eq q hq, child_zero]

theorem Unlinked.live_iff (a : ℕ) : a ∈ liveTables s' ↔ ∃ q m, q.length ≤ 3 ∧ node s' q = some m ∧ a = 4096 * m := by
  have hnode := hu.node_eq h hp hn hc hempty
  have hlen : (p ++ [i]).length ≤ 3 := by simp; omega
  rw [hu.live, h.live]
  constructor
  · rintro ⟨⟨q, m, hq, hm, rfl⟩, hne⟩
    refine ⟨q, m, hq, ?_, rfl⟩
    rw [hnode q hq, if_neg, hm]
    rintro rfl
    rw [hc] at hm
    exact hne (by rw [Option.some.inj hm])
  · rintro ⟨q, m, hq, hm, rfl⟩
    rw [hnode q hq] at hm
    split at hm
    · exact absurd hm (by simp)
    · rename_i hqne
      refine ⟨⟨q, m, hq, hm, rfl⟩, fun he => hqne ?_⟩
      have hmc : m = c := by omega
      exact h.separated q (p ++ [i]) c hq hlen (hmc ▸ hm) hc

end Unlink

theorem TreeInv.unlink (h : TreeInv s held) (hp : p.length ≤ 2) (hn : node s p = some n)
    (hc : node s (p ++ [i]) = some c) (hempty : ∀ j, entryAt s (p ++ [i]) j = 0) (address : ℕ) :
    TreeInv (unlinked s address n i c) held ∧ Edit s (unlinked s address n i c) p i 0 ∧
      Frame s (unlinked s address n i c) ∧ Unlinked s (unlinked s address n i c) n i c := by
  have hlen : (p ++ [i]).length ≤ 3 := by simp; omega
  have hlive := h.node_live hlen hc
  have hb := h.node_allocated hlen hc
  have hu := unlinked_spec (n := n) (i := i) h.pmm h.nodup hlive hb address
  generalize unlinked s address n i c = s' at hu ⊢
  have hcheld : c ∉ held := fun hh => h.disjoint c hh hlive
  have hedit := hu.edit h hp hn hc hempty
  refine ⟨⟨?_, ?_, ?_, hu.live_iff h hp hn hc hempty, hu.nodup, hu.owned h hcheld,
    fun page hh hm => h.disjoint page hh ((hu.live _).mp hm).1, hedit.inner h fun _ => .inl rfl,
    hedit.leaf h (by omega), ?_⟩, hedit, hu.frame h (by omega) hn, hu⟩
  · rw [hu.pmm]
    exact h.pmm.give hb
  · rw [hu.root]
    exact h.root
  · rw [hu.rootFrame_eq]
    exact (hu.edited h hp hn hc hempty).separated
  · have hbudget := h.budget
    rw [hu.count]
    omega

end Edits

structure SameTables (s s' : Machine) : Prop where
  root : s'.pagingRoot = s.pagingRoot
  mem : ∀ x, 4096 * (x / 4096) ∈ liveTables s → s'.mem x = s.mem x

namespace SameTables

variable {s s' : Machine} {held held' : Finset ℕ}

theorem rootFrame_eq (hs : SameTables s s') : rootFrame s' = rootFrame s := by
  rw [rootFrame, rootFrame, hs.root]

theorem tables_node (hs : SameTables s s') (h : TreeInv s held) {p : Path} {n : ℕ}
    (hp : p.length ≤ 3) (hn : node s p = some n) (i : Fin 512) :
    tables s'.mem n i = tables s.mem n i := by
  apply tables_congr
  rintro x rfl
  exact hs.mem x (h.node_live hp hn)

theorem node_eq (hs : SameTables s s') (h : TreeInv s held) {q : Path} (hq : q.length ≤ 4) :
    node s' q = node s q := by
  unfold node
  rw [hs.rootFrame_eq]
  apply walk_congr
  intro p i n hpre hn
  have hlen := hpre.length_le
  rw [hs.tables_node h (p := p) (by simp at hlen; omega) hn]

theorem entryAt_eq (hs : SameTables s s') (h : TreeInv s held) {q : Path} (hq : q.length ≤ 3)
    (i : Fin 512) : entryAt s' q i = entryAt s q i := by
  have hnode := hs.node_eq h (q := q) (by omega)
  cases hn : node s q with
  | none =>
    rw [hn] at hnode
    rw [entryAt_of_none hn, entryAt_of_none hnode]
  | some n =>
    rw [hn] at hnode
    rw [entryAt_of_node hn, entryAt_of_node hnode, hs.tables_node h hq hn]

/-- `TreeInv` across a change that concerns only pages outside the tree. -/
theorem treeInv (hs : SameTables s s') (h : TreeInv s held) (hpmm : Inv s'.pmm)
    (hlive : liveTables s' = liveTables s)
    (howned : ∀ page, bit s'.pmm.allocated page = true ↔ 4096 * page ∈ liveTables s ∨ page ∈ held')
    (hdisjoint : ∀ page ∈ held', 4096 * page ∉ liveTables s) : TreeInv s' held' where
  pmm := hpmm
  root := by
    rw [hs.root]
    exact h.root
  separated p q n hp hq hpn hqn := by
    apply h.separated p q n hp hq
    · exact (hs.node_eq h (by omega)).symm.trans hpn
    · exact (hs.node_eq h (by omega)).symm.trans hqn
  live a := by
    rw [hlive, h.live]
    constructor
    · rintro ⟨p, n, hp, hn, ha⟩
      exact ⟨p, n, hp, (hs.node_eq h (by omega)).trans hn, ha⟩
    · rintro ⟨p, n, hp, hn, ha⟩
      exact ⟨p, n, hp, (hs.node_eq h (by omega)).symm.trans hn, ha⟩
  nodup := by
    rw [hlive]
    exact h.nodup
  owned page := by
    rw [hlive]
    exact howned page
  disjoint := by
    rw [hlive]
    exact hdisjoint
  inner p i hp := by
    rw [hs.entryAt_eq h (by omega)]
    exact h.inner p i hp
  leaf p i hp := by
    rw [hs.entryAt_eq h (by omega)]
    exact h.leaf p i hp
  budget := by
    rw [← length_liveTables, hlive, length_liveTables]
    exact h.budget

end SameTables

end OsByAi.PagingTree
