import OsByAi.PagingInit

set_option autoImplicit false

/-!
# What mapped_range decides

Here the two loops of `mapped_range` are kept as they are written, with a bound on
their rounds and a log of the entries they read. With enough rounds they give the
result of `mappedRange`, and every entry in the log lies in a table that the present
entries before it lead to. Nothing is assumed of the memory.
-/
namespace OsByAi.PagingRange
open PmmModel PagingModel PagingEntries PagingInit

/-- `for (unsigned shift = 39; ; shift -= 9)`, at most `fuel` rounds; `none` when they do not suffice. -/
def levelLoop (s : Machine) (page : ℕ) : ℕ → ℕ → ℕ → Option (Bool × List ℕ)
  | 0, _, _ => none
  | fuel + 1, shift, table =>
    let address := slot table page shift
    let entry := s.load64 address
    if entry &&& 1 == 0 then some (false, [address])
    else if shift == 12 then some (entry &&& addressMask == page, [address])
    else (levelLoop s page fuel (shift - 9) (entry &&& addressMask)).map fun r => (r.1, address :: r.2)

/-- `for (page = ...; page < base + size; page += 4096)`. -/
def pageLoop (s : Machine) (stop : ℕ) : ℕ → ℕ → Option (Bool × List ℕ)
  | 0, _ => none
  | fuel + 1, page =>
    if page < stop then
      match levelLoop s page fuel 39 s.pagingRoot with
      | none => none
      | some (false, log) => some (false, log)
      | some (true, log) => (pageLoop s stop fuel (Word64.add page 4096)).map fun r => (r.1, log ++ r.2)
    else some (true, [])

def mappedRangeLoop (fuel : ℕ) (s : Machine) (base size : ℕ) : Option (Bool × List ℕ) :=
  if size == 0 || decide (base < 0x100000) || decide (base ≥ pmmLimit) ||
      decide (size > pmmLimit - base) then some (false, [])
  else pageLoop s (Word64.add base size) fuel (base &&& (Word64.size - 4096))

/-- The tables on the way to `page`: the root, and what a present entry of such a table refers to. -/
inductive Reached (s : Machine) (page : ℕ) : ℕ → ℕ → Prop where
  | root : Reached s page 39 s.pagingRoot
  | child {shift table : ℕ} (h : Reached s page (shift + 9) table)
      (present : s.load64 (slot table page (shift + 9)) % 2 = 1) :
      Reached s page shift (s.load64 (slot table page (shift + 9)) &&& addressMask)

/-- A walk that is present at all four levels and ends at the page itself. -/
def IdentityMapped (s : Machine) (page : ℕ) : Prop :=
  ∃ table, Reached s page 12 table ∧ s.load64 (slot table page 12) % 2 = 1 ∧
    s.load64 (slot table page 12) &&& addressMask = page

def Followed (s : Machine) (log : List ℕ) : Prop :=
  ∀ a ∈ log, ∃ page shift table, Reached s page shift table ∧ a = slot table page shift

section Levels

variable {s : Machine} {page : ℕ}

theorem Reached.shift_le {shift table : ℕ} (h : Reached s page shift table) : shift ≤ 39 := by
  induction h with
  | root => exact le_refl _
  | child h present ih => omega

theorem Reached.root_eq {table : ℕ} (h : Reached s page 39 table) : table = s.pagingRoot := by
  cases h with
  | root => rfl
  | child h present => exact absurd h.shift_le (by decide)

theorem Reached.unique {shift t u : ℕ} (ht : Reached s page shift t) (hu : Reached s page shift u) : t = u := by
  induction ht generalizing u with
  | root => exact hu.root_eq.symm
  | child ht present ih =>
    cases hu with
    | root => exact absurd ht.shift_le (by decide)
    | child hu present' => rw [ih hu]

theorem identityMapped_iff {table : ℕ} (h : Reached s page 12 table) :
    IdentityMapped s page ↔ s.load64 (slot table page 12) % 2 = 1 ∧ s.load64 (slot table page 12) &&& addressMask = page := by
  constructor
  · rintro ⟨u, hu, hleaf⟩
    rw [h.unique hu]
    exact hleaf
  · exact fun hleaf => ⟨table, h, hleaf⟩

theorem not_reached_leaf (k : ℕ) (hk : k ≤ 2) (hnone : ∀ u, ¬ Reached s page (12 + 9 * k) u) (u : ℕ) :
    ¬ Reached s page 12 u := by
  induction k with
  | zero => exact hnone u
  | succ k ih =>
    refine ih (by omega) fun t ht => ?_
    generalize hshift : 12 + 9 * k = shift at ht
    cases ht with
    | root => omega
    | child ht present =>
      subst hshift
      exact hnone _ ht

theorem not_identityMapped {k table : ℕ} (hk : k ≤ 2) (h : Reached s page (12 + 9 * (k + 1)) table)
    (habsent : s.load64 (slot table page (12 + 9 * (k + 1))) % 2 = 0) : ¬ IdentityMapped s page := by
  rintro ⟨u, hu, -⟩
  refine not_reached_leaf k hk (fun t ht => ?_) u hu
  generalize hshift : 12 + 9 * k = shift at ht
  cases ht with
  | root => omega
  | child ht present =>
    subst hshift
    rw [ht.unique h, show 12 + 9 * k + 9 = 12 + 9 * (k + 1) from rfl] at present
    omega

end Levels

section Page

variable {s : Machine} {page : ℕ}

def lastShifts : ℕ → List ℕ
  | 0 => []
  | k + 1 => (12 + 9 * (k + 1)) :: lastShifts k

theorem followed_cons {shift table : ℕ} {log : List ℕ} (h : Reached s page shift table) (hlog : Followed s log) :
    Followed s (slot table page shift :: log) := by
  intro a ha
  rcases List.mem_cons.mp ha with rfl | ha
  · exact ⟨page, shift, table, h, rfl⟩
  · exact hlog a ha

theorem followed_append {log log' : List ℕ} (h : Followed s log) (h' : Followed s log') : Followed s (log ++ log') := by
  intro a ha
  rcases List.mem_append.mp ha with ha | ha
  · exact h a ha
  · exact h' a ha

theorem followed_nil : Followed s [] := fun _ ha => absurd ha List.not_mem_nil

theorem levelLoop_spec (k : ℕ) (hk : k ≤ 3) {table : ℕ} (h : Reached s page (12 + 9 * k) table) :
    ∃ log, (∀ fuel, k + 1 ≤ fuel →
        levelLoop s page fuel (12 + 9 * k) table = some (walkMapped s page (lastShifts k) table, log)) ∧
      Followed s log ∧ (walkMapped s page (lastShifts k) table = true ↔ IdentityMapped s page) := by
  induction k generalizing table with
  | zero =>
    refine ⟨[slot table page 12], fun fuel hfuel => ?_, followed_cons h followed_nil, ?_⟩
    · obtain ⟨n, rfl⟩ := Nat.exists_eq_add_of_le' hfuel
      simp only [levelLoop, walkMapped, lastShifts, bne]
      cases s.load64 (slot table page 12) &&& 1 == 0 with
      | false => rfl
      | true => rfl
    · rw [identityMapped_iff h]
      simp only [walkMapped, lastShifts, Bool.and_eq_true, present_iff, beq_iff_eq]
  | succ k ih =>
    by_cases heven : (s.load64 (slot table page (12 + 9 * (k + 1))) &&& 1 == 0) = true
    · have hwalk : walkMapped s page (lastShifts (k + 1)) table = false := by
        simp only [lastShifts, walkMapped, heven, if_true]
      refine ⟨[slot table page (12 + 9 * (k + 1))], fun fuel hfuel => ?_, followed_cons h followed_nil, ?_⟩
      · obtain ⟨n, rfl⟩ := Nat.exists_eq_add_of_le' hfuel
        simp only [levelLoop, heven, if_true, hwalk]
      · rw [hwalk]
        have hno := not_identityMapped (by omega) h ((absent_iff _).mp heven)
        simp [hno]
    · have hpresent : s.load64 (slot table page (12 + 9 * (k + 1))) % 2 = 1 := by
        rw [absent_iff] at heven
        omega
      obtain ⟨log, hloop, hlog, hiff⟩ := ih (by omega) (Reached.child h hpresent)
      have hwalk : walkMapped s page (lastShifts (k + 1)) table = walkMapped s page (lastShifts k)
          (s.load64 (slot table page (12 + 9 * (k + 1))) &&& addressMask) := by
        rw [lastShifts, walkMapped, if_neg heven]
      refine ⟨slot table page (12 + 9 * (k + 1)) :: log, fun fuel hfuel => ?_, followed_cons h hlog, ?_⟩
      · obtain ⟨n, rfl⟩ := Nat.exists_eq_add_of_le' hfuel
        have hnext := hloop (k + 1 + n) (by omega)
        rw [show n + (k + 1 + 1) = k + 1 + n + 1 by omega, levelLoop]
        simp only [if_neg heven]
        rw [if_neg (by simp), show 12 + 9 * (k + 1) - 9 = 12 + 9 * k by omega, hwalk]
        exact congrArg _ hnext
      · rw [hwalk]
        exact hiff

theorem levelLoop_root (s : Machine) (page : ℕ) :
    ∃ log, (∀ fuel, 4 ≤ fuel →
        levelLoop s page fuel 39 s.pagingRoot = some (walkMapped s page tableShifts s.pagingRoot, log)) ∧
      Followed s log ∧ (walkMapped s page tableShifts s.pagingRoot = true ↔ IdentityMapped s page) :=
  levelLoop_spec 3 (le_refl _) Reached.root

end Page

theorem pageLoop_spec (s : Machine) (stop n page : ℕ) (hn : stop ≤ page + 4096 * n)
    (hwrap : page + 4096 * n < Word64.size) :
    ∃ r log, (∀ fuel, n + 5 ≤ fuel → pageLoop s stop fuel page = some (r, log)) ∧ Followed s log ∧
      (r = true ↔ ∀ k, page + 4096 * k < stop → IdentityMapped s (page + 4096 * k)) := by
  induction n generalizing page with
  | zero =>
    refine ⟨true, [], fun fuel hfuel => ?_, followed_nil, ?_⟩
    · obtain ⟨m, rfl⟩ := Nat.exists_eq_add_of_le' hfuel
      rw [show m + (0 + 5) = m + 4 + 1 by omega, pageLoop, if_neg (by omega)]
    · exact ⟨fun _ k hk => absurd hk (by omega), fun _ => rfl⟩
  | succ n ih =>
    by_cases hlt : page < stop
    · obtain ⟨log, hlevel, hlog, hiff⟩ := levelLoop_root s page
      cases hwalk : walkMapped s page tableShifts s.pagingRoot with
      | false =>
        refine ⟨false, log, fun fuel hfuel => ?_, hlog, ?_⟩
        · obtain ⟨m, rfl⟩ := Nat.exists_eq_add_of_le' hfuel
          rw [show m + (n + 1 + 5) = m + n + 5 + 1 by omega, pageLoop, if_pos hlt, hlevel _ (by omega), hwalk]
        · constructor
          · exact fun hc => absurd hc (by simp)
          · intro hall
            rw [← hwalk, hiff]
            exact hall 0 hlt
      | true =>
        have hroom : page + 4096 < Word64.size := by
          rw [Nat.mul_succ] at hwrap
          exact lt_of_le_of_lt (by omega) hwrap
        have hnext := Word64.add_eq hroom
        obtain ⟨r, rest, hloop, hrest, hr⟩ := ih (page + 4096) (by omega) (by omega)
        refine ⟨r, log ++ rest, fun fuel hfuel => ?_, followed_append hlog hrest, ?_⟩
        · obtain ⟨m, rfl⟩ := Nat.exists_eq_add_of_le' hfuel
          rw [show m + (n + 1 + 5) = m + n + 5 + 1 by omega, pageLoop, if_pos hlt, hlevel _ (by omega), hwalk, hnext]
          simp only [hloop _ (show n + 5 ≤ m + n + 5 by omega), Option.map_some]
        · rw [hr]
          constructor
          · intro hall k hk
            cases k with
            | zero => exact hiff.mp hwalk
            | succ k =>
              rw [show page + 4096 * (k + 1) = page + 4096 + 4096 * k by omega]
              exact hall k (by omega)
          · intro hall k hk
            have hsame : page + 4096 + 4096 * k = page + 4096 * (k + 1) := by omega
            rw [hsame] at hk ⊢
            exact hall (k + 1) hk
    · refine ⟨true, [], fun fuel hfuel => ?_, followed_nil, ?_⟩
      · obtain ⟨m, rfl⟩ := Nat.exists_eq_add_of_le' hfuel
        rw [show m + (n + 1 + 5) = m + n + 5 + 1 by omega, pageLoop, if_neg hlt]
      · exact ⟨fun _ k hk => absurd hk (by omega), fun _ => rfl⟩

structure Covered (s : Machine) (base size : ℕ) : Prop where
  nonempty : 0 < size
  low : 0x100000 ≤ base
  high : base + size ≤ 2 ^ 32
  pages : ∀ page, page % 4096 = 0 → base < page + 4096 → page < base + size → IdentityMapped s page

theorem mappedRange_iff_covered (s : Machine) {base size : ℕ} (hb : base < Word64.size) :
    mappedRange s base size = true ↔ Covered s base size := by
  rw [mappedRange_iff_walks s hb]
  constructor
  · rintro ⟨hne, hlow, hhigh, hpages⟩
    refine ⟨by omega, hlow, hhigh, fun page hp hlo hhi => ?_⟩
    obtain ⟨-, -, -, hiff⟩ := levelLoop_root s page
    exact hiff.mp (hpages page hp (by omega) hhi)
  · rintro ⟨hne, hlow, hhigh, hpages⟩
    refine ⟨by omega, hlow, hhigh, fun page hp hlo hhi => ?_⟩
    obtain ⟨-, -, -, hiff⟩ := levelLoop_root s page
    exact hiff.mpr (hpages page hp (by omega) hhi)

/-- The loops end, and with the verdict of `mappedRange`. -/
theorem mappedRangeLoop_eq (s : Machine) {base size : ℕ} (hb : base < Word64.size) :
    ∃ log, (∀ fuel, 2 ^ 20 + 5 ≤ fuel → mappedRangeLoop fuel s base size = some (mappedRange s base size, log)) ∧
      Followed s log := by
  by_cases hguard : (size == 0 || decide (base < 0x100000) || decide (base ≥ pmmLimit) ||
      decide (size > pmmLimit - base)) = true
  · refine ⟨[], fun fuel hfuel => ?_, followed_nil⟩
    rw [mappedRangeLoop, mappedRange, if_pos hguard, if_pos hguard]
  · have hbounds := hguard
    simp only [Bool.or_eq_true, beq_iff_eq, decide_eq_true_eq, not_or, Nat.not_lt, ge_iff_le,
      Nat.not_le, gt_iff_lt, pmmLimit] at hbounds
    obtain ⟨⟨⟨hne, hlow⟩, hlim⟩, hsize⟩ := hbounds
    have hstop : Word64.add base size = base + size := Word64.add_eq (by unfold Word64.size; omega)
    obtain ⟨r, log, hloop, hlog, hr⟩ := pageLoop_spec s (base + size) (2 ^ 20) (4096 * (base / 4096)) (by omega)
      (by unfold Word64.size; omega)
    have hresult : r = mappedRange s base size := by
      rw [Bool.eq_iff_iff, hr, mappedRange_iff_covered s hb]
      constructor
      · intro hall
        refine ⟨by omega, hlow, by omega, fun page hp hlo hhi => ?_⟩
        have hk := hall ((page - 4096 * (base / 4096)) / 4096) (by omega)
        rw [show 4096 * (base / 4096) + 4096 * ((page - 4096 * (base / 4096)) / 4096) = page by omega] at hk
        exact hk
      · rintro ⟨-, -, -, hpages⟩ k hk
        exact hpages _ (by omega) (by omega) hk
    refine ⟨log, fun fuel hfuel => ?_, hlog⟩
    rw [mappedRangeLoop, if_neg hguard, Word64.and_page hb, hstop, hloop fuel hfuel, hresult]

/-- For all 64-bit arguments and whatever `paging_root` points to: the loops end, follow present
    entries only, and decide whether the range is covered. -/
theorem mapped_range_exact (s : Machine) (base size : BitVec 64) :
    (∃ log, (∀ fuel, 2 ^ 20 + 5 ≤ fuel →
        mappedRangeLoop fuel s base.toNat size.toNat = some (mappedRange s base.toNat size.toNat, log)) ∧
      Followed s log) ∧
    (mappedRange s base.toNat size.toNat = true ↔ Covered s base.toNat size.toNat) :=
  ⟨mappedRangeLoop_eq s base.isLt, mappedRange_iff_covered s base.isLt⟩

end OsByAi.PagingRange
