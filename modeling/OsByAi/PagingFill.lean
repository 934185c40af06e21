import OsByAi.PagingInit

set_option autoImplicit false

namespace OsByAi.PagingFill
open ByteMemory PackedBitmap BootInformation PmmModel PmmInvariant PmmBootMap
open PagingModel PagingEntries PagingTree PagingWalk PagingGrowth PagingBuild PagingInit RadixTree

/-- A store of a word in a page of `P`, or a page given back. -/
def Allowed (P : ℕ → Prop) (e : Event) : Prop :=
  (∃ a v, e = .store a v ∧ a % 8 = 0 ∧ P (a / 4096)) ∨ ∃ a, e = .pmmFree a

structure Confined (P : ℕ → Prop) (s s' : Machine) : Prop where
  trace : ∃ events, s'.trace = s.trace ++ events ∧ ∀ e ∈ events, Allowed P e
  mem : ∀ x, ¬ P (x / 4096) → s'.mem x = s.mem x

section Confined

variable {P : ℕ → Prop} {s t u : Machine}

theorem Confined.refl (s : Machine) : Confined P s s := ⟨⟨[], by simp⟩, fun _ _ => rfl⟩

theorem Confined.trans (h : Confined P s t) (h' : Confined P t u) : Confined P s u := by
  obtain ⟨events, ht, hall⟩ := h.trace
  obtain ⟨events', hu, hall'⟩ := h'.trace
  refine ⟨⟨events ++ events', by rw [hu, ht, List.append_assoc], ?_⟩, fun x hx => (h'.mem x hx).trans (h.mem x hx)⟩
  intro e he
  rcases List.mem_append.mp he with he | he
  · exact hall e he
  · exact hall' e he

theorem store64_confined (s : Machine) {a : ℕ} (v : ℕ) (ha : a % 8 = 0) (hP : P (a / 4096)) :
    Confined P s (s.store64 a v) := by
  refine ⟨⟨[.store a v], rfl, ?_⟩, ?_⟩
  · intro e he
    rw [List.mem_singleton] at he
    exact .inl ⟨a, v, he, ha, hP⟩
  · intro x hx
    apply store_of_outside
    have hne : x / 4096 ≠ a / 4096 := by
      intro heq
      rw [heq] at hx
      exact hx hP
    omega

theorem slot_confined (s : Machine) {n : ℕ} (address shift v : ℕ) (hP : P n) :
    Confined P s (s.store64 (slot (4096 * n) address shift) v) := by
  have hlt := (pageIndex address shift).isLt
  apply store64_confined
  · rw [slot_eq]
    omega
  · rw [slot_eq, show (4096 * n + 8 * (pageIndex address shift).val) / 4096 = n by omega]
    exact hP

theorem zeroFrom_confined (s : Machine) {page : ℕ} (hP : P page) (i k : ℕ) (hk : i + k ≤ 512) :
    Confined P s (zeroFrom s (4096 * page) i k) := by
  induction k generalizing s i with
  | zero => exact Confined.refl s
  | succ k ih =>
    have hfirst : Confined P s (s.store64 (4096 * page + 8 * i) 0) := by
      apply store64_confined
      · omega
      · rw [show (4096 * page + 8 * i) / 4096 = page by omega]
        exact hP
    rw [zeroFrom]
    exact hfirst.trans (ih _ (i + 1) (by omega))

theorem withTable_confined (s : Machine) {page : ℕ} (hP : P page) : Confined P s (withTable s page) := by
  unfold withTable
  have hzero := zeroFrom_confined { s with
    pmm := takePage s.pmm page
    tablePages := Function.update s.tablePages s.pagingTableCount (4096 * page)
    pagingTableCount := s.pagingTableCount + 1 } hP 0 512 (by omega)
  exact ⟨hzero.trace, hzero.mem⟩

theorem linked_confined (s : Machine) {n c : ℕ} (i : Fin 512) (hn : P n) (hc : P c) :
    Confined P s (linked s n i c) := by
  have hlt := i.isLt
  refine (withTable_confined s hc).trans ?_
  apply store64_confined
  · omega
  · rw [show (4096 * n + 8 * i.val) / 4096 = n by omega]
    exact hn

end Confined

/-- How `s` grew into `s'`: tables were added on the way to addresses in `V` only. -/
structure Filled (s s' : Machine) (held : Finset ℕ) (V : ℕ → Prop) : Prop where
  inv : TreeInv s' held
  frame : Frame s s'
  confined : ∀ P : ℕ → Prop, (∀ page, bit s.pmm.eligible page = true → page ∉ held → P page) → Confined P s s'
  kept : ∀ q n, q.length ≤ 3 → node s q = some n → node s' q = some n
  fresh : ∀ q, q.length ≤ 3 → node s q = none → node s' q ≠ none → ∃ v, V v ∧ q <+: upper v

section Loops

variable {L : Layout} {s s' s'' : Machine} {held : Finset ℕ} {V W : ℕ → Prop} {v : ℕ}

theorem Filled.refl (h : TreeInv s held) (V : ℕ → Prop) : Filled s s held V :=
  ⟨h, Frame.refl s, fun _ _ => Confined.refl s, fun _ _ _ hn => hn, fun _ _ hn hs => absurd hn hs⟩

theorem Filled.trans (h : Filled s s' held V) (h' : Filled s' s'' held V) : Filled s s'' held V where
  inv := h'.inv
  frame := h.frame.trans h'.frame
  confined P hP := (h.confined P hP).trans (h'.confined P (by rw [h.frame.eligible]; exact hP))
  kept q n hq hn := h'.kept q n hq (h.kept q n hq hn)
  fresh q hq hn hs := by
    cases hm : node s' q with
    | none => exact h'.fresh q hq hm hs
    | some m => exact h.fresh q hq hn (by rw [hm]; simp)

theorem Filled.mono (h : Filled s s' held V) (hVW : ∀ v, V v → W v) : Filled s s' held W where
  inv := h.inv
  frame := h.frame
  confined := h.confined
  kept := h.kept
  fresh q hq hn hs := by
    obtain ⟨v, hv, hpre⟩ := h.fresh q hq hn hs
    exact ⟨v, hVW v hv, hpre⟩

theorem table_loose (h : TreeInv s held) {p : Path} {n : ℕ} (hp : p.length ≤ 3) (hn : node s p = some n) :
    bit s.pmm.eligible n = true ∧ n ∉ held :=
  ⟨h.node_eligible hp hn, fun hh => h.disjoint n hh (h.node_live hp hn)⟩

theorem free_loose (h : TreeInv s held) {c : ℕ} (hf : IsFree s.pmm c) :
    bit s.pmm.eligible c = true ∧ c ∉ held := by
  refine ⟨hf.1, fun hh => ?_⟩
  have := (h.owned c).mpr (.inr hh)
  rw [hf.2] at this
  exact absurd this (by simp)

theorem descend_confined {P : ℕ → Prop} {p : Path} {n : ℕ} (shifts : List ℕ) (h : TreeInv s held)
    (hP : ∀ page, bit s.pmm.eligible page = true → page ∉ held → P page) (hn : node s p = some n)
    (hlen : p.length + shifts.length = 3) : Confined P s (descend v shifts (4096 * n) s).2 := by
  induction shifts generalizing s p n with
  | nil => exact Confined.refl s
  | cons shift shifts ih =>
    have hp : p.length ≤ 2 := by
      simp at hlen
      omega
    have hlen' : (p ++ [pageIndex v shift]).length + shifts.length = 3 := by
      simp at hlen ⊢
      omega
    rw [descend_cons]
    obtain ⟨c, hc, hpres, hmask⟩ | ⟨hnone, habs, hno, hnew⟩ |
      ⟨c, hnone, habs, hroom, hf, hmin, hlo, hhi, hnew, hstore, hmask⟩ :=
        level_cases v shift h hp hn
    · simp only [hpres, if_true, hmask]
      exact ih h hP hc hlen'
    · simp only [habs, hnew]
      exact Confined.refl s
    · have hne : (4096 * c == 0) = false := by
        rw [beq_eq_false_iff_ne]
        omega
      simp only [habs, hnew, hne, hstore, hmask, Bool.false_eq_true, if_false]
      obtain ⟨hl, -, hchild⟩ := linked_level h hp hn hnone hf hmin hroom
      have heligible := (linked_frame (i := pageIndex v shift) h (by omega) hn hf).eligible
      have htable := table_loose h (by omega) hn
      have hfree := free_loose h hf
      exact (linked_confined s _ (hP n htable.1 htable.2) (hP c hfree.1 hfree.2)).trans
        (ih hl (by rw [heligible]; exact hP) hchild hlen')

theorem writeLeaf_filled (h : TreeInv s held) (address : ℕ) {p : Path} {n x : ℕ} (hp : p.length = 3)
    (hn : node s p = some n) (hx : x < Word64.size) (hshape : x = 0 ∨ x % 2 = 1) :
    Filled s (s.store64 (slot (4096 * n) address 12) x) held V ∧
      ∀ q, q.length ≤ 3 → node (s.store64 (slot (4096 * n) address 12) x) q = node s q := by
  obtain ⟨htree, hedit⟩ := h.writeLeaf (i := pageIndex address 12) hp hn hx hshape
  have hframe := store_frame (i := pageIndex address 12) h hp.le hn x
  have hloose := table_loose h hp.le hn
  rw [slot_eq]
  have hnode : ∀ q : Path, q.length ≤ 3 →
      node (s.store64 (4096 * n + 8 * (pageIndex address 12).val) x) q = node s q := by
    intro q hq
    rw [Edit.node_eq hedit hframe.root hq, if_neg]
    rintro rfl
    simp [hp] at hq
  refine ⟨⟨htree, hframe, ?_, ?_, ?_⟩, hnode⟩
  · intro P hP
    rw [← slot_eq]
    exact slot_confined s address 12 x (hP n hloose.1 hloose.2)
  · intro q m hq hm
    rw [hnode q hq]
    exact hm
  · intro q hq hnone hsome
    rw [hnode q hq] at hsome
    exact absurd hnone hsome

theorem identityFlags_shape (L : Layout) (hv : v < Word64.size) :
    v ||| identityFlags L v < Word64.size ∧ (v ||| identityFlags L v) % 2 = 1 := by
  have hflags : identityFlags L v < Word64.size ∧ identityFlags L v % 2 = 1 := by
    unfold identityFlags
    split
    · decide
    · split <;> decide
  refine ⟨?_, ?_⟩
  · exact Nat.or_lt_two_pow (n := 64) hv hflags.1
  · have hor : (v ||| identityFlags L v) % 2 ^ 1 = v % 2 ^ 1 ||| identityFlags L v % 2 ^ 1 := Nat.or_mod_two_pow
    rw [Nat.pow_one, hflags.2] at hor
    rw [hor]
    obtain hmod | hmod := Nat.mod_two_eq_zero_or_one v
    · rw [hmod]
      rfl
    · rw [hmod]
      rfl

theorem mapPage_filled (h : TreeInv s held) (hv : v < Word64.size) :
    Filled s (mapPage L v s).2 held (· = v) ∧
      ((mapPage L v s).1 = true → node (mapPage L v s).2 (upper v) ≠ none) := by
  obtain ⟨hgrown, -, hend⟩ := descend_spec v tableShifts h (node_nil s) rfl
  have hdown : Filled s (descend v tableShifts (4096 * rootFrame s) s).2 held (· = v) :=
    ⟨hgrown.inv, hgrown.frame, fun P hP => descend_confined tableShifts h hP (node_nil s) rfl, hgrown.kept,
      fun q hq hn hs => ⟨v, rfl, hgrown.fresh q hq hn hs⟩⟩
  rw [mapPage_eq]
  rw [h.root_eq]
  rcases hres : descend v tableShifts (4096 * rootFrame s) s with ⟨table, t⟩
  rw [hres] at hdown hend
  cases table with
  | none => exact ⟨hdown, fun hc => absurd hc (by simp)⟩
  | some table =>
    obtain ⟨n, rfl, hn⟩ := hend table rfl
    obtain ⟨hlt, hodd⟩ := identityFlags_shape L hv
    obtain ⟨hleaf, hnode⟩ := writeLeaf_filled (V := (· = v)) hdown.inv v (length_upper v) hn hlt (.inr hodd)
    refine ⟨hdown.trans hleaf, fun _ => ?_⟩
    have hsame := hnode (upper v) (length_upper v).le
    have hn' : node t (upper v) = some n := hn
    simp only [hsame, hn']
    simp

theorem mapPages_filled (n : ℕ) (h : TreeInv s held) {page : ℕ} (hlim : page + 4096 * n ≤ Word64.size + 4095) :
    Filled s (mapPages L n page s).2 held fun w => ∃ k, k < n ∧ w = page + 4096 * k := by
  induction n generalizing s page with
  | zero => exact Filled.refl h _
  | succ n ih =>
    obtain ⟨hpage, -⟩ := mapPage_filled (L := L) h (v := page) (by omega)
    have hfirst := hpage.mono (W := fun w => ∃ k, k < n + 1 ∧ w = page + 4096 * k)
      (fun w hw => ⟨0, by omega, by omega⟩)
    rw [mapPages_succ]
    rcases hres : mapPage L page s with ⟨ok, t⟩
    rw [hres] at hfirst
    cases ok with
    | false => exact hfirst
    | true =>
      have hrest : Filled t (mapPages L n (page + 4096) t).2 held
          fun w => ∃ k, k < n ∧ w = page + 4096 + 4096 * k := ih hfirst.inv (by omega)
      refine hfirst.trans (hrest.mono ?_)
      rintro w ⟨k, hk, rfl⟩
      exact ⟨k + 1, by omega, by omega⟩

def Visits (d : Descriptor) (w : ℕ) : Prop :=
  Mappable d ∧ ∃ k, w = clipBegin d + 4096 * k ∧ w < clipEnd d

theorem mapDescriptor_filled (d : Descriptor) (h : TreeInv s held) :
    Filled s (mapDescriptor L d s).2 held (Visits d) := by
  rw [mapDescriptor_eq]
  split
  · exact Filled.refl h _
  · rename_i hskip
    have hm : Mappable d := by
      by_contra hno
      exact hskip ((skip_iff d).mpr hno)
    split
    · exact Filled.refl h _
    · rename_i hne
      split
      · exact Filled.refl h _
      · have hend : clipEnd d ≤ pmmLimit := by
          unfold clipEnd
          split <;> omega
        unfold pmmLimit at hend
        refine (mapPages_filled _ h (by unfold Word64.size; omega)).mono ?_
        rintro w ⟨k, hk, rfl⟩
        exact ⟨hm, k, rfl, by omega⟩

theorem mapBootRamFrom_filled (info fuel offset : ℕ) (h : TreeInv s held) :
    Filled s (mapBootRamFrom L info fuel offset s).2 held fun _ => True := by
  induction fuel generalizing s offset with
  | zero => exact Filled.refl h _
  | succ fuel ih =>
    rw [mapBootRamFrom_succ]
    split
    · generalize descriptorAt s.mem _ = d
      have hone := (mapDescriptor_filled (L := L) d h).mono (W := fun _ => True) fun _ _ => trivial
      rcases hres : mapDescriptor L d s with ⟨ok, t⟩
      rw [hres] at hone
      cases ok with
      | false => exact hone
      | true => exact hone.trans (ih _ hone.inv)
    · exact Filled.refl h _

theorem mapBootRam_filled {s0 : Machine} {info : ℕ} (hb : BootOk s0 info) (fuel i : ℕ) (h : TreeInv s held)
    (hf : MemFrame s0 s) (hi : i ≤ mapCount s0.mem info) :
    Filled s (mapBootRamFrom L info fuel (i * (bootInfoAt s0.mem info).descriptorSize) s).2 held
      fun w => w % 4096 = 0 ∧ BootRam s0.mem info w := by
  induction fuel generalizing s i with
  | zero => exact Filled.refl h _
  | succ fuel ih =>
    rw [mapBootRamFrom_succ]
    simp only [hb.bootInfo_eq hf]
    by_cases hlt : i < mapCount s0.mem info
    · rw [if_pos (offset_lt hb.valid hlt), descriptor_read hb hf hlt]
      have hvalid := hb.valid.descriptor_valid hlt
      have hone := mapDescriptor_filled (L := L) (descriptor s0.mem info i) h
      have hram : ∀ w, Visits (descriptor s0.mem info i) w → w % 4096 = 0 ∧ BootRam s0.mem info w := by
        rintro w ⟨hm, k, rfl, hlim⟩
        have hbegin := clipBegin_aligned hvalid
        refine ⟨by omega, i, hlt, hm, ?_⟩
        exact (clip_iff hvalid (descriptorAt_start_lt _ _) _).mp ⟨by omega, hlim⟩
      have hfirst := hone.mono hram
      rcases hres : mapDescriptor L (descriptor s0.mem info i) s with ⟨ok, t⟩
      rw [hres] at hfirst
      cases ok with
      | false => exact hfirst
      | true =>
        have hf' : MemFrame s0 t := hf.trans (Frame.memFrame hfirst.frame)
        simp only [hb.bootInfo_eq hf', offset_next hb hlt]
        exact hfirst.trans (ih (i + 1) hfirst.inv hf' hlt)
    · rw [if_neg (by rw [mapSize_eq hb.valid, show i = mapCount s0.mem info by omega]; exact lt_irrefl _)]
      exact Filled.refl h _

theorem mappedRange_first (h : TreeInv s held) {base size : ℕ} (hb : base < Word64.size)
    (hm : mappedRange s base size = true) : node s (upper base) ≠ none := by
  have hin := (mappedRange_iff_walks s hb).mp hm
  have hne := hin.nonempty
  have hwalk := hin.pages (4096 * (base / 4096)) (by omega) (le_refl _) (by omega)
  rw [h.root_eq, PagingWalk.walkMapped_iff h tableShifts (node_nil s) rfl] at hwalk
  rw [(upper_page base).1]
  obtain ⟨m, hnode⟩ := node_of_leaf (s := s) (q := upper (4096 * (base / 4096)))
    (i := pageIndex (4096 * (base / 4096)) 12) (by
      intro hz
      have hodd := hwalk.1
      rw [List.nil_append, ← upper, hz] at hodd
      exact absurd hodd (by decide))
  rw [hnode]
  simp

theorem unmapGuards_filled (gs : List ℕ) (h : TreeInv s held) (hgs : ∀ g ∈ gs, g < Word64.size) :
    Filled s (unmapGuards gs s).2 held (fun _ => False) ∧
      ∀ q, q.length ≤ 3 → node (unmapGuards gs s).2 q = node s q := by
  induction gs generalizing s with
  | nil => exact ⟨Filled.refl h _, fun _ _ => rfl⟩
  | cons g gs ih =>
    rw [unmapGuards]
    cases hmap : mappedRange s g 4096 with
    | false => exact ⟨Filled.refl h _, fun _ _ => rfl⟩
    | true =>
      obtain ⟨n, htab, hn⟩ := leafTable_eq (v := g) h tableShifts (node_nil s) rfl
        (mappedRange_first h (hgs g (by simp)) hmap)
      obtain ⟨hleaf, hnode⟩ := writeLeaf_filled (V := fun _ => False) (x := 0) h g (length_upper g) hn
        (by decide) (.inl rfl)
      obtain ⟨hrest, hnodes⟩ := ih hleaf.inv (fun x hx => hgs x (by simp [hx]))
      simp only [Bool.not_true, Bool.false_eq_true, if_false, h.root_eq, htab]
      exact ⟨hleaf.trans hrest, fun q hq => (hnodes q hq).trans (hnode q hq)⟩

theorem pagingInit_true {info : ℕ} (h : Idle s held info) (hok : (pagingInit L info s).1 = true) :
    BootOk s info ∧ ∃ c s1 s2, IsFree s.pmm c ∧ (∀ q, IsFree s.pmm q → c ≤ q) ∧
      mapBootRam L info (planted s c) = (true, s1) ∧ requiredRegionsMapped info s1 = true ∧
      unmapStackGuards L info s1 = (true, s2) ∧
      (pagingInit L info s).2 = activatePageTables s.cpu.cr4 s2 := by
  have hguard : (s.active || info == 0 || pmmTotal s.pmm == 0) = false := by
    by_contra hno
    rw [pagingInit_unfold, if_pos (Bool.eq_true_of_not_eq_false hno)] at hok
    exact absurd hok (by simp)
  have hcpu : supportedCpuState s.cpu s.cpu.cr4 = true := by
    by_contra hno
    simp [pagingInit, pagingInitWith, hguard, Bool.eq_false_of_not_eq_true hno] at hok
  simp only [Bool.or_eq_false_iff, beq_eq_false_iff_ne] at hguard
  obtain ⟨hnew, -⟩ | ⟨c, -, hfree, hmin, hnew⟩ := newTable_cases h.pmm
  · simp [pagingInit, pagingInitWith, hguard, hcpu, hnew] at hok
  · have hready : s.pmm.ready = true := by
      by_contra hno
      exact h.pmm.not_free_of_cold (by simpa using hno) c hfree
    have hbounds := h.pmm.bounds c hfree.1
    rw [pagingInit_eq h.inactive hguard.1.2 hguard.2 hcpu hnew (by omega), ← planted] at hok ⊢
    rw [fillRoot_eq] at hok ⊢
    rcases hmap : mapBootRam L info (planted s c) with ⟨ok, s1⟩
    rw [hmap] at hok
    cases ok with
    | false => exact absurd hok (by simp)
    | true =>
      simp only at hok ⊢
      cases hreq : requiredRegionsMapped info s1 with
      | false => simp only [hreq, Bool.not_false, if_true, Bool.false_eq_true] at hok
      | true =>
        simp only [hreq, Bool.not_true, Bool.false_eq_true, if_false] at hok ⊢
        rcases hun : unmapStackGuards L info s1 with ⟨ok, s2⟩
        rw [hun] at hok
        cases ok with
        | false => exact absurd hok (by simp)
        | true => exact ⟨h.boot hready, c, s1, s2, hfree, hmin, hmap, hreq, hun, rfl⟩

end Loops

end OsByAi.PagingFill
