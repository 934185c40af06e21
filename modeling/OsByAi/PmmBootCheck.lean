import OsByAi.BootChecks
import OsByAi.PagingInitFailure
import OsByAi.PmmRefinement

set_option autoImplicit false

namespace OsByAi.PmmBootCheck
open ByteMemory PackedBitmap PmmModel PmmInvariant PmmRefinement PagingModel PagingEntries PagingTree PagingAgree
open PagingInitFailure BootChecks

/-- `q` is `p` without the free pages in `T`. -/
structure Taken (p : Pmm) (T : Finset ℕ) (q : Pmm) : Prop where
  inv : Inv q
  ready : q.ready = p.ready
  eligible : q.eligible = p.eligible
  total : q.totalPages = p.totalPages
  allocated : ∀ page, bit q.allocated page = true ↔ bit p.allocated page = true ∨ page ∈ T
  fresh : ∀ page ∈ T, IsFree p page

namespace Taken

variable {p q : Pmm} {T : Finset ℕ} {page : ℕ}

theorem refl (h : Inv p) : Taken p ∅ p := ⟨h, rfl, rfl, rfl, by simp, by simp⟩

theorem isFree_iff (h : Taken p T q) (page : ℕ) : IsFree q page ↔ IsFree p page ∧ page ∉ T := by
  have ha := h.allocated page
  unfold IsFree
  rw [h.eligible, ← Bool.not_eq_true, ← Bool.not_eq_true, ha, not_or, and_assoc]

theorem freePages_eq (hp : Inv p) (h : Taken p T q) : q.freePages + T.card = p.freePages := by
  have hset : pagesOf q.allocated = pagesOf p.allocated ∪ T := by
    ext page
    rw [Finset.mem_union, h.inv.mem_allocated, hp.mem_allocated, h.allocated]
  have hdisj : Disjoint (pagesOf p.allocated) T := by
    rw [Finset.disjoint_left]
    intro page ha ht
    rw [hp.mem_allocated, (h.fresh page ht).2] at ha
    exact absurd ha (by simp)
  have hq := h.inv.free
  have := hp.free
  rw [hset, Finset.card_union_of_disjoint hdisj, h.eligible] at hq
  omega

theorem alloc (hp : Inv p) (h : Taken p T q) (hlt : T.card < p.freePages) :
    ∃ page q', pmmAlloc q (some 0) = (true, some (4096 * page), q') ∧ page ∉ T ∧ IsFree p page ∧
      (∀ r, IsFree p r → r ∉ T → page ≤ r) ∧ Taken p (insert page T) q' := by
  have hcount := freePages_eq hp h
  obtain ⟨-, hno | hno⟩ | ⟨page, -, -, hf, hmin, ha⟩ := h.inv.alloc_cases (some 0)
  · exact absurd hno (by simp)
  · have := h.inv.freePages_eq_zero.mpr hno
    omega
  · obtain ⟨hfree, hnot⟩ := (h.isFree_iff page).mp hf
    refine ⟨page, takePage q page, by rw [ha, Nat.mul_comm], hnot, hfree,
      fun r hr hrt => hmin r ((h.isFree_iff r).mpr ⟨hr, hrt⟩), h.inv.take hf hmin, h.ready, h.eligible, h.total, ?_, ?_⟩
    · intro r
      simp only [takePage, bit_set, Bool.or_eq_true, decide_eq_true_eq, h.allocated, Finset.mem_insert]
      exact or_left_comm
    · intro r hr
      rcases Finset.mem_insert.mp hr with rfl | hr
      · exact hfree
      · exact h.fresh r hr

theorem give (h : Taken p T q) (hp : page ∈ T) :
    ∃ q', pmmFree q (4096 * page) = (true, q') ∧ Taken p (T.erase page) q' := by
  have hdiv : 4096 * page / 4096 = page := Nat.mul_div_cancel_left _ (by decide)
  have hb : bit q.allocated page = true := (h.allocated page).mpr (.inr hp)
  obtain ⟨-, hno⟩ | ⟨-, -, hf⟩ := h.inv.free_cases (4096 * page)
  · exact absurd ⟨Nat.mul_mod_right _ _, by rw [hdiv]; exact hb⟩ hno
  · rw [hdiv] at hf
    refine ⟨givePage q page, hf, h.inv.give hb, h.ready, h.eligible, h.total, ?_, ?_⟩
    · intro r
      simp only [givePage, bit_clear, Bool.and_eq_true, Bool.not_eq_true', decide_eq_false_iff_not, h.allocated,
        Finset.mem_erase]
      constructor
      · rintro ⟨hne, ha | ht⟩
        · exact .inl ha
        · exact .inr ⟨hne, ht⟩
      · rintro (ha | ⟨hne, ht⟩)
        · refine ⟨?_, .inl ha⟩
          rintro rfl
          rw [(h.fresh _ hp).2] at ha
          exact absurd ha (by simp)
        · exact ⟨hne, .inr ht⟩
    · exact fun r hr => h.fresh r (Finset.mem_of_mem_erase hr)

theorem refuse (h : Taken p T q) {a : ℕ}
    (hno : a % 4096 ≠ 0 ∨ ¬ (bit p.allocated (a / 4096) = true ∨ a / 4096 ∈ T)) : pmmFree q a = (false, q) := by
  obtain ⟨hf, -⟩ | ⟨ha, hb, -⟩ := h.inv.free_cases a
  · exact hf
  · rcases hno with hno | hno
    · exact absurd ha hno
    · exact absurd ((h.allocated _).mp hb) hno

theorem samePages (hp : Inv p) (h : Taken p ∅ q) : SamePages p q := by
  apply samePages_idle hp h.inv h.ready h.eligible h.total
  intro page
  rw [Bool.eq_iff_iff, h.allocated]
  simp

end Taken

section Memory

variable {s t : Machine} {T : Finset ℕ} {page other : ℕ}

/-- `t` is `s` but for the pages taken, and the bytes of pages that are free in `s`. -/
structure Borrowed (s : Machine) (T : Finset ℕ) (t : Machine) : Prop where
  pages : Taken s.pmm T t.pmm
  rest : t = { s with pmm := t.pmm, mem := t.mem, trace := t.trace }
  mem : ∀ x, ¬ IsFree s.pmm (x / 4096) → t.mem x = s.mem x

theorem Borrowed.withPmm (h : Borrowed s T t) {T' : Finset ℕ} {q : Pmm} (hq : Taken s.pmm T' q) :
    Borrowed s T' { t with pmm := q } where
  pages := hq
  rest := by
    rw [h.rest]
  mem := h.mem

def Filled (page : ℕ) (m : Memory) : Prop := ∀ j < 512, load m (4096 * page + 8 * j) 8 = (4096 * page) ^^^ j

theorem pattern_lt (hp : page < pageCount) {j : ℕ} (hj : j < 512) : (4096 * page) ^^^ j < Word64.size := by
  rw [pageCount_eq] at hp
  have hx : (4096 * page) ^^^ j < 2 ^ 32 := Nat.xor_lt_two_pow (by omega) (by omega)
  unfold Word64.size
  omega

theorem fillFrom_rest (page j n : ℕ) (s : Machine) : fillFrom page j n s =
    { s with mem := (fillFrom page j n s).mem, trace := (fillFrom page j n s).trace } := by
  induction n generalizing s j with
  | zero => rfl
  | succ n ih =>
    rw [fillFrom, ih]
    rfl

theorem fillFrom_other (page : ℕ) {j n : ℕ} (s : Machine) (hn : j + n ≤ 512) {x : ℕ} (hx : x / 4096 ≠ page) :
    (fillFrom (4096 * page) j n s).mem x = s.mem x := by
  induction n generalizing s j with
  | zero => rfl
  | succ n ih =>
    rw [fillFrom, ih _ (by omega), store64_mem, store_of_outside]
    omega

theorem fillFrom_filled {j n : ℕ} (s : Machine) (hp : page < pageCount) (hn : j + n = 512)
    (hdone : ∀ k < j, load s.mem (4096 * page + 8 * k) 8 = (4096 * page) ^^^ k) :
    Filled page (fillFrom (4096 * page) j n s).mem := by
  induction n generalizing s j with
  | zero =>
    intro k hk
    exact hdone k (by omega)
  | succ n ih =>
    rw [fillFrom]
    apply ih _ (by omega)
    intro k hk
    rw [store64_mem]
    by_cases hkj : k = j
    · rw [hkj, load_store_same _ _ _ _ (pattern_lt hp (by omega))]
    · rw [load_store_of_disjoint _ _ _ _ _ _ (by omega)]
      exact hdone k (by omega)

theorem Borrowed.fill (h : Borrowed s T t) (hp : page ∈ T) :
    Borrowed s T (fillFrom (4096 * page) 0 512 t) ∧ Filled page (fillFrom (4096 * page) 0 512 t).mem ∧
      ∀ other, other ≠ page → Filled other t.mem → Filled other (fillFrom (4096 * page) 0 512 t).mem := by
  have hrest := fillFrom_rest (4096 * page) 0 512 t
  have hother : ∀ x, x / 4096 ≠ page → (fillFrom (4096 * page) 0 512 t).mem x = t.mem x :=
    fun x hx => fillFrom_other page t (by omega) hx
  have hfree := h.pages.fresh page hp
  have hlt : page < pageCount := by
    refine (h.pages.inv.bounds page ?_).2
    rw [h.pages.eligible]
    exact hfree.1
  have hfilled := fillFrom_filled t hlt (show 0 + 512 = 512 from rfl) (fun k hk => by omega)
  generalize fillFrom (4096 * page) 0 512 t = u at hrest hother hfilled ⊢
  refine ⟨⟨?_, ?_, ?_⟩, hfilled, ?_⟩
  · rw [hrest]
    exact h.pages
  · rw [hrest, h.rest]
  · intro x hx
    rw [hother x, h.mem x hx]
    rintro rfl
    exact hx hfree
  · intro other hne ho j hj
    rw [← ho j hj]
    apply load_congr
    intro x hlo hhi
    exact hother x (by omega)

end Memory

section Calls

variable {s t : Machine} {T : Finset ℕ} {page : ℕ}

theorem allocPage_reaches (hs : Inv s.pmm) (h : Borrowed s T t) (hlt : T.card < s.pmm.freePages) :
    allocPage.Reaches t fun a u => ∃ page, a = 4096 * page ∧ page ∉ T ∧ IsFree s.pmm page ∧
      (∀ r, IsFree s.pmm r → r ∉ T → page ≤ r) ∧ Borrowed s (insert page T) u ∧ u.mem = t.mem := by
  obtain ⟨page, q, ha, hnot, hfree, hmin, hq⟩ := h.pages.alloc hs hlt
  refine ⟨4096 * page, { t with pmm := q }, ?_, page, rfl, hnot, hfree, hmin, h.withPmm hq, rfl⟩
  unfold allocPage
  rw [ha]

theorem freeingPage_reaches (h : Borrowed s T t) (page : ℕ) (hp : page ∈ T) :
    (freeingPage (4096 * page)).Reaches t fun ok u => ok = true ∧ Borrowed s (T.erase page) u := by
  obtain ⟨q, hf, hq⟩ := h.pages.give hp
  apply Attempt.reaches_perform
  simp only [hf]
  exact ⟨trivial, h.withPmm hq⟩

theorem freeingPage_refused (h : Borrowed s T t) {a : ℕ}
    (hno : a % 4096 ≠ 0 ∨ ¬ (bit s.pmm.allocated (a / 4096) = true ∨ a / 4096 ∈ T)) :
    (freeingPage a).Reaches t fun ok u => ok = false ∧ Borrowed s T u := by
  apply Attempt.reaches_perform
  rw [h.pages.refuse hno]
  exact ⟨rfl, h⟩

/-- Each page of the list was the lowest free one when it was taken. -/
def LowestFirst (p : Pmm) (pages : List ℕ) : Prop :=
  ∀ before page after, pages = before ++ page :: after →
    page ∉ before ∧ IsFree p page ∧ ∀ r, IsFree p r → r ∉ before → page ≤ r

theorem LowestFirst.concat {p : Pmm} {pages : List ℕ} (h : LowestFirst p pages) (hnot : page ∉ pages)
    (hfree : IsFree p page) (hmin : ∀ r, IsFree p r → r ∉ pages → page ≤ r) : LowestFirst p (pages ++ [page]) := by
  intro before c after heq
  rcases List.eq_nil_or_concat after with rfl | ⟨rest, last, rfl⟩
  · obtain ⟨rfl, hlast⟩ := List.append_inj' heq rfl
    obtain rfl : page = c := by simpa using hlast
    exact ⟨hnot, hfree, hmin⟩
  · rw [List.concat_eq_append, ← List.cons_append, ← List.append_assoc] at heq
    exact h before c rest (List.append_inj' heq rfl).1

structure Loaded (s : Machine) (pages : List ℕ) (t : Machine) : Prop where
  borrowed : Borrowed s pages.toFinset t
  nodup : pages.Nodup
  filled : ∀ page ∈ pages, Filled page t.mem
  lowest : LowestFirst s.pmm pages

theorem Loaded.next {pages : List ℕ} {u : Machine} (h : Loaded s pages t) (hnot : page ∉ pages)
    (hfree : IsFree s.pmm page) (hmin : ∀ r, IsFree s.pmm r → r ∉ pages → page ≤ r)
    (hu : Borrowed s (insert page pages.toFinset) u) (hmem : u.mem = t.mem) :
    Loaded s (pages ++ [page]) (fillFrom (4096 * page) 0 512 u) := by
  obtain ⟨hborrowed, hfilled, hother⟩ := hu.fill (Finset.mem_insert_self page _)
  refine ⟨?_, ?_, ?_, h.lowest.concat hnot hfree hmin⟩
  · rw [show (pages ++ [page]).toFinset = insert page pages.toFinset by ext r; simp]
    exact hborrowed
  · rw [List.nodup_append_comm]
    exact List.nodup_cons.mpr ⟨hnot, h.nodup⟩
  · intro r hr
    rcases List.mem_append.mp hr with hr | hr
    · refine hother r (fun he => hnot (he ▸ hr)) ?_
      rw [hmem]
      exact h.filled r hr
    · rw [List.mem_singleton.mp hr]
      exact hfilled

theorem takePages_reaches (hs : Inv s.pmm) (n : ℕ) {pages : List ℕ} (h : Loaded s pages t)
    (hlt : pages.length + n ≤ s.pmm.freePages) :
    (takePages n (pages.map (4096 * ·))).Reaches t fun taken u =>
      ∃ more, taken = more.map (4096 * ·) ∧ more.length = pages.length + n ∧ Loaded s more u := by
  induction n generalizing t pages with
  | zero => exact Attempt.reaches_pure ⟨pages, rfl, rfl, h⟩
  | succ n ih =>
    have hcard := List.toFinset_card_of_nodup h.nodup
    refine (allocPage_reaches hs h.borrowed (by omega)).bind fun a u hu => ?_
    obtain ⟨page, rfl, hnot, hfree, hmin, hborrowed, hmem⟩ := hu
    simp only [List.mem_toFinset] at hnot hmin
    have hcontains : (pages.map (4096 * ·)).contains (4096 * page) = false := by
      rw [← Bool.not_eq_true, List.contains_iff_mem, List.mem_map]
      rintro ⟨r, hr, heq⟩
      have : r = page := by omega
      exact hnot (this ▸ hr)
    refine Attempt.Reaches.require (by rw [hcontains]; rfl) ?_
    refine Attempt.reaches_update.bind fun _ v hv => ?_
    rw [hv]
    have hnext := h.next hnot hfree hmin hborrowed hmem
    have hmap : pages.map (4096 * ·) ++ [4096 * page] = (pages ++ [page]).map (4096 * ·) := by simp
    rw [hmap]
    refine (ih hnext (by simp; omega)).mono fun taken v hv => ?_
    obtain ⟨more, htaken, hlen, hmore⟩ := hv
    exact ⟨more, htaken, by simp at hlen; omega, hmore⟩

theorem filledWith_of_filled (h : Filled page t.mem) : filledWith (4096 * page) t = true := by
  unfold filledWith
  rw [List.all_eq_true]
  intro j hj
  exact beq_iff_eq.mpr (h j (List.mem_range.mp hj))

theorem verifyPages_reaches (pages : List ℕ) (h : ∀ page ∈ pages, Filled page t.mem) :
    (verifyPages (pages.map (4096 * ·))).Reaches t fun _ u => t = u := by
  induction pages with
  | nil => exact Attempt.reaches_pure rfl
  | cons page pages ih =>
    refine Attempt.Reaches.bind (R := fun ok u => ok = true ∧ t = u)
      (Attempt.reaches_inspect ⟨filledWith_of_filled (h page (List.mem_cons_self ..)), rfl⟩) fun ok u hu => ?_
    obtain ⟨rfl, rfl⟩ := hu
    exact Attempt.Reaches.require rfl (ih fun r hr => h r (List.mem_cons_of_mem _ hr))

theorem availablePages_reaches (t : Machine) :
    availablePages.Reaches t fun n u => n = t.pmm.freePages ∧ t = u := Attempt.reaches_inspect ⟨rfl, rfl⟩

/-- The middle page comes back from the next allocation: it is lower than any other free page. -/
theorem again_eq {T : Finset ℕ} {c0 c1 c2 page : ℕ} (hlow : LowestFirst s.pmm [c0, c1, c2])
    (hT : T = ({c0, c1, c2} : Finset ℕ).erase c1) (hnot : page ∉ T) (hfree : IsFree s.pmm page)
    (hmin : ∀ r, IsFree s.pmm r → r ∉ T → page ≤ r) : page = c1 := by
  obtain ⟨hc01, hfree1, hmin1⟩ := hlow [c0] c1 [c2] rfl
  simp only [List.mem_singleton] at hc01 hmin1
  have hle : page ≤ c1 := hmin c1 hfree1 (by rw [hT]; exact Finset.notMem_erase _ _)
  have hne : page ≠ c0 := by
    rintro rfl
    refine hnot ?_
    rw [hT]
    exact Finset.mem_erase.mpr ⟨fun he => hc01 he.symm, Finset.mem_insert_self _ _⟩
  exact Nat.le_antisymm hle (hmin1 page hfree hne)

theorem pmmBootCheck_reaches (hs : Inv s.pmm) (hthree : 3 ≤ s.pmm.freePages) :
    pmmBootCheck.Reaches s fun _ t => Borrowed s ∅ t := by
  have hsize : s.pmm.freePages < Word64.size := hs.freePages_le.trans_lt pageCount_lt_size
  have hstart : Loaded s [] s := ⟨⟨Taken.refl hs, rfl, fun _ _ => rfl⟩, List.nodup_nil, by simp, by simp [LowestFirst]⟩
  unfold pmmBootCheck
  refine (availablePages_reaches s).bind fun before u hu => ?_
  obtain ⟨rfl, rfl⟩ := hu
  refine Attempt.Reaches.require (by simpa using hthree) ?_
  refine (takePages_reaches hs 3 hstart (by simpa using hthree)).bind fun pages t ht => ?_
  obtain ⟨taken, rfl, hlen, hloaded⟩ := ht
  refine (verifyPages_reaches taken hloaded.filled).bind fun _ v hv => ?_
  subst hv
  obtain ⟨c0, c1, c2, rfl⟩ := List.length_eq_three.mp hlen
  have hlow := hloaded.lowest
  have hborrowed := hloaded.borrowed
  obtain ⟨⟨hc01, hc02⟩, hc12⟩ : (c0 ≠ c1 ∧ c0 ≠ c2) ∧ c1 ≠ c2 := by simpa using hloaded.nodup
  obtain ⟨-, hfree0, -⟩ := hlow [] c0 [c1, c2] rfl
  have hb0 := hs.bounds c0 hfree0.1
  have hcount := hborrowed.pages.freePages_eq hs
  have hset : ([c0, c1, c2] : List ℕ).toFinset = {c0, c1, c2} := by simp
  rw [List.toFinset_card_of_nodup hloaded.nodup] at hcount
  rw [hset] at hborrowed
  clear hloaded hset
  refine (availablePages_reaches t).bind fun left u hu => ?_
  obtain ⟨rfl, rfl⟩ := hu
  refine Attempt.Reaches.require ?_ ?_
  · rw [Word64.sub_eq hthree hsize, beq_iff_eq]
    simp at hcount
    omega
  simp only [List.map_cons, List.map_nil, List.getD_cons_zero, List.getD_cons_succ]
  -- the two calls that have to fail
  rw [pageCount_eq] at hb0
  rw [Word64.add_eq (show 4096 * c0 + 1 < Word64.size by unfold Word64.size; omega)]
  refine (freeingPage_refused hborrowed (a := 4096 * c0 + 1) (.inl (by omega))).deny fun u hu => ?_
  have hzero : ¬ (bit s.pmm.allocated (0 / 4096) = true ∨ 0 / 4096 ∈ ({c0, c1, c2} : Finset ℕ)) := by
    rintro (ha | hm)
    · have := (hs.bounds _ (hs.sub _ ha)).1
      omega
    · have := (hs.bounds _ (hu.pages.fresh _ hm).1).1
      omega
  refine (freeingPage_refused hu (.inr hzero)).deny fun u hu => ?_
  -- the middle page goes back, cannot go back twice, and comes out again
  refine (freeingPage_reaches hu c1 (by simp)).expect fun u hu => ?_
  have hgone : ¬ (bit s.pmm.allocated (4096 * c1 / 4096) = true ∨ 4096 * c1 / 4096 ∈ ({c0, c1, c2} : Finset ℕ).erase c1) := by
    obtain ⟨-, hfree1, -⟩ := hlow [c0] c1 [c2] rfl
    rw [Nat.mul_div_cancel_left _ (by decide), hfree1.2]
    simp
  refine (freeingPage_refused hu (.inr hgone)).deny fun u hu => ?_
  have hcard : (({c0, c1, c2} : Finset ℕ).erase c1).card < s.pmm.freePages := by
    have := Finset.card_le_three (a := c0) (b := c1) (c := c2)
    have := Finset.card_erase_lt_of_mem (show c1 ∈ ({c0, c1, c2} : Finset ℕ) by simp)
    omega
  refine (allocPage_reaches hs hu hcard).bind fun again u hu => ?_
  obtain ⟨page, rfl, hnot, hfree, hmin, hu, -⟩ := hu
  obtain rfl := again_eq hlow rfl hnot hfree hmin
  refine Attempt.Reaches.require (beq_self_eq_true _) ?_
  -- the three pages go back
  refine (freeingPage_reaches hu c0 (by simp [hc01])).expect fun u hu => ?_
  refine (freeingPage_reaches hu page (by simp [Ne.symm hc01])).expect fun u hu => ?_
  refine (freeingPage_reaches hu c2 (by simp [Ne.symm hc02, Ne.symm hc12])).expect fun u hu => ?_
  have hnone : (((insert page (({c0, page, c2} : Finset ℕ).erase page)).erase c0).erase page).erase c2 = ∅ := by
    ext r
    simp only [Finset.mem_erase, Finset.mem_insert, Finset.mem_singleton, Finset.notMem_empty]
    tauto
  rw [hnone] at hu
  have hsame := hu.pages.samePages hs
  refine (availablePages_reaches u).bind fun left v hv => ?_
  obtain ⟨rfl, rfl⟩ := hv
  refine ⟨(), u, if_pos ?_, hu⟩
  rw [hsame.freePages, beq_iff_eq]

end Calls

end OsByAi.PmmBootCheck
