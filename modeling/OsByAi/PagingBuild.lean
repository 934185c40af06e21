import OsByAi.PagingGrowth
import OsByAi.PmmBootMap

set_option autoImplicit false

namespace OsByAi.PagingBuild
open ByteMemory PackedBitmap BootInformation PmmModel PmmInvariant PmmBootMap
open PagingModel PagingEntries PagingTree PagingWalk PagingGrowth RadixTree

def InText (L : Layout) (v : ℕ) : Prop := L.kernelTextStart ≤ v ∧ v < L.kernelTextEnd
def InRodata (L : Layout) (v : ℕ) : Prop := L.kernelRodataStart ≤ v ∧ v < L.kernelRodataEnd

instance (L : Layout) (v : ℕ) : Decidable (InText L v) := inferInstanceAs (Decidable (_ ∧ _))
instance (L : Layout) (v : ℕ) : Decidable (InRodata L v) := inferInstanceAs (Decidable (_ ∧ _))

def identityWrite (L : Layout) (v : ℕ) : Bool := !decide (InText L v) && !decide (InRodata L v)
def identityExec (L : Layout) (v : ℕ) : Bool := decide (InText L v)

def identityEntry (L : Layout) (v : ℕ) : ℕ :=
  leafEntry (v / 4096) (identityWrite L v) (!identityExec L v)

theorem or_identityFlags (L : Layout) {v : ℕ} (hv : v % 4096 = 0) (hlt : v < 2 ^ 48) :
    v ||| identityFlags L v = identityEntry L v := by
  have hshape : 4096 * (v / 4096) ||| identityFlags L v = identityEntry L v := by
    apply or_leaf (by omega)
    unfold identityFlags identityWrite identityExec
    change (if InText L v then 1 else if InRodata L v then 1 ||| nx else tableFlags ||| nx) = _
    by_cases ht : InText L v
    · simp [ht]
    · by_cases hr : InRodata L v
      · simp [ht, hr]
      · simp [ht, hr]
        rfl
  rwa [show 4096 * (v / 4096) = v by omega] at hshape

theorem address_ext {v w : ℕ} (hv : v % 4096 = 0) (hw : w % 4096 = 0) (hvlt : v < 2 ^ 48)
    (hwlt : w < 2 ^ 48) (hu : upper v = upper w) (hi : pageIndex v 12 = pageIndex w 12) : v = w := by
  have hpage := page_eq_of_indices hu hi
  omega

/-- The tables map the addresses in `S`, each to itself, and are all below 4 GiB. -/
structure Built (L : Layout) (s : Machine) (held : Finset ℕ) (S : ℕ → Prop) : Prop where
  tree : TreeInv s held
  mapped : ∀ v, v % 4096 = 0 → v < 2 ^ 48 → S v → leafOf s v = identityEntry L v
  unmapped : ∀ v, v % 4096 = 0 → v < 2 ^ 48 → ¬ S v → leafOf s v = 0
  low : ∀ q, q.length ≤ 3 → node s q ≠ none → ∃ v, v < pmmLimit ∧ q <+: upper v

variable {L : Layout} {s : Machine} {held : Finset ℕ} {S : ℕ → Prop}

theorem Built.congr {S' : ℕ → Prop} (h : Built L s held S)
    (hS : ∀ v, v % 4096 = 0 → v < 2 ^ 48 → (S' v ↔ S v)) : Built L s held S' :=
  ⟨h.tree, fun v hv hlt hm => h.mapped v hv hlt ((hS v hv hlt).mp hm),
    fun v hv hlt hm => h.unmapped v hv hlt fun hc => hm ((hS v hv hlt).mpr hc), h.low⟩

theorem Built.write {n v x : ℕ} (h : Built L s held S) (S' : ℕ → Prop) (hv : v % 4096 = 0)
    (hlt : v < 2 ^ 48) (hn : node s (upper v) = some n)
    (hx : (S' v ∧ x = identityEntry L v) ∨ (¬ S' v ∧ x = 0))
    (hS : ∀ w, w ≠ v → (S' w ↔ S w)) :
    Built L (s.store64 (4096 * n + 8 * (pageIndex v 12).val) x) held S' ∧
      Frame s (s.store64 (4096 * n + 8 * (pageIndex v 12).val) x) := by
  have hshape : x < Word64.size ∧ (x = 0 ∨ x % 2 = 1) := by
    rcases hx with ⟨-, rfl⟩ | ⟨-, rfl⟩
    · exact ⟨leafEntry_lt (by omega) _ _, .inr (leafEntry_mod_two _ _ _)⟩
    · exact ⟨by decide, .inl rfl⟩
  obtain ⟨htree, hedit⟩ := h.tree.writeLeaf (i := pageIndex v 12) (length_upper v) hn hshape.1 hshape.2
  have hframe := store_frame (i := pageIndex v 12) h.tree (length_upper v).le hn x
  have hleaf : ∀ w, w % 4096 = 0 → w < 2 ^ 48 →
      leafOf (s.store64 (4096 * n + 8 * (pageIndex v 12).val) x) w =
        if w = v then x else leafOf s w := by
    intro w hw hwlt
    rw [leafOf, hedit _ _ (length_upper w).le, leafOf]
    by_cases hwv : w = v
    · rw [hwv, if_pos ⟨rfl, rfl⟩, if_pos rfl]
    · rw [if_neg hwv, if_neg fun hc => hwv (address_ext hw hv hwlt hlt hc.1 hc.2)]
  refine ⟨⟨htree, ?_, ?_, ?_⟩, hframe⟩
  · intro w hw hwlt hm
    rw [hleaf w hw hwlt]
    split
    · rename_i heq
      subst heq
      rcases hx with ⟨-, rfl⟩ | ⟨hno, -⟩
      · rfl
      · exact absurd hm hno
    · rename_i hne
      exact h.mapped w hw hwlt ((hS w hne).mp hm)
  · intro w hw hwlt hm
    rw [hleaf w hw hwlt]
    split
    · rename_i heq
      subst heq
      rcases hx with ⟨hyes, -⟩ | ⟨-, rfl⟩
      · exact absurd hyes hm
      · rfl
    · rename_i hne
      exact h.unmapped w hw hwlt fun hc => hm ((hS w hne).mpr hc)
  · intro q hq hsome
    rw [Edit.node_eq hedit hframe.root hq, if_neg] at hsome
    · exact h.low q hq hsome
    · rintro rfl
      simp [length_upper] at hq

def lowPaths : Finset Path :=
  {[], [0]} ∪ (Finset.range 4).image (fun a => [0, Fin.ofNat 512 a]) ∪
    (Finset.range 4 ×ˢ Finset.univ).image (fun x : ℕ × Fin 512 => [0, Fin.ofNat 512 x.1, x.2])

theorem card_lowPaths : lowPaths.card ≤ 2054 := by
  unfold lowPaths
  have h1 : ({[], [0]} : Finset Path).card ≤ 2 := Finset.card_le_two
  have h2 := Finset.card_image_le (s := Finset.range 4) (f := fun a => ([0, Fin.ofNat 512 a] : Path))
  have h3 := Finset.card_image_le (s := Finset.range 4 ×ˢ (Finset.univ : Finset (Fin 512)))
    (f := fun x : ℕ × Fin 512 => ([0, Fin.ofNat 512 x.1, x.2] : Path))
  rw [Finset.card_range] at h2
  rw [Finset.card_product, Finset.card_range, Finset.card_univ, Fintype.card_fin] at h3
  refine (Finset.card_union_le _ _).trans ?_
  have := Finset.card_union_le ({[], [0]} : Finset Path)
    ((Finset.range 4).image (fun a => ([0, Fin.ofNat 512 a] : Path)))
  omega

theorem mem_lowPaths {v : ℕ} {q : Path} (hv : v < pmmLimit) (hq : q <+: upper v) : q ∈ lowPaths := by
  unfold pmmLimit at hv
  have h39 : pageIndex v 39 = 0 := by
    apply Fin.ext
    change v / 2 ^ 39 % 512 = 0
    omega
  have h30 : pageIndex v 30 = Fin.ofNat 512 (v / 2 ^ 30) := rfl
  have hlt : v / 2 ^ 30 < 4 := by omega
  have hup : upper v = [0, Fin.ofNat 512 (v / 2 ^ 30), pageIndex v 21] := by
    rw [upper, indices, tableShifts, List.map_cons, List.map_cons, List.map_cons, List.map_nil, h39, h30]
  rw [hup] at hq
  unfold lowPaths
  simp only [Finset.mem_union, Finset.mem_insert, Finset.mem_singleton, Finset.mem_image,
    Finset.mem_range, Finset.mem_product, Finset.mem_univ, and_true, Prod.exists]
  rcases List.prefix_cons_iff.mp hq with rfl | ⟨t, rfl, ht⟩
  · exact .inl (.inl (.inl rfl))
  rcases List.prefix_cons_iff.mp ht with rfl | ⟨u, rfl, hu⟩
  · exact .inl (.inl (.inr rfl))
  rcases List.prefix_cons_iff.mp hu with rfl | ⟨w, rfl, hw⟩
  · exact .inl (.inr ⟨_, hlt, rfl⟩)
  rw [List.prefix_nil.mp hw]
  exact .inr ⟨_, _, hlt, rfl⟩

theorem Built.count_le (h : Built L s held S) : s.pagingTableCount ≤ 2054 := by
  have hsub : (liveTables s).toFinset ⊆ lowPaths.image fun q => 4096 * (node s q).getD 0 := by
    intro a ha
    obtain ⟨p, n, hp, hn, rfl⟩ := (h.tree.live a).mp (List.mem_toFinset.mp ha)
    obtain ⟨v, hv, hpre⟩ := h.low p hp (by rw [hn]; simp)
    exact Finset.mem_image.mpr ⟨p, mem_lowPaths hv hpre, by rw [hn]; rfl⟩
  calc
    s.pagingTableCount = (liveTables s).toFinset.card := by
      rw [List.toFinset_card_of_nodup h.tree.nodup, length_liveTables]
    _ ≤ (lowPaths.image fun q => 4096 * (node s q).getD 0).card := Finset.card_le_card hsub
    _ ≤ lowPaths.card := Finset.card_image_le
    _ ≤ 2054 := card_lowPaths

/-- Every managed page is free, a table, or held by a caller. -/
theorem accounting (h : TreeInv s held) :
    s.pmm.freePages + s.pagingTableCount + held.card = s.pmm.totalPages := by
  have hdiv : ∀ a ∈ (liveTables s).toFinset, ∀ b ∈ (liveTables s).toFinset,
      a / 4096 = b / 4096 → a = b := by
    intro a ha b hb heq
    obtain ⟨_, m, -, -, rfl⟩ := (h.live a).mp (List.mem_toFinset.mp ha)
    obtain ⟨_, n, -, -, rfl⟩ := (h.live b).mp (List.mem_toFinset.mp hb)
    omega
  have hmem : ∀ page, page ∈ (liveTables s).toFinset.image (· / 4096) ↔ 4096 * page ∈ liveTables s := by
    intro page
    rw [Finset.mem_image]
    constructor
    · rintro ⟨a, ha, rfl⟩
      obtain ⟨_, m, -, -, rfl⟩ := (h.live a).mp (List.mem_toFinset.mp ha)
      rw [Nat.mul_div_cancel_left _ (by decide)]
      exact List.mem_toFinset.mp ha
    · intro hp
      exact ⟨4096 * page, List.mem_toFinset.mpr hp, Nat.mul_div_cancel_left _ (by decide)⟩
  have hunion : pagesOf s.pmm.allocated = (liveTables s).toFinset.image (· / 4096) ∪ held := by
    ext page
    rw [h.pmm.mem_allocated, h.owned, Finset.mem_union, hmem]
  have hdisj : Disjoint ((liveTables s).toFinset.image (· / 4096)) held := by
    rw [Finset.disjoint_left]
    intro page hp hh
    exact h.disjoint page hh ((hmem page).mp hp)
  have hcard : (pagesOf s.pmm.allocated).card = s.pagingTableCount + held.card := by
    rw [hunion, Finset.card_union_of_disjoint hdisj, Finset.card_image_of_injOn hdiv,
      List.toFinset_card_of_nodup h.nodup, length_liveTables]
  have hfree := h.pmm.free
  have htotal := h.pmm.total
  omega

/-- Enough managed pages for every table the first 4 GiB can need. -/
def Ample (s : Machine) (held : Finset ℕ) : Prop := 2057 + held.card ≤ s.pmm.totalPages

theorem missing_le (s : Machine) (p q : Path) : missing s p q ≤ q.length := by
  induction q generalizing p with
  | nil => rfl
  | cons i q ih =>
    have := ih (p ++ [i])
    rw [missing, List.length_cons]
    split <;> omega

theorem missing_absent (s : Machine) {v : ℕ} (h : ∀ q : Path, q.length ≤ 2 → node s (pageIndex v 39 :: q) = none) :
    missing s [] (upper v) = 3 := by
  have hshape : upper v = [pageIndex v 39, pageIndex v 30, pageIndex v 21] := rfl
  rw [hshape, missing, missing, missing, missing]
  simp only [List.nil_append, List.cons_append, h [] (by simp), h [pageIndex v 30] (by simp),
    h [pageIndex v 30, pageIndex v 21] (by simp), if_true]

theorem Built.fits (h : Built L s held S) (hample : Ample s held) (v : ℕ) :
    Fits s (missing s [] (upper v)) := by
  have hm := missing_le s [] (upper v)
  have hc := h.count_le
  have ha := accounting h.tree
  rw [length_upper] at hm
  unfold Ample at hample
  unfold Fits maxTables
  omega

/-- What a loop may leave: on success the set `S` is mapped, on failure `bad` is the reason. -/
structure Outcome (L : Layout) (s : Machine) (r : Bool × Machine) (held : Finset ℕ) (S : ℕ → Prop)
    (bad : Prop) : Prop where
  frame : Frame s r.2
  tree : TreeInv r.2 held
  done : r.1 = true → Built L r.2 held S
  failed : r.1 = false → bad

theorem Frame.ample {s' : Machine} (hf : Frame s s') : Ample s' held ↔ Ample s held := by
  unfold Ample
  rw [hf.total]

theorem mapPage_outcome (h : Built L s held S) {v : ℕ} (hv : v % 4096 = 0) (hlt : v < pmmLimit) :
    Outcome L s (mapPage L v s) held (fun w => S w ∨ w = v) (¬ Ample s held) := by
  have hlt48 : v < 2 ^ 48 := by
    unfold pmmLimit at hlt
    omega
  obtain ⟨hgrown, hgives, hend⟩ := descend_spec v tableShifts h.tree (node_nil s) rfl
  rw [mapPage_eq]
  rw [h.tree.root_eq]
  cases hres : descend v tableShifts (4096 * rootFrame s) s with
  | mk table s' =>
    rw [hres] at hgrown hgives hend
    simp only at hgrown hgives hend
    have hbuilt : Built L s' held S := by
      refine ⟨hgrown.inv, ?_, ?_, ?_⟩
      · intro w hw hwlt hm
        rw [leafOf, hgrown.leaves _ _ (length_upper w)]
        exact h.mapped w hw hwlt hm
      · intro w hw hwlt hm
        rw [leafOf, hgrown.leaves _ _ (length_upper w)]
        exact h.unmapped w hw hwlt hm
      · intro q hq hsome
        cases hn : node s q with
        | none => exact ⟨v, hlt, hgrown.fresh q hq hn hsome⟩
        | some n => exact h.low q hq (by rw [hn]; simp)
    cases table with
    | none =>
      refine ⟨hgrown.frame, hgrown.inv, fun hf => absurd hf (by simp), fun _ hample => ?_⟩
      exact hgives.mp rfl (h.fits hample v)
    | some table =>
      obtain ⟨m, rfl, hm⟩ := hend table rfl
      obtain ⟨hb, hf⟩ := hbuilt.write (fun w => S w ∨ w = v) hv hlt48 hm
        (.inl ⟨.inr rfl, rfl⟩) (fun w hne => by simp [hne])
      rw [← slot_eq, ← or_identityFlags L hv hlt48] at hb hf
      exact ⟨hgrown.frame.trans hf, hb.tree, fun _ => hb, fun hf => absurd hf (by simp)⟩

theorem mapPages_outcome (n : ℕ) (h : Built L s held S) {page : ℕ} (hp : page % 4096 = 0)
    (hlim : page + 4096 * n ≤ pmmLimit) :
    Outcome L s (mapPages L n page s) held
      (fun w => S w ∨ (page ≤ w ∧ w < page + 4096 * n)) (¬ Ample s held) := by
  induction n generalizing s page S with
  | zero =>
    refine ⟨Frame.refl s, h.tree, fun _ => ?_, fun hf => absurd hf (by simp [mapPages_zero])⟩
    exact h.congr fun w _ _ => by
      constructor
      · rintro (hm | hr)
        · exact hm
        · omega
      · exact .inl
  | succ n ih =>
    have hpage := mapPage_outcome h hp (by omega)
    rw [mapPages_succ]
    cases hres : mapPage L page s with
    | mk ok s' =>
      rw [hres] at hpage
      cases ok with
      | false => exact ⟨hpage.frame, hpage.tree, fun hf => absurd hf (by simp), hpage.failed⟩
      | true =>
        have haligned : (page + 4096) % 4096 = 0 := by omega
        have hrest := ih (hpage.done rfl) haligned (by omega)
        refine ⟨hpage.frame.trans hrest.frame, hrest.tree, fun hok => ?_, fun hno => ?_⟩
        · refine (hrest.done hok).congr fun w hw _ => ?_
          constructor
          · rintro (hm | hr)
            · exact .inl (.inl hm)
            · by_cases hwp : w = page
              · exact .inl (.inr hwp)
              · exact .inr (by omega)
          · rintro ((hm | rfl) | hr)
            · exact .inl hm
            · exact .inr (by omega)
            · exact .inr (by omega)
        · exact fun ha => hrest.failed hno ((Frame.ample hpage.frame).mpr ha)

def Mappable (d : Descriptor) : Prop := (d.type = 1 ∨ d.type = 2 ∨ d.type = 7) ∧ d.runtime = false

def Spans (d : Descriptor) (v : ℕ) : Prop :=
  d.physicalStart ≤ v ∧ v < d.physicalStart + 4096 * d.numberOfPages

def Clipped (d : Descriptor) (v : ℕ) : Prop := 0x100000 ≤ v ∧ v < pmmLimit ∧ Spans d v

theorem skip_iff (d : Descriptor) :
    ((d.type != 1 && d.type != 2 && d.type != 7) || d.runtime) = true ↔ ¬ Mappable d := by
  unfold Mappable
  cases d.runtime <;> simp
  omega

theorem clip_iff {d : Descriptor} (hv : validDescriptor d = true) (hs : d.physicalStart < Word64.size)
    (v : ℕ) : (clipBegin d ≤ v ∧ v < clipEnd d) ↔ Clipped d v := by
  obtain ⟨hl, -⟩ := limit_eq hv hs
  rw [Clipped, Spans, clipBegin, clipEnd, hl]
  unfold pmmLimit
  split <;> split <;> omega

/-- No part of a mappable descriptor lacks the write-back attribute. -/
def WriteBackOk (d : Descriptor) : Prop := Mappable d → (∃ v, Clipped d v) → d.writeBack = true

theorem mapDescriptor_outcome {d : Descriptor} (h : Built L s held S)
    (hv : validDescriptor d = true) (hs : d.physicalStart < Word64.size) :
    Outcome L s (mapDescriptor L d s) held (fun w => S w ∨ (Mappable d ∧ Clipped d w))
      (¬ Ample s held ∨ ¬ WriteBackOk d) := by
  have nothing : (∀ w, ¬ (Mappable d ∧ Clipped d w)) →
      Outcome L s (true, s) held (fun w => S w ∨ (Mappable d ∧ Clipped d w))
        (¬ Ample s held ∨ ¬ WriteBackOk d) := by
    intro hno
    refine ⟨Frame.refl s, h.tree, fun _ => h.congr fun w _ _ => ?_, fun hf => absurd hf (by simp)⟩
    simp only [hno w, or_false]
  have hclip := clip_iff hv hs
  rw [mapDescriptor_eq]
  split
  · rename_i hskip
    exact nothing fun w hc => (skip_iff d).mp hskip hc.1
  · rename_i hskip
    have hm : Mappable d := by
      by_contra hno
      exact hskip ((skip_iff d).mpr hno)
    split
    · rename_i hempty
      refine nothing fun w hc => ?_
      have := (hclip w).mpr hc.2
      omega
    · rename_i hne
      split
      · rename_i hwb
        refine ⟨Frame.refl s, h.tree, fun hf => absurd hf (by simp), fun _ => .inr fun hok => ?_⟩
        have hsome : ∃ v, Clipped d v := ⟨clipBegin d, (hclip _).mp ⟨le_refl _, by omega⟩⟩
        rw [hok hm hsome] at hwb
        exact absurd hwb (by simp)
      · have hbegin := clipBegin_aligned hv
        have hend := clipEnd_aligned hv hs
        have hlimit := clipEnd_le d
        have hcount : clipBegin d + 4096 * ((clipEnd d - clipBegin d + 4095) / 4096) = clipEnd d := by
          omega
        have hpages := mapPages_outcome ((clipEnd d - clipBegin d + 4095) / 4096) h hbegin
          (by rw [hcount]; exact hlimit)
        refine ⟨hpages.frame, hpages.tree, fun hok => ?_, fun hno => .inl (hpages.failed hno)⟩
        refine (hpages.done hok).congr fun w _ _ => ?_
        rw [hcount, hclip w]
        simp only [hm, true_and]

end OsByAi.PagingBuild
