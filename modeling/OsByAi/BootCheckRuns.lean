import OsByAi.PagingBootCheck
import OsByAi.KernelMain

set_option autoImplicit false

namespace OsByAi.BootCheckRuns
open ByteMemory PackedBitmap BootInformation PmmModel PmmInvariant PmmBootMap PagingModel PagingEntries PagingTree
open PagingWalk PagingGrowth PagingDynamic PagingBuild PagingInit KernelRuns PagingAddressSpace PagingOwnership
open PagingIsolation PagingBlocks BootChecks PagingCheckCalls PagingBootCheck KernelMain

/-- The pages that no caller may map are not managed. A section keeps the page it starts on even
    when it is empty. -/
structure Apart (L : Layout) (info : ℕ) (s : Machine) : Prop where
  text : ∀ a, InText L a ∨ a = L.kernelTextStart → bit s.pmm.eligible (a / 4096) = false
  rodata : ∀ a, InRodata L a ∨ a = L.kernelRodataStart → bit s.pmm.eligible (a / 4096) = false
  guards : ∀ g ∈ stackGuards L (bootInfoAt s.mem info), bit s.pmm.eligible (g / 4096) = false

section Runs

variable {L : Layout} {info : ℕ} {before after w : World} {held : Finset ℕ}

theorem Apart.back (hinst : Installed L info before.machine after.machine held) (h : ActiveWorld after.machine w)
    (ha : Apart L info w.machine) : Apart L info after.machine where
  text a hin := by
    rw [← h.frame.eligible]
    exact ha.text a hin
  rodata a hin := by
    rw [← h.frame.eligible]
    exact ha.rodata a hin
  guards g hg := by
    rw [← h.frame.eligible]
    apply ha.guards g
    rw [(hinst.boot.frame hinst.frame).bootInfo_eq h.frame]
    exact hg

theorem managed_mapped (hinst : Installed L info before.machine after.machine held) (ha : Apart L info after.machine)
    {page : ℕ} (he : bit after.machine.pmm.eligible page = true) : Mapped L before.machine.mem info (4096 * page) := by
  refine ⟨(eligible_inSet hinst.boot (by rw [← hinst.frame.eligible]; exact he)).pages (4096 * page) (by omega) (by omega)
    (by omega), fun g hg heq => ?_⟩
  rw [← hinst.boot.bootInfo_eq hinst.frame] at hg
  have hno := ha.guards g hg
  rw [show g / 4096 = page by omega, he] at hno
  exact absurd hno (by simp)

theorem identity_reached (hinst : Installed L info before.machine after.machine held) (h : ActiveWorld after.machine w)
    {a : ℕ} (hlow : a < pmmLimit) :
    Mapped L before.machine.mem info (4096 * (a / 4096)) ∧ reached w.machine a =
        some ⟨4096 * (a / 4096), identityWrite L (4096 * (a / 4096)), identityExec L (4096 * (a / 4096)), false⟩ ∨
      ¬ Mapped L before.machine.mem info (4096 * (a / 4096)) ∧ reached w.machine a = none := by
  have hslot : pageIndex a 39 ≠ 256 := by
    intro hidx
    have hval : a / 2 ^ 39 % 512 = 256 := congrArg Fin.val hidx
    unfold pmmLimit at hlow
    omega
  rw [reached_identity hinst h hslot, reached, hinst.cr3, ← translate_page hinst.built.tree]
  obtain ⟨hm, ht⟩ | ⟨hno, ht⟩ := Installed.translate_eq hinst (v := 4096 * (a / 4096)) (by omega)
  · exact .inl ⟨hm, ht⟩
  · exact .inr ⟨hno, ht⟩

theorem managed_reached (hinst : Installed L info before.machine after.machine held) (ha : Apart L info after.machine)
    (h : ActiveWorld after.machine w) {a : ℕ} (he : bit after.machine.pmm.eligible (a / 4096) = true) :
    reached w.machine a = some ⟨4096 * (a / 4096), true, false, false⟩ := by
  have hmapped := managed_mapped hinst ha he
  have hpage := (bootRam_lt hmapped.1).2
  have hlow : a < pmmLimit := by
    unfold pmmLimit at hpage ⊢
    omega
  have hdiv : 4096 * (a / 4096) / 4096 = a / 4096 := Nat.mul_div_cancel_left _ (by decide)
  have htext : ¬ InText L (4096 * (a / 4096)) := by
    intro hin
    have hno := ha.text _ (.inl hin)
    rw [hdiv, he] at hno
    exact absurd hno (by simp)
  have hrodata : ¬ InRodata L (4096 * (a / 4096)) := by
    intro hin
    have hno := ha.rodata _ (.inl hin)
    rw [hdiv, he] at hno
    exact absurd hno (by simp)
  obtain ⟨-, ht⟩ | ⟨hno, -⟩ := identity_reached hinst h hlow
  · rw [ht, identityWrite, identityExec, decide_eq_false htext, decide_eq_false hrodata]
    rfl
  · exact absurd hmapped hno

/-- No guard page holds a byte of `stack_base` in BOOT_INFO. -/
def FieldApart (L : Layout) (info : ℕ) (s : Machine) : Prop :=
  ∀ g ∈ stackGuards L (bootInfoAt s.mem info), ¬ Touches (info + 64) 8 (g / 4096)

theorem FieldApart.back (hinst : Installed L info before.machine after.machine held) (h : ActiveWorld after.machine w) :
    FieldApart L info w.machine ↔ FieldApart L info before.machine := by
  unfold FieldApart
  rw [(hinst.boot.frame hinst.frame).bootInfo_eq h.frame, hinst.boot.bootInfo_eq hinst.frame]

theorem field_mapped (hinst : Installed L info before.machine after.machine held) {a : ℕ} (hlo : info + 64 ≤ a)
    (hhi : a < info + 72) : a < pmmLimit ∧ (Mapped L before.machine.mem info (4096 * (a / 4096)) ↔
      ∀ g ∈ stackGuards L (bootInfoAt before.machine.mem info), g / 4096 ≠ a / 4096) := by
  have hregion := hinst.regions.bootInfo
  have hhigh := hregion.high
  have hram := hregion.pages (4096 * (a / 4096)) (by omega) (by omega) (by unfold sizeofBootInfo; omega)
  refine ⟨by unfold sizeofBootInfo at hhigh; omega, ?_⟩
  constructor
  · intro hm g hg heq
    exact hm.2 g hg (by rw [heq])
  · intro hall
    exact ⟨hram, fun g hg heq => hall g hg (by omega)⟩

theorem load_pages (m : Memory) {v x y : ℕ} (hx : x = 4096 * (v / 4096)) (hy : y = 4096 * ((v + 7) / 4096)) :
    load (fun offset => m (if offset < 4096 then x + offset else y + (offset - 4096))) (v % 4096) 8 = load m v 8 := by
  have hsplit : 4096 * (v / 4096) + v % 4096 = v := Nat.div_add_mod _ _
  have hshift := load_shift m (4096 * (v / 4096)) (v % 4096) 8
  rw [hsplit] at hshift
  rw [← hshift]
  apply load_congr
  intro i hlo hhi
  split
  · rw [hx]
  · have hbyte : y + (i - 4096) = 4096 * (v / 4096) + i := by omega
    rw [hbyte]

theorem loadAcross_done {s : Machine} {v : ℕ} {t u : Translation} (ht : reached s v = some t) (hu : reached s (v + 7) = some u)
    (hpt : t.physical = 4096 * (v / 4096)) (hpu : u.physical = 4096 * ((v + 7) / 4096)) :
    loadAcross v s = .done (load s.mem v 8) s := by
  rw [← load_pages s.mem hpt hpu]
  unfold loadAcross
  rw [ht, hu]

theorem readable_of_apart (hinst : Installed L info before.machine after.machine held)
    (happart : FieldApart L info before.machine) : Readable info after.machine := by
  intro s held' M h
  have hfree : ∀ a, info + 64 ≤ a → a < info + 72 → ∃ t, reached s a = some t ∧ t.physical = 4096 * (a / 4096) := by
    intro a hlo hhi
    obtain ⟨hlow, hiff⟩ := field_mapped hinst hlo hhi
    have hmapped := hiff.mpr fun g hg heq => happart g hg (by unfold Touches; omega)
    obtain ⟨-, ht⟩ | ⟨hno, -⟩ := identity_reached hinst h hlow
    · exact ⟨_, ht, rfl⟩
    · exact absurd hmapped hno
  obtain ⟨t, ht, hpt⟩ := hfree (info + 64) (le_refl _) (by omega)
  obtain ⟨u, hu, hpu⟩ := hfree (info + 64 + 7) (by omega) (by omega)
  exact ⟨load s.mem (info + 64) 8, s, loadAcross_done ht hu hpt hpu, rfl, rfl⟩

theorem unreadable_of_touched (hinst : Installed L info before.machine after.machine held)
    (htouched : ¬ FieldApart L info before.machine) : Unreadable info after.machine := by
  intro s held' M h
  -- a guard page holds the first byte of the field or the last
  have hlost : reached s (info + 64) = none ∨ reached s (info + 64 + 7) = none := by
    unfold FieldApart at htouched
    push Not at htouched
    obtain ⟨g, hg, htouch⟩ := htouched
    have hgone : ∀ a, info + 64 ≤ a → a < info + 72 → g / 4096 = a / 4096 → reached s a = none := by
      intro a hlo hhi heq
      obtain ⟨hlow, hiff⟩ := field_mapped hinst hlo hhi
      obtain ⟨hm, -⟩ | ⟨-, hno⟩ := identity_reached hinst h hlow
      · exact absurd heq (hiff.mp hm g hg)
      · exact hno
    unfold Touches at htouch
    by_cases hfirst : g / 4096 = (info + 64) / 4096
    · exact .inl (hgone _ (le_refl _) (by omega) hfirst)
    · exact .inr (hgone _ (by omega) (by omega) (by omega))
  unfold Attempt.Stops loadAcross
  obtain hno | hno := hlost
  · rw [hno]
  · rw [hno]
    cases reached s (info + 64) <;> rfl

theorem ground_of_installed (hinst : Installed L info before.machine after.machine held) (ha : Apart L info after.machine) :
    Ground L info after.machine where
  fresh := ⟨⟨held, hinst.built.tree⟩, fun p hp hhead => hp.2 (Installed.no_dynamic hinst hp.1 hhead)⟩
  cr3 := hinst.cr3
  ram _ _ _ h _ he := managed_reached hinst ha h he
  spared s held' M h a hcase := by
    rcases hcase with htext | hrodata | hlow | hguard
    · exact ha.text a (.inr htext)
    · exact ha.rodata a (.inr hrodata)
    · apply ha.guards
      rw [hlow, ← (hinst.boot.frame hinst.frame).bootInfo_eq h.frame]
      exact List.mem_cons_self ..
    · apply ha.guards
      rw [hguard]
      simp [stackGuards]

/-- What a self-test may not leave: a page taken or given back, a table more or less, a mapping. -/
structure NoResidue (s t : Machine) : Prop where
  allocated : ∀ page, bit t.pmm.allocated page = bit s.pmm.allocated page
  free : t.pmm.freePages = s.pmm.freePages
  tables : ∀ a, a ∈ liveTables t ↔ a ∈ liveTables s
  mappings : ∀ v < Word64.size, ∀ r g, pagingQuery v (some r) (some g) t = pagingQuery v (some r) (some g) s

theorem query_eq {s t : Machine} {held' : Finset ℕ} (hs : DynInv s held) (ht : DynInv t held')
    (hmap : dynamicMap t = dynamicMap s) {v : ℕ} (hv : v < Word64.size) (r : ℕ) (g : Flags) :
    pagingQuery v (some r) (some g) t = pagingQuery v (some r) (some g) s := by
  obtain ⟨hms, hqs⟩ | ⟨a, f, hms, hqs⟩ := query_cases hs hv r g <;>
    obtain ⟨hmt, hqt⟩ | ⟨b, f', hmt, hqt⟩ := query_cases ht hv r g <;> rw [hmap] at hmt
  · rw [hqs, hqt]
  · exact absurd (hms.symm.trans hmt) (by simp)
  · exact absurd (hmt.symm.trans hms) (by simp)
  · obtain ⟨rfl, rfl⟩ := Prod.mk.inj (Option.some.inj (hms.symm.trans hmt))
    rw [hqs, hqt]

theorem noResidue_of_empty {base s t : Machine} (hfresh : Fresh base) (hs : At base s held fun _ => none)
    (ht : At base t held fun _ => none) : NoResidue s t := by
  have hnone : ∀ {u : Machine}, At base u held (fun _ => none) → ∀ p : Path, p.length ≤ 3 → node u p = node base p := by
    intro u hu p hp
    by_cases hhead : p.head? = some 256
    · have hold : node base p = none := by
        by_contra hn
        exact hfresh.low p ⟨hp, hn⟩ hhead
      rw [hold]
      by_contra hn
      obtain ⟨v, hv, -⟩ := (DynInv.node_iff hu.dyn hp hhead).mp hn
      refine hv ?_
      rw [hu.map]
    · exact hu.outside.node p hp hhead
  have hlive : ∀ a, a ∈ liveTables t ↔ a ∈ liveTables s := by
    intro a
    rw [ht.dyn.tree.live, hs.dyn.tree.live]
    constructor
    · rintro ⟨p, n, hp, hn, ha⟩
      exact ⟨p, n, hp, by rw [hnone hs p hp, ← hnone ht p hp, hn], ha⟩
    · rintro ⟨p, n, hp, hn, ha⟩
      exact ⟨p, n, hp, by rw [hnone ht p hp, ← hnone hs p hp, hn], ha⟩
  have hfree := At.free_eq hfresh hs
  have hfree' := At.free_eq hfresh ht
  have hcount := At.count_none hfresh hs
  have hcount' := At.count_none hfresh ht
  refine ⟨fun page => ?_, by omega, hlive, fun v hv => query_eq hs.dyn ht.dyn (ht.map.trans hs.map.symm) hv⟩
  rw [Bool.eq_iff_iff, ht.dyn.tree.owned, hs.dyn.tree.owned, hlive]

theorem agree_of_borrowed {s t : Machine} (hs : Inv s.pmm) (h : PmmBootCheck.Borrowed s ∅ t)
    (hlive : ∀ a ∈ liveTables s, bit s.pmm.allocated (a / 4096) = true) : PagingAgree.Agree s t := by
  refine ⟨h.pages.samePages hs, ?_, ?_, ?_, ?_, ?_, ?_⟩
  · intro x hx
    refine h.mem x fun hfree => ?_
    rcases hx with hx | hx
    · rw [hfree.1] at hx
      exact absurd hx (by simp)
    · have := hlive _ hx
      rw [Nat.mul_div_cancel_left _ (by decide), hfree.2] at this
      exact absurd this (by simp)
  · rw [h.rest]
    rfl
  · rw [h.rest]
  · rw [h.rest]
  · rw [h.rest]
  · rw [h.rest]

theorem noResidue_of_borrowed {m : Memory} {cpu : Cpu} {calls : List Call} {t : Machine}
    (hc : Follows OwnPages L info (World.powerOn m cpu) calls)
    (h : PmmBootCheck.Borrowed (run L info (World.powerOn m cpu) calls).machine ∅ t) :
    NoResidue (run L info (World.powerOn m cpu) calls).machine t := by
  obtain hidle | ⟨base, hact⟩ := idle_or_active m cpu hc
  · generalize run L info (World.powerOn m cpu) calls = w at h hidle ⊢
    have hlive : ∀ a ∈ liveTables w.machine, bit w.machine.pmm.allocated (a / 4096) = true := by
      rw [PagingInitFailure.idle_live hidle.idle]
      exact fun a ha => absurd ha (List.not_mem_nil)
    have hag := agree_of_borrowed hidle.idle.pmm h hlive
    refine ⟨fun page => by rw [hag.pmm.allocated], hag.pmm.freePages, fun a => by rw [hag.live], fun v hv r g => ?_⟩
    have hinactive := hidle.idle.inactive
    simp [pagingQuery, inactive_dynamicAddress hinactive, inactive_dynamicAddress (hag.active.trans hinactive)]
  · generalize run L info (World.powerOn m cpu) calls = w at h hact ⊢
    have htree := hact.dyn.tree
    have hag := agree_of_borrowed htree.pmm h fun a ha => by
      obtain ⟨p, n, hp, hn, rfl⟩ := (htree.live a).mp ha
      rw [Nat.mul_div_cancel_left _ (by decide)]
      exact htree.node_allocated hp hn
    have hafter := hact.agree hag
    exact ⟨fun page => by rw [hag.pmm.allocated], hag.pmm.freePages, fun a => by rw [hag.live],
      fun v hv => query_eq hact.dyn hafter.dyn (hafter.map.trans hact.map.symm) hv⟩

theorem pagingBootCheck_reaches {base s : Machine} (hstart : Start L info base s held) (hread : Readable info base) :
    (pagingBootCheck L info).Reaches s fun _ t => At base t held fun _ => none := by
  refine (checkAliasesAndPermissions_reaches hstart hread).bind fun _ t ht => ?_
  have hres := noResidue_of_empty hstart.ground.fresh hstart.here ht
  have hcount := At.count_none hstart.ground.fresh hstart.here
  have hcount' := At.count_none hstart.ground.fresh ht
  have hfree := hstart.free
  have htables := hstart.tables
  exact checkFailedMapCleanup_reaches ⟨hstart.ground, ht, by rw [hres.free]; exact hfree, by omega⟩

theorem pagingBootCheck_stops {base s : Machine} (hstart : Start L info base s held) (hread : Unreadable info base) :
    (pagingBootCheck L info).Stops s .pageFault := by
  unfold pagingBootCheck
  exact (checkAliasesAndPermissions_stops hstart hread).bind

theorem pagingBootCheck_iff {base s : Machine} {P : Prop} (hstart : Start L info base s held) (hyes : P → Readable info base)
    (hno : ¬ P → Unreadable info base) :
    ((∃ t, pagingBootCheck L info s = .done () t ∧ NoResidue s t) ↔ P) ∧
      (¬ P → pagingBootCheck L info s = .stopped .pageFault) := by
  have hstops : ¬ P → pagingBootCheck L info s = .stopped .pageFault := fun hp => pagingBootCheck_stops hstart (hno hp)
  refine ⟨⟨?_, fun hp => ?_⟩, hstops⟩
  · rintro ⟨t, hdone, -⟩
    by_contra hp
    rw [hstops hp] at hdone
    cases hdone
  · obtain ⟨_, t, hdone, ht⟩ := pagingBootCheck_reaches hstart (hyes hp)
    exact ⟨t, hdone, noResidue_of_empty hstart.ground.fresh hstart.here ht⟩

end Runs

/-- Where the checks pass, and what they leave as it was. The kernel's code, its statics and its stack
    are taken to be accessible. -/
structure ChecksClean (L : Layout) (info : ℕ) : Prop where
  pages : ∀ (calls : List PmmRefinement.Call) (s : Machine), s.pmm = (PmmRefinement.run calls).1 →
    3 ≤ s.pmm.freePages → ∃ t, pmmBootCheck s = .done () t ∧
      (∀ page, bit t.pmm.allocated page = bit s.pmm.allocated page) ∧ t.pmm.freePages = s.pmm.freePages ∧
      liveTables t = liveTables s ∧ ∀ x, ¬ IsFree s.pmm (x / 4096) → t.mem x = s.mem x
  everywhere : ∀ m cpu calls, Follows OwnPages L info (World.powerOn m cpu) calls →
    ∀ s, s = (run L info (World.powerOn m cpu) calls).machine → 3 ≤ s.pmm.freePages →
      ∃ t, pmmBootCheck s = .done () t ∧ NoResidue s t
  window : ∀ before after calls, Booted L info before after → Follows OwnPages L info after calls →
    ∀ s, s = (run L info after calls).machine → (∀ v, dynamicMap s v = none) → 6 ≤ s.pmm.freePages →
      s.pagingTableCount ≤ 4092 → Apart L info s →
      ((∃ t, pagingBootCheck L info s = .done () t ∧ NoResidue s t) ↔ FieldApart L info s) ∧
      (¬ FieldApart L info s → pagingBootCheck L info s = .stopped .pageFault)

theorem boot_checks_clean (L : Layout) (info : ℕ) : ChecksClean L info where
  pages := by
    intro calls s hs hthree
    have hmatch : PmmRefinement.Matches (PmmRefinement.run calls).1 (PmmRefinement.run calls).2 :=
      PmmRefinement.foldl_matches calls PmmRefinement.start_matches
    have hinv : Inv s.pmm := by
      rw [hs]
      exact hmatch.inv
    obtain ⟨_, t, hdone, ht⟩ := PmmBootCheck.pmmBootCheck_reaches hinv hthree
    have hsame := ht.pages.samePages hinv
    refine ⟨t, hdone, fun page => by rw [hsame.allocated], hsame.freePages, ?_, ht.mem⟩
    rw [ht.rest]
    rfl
  everywhere := by
    rintro m cpu calls hc s rfl hthree
    have hinv : Inv (run L info (World.powerOn m cpu) calls).machine.pmm := by
      obtain hidle | ⟨base, hact⟩ := idle_or_active m cpu hc
      · exact hidle.idle.pmm
      · exact hact.dyn.tree.pmm
    obtain ⟨_, t, hdone, ht⟩ := PmmBootCheck.pmmBootCheck_reaches hinv hthree
    exact ⟨t, hdone, noResidue_of_borrowed hc ht⟩
  window := by
    rintro before after calls hbooted hc s rfl hnone hsix htables hapart
    obtain ⟨-, -, hinst, hact⟩ := hbooted.cases
    have hrun := hact.run hc
    generalize run L info after calls = w at hrun hnone hsix htables hapart ⊢
    obtain ⟨s, held, M⟩ := w
    obtain rfl : M = fun _ => none := funext fun v => (congrFun hrun.map v).symm.trans (hnone v)
    have hground := ground_of_installed hinst (hapart.back hinst hrun)
    have hstart : Start L info after.machine s held := ⟨hground, hrun, hsix, htables⟩
    have hfield := FieldApart.back hinst hrun
    exact pagingBootCheck_iff hstart (fun hp => readable_of_apart hinst (hfield.mp hp))
      fun hp => unreadable_of_touched hinst fun hb => hp (hfield.mpr hb)

section Small

variable {m : Memory} {mapAt stack size : ℕ} {after : Machine} {held : Finset ℕ}

theorem LaidOut.apart (h : LaidOut m mapAt stack size) (hlo : 0x201000 ≤ stack)
    (hinst : Installed smallLayout smallInfo (prepared m smallCpu smallInfo) after held) :
    Apart smallLayout smallInfo after := by
  have hin := h.stackIn
  have helig : after.pmm.eligible = bootEligible m smallInfo := by
    rw [hinst.frame.eligible, hinst.boot.eligible]
    rfl
  have hout : ∀ page, page < 4096 → bit (bootEligible m smallInfo) page = false := by
    intro page hp
    rw [← Bool.not_eq_true, h.eligible_iff]
    omega
  refine ⟨?_, ?_, ?_⟩ <;> rw [helig]
  · intro a ha
    have hlt : a < 0x102000 := by
      rcases ha with ha | ha
      · exact ha.2
      · exact lt_of_eq_of_lt ha (by decide)
    exact hout _ (by omega)
  · intro a ha
    have hlt : a < 0x103000 := by
      rcases ha with ha | ha
      · exact ha.2
      · exact lt_of_eq_of_lt ha (by decide)
    exact hout _ (by omega)
  · intro g hg
    rw [hinst.boot.bootInfo_eq hinst.frame] at hg
    change g ∈ stackGuards smallLayout (bootInfoAt m smallInfo) at hg
    rw [LaidOut.stackGuards_eq h (by omega)] at hg
    simp only [List.mem_cons, List.not_mem_nil, or_false] at hg
    exact hout _ (by omega)

/-- The guard below the stack is the page of BOOT_INFO when the stack starts in the page after it. -/
theorem LaidOut.fieldApart_iff (h : LaidOut m mapAt stack size) (hlo : 0x201000 ≤ stack) (hsize : 4096 ≤ size)
    (hinst : Installed smallLayout smallInfo (prepared m smallCpu smallInfo) after held) :
    FieldApart smallLayout smallInfo after ↔ 0x202000 ≤ stack := by
  have hinfo : smallInfo = 0x200000 := rfl
  unfold FieldApart Touches
  rw [hinst.boot.bootInfo_eq hinst.frame]
  change (∀ g ∈ stackGuards smallLayout (bootInfoAt m smallInfo), _) ↔ _
  rw [LaidOut.stackGuards_eq h (by omega)]
  constructor
  · intro hall
    have hguard := hall (stack - 4096) List.mem_cons_self
    omega
  · intro hstack g hg
    simp only [List.mem_cons, List.not_mem_nil, or_false] at hg
    omega

/-- Right after `paging_init` nothing is mapped, and pages and tables are there for the check. -/
structure Ready (L : Layout) (info : ℕ) (before after : World) : Prop where
  booted : Booted L info before after
  unmapped : ∀ v, dynamicMap after.machine v = none
  free : 6 ≤ after.machine.pmm.freePages
  tables : after.machine.pagingTableCount ≤ 4092
  apart : Apart L info after.machine

theorem LaidOut.ready (h : LaidOut m mapAt stack size) (hlo : 0x201000 ≤ stack) (hsize : 4096 ≤ size)
    (hhi : stack + size + 4096 ≤ 0x223000) :
    Ready smallLayout smallInfo ⟨prepared m smallCpu smallInfo, Ledger.blank⟩
      (next smallLayout smallInfo ⟨prepared m smallCpu smallInfo, Ledger.blank⟩ .pagingInit) := by
  have hbooted := booted_of_bootable h.valid (LaidOut.bootable h hlo hsize hhi)
  obtain ⟨-, hledger, hinst, hact⟩ := hbooted.cases
  have hsum := (ActiveWorld.tablesOwned hinst.built.tree (fun p hp hhead =>
    hp.2 (Installed.no_dynamic hinst hp.1 hhead)) hact).accounting
  have hheld : Ledger.blank.held.card = 0 := rfl
  have htotal := hinst.frame.total
  have hpages : (prepared m smallCpu smallInfo).pmm.totalPages = 4096 := LaidOut.total h
  change _ = (prepared m smallCpu smallInfo).pmm.totalPages at htotal
  have hcount := hinst.built.count_le
  rw [hledger, hheld] at hsum
  refine ⟨hbooted, fun v => ?_, by omega, by omega, LaidOut.apart h hlo hinst⟩
  rw [hact.map, hledger]
  rfl

/-- A machine with 16 MiB of RAM passes right after `paging_init`. -/
theorem small_check_passes : ∃ t, pagingBootCheck smallLayout smallInfo smallAfter.machine = .done () t ∧
    NoResidue smallAfter.machine t := by
  have hready : Ready smallLayout smallInfo smallBefore smallAfter :=
    LaidOut.ready small_laidOut (by decide) (by decide) (by decide)
  obtain ⟨-, -, hinst, -⟩ := hready.booted.cases
  have hfield := (LaidOut.fieldApart_iff small_laidOut (by decide) (by decide) hinst).mpr (by decide)
  exact ((boot_checks_clean smallLayout smallInfo).window smallBefore smallAfter [] hready.booted trivial smallAfter.machine rfl
    hready.unmapped hready.free hready.tables hready.apart).1.mpr hfield

/-- The small machine with its stack in the page after BOOT_INFO, and the map above both. -/
def tightMemory : Memory := handoffMemory 0x212000 0x201000 0x10000

theorem tight_laidOut : LaidOut tightMemory 0x212000 0x201000 0x10000 :=
  laidOut_of_bytes (by decide +kernel) (by decide +kernel) (by decide) (by decide)

def tightBefore : World := ⟨prepared tightMemory smallCpu smallInfo, Ledger.blank⟩

def tightAfter : World := next smallLayout smallInfo tightBefore .pagingInit

/-- The kernel accepts this BOOT_INFO and sets up its page tables, and the check faults on BOOT_INFO. -/
theorem tight_check_faults : validBootHeader tightMemory smallInfo = true ∧ validMemoryMap tightMemory smallInfo = true ∧
    validStack tightMemory smallInfo 0x210f00 0x211000 = true ∧ (pmmInit tightMemory smallInfo bss).1 = true ∧
    tightBefore.machine.mem = tightMemory ∧ Ready smallLayout smallInfo tightBefore tightAfter ∧
    pagingBootCheck smallLayout smallInfo tightAfter.machine = .stopped .pageFault := by
  have hready : Ready smallLayout smallInfo tightBefore tightAfter :=
    LaidOut.ready tight_laidOut (by decide) (by decide) (by decide)
  obtain ⟨-, hledger, hinst, hact⟩ := hready.booted.cases
  have hfield : ¬ FieldApart smallLayout smallInfo tightBefore.machine := by
    rw [← FieldApart.back hinst hact, LaidOut.fieldApart_iff tight_laidOut (by decide) (by decide) hinst]
    decide
  have hground := ground_of_installed hinst hready.apart
  have hpmm : (pmmInit tightMemory smallInfo bss).1 = true := by
    obtain ⟨-, hno⟩ | ⟨-, -, he⟩ := init_cases bss_inv tightMemory smallInfo
    · exact absurd ⟨rfl, tight_laidOut.valid⟩ hno
    · exact congrArg Prod.fst he
  have hfree := hready.free
  have htables := hready.tables
  have hblank : tightAfter.ledger = Ledger.blank := hledger
  generalize tightAfter = w at *
  obtain ⟨s, ledger⟩ := w
  obtain rfl : ledger = Ledger.blank := hblank
  refine ⟨?_, ?_, ?_, hpmm, rfl, hready, pagingBootCheck_stops ⟨hground, hact, hfree, htables⟩ (unreadable_of_touched hinst hfield)⟩
  · unfold validBootHeader
    rw [tight_laidOut.bootInfo]
    decide
  · unfold validMemoryMap
    rw [tight_laidOut.bootInfo]
    decide
  · unfold validStack
    rw [tight_laidOut.bootInfo]
    decide

end Small

end OsByAi.BootCheckRuns
