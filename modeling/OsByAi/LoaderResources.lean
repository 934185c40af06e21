import OsByAi.ElfPlacement
import OsByAi.LoaderHandover

set_option autoImplicit false

namespace OsByAi.LoaderResources
open CallTree ByteMemory ElfModel ElfSegments ElfPlacement LoaderModel LoaderHandover

inductive Resource where
  | pages (base count : ℕ)
  | pool (buffer : ℕ)
  | file (handle : ℕ)
deriving DecidableEq

def granted : Exchange Call Call.Reply → Option Resource
  | ⟨⟨.allocatePages _ _ pages _, _⟩, r⟩ => if efiError (Output.status r) then none else some (.pages (Output.value r) pages)
  | ⟨⟨.allocatePool _ _, _⟩, r⟩ => if efiError (Output.status r) then none else some (.pool (Output.value r))
  | ⟨⟨.openVolume _, _⟩, r⟩ => if efiError (Output.status r) then none else some (.file (Output.value r))
  | ⟨⟨.openFile _ _ _ _, _⟩, r⟩ => if efiError (Output.status r) then none else some (.file (Output.value r))
  | _ => none

def releaseOf : Service → Option Resource
  | .freePages base pages => some (.pages base pages)
  | .freePool buffer => some (.pool buffer)
  | .close file => some (.file file)
  | _ => none

def acquired (t : Trace) : List Resource := t.filterMap granted

def released (t : Trace) : List Resource := t.filterMap fun e => releaseOf e.1.service

/-- The firmware grants no null pointer for a buffer or a file. -/
def Nonnull (t : Trace) : Prop := .pool 0 ∉ acquired t ∧ .file 0 ∉ acquired t

def HeldOnly (t : Trace) (c : Call) : Prop :=
  Nonnull t → ∀ x, releaseOf c.service = some x → (released t).count x < (acquired t).count x

/-- The loader holds `held` and has not tried to exit boot services. -/
structure Holds (held : List Resource) (t : Trace) : Prop where
  balance : Nonnull t → ∀ x, (acquired t).count x = (released t).count x + held.count x
  quiet : ∀ s ∈ services t, isExit s = false

section Steps

variable {held : List Resource} {t : Trace} {m : Memory}

theorem acquired_append (t : Trace) (e : Exchange Call Call.Reply) :
    acquired (t ++ [e]) = acquired t ++ (granted e).toList := by
  rw [acquired, acquired, List.filterMap_append]
  cases h : granted e with
  | none => simp [h]
  | some x => simp [h]

theorem released_append (t : Trace) (e : Exchange Call Call.Reply) :
    released (t ++ [e]) = released t ++ (releaseOf e.1.service).toList := by
  rw [released, released, List.filterMap_append]
  cases h : releaseOf e.1.service with
  | none => simp [h]
  | some x => simp [h]

theorem Nonnull.earlier {e : Exchange Call Call.Reply} (h : Nonnull (t ++ [e])) : Nonnull t := by
  rw [Nonnull, acquired_append] at h
  exact ⟨fun hp => h.1 (List.mem_append_left _ hp), fun hf => h.2 (List.mem_append_left _ hf)⟩

theorem Holds.nil : Holds [] [] := ⟨fun _ _ => rfl, fun _ hs => absurd hs List.not_mem_nil⟩

theorem quiet_append {e : Exchange Call Call.Reply} (h : ∀ s ∈ services t, isExit s = false)
    (hx : isExit e.1.service = false) : ∀ s ∈ services (t ++ [e]), isExit s = false := by
  intro s hs
  rw [services_append, List.mem_append] at hs
  rcases hs with hs | hs
  · exact h s hs
  · rw [List.mem_singleton.mp hs]
    exact hx

theorem Holds.grant (h : Holds held t) (e : Exchange Call Call.Reply)
    (hr : releaseOf e.1.service = none) (hx : isExit e.1.service = false) :
    Holds ((granted e).toList ++ held) (t ++ [e]) where
  balance := by
    intro hn y
    have hb := h.balance hn.earlier y
    rw [acquired_append, released_append, hr, Option.toList_none, List.append_nil, List.count_append,
      List.count_append, hb]
    omega
  quiet := quiet_append h.quiet hx

theorem Holds.release {x : Resource} (h : Holds (x :: held) t) {e : Exchange Call Call.Reply} (hg : granted e = none)
    (hr : releaseOf e.1.service = some x) (hx : isExit e.1.service = false) : Holds held (t ++ [e]) where
  balance := by
    intro hn y
    have hb := h.balance hn.earlier y
    rw [List.count_cons] at hb
    rw [acquired_append, released_append, hg, hr, Option.toList_none, List.append_nil, Option.toList_some,
      List.count_append, List.count_cons, List.count_nil, hb]
    omega
  quiet := quiet_append h.quiet hx

theorem Holds.perm {held' : List Resource} (h : Holds held t) (hp : held.Perm held') : Holds held' t :=
  ⟨fun hn x => by rw [h.balance hn x, hp.count_eq x], h.quiet⟩

theorem Holds.heldOnly {x : Resource} {s : Service} (h : Holds held t) (hx : x ∈ held) (hs : releaseOf s = some x) :
    HeldOnly t ⟨s, m⟩ := by
  intro hn y hy
  obtain rfl : x = y := Option.some.inj (hs.symm.trans hy)
  have hb := h.balance hn x
  have hpos := List.count_pos_iff.mpr hx
  omega

theorem heldOnly_other {s : Service} (hs : releaseOf s = none) : HeldOnly t ⟨s, m⟩ := by
  intro _ x hx
  rw [hs] at hx
  exact absurd hx (by simp)

theorem Holds.safe_call {α : Type} {s : Service} {g : s.Reply → Loader α} {out : Trace → α → Prop} (h : Holds held t)
    (hr : releaseOf s = none) (hx : isExit s = false)
    (hnext : ∀ r now, Holds ((granted ⟨⟨s, m⟩, r⟩).toList ++ held) now → Safe HeldOnly out now (g r)) :
    Safe HeldOnly out t (ask s m >>= g) := by
  rw [safe_ask_bind]
  exact ⟨heldOnly_other hr, fun r => hnext r _ (h.grant ⟨⟨s, m⟩, r⟩ hr hx)⟩

theorem Holds.safe_release {α : Type} {s : Service} {g : s.Reply → Loader α} {out : Trace → α → Prop} {x : Resource}
    (h : Holds (x :: held) t) (hr : releaseOf s = some x) (hx : isExit s = false)
    (hg : ∀ r, granted ⟨⟨s, m⟩, r⟩ = none) (hnext : ∀ r now, Holds held now → Safe HeldOnly out now (g r)) :
    Safe HeldOnly out t (ask s m >>= g) := by
  rw [safe_ask_bind]
  exact ⟨h.heldOnly List.mem_cons_self hr, fun r => hnext r _ (h.release (hg r) hr hx)⟩

def behind (pointer : ℕ) (x : Resource) : List Resource := if pointer = 0 then [] else [x]

theorem Holds.behind {pointer : ℕ} {x : Resource} (h : Holds (x :: held) t)
    (hx : x = .pool pointer ∨ x = .file pointer) : Holds (LoaderResources.behind pointer x ++ held) t := by
  by_cases hp : pointer = 0
  · refine ⟨fun hn => ?_, h.quiet⟩
    have hb := h.balance hn x
    have hmem : x ∈ acquired t := by
      rw [← List.count_pos_iff, hb, List.count_cons_self]
      omega
    rcases hx with rfl | rfl
    · rw [hp] at hmem
      exact absurd hmem hn.1
    · rw [hp] at hmem
      exact absurd hmem hn.2
  · rw [LoaderResources.behind, if_neg hp]
    exact h

theorem unlessNull_holds {pointer : ℕ} {s : Service} {x : Resource} (hr : releaseOf s = some x) (hx : isExit s = false)
    (hg : ∀ r, granted ⟨⟨s, m⟩, r⟩ = none) (h : Holds (LoaderResources.behind pointer x ++ held) t) :
    Safe HeldOnly (fun now _ => Holds held now) t (unlessNull pointer s m) := by
  unfold unlessNull
  by_cases hp : pointer = 0
  · rw [LoaderResources.behind, if_pos hp] at h
    rw [if_neg (by simp [hp]), safe_pure]
    exact h
  · rw [LoaderResources.behind, if_neg hp] at h
    rw [if_pos (by simpa using hp)]
    exact h.safe_release hr hx hg fun _ now hnow => safe_pure.mpr hnow

end Steps

section Load

variable {held : List Resource} {t : Trace}

theorem readFrom_holds (file buffer length missing : ℕ) {total : ℕ} (hmissing : length - total ≤ missing) {m : Memory}
    (h : Holds held t) : Safe HeldOnly (fun now _ => Holds held now) t (readFrom file buffer length total m) := by
  induction missing generalizing total m t with
  | zero =>
    rw [readFrom, dif_neg (by omega), safe_pure]
    exact h
  | succ missing ih =>
    rw [readFrom]
    split
    · refine h.safe_call rfl rfl fun r now hnow => ?_
      split
      · exact safe_pure.mpr hnow
      · split
        · exact safe_pure.mpr hnow
        · exact ih (by omega) hnow
    · exact safe_pure.mpr h

theorem readEntireFile_holds (file buffer length : ℕ) {m : Memory} (h : Holds held t) :
    Safe HeldOnly (fun now _ => Holds held now) t (readEntireFile file buffer length m) :=
  readFrom_holds file buffer length length (Nat.sub_le _ _) h

theorem closeSpan_error {s : Span} {status : ℕ} (h : (closeSpan s).value = .error status) : status = efiLoadError := by
  unfold closeSpan at h
  split at h
  · exact (Except.error.inj h).symm
  · rw [Logged.value_bind] at h
    split at h
    · exact (Except.error.inj h).symm
    · exact absurd h (by simp)

theorem inspectSegments_error {m : Memory} {data size status : ℕ} {header : ElfHeader}
    (h : (inspectSegments m data header size).value = .error status) : efiError status = true := by
  have hrejection : Rejection status := by
    simp only [inspectSegments, Logged.value_bind] at h
    rcases value_inspectFrom m (Logged.add data header.phoff).value header.entry size 0 header.phnum
      ⟨Word64.size - 1, 0, false⟩ with ⟨-, hok⟩ | ⟨-, st, hrej, herr⟩
    · rw [hok] at h
      exact .inr (closeSpan_error h)
    · rw [herr] at h
      obtain rfl : st = status := Except.error.inj h
      exact hrej
  rcases hrejection with rfl | rfl
  · decide
  · decide

/-- After `place_kernel` the pages of the kernel are held just when it succeeded. -/
def withKernel (held : List Resource) (r : ℕ × LoadedKernel × Memory) : List Resource :=
  if efiError r.1 then held else .pages r.2.1.base r.2.1.pages :: held

theorem withKernel_error {status : ℕ} (h : efiError status = true) (kernel : LoadedKernel) (m : Memory) :
    withKernel held (status, kernel, m) = held := if_pos h

theorem withKernel_success (kernel : LoadedKernel) (m : Memory) :
    withKernel held (efiSuccess, kernel, m) = .pages kernel.base kernel.pages :: held :=
  if_neg (by change ¬ efiError efiSuccess = true; decide)

theorem placeKernelCall_holds (m : Memory) (data size : ℕ) (kernel : LoadedKernel) (h : Holds held t) :
    Safe HeldOnly (fun now r => Holds (withKernel held r) now) t (placeKernelCall m data size kernel) := by
  have hload : efiError efiLoadError = true := by decide
  unfold placeKernelCall
  split
  · rw [safe_pure, withKernel_error hload]
    exact h
  · simp only
    split
    · rw [safe_pure, withKernel_error hload]
      exact h
    · cases hs : (inspectSegments m data (headerAt m data) size).value with
      | error status =>
        rw [safe_pure, withKernel_error (inspectSegments_error hs)]
        exact h
      | ok range =>
        refine h.safe_call rfl rfl fun r now hnow => ?_
        simp only [granted] at hnow
        cases hr : efiError (Output.status r) with
        | true =>
          rw [if_pos hr] at hnow
          rw [if_pos rfl, safe_pure, withKernel_error hr]
          exact hnow
        | false =>
          rw [if_neg (by rw [hr]; decide)] at hnow
          rw [if_neg (by decide), safe_pure, withKernel_success]
          exact hnow

theorem cleanup_holds {root file buffer : ℕ} (status : ℕ) (kernel : LoadedKernel) (m : Memory)
    (h : Holds (behind buffer (.pool buffer) ++ (behind file (.file file) ++ .file root :: held)) t) :
    Safe HeldOnly (fun now r => Holds held now ∧ r = (status, kernel, m)) t (cleanup root file buffer status kernel m) := by
  unfold cleanup
  refine safe_bind (unlessNull_holds rfl rfl (fun _ => rfl) h) fun now _ hnow => ?_
  refine safe_bind (unlessNull_holds rfl rfl (fun _ => rfl) hnow) fun now _ hnow => ?_
  exact hnow.safe_release rfl rfl (fun _ => rfl) fun _ now hnow => safe_pure.mpr ⟨hnow, rfl⟩

theorem cleanup_failed {root file buffer status : ℕ} (hs : efiError status = true) (kernel : LoadedKernel) (m : Memory)
    (h : Holds (behind buffer (.pool buffer) ++ (behind file (.file file) ++ .file root :: held)) t) :
    Safe HeldOnly (fun now r => Holds (withKernel held r) now) t (cleanup root file buffer status kernel m) := by
  refine (cleanup_holds status kernel m h).mono (fun _ _ hc => hc) ?_
  rintro now r ⟨hnow, rfl⟩
  rw [withKernel_error hs]
  exact hnow

theorem cleanup_placed {root file buffer : ℕ} (status : ℕ) (kernel : LoadedKernel) (m : Memory)
    (h : Holds (withKernel (behind buffer (.pool buffer) ++ (behind file (.file file) ++ .file root :: held))
      (status, kernel, m)) t) :
    Safe HeldOnly (fun now r => Holds (withKernel held r) now) t (cleanup root file buffer status kernel m) := by
  cases hs : efiError status with
  | true =>
    rw [withKernel_error hs] at h
    exact cleanup_failed hs kernel m h
  | false =>
    have hkernel : ∀ l : List Resource, withKernel l (status, kernel, m) = .pages kernel.base kernel.pages :: l :=
      fun l => if_neg (by rw [hs]; decide)
    have hperm : (.pages kernel.base kernel.pages :: (behind buffer (.pool buffer) ++
        (behind file (.file file) ++ .file root :: held))).Perm
        (behind buffer (.pool buffer) ++ (behind file (.file file) ++ .file root ::
          .pages kernel.base kernel.pages :: held)) := by
      rw [List.perm_iff_count]
      intro x
      simp only [List.count_cons, List.count_append]
      omega
    rw [hkernel] at h
    refine (cleanup_holds status kernel m (h.perm hperm)).mono (fun _ _ hc => hc) ?_
    rintro now r ⟨hnow, rfl⟩
    rw [hkernel]
    exact hnow

theorem loadFile_holds (root file : ℕ) (kernel : LoadedKernel) (m : Memory)
    (h : Holds (behind file (.file file) ++ .file root :: held) t) :
    Safe HeldOnly (fun now r => Holds (withKernel held r) now) t (loadFile root file kernel m) := by
  have hload : efiError efiLoadError = true := by decide
  unfold loadFile
  refine h.safe_call rfl rfl fun status now h => ?_
  split
  · exact cleanup_failed ‹_› kernel m h
  · refine h.safe_call rfl rfl fun length now h => ?_
    split
    · exact cleanup_failed ‹_› kernel m h
    · split
      · exact cleanup_failed hload kernel m h
      · refine h.safe_call rfl rfl fun status now h => ?_
        split
        · exact cleanup_failed ‹_› kernel m h
        · refine h.safe_call rfl rfl fun buffer now h => ?_
          simp only [granted] at h
          split
          · rename_i hr
            rw [if_pos hr] at h
            exact cleanup_failed hr kernel m h
          · rename_i hr
            rw [if_neg hr] at h
            have hall := Holds.behind h (.inl rfl)
            refine safe_bind (readEntireFile_holds file _ _ hall) fun now result h => ?_
            obtain ⟨status, m⟩ := result
            simp only
            split
            · exact cleanup_failed ‹_› kernel m h
            · refine safe_bind (placeKernelCall_holds m _ _ kernel h) fun now result h => ?_
              obtain ⟨status, kernel, m⟩ := result
              exact cleanup_placed status kernel m h

theorem loadKernel_holds (image : ℕ) (kernel : LoadedKernel) (m : Memory) (h : Holds held t) :
    Safe HeldOnly (fun now r => Holds (withKernel held r) now) t (loadKernel image kernel m) := by
  unfold loadKernel
  refine h.safe_call rfl rfl fun loaded now h => ?_
  split
  · rw [safe_pure, withKernel_error ‹_›]
    exact h
  · refine h.safe_call rfl rfl fun fs now h => ?_
    split
    · rw [safe_pure, withKernel_error ‹_›]
      exact h
    · refine h.safe_call rfl rfl fun root now h => ?_
      simp only [granted] at h
      split
      · rename_i hr
        rw [if_pos hr] at h
        rw [safe_pure, withKernel_error hr]
        exact h
      · rename_i hr
        rw [if_neg hr] at h
        refine h.safe_call rfl rfl fun file now h => ?_
        simp only [granted] at h
        split
        · rename_i hr
          rw [if_pos hr] at h
          exact cleanup_failed hr kernel m h
        · rename_i hr
          rw [if_neg hr] at h
          exact loadFile_holds _ _ kernel m (Holds.behind h (.inr rfl))

end Load

section Main

variable {held : List Resource} {t : Trace}

/-- If the loader returns it holds only `held`, and boot services are still there. -/
def ReturnsHolding (held : List Resource) (t : Trace) : Ending → Prop
  | .returned _ => Holds held t
  | .spinning _ _ => True

theorem outputAll_holds (output : ℕ) (texts : List String) {m : Memory} (h : Holds held t) :
    Safe HeldOnly (fun now _ => Holds held now) t (outputAll output m texts) := by
  induction texts generalizing t with
  | nil => exact h
  | cons text texts ih =>
    rw [outputAll]
    exact h.safe_call rfl rfl fun r now hnow => ih hnow

theorem reportError_holds (table : SystemTable) (operation : String) (status : ℕ) {m : Memory} (h : Holds held t) :
    Safe HeldOnly (fun now _ => Holds held now) t (reportError table operation status m) := by
  unfold reportError
  split
  · exact safe_bind (outputAll_holds _ _ h) fun now _ hnow => safe_pure.mpr hnow
  · exact safe_pure.mpr h

theorem reportAndReturn_holds (table : SystemTable) (operation : String) (status : ℕ) {m : Memory} (h : Holds held t) :
    Safe HeldOnly (ReturnsHolding held) t (reportAndReturn table operation status m) :=
  safe_bind (reportError_holds table operation status h) fun _ _ hnow => safe_pure.mpr hnow

theorem attempts_spins (image : ℕ) (table : SystemTable) (kernel : LoadedKernel) (info left : ℕ) (hleft : left < 8)
    (status : ℕ) (m : Memory) :
    Safe HeldOnly (ReturnsHolding held) t (attempts image table kernel info left status m) := by
  induction left generalizing status m t with
  | zero => exact safe_pure.mpr trivial
  | succ left ih =>
    rw [attempts, safe_ask_bind]
    refine ⟨heldOnly_other rfl, fun r => ?_⟩
    split
    · rw [if_neg (by simp; omega), safe_pure]
      trivial
    · rw [safe_ask_bind]
      refine ⟨heldOnly_other rfl, fun answer => ?_⟩
      split
      · rw [safe_ask_bind]
        exact ⟨heldOnly_other rfl, fun _ => safe_pure.mpr trivial⟩
      · split
        · exact safe_pure.mpr trivial
        · exact ih (by omega) _ _

theorem attempts_first (image : ℕ) (table : SystemTable) (kernel : LoadedKernel) (info status : ℕ) (m : Memory)
    (h : Holds [.pages info handoffPages, .pages kernel.base kernel.pages] t) :
    Safe HeldOnly (ReturnsHolding []) t (attempts image table kernel info 8 status m) := by
  rw [attempts]
  refine h.safe_call rfl rfl fun r now h => ?_
  split
  · rw [if_pos (by decide)]
    refine h.safe_release rfl rfl (fun _ => rfl) fun _ now h => ?_
    refine h.safe_release rfl rfl (fun _ => rfl) fun _ now h => ?_
    exact safe_bind (reportError_holds table _ _ h) fun _ _ hnow => safe_pure.mpr hnow
  · rw [safe_ask_bind]
    refine ⟨heldOnly_other rfl, fun answer => ?_⟩
    split
    · rw [safe_ask_bind]
      exact ⟨heldOnly_other rfl, fun _ => safe_pure.mpr trivial⟩
    · split
      · exact safe_pure.mpr trivial
      · exact attempts_spins image table kernel info 7 (by decide) _ _

theorem startKernel_holds (image : ℕ) (table : SystemTable) (kernel : LoadedKernel) (m : Memory)
    (h : Holds [.pages kernel.base kernel.pages] t) :
    Safe HeldOnly (ReturnsHolding []) t (startKernel image table kernel m) := by
  have halloc : Safe HeldOnly (fun now r =>
      (∀ status, r.1 = .error status → Holds [.pages kernel.base kernel.pages] now) ∧
      ∀ info, r.1 = .ok info → Holds [.pages info handoffPages, .pages kernel.base kernel.pages] now)
      t (allocateHandoff kernel m) := by
    unfold allocateHandoff
    refine h.safe_call rfl rfl fun r now h => ?_
    simp only [granted] at h
    split
    · rename_i hr
      rw [if_pos hr] at h
      exact safe_pure.mpr ⟨fun _ _ => h, fun _ hc => absurd hc (by simp)⟩
    · rename_i hr
      rw [if_neg hr] at h
      refine safe_pure.mpr ⟨fun _ hc => absurd hc (by simp), fun info hc => ?_⟩
      rw [← Except.ok.inj hc]
      exact h
  refine safe_bind halloc fun now r h => ?_
  obtain ⟨result, m⟩ := r
  cases result with
  | error status =>
    refine (h.1 status rfl).safe_release rfl rfl (fun _ => rfl) fun _ now h => ?_
    exact safe_bind (reportError_holds table _ _ h) fun _ _ hnow => safe_pure.mpr hnow
  | ok info => exact attempts_first image table kernel info efiSuccess m (h.2 info rfl)

theorem loadAndStart_holds (image : ℕ) (table : SystemTable) (serial : ℕ) (kernel : LoadedKernel) (m : Memory)
    (h : Holds [] t) : Safe HeldOnly (ReturnsHolding []) t (loadAndStart image table serial kernel m) := by
  unfold loadAndStart
  refine safe_bind (loadKernel_holds image kernel m h) fun now result h => ?_
  obtain ⟨status, kernel, m⟩ := result
  simp only
  split
  · rename_i hs
    rw [withKernel_error hs] at h
    exact reportAndReturn_holds table _ _ h
  · rename_i hs
    rw [withKernel, if_neg hs] at h
    refine h.safe_call rfl rfl fun written now h => ?_
    split
    · exact h.safe_release rfl rfl (fun _ => rfl) fun _ now h => reportAndReturn_holds table _ _ h
    · exact startKernel_holds image table kernel m h

theorem efiMain_holds (image : ℕ) (table : SystemTable) (kernel : LoadedKernel) (m : Memory) :
    Safe HeldOnly (ReturnsHolding []) [] (efiMain image table kernel m) := by
  unfold efiMain
  refine Holds.nil.safe_call rfl rfl fun status now h => ?_
  split
  · exact reportAndReturn_holds table _ _ h
  · refine h.safe_call rfl rfl fun serial now h => ?_
    split
    · exact reportAndReturn_holds table _ _ h
    · split
      · exact reportAndReturn_holds table _ _ h
      · refine h.safe_call rfl rfl fun status now h => ?_
        split
        · exact reportAndReturn_holds table _ _ h
        · refine h.safe_call rfl rfl fun written now h => ?_
          generalize (if !efiError (Output.status written) && Output.value written != banner.length then efiDeviceError
            else Output.status written) = status
          simp only
          split
          · exact reportAndReturn_holds table _ _ h
          · exact loadAndStart_holds image table _ kernel m h

/-- For every sequence of replies that grants no null pointer: a call releases only what is held then;
    when `efi_main` returns, everything granted has been given back as often as it was granted and
    boot services were not exited; and when `load_kernel` succeeds, just the kernel's pages are held. -/
theorem loader_gives_back (image : ℕ) (table : SystemTable) (kernel : LoadedKernel) (m : Memory) :
    (∀ t c, Issues (efiMain image table kernel m) t c → HeldOnly t c) ∧
    (∀ t status, Returns (efiMain image table kernel m) t (.returned status) → Nonnull t →
      (∀ x, (released t).count x = (acquired t).count x) ∧ ∀ s ∈ services t, isExit s = false) ∧
    ∀ t r, Returns (loadKernel image kernel m) t r → efiError r.1 = false → Nonnull t →
      ∀ x, (acquired t).count x = (released t).count x + [Resource.pages r.2.1.base r.2.1.pages].count x := by
  refine ⟨fun t c h => (efiMain_holds image table kernel m).issues h, fun t status h hn => ?_, fun t r h hr hn => ?_⟩
  · have hend := (efiMain_holds image table kernel m).returns h
    exact ⟨fun x => (hend.balance hn x).symm, hend.quiet⟩
  · have hend := (loadKernel_holds image kernel m Holds.nil).returns h
    simp only [List.nil_append, withKernel, hr, Bool.false_eq_true, if_false] at hend
    exact hend.balance hn

end Main

section Sample

def placed (m : Memory) (data : ℕ) (range : ImageRange) : Memory := (copySegments m data range).value

def placedImage : Memory := placed sampleImage 0x200000 ⟨0x100000, 0x10a000⟩

def sampleLoaded : LoadedKernel := ⟨0x100000, 10, (headerAt placedImage 0x200000).entry⟩

/-- The firmware reads the file into a pool at 2 MiB, in one go, and grants the pages at 1 MiB. -/
def loadingTrace : Trace :=
  [⟨⟨.handleProtocol 1 .loadedImage, sampleImage⟩, (⟨efiSuccess, 0x300000⟩ : Output)⟩,
    ⟨⟨.handleProtocol (load sampleImage 0x300018 8) .simpleFileSystem, sampleImage⟩, (⟨efiSuccess, 4⟩ : Output)⟩,
    ⟨⟨.openVolume 4, sampleImage⟩, (⟨efiSuccess, 5⟩ : Output)⟩,
    ⟨⟨.openFile 5 "\\kernel.elf" 1 0, sampleImage⟩, (⟨efiSuccess, 6⟩ : Output)⟩,
    ⟨⟨.setPosition 6 (Word64.size - 1), sampleImage⟩, efiSuccess⟩,
    ⟨⟨.getPosition 6, sampleImage⟩, (⟨efiSuccess, 181⟩ : Output)⟩,
    ⟨⟨.setPosition 6 0, sampleImage⟩, efiSuccess⟩,
    ⟨⟨.allocatePool 2 181, sampleImage⟩, (⟨efiSuccess, 0x200000⟩ : Output)⟩,
    ⟨⟨.read 6 181 0x200000, sampleImage⟩, (⟨efiSuccess, 181, fun k => sampleImage (0x200000 + k)⟩ : ReadReply)⟩,
    ⟨⟨.allocatePages 2 1 10 0x100000, sampleImage⟩, (⟨efiSuccess, 0x100000⟩ : Output)⟩,
    ⟨⟨.freePool 0x200000, placedImage⟩, efiSuccess⟩,
    ⟨⟨.close 6, placedImage⟩, efiSuccess⟩,
    ⟨⟨.close 5, placedImage⟩, efiSuccess⟩]

/-- The serial device takes the banner, but not the line with the entry point. -/
def sampleTrace : Trace :=
  [⟨⟨.setWatchdogTimer 0 0 0 0, sampleImage⟩, efiSuccess⟩,
    ⟨⟨.locateProtocol .serialIo, sampleImage⟩, (⟨efiSuccess, 7⟩ : Output)⟩,
    ⟨⟨.setAttributes 7 115200 0 10000 1 8 1, sampleImage⟩, efiSuccess⟩,
    ⟨⟨.serialWrite 7 banner, sampleImage⟩, (⟨efiSuccess, banner.length⟩ : Output)⟩] ++ loadingTrace ++
  [⟨⟨.serialWrite 7 (entryText sampleLoaded.entry), placedImage⟩, (⟨efiDeviceError, 0⟩ : Output)⟩,
    ⟨⟨.freePages 0x100000 10, placedImage⟩, efiSuccess⟩]

theorem put_same (m : Memory) (a n : ℕ) : put m a n (fun k => m (a + k)) = m := by
  funext x
  unfold put
  split
  · rename_i hin
    change m (a + (x - a)) = m x
    rw [Nat.add_sub_cancel' hin.1]
  · rfl

theorem reading_returns : Returns (readEntireFile 6 0x200000 181 sampleImage)
    [⟨⟨.read 6 181 0x200000, sampleImage⟩, (⟨efiSuccess, 181, fun k => sampleImage (0x200000 + k)⟩ : ReadReply)⟩]
    (efiSuccess, sampleImage) := by
  rw [readEntireFile, readFrom, dif_pos (by decide), returns_ask_bind]
  refine ⟨⟨efiSuccess, 181, fun k => sampleImage (0x200000 + k)⟩, [], rfl, ?_⟩
  rw [if_neg (by decide), dif_neg (by decide), readFrom, dif_neg (by decide), returns_pure]
  exact ⟨rfl, Prod.ext rfl (put_same sampleImage 0x200000 181).symm⟩

theorem placing_granted {m : Memory} {data size pages : ℕ} {range : ImageRange} (kernel : LoadedKernel)
    (hsize : ¬ size < sizeofHeader) (hvalid : (validElfHeader (headerAt m data) size).value = true)
    (hspan : (inspectSegments m data (headerAt m data) size).value = .ok range)
    (hpages : Word64.sub range.stop range.base / 4096 = pages) :
    Returns (placeKernelCall m data size kernel)
      [⟨⟨.allocatePages 2 1 pages range.base, m⟩, (⟨efiSuccess, range.base⟩ : Output)⟩]
      (efiSuccess, ⟨range.base, pages, (headerAt (placed m data range) data).entry⟩, placed m data range) := by
  have hok : ¬ efiError efiSuccess = true := by decide
  unfold placeKernelCall
  simp only [hvalid, hspan]
  rw [if_neg hsize, if_neg (by decide), returns_ask_bind, hpages]
  refine ⟨⟨efiSuccess, range.base⟩, [], rfl, ?_⟩
  rw [if_neg hok, returns_pure]
  exact ⟨rfl, rfl⟩

theorem placing_returns : Returns (placeKernelCall sampleImage 0x200000 181 ⟨0, 0, 0⟩)
    [⟨⟨.allocatePages 2 1 10 0x100000, sampleImage⟩, (⟨efiSuccess, 0x100000⟩ : Output)⟩]
    (efiSuccess, sampleLoaded, placedImage) :=
  placing_granted ⟨0, 0, 0⟩ (by decide) sample_valid sample_span (by decide)

theorem cleaning_returns : Returns (cleanup 5 6 0x200000 efiSuccess sampleLoaded placedImage)
    [⟨⟨.freePool 0x200000, placedImage⟩, efiSuccess⟩, ⟨⟨.close 6, placedImage⟩, efiSuccess⟩,
      ⟨⟨.close 5, placedImage⟩, efiSuccess⟩] (efiSuccess, sampleLoaded, placedImage) := by
  have given : ∀ pointer service, pointer ≠ 0 → ∀ r : Service.Reply service,
      Returns (unlessNull pointer service placedImage) [⟨⟨service, placedImage⟩, r⟩] () := by
    intro pointer service hne r
    unfold unlessNull
    rw [if_pos (by simpa using hne), returns_ask_bind]
    exact ⟨r, [], rfl, returns_pure.mpr ⟨rfl, rfl⟩⟩
  unfold cleanup
  refine returns_bind.mpr ⟨_, _, _, rfl, given 0x200000 _ (by decide) efiSuccess, ?_⟩
  refine returns_bind.mpr ⟨_, _, _, rfl, given 6 _ (by decide) efiSuccess, ?_⟩
  exact returns_ask_bind.mpr ⟨efiSuccess, [], rfl, returns_pure.mpr ⟨rfl, rfl⟩⟩

theorem loading_returns : Returns (loadKernel 1 ⟨0, 0, 0⟩ sampleImage) loadingTrace (efiSuccess, sampleLoaded, placedImage) := by
  have hok : ¬ efiError efiSuccess = true := by decide
  unfold loadKernel loadingTrace
  rw [returns_ask_bind]
  refine ⟨_, _, rfl, ?_⟩
  rw [if_neg hok, returns_ask_bind]
  refine ⟨_, _, rfl, ?_⟩
  rw [if_neg hok, returns_ask_bind]
  refine ⟨_, _, rfl, ?_⟩
  rw [if_neg hok, returns_ask_bind]
  refine ⟨_, _, rfl, ?_⟩
  rw [if_neg hok]
  unfold loadFile
  rw [returns_ask_bind]
  refine ⟨_, _, rfl, ?_⟩
  rw [if_neg hok, returns_ask_bind]
  refine ⟨_, _, rfl, ?_⟩
  rw [if_neg hok, if_neg (by decide), returns_ask_bind]
  refine ⟨_, _, rfl, ?_⟩
  rw [if_neg hok, returns_ask_bind]
  refine ⟨_, _, rfl, ?_⟩
  rw [if_neg hok]
  refine returns_bind.mpr ⟨_, _, _, rfl, reading_returns, ?_⟩
  simp only
  rw [if_neg hok]
  refine returns_bind.mpr ⟨_, _, _, rfl, placing_returns, ?_⟩
  simp only
  exact cleaning_returns

theorem sample_returns : Returns (efiMain 1 ⟨0, 0⟩ ⟨0, 0, 0⟩ sampleImage) sampleTrace (.returned efiDeviceError) := by
  have hok : ¬ efiError efiSuccess = true := by decide
  unfold efiMain sampleTrace
  rw [List.append_assoc, List.cons_append, returns_ask_bind]
  refine ⟨_, _, rfl, ?_⟩
  rw [if_neg hok, List.cons_append, returns_ask_bind]
  refine ⟨_, _, rfl, ?_⟩
  rw [if_neg hok, if_neg (by decide), List.cons_append, returns_ask_bind]
  refine ⟨_, _, rfl, ?_⟩
  rw [if_neg hok, List.cons_append, returns_ask_bind]
  refine ⟨_, _, rfl, ?_⟩
  have hbanner : (if !efiError efiSuccess && banner.length != banner.length then efiDeviceError else efiSuccess) = efiSuccess := by
    simp
  simp only [hbanner]
  rw [if_neg hok, List.nil_append]
  unfold loadAndStart
  refine returns_bind.mpr ⟨_, _, _, rfl, loading_returns, ?_⟩
  simp only
  rw [if_neg hok, returns_ask_bind]
  refine ⟨_, _, rfl, ?_⟩
  have herror : efiError efiDeviceError = true := by decide
  rw [if_pos (by simp [herror]), returns_ask_bind]
  refine ⟨_, _, rfl, ?_⟩
  rw [if_pos herror]
  unfold reportAndReturn reportError
  rw [if_neg (by decide)]
  exact returns_bind.mpr ⟨[], [], _, rfl, returns_pure.mpr ⟨rfl, rfl⟩, returns_pure.mpr ⟨rfl, rfl⟩⟩

/-- `load_kernel` succeeds, `efi_main` gives up after it, and the pages go back like the rest. -/
theorem sample_balanced :
    (∀ x, (released sampleTrace).count x = (acquired sampleTrace).count x) ∧
    ∀ x, (acquired loadingTrace).count x = (released loadingTrace).count x + [Resource.pages 0x100000 10].count x := by
  obtain ⟨-, hmain, hload⟩ := loader_gives_back 1 ⟨0, 0⟩ ⟨0, 0, 0⟩ sampleImage
  refine ⟨(hmain sampleTrace _ sample_returns ⟨by decide +kernel, by decide +kernel⟩).1, ?_⟩
  exact hload loadingTrace _ loading_returns (by decide) ⟨by decide +kernel, by decide +kernel⟩

end Sample

end OsByAi.LoaderResources
