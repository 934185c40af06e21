import OsByAi.LoaderInfo

set_option autoImplicit false

namespace OsByAi.LoaderHandover
open CallTree ByteMemory BootInformation ElfModel LoaderModel LoaderInfo

def services (t : Trace) : List Service := t.map fun e => e.1.service

def isGetMap : Service → Bool
  | .getMemoryMap _ _ => true
  | _ => false

def isExit : Service → Bool
  | .exitBootServices _ _ => true
  | _ => false

def isEntry : Service → Bool
  | .enterKernel _ _ _ => true
  | _ => false

def Obtained (t : Trace) (info : ℕ) : Prop :=
  ∃ (m : Memory) (r : Output), (⟨⟨.allocatePages 0 2 handoffPages 0, m⟩, r⟩ : Exchange Call Call.Reply) ∈ t ∧
    efiError r.status = false ∧ r.value = info

/-- The status that the loader takes from an exchange; a kernel that returned counts as a load error. -/
inductive StatusOf : Exchange Call Call.Reply → ℕ → Prop where
  | map (size buffer : ℕ) (m : Memory) (r : MapReply) : StatusOf ⟨⟨.getMemoryMap size buffer, m⟩, r⟩ r.status
  | exit (image key : ℕ) (m : Memory) (status : ℕ) : StatusOf ⟨⟨.exitBootServices image key, m⟩, status⟩ status
  | entry (entry info top : ℕ) (m : Memory) : StatusOf ⟨⟨.enterKernel entry info top, m⟩, ()⟩ efiLoadError

/-- The exchanges end with a map and an exit that accepted its key; BOOT_INFO describes this map. -/
def Accepted (image info : ℕ) (t : Trace) (m : Memory) : Prop :=
  ∃ (t₀ : Trace) (buffer : ℕ) (m₁ m₂ : Memory) (r : MapReply),
    t = t₀ ++ [⟨⟨.getMemoryMap mapCapacity buffer, m₁⟩, r⟩, ⟨⟨.exitBootServices image r.key.toNat, m₂⟩, efiSuccess⟩] ∧
    efiError r.status = false ∧ Obtained t₀ info ∧
    (bootInfoAt m info).memoryMapSize = r.size.toNat ∧
    (bootInfoAt m info).descriptorSize = r.descriptorSize.toNat ∧
    (bootInfoAt m info).descriptorVersion = r.descriptorVersion.toNat ∧
    (bootInfoAt m info).flags = bootServicesExited

structure CallOk (image : ℕ) (kernel : LoadedKernel) (t : Trace) (c : Call) : Prop where
  entry : ∀ entry info top, c.service = .enterKernel entry info top →
    entry = kernel.entry ∧ Accepted image info t c.memory
  flags : isEntry c.service = false → ∀ info, Obtained t info → (bootInfoAt c.memory info).flags = 0
  maps : (services t ++ [c.service]).countP isGetMap ≤ 8
  exits : (services t ++ [c.service]).countP isExit ≤ 8
  quiet : (∃ s ∈ services t, isExit s = true) →
    isGetMap c.service = true ∨ isExit c.service = true ∨ isEntry c.service = true

def EndOk (kernel : LoadedKernel) (t : Trace) : Ending → Prop
  | .returned _ =>
    (∀ s ∈ services t, isExit s = false) ∧ .freePages kernel.base kernel.pages ∈ services t ∧
      ∀ info, Obtained t info → .freePages info handoffPages ∈ services t
  | .spinning status m =>
    (∃ s ∈ services t, isExit s = true) ∧ (∃ t₀ e, t = t₀ ++ [e] ∧ StatusOf e status) ∧
      ∀ info, Obtained t info → (bootInfoAt m info).flags = 0 ∨ ∃ s ∈ services t, isEntry s = true

section Traces

variable {t : Trace} {e : Exchange Call Call.Reply}

@[simp] theorem services_append (t u : Trace) : services (t ++ u) = services t ++ services u := List.map_append

@[simp] theorem services_nil : services [] = [] := rfl

@[simp] theorem services_cons (e : Exchange Call Call.Reply) (t : Trace) : services (e :: t) = e.1.service :: services t := rfl

theorem obtained_append {info : ℕ} (he : e.1.service ≠ .allocatePages 0 2 handoffPages 0) :
    Obtained (t ++ [e]) info ↔ Obtained t info := by
  constructor
  · rintro ⟨m, r, hmem, hr⟩
    rcases List.mem_append.mp hmem with h | h
    · exact ⟨m, r, h, hr⟩
    · rw [List.mem_singleton] at h
      rw [← h] at he
      exact absurd rfl he
  · rintro ⟨m, r, hmem, hr⟩
    exact ⟨m, r, List.mem_append_left _ hmem, hr⟩

theorem no_exit_iff {l : List Service} : l.countP isExit = 0 ↔ ∀ s ∈ l, isExit s = false := by
  simp [List.countP_eq_zero]

end Traces

inductive Plain : Service → Prop where
  | freePages (address pages : ℕ) : Plain (.freePages address pages)
  | outputString (output : ℕ) (text : String) : Plain (.outputString output text)

/-- `now` continues `t` with plain calls; nothing was exited and the flags are not set. -/
structure Before (t now : Trace) (m : Memory) : Prop where
  kept : ∀ s ∈ services t, s ∈ services now
  obtained : ∀ i, Obtained now i ↔ Obtained t i
  maps : (services now).countP isGetMap ≤ 8
  exits : (services now).countP isExit = 0
  flags : ∀ info, Obtained now info → (bootInfoAt m info).flags = 0

section Before

variable {image : ℕ} {kernel : LoadedKernel} {t now : Trace} {m : Memory} {s : Service}

theorem Before.callOk (h : Before t now m) (hs : Plain s) : CallOk image kernel now ⟨s, m⟩ where
  entry := by
    cases hs with
    | freePages => exact fun _ _ _ hc => absurd hc (by simp)
    | outputString => exact fun _ _ _ hc => absurd hc (by simp)
  flags := fun _ => h.flags
  maps := by
    have hmaps := h.maps
    cases hs with
    | freePages => simpa [isGetMap] using hmaps
    | outputString => simpa [isGetMap] using hmaps
  exits := by
    have hexits := h.exits
    cases hs with
    | freePages => simp [isExit, hexits]
    | outputString => simp [isExit, hexits]
  quiet := by
    rintro ⟨x, hx, hexit⟩
    rw [no_exit_iff.mp h.exits x hx] at hexit
    exact absurd hexit (by decide)

theorem Before.step (h : Before t now m) (hs : Plain s) (m' : Memory) (r : Service.Reply s) :
    Before t (now ++ [⟨⟨s, m'⟩, r⟩]) m where
  kept := fun x hx => by
    rw [services_append]
    exact List.mem_append_left _ (h.kept x hx)
  obtained := by
    intro i
    rw [obtained_append, h.obtained]
    cases hs with
    | freePages => simp
    | outputString => simp
  maps := by
    have hmaps := h.maps
    cases hs with
    | freePages => simpa [isGetMap] using hmaps
    | outputString => simpa [isGetMap] using hmaps
  exits := by
    have hexits := h.exits
    cases hs with
    | freePages => simp [isExit, hexits]
    | outputString => simp [isExit, hexits]
  flags := by
    intro info hi
    refine h.flags info ?_
    rw [obtained_append] at hi
    · exact hi
    · cases hs with
      | freePages => simp
      | outputString => simp

theorem Before.restart (h : Before t now m) : Before now now m :=
  ⟨fun _ hs => hs, fun _ => Iff.rfl, h.maps, h.exits, h.flags⟩

theorem outputAll_safe (output : ℕ) (texts : List String) (h : Before t now m) :
    Safe (CallOk image kernel) (fun later _ => Before t later m) now (outputAll output m texts) := by
  induction texts generalizing now with
  | nil => exact h
  | cons text texts ih =>
    rw [outputAll, safe_ask_bind]
    exact ⟨h.callOk (.outputString _ _), fun r => ih (h.step (.outputString _ _) m r)⟩

theorem reportError_safe (table : SystemTable) (operation : String) (status : ℕ) (h : Before t now m) :
    Safe (CallOk image kernel) (fun later _ => Before t later m) now (reportError table operation status m) := by
  unfold reportError
  split
  · exact safe_bind (outputAll_safe _ _ h) fun later _ hl => safe_pure.mpr hl
  · exact safe_pure.mpr h

end Before

structure Looping (image info left status : ℕ) (m : Memory) (t : Trace) : Prop where
  bound : left ≤ 8
  obtained : ∀ i, Obtained t i ↔ i = info
  maps : (services t).countP isGetMap = 8 - left
  exits : (services t).countP isExit = 8 - left
  attempted : left < 8 → ∃ t₀ key m', t = t₀ ++ [⟨⟨.exitBootServices image key, m'⟩, status⟩]
  flags : (bootInfoAt m info).flags = 0
  map : (bootInfoAt m info).memoryMap = Word64.add info 4096

section Loop

variable {image info left status : ℕ} {table : SystemTable} {kernel : LoadedKernel} {m : Memory} {t : Trace}

theorem Looping.callMap (h : Looping image info (left + 1) status m t) :
    CallOk image kernel t ⟨.getMemoryMap mapCapacity (load m (info + 16) 8), m⟩ where
  entry := fun _ _ _ hc => absurd hc (by simp)
  flags := fun _ i hi => by
    rw [(h.obtained i).mp hi]
    exact h.flags
  maps := by
    have hb := h.bound
    simp [List.countP_cons, isGetMap, h.maps]
    omega
  exits := by
    simp [isExit, h.exits]
    omega
  quiet := fun _ => .inl rfl

theorem Looping.failedMap (h : Looping image info 8 status m t) (m' : Memory) (r : MapReply) (size buffer : ℕ) :
    Before (t ++ [⟨⟨.getMemoryMap size buffer, m'⟩, r⟩]) (t ++ [⟨⟨.getMemoryMap size buffer, m'⟩, r⟩]) m where
  kept := fun _ hs => hs
  obtained := fun _ => Iff.rfl
  maps := by simp [List.countP_cons, isGetMap, h.maps]
  exits := by simp [isExit, h.exits]
  flags := by
    intro i hi
    rw [obtained_append (by simp), h.obtained] at hi
    rw [hi]
    exact h.flags

theorem Looping.recorded (h : Looping image info left status m t) (r : MapReply) :
    bootInfoAt (recordMap info r (put m (load m (info + 16) 8) (min r.size.toNat mapCapacity) r.data)) info =
      BootInfo.withMap (bootInfoAt m info) r := by
  have hmap : load m (info + 16) 8 = Word64.add info 4096 := h.map
  rw [bootInfoAt_recordMap, hmap, bootInfoAt_put (Nat.min_le_right _ _)]

theorem Looping.callExit (h : Looping image info (left + 1) status m t) {m₁ : Memory} (m' : Memory) (r : MapReply)
    (size buffer key : ℕ) (hm : bootInfoAt m₁ info = BootInfo.withMap (bootInfoAt m info) r) :
    CallOk image kernel (t ++ [⟨⟨.getMemoryMap size buffer, m'⟩, r⟩]) ⟨.exitBootServices image key, m₁⟩ where
  entry := fun _ _ _ hc => absurd hc (by simp)
  flags := by
    intro _ i hi
    rw [obtained_append (by simp), h.obtained] at hi
    rw [hi, hm]
    exact h.flags
  maps := by
    have hb := h.bound
    simp [List.countP_cons, isGetMap, h.maps]
    omega
  exits := by
    have hb := h.bound
    simp [List.countP_cons, isExit, h.exits]
    omega
  quiet := fun _ => .inr (.inl rfl)

theorem Looping.refused (h : Looping image info (left + 1) status m t) {m₁ : Memory} (m' : Memory) (r : MapReply)
    (size buffer key : ℕ) (hm : bootInfoAt m₁ info = BootInfo.withMap (bootInfoAt m info) r) (refusal : ℕ) :
    Looping image info left refusal m₁
      (t ++ [⟨⟨.getMemoryMap size buffer, m'⟩, r⟩] ++ [⟨⟨.exitBootServices image key, m₁⟩, refusal⟩]) where
  bound := Nat.le_of_succ_le h.bound
  obtained := by
    intro i
    rw [obtained_append (by simp), obtained_append (by simp), h.obtained]
  maps := by
    have hb := h.bound
    simp [List.countP_cons, isGetMap, h.maps]
    omega
  exits := by
    have hb := h.bound
    simp [List.countP_cons, isExit, h.exits]
    omega
  attempted := fun _ => ⟨_, key, m₁, rfl⟩
  flags := by
    rw [hm]
    exact h.flags
  map := by
    rw [hm]
    exact h.map

theorem Looping.spinning (h : Looping image info left status m t) (hlt : left < 8) : EndOk kernel t (.spinning status m) := by
  obtain ⟨t₀, key, m', ht⟩ := h.attempted hlt
  refine ⟨⟨.exitBootServices image key, ?_, rfl⟩, ⟨t₀, _, ht, .exit image key m' status⟩, fun i hi => .inl ?_⟩
  · simp [ht]
  · rw [(h.obtained i).mp hi]
    exact h.flags

theorem Looping.spinningMap (h : Looping image info left status m t) (hlt : left < 8) (m' : Memory) (r : MapReply)
    (size buffer : ℕ) : EndOk kernel (t ++ [⟨⟨.getMemoryMap size buffer, m'⟩, r⟩]) (.spinning r.status m) := by
  obtain ⟨t₀, key, m'', ht⟩ := h.attempted hlt
  refine ⟨⟨.exitBootServices image key, ?_, rfl⟩, ⟨t, _, rfl, .map size buffer m' r⟩, fun i hi => .inl ?_⟩
  · simp [ht]
  · rw [obtained_append (by simp), h.obtained] at hi
    rw [hi]
    exact h.flags

theorem Looping.callEntry (h : Looping image info (left + 1) status m t) {m₁ : Memory} (m' : Memory) (r : MapReply)
    (buffer top : ℕ) (hr : efiError r.status = false)
    (hm : bootInfoAt m₁ info = BootInfo.withMap (bootInfoAt m info) r) :
    CallOk image kernel
      (t ++ [⟨⟨.getMemoryMap mapCapacity buffer, m'⟩, r⟩] ++ [⟨⟨.exitBootServices image r.key.toNat, m₁⟩, efiSuccess⟩])
      ⟨.enterKernel kernel.entry info top, setFlags info m₁⟩ where
  entry := by
    intro entry i top' hc
    obtain ⟨rfl, rfl, rfl⟩ := Service.enterKernel.inj hc
    refine ⟨rfl, t, buffer, m', m₁, r, by rw [List.append_assoc]; rfl, hr, (h.obtained _).mpr rfl, ?_⟩
    rw [bootInfoAt_setFlags, hm]
    exact ⟨rfl, rfl, rfl, rfl⟩
  flags := fun hc => absurd hc (by simp [isEntry])
  maps := by
    have hb := h.bound
    simp [List.countP_cons, isGetMap, h.maps]
    omega
  exits := by
    have hb := h.bound
    simp [List.countP_cons, isExit, h.exits]
    omega
  quiet := fun _ => .inr (.inr rfl)

theorem spinning_entry (t : Trace) (key status entry info top : ℕ) (m₁ m₂ m₃ : Memory) :
    EndOk kernel (t ++ [⟨⟨.exitBootServices image key, m₁⟩, status⟩] ++ [⟨⟨.enterKernel entry info top, m₂⟩, ()⟩])
      (.spinning efiLoadError m₃) := by
  refine ⟨⟨.exitBootServices image key, by simp, rfl⟩, ⟨_, _, rfl, .entry _ _ _ _⟩, fun _ _ => .inr ?_⟩
  exact ⟨.enterKernel entry info top, by simp, rfl⟩

theorem attempts_safe (left : ℕ) {status : ℕ} {m : Memory} {t : Trace} (h : Looping image info left status m t) :
    Safe (CallOk image kernel) (EndOk kernel) t (attempts image table kernel info left status m) := by
  induction left generalizing status m t with
  | zero => exact safe_pure.mpr (h.spinning (by decide))
  | succ left ih =>
    rw [attempts, safe_ask_bind]
    refine ⟨h.callMap, fun r => ?_⟩
    cases hr : efiError (MapReply.status r) with
    | true =>
      rw [if_pos rfl]
      by_cases hfirst : left = 7
      · subst hfirst
        rw [if_pos (by decide), safe_ask_bind]
        have hbefore := h.failedMap m r mapCapacity (load m (info + 16) 8)
        refine ⟨hbefore.callOk (.freePages _ _), fun r₁ => ?_⟩
        rw [safe_ask_bind]
        have hbefore₁ := hbefore.step (.freePages info handoffPages) m r₁
        refine ⟨hbefore₁.callOk (.freePages _ _), fun r₂ => ?_⟩
        have hbefore₂ := hbefore₁.step (.freePages kernel.base kernel.pages) m r₂
        refine safe_bind (reportError_safe table _ _ hbefore₂.restart) fun now _ hnow => ?_
        rw [safe_pure]
        refine ⟨no_exit_iff.mp hnow.exits, hnow.kept _ (by simp), fun i hi => hnow.kept _ ?_⟩
        rw [hnow.obtained, hbefore₂.obtained, obtained_append (by simp), h.obtained] at hi
        rw [hi]
        simp
      · rw [if_neg (by simpa using hfirst), safe_pure]
        exact h.spinningMap (by have hb := h.bound; omega) m r _ _
    | false =>
      rw [if_neg (by decide), safe_ask_bind]
      have hm := h.recorded r
      refine ⟨h.callExit m r _ _ _ hm, fun answer => ?_⟩
      by_cases hok : answer = efiSuccess
      · subst hok
        rw [if_pos rfl, safe_ask_bind]
        refine ⟨h.callEntry m r _ _ hr hm, fun _ => ?_⟩
        exact safe_pure.mpr (spinning_entry _ _ _ _ _ _ _ _ _)
      · have hnext := h.refused m r mapCapacity (load m (info + 16) 8) r.key.toNat hm answer
        rw [if_neg hok]
        by_cases hinvalid : answer = efiInvalidParameter
        · rw [if_neg (by simpa using hinvalid)]
          exact ih hnext
        · rw [if_pos hinvalid, safe_pure]
          exact hnext.spinning (by have hb := h.bound; omega)

end Loop

section Start

variable {image : ℕ} {table : SystemTable} {kernel : LoadedKernel} {m : Memory}

theorem obtained_nil (info : ℕ) : ¬ Obtained [] info := by
  rintro ⟨m, r, hmem, -⟩
  exact absurd hmem List.not_mem_nil

theorem obtained_first (m : Memory) (r : Output) (info : ℕ) :
    Obtained [⟨⟨.allocatePages 0 2 handoffPages 0, m⟩, r⟩] info ↔ efiError r.status = false ∧ r.value = info := by
  constructor
  · rintro ⟨m', r', hmem, hr⟩
    rw [List.mem_singleton] at hmem
    cases hmem
    exact hr
  · exact fun hr => ⟨m, r, List.mem_singleton.mpr rfl, hr⟩

theorem looping_first (m : Memory) (r : Output) (hr : efiError r.status = false) :
    Looping image r.value 8 efiSuccess (fillInfo kernel r.value m) [⟨⟨.allocatePages 0 2 handoffPages 0, m⟩, r⟩] where
  bound := le_refl _
  obtained := fun i => by
    rw [obtained_first]
    exact ⟨fun h => h.2.symm, fun h => ⟨hr, h.symm⟩⟩
  maps := by simp [isGetMap]
  exits := by simp [isExit]
  attempted := fun h => absurd h (by decide)
  flags := by rw [bootInfoAt_fillInfo]; rfl
  map := by rw [bootInfoAt_fillInfo]; rfl

theorem before_failed (m : Memory) (r : Output) (hr : efiError r.status = true) :
    Before [⟨⟨.allocatePages 0 2 handoffPages 0, m⟩, r⟩] [⟨⟨.allocatePages 0 2 handoffPages 0, m⟩, r⟩] m where
  kept := fun _ hs => hs
  obtained := fun _ => Iff.rfl
  maps := by simp [isGetMap]
  exits := by simp [isExit]
  flags := by
    intro info hi
    rw [obtained_first, hr] at hi
    exact absurd hi.1 (by decide)

theorem allocateHandoff_safe : Safe (CallOk image kernel)
    (fun t r => ∃ reply : Output, t = [⟨⟨.allocatePages 0 2 handoffPages 0, m⟩, reply⟩] ∧
      ((efiError reply.status = true ∧ r = (.error reply.status, m)) ∨
        (efiError reply.status = false ∧ r = (.ok reply.value, fillInfo kernel reply.value m))))
    [] (allocateHandoff kernel m) := by
  have hcall : CallOk image kernel [] ⟨.allocatePages 0 2 handoffPages 0, m⟩ :=
    ⟨fun _ _ _ hc => absurd hc (by simp), fun _ i hi => absurd hi (obtained_nil i), by simp [isGetMap],
      by simp [isExit], by rintro ⟨s, hs, -⟩; exact absurd hs List.not_mem_nil⟩
  rw [allocateHandoff, safe_ask_bind]
  refine ⟨hcall, fun r => ?_⟩
  cases hr : efiError (Output.status r) with
  | true =>
    rw [if_pos rfl, safe_pure]
    exact ⟨r, rfl, .inl ⟨hr, rfl⟩⟩
  | false =>
    rw [if_neg (by decide), safe_pure]
    exact ⟨r, rfl, .inr ⟨hr, rfl⟩⟩

theorem startKernel_safe : Safe (CallOk image kernel) (EndOk kernel) [] (startKernel image table kernel m) := by
  refine safe_bind allocateHandoff_safe ?_
  rintro t r ⟨reply, rfl, ⟨hr, rfl⟩ | ⟨hr, rfl⟩⟩
  · rw [safe_ask_bind]
    have hbefore := before_failed m reply hr
    refine ⟨hbefore.callOk (.freePages _ _), fun r₁ => ?_⟩
    have hbefore₁ := hbefore.step (.freePages kernel.base kernel.pages) m r₁
    refine safe_bind (reportError_safe table _ _ hbefore₁.restart) fun now _ hnow => ?_
    rw [safe_pure]
    refine ⟨no_exit_iff.mp hnow.exits, hnow.kept _ (by simp), fun i hi => ?_⟩
    rw [hnow.obtained, hbefore₁.obtained, obtained_first, hr] at hi
    exact absurd hi.1 (by decide)
  · exact attempts_safe 8 (looping_first m reply hr)

/-- Against every sequence of replies: `CallOk` at every call and `EndOk` at the end. -/
theorem handover_protocol (image : ℕ) (table : SystemTable) (kernel : LoadedKernel) (m : Memory) :
    (∀ t c, Issues (startKernel image table kernel m) t c → CallOk image kernel t c) ∧
    (∀ t e, Returns (startKernel image table kernel m) t e → EndOk kernel t e) ∧
    ∀ env, ∃ t e, Returns (startKernel image table kernel m) t e ∧ Answers env [] t := by
  refine ⟨fun t c h => startKernel_safe.issues h, fun t e h => startKernel_safe.returns h, fun env => ?_⟩
  exact ⟨_, _, play_returns env [] _⟩

end Start

end OsByAi.LoaderHandover
