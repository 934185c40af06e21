import Mathlib

set_option autoImplicit false

/-!
# Programs that call an environment

A program is a tree: it returns, or it makes a call and goes on with the reply. The
environment may answer anything, so the paths of the tree are the runs against all
environments. A tree is well founded: whatever the replies, the program returns.
-/
namespace CallTree

inductive Tree (C : Type) (R : C → Type) (α : Type) where
  | done (a : α)
  | ask (c : C) (k : R c → Tree C R α)

variable {C : Type} {R : C → Type} {α β : Type}

def Tree.bind : Tree C R α → (α → Tree C R β) → Tree C R β
  | .done a, f => f a
  | .ask c k, f => .ask c fun r => (k r).bind f

instance : Monad (Tree C R) where
  pure := .done
  bind := .bind

def Tree.call (c : C) : Tree C R (R c) := .ask c .done

abbrev Exchange (C : Type) (R : C → Type) := Σ c : C, R c

/-- A complete run: the exchanges in their order, and the result. -/
inductive Returns : Tree C R α → List (Exchange C R) → α → Prop where
  | done (a : α) : Returns (.done a) [] a
  | ask {c : C} {k : R c → Tree C R α} {r : R c} {t : List (Exchange C R)} {a : α} (h : Returns (k r) t a) :
      Returns (.ask c k) (⟨c, r⟩ :: t) a

/-- After the exchanges `t` the program makes the call `d`. -/
inductive Issues : Tree C R α → List (Exchange C R) → C → Prop where
  | now (c : C) (k : R c → Tree C R α) : Issues (.ask c k) [] c
  | later {c d : C} {k : R c → Tree C R α} {r : R c} {t : List (Exchange C R)} (h : Issues (k r) t d) :
      Issues (.ask c k) (⟨c, r⟩ :: t) d

section Runs

variable {p : Tree C R α} {f : α → Tree C R β} {t : List (Exchange C R)}

@[simp] theorem returns_pure {a b : α} : Returns (pure a : Tree C R α) t b ↔ t = [] ∧ b = a := by
  constructor
  · intro h
    cases h with
    | done a => exact ⟨rfl, rfl⟩
  · rintro ⟨rfl, rfl⟩
    exact .done _

theorem returns_ask {c : C} {k : R c → Tree C R α} {a : α} :
    Returns (.ask c k) t a ↔ ∃ r t', t = ⟨c, r⟩ :: t' ∧ Returns (k r) t' a := by
  constructor
  · intro h
    cases h with
    | ask h => exact ⟨_, _, rfl, h⟩
  · rintro ⟨r, t', rfl, h⟩
    exact .ask h

theorem issues_ask {c d : C} {k : R c → Tree C R α} :
    Issues (.ask c k) t d ↔ (t = [] ∧ d = c) ∨ ∃ r t', t = ⟨c, r⟩ :: t' ∧ Issues (k r) t' d := by
  constructor
  · intro h
    cases h with
    | now => exact .inl ⟨rfl, rfl⟩
    | later h => exact .inr ⟨_, _, rfl, h⟩
  · rintro (⟨rfl, rfl⟩ | ⟨r, t', rfl, h⟩)
    · exact .now _ _
    · exact .later h

theorem returns_bind {b : β} :
    Returns (p >>= f) t b ↔ ∃ t₁ t₂ a, t = t₁ ++ t₂ ∧ Returns p t₁ a ∧ Returns (f a) t₂ b := by
  change Returns (p.bind f) t b ↔ _
  induction p generalizing t with
  | done a =>
    constructor
    · exact fun h => ⟨[], t, a, rfl, .done a, h⟩
    · rintro ⟨t₁, t₂, a', rfl, h, h'⟩
      cases h with
      | done => exact h'
  | ask c k ih =>
    constructor
    · intro h
      cases h with
      | ask h =>
        obtain ⟨t₁, t₂, a, rfl, h₁, h₂⟩ := (ih _).mp h
        exact ⟨_ :: t₁, t₂, a, rfl, .ask h₁, h₂⟩
    · rintro ⟨t₁, t₂, a, rfl, h₁, h₂⟩
      cases h₁ with
      | ask h₁ => exact .ask ((ih _).mpr ⟨_, t₂, a, rfl, h₁, h₂⟩)

theorem issues_bind {d : C} :
    Issues (p >>= f) t d ↔ Issues p t d ∨ ∃ t₁ t₂ a, t = t₁ ++ t₂ ∧ Returns p t₁ a ∧ Issues (f a) t₂ d := by
  change Issues (p.bind f) t d ↔ _
  induction p generalizing t with
  | done a =>
    constructor
    · exact fun h => .inr ⟨[], t, a, rfl, .done a, h⟩
    · rintro (h | ⟨t₁, t₂, a', rfl, h, h'⟩)
      · cases h
      · cases h with
        | done => exact h'
  | ask c k ih =>
    constructor
    · intro h
      cases h with
      | now => exact .inl (.now _ _)
      | later h =>
        obtain h | ⟨t₁, t₂, a, rfl, h₁, h₂⟩ := (ih _).mp h
        · exact .inl (.later h)
        · exact .inr ⟨_ :: t₁, t₂, a, rfl, .ask h₁, h₂⟩
    · rintro (h | ⟨t₁, t₂, a, rfl, h₁, h₂⟩)
      · cases h with
        | now => exact .now _ _
        | later h => exact .later ((ih _).mpr (.inl h))
      · cases h₁ with
        | ask h₁ => exact .later ((ih _).mpr (.inr ⟨_, t₂, a, rfl, h₁, h₂⟩))

theorem returns_call_bind {c : C} {g : R c → Tree C R β} {b : β} :
    Returns (Tree.call c >>= g) t b ↔ ∃ r t', t = ⟨c, r⟩ :: t' ∧ Returns (g r) t' b := returns_ask

theorem issues_call_bind {c d : C} {g : R c → Tree C R β} :
    Issues (Tree.call c >>= g) t d ↔ (t = [] ∧ d = c) ∨ ∃ r t', t = ⟨c, r⟩ :: t' ∧ Issues (g r) t' d := issues_ask

end Runs

/-- `Safe ok post past p`: continuing after the exchanges `past`, every call of `p` is one that `ok`
allows there and every result is one that `post` allows. -/
def Safe (ok : List (Exchange C R) → C → Prop) (post : List (Exchange C R) → α → Prop) :
    List (Exchange C R) → Tree C R α → Prop
  | past, .done a => post past a
  | past, .ask c k => ok past c ∧ ∀ r, Safe ok post (past ++ [⟨c, r⟩]) (k r)

section Safe

variable {ok : List (Exchange C R) → C → Prop} {post : List (Exchange C R) → α → Prop}
  {out : List (Exchange C R) → β → Prop} {past : List (Exchange C R)} {p : Tree C R α} {f : α → Tree C R β}

@[simp] theorem safe_pure {a : α} : Safe ok post past (pure a) ↔ post past a := Iff.rfl

theorem safe_call_bind {c : C} {g : R c → Tree C R β} :
    Safe ok out past (Tree.call c >>= g) ↔ ok past c ∧ ∀ r, Safe ok out (past ++ [⟨c, r⟩]) (g r) := Iff.rfl

theorem safe_bind (hp : Safe ok post past p) (hf : ∀ now a, post now a → Safe ok out now (f a)) :
    Safe ok out past (p >>= f) := by
  change Safe ok out past (p.bind f)
  induction p generalizing past with
  | done a => exact hf past a hp
  | ask c k ih => exact ⟨hp.1, fun r => ih r (hp.2 r)⟩

theorem Safe.mono {ok' : List (Exchange C R) → C → Prop} {post' : List (Exchange C R) → α → Prop}
    (hp : Safe ok post past p) (hok : ∀ now c, ok now c → ok' now c) (hpost : ∀ now a, post now a → post' now a) :
    Safe ok' post' past p := by
  induction p generalizing past with
  | done a => exact hpost past a hp
  | ask c k ih => exact ⟨hok past c hp.1, fun r => ih r (hp.2 r)⟩

theorem Safe.returns (hp : Safe ok post past p) {t : List (Exchange C R)} {a : α} (h : Returns p t a) :
    post (past ++ t) a := by
  induction h generalizing past with
  | done a =>
    rw [List.append_nil]
    exact hp
  | ask h ih =>
    rw [List.append_cons]
    exact ih (hp.2 _)

theorem Safe.issues (hp : Safe ok post past p) {t : List (Exchange C R)} {d : C} (h : Issues p t d) :
    ok (past ++ t) d := by
  induction h generalizing past with
  | now c k =>
    rw [List.append_nil]
    exact hp.1
  | later h ih =>
    rw [List.append_cons]
    exact ih (hp.2 _)

end Safe

/-- The run in which `env` answers, given the exchanges before. -/
def Tree.play (env : List (Exchange C R) → (c : C) → R c) (past : List (Exchange C R)) :
    Tree C R α → List (Exchange C R) × α
  | .done a => ([], a)
  | .ask c k =>
    let rest := (k (env past c)).play env (past ++ [⟨c, env past c⟩])
    (⟨c, env past c⟩ :: rest.1, rest.2)

def Answers (env : List (Exchange C R) → (c : C) → R c) : List (Exchange C R) → List (Exchange C R) → Prop
  | _, [] => True
  | past, e :: t => e.2 = env past e.1 ∧ Answers env (past ++ [e]) t

/-- Against every environment there is a run. -/
theorem play_returns (env : List (Exchange C R) → (c : C) → R c) (past : List (Exchange C R)) (p : Tree C R α) :
    Returns p (p.play env past).1 (p.play env past).2 ∧ Answers env past (p.play env past).1 := by
  induction p generalizing past with
  | done a => exact ⟨.done a, trivial⟩
  | ask c k ih =>
    obtain ⟨hreturns, hanswers⟩ := ih (env past c) (past ++ [⟨c, env past c⟩])
    exact ⟨.ask hreturns, rfl, hanswers⟩

end CallTree
