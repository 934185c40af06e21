import Mathlib

set_option autoImplicit false

/-!
# Code that gives up

A computation over a state that returns a value, gives up, or stops for a reason from
which no code continues. Giving up keeps the state reached so far, so the effects made
on the way stay visible; what follows is not run.
-/

inductive Attempt.Outcome (σ ε α : Type) where
  | done (value : α) (state : σ)
  | failed (state : σ)
  | stopped (reason : ε)

def Attempt (σ ε α : Type) : Type := σ → Attempt.Outcome σ ε α

namespace Attempt

variable {σ ε α β : Type}

def pure (a : α) : Attempt σ ε α := fun s => .done a s

def bind (x : Attempt σ ε α) (f : α → Attempt σ ε β) : Attempt σ ε β := fun s =>
  match x s with
  | .done a t => f a t
  | .failed t => .failed t
  | .stopped e => .stopped e

instance : Monad (Attempt σ ε) where
  pure := pure
  bind := bind

/-- Go on only if `b` holds. -/
def require (b : Bool) : Attempt σ ε Unit := fun s => if b then .done () s else .failed s

def inspect (f : σ → α) : Attempt σ ε α := fun s => .done (f s) s

def perform (f : σ → α × σ) : Attempt σ ε α := fun s => .done (f s).1 (f s).2

/-- From `s` the code returns, with a value and a state as `Q` says. -/
def Reaches (x : Attempt σ ε α) (s : σ) (Q : α → σ → Prop) : Prop := ∃ a t, x s = .done a t ∧ Q a t

variable {x : Attempt σ ε α} {f : α → Attempt σ ε β} {s t : σ} {Q R : α → σ → Prop} {P : β → σ → Prop}

theorem Reaches.bind (h : x.Reaches s R) (hf : ∀ a t, R a t → (f a).Reaches t P) : (x >>= f).Reaches s P := by
  obtain ⟨a, t, hx, hr⟩ := h
  obtain ⟨b, u, hb, hp⟩ := hf a t hr
  refine ⟨b, u, ?_, hp⟩
  change (match x s with
    | .done a t => f a t
    | .failed t => .failed t
    | .stopped e => .stopped e) = .done b u
  rw [hx]
  exact hb

theorem Reaches.mono (h : x.Reaches s Q) (himp : ∀ a t, Q a t → R a t) : x.Reaches s R := by
  obtain ⟨a, t, hx, hq⟩ := h
  exact ⟨a, t, hx, himp a t hq⟩

theorem reaches_pure {a : α} (h : Q a s) : (Pure.pure a : Attempt σ ε α).Reaches s Q := ⟨a, s, rfl, h⟩

theorem reaches_inspect {g : σ → α} (h : Q (g s) s) : (inspect g : Attempt σ ε α).Reaches s Q := ⟨g s, s, rfl, h⟩

theorem reaches_perform {g : σ → α × σ} (h : Q (g s).1 (g s).2) : (perform g : Attempt σ ε α).Reaches s Q :=
  ⟨(g s).1, (g s).2, rfl, h⟩

theorem reaches_update {g : σ → σ} :
    (perform fun s => ((), g s) : Attempt σ ε Unit).Reaches s fun _ t => t = g s := ⟨(), g s, rfl, rfl⟩

theorem Reaches.require {b : Bool} {y : Attempt σ ε β} (hb : b = true) (h : y.Reaches s P) :
    (Attempt.require b >>= fun _ => y).Reaches s P :=
  Reaches.bind (R := fun _ t => t = s) ⟨(), s, if_pos hb, rfl⟩ fun _ _ ht => ht ▸ h

theorem Reaches.expect {x : Attempt σ ε Bool} {y : Attempt σ ε β} {I : σ → Prop}
    (h : x.Reaches s fun ok t => ok = true ∧ I t) (hy : ∀ t, I t → y.Reaches t P) :
    (x >>= fun ok => Attempt.require ok >>= fun _ => y).Reaches s P :=
  h.bind fun _ t ht => Reaches.require ht.1 (hy t ht.2)

theorem Reaches.deny {x : Attempt σ ε Bool} {y : Attempt σ ε β} {I : σ → Prop}
    (h : x.Reaches s fun ok t => ok = false ∧ I t) (hy : ∀ t, I t → y.Reaches t P) :
    (x >>= fun ok => Attempt.require (!ok) >>= fun _ => y).Reaches s P :=
  h.bind fun _ t ht => Reaches.require (by rw [ht.1]; rfl) (hy t ht.2)

def Stops (x : Attempt σ ε α) (s : σ) (e : ε) : Prop := x s = .stopped e

variable {e : ε}

theorem Stops.bind (h : x.Stops s e) : (x >>= f).Stops s e := by
  change (match x s with
    | .done a t => f a t
    | .failed t => .failed t
    | .stopped e => .stopped e) = .stopped e
  rw [h]

theorem Reaches.stops (h : x.Reaches s R) (hf : ∀ a t, R a t → (f a).Stops t e) : (x >>= f).Stops s e := by
  obtain ⟨a, t, hx, hr⟩ := h
  change (match x s with
    | .done a t => f a t
    | .failed t => .failed t
    | .stopped e => .stopped e) = .stopped e
  rw [hx]
  exact hf a t hr

end Attempt
