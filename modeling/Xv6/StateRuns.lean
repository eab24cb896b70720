import Mathlib.Logic.Basic

/-!
# Partial runs on a state and what they meet

A computation on a state succeeds with a value and a next state or stops with
a reason. `Meets` says what holds in either case, from a given state; it
composes along the computation, so that each function is described once and
its callers use the description.
-/

set_option autoImplicit false

namespace Xv6.StateRuns

universe u

variable {S E : Type u} {α β : Type u}

abbrev Run (S E : Type u) (α : Type u) : Type u := StateT S (Except E) α

/-- From `s` the run ends in a state with `Q`, or stops for a reason with `F`. -/
def Meets (x : Run S E α) (s : S) (Q : α → S → Prop) (F : E → Prop) : Prop :=
  match x s with
  | .ok (a,t) => Q a t
  | .error e => F e

variable {x : Run S E α} {s t : S} {Q Q' : α → S → Prop} {F F' : E → Prop} {R : β → S → Prop}
  {a : α}

theorem meets_ok (h : Meets x s Q F) {a : α} (hx : x s = .ok (a,t)) : Q a t := by
  rw [Meets, hx] at h
  exact h

theorem meets_error (h : Meets x s Q F) {e : E} (hx : x s = .error e) : F e := by
  rw [Meets, hx] at h
  exact h

theorem meets_iff : Meets x s Q F ↔
    (∀ a t, x s = .ok (a,t) → Q a t) ∧ ∀ e, x s = .error e → F e := by
  constructor
  · intro h
    exact ⟨fun a t hx => meets_ok h hx,fun e hx => meets_error h hx⟩
  · intro h
    unfold Meets
    cases hx : x s with
    | ok r => exact h.1 r.1 r.2 hx
    | error e => exact h.2 e hx

/-- A run that cannot stop ends. -/
theorem meets_exists (h : Meets x s Q F) (hF : ∀ e, ¬F e) : ∃ a t, x s = .ok (a,t) ∧ Q a t := by
  cases hx : x s with
  | ok r => exact ⟨r.1,r.2,rfl,meets_ok h hx⟩
  | error e => exact absurd (meets_error h hx) (hF e)

theorem meets_of_ok (hx : x s = .ok (a,t)) (h : Q a t) : Meets x s Q F := by
  rw [Meets, hx]
  exact h

theorem meets_of_error {e : E} (hx : x s = .error e) (h : F e) : Meets x s Q F := by
  rw [Meets, hx]
  exact h

theorem meets_of_eq {y : Run S E α} (hx : x s = y s) (h : Meets y s Q F) : Meets x s Q F := by
  rw [Meets, hx]
  exact h

theorem meets_mono (h : Meets x s Q F) (hQ : ∀ a t, Q a t → Q' a t) (hF : ∀ e, F e → F' e) :
    Meets x s Q' F' := by
  rw [meets_iff] at h ⊢
  exact ⟨fun a t hx => hQ a t (h.1 a t hx),fun e hx => hF e (h.2 e hx)⟩

theorem meets_and (h : Meets x s Q F) (h' : Meets x s Q' F') :
    Meets x s (fun a t => Q a t ∧ Q' a t) (fun e => F e ∧ F' e) := by
  rw [meets_iff] at h h' ⊢
  exact ⟨fun a t hx => ⟨h.1 a t hx,h'.1 a t hx⟩,fun e hx => ⟨h.2 e hx,h'.2 e hx⟩⟩

theorem meets_pure (h : Q a s) : Meets (pure a : Run S E α) s Q F := h

theorem run_bind_ok {f : α → Run S E β} (hx : x s = .ok (a,t)) : (x >>= f) s = f a t := by
  show (x s >>= fun r => f r.1 r.2) = f a t
  rw [hx]
  rfl

theorem run_bind_error {f : α → Run S E β} {e : E} (hx : x s = .error e) :
    (x >>= f) s = .error e := by
  show (x s >>= fun r => f r.1 r.2) = .error e
  rw [hx]
  rfl

theorem meets_bind {f : α → Run S E β} (h : Meets x s Q F) (hf : ∀ a t, Q a t → Meets (f a) t R F) :
    Meets (x >>= f) s R F := by
  unfold Meets
  cases hx : x s with
  | ok r =>
    rw [run_bind_ok hx]
    exact hf r.1 r.2 (meets_ok h hx)
  | error e =>
    rw [run_bind_error hx]
    exact meets_error h hx

theorem meets_bind_ok {f : α → Run S E β} (hx : x s = .ok (a,t)) (h : Meets (f a) t R F) :
    Meets (x >>= f) s R F := by
  rw [Meets, run_bind_ok hx]
  exact h

theorem meets_of_map {f : α → β} (h : Meets (f <$> x) s R F) :
    Meets x s (fun a t => R (f a) t) F := by
  rw [map_eq_pure_bind] at h
  rw [meets_iff]
  constructor
  · intro a t hx
    rw [Meets, run_bind_ok hx] at h
    exact h
  · intro e hx
    rw [Meets, run_bind_error hx] at h
    exact h

end Xv6.StateRuns
