import Mathlib.Algebra.GroupWithZero.Nat
import Mathlib.Logic.Relation
import Mathlib.Order.Basic

/-!
# Runs of a partial step function

A step function may succeed with a next state or stop with a reason. A run takes
steps that a rule `allow` admits in the state before each of them. Loops without
a bound are run for a number of rounds, and settle when more rounds change
nothing.
-/

set_option autoImplicit false

namespace Xv6.TransitionRun

section
universe u

variable {S A E : Type*} {step : S → A → Except E S} {allow : S → A → Prop}

def Moves (step : S → A → Except E S) (allow : S → A → Prop) (s t : S) : Prop :=
  ∃ a, allow s a ∧ step s a = .ok t

def Reaches (step : S → A → Except E S) (allow : S → A → Prop) : S → S → Prop :=
  Relation.ReflTransGen (Moves step allow)

theorem reaches_refl (s : S) : Reaches step allow s s := Relation.ReflTransGen.refl

theorem reaches_step {s t u : S} (a : A) (h : Reaches step allow s t) (ha : allow t a)
    (hs : step t a = .ok u) : Reaches step allow s u :=
  h.tail ⟨a,ha,hs⟩

/-- The invariant rule: a property that every admitted step keeps holds in
every state a run reaches. -/
theorem reaches_invariant (I : S → Prop) {s t : S}
    (hstep : ∀ s a t, I s → allow s a → step s a = .ok t → I t)
    (hs : I s) (h : Reaches step allow s t) : I t := by
  induction h with
  | refl => exact hs
  | tail _ hm ih =>
    obtain ⟨a,ha,he⟩ := hm
    exact hstep _ a _ ih ha he

def play (step : S → A → Except E S) (ok : S → A → Bool) : S → List A → Option S
  | s, [] => some s
  | s, a::as => if ok s a then match step s a with
      | .ok t => play step ok t as
      | .error _ => none
    else none

theorem play_reaches {ok : S → A → Bool} (hok : ∀ s a, ok s a = true → allow s a) {s t u : S}
    (as : List A) (h : Reaches step allow s t) (hp : play step ok t as = some u) :
    Reaches step allow s u := by
  induction as generalizing t with
  | nil =>
    cases hp
    exact h
  | cons a as ih =>
    simp only [play] at hp
    split at hp
    · rename_i ha
      cases hs : step t a with
      | error e => simp [hs] at hp
      | ok v =>
        rw [hs] at hp
        exact ih (reaches_step a h (hok t a ha) hs) hp
    · simp at hp

/-- A played list of actions that ends in a state with a decidable property. -/
theorem play_witness (step : S → A → Except E S) (allow : S → A → Prop) (ok : S → A → Bool)
    (hok : ∀ s a, ok s a = true → allow s a) (s : S) (as : List A)
    (good : S → Bool) (h : (play step ok s as).any good = true) :
    ∃ t, Reaches step allow s t ∧ good t = true := by
  obtain ⟨t,ht,hg⟩ := (Option.any_eq_true good _).mp h
  exact ⟨t,play_reaches hok as (reaches_refl s) ht,hg⟩

def failure : Except E S → Option E
  | .ok _ => none
  | .error e => some e

theorem failure_eq_some {x : Except E S} {e : E} : failure x = some e ↔ x = .error e := by
  cases x <;> simp [failure]

theorem ok_of_any {x : Except E S} {g : S → Bool} (h : x.toOption.any g = true) :
    ∃ t, x = .ok t ∧ g t = true := by
  cases x with
  | error e => simp [Except.toOption] at h
  | ok t => exact ⟨t,rfl,h⟩

theorem bind_ok {α β : Type u} {x : Except E α} {f : α → Except E β} {b : β}
    (h : x >>= f = .ok b) : ∃ a, x = .ok a ∧ f a = .ok b := by
  cases x with
  | error e => cases h
  | ok a => exact ⟨a,rfl,h⟩

theorem map_ok {α β : Type*} {x : Except E α} {f : α → β} {b : β} (h : x.map f = .ok b) :
    ∃ a, x = .ok a ∧ f a = b := by
  cases x with
  | error e => cases h
  | ok a => exact ⟨a,rfl,Except.ok.inj h⟩

theorem foldlM_invariant {β : Type*} {body : S → β → Except E S} (I : S → Prop) (l : List β)
    (hbody : ∀ s b t, b ∈ l → I s → body s b = .ok t → I t) {s t : S}
    (hs : I s) (h : l.foldlM body s = .ok t) : I t := by
  induction l generalizing s with
  | nil =>
    cases h
    exact hs
  | cons b l ih =>
    rw [List.foldlM_cons] at h
    obtain ⟨u,hu,h⟩ := bind_ok h
    exact ih (fun s b t hb => hbody s b t (by simp [hb])) (hbody s b u (by simp) hs hu) h

/-- A loop invariant that speaks about the elements already visited. -/
theorem foldlM_split {β : Type*} {body : S → β → Except E S} (I : List β → S → Prop) (l : List β)
    (hbody : ∀ done b rest s t, l = done ++ b::rest → I done s → body s b = .ok t →
      I (done ++ [b]) t) {s t : S} (hs : I [] s) (h : l.foldlM body s = .ok t) : I l t := by
  have hrest : ∀ (r done : List β) (u : S), l = done ++ r → I done u → r.foldlM body u = .ok t →
      I l t := by
    intro r
    induction r with
    | nil =>
      intro done u hd hu h
      cases h
      rw [hd, List.append_nil]
      exact hu
    | cons b r ih =>
      intro done u hd hu h
      rw [List.foldlM_cons] at h
      obtain ⟨v,hv,h⟩ := bind_ok h
      exact ih (done ++ [b]) v (by simp [hd]) (hbody done b r u v hd hu hv) h
  exact hrest l [] s rfl hs h

theorem foldlM_visited {β : Type*} {body : S → β → Except E S} (I : List β → S → Prop) (l : List β)
    (hbody : ∀ done b s t, b ∈ l → b ∉ done → I done s → body s b = .ok t → I (done ++ [b]) t)
    (hl : l.Nodup) {s t : S} (hs : I [] s) (h : l.foldlM body s = .ok t) : I l t := by
  refine foldlM_split I l (fun done b rest s t hd hs hb => ?_) hs h
  refine hbody done b s t (by simp [hd]) (fun hm => ?_) hs hb
  rw [hd, List.nodup_append] at hl
  exact hl.2.2 b hm b (by simp) rfl

/-- Total version: when every round of a loop succeeds and keeps the
invariant, the loop succeeds and keeps it. -/
theorem foldlM_total {β : Type*} {body : S → β → Except E S} (I : S → Prop) (l : List β)
    (hbody : ∀ s b, b ∈ l → I s → ∃ t, body s b = .ok t ∧ I t) (s : S) (hs : I s) :
    ∃ t, l.foldlM body s = .ok t ∧ I t := by
  induction l generalizing s with
  | nil => exact ⟨s,rfl,hs⟩
  | cons b l ih =>
    obtain ⟨u,hu,hi⟩ := hbody s b (by simp) hs
    obtain ⟨t,ht,hi⟩ := ih (fun s b hb => hbody s b (by simp [hb])) u hi
    refine ⟨t,?_,hi⟩
    rw [List.foldlM_cons, hu]
    exact ht

end

variable {α β ε : Type} {x : ℕ → Except ε α}

def Settles (call : ℕ → β) (r : β) : Prop := ∃ K, ∀ k, K ≤ k → call k = r

theorem Settles.unique {call : ℕ → β} {r r' : β} (h : Settles call r) (h' : Settles call r') :
    r = r' := by
  obtain ⟨K,hK⟩ := h
  obtain ⟨K',hK'⟩ := h'
  rw [← hK (max K K') (Nat.le_max_left ..), hK' (max K K') (Nat.le_max_right ..)]

theorem Settles.const (r : β) : Settles (fun _ => r) r := ⟨0,fun _ _ => rfl⟩

theorem Settles.succ {call : ℕ → β} {r : β} (h : Settles (fun k => call (k+1)) r) :
    Settles call r := by
  obtain ⟨K,hK⟩ := h
  refine ⟨K+1,fun k hk => ?_⟩
  obtain ⟨i,rfl⟩ : ∃ i, k = i+1 := ⟨k-1,by omega⟩
  exact hK i (by omega)

theorem Settles.bind {f : ℕ → α → Except ε β} {a : α} {r : Except ε β} (h : Settles x (.ok a))
    (h' : Settles (fun k => f k a) r) : Settles (fun k => (x k).bind (f k)) r := by
  obtain ⟨K,hK⟩ := h
  obtain ⟨K',hK'⟩ := h'
  refine ⟨max K K',fun k hk => ?_⟩
  have h1 := hK k (Nat.le_trans (Nat.le_max_left ..) hk)
  have h2 := hK' k (Nat.le_trans (Nat.le_max_right ..) hk)
  simp only [h1, Except.bind]
  exact h2

theorem Settles.bind_error {f : ℕ → α → Except ε β} {e : ε} (h : Settles x (.error e)) :
    Settles (fun k => (x k).bind (f k)) (.error e) := by
  obtain ⟨K,hK⟩ := h
  refine ⟨K,fun k hk => ?_⟩
  simp only [hK k hk, Except.bind]

theorem Settles.map {f : α → β} {r : Except ε α} (h : Settles x r) :
    Settles (fun k => (x k).map f) (r.map f) := by
  obtain ⟨K,hK⟩ := h
  exact ⟨K,fun k hk => by simp only [hK k hk]⟩

end Xv6.TransitionRun
