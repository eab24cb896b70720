import Mathlib.Data.List.Nodup

/-!
# Writes that can be done again

A store is a function from addresses to contents, a list of writes is
replayed in order. What a replay leaves at an address it writes does not
depend on the store it starts from, so a replay may be cut short and begun
again any number of times.
-/

set_option autoImplicit false

namespace Xv6.RedoLog
open Function

variable {α β : Type*} [DecidableEq α] {d e : α → β} {l : List (α × β)} {a : α} {w : α × β}

def put (d : α → β) (w : α × β) : α → β := update d w.1 w.2

def replay (l : List (α × β)) (d : α → β) : α → β := l.foldl put d

@[simp] theorem replay_nil (d : α → β) : replay [] d = d := rfl

@[simp] theorem replay_cons (w : α × β) (l : List (α × β)) (d : α → β) :
    replay (w::l) d = replay l (put d w) := rfl

theorem replay_append (l m : List (α × β)) (d : α → β) :
    replay (l ++ m) d = replay m (replay l d) := List.foldl_append

theorem put_other (h : a ≠ w.1) : put d w a = d a := by
  rw [put, update_of_ne h]

theorem replay_other (h : a ∉ l.map Prod.fst) : replay l d a = d a := by
  induction l generalizing d with
  | nil => rfl
  | cons w l ih =>
    simp only [List.map_cons, List.mem_cons, not_or] at h
    rw [replay_cons, ih h.2, put_other h.1]

theorem replay_agree (h : d a = e a ∨ a ∈ l.map Prod.fst) : replay l d a = replay l e a := by
  induction l generalizing d e with
  | nil => simpa using h
  | cons w l ih =>
    apply ih
    by_cases ha : a = w.1
    · subst ha
      exact .inl (by simp [put])
    · rw [put_other ha, put_other ha]
      refine Or.imp_right (fun h => ?_) h
      simpa [ha] using h

theorem replay_put (h : w.1 ∈ l.map Prod.fst) : replay l (put d w) = replay l d := by
  funext a
  apply replay_agree
  by_cases ha : a = w.1
  · exact .inr (ha ▸ h)
  · exact .inl (put_other ha)

theorem replay_settled (h : ∀ w ∈ l, d w.1 = w.2) : replay l d = d := by
  induction l with
  | nil => rfl
  | cons w l ih =>
    have hw : put d w = d := by
      rw [put, ← h w (by simp), update_eq_self]
    rw [replay_cons, hw]
    exact ih (fun x hx => h x (by simp [hx]))

theorem replay_mem (hn : (l.map Prod.fst).Nodup) (hw : w ∈ l) : replay l d w.1 = w.2 := by
  induction l generalizing d with
  | nil => simp at hw
  | cons x l ih =>
    rw [List.map_cons, List.nodup_cons] at hn
    rw [replay_cons]
    rcases List.mem_cons.mp hw with rfl | hw
    · rw [replay_other hn.1, put, update_self]
    · exact ih hn.2 hw

end Xv6.RedoLog
