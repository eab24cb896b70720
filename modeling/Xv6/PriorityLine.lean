import Mathlib.Data.List.Basic
import Mathlib.Order.Lattice

/-!
# Waiting lines with priorities

A line holds entries in the order of their arrival, each with a key that was
fixed then. The next one to be served is the earliest among those with the
smallest key. The entries of one key form a lane.
-/

set_option autoImplicit false

namespace Xv6.PriorityLine

variable {κ β : Type*} [LinearOrder κ] [DecidableEq β] {l : List (κ × β)} {e : κ × β}

def lane (k : κ) (l : List (κ × β)) : List β := (l.filter (fun e => e.1 = k)).map Prod.snd

def next (l : List (κ × β)) : Option (κ × β) := l.find? (fun e => l.all (fun f => e.1 ≤ f.1))

def rest (l : List (κ × β)) : List (κ × β) :=
  match next l with
  | none => l
  | some e => l.erase e

omit [DecidableEq β] in
theorem lane_append (k : κ) (l : List (κ × β)) (e : κ × β) :
    lane k (l ++ [e]) = if k = e.1 then lane k l ++ [e.2] else lane k l := by
  by_cases h : k = e.1
  · simp [lane, h]
  · simp [lane, h, Ne.symm h]

omit [DecidableEq β] in
theorem mem_lane {k : κ} {l : List (κ × β)} {b : β} : b ∈ lane k l ↔ (k,b) ∈ l := by
  simp only [lane, List.mem_map, List.mem_filter, decide_eq_true_eq]
  constructor
  · rintro ⟨⟨j,c⟩,⟨hm,rfl⟩,rfl⟩
    exact hm
  · intro h
    exact ⟨(k,b),⟨h,rfl⟩,rfl⟩

omit [DecidableEq β] in
theorem exists_smallest (l : List (κ × β)) (h : l ≠ []) : ∃ e ∈ l, ∀ f ∈ l, e.1 ≤ f.1 := by
  induction l with
  | nil => exact absurd rfl h
  | cons a l ih =>
    by_cases hl : l = []
    · subst hl
      exact ⟨a,by simp,by simp⟩
    · obtain ⟨e,he,hmin⟩ := ih hl
      rcases le_total a.1 e.1 with hle | hle
      · refine ⟨a,by simp,fun f hf => ?_⟩
        rcases List.mem_cons.mp hf with rfl | hf
        · exact le_rfl
        · exact hle.trans (hmin f hf)
      · refine ⟨e,by simp [he],fun f hf => ?_⟩
        rcases List.mem_cons.mp hf with rfl | hf
        · exact hle
        · exact hmin f hf

omit [DecidableEq β] in
theorem next_eq_none {l : List (κ × β)} : next l = none ↔ l = [] := by
  constructor
  · intro h
    by_contra hl
    obtain ⟨e,he,hmin⟩ := exists_smallest l hl
    have hn := List.find?_eq_none.mp h e he
    simp only [List.all_eq_true, decide_eq_true_eq] at hn
    exact hn hmin
  · rintro rfl
    rfl

omit [DecidableEq β] in
theorem next_smallest {l : List (κ × β)} {e : κ × β} (h : next l = some e) :
    e ∈ l ∧ ∀ f ∈ l, e.1 ≤ f.1 := by
  refine ⟨List.mem_of_find?_eq_some h,?_⟩
  have hs := List.find?_some h
  simpa using hs

/-- Nobody with the same key stands before the next entry. -/
theorem next_split (h : next l = some e) :
    ∃ a b, l = a ++ e::b ∧ rest l = a ++ b ∧ ∀ f ∈ a, f.1 ≠ e.1 := by
  obtain ⟨hmin,a,b,hl,ha⟩ := List.find?_eq_some_iff_append.mp h
  have hne : ∀ f ∈ a, f.1 ≠ e.1 := by
    intro f hf hk
    have hf := ha f hf
    simp only [List.all_eq_true, Bool.not_eq_true', decide_eq_true_eq] at hmin hf
    rw [hk] at hf
    have hall : l.all (fun g => decide (e.1 ≤ g.1)) = true := by simpa using hmin
    rw [hall] at hf
    simp at hf
  refine ⟨a,b,hl,?_,hne⟩
  have hm : e ∉ a := fun hm => hne e hm rfl
  simp only [rest, h]
  rw [hl, List.erase_append_right _ hm, List.erase_cons_head]

theorem lane_next (h : next l = some e) (k : κ) :
    lane k l = if k = e.1 then e.2::lane k (rest l) else lane k (rest l) := by
  obtain ⟨a,b,hl,hr,ha⟩ := next_split h
  rw [hr, hl]
  by_cases hk : k = e.1
  · have hz : a.filter (fun f => decide (f.1 = e.1)) = [] := by
      rw [List.filter_eq_nil_iff]
      intro f hf
      simpa using ha f hf
    simp [lane, hk, hz]
  · simp [lane, hk, Ne.symm hk]

theorem next_perm (h : next l = some e) : l.Perm (e::rest l) := by
  obtain ⟨a,b,hl,hr,-⟩ := next_split h
  rw [hr, hl]
  exact List.perm_middle

end Xv6.PriorityLine
