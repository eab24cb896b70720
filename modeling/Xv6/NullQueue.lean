import Mathlib.Data.List.ReduceOption

/-!
# Queues in null-terminated arrays

An array of `n` cells holds a queue in its first cells and nulls after them. An
element enrolls at its own entry or the first null cell, and the front entry
leaves by shifting every cell one place down. `Compact` says that no null stands
before an entry.
-/

set_option autoImplicit false

namespace Xv6.NullQueue

structure Queue (α : Type*) (n : ℕ) where
  cells : List (Option α)
  length_eq : cells.length = n

variable {α : Type*} {n : ℕ}

def empty : Queue α n := ⟨List.replicate n none, List.length_replicate⟩

def list (q : Queue α n) : List α := q.cells.reduceOption

def front (q : Queue α n) : Option α := q.cells.head?.join

def shiftCells : List (Option α) → List (Option α)
  | [] => []
  | _::cs => cs ++ [none]

theorem shiftCells_length (cs : List (Option α)) : (shiftCells cs).length = cs.length := by
  cases cs <;> simp [shiftCells]

def shift (q : Queue α n) : Queue α n :=
  ⟨shiftCells q.cells, (shiftCells_length _).trans q.length_eq⟩

def Compact (q : Queue α n) : Prop :=
  ∃ k, q.cells = (list q).map some ++ List.replicate k none

theorem list_of_cells (q : Queue α n) (l : List α) (k : ℕ)
    (h : q.cells = l.map some ++ List.replicate k none) : list q = l := by
  have hm : (l.map some).reduceOption = l := by
    rw [List.reduceOption, List.filterMap_map]
    simp
  simp [list, h, List.reduceOption_append, hm]

section Enroll
variable [DecidableEq α]

def enrollCells (p : α) : List (Option α) → Option (List (Option α))
  | [] => none
  | none::cs => some (some p::cs)
  | some x::cs => if x = p then some (some x::cs) else (enrollCells p cs).map (some x::·)

theorem enrollCells_length (p : α) (cs ds : List (Option α))
    (h : enrollCells p cs = some ds) : ds.length = cs.length := by
  induction cs generalizing ds with
  | nil => simp [enrollCells] at h
  | cons c cs ih =>
    cases c with
    | none =>
      cases h
      rfl
    | some x =>
      simp only [enrollCells] at h
      split at h
      · cases h
        rfl
      · obtain ⟨es,he,rfl⟩ := Option.map_eq_some_iff.mp h
        simp [ih es he]

def enroll (q : Queue α n) (p : α) : Option (Queue α n) :=
  match h : enrollCells p q.cells with
  | none => none
  | some ds => some ⟨ds, (enrollCells_length p _ ds h).trans q.length_eq⟩

def entrant (q : Queue α n) (p : α) : List α := if p ∈ list q then [] else [p]

theorem enroll_cells (q r : Queue α n) (p : α) (h : enroll q p = some r) :
    enrollCells p q.cells = some r.cells := by
  unfold enroll at h
  split at h
  · simp at h
  · cases h
    assumption

theorem enroll_none (q : Queue α n) (p : α) (h : enroll q p = none) :
    enrollCells p q.cells = none := by
  unfold enroll at h
  split at h
  · assumption
  · simp at h

theorem enrollCells_mem (p x : α) (cs ds : List (Option α)) (h : enrollCells p cs = some ds) :
    some x ∈ ds ↔ some x ∈ cs ∨ x = p := by
  induction cs generalizing ds with
  | nil => simp [enrollCells] at h
  | cons c cs ih =>
    cases c with
    | none =>
      cases h
      simp [or_comm]
    | some y =>
      simp only [enrollCells] at h
      split at h
      · rename_i hy
        cases h
        subst y
        simp only [List.mem_cons, Option.some.injEq]
        tauto
      · obtain ⟨es,he,rfl⟩ := Option.map_eq_some_iff.mp h
        simp [ih es he, or_assoc]

theorem mem_enroll (q r : Queue α n) (p x : α) (h : enroll q p = some r) :
    x ∈ list r ↔ x ∈ list q ∨ x = p := by
  simpa [list, List.reduceOption_mem_iff] using
    enrollCells_mem p x q.cells r.cells (enroll_cells q r p h)

theorem enrollCells_compact (p : α) (l : List α) (k : ℕ) :
    enrollCells p (l.map some ++ List.replicate k none) =
      if p ∈ l then some (l.map some ++ List.replicate k none)
      else match k with
        | 0 => none
        | k+1 => some ((l ++ [p]).map some ++ List.replicate k none) := by
  induction l with
  | nil => cases k <;> simp [enrollCells, List.replicate_succ]
  | cons x l ih =>
    by_cases hx : x = p
    · simp [enrollCells, hx]
    · have hp : p ≠ x := fun h => hx h.symm
      simp only [List.map_cons, List.cons_append, enrollCells, if_neg hx, ih, List.mem_cons, hp,
        false_or]
      by_cases hm : p ∈ l
      · simp [hm]
      · cases k <;> simp [hm]

theorem compact_enroll (q r : Queue α n) (p : α) (hc : Compact q) (h : enroll q p = some r) :
    Compact r ∧ list r = if p ∈ list q then list q else list q ++ [p] := by
  obtain ⟨k,hk⟩ := hc
  have he := enroll_cells q r p h
  rw [hk, enrollCells_compact] at he
  by_cases hm : p ∈ list q
  · rw [if_pos hm] at he
    have hr := (Option.some.inj he).symm
    have hl := list_of_cells r _ _ hr
    exact ⟨⟨k,by rw [hl, hr]⟩,by rw [if_pos hm, hl]⟩
  · rw [if_neg hm] at he
    cases k with
    | zero => simp at he
    | succ k =>
      have hr := (Option.some.inj he).symm
      have hl := list_of_cells r _ _ hr
      exact ⟨⟨k,by rw [hl, hr]⟩,by rw [if_neg hm, hl]⟩

theorem enroll_full (q : Queue α n) (p : α) (hc : Compact q) (h : enroll q p = none) :
    p ∉ list q ∧ (list q).length = n := by
  obtain ⟨k,hk⟩ := hc
  have he := enroll_none q p h
  rw [hk, enrollCells_compact] at he
  by_cases hm : p ∈ list q
  · simp [hm] at he
  · cases k with
    | zero =>
      refine ⟨hm,?_⟩
      have hl := q.length_eq
      rw [hk] at hl
      simpa using hl
    | succ k => simp [hm] at he

end Enroll

theorem mem_shift (q : Queue α n) (x : α) (h : x ∈ list (shift q)) : x ∈ list q := by
  obtain ⟨cs,hl⟩ := q
  cases cs with
  | nil => exact h
  | cons c cs =>
    simp only [list, shift, shiftCells, List.reduceOption_mem_iff, List.mem_append,
      List.mem_singleton, reduceCtorEq, or_false] at h
    simp [list, List.reduceOption_mem_iff, h]

theorem front_mem (q : Queue α n) (x : α) (h : front q = some x) : x ∈ list q := by
  obtain ⟨cs,hl⟩ := q
  cases cs with
  | nil => simp [front] at h
  | cons c cs =>
    simp only [front, List.head?_cons, Option.join_some] at h
    simp [list, List.reduceOption_mem_iff, h]

theorem compact_empty : Compact (empty : Queue α n) :=
  ⟨n,by simp [empty, list]⟩

theorem list_empty : list (empty : Queue α n) = [] := by
  simp [empty, list]

theorem front_eq_head (q : Queue α n) (hc : Compact q) : front q = (list q).head? := by
  obtain ⟨k,hk⟩ := hc
  unfold front
  rw [hk]
  cases list q with
  | nil => cases k <;> simp [List.replicate_succ]
  | cons x l => simp

theorem compact_shift (q : Queue α n) (x : α) (hc : Compact q) (hf : front q = some x) :
    Compact (shift q) ∧ list q = x::list (shift q) := by
  have hh := front_eq_head q hc
  obtain ⟨k,hk⟩ := hc
  cases hl : list q with
  | nil => simp [hf, hl] at hh
  | cons y l =>
    have hy : x = y := by simpa [hf, hl] using hh
    have hs : (shift q).cells = l.map some ++ List.replicate (k+1) none := by
      simp [shift, hk, hl, shiftCells, List.replicate_succ']
    have hls := list_of_cells (shift q) l (k+1) hs
    exact ⟨⟨k+1,by rw [hls, hs]⟩,by rw [hls, hy]⟩

def Proper (q : Queue α n) : Prop := Compact q ∧ (list q).Nodup

theorem proper_empty : Proper (empty : Queue α n) := ⟨compact_empty,by simp [list_empty]⟩

theorem proper_enroll [DecidableEq α] (q r : Queue α n) (p : α) (hq : Proper q)
    (h : enroll q p = some r) : Proper r := by
  obtain ⟨hc,hl⟩ := compact_enroll q r p hq.1 h
  refine ⟨hc,?_⟩
  rw [hl]
  split
  · exact hq.2
  · rename_i hp
    rw [List.nodup_append]
    refine ⟨hq.2,by simp,fun a ha b hb => ?_⟩
    rintro rfl
    exact hp (List.mem_singleton.mp hb ▸ ha)

theorem proper_shift (q : Queue α n) (x : α) (hq : Proper q) (h : front q = some x) :
    Proper (shift q) ∧ x ∉ list (shift q) ∧ list q = x::list (shift q) := by
  obtain ⟨hc,hl⟩ := compact_shift q x hq.1 h
  have hn := hq.2
  rw [hl, List.nodup_cons] at hn
  exact ⟨⟨hc,hn.2⟩,hn.1,hl⟩

end Xv6.NullQueue
