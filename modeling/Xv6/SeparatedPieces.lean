import Mathlib.Data.List.Basic

/-!
# Pieces of a list between separators

A list is read from the front. `pieces` are the parts that a separator ends and
`remainder` is what stands behind the last one; both start with a part `cur`
that has been read already, so that a list may be read in several goes.
-/

set_option autoImplicit false

namespace Xv6.SeparatedPieces

variable {α : Type*} [DecidableEq α] (sep : α)

def pieces : List α → List α → List (List α)
  | _, [] => []
  | cur, x::l => if x = sep then cur::pieces [] l else pieces (cur++[x]) l

def remainder : List α → List α → List α
  | cur, [] => cur
  | cur, x::l => if x = sep then remainder [] l else remainder (cur++[x]) l

def joined (L : List (List α)) : List α := (L.map (· ++ [sep])).flatten

variable {sep} {cur a b l : List α}

omit [DecidableEq α] in
@[simp] theorem joined_nil : joined sep ([] : List (List α)) = [] := rfl

omit [DecidableEq α] in
@[simp] theorem joined_cons (L : List (List α)) :
    joined sep (a::L) = a++sep::joined sep L := by
  simp [joined]

omit [DecidableEq α] in
@[simp] theorem joined_append (L M : List (List α)) :
    joined sep (L++M) = joined sep L++joined sep M := by
  simp [joined]

theorem pieces_append :
    pieces sep cur (a++b) = pieces sep cur a++pieces sep (remainder sep cur a) b := by
  induction a generalizing cur with
  | nil => rfl
  | cons x a ih =>
    rw [List.cons_append, pieces, pieces, remainder]
    by_cases hx : x = sep
    · simp only [hx, if_true, ih, List.cons_append]
    · simp only [hx, if_false, ih]

theorem pieces_of_notMem (h : sep ∉ a) : pieces sep cur (a++b) = pieces sep (cur++a) b := by
  induction a generalizing cur with
  | nil => simp
  | cons x a ih =>
    have hx : x ≠ sep := fun he => h (by simp [he])
    rw [List.cons_append, pieces, if_neg hx, ih (fun he => h (by simp [he]))]
    simp

theorem remainder_of_notMem (h : sep ∉ a) :
    remainder sep cur (a++b) = remainder sep (cur++a) b := by
  induction a generalizing cur with
  | nil => simp
  | cons x a ih =>
    have hx : x ≠ sep := fun he => h (by simp [he])
    rw [List.cons_append, remainder, if_neg hx, ih (fun he => h (by simp [he]))]
    simp

theorem pieces_eq_nil (h : sep ∉ l) : pieces sep cur l = [] := by
  rw [← List.append_nil l, pieces_of_notMem h]
  rfl

theorem remainder_eq (h : sep ∉ l) : remainder sep cur l = cur++l := by
  rw [← List.append_nil l, remainder_of_notMem h]
  simp [remainder]

/-- The first piece is what was read before and what stands before the separator. -/
theorem pieces_cons (h : sep ∉ a) :
    pieces sep cur (a++sep::b) = (cur++a)::pieces sep [] b := by
  rw [pieces_of_notMem h, pieces, if_pos rfl]

theorem remainder_cons (h : sep ∉ a) : remainder sep cur (a++sep::b) = remainder sep [] b := by
  rw [remainder_of_notMem h, remainder, if_pos rfl]

theorem exists_first (h : sep ∈ l) : ∃ a b, l = a++sep::b ∧ sep ∉ a := by
  induction l with
  | nil => exact absurd h (by simp)
  | cons x l ih =>
    by_cases hx : x = sep
    · exact ⟨[],l,by simp [hx],by simp⟩
    · obtain ⟨a,b,rfl,ha⟩ := ih ((List.mem_cons.mp h).resolve_left fun he => hx he.symm)
      refine ⟨x::a,b,by simp,?_⟩
      intro hm
      rcases List.mem_cons.mp hm with he | hm
      · exact hx he.symm
      · exact ha hm

theorem joined_pieces : joined sep (pieces sep cur l)++remainder sep cur l = cur++l := by
  induction l generalizing cur with
  | nil => simp [pieces, remainder]
  | cons x l ih =>
    rw [pieces, remainder]
    by_cases hx : x = sep
    · simp [hx, ih]
    · simp [hx, ih]

theorem notMem_of_mem_pieces (h : sep ∉ cur) : ∀ p ∈ pieces sep cur l, sep ∉ p := by
  induction l generalizing cur with
  | nil => simp [pieces]
  | cons x l ih =>
    rw [pieces]
    by_cases hx : x = sep
    · rw [if_pos hx]
      intro p hp
      rcases List.mem_cons.mp hp with rfl | hp
      · exact h
      · exact ih (by simp) p hp
    · rw [if_neg hx]
      exact ih (by simp [h, Ne.symm hx])

theorem notMem_remainder (h : sep ∉ cur) : sep ∉ remainder sep cur l := by
  induction l generalizing cur with
  | nil => exact h
  | cons x l ih =>
    rw [remainder]
    by_cases hx : x = sep
    · rw [if_pos hx]
      exact ih (by simp)
    · rw [if_neg hx]
      exact ih (by simp [h, Ne.symm hx])

theorem pieces_joined {L : List (List α)} (h : ∀ p ∈ L, sep ∉ p) :
    pieces sep [] (joined sep L) = L := by
  induction L with
  | nil => rfl
  | cons p L ih =>
    rw [joined_cons, pieces_cons (h p (by simp)), ih (fun q hq => h q (by simp [hq])),
      List.nil_append]

theorem joined_inj {L M : List (List α)} (hL : ∀ p ∈ L, sep ∉ p) (hM : ∀ p ∈ M, sep ∉ p) :
    joined sep L = joined sep M ↔ L = M := by
  refine ⟨fun h => ?_,fun h => by rw [h]⟩
  rw [← pieces_joined hL, h, pieces_joined hM]

end Xv6.SeparatedPieces
