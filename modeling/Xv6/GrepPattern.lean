import Mathlib.Data.List.Infix

/-!
# The matcher of `grep`

A string is the list of its characters before the NUL; the character after the
last one is the NUL itself. `matchhere` and `matchstar` call each other as in
`grep.c`. A pattern is read from left to right into items, and an item says
which characters it takes.
-/

set_option autoImplicit false

namespace Xv6.Grep

abbrev CARET : UInt8 := 94
abbrev DOLLAR : UInt8 := 36
abbrev DOT : UInt8 := 46
abbrev STAR : UInt8 := 42

def charAt (s : List UInt8) (i : ℕ) : UInt8 := s.getD i 0

@[simp] theorem charAt_nil (i : ℕ) : charAt [] i = 0 := rfl

@[simp] theorem charAt_cons_zero (c : UInt8) (s : List UInt8) : charAt (c::s) 0 = c := rfl

@[simp] theorem charAt_cons_one (c : UInt8) (s : List UInt8) : charAt (c::s) 1 = charAt s 0 := rfl

mutual

def matchhere (re text : List UInt8) : Bool :=
  if charAt re 0 = 0 then true
  else if charAt re 1 = STAR then matchstar (charAt re 0) (re.drop 2) text
  else if charAt re 0 = DOLLAR ∧ charAt re 1 = 0 then charAt text 0 = 0
  else if charAt text 0 ≠ 0 ∧ (charAt re 0 = DOT ∨ charAt re 0 = charAt text 0) then
    matchhere (re.drop 1) (text.drop 1)
  else false
termination_by (re.length,text.length,0)
decreasing_by
  all_goals
    cases re with
    | nil => simp_all
    | cons c re => simp [Prod.lex_def, Nat.lt_succ_iff]

def matchstar (c : UInt8) (re text : List UInt8) : Bool :=
  if matchhere re text then true
  else if charAt text 0 ≠ 0 ∧ (charAt text 0 = c ∨ c = DOT) then matchstar c re (text.drop 1)
  else false
termination_by (re.length,text.length,1)
decreasing_by
  · simp [Prod.lex_def]
  · cases text with
    | nil => simp_all
    | cons x text => simp [Prod.lex_def]

end

def matchFrom (re : List UInt8) : List UInt8 → Bool
  | [] => matchhere re []
  | x::text => if matchhere re (x::text) then true else if x ≠ 0 then matchFrom re text else false

def matchRe (re text : List UInt8) : Bool :=
  if charAt re 0 = CARET then matchhere (re.drop 1) text else matchFrom re text

inductive Item
  | star (c : UInt8)
  | final
  | any
  | lit (c : UInt8)
  deriving DecidableEq, Repr

def Item.one (c : UInt8) : Item := if c = DOT then .any else .lit c

def items : List UInt8 → List Item
  | [] => []
  | [c] => if c = DOLLAR then [.final] else [.one c]
  | c::d::re => if d = STAR then .star c::items re else .one c::items (d::re)

def Stands (c x : UInt8) : Prop := c = DOT ∨ x = c

inductive Reads : List Item → List UInt8 → List UInt8 → Prop
  | done {rest : List UInt8} : Reads [] [] rest
  | star {c : UInt8} {is : List Item} {p q rest : List UInt8} (h : ∀ x ∈ p, Stands c x)
      (hq : Reads is q rest) : Reads (.star c::is) (p++q) rest
  | final : Reads [.final] [] []
  | any {x : UInt8} {is : List Item} {p rest : List UInt8} (h : Reads is p rest) :
      Reads (.any::is) (x::p) rest
  | lit {x : UInt8} {is : List Item} {p rest : List UInt8} (h : Reads is p rest) :
      Reads (.lit x::is) (x::p) rest

def MatchesHere (re text : List UInt8) : Prop :=
  ∃ p rest, text = p++rest ∧ Reads (items re) p rest

section Equations

variable {c d x : UInt8} {re text : List UInt8}

theorem reads_nil : ∃ p rest, text = p++rest ∧ Reads [] p rest := ⟨[],text,rfl,.done⟩

/-- A repeated character: none of it, or one that stands for it and then again. -/
theorem reads_star {is : List Item} :
    (∃ p rest, text = p++rest ∧ Reads (.star c::is) p rest) ↔
      (∃ p rest, text = p++rest ∧ Reads is p rest) ∨
      ∃ x t, text = x::t ∧ Stands c x ∧ ∃ p rest, t = p++rest ∧ Reads (.star c::is) p rest := by
  constructor
  · rintro ⟨_,rest,rfl,h⟩
    cases h with
    | @star _ _ p q _ hp hq =>
      cases p with
      | nil => exact .inl ⟨q,rest,rfl,hq⟩
      | cons x p =>
        exact .inr ⟨x,p++q++rest,rfl,hp x (by simp),p++q,rest,rfl,
          .star (fun y hy => hp y (by simp [hy])) hq⟩
  · rintro (⟨p,rest,rfl,h⟩ | ⟨x,t,rfl,hx,p,rest,rfl,h⟩)
    · exact ⟨p,rest,rfl,.star (p := []) (by simp) h⟩
    · cases h with
      | @star _ _ p q _ hp hq =>
        refine ⟨x::p++q,rest,by simp,.star (p := x::p) ?_ hq⟩
        intro y hy
        rcases List.mem_cons.mp hy with rfl | hy
        · exact hx
        · exact hp y hy

theorem reads_one {is : List Item} :
    (∃ p rest, text = p++rest ∧ Reads (.one c::is) p rest) ↔
      ∃ x t, text = x::t ∧ (c = DOT ∨ c = x) ∧ ∃ p rest, t = p++rest ∧ Reads is p rest := by
  by_cases hc : c = DOT
  · rw [Item.one, if_pos hc]
    constructor
    · rintro ⟨_,rest,rfl,h⟩
      cases h with
      | @any x _ p _ h => exact ⟨x,p++rest,rfl,.inl hc,p,rest,rfl,h⟩
    · rintro ⟨x,_,rfl,-,p,rest,rfl,h⟩
      exact ⟨x::p,rest,rfl,.any h⟩
  · rw [Item.one, if_neg hc]
    constructor
    · rintro ⟨_,rest,rfl,h⟩
      cases h with
      | lit h => exact ⟨c,_,rfl,.inr rfl,_,rest,rfl,h⟩
    · rintro ⟨x,_,rfl,rfl | rfl,p,rest,rfl,h⟩
      · exact absurd rfl hc
      · exact ⟨c::p,rest,rfl,.lit h⟩

theorem reads_final : (∃ p rest, text = p++rest ∧ Reads [.final] p rest) ↔ text = [] := by
  constructor
  · rintro ⟨_,_,rfl,h⟩
    cases h
    rfl
  · rintro rfl
    exact ⟨[],[],rfl,.final⟩

end Equations

section Matcher

variable {c x : UInt8} {re text : List UInt8}

theorem charAt_zero_eq (h : 0 ∉ text) : charAt text 0 = 0 ↔ text = [] := by
  cases text with
  | nil => simp
  | cons x text =>
    have hx : x ≠ 0 := fun h0 => h (by simp [h0])
    simp [hx]

/-- The loop over the text: `matchstar` is the repeated character in front of
whatever `matchhere` takes the rest of the pattern for. -/
theorem matchstar_iff (hre : ∀ t, 0 ∉ t → (matchhere re t = true ↔ MatchesHere re t))
    (ht : 0 ∉ text) : matchstar c re text = true ↔
      ∃ p rest, text = p++rest ∧ Reads (.star c::items re) p rest := by
  induction text with
  | nil =>
    rw [matchstar, reads_star]
    simp [hre [] ht, MatchesHere]
  | cons x t ih =>
    have hx : x ≠ 0 := fun h0 => ht (by simp [h0])
    have hstands : (x = c ∨ c = DOT) ↔ Stands c x := or_comm
    rw [matchstar, reads_star, charAt_cons_zero, List.drop_one, List.tail_cons]
    have hhere := hre (x::t) ht
    have hrest := ih (fun h => ht (by simp [h]))
    by_cases h : matchhere re (x::t) = true
    · rw [if_pos h]
      exact iff_of_true rfl (.inl (hhere.mp h))
    · rw [if_neg h]
      have hno : ¬∃ p rest, x::t = p++rest ∧ Reads (items re) p rest := fun hm => h (hhere.mpr hm)
      by_cases hs : Stands c x
      · rw [if_pos ⟨hx,hstands.mpr hs⟩]
        refine hrest.trans ⟨fun hm => .inr ⟨x,t,rfl,hs,hm⟩,?_⟩
        rintro (hm | ⟨_,_,heq,-,hm⟩)
        · exact absurd hm hno
        · obtain ⟨rfl,rfl⟩ := List.cons.inj heq
          exact hm
      · rw [if_neg (fun hc => hs (hstands.mp hc.2))]
        refine iff_of_false Bool.false_ne_true ?_
        rintro (hm | ⟨_,_,heq,hs',-⟩)
        · exact hno hm
        · obtain ⟨rfl,rfl⟩ := List.cons.inj heq
          exact hs hs'

theorem step_iff {is : List Item} (ht : 0 ∉ text)
    (hre : ∀ t, 0 ∉ t → (matchhere re t = true ↔ ∃ p rest, t = p++rest ∧ Reads is p rest)) :
    (if charAt text 0 ≠ 0 ∧ (c = DOT ∨ c = charAt text 0) then matchhere re (text.drop 1)
      else false) = true ↔ ∃ p rest, text = p++rest ∧ Reads (.one c::is) p rest := by
  rw [reads_one]
  cases text with
  | nil => simp
  | cons x t =>
    have hx : x ≠ 0 := fun h0 => ht (by simp [h0])
    have hrest := hre t (fun h => ht (by simp [h]))
    simp only [charAt_cons_zero, List.drop_one, List.tail_cons, ne_eq, hx,
      not_false_eq_true, true_and]
    by_cases hc : c = DOT ∨ c = x
    · rw [if_pos hc, hrest]
      refine ⟨fun hm => ⟨x,t,rfl,hc,hm⟩,?_⟩
      rintro ⟨_,_,heq,-,hm⟩
      obtain ⟨rfl,rfl⟩ := List.cons.inj heq
      exact hm
    · rw [if_neg hc]
      refine iff_of_false Bool.false_ne_true ?_
      rintro ⟨_,_,heq,hc',-⟩
      obtain ⟨rfl,rfl⟩ := List.cons.inj heq
      exact hc hc'

theorem matchhere_iff (hre : 0 ∉ re) (ht : 0 ∉ text) :
    matchhere re text = true ↔ MatchesHere re text := by
  induction re using items.induct generalizing text with
  | case1 =>
    rw [matchhere]
    exact iff_of_true (if_pos rfl) reads_nil
  | case2 =>
    rw [matchhere, if_neg (by decide), if_neg (by decide), if_pos ⟨rfl,rfl⟩]
    exact (decide_eq_true_iff.trans (charAt_zero_eq ht)).trans reads_final.symm
  | case3 c hc =>
    have hc0 : c ≠ 0 := fun h => hre (by simp [h])
    rw [matchhere, charAt_cons_zero, charAt_cons_one, charAt_nil, if_neg hc0, if_neg (by decide),
      if_neg (fun h => hc h.1), MatchesHere, items, if_neg hc]
    apply step_iff ht
    intro t _
    rw [List.drop_one, List.tail_cons, matchhere]
    exact iff_of_true (if_pos rfl) reads_nil
  | case4 c re ih =>
    have hc0 : c ≠ 0 := fun h => hre (by simp [h])
    rw [matchhere, charAt_cons_zero, charAt_cons_one, charAt_cons_zero, if_neg hc0, if_pos rfl,
      MatchesHere, items, if_pos rfl]
    apply matchstar_iff _ ht
    intro t htn
    exact ih (fun h => hre (by simp [h])) htn
  | case5 c d re hd ih =>
    have hc0 : c ≠ 0 := fun h => hre (by simp [h])
    have hd0 : d ≠ 0 := fun h => hre (by simp [h])
    rw [matchhere, charAt_cons_zero, charAt_cons_one, charAt_cons_zero, if_neg hc0, if_neg hd,
      if_neg (fun h => hd0 h.2), MatchesHere, items, if_neg hd]
    apply step_iff ht
    intro t htn
    exact ih (fun h => hre (List.mem_cons_of_mem c h)) htn

theorem matchFrom_iff (hre : 0 ∉ re) (ht : 0 ∉ text) :
    matchFrom re text = true ↔ ∃ s, s <:+ text ∧ MatchesHere re s := by
  induction text with
  | nil => simp [matchFrom, matchhere_iff hre ht]
  | cons x t ih =>
    have hx : x ≠ 0 := fun h0 => ht (by simp [h0])
    have hhere := matchhere_iff hre ht
    have hrest := ih (fun h => ht (by simp [h]))
    simp only [List.suffix_cons_iff, or_and_right, exists_or, exists_eq_left, ← hhere, ← hrest]
    rw [matchFrom]
    by_cases h : matchhere re (x::t) = true <;> simp [h, hx]

/-- `matchhere` and `match` read the pattern language: a prefix of the text, at
its beginning behind a caret and otherwise at the beginning of any suffix. -/
theorem match_reads_pattern (re text : List UInt8) (hre : 0 ∉ re) (ht : 0 ∉ text) :
    (matchhere re text = true ↔ MatchesHere re text) ∧
    (matchRe re text = true ↔
      (∃ r, re = CARET::r ∧ MatchesHere r text) ∨
      (re.head? ≠ some CARET ∧ ∃ s, s <:+ text ∧ MatchesHere re s)) := by
  refine ⟨matchhere_iff hre ht,?_⟩
  cases re with
  | nil =>
    have hne : (0 : UInt8) ≠ CARET := by decide
    simp [matchRe, hne, matchFrom_iff hre ht]
  | cons c r =>
    by_cases hc : c = CARET
    · subst hc
      have hr : 0 ∉ r := fun h => hre (List.mem_cons_of_mem CARET h)
      simp [matchRe, matchhere_iff hr ht]
    · simp [matchRe, hc, matchFrom_iff hre ht]

/-- The pattern `^a.*c$` on `abac`. -/
theorem match_reads_anchored :
    MatchesHere [97,DOT,STAR,99,DOLLAR] [97,98,97,99] ∧
      matchRe [CARET,97,DOT,STAR,99,DOLLAR] [97,98,97,99] = true := by
  have h : matchhere [97,DOT,STAR,99,DOLLAR] [97,98,97,99] = true := by
    simp [matchhere, matchstar, DOT, STAR, DOLLAR]
  have hm := (match_reads_pattern [97,DOT,STAR,99,DOLLAR] [97,98,97,99]
    (by decide) (by decide)).1.mp h
  exact ⟨hm,(match_reads_pattern _ _ (by decide) (by decide)).2.mpr (.inl ⟨_,rfl,hm⟩)⟩

end Matcher

end Xv6.Grep
