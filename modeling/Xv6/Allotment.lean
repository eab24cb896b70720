import Mathlib.Data.Finset.Card

/-!
# Numbered units allotted to places

The units from `lo` to `hi` are kept in places, each in one place at most. A
mark says which units are taken: those below `lo`, those in places in use and
the loose ones, which have left their places and are not yet free.
-/

set_option autoImplicit false

namespace Xv6.Allotment
open Function

variable {ι : Type*}

structure Allotted (use : ι → Prop) (unit : ι → ℕ) (loose : ℕ → Prop) (mark : ℕ → Bool)
    (lo hi : ℕ) : Prop where
  inside : ∀ i, use i → lo ≤ unit i ∧ unit i < hi
  apart : ∀ i j, use i → use j → unit i = unit j → i = j
  spare : ∀ b, loose b → lo ≤ b ∧ b < hi ∧ ∀ i, use i → unit i ≠ b
  marked : ∀ b, b < hi → (mark b = true ↔ b < lo ∨ (∃ i, use i ∧ unit i = b) ∨ loose b)

variable {use use' : ι → Prop} {unit unit' : ι → ℕ} {loose loose' : ℕ → Prop} {mark : ℕ → Bool}
  {lo hi : ℕ}

section
variable (h : Allotted use unit loose mark lo hi)
include h

theorem allotted_congr (hu : ∀ i, use' i ↔ use i) (ha : ∀ i, use i → unit' i = unit i) :
    Allotted use' unit' loose mark lo hi where
  inside := by
    intro i hi'
    rw [hu] at hi'
    rw [ha i hi']
    exact h.inside i hi'
  apart := by
    intro i j hi' hj he
    rw [hu] at hi' hj
    rw [ha i hi', ha j hj] at he
    exact h.apart i j hi' hj he
  spare := by
    intro b hb
    obtain ⟨hlo,hhi,hne⟩ := h.spare b hb
    refine ⟨hlo,hhi,fun i hi' => ?_⟩
    rw [hu] at hi'
    rw [ha i hi']
    exact hne i hi'
  marked := by
    intro b hb
    rw [h.marked b hb]
    have hex : (∃ i, use i ∧ unit i = b) ↔ ∃ i, use' i ∧ unit' i = b := by
      constructor
      · rintro ⟨i,hi',he⟩
        exact ⟨i,(hu i).mpr hi',by rw [ha i hi', he]⟩
      · rintro ⟨i,hi',he⟩
        rw [hu] at hi'
        exact ⟨i,hi',by rw [← ha i hi', he]⟩
    rw [hex]

theorem marked_of_use {i : ι} (hi' : use i) : mark (unit i) = true :=
  (h.marked _ (h.inside i hi').2).mpr (.inr (.inl ⟨i,hi',rfl⟩))

theorem ne_of_clear {i : ι} (hi' : use i) {b : ℕ} (hb : mark b = false) : unit i ≠ b := by
  intro he
  have := marked_of_use h hi'
  rw [he, hb] at this
  contradiction

theorem lo_le_of_clear {b : ℕ} (hb : mark b = false) (hhi : b < hi) : lo ≤ b := by
  by_contra hlt
  have := (h.marked b hhi).mpr (.inl (by omega))
  rw [hb] at this
  contradiction

theorem allotted_take {i : ι} {b : ℕ} (hn : ¬use i) (hb : mark b = false) (hhi : b < hi)
    (hu : ∀ j, use' j ↔ use j ∨ j = i) (ha : ∀ j, use j → unit' j = unit j) (hi' : unit' i = b) :
    Allotted use' unit' loose (update mark b true) lo hi where
  inside := by
    intro j hj
    rcases (hu j).mp hj with hj | rfl
    · rw [ha j hj]
      exact h.inside j hj
    · rw [hi']
      exact ⟨lo_le_of_clear h hb hhi,hhi⟩
  apart := by
    intro j k hj hk he
    rcases (hu j).mp hj with hj | rfl <;> rcases (hu k).mp hk with hk | rfl
    · rw [ha j hj, ha k hk] at he
      exact h.apart j k hj hk he
    · rw [ha j hj, hi'] at he
      exact absurd he (ne_of_clear h hj hb)
    · rw [ha k hk, hi'] at he
      exact absurd he.symm (ne_of_clear h hk hb)
    · rfl
  spare := by
    intro c hc
    obtain ⟨hlo,hlt,hne⟩ := h.spare c hc
    refine ⟨hlo,hlt,fun j hj => ?_⟩
    rcases (hu j).mp hj with hj | rfl
    · rw [ha j hj]
      exact hne j hj
    · rw [hi']
      rintro rfl
      have := (h.marked _ hlt).mpr (.inr (.inr hc))
      rw [hb] at this
      contradiction
  marked := by
    intro c hc
    by_cases hcb : c = b
    · subst hcb
      rw [update_self]
      exact ⟨fun _ => .inr (.inl ⟨i,(hu i).mpr (.inr rfl),hi'⟩),fun _ => rfl⟩
    · rw [update_of_ne hcb, h.marked c hc]
      have hex : (∃ j, use j ∧ unit j = c) ↔ ∃ j, use' j ∧ unit' j = c := by
        constructor
        · rintro ⟨j,hj,he⟩
          exact ⟨j,(hu j).mpr (.inl hj),by rw [ha j hj, he]⟩
        · rintro ⟨j,hj,he⟩
          rcases (hu j).mp hj with hj | rfl
          · exact ⟨j,hj,by rw [← ha j hj, he]⟩
          · exact absurd (hi'.symm.trans he).symm hcb
      rw [hex]

end

section Counting

def clear (mark : ℕ → Bool) (hi : ℕ) : Finset ℕ :=
  (Finset.range hi).filter (fun b => mark b = false)

theorem mem_clear {b : ℕ} : b ∈ clear mark hi ↔ b < hi ∧ mark b = false := by
  rw [clear, Finset.mem_filter, Finset.mem_range]

theorem clear_iff (h : Allotted use unit loose mark lo hi) {b : ℕ} (hb : b < hi) :
    mark b = false ↔ lo ≤ b ∧ (∀ i, use i → unit i ≠ b) ∧ ¬loose b := by
  rw [← Bool.not_eq_true, h.marked b hb]
  push Not
  rfl

/-- Each new place takes one of the free units. -/
theorem clear_card [DecidableEq ι] {mark' : ℕ → Bool} (h : Allotted use unit loose mark lo hi)
    (h' : Allotted use' unit' loose mark' lo hi) (N : Finset ι) (hN : ∀ i ∈ N, ¬use i)
    (hu : ∀ i, use' i ↔ use i ∨ i ∈ N) (ha : ∀ i, use i → unit' i = unit i) :
    (clear mark' hi).card+N.card = (clear mark hi).card := by
  have hin : ∀ i ∈ N, use' i := fun i hi' => (hu i).mpr (.inr hi')
  have hcard : (N.image unit').card = N.card :=
    Finset.card_image_of_injOn fun i hi' j hj he => h'.apart i j (hin i hi') (hin j hj) he
  have hdis : Disjoint (clear mark' hi) (N.image unit') := by
    rw [Finset.disjoint_left]
    intro b hb hi'
    obtain ⟨i,hiN,rfl⟩ := Finset.mem_image.mp hi'
    exact ne_of_clear h' (hin i hiN) (mem_clear.mp hb).2 rfl
  have hun : clear mark hi = clear mark' hi ∪ N.image unit' := by
    ext b
    rw [Finset.mem_union, Finset.mem_image, mem_clear, mem_clear]
    constructor
    · rintro ⟨hb,hm⟩
      by_cases hn : ∃ i ∈ N, unit' i = b
      · exact .inr hn
      · refine .inl ⟨hb,?_⟩
        obtain ⟨h1,h2,h3⟩ := (clear_iff h hb).mp hm
        refine (clear_iff h' hb).mpr ⟨h1,fun i hi' he => ?_,h3⟩
        rcases (hu i).mp hi' with hi' | hi'
        · exact h2 i hi' (by rw [← ha i hi', he])
        · exact hn ⟨i,hi',he⟩
    · rintro (⟨hb,hm⟩ | ⟨i,hiN,rfl⟩)
      · obtain ⟨h1,h2,h3⟩ := (clear_iff h' hb).mp hm
        refine ⟨hb,(clear_iff h hb).mpr ⟨h1,fun i hi' he => ?_,h3⟩⟩
        exact h2 i ((hu i).mpr (.inl hi')) (by rw [ha i hi', he])
      · obtain ⟨hlo,hhi⟩ := h'.inside i (hin i hiN)
        refine ⟨hhi,(clear_iff h hhi).mpr ⟨hlo,fun j hj he => ?_,fun hl => ?_⟩⟩
        · rw [← ha j hj] at he
          have hji := h'.apart j i ((hu j).mpr (.inl hj)) (hin i hiN) he
          exact hN i hiN (hji ▸ hj)
        · exact (h'.spare _ hl).2.2 i (hin i hiN) rfl
  rw [hun, Finset.card_union_of_disjoint hdis, hcard]

end Counting

end Xv6.Allotment
