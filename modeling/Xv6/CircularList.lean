import Mathlib.Data.List.Chain

/-!
# Circular doubly linked lists

Nodes linked by two pointer fields into a ring through a fixed head node. The
ring is the list of its nodes in the order of the forward pointers; the three
operations on the pointers act on that list, and a walk from the head that
stops at the head again searches it.
-/

set_option autoImplicit false

namespace Xv6.CircularList
open Function

variable {N : Type*} [DecidableEq N]

structure Links (N : Type*) where
  next : N → N
  prev : N → N

def Linked (r : Links N) (a b : N) : Prop := r.next a = b ∧ r.prev b = a

def IsRing (r : Links N) (h : N) (l : List N) : Prop :=
  (h::l).Nodup ∧ List.IsChain (Linked r) (h::(l ++ [h]))

def close (r : Links N) (h : N) : Links N :=
  { next := update r.next h h, prev := update r.prev h h }

def pushFront (r : Links N) (h b : N) : Links N :=
  let next := update r.next b (r.next h)
  let prev := update r.prev b h
  { next := update next h b, prev := update prev (next h) b }

def unlink (r : Links N) (b : N) : Links N :=
  let prev := update r.prev (r.next b) (r.prev b)
  { next := update r.next (prev b) (r.next b), prev := prev }

def search (step : N → N) (h : N) (test : N → Bool) : ℕ → N → Option (Option N)
  | 0, _ => none
  | n+1, x => if x = h then some none else if test x then some (some x)
    else search step h test n (step x)

section Ring
variable {r r' : Links N} {h b : N} {l l₁ l₂ : List N}

omit [DecidableEq N] in
/-- A chain does not see the forward pointer of its last node and the backward
pointer of its first. -/
theorem chain_frame (hn : ∀ x ∈ l.dropLast, r'.next x = r.next x)
    (hp : ∀ x ∈ l.tail, r'.prev x = r.prev x) (hl : List.IsChain (Linked r) l) :
    List.IsChain (Linked r') l := by
  induction l with
  | nil => exact List.isChain_nil
  | cons a l ih =>
    cases l with
    | nil => exact List.isChain_singleton a
    | cons c l =>
      rw [List.isChain_cons_cons] at hl ⊢
      refine ⟨⟨?_,?_⟩,ih (fun x hx => hn x ?_) (fun x hx => hp x ?_) hl.2⟩
      · rw [hn a (by simp)]
        exact hl.1.1
      · rw [hp c (by simp)]
        exact hl.1.2
      · rw [List.dropLast_cons_of_ne_nil (by simp)]
        exact List.mem_cons_of_mem a hx
      · exact List.mem_of_mem_tail hx

theorem ring_close (r : Links N) (h : N) : IsRing (close r h) h [] := by
  refine ⟨by simp,?_⟩
  simp [close, Linked]

omit [DecidableEq N] in
theorem ring_next (hr : IsRing r h l) : (l ++ [h]).head? = some (r.next h) := by
  cases l with
  | nil =>
    have hc := (List.isChain_cons_cons.mp hr.2).1
    simp [hc.1]
  | cons a l =>
    have hc := (List.isChain_cons_cons.mp hr.2).1
    simp [hc.1]

theorem ring_pushFront (hr : IsRing r h l) (hb : b ∉ h::l) :
    IsRing (pushFront r h b) h (b::l) := by
  obtain ⟨hnd,hch⟩ := hr
  have hhead := ring_next ⟨hnd,hch⟩
  have hbh : b ≠ h := fun he => hb (by simp [he])
  obtain ⟨c,rest,hrest⟩ : ∃ c rest, l ++ [h] = c::rest := by
    cases l with
    | nil => exact ⟨h,[],rfl⟩
    | cons a l => exact ⟨a,l ++ [h],rfl⟩
  have hc : r.next h = c := by simpa [hrest] using hhead.symm
  have hcb : c ≠ b := by
    rintro rfl
    have hm : c ∈ l ++ [h] := by simp [hrest]
    exact hb (by simpa [or_comm] using hm)
  have hnd' : (l ++ [h]).Nodup := List.perm_append_comm.nodup_iff.mp (by simpa using hnd)
  refine ⟨by simpa [List.nodup_cons, Ne.symm hbh, not_or, and_assoc] using
    ⟨(List.nodup_cons.mp hnd).1,fun hm => hb (by simp [hm]),(List.nodup_cons.mp hnd).2⟩,?_⟩
  rw [List.cons_append, hrest, List.isChain_cons_cons, List.isChain_cons_cons]
  refine ⟨⟨?_,?_⟩,⟨?_,?_⟩,?_⟩
  · simp [pushFront]
  · simp [pushFront, hc, Ne.symm hbh, Ne.symm hcb]
  · simp [pushFront, hc, hbh]
  · simp [pushFront, hc, Ne.symm hbh]
  · rw [hrest, List.isChain_cons_cons] at hch
    refine chain_frame (fun x hx => ?_) (fun x hx => ?_) hch.2
    · have hx : x ∈ l := by
        rw [← hrest, List.dropLast_concat] at hx
        exact hx
      have h1 : x ≠ h := fun he => (List.nodup_cons.mp hnd).1 (he ▸ hx)
      have h2 : x ≠ b := fun he => hb (by simp [← he, hx])
      simp [pushFront, h1, h2]
    · have h1 : x ≠ c := by
        rintro rfl
        rw [hrest] at hnd'
        exact (List.nodup_cons.mp hnd').1 hx
      have h2 : x ≠ b := by
        rintro rfl
        have hm : x ∈ l ++ [h] := by
          rw [hrest]
          exact List.mem_cons_of_mem c hx
        exact hb (by simpa [or_comm] using hm)
      simp [pushFront, hc, Ne.symm hbh, h1, h2]

theorem ring_unlink (hr : IsRing r h (l₁ ++ b::l₂)) : IsRing (unlink r b) h (l₁ ++ l₂) := by
  obtain ⟨hnd,hch⟩ := hr
  have hsplit : h::((l₁ ++ b::l₂) ++ [h]) = (h::l₁) ++ (b::(l₂ ++ [h])) := by simp
  have hnew : h::((l₁ ++ l₂) ++ [h]) = (h::l₁) ++ (l₂ ++ [h]) := by simp
  have hsub : (h::(l₁ ++ l₂)).Nodup :=
    hnd.sublist (List.Sublist.cons_cons h (List.Sublist.append_left (by simp) l₁))
  obtain ⟨a,ha⟩ : ∃ a, (h::l₁).getLast? = some a := ⟨_,List.getLast?_eq_some_getLast (by simp)⟩
  obtain ⟨c,rest,hc⟩ : ∃ c rest, l₂ ++ [h] = c::rest := by
    cases l₂ with
    | nil => exact ⟨h,[],rfl⟩
    | cons x l => exact ⟨x,l ++ [h],rfl⟩
  rw [hsplit, List.isChain_append, hc, List.isChain_cons_cons] at hch
  obtain ⟨hleft,⟨hbc,hright⟩,hjoin⟩ := hch
  have hab : Linked r a b := hjoin a ha b (by simp)
  have hmem : a ∈ h::l₁ := List.mem_of_getLast? ha
  have hcm : c = h ∨ c ∈ l₂ := by
    have hm : c ∈ l₂ ++ [h] := by simp [hc]
    simpa [or_comm] using hm
  obtain ⟨h1,h2,h3,h4⟩ : h ∉ l₁ ∧ h ∉ b::l₂ ∧ l₁.Nodup ∧ (b::l₂).Nodup := by
    have hk := List.nodup_cons.mp hnd
    have hk' := List.nodup_append.mp hk.2
    exact ⟨fun hm => hk.1 (by simp [hm]),fun hm => hk.1 (List.mem_append_right l₁ hm),hk'.1,hk'.2.1⟩
  have hdis : ∀ x ∈ l₁, x ∉ b::l₂ := by
    have hk := (List.nodup_append.mp (List.nodup_cons.mp hnd).2).2.2
    exact fun x hx hx' => hk x hx x hx' rfl
  have hcb : c ≠ b := by
    rintro rfl
    rcases hcm with rfl | hm
    · exact h2 (by simp)
    · exact (List.nodup_cons.mp h4).1 hm
  have hnext : (unlink r b).next = update r.next a c := by
    simp [unlink, hbc.1, hab.2, Ne.symm hcb]
  have hprev : (unlink r b).prev = update r.prev c a := by
    simp [unlink, hbc.1, hab.2]
  refine ⟨hsub,?_⟩
  rw [hnew, List.isChain_append]
  refine ⟨chain_frame (fun x hx => ?_) (fun x hx => ?_) hleft,?_,fun x hx y hy => ?_⟩
  · rw [hnext, update_of_ne]
    rintro rfl
    have hl : h::l₁ = (h::l₁).dropLast ++ [x] := (List.dropLast_append_getLast? x ha).symm
    have hnd' : (h::l₁).Nodup := List.nodup_cons.mpr ⟨h1,h3⟩
    rw [hl, List.nodup_append] at hnd'
    exact hnd'.2.2 x hx x (by simp) rfl
  · rw [hprev, update_of_ne]
    rintro rfl
    rcases hcm with rfl | hm
    · exact h1 hx
    · exact hdis x hx (List.mem_cons_of_mem b hm)
  · rw [hc]
    refine chain_frame (fun x hx => ?_) (fun x hx => ?_) hright
    · have hx : x ∈ l₂ := by
        rw [← hc, List.dropLast_concat] at hx
        exact hx
      rw [hnext, update_of_ne]
      rintro rfl
      rcases List.mem_cons.mp hmem with rfl | hm
      · exact h2 (List.mem_cons_of_mem b hx)
      · exact hdis x hm (List.mem_cons_of_mem b hx)
    · rw [hprev, update_of_ne]
      rintro rfl
      have hnd' : (l₂ ++ [h]).Nodup := by
        refine List.perm_append_comm.nodup_iff.mp ?_
        exact List.nodup_cons.mpr ⟨fun hm => h2 (List.mem_cons_of_mem b hm),
          (List.nodup_cons.mp h4).2⟩
      rw [hc] at hnd'
      exact (List.nodup_cons.mp hnd').1 hx
  · have hx : x = a := Option.some.inj (hx.symm.trans ha)
    have hy : y = c := by
      rw [hc] at hy
      exact (Option.some.inj hy).symm
    subst hx hy
    constructor
    · simp [hnext]
    · simp [hprev]

theorem search_chain {step : N → N} {test : N → Bool} (hh : h ∉ l)
    (hl : List.IsChain (fun a b => step a = b) (l ++ [h])) {n : ℕ} (hn : l.length < n) (x : N)
    (hx : (l ++ [h]).head? = some x) : search step h test n x = some (l.find? test) := by
  induction l generalizing n x with
  | nil =>
    obtain ⟨n,rfl⟩ := Nat.exists_eq_succ_of_ne_zero (by omega : n ≠ 0)
    have hxh : x = h := by simpa using hx.symm
    simp [search, hxh]
  | cons a l ih =>
    obtain ⟨n,rfl⟩ := Nat.exists_eq_succ_of_ne_zero (by omega : n ≠ 0)
    have hxa : x = a := by simpa using hx.symm
    have hah : a ≠ h := fun he => hh (by simp [he])
    subst hxa
    rw [search, if_neg hah]
    cases ht : test x with
    | true => simp [ht]
    | false =>
      simp only [Bool.false_eq_true, if_false, List.find?_cons, ht]
      rw [List.cons_append, List.isChain_cons] at hl
      refine ih (fun hm => hh (by simp [hm])) hl.2 (by simpa using hn) (step x) ?_
      cases hhd : (l ++ [h]).head? with
      | none => simp at hhd
      | some y => rw [hl.1 y hhd]

theorem ring_search {test : N → Bool} (hr : IsRing r h l) {n : ℕ} (hn : l.length < n) :
    search r.next h test n (r.next h) = some (l.find? test) := by
  refine search_chain (List.nodup_cons.mp hr.1).1 ?_ hn _ (ring_next hr)
  exact (hr.2.imp (fun _ _ hl => hl.1)).tail

omit [DecidableEq N] in
theorem ring_reverse (hr : IsRing r h l) : IsRing ⟨r.prev,r.next⟩ h l.reverse := by
  refine ⟨?_,?_⟩
  · exact ((List.reverse_perm l).cons h).nodup_iff.mpr hr.1
  · have hc : List.IsChain (fun a b => Linked r b a) (h::(l ++ [h])).reverse :=
      List.isChain_reverse.mpr hr.2
    have he : (h::(l ++ [h])).reverse = h::(l.reverse ++ [h]) := by simp
    rw [he] at hc
    exact hc.imp (fun a b hl => ⟨hl.2,hl.1⟩)

end Ring

end Xv6.CircularList
