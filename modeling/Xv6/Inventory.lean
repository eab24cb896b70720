import Mathlib.Algebra.Order.BigOperators.Group.Finset

/-!
# Counting who holds an item

A finite collection of places, each holding at most one item or a record of
several. The total weight of an item over the places says how often it is held;
replacing what one place holds exchanges its weight and changes nothing else.
-/

set_option autoImplicit false

namespace Xv6.Inventory
open Finset Function

variable {ι α P : Type*}

section Hit

variable [DecidableEq P]

def hit (x : P) (o : Option P) : ℕ := if o = some x then 1 else 0

@[simp] theorem hit_none (x : P) : hit x none = 0 := rfl

@[simp] theorem hit_self (x : P) : hit x (some x) = 1 := by simp [hit]

theorem hit_of_ne {x : P} {o : Option P} (h : o ≠ some x) : hit x o = 0 := if_neg h

theorem count_cons_hit (x y : P) (l : List P) : (y::l).count x = l.count x + hit x (some y) := by
  rw [List.count_cons]
  by_cases h : y = x
  · simp [h]
  · simp [h, hit]

end Hit

section Total

def total (d : Finset ι) (w : α → ℕ) (f : ι → α) : ℕ := ∑ i ∈ d, w (f i)

variable {d : Finset ι} {i : ι}

theorem total_congr {w : α → ℕ} {f g : ι → α} (h : ∀ i ∈ d, f i = g i) :
    total d w f = total d w g :=
  sum_congr rfl fun i hi => congrArg w (h i hi)

theorem total_eq_zero {w : α → ℕ} {f : ι → α} (h : ∀ i ∈ d, w (f i) = 0) : total d w f = 0 :=
  sum_eq_zero h

theorem weight_le_total (hi : i ∈ d) (w : α → ℕ) (f : ι → α) : w (f i) ≤ total d w f :=
  single_le_sum (f := fun j => w (f j)) (fun _ _ => Nat.zero_le _) hi

variable [DecidableEq ι]

theorem total_update (hi : i ∈ d) (w : α → ℕ) (f : ι → α) (v : α) :
    total d w (update f i v) + w (f i) = total d w f + w v := by
  have hnew := add_sum_erase d (fun j => w (update f i v j)) hi
  have hold := add_sum_erase d (fun j => w (f j)) hi
  have hrest : ∑ j ∈ d.erase i, w (update f i v j) = ∑ j ∈ d.erase i, w (f j) :=
    sum_congr rfl fun j hj => by rw [update_of_ne (ne_of_mem_erase hj)]
  simp only [update_self] at hnew
  unfold total
  omega

theorem total_update_outside (hi : i ∉ d) (w : α → ℕ) (f : ι → α) (v : α) :
    total d w (update f i v) = total d w f :=
  total_congr fun _ hj => update_of_ne (ne_of_mem_of_not_mem hj hi) v f

theorem pair_le_total {j : ι} (hi : i ∈ d) (hj : j ∈ d) (hij : i ≠ j) (w : α → ℕ) (f : ι → α) :
    w (f i) + w (f j) ≤ total d w f := by
  have hsplit := add_sum_erase d (fun k => w (f k)) hi
  have hrest := weight_le_total (mem_erase.mpr ⟨hij.symm,hj⟩) w f
  unfold total at hrest ⊢
  omega

end Total

end Xv6.Inventory
