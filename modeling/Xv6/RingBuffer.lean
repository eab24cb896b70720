import Mathlib.Algebra.Group.Fin.Basic
import Mathlib.Data.List.Basic
import Mathlib.Tactic.Abel

/-!
# Fixed-size ring buffers

A ring of `n` cells with a head and a tail index, both reduced modulo `n`.
The cells from the head up to the tail are the contents, so a ring can hold
`n-1` entries: one more push moves the tail onto the head and the contents
read as empty again.
-/

set_option autoImplicit false

namespace Xv6.RingBuffer

structure Ring (α : Type*) (n : ℕ) where
  head : Fin n
  tail : Fin n
  buf : Fin n → α

variable {α : Type*} {n : ℕ} [NeZero n]

def segment (buf : Fin n → α) : Fin n → ℕ → List α
  | _, 0 => []
  | i, k+1 => buf i :: segment buf (i+1) k

def size (r : Ring α n) : ℕ := (r.tail-r.head).val

def contents (r : Ring α n) : List α := segment r.buf r.head (size r)

def push (r : Ring α n) (x : α) : Ring α n :=
  { r with buf := fun i => if i = r.tail then x else r.buf i, tail := r.tail+1 }

def pop (r : Ring α n) : Ring α n := { r with head := r.head+1 }

theorem segment_length (buf : Fin n → α) (i : Fin n) (k : ℕ) :
    (segment buf i k).length = k := by
  induction k generalizing i with
  | zero => rfl
  | succ k ih => simp [segment, ih]

theorem segment_succ (buf : Fin n → α) (i : Fin n) (k : ℕ) :
    segment buf i (k+1) = segment buf i k ++ [buf (i+Fin.ofNat n k)] := by
  induction k generalizing i with
  | zero => simp [segment]
  | succ k ih =>
    rw [segment, ih (i+1)]
    have hk : i+1+Fin.ofNat n k = i+Fin.ofNat n (k+1) := by
      apply Fin.ext
      simp only [Fin.val_add, Fin.val_ofNat, Fin.val_one', Nat.add_mod_mod, Nat.mod_add_mod]
      congr 1
      omega
    rw [hk]
    rfl

theorem segment_congr (buf buf' : Fin n → α) (i : Fin n) (k : ℕ)
    (h : ∀ j < k, buf (i+Fin.ofNat n j) = buf' (i+Fin.ofNat n j)) :
    segment buf i k = segment buf' i k := by
  induction k with
  | zero => rfl
  | succ k ih =>
    rw [segment_succ, segment_succ, ih (fun j hj => h j (by omega)), h k (by omega)]

omit [NeZero n] in
theorem size_lt (r : Ring α n) : size r < n := (r.tail-r.head).isLt

section
variable (r : Ring α n)
include r

theorem contents_length : (contents r).length = size r :=
  segment_length _ _ _

theorem size_eq_zero : size r = 0 ↔ r.head = r.tail := by
  unfold size
  constructor
  · intro h
    have hz : r.tail-r.head = 0 := Fin.ext (by simpa using h)
    exact (sub_eq_zero.mp hz).symm
  · intro h
    simp [h]

theorem contents_eq_nil : contents r = [] ↔ r.head = r.tail := by
  rw [← List.length_eq_zero_iff, contents_length, size_eq_zero]

theorem head_add_size : r.head+Fin.ofNat n (size r) = r.tail := by
  have hs : Fin.ofNat n (size r) = r.tail-r.head := by
    apply Fin.ext
    simp [size]
  rw [hs]
  abel

theorem head_add_ne_tail (j : ℕ) (hj : j < size r) : r.head+Fin.ofNat n j ≠ r.tail := by
  intro h
  have he : Fin.ofNat n j = Fin.ofNat n (size r) := by
    apply add_left_cancel (a := r.head)
    rw [h, head_add_size]
  have hv := congrArg Fin.val he
  have hn := size_lt r
  simp only [Fin.val_ofNat] at hv
  rw [Nat.mod_eq_of_lt (by omega), Nat.mod_eq_of_lt hn] at hv
  omega

theorem size_push (x : α) (h : size r+1 < n) : size (push r x) = size r+1 := by
  have hp : size (push r x) = (r.tail+1-r.head).val := rfl
  have he : r.tail+1-r.head = r.tail-r.head+1 := by abel
  rw [hp, he, Fin.val_add_one_of_lt' (by simpa [size] using h)]
  rfl

theorem contents_push (x : α) (h : size r+1 < n) : contents (push r x) = contents r ++ [x] := by
  rw [contents, size_push r x h]
  change segment _ r.head (size r+1) = _
  rw [segment_succ, head_add_size]
  congr 1
  · apply segment_congr
    intro j hj
    simp only [push, if_neg (head_add_ne_tail r j hj)]
  · simp [push]

theorem contents_push_full (x : α) (h : size r+1 = n) : contents (push r x) = [] := by
  rw [contents_eq_nil]
  have hs := head_add_size r
  change r.head = r.tail+1
  rw [← hs, add_assoc]
  have hz : Fin.ofNat n (size r)+1 = 0 := by
    apply Fin.ext
    simp [Fin.val_add, h]
  rw [hz, add_zero]

theorem size_pop (h : r.head ≠ r.tail) : size r = size (pop r)+1 := by
  have hp : size (pop r) = (r.tail-(r.head+1)).val := rfl
  have he : r.tail-(r.head+1) = r.tail-r.head-1 := by abel
  have h0 : r.tail-r.head ≠ 0 := fun h0 => h (sub_eq_zero.mp h0).symm
  have hv : 0 < (r.tail-r.head).val := Fin.pos_iff_ne_zero.mpr h0
  rw [hp, he, Fin.val_sub_one_of_ne_zero h0]
  unfold size
  omega

theorem contents_pop (h : r.head ≠ r.tail) : contents r = r.buf r.head :: contents (pop r) := by
  rw [contents, size_pop r h]
  rfl

end

theorem mem_contents_push {r : Ring α n} {x y : α} (h : y ∈ contents (push r x)) :
    y ∈ contents r ∨ y = x := by
  rcases Nat.lt_or_ge (size r+1) n with hn | hn
  · rw [contents_push r x hn] at h
    simpa using h
  · have hlt := size_lt r
    rw [contents_push_full r x (by omega)] at h
    simp at h

end Xv6.RingBuffer
