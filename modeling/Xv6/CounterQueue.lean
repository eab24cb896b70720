import Mathlib.Data.BitVec

/-!
# Queues between free-running counters

A queue in an array of `c` places, addressed by two counters of `w` bits that
are never reset. The number of queued values is the difference of the
counters, also after they have wrapped, as long as `c` divides `2^w`.
-/

set_option autoImplicit false

namespace Xv6.CounterQueue
open Function

structure Queue (α : Type) (c w : ℕ) where
  data : Fin c → α
  head : BitVec w
  tail : BitVec w

variable {α : Type} {c w : ℕ} [NeZero c] {q : Queue α c w}

def size (q : Queue α c w) : ℕ := (q.tail-q.head).toNat

def place (n : ℕ) : Fin c := Fin.ofNat c n

def contents (q : Queue α c w) : List α :=
  (List.range (size q)).map fun j => q.data (place (q.head.toNat+j))

def push (q : Queue α c w) (x : α) : Queue α c w :=
  { q with data := update q.data (place q.tail.toNat) x, tail := q.tail+1 }

def front (q : Queue α c w) : α := q.data (place q.head.toNat)

def pop (q : Queue α c w) : Queue α c w := { q with head := q.head+1 }

theorem contents_length (q : Queue α c w) : (contents q).length = size q := by
  simp [contents]

omit [NeZero c] in
theorem size_eq_zero (q : Queue α c w) : size q = 0 ↔ q.head = q.tail := by
  constructor
  · intro h
    have hz : q.tail-q.head = 0 := BitVec.eq_of_toNat_eq (by simpa [size] using h)
    have ht : q.tail = q.tail-q.head+q.head := (BitVec.sub_add_cancel _ _).symm
    rw [ht, hz, zero_add]
  · intro h
    simp [size, h]

theorem contents_eq_nil (q : Queue α c w) : contents q = [] ↔ q.head = q.tail := by
  rw [← size_eq_zero, ← contents_length, List.length_eq_zero_iff]

omit [NeZero c] in
theorem tail_eq (q : Queue α c w) : q.tail.toNat = (q.head.toNat+size q)%2^w := by
  have h : q.tail = q.head+(q.tail-q.head) := by rw [BitVec.add_comm, BitVec.sub_add_cancel]
  have hn := congrArg BitVec.toNat h
  rwa [BitVec.toNat_add] at hn

theorem place_eq_iff (m n : ℕ) : (place m : Fin c) = place n ↔ m%c = n%c := by
  rw [Fin.ext_iff]
  exact Iff.rfl

theorem place_mod (hc : c ∣ 2^w) (n : ℕ) : (place (n%2^w) : Fin c) = place n :=
  (place_eq_iff _ _).mpr (Nat.mod_mod_of_dvd n hc)

theorem place_tail (hc : c ∣ 2^w) (q : Queue α c w) :
    (place q.tail.toNat : Fin c) = place (q.head.toNat+size q) := by
  rw [tail_eq, place_mod hc]

theorem place_ne {m i j : ℕ} (hij : i < j) (hj : j < i+c) :
    (place (m+i) : Fin c) ≠ place (m+j) := by
  intro h
  have hm : m+i ≡ m+j [MOD c] := (place_eq_iff _ _).mp h
  have hd : c ∣ j-i := (Nat.modEq_iff_dvd' hij.le).mp hm.add_left_cancel'
  have := Nat.le_of_dvd (by omega) hd
  omega

theorem size_push (hc : c < 2^w) (q : Queue α c w) (x : α) (h : size q < c) :
    size (push q x) = size q+1 := by
  have he : q.tail+1-q.head = q.tail-q.head+1 := by
    rw [BitVec.sub_eq_add_neg, BitVec.sub_eq_add_neg, BitVec.add_assoc, BitVec.add_assoc,
      BitVec.add_comm 1]
  have hone : (1 : BitVec w).toNat = 1%2^w := BitVec.toNat_ofNat 1 w
  show (q.tail+1-q.head).toNat = (q.tail-q.head).toNat+1
  have hs : (q.tail-q.head).toNat < c := h
  rw [he, BitVec.toNat_add, hone, Nat.add_mod_mod, Nat.mod_eq_of_lt (by omega)]

theorem contents_push (hc : c ∣ 2^w) (hlt : c < 2^w) (q : Queue α c w) (x : α) (h : size q < c) :
    contents (push q x) = contents q ++ [x] := by
  rw [contents, size_push hlt q x h, List.range_succ, List.map_append]
  congr 1
  · apply List.map_congr_left
    intro j hj
    have hj := List.mem_range.mp hj
    have hne : (place (q.head.toNat+j) : Fin c) ≠ place q.tail.toNat := by
      rw [place_tail hc]
      exact place_ne hj (by omega)
    exact update_of_ne hne x q.data
  · have he : (place ((push q x).head.toNat+size q) : Fin c) = place q.tail.toNat :=
      (place_tail hc q).symm
    rw [List.map_singleton, he]
    have hx : (push q x).data (place q.tail.toNat) = x := by simp [push]
    rw [hx]

omit [NeZero c] in
theorem size_pop (q : Queue α c w) (h : 0 < size q) : size (pop q)+1 = size q := by
  have he : q.tail-(q.head+1) = q.tail-q.head-1 := by
    rw [BitVec.sub_eq_add_neg, BitVec.neg_add, BitVec.sub_eq_add_neg, BitVec.sub_eq_add_neg,
      BitVec.sub_eq_add_neg, BitVec.add_assoc]
  show (q.tail-(q.head+1)).toNat+1 = (q.tail-q.head).toNat
  have hs : 0 < (q.tail-q.head).toNat := h
  have hone : (1 : BitVec w).toNat = 1 := by
    rw [show (1 : BitVec w).toNat = 1%2^w from BitVec.toNat_ofNat 1 w, Nat.mod_eq_of_lt (by omega)]
  rw [he, BitVec.toNat_sub, hone]
  have : 2^w-1+(q.tail-q.head).toNat = (q.tail-q.head).toNat-1+2^w := by omega
  rw [this, Nat.add_mod_right, Nat.mod_eq_of_lt (by omega)]
  omega

theorem contents_pop (hc : c ∣ 2^w) (q : Queue α c w) (h : 0 < size q) :
    contents q = front q::contents (pop q) := by
  have hs := size_pop q h
  rw [contents, ← hs, List.range_succ_eq_map, List.map_cons, List.map_map]
  congr 1
  rw [contents]
  apply List.map_congr_left
  intro j _
  have hhead : (pop q).head.toNat = (q.head.toNat+1)%2^w := by
    show (q.head+1).toNat = _
    rw [BitVec.toNat_add, show (1 : BitVec w).toNat = 1%2^w from BitVec.toNat_ofNat 1 w,
      Nat.add_mod_mod]
  have hplace : (place (q.head.toNat+(j+1)) : Fin c) = place ((pop q).head.toNat+j) := by
    rw [hhead, place_eq_iff, Nat.add_mod, Nat.add_mod ((q.head.toNat+1)%2^w) j c,
      Nat.mod_mod_of_dvd _ hc, ← Nat.add_mod, ← Nat.add_mod, Nat.add_assoc, Nat.add_comm 1 j]
  exact congrArg q.data hplace

end Xv6.CounterQueue
