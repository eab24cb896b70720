import Xv6.ByteStore

/-!
# Moving bytes in memory

`memmove` of `string.c`. Pointers wrap at `2 ^ 32`, so the pointer behind a
region at the end of memory is 0. Whatever the overlap, the result is that of
reading the source as a whole first, which is how the moves of bytes in the
other parts of the kernel are written.
-/

set_option autoImplicit false

namespace Xv6.MemMove
open Function ByteStore

def forward : ℕ → ℕ → ℕ → Bytes → Bytes
  | 0, _, _, b => b
  | n+1, d, s, b => forward n ((d+1)%2^32) ((s+1)%2^32) (update b d (b s))

def before (p : ℕ) : ℕ := (p+2^32-1)%2^32

def backward : ℕ → ℕ → ℕ → Bytes → Bytes
  | 0, _, _, b => b
  | n+1, d, s, b => backward n (before d) (before s) (update b (before d) (b (before s)))

def memmove (dst src n : ℕ) (b : Bytes) : ℕ × Bytes :=
  if src < dst ∧ dst < (src+n)%2^32 then (dst,backward n ((dst+n)%2^32) ((src+n)%2^32) b)
  else (dst,forward n dst src b)

variable {n d s : ℕ}

/-- A byte is written after it is read: the source does not begin below the
destination, or they are apart. -/
theorem forward_apply (b : Bytes) (hd : d+n ≤ 2^32) (hs : s+n ≤ 2^32) (h : d ≤ s ∨ s+n ≤ d)
    (a : ℕ) : forward n d s b a = if d ≤ a ∧ a < d+n then b (s+(a-d)) else b a := by
  induction n generalizing d s b with
  | zero => rw [forward, if_neg (by omega)]
  | succ n ih =>
    rw [forward]
    rcases n.eq_zero_or_pos with rfl | hn
    · rw [forward]
      by_cases ha : a = d
      · subst ha
        simp
      · rw [update_of_ne ha, if_neg (by omega)]
    · rw [Nat.mod_eq_of_lt (by omega), Nat.mod_eq_of_lt (by omega),
        ih _ (by omega) (by omega) (by omega)]
      by_cases ha : a = d
      · subst ha
        rw [if_neg (by omega), update_self, if_pos (by omega), Nat.sub_self, Nat.add_zero]
      · by_cases hin : d+1 ≤ a ∧ a < d+1+n
        · rw [if_pos hin, if_pos (by omega), update_of_ne (by omega)]
          congr 1
          omega
        · rw [if_neg hin, if_neg (by omega), update_of_ne ha]

theorem before_end {p : ℕ} (h : p < 2^32) : before ((p+1)%2^32) = p := by
  unfold before
  omega

/-- From the end on, a byte is written after it is read where the source begins
below the destination. -/
theorem backward_apply (b : Bytes) (hd : d+n ≤ 2^32) (hs : s+n ≤ 2^32) (h : s < d) (a : ℕ) :
    backward n ((d+n)%2^32) ((s+n)%2^32) b a =
      if d ≤ a ∧ a < d+n then b (s+(a-d)) else b a := by
  induction n generalizing b with
  | zero => rw [backward, if_neg (by omega)]
  | succ n ih =>
    rw [backward, ← Nat.add_assoc, ← Nat.add_assoc, before_end (by omega), before_end (by omega)]
    have hrest := ih (update b (d+n) (b (s+n))) (by omega) (by omega)
    rw [Nat.mod_eq_of_lt (by omega), Nat.mod_eq_of_lt (by omega)] at hrest
    rw [hrest]
    by_cases ha : a = d+n
    · subst ha
      rw [if_neg (by omega), update_self, if_pos (by omega), Nat.add_sub_cancel_left]
    · by_cases hin : d ≤ a ∧ a < d+n
      · rw [if_pos hin, if_pos (by omega), update_of_ne (by omega)]
      · rw [if_neg hin, if_neg (by omega), update_of_ne ha]

theorem paste_slice_apply (b : Bytes) (a : ℕ) :
    paste b d (slice b s n) a = if d ≤ a ∧ a < d+n then b (s+(a-d)) else b a := by
  by_cases h : d ≤ a ∧ a < d+n
  · rw [paste_in h.1 (by rw [slice_length]; exact h.2), if_pos h, slice_getD (by omega)]
  · rw [paste_out (by rw [slice_length]; omega), if_neg h]

theorem memmove_eq (b : Bytes) (hd : d+n ≤ 2^32) (hs : s+n ≤ 2^32) :
    memmove d s n b = (d,paste b d (slice b s n)) := by
  unfold memmove
  split
  · rename_i h
    refine Prod.ext rfl (funext fun a => ?_)
    exact (backward_apply b hd hs h.1 a).trans (paste_slice_apply b a).symm
  · rename_i h
    refine Prod.ext rfl (funext fun a => ?_)
    exact (forward_apply b hd hs (by omega) a).trans (paste_slice_apply b a).symm

/-- However the two regions overlap, the destination gets the bytes the source
had, and nothing else changes. -/
theorem memmove_moves (b : Bytes) (dst src n : ℕ) (hd : dst+n ≤ 2^32) (hs : src+n ≤ 2^32) :
    (∀ i < n, (memmove dst src n b).2 (dst+i) = b (src+i)) ∧
    ∀ a, a < dst ∨ dst+n ≤ a → (memmove dst src n b).2 a = b a := by
  simp only [memmove_eq b hd hs, paste_slice_apply]
  refine ⟨fun i hi => ?_,fun a ha => ?_⟩
  · rw [if_pos (by omega), Nat.add_sub_cancel_left]
  · rw [if_neg (by omega)]

theorem memmove_moves_up_one :
    (∀ i < 3, (memmove 2 1 3 UInt8.ofNat).2 (2+i) = UInt8.ofNat (1+i)) ∧
    ∀ a, a < 2 ∨ 2+3 ≤ a → (memmove 2 1 3 UInt8.ofNat).2 a = UInt8.ofNat a :=
  memmove_moves UInt8.ofNat 2 1 3 (by decide) (by decide)

end Xv6.MemMove
