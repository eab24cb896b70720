import Mathlib.Data.List.GetD
import Mathlib.Tactic.NormNum

/-!
# Bytes at addresses

A store gives a byte at every address. `slice` reads a span of it and `paste`
writes one; numbers are kept with the low byte first.
-/

set_option autoImplicit false

namespace Xv6.ByteStore

abbrev Bytes := ℕ → UInt8

def slice (b : Bytes) (o n : ℕ) : List UInt8 := (List.range n).map (fun k => b (o+k))

def paste (b : Bytes) (o : ℕ) (l : List UInt8) : Bytes :=
  fun k => if o ≤ k ∧ k < o+l.length then l.getD (k-o) 0 else b k

def splice (l : List UInt8) (o : ℕ) (src : List UInt8) : List UInt8 :=
  l.take o++src++l.drop (o+src.length)

def leBytes : ℕ → ℕ → List UInt8
  | 0, _ => []
  | w+1, v => UInt8.ofNat v::leBytes w (v/256)

def leNumber : List UInt8 → ℕ
  | [] => 0
  | x::l => x.toNat+256*leNumber l

section Spans

variable {b c : Bytes} {o n k : ℕ} {l : List UInt8}

@[simp] theorem slice_length : (slice b o n).length = n := by simp [slice]

theorem slice_getD (hk : k < n) : (slice b o n).getD k 0 = b (o+k) := by
  simp [slice, List.getD_eq_getElem?_getD, hk]

theorem slice_congr (h : ∀ k, o ≤ k → k < o+n → b k = c k) : slice b o n = slice c o n := by
  apply List.map_congr_left
  intro k hk
  rw [List.mem_range] at hk
  exact h (o+k) (by omega) (by omega)

theorem paste_in (h : o ≤ k) (hk : k < o+l.length) : paste b o l k = l.getD (k-o) 0 :=
  if_pos ⟨h,hk⟩

theorem paste_out (h : k < o ∨ o+l.length ≤ k) : paste b o l k = b k :=
  if_neg (by omega)

theorem slice_eq (h : ∀ k < l.length, b (o+k) = l.getD k 0) : slice b o l.length = l := by
  apply List.ext_getElem (by simp)
  intro k _ hk
  have hb := h k hk
  rw [List.getD_eq_getElem _ _ hk] at hb
  simpa [slice] using hb

theorem slice_paste_self : slice (paste b o l) o l.length = l := by
  apply slice_eq
  intro k hk
  rw [paste_in (by omega) (by omega), Nat.add_sub_cancel_left]

theorem slice_paste_apart {p : ℕ} (h : p+n ≤ o ∨ o+l.length ≤ p) :
    slice (paste b o l) p n = slice b p n :=
  slice_congr (fun _ _ _ => paste_out (by omega))

variable {src : List UInt8}

theorem splice_length (h : o ≤ l.length) :
    (splice l o src).length = max l.length (o+src.length) := by
  simp only [splice, List.length_append, List.length_take, List.length_drop]
  omega

theorem splice_in (h : o ≤ l.length) (hk : o ≤ k) (hk' : k < o+src.length) :
    (splice l o src).getD k 0 = src.getD (k-o) 0 := by
  have hlen : (l.take o).length = o := by simp [h]
  rw [splice, List.append_assoc, List.getD_append_right _ _ _ _ (by omega), hlen,
    List.getD_append _ _ _ _ (by omega)]

theorem splice_out (h : o ≤ l.length) (hk : k < o ∨ o+src.length ≤ k) :
    (splice l o src).getD k 0 = l.getD k 0 := by
  have hlen : (l.take o).length = o := by simp [h]
  rw [splice, List.append_assoc]
  rcases hk with hk | hk
  · rw [List.getD_append _ _ _ _ (by omega), List.getD_eq_getElem?_getD,
      List.getElem?_take_of_lt hk, List.getD_eq_getElem?_getD]
  · rw [List.getD_append_right _ _ _ _ (by omega), hlen,
      List.getD_append_right _ _ _ _ (by omega), List.getD_eq_getElem?_getD, List.getElem?_drop,
      List.getD_eq_getElem?_getD]
    congr 2
    omega

/-- Lists are equal if they are as long and read the same. -/
theorem ext_getD {l l' : List UInt8} (hlen : l.length = l'.length)
    (h : ∀ k, k < l.length → l.getD k 0 = l'.getD k 0) : l = l' := by
  apply List.ext_getElem hlen
  intro k hk hk'
  have := h k hk
  rwa [List.getD_eq_getElem _ _ hk, List.getD_eq_getElem _ _ hk'] at this

end Spans

section Numbers

@[simp] theorem leBytes_length (w v : ℕ) : (leBytes w v).length = w := by
  induction w generalizing v with
  | zero => rfl
  | succ w ih => simp [leBytes, ih]

theorem leNumber_leBytes (w v : ℕ) : leNumber (leBytes w v) = v%256^w := by
  induction w generalizing v with
  | zero =>
    rw [pow_zero, Nat.mod_one]
    rfl
  | succ w ih =>
    rw [leBytes, leNumber, ih (v/256), UInt8.toNat_ofNat', pow_succ' 256, Nat.mod_mul (a := 256)]

end Numbers

section Words

def word (b : Bytes) (j : ℕ) : ℕ := leNumber (slice b (4*j) 4)

def setWord (b : Bytes) (j v : ℕ) : Bytes := paste b (4*j) (leBytes 4 v)

variable {b c : Bytes} {i j v : ℕ}

theorem word_setWord_self (hv : v < 2^32) : word (setWord b j v) j = v := by
  have hs : slice (paste b (4*j) (leBytes 4 v)) (4*j) 4 = leBytes 4 v := by
    have h := slice_paste_self (b := b) (o := 4*j) (l := leBytes 4 v)
    rwa [leBytes_length] at h
  rw [word, setWord, hs, leNumber_leBytes]
  exact Nat.mod_eq_of_lt (by norm_num at hv ⊢; omega)

theorem word_setWord_of_ne (h : i ≠ j) : word (setWord b j v) i = word b i := by
  rw [word, setWord, slice_paste_apart (by rw [leBytes_length]; omega), word]

@[simp] theorem word_zero (j : ℕ) : word (fun _ => 0) j = 0 := rfl

end Words

end Xv6.ByteStore
