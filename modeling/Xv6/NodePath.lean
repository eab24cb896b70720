import Mathlib.Data.List.Nodup

/-!
# Paths along a pointer

Nodes linked by one pointer field. `Path next x l y` says that the pointers lead
from `x` through the nodes of `l`, in this order, to `y`; with `y = x` the nodes
form a ring.
-/

set_option autoImplicit false

namespace Xv6.NodePath

variable {N : Type*}

def Path (next : N → N) : N → List N → N → Prop
  | x, [], y => next x = y
  | x, a::l, y => next x = a ∧ Path next a l y

def final : N → List N → N
  | x, [] => x
  | _, a::l => final a l

def walk (next : N → N) (test : N → Prop) [DecidablePred test] : ℕ → N → Option N
  | 0, _ => none
  | k+1, x => if test x then some x else walk next test k (next x)

variable {next next' : N → N} {x x' y z a : N} {l m : List N}

@[simp] theorem path_nil : Path next x [] y ↔ next x = y := Iff.rfl

@[simp] theorem path_cons : Path next x (a::l) y ↔ next x = a ∧ Path next a l y := Iff.rfl

@[simp] theorem final_nil : final x [] = x := rfl

@[simp] theorem final_cons : final x (a::l) = final a l := rfl

@[simp] theorem final_concat : final x (l++[a]) = a := by
  induction l generalizing x with
  | nil => rfl
  | cons b l ih => exact ih

theorem final_mem : final x l = x ∨ final x l ∈ l := by
  induction l generalizing x with
  | nil => exact .inl rfl
  | cons b l ih =>
    rw [final_cons, List.mem_cons]
    exact .inr ih

theorem path_append : Path next x (l++a::m) y ↔ Path next x l a ∧ Path next a m y := by
  induction l generalizing x with
  | nil => rfl
  | cons b l ih => rw [List.cons_append, path_cons, path_cons, ih, and_assoc]

/-- A ring may be entered at any of its nodes. -/
theorem path_rotate (h : Path next x (l++a::m) x) : Path next a (m++x::l) a := by
  rw [path_append] at h ⊢
  exact ⟨h.2,h.1⟩

theorem path_congr (h₀ : next' x' = next x) (h : ∀ z ∈ l, next' z = next z)
    (hp : Path next x l y) : Path next' x' l y := by
  induction l generalizing x x' with
  | nil => exact h₀.trans hp
  | cons b l ih =>
    refine ⟨h₀.trans hp.1,ih ?_ (fun z hz => h z ?_) hp.2⟩
    · exact h b List.mem_cons_self
    · exact List.mem_cons_of_mem b hz

theorem path_tail (h : Path next x (l++m) y) : Path next (final x l) m y := by
  induction l generalizing x with
  | nil => exact h
  | cons b l ih => exact ih h.2

theorem path_final (h : Path next x l y) : next (final x l) = y := by
  rw [← List.append_nil l] at h
  exact path_tail h

theorem path_replace {m' : List N} {y' : N} (hnd : (x::l).Nodup) (h : Path next x (l++m) y)
    (hsame : ∀ z, z = x ∨ z ∈ l → z ≠ final x l → next' z = next z)
    (hm : Path next' (final x l) m' y') : Path next' x (l++m') y' := by
  induction l generalizing x with
  | nil => exact hm
  | cons b l ih =>
    have hnd' := List.nodup_cons.mp hnd
    have hx : x ≠ final b l := by
      rintro rfl
      rcases final_mem with hf | hf
      · exact hnd'.1 (hf ▸ List.mem_cons_self)
      · exact hnd'.1 (List.mem_cons_of_mem b hf)
    refine ⟨(hsame x (.inl rfl) hx).trans h.1,ih hnd'.2 h.2 (fun z hz => hsame z (.inr ?_)) hm⟩
    exact List.mem_cons.mpr hz

theorem path_map : Path next x l y ↔ (x::l).map next = l++[y] := by
  induction l generalizing x with
  | nil => simp
  | cons b l ih =>
    rw [path_cons, ih, List.map_cons (l := b::l), List.cons_append, List.cons_eq_cons]

theorem path_injective (hnd : (x::l).Nodup) (h : Path next x l x) {u v : N} (hu : u ∈ x::l)
    (hv : v ∈ x::l) (he : next u = next v) : u = v := by
  refine List.inj_on_of_nodup_map ?_ hu hv he
  rw [path_map.mp h]
  exact ((List.perm_append_singleton x l).nodup_iff).mpr hnd

theorem walk_path {test : N → Prop} [DecidablePred test] (hp : Path next x l y)
    (hz : z ∈ x::l) (ht : test z) :
    ∃ q ∈ x::l, test q ∧ ∀ k, l.length < k → walk next test k x = some q := by
  induction l generalizing x with
  | nil =>
    obtain rfl := List.mem_singleton.mp hz
    refine ⟨z,hz,ht,fun k hk => ?_⟩
    obtain ⟨k,rfl⟩ : ∃ i, k = i+1 := ⟨k-1,by omega⟩
    rw [walk, if_pos ht]
  | cons b l ih =>
    by_cases hx : test x
    · refine ⟨x,List.mem_cons_self,hx,fun k hk => ?_⟩
      obtain ⟨k,rfl⟩ : ∃ i, k = i+1 := ⟨k-1,by omega⟩
      rw [walk, if_pos hx]
    · have hz' : z ∈ b::l := by
        rcases List.mem_cons.mp hz with rfl | hz
        · exact absurd ht hx
        · exact hz
      obtain ⟨q,hq,htq,hw⟩ := ih hp.2 hz'
      refine ⟨q,List.mem_cons_of_mem x hq,htq,fun k hk => ?_⟩
      rw [List.length_cons] at hk
      obtain ⟨k,rfl⟩ : ∃ i, k = i+1 := ⟨k-1,by omega⟩
      rw [walk, if_neg hx, hp.1, hw k (by omega)]

theorem walk_ring (test : N → Prop) [DecidablePred test] (hp : Path next x l x) {f : N}
    (hf : f ∈ x::l) (hz : z ∈ x::l) (ht : test z) :
    ∃ q ∈ x::l, test q ∧ ∀ k, l.length < k → walk next test k f = some q := by
  rcases List.mem_cons.mp hf with rfl | hf
  · exact walk_path hp hz ht
  · obtain ⟨l1,l2,rfl⟩ := List.append_of_mem hf
    have hperm : ∀ w, w ∈ f::(l2++x::l1) ↔ w ∈ x::(l1++f::l2) := by
      intro w
      simp only [List.mem_cons, List.mem_append]
      tauto
    obtain ⟨q,hq,htq,hw⟩ := walk_path (path_rotate hp) ((hperm z).mpr hz) ht
    refine ⟨q,(hperm q).mp hq,htq,fun k hk => hw k ?_⟩
    simp only [List.length_append, List.length_cons] at hk ⊢
    omega

end Xv6.NodePath
