import Mathlib.Algebra.GroupWithZero.Nat
import Mathlib.Algebra.Order.BigOperators.Group.List

/-!
# Blocks of memory, free and in use

A block is a start and a length. The free blocks ascend and no two of them
touch; the blocks in use are apart from each other and from the free ones; all
lie in the regions obtained so far, and together they are as long. Each step of
an allocator keeps this.
-/

set_option autoImplicit false

namespace Xv6.BlockTiling

structure Block where
  start : ℕ
  len : ℕ
  deriving DecidableEq, Repr

def Block.stop (b : Block) : ℕ := b.start+b.len

def Apart (b c : Block) : Prop := b.stop ≤ c.start ∨ c.stop ≤ b.start

def Before (b c : Block) : Prop := b.stop < c.start

def Within (R : List Block) (b : Block) : Prop :=
  ∀ x, b.start ≤ x → x < b.stop → ∃ r ∈ R, r.start ≤ x ∧ x < r.stop

def bytes (l : List Block) : ℕ := (l.map Block.len).sum

structure Tiling (free live R : List Block) : Prop where
  spaced : free.Pairwise Before
  apart : live.Pairwise Apart
  clear : ∀ b ∈ live, ∀ f ∈ free, Apart b f
  pos : ∀ b, b ∈ free ∨ b ∈ live → 0 < b.len
  within : ∀ b, b ∈ free ∨ b ∈ live → Within R b
  total : bytes free+bytes live = bytes R

variable {free live R F₁ F₂ : List Block} {b c m r : Block} {n : ℕ}

@[simp] theorem bytes_nil : bytes [] = 0 := rfl

@[simp] theorem bytes_cons : bytes (b::live) = b.len+bytes live := by simp [bytes]

@[simp] theorem bytes_append : bytes (F₁++F₂) = bytes F₁+bytes F₂ := by simp [bytes]

theorem Apart.symm (h : Apart b c) : Apart c b := Or.symm h

instance : Std.Symm Apart := ⟨fun _ _ => Apart.symm⟩

theorem tiling_nil : Tiling [] [] [] :=
  ⟨.nil,.nil,by simp,by simp,by simp,rfl⟩

theorem Within.mono {R' : List Block} (h : Within R b) (hR : ∀ r ∈ R, r ∈ R') : Within R' b := by
  intro x h1 h2
  obtain ⟨r,hr,hx⟩ := h x h1 h2
  exact ⟨r,hR r hr,hx⟩

/-- A block in use ends below every bound of the regions. -/
theorem Within.stop_le (h : Within R b) (hpos : 0 < b.len) (hR : ∀ r ∈ R, r.stop ≤ n) :
    b.stop ≤ n := by
  obtain ⟨r,hr,-,hlt⟩ := h (b.stop-1) (by simp only [Block.stop]; omega)
    (by simp only [Block.stop]; omega)
  have := hR r hr
  simp only [Block.stop] at *
  omega

theorem Within.le_start (h : Within R b) (hpos : 0 < b.len) (hR : ∀ r ∈ R, n ≤ r.start) :
    n ≤ b.start := by
  obtain ⟨r,hr,hle,-⟩ := h b.start le_rfl (by simp only [Block.stop]; omega)
  exact (hR r hr).trans hle

theorem Tiling.perm {live' : List Block} (h : Tiling free live R) (hp : live.Perm live') :
    Tiling free live' R := by
  refine ⟨h.spaced,(hp.pairwise_iff Apart.symm).mp h.apart,
    fun x hx => h.clear x (hp.mem_iff.mpr hx),fun x hx => h.pos x (hx.imp_right hp.mem_iff.mpr),
    fun x hx => h.within x (hx.imp_right hp.mem_iff.mpr),?_⟩
  rw [← h.total, bytes, bytes, bytes, (hp.map Block.len).sum_eq]

theorem Tiling.grow (h : Tiling free live R) (hpos : 0 < r.len) (hr : ∀ q ∈ R, q.stop ≤ r.start) :
    Tiling free (r::live) (r::R) := by
  have hbelow : ∀ x, x ∈ free ∨ x ∈ live → x.stop ≤ r.start :=
    fun x hx => (h.within x hx).stop_le (h.pos x hx) hr
  refine ⟨h.spaced,List.pairwise_cons.mpr ⟨fun x hx => .inr (hbelow x (.inr hx)),h.apart⟩,
    fun x hx f hf => ?_,fun x hx => ?_,fun x hx => ?_,?_⟩
  · rcases List.mem_cons.mp hx with rfl | hx
    · exact .inr (hbelow f (.inl hf))
    · exact h.clear x hx f hf
  · rcases hx with hx | hx
    · exact h.pos x (.inl hx)
    · rcases List.mem_cons.mp hx with rfl | hx
      · exact hpos
      · exact h.pos x (.inr hx)
  · have hold : ∀ x, x ∈ free ∨ x ∈ live → Within (r::R) x :=
      fun x hx => (h.within x hx).mono fun q hq => List.mem_cons_of_mem r hq
    rcases hx with hx | hx
    · exact hold x (.inl hx)
    · rcases List.mem_cons.mp hx with rfl | hx
      · exact fun y h1 h2 => ⟨x,List.mem_cons_self,h1,h2⟩
      · exact hold x (.inr hx)
  · have := h.total
    rw [bytes_cons, bytes_cons]
    omega

theorem Tiling.take (h : Tiling (F₁++c::F₂) live R) : Tiling (F₁++F₂) (c::live) R := by
  have hsub : ∀ f, f ∈ F₁++F₂ → f ∈ F₁++c::F₂ := by
    intro f hf
    simp only [List.mem_append, List.mem_cons] at hf ⊢
    tauto
  have hc : c ∈ F₁++c::F₂ := by simp
  have hspaced := List.pairwise_append.mp h.spaced
  obtain ⟨h1,h2,h₁₂⟩ := hspaced
  rw [List.pairwise_cons] at h2
  refine ⟨List.pairwise_append.mpr ⟨h1,h2.2,fun f hf g hg => h₁₂ f hf g (by simp [hg])⟩,
    List.pairwise_cons.mpr ⟨fun x hx => (h.clear x hx c hc).symm,h.apart⟩,fun x hx f hf => ?_,
    fun x hx => h.pos x ?_,fun x hx => h.within x ?_,?_⟩
  · rcases List.mem_cons.mp hx with rfl | hx
    · rcases List.mem_append.mp hf with hf | hf
      · exact .inr (h₁₂ f hf x List.mem_cons_self).le
      · exact .inl (h2.1 f hf).le
    · exact h.clear x hx f (hsub f hf)
  · rcases hx with hx | hx
    · exact .inl (hsub x hx)
    · rcases List.mem_cons.mp hx with rfl | hx
      · exact .inl hc
      · exact .inr hx
  · rcases hx with hx | hx
    · exact .inl (hsub x hx)
    · rcases List.mem_cons.mp hx with rfl | hx
      · exact .inl hc
      · exact .inr hx
  · have := h.total
    simp only [bytes_append, bytes_cons] at this ⊢
    omega

theorem Tiling.cut (h : Tiling free (c::live) R) (h0 : 0 < n) (hn : n < c.len) :
    Tiling free (⟨c.start,n⟩::⟨c.start+n,c.len-n⟩::live) R := by
  have hap := List.pairwise_cons.mp h.apart
  have hpart : ∀ x : Block, Apart c x → Apart ⟨c.start,n⟩ x ∧ Apart ⟨c.start+n,c.len-n⟩ x := by
    intro x hx
    simp only [Apart, Block.stop] at *
    omega
  refine ⟨h.spaced,?_,fun x hx f hf => ?_,fun x hx => ?_,fun x hx => ?_,?_⟩
  · refine List.pairwise_cons.mpr ⟨fun x hx => ?_,List.pairwise_cons.mpr
      ⟨fun x hx => (hpart x (hap.1 x hx)).2,hap.2⟩⟩
    rcases List.mem_cons.mp hx with rfl | hx
    · exact .inl le_rfl
    · exact (hpart x (hap.1 x hx)).1
  · have hcf := hpart f (h.clear c List.mem_cons_self f hf)
    rcases List.mem_cons.mp hx with rfl | hx
    · exact hcf.1
    · rcases List.mem_cons.mp hx with rfl | hx
      · exact hcf.2
      · exact h.clear x (List.mem_cons_of_mem c hx) f hf
  · rcases hx with hx | hx
    · exact h.pos x (.inl hx)
    · rcases List.mem_cons.mp hx with rfl | hx
      · exact h0
      · rcases List.mem_cons.mp hx with rfl | hx
        · exact Nat.sub_pos_of_lt hn
        · exact h.pos x (.inr (List.mem_cons_of_mem c hx))
  · have hw := h.within c (.inr List.mem_cons_self)
    rcases hx with hx | hx
    · exact h.within x (.inl hx)
    · rcases List.mem_cons.mp hx with rfl | hx
      · intro y h1 h2
        exact hw y h1 (by simp only [Block.stop] at *; omega)
      · rcases List.mem_cons.mp hx with rfl | hx
        · intro y h1 h2
          simp only [Block.stop] at h1 h2
          exact hw y (by omega) (by simp only [Block.stop]; omega)
        · exact h.within x (.inr (List.mem_cons_of_mem c hx))
  · have := h.total
    simp only [bytes_cons] at this ⊢
    omega

theorem Tiling.join (h : Tiling free (b::c::live) R) (ht : b.stop = c.start) :
    Tiling free (⟨b.start,b.len+c.len⟩::live) R := by
  have hb := h.pos b (.inr List.mem_cons_self)
  have hap := List.pairwise_cons.mp h.apart
  have hap' := List.pairwise_cons.mp hap.2
  have hboth : ∀ x : Block, 0 < x.len → Apart b x → Apart c x → Apart ⟨b.start,b.len+c.len⟩ x := by
    intro x h1 h2 h3
    simp only [Apart, Block.stop] at *
    omega
  refine ⟨h.spaced,List.pairwise_cons.mpr ⟨fun x hx => ?_,hap'.2⟩,fun x hx f hf => ?_,
    fun x hx => ?_,fun x hx => ?_,?_⟩
  · exact hboth x (h.pos x (.inr (by simp [hx]))) (hap.1 x (by simp [hx])) (hap'.1 x hx)
  · rcases List.mem_cons.mp hx with rfl | hx
    · exact hboth f (h.pos f (.inl hf)) (h.clear b (by simp) f hf) (h.clear c (by simp) f hf)
    · exact h.clear x (by simp [hx]) f hf
  · rcases hx with hx | hx
    · exact h.pos x (.inl hx)
    · rcases List.mem_cons.mp hx with rfl | hx
      · exact Nat.add_pos_left hb _
      · exact h.pos x (.inr (by simp [hx]))
  · rcases hx with hx | hx
    · exact h.within x (.inl hx)
    · rcases List.mem_cons.mp hx with rfl | hx
      · intro y h1 h2
        simp only [Block.stop] at h1 h2 ht
        by_cases hy : y < b.start+b.len
        · exact h.within b (.inr (by simp)) y h1 hy
        · exact h.within c (.inr (by simp)) y (by omega) (by simp only [Block.stop]; omega)
      · exact h.within x (.inr (by simp [hx]))
  · have := h.total
    simp only [bytes_cons] at this ⊢
    omega

theorem Tiling.put (h : Tiling (F₁++F₂) (b::live) R) (h1 : ∀ f ∈ F₁, Before f b)
    (h2 : ∀ f ∈ F₂, Before b f) : Tiling (F₁++b::F₂) live R := by
  have hsub : ∀ f, f ∈ F₁++b::F₂ → f = b ∨ f ∈ F₁++F₂ := by
    intro f hf
    simp only [List.mem_append, List.mem_cons] at hf ⊢
    tauto
  obtain ⟨p1,p2,p₁₂⟩ := List.pairwise_append.mp h.spaced
  have hap := List.pairwise_cons.mp h.apart
  refine ⟨List.pairwise_append.mpr ⟨p1,List.pairwise_cons.mpr ⟨h2,p2⟩,fun f hf g hg => ?_⟩,hap.2,
    fun x hx f hf => ?_,fun x hx => h.pos x ?_,fun x hx => h.within x ?_,?_⟩
  · rcases List.mem_cons.mp hg with rfl | hg
    · exact h1 f hf
    · exact p₁₂ f hf g hg
  · rcases hsub f hf with rfl | hf
    · exact (hap.1 x hx).symm
    · exact h.clear x (by simp [hx]) f hf
  · rcases hx with hx | hx
    · rcases hsub x hx with rfl | hx
      · exact .inr List.mem_cons_self
      · exact .inl hx
    · exact .inr (List.mem_cons_of_mem b hx)
  · rcases hx with hx | hx
    · rcases hsub x hx with rfl | hx
      · exact .inr List.mem_cons_self
      · exact .inl hx
    · exact .inr (List.mem_cons_of_mem b hx)
  · have := h.total
    simp only [bytes_append, bytes_cons] at this ⊢
    omega

/-- Between blocks that do not touch each other a byte is missing. -/
theorem bytes_spaced {a : ℕ} (hs : free.Pairwise Before)
    (hb : ∀ f ∈ free, a ≤ f.start ∧ f.stop ≤ n) (hne : free ≠ []) :
    a+bytes free+free.length ≤ n+1 := by
  induction free generalizing a with
  | nil => exact absurd rfl hne
  | cons f F ih =>
    have hf := hb f List.mem_cons_self
    rw [List.pairwise_cons] at hs
    rw [bytes_cons, List.length_cons]
    simp only [Block.stop] at hf
    cases F with
    | nil =>
      rw [bytes_nil, List.length_nil]
      omega
    | cons g G =>
      have hrest := ih hs.2 (a := f.stop+1)
        (fun x hx => ⟨hs.1 x hx,(hb x (List.mem_cons_of_mem f hx)).2⟩) (by simp)
      simp only [Block.stop] at hrest
      omega

/-- With nothing in use an interval of memory is one free block. -/
theorem Tiling.whole {a : ℕ} (h : Tiling free [] R)
    (hR : ∀ r ∈ R, a ≤ r.start ∧ r.stop ≤ a+bytes R) (hpos : 0 < bytes R) :
    free = [⟨a,bytes R⟩] := by
  have htotal : bytes free = bytes R := h.total
  have hb : ∀ f ∈ free, a ≤ f.start ∧ f.stop ≤ a+bytes R := fun f hf =>
    ⟨(h.within f (.inl hf)).le_start (h.pos f (.inl hf)) fun r hr => (hR r hr).1,
      (h.within f (.inl hf)).stop_le (h.pos f (.inl hf)) fun r hr => (hR r hr).2⟩
  have hne : free ≠ [] := by
    rintro rfl
    rw [bytes_nil] at htotal
    omega
  have hlen := bytes_spaced h.spaced hb hne
  obtain ⟨f,rfl⟩ := List.length_eq_one_iff.mp
    (show free.length = 1 by have := List.length_pos_of_ne_nil hne; omega)
  have hf := hb f List.mem_cons_self
  simp only [bytes_cons, bytes_nil, Block.stop] at htotal hf
  rw [← htotal]
  congr 1
  obtain ⟨x,k⟩ := f
  simp only [Block.mk.injEq] at *
  omega

end Xv6.BlockTiling
