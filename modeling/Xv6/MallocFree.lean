import Xv6.Malloc

/-!
# Putting a block back

The free blocks lie on a ring in the order of their addresses, with the static
header `base` below all of them. The loop of `free` stops at the last of them
below the block, wherever `freep` points, and the two joins leave a ring in
which no two blocks touch.
-/

set_option autoImplicit false

namespace Xv6.Malloc
open Function NodePath BlockTiling

def starts (l : List Block) : List ℕ := l.map Block.start

structure Ring (base : ℕ) (h : Heap) (F live : List Block) : Prop where
  ring : Path h.ptr base (starts F) base
  sizes : ∀ b, b ∈ F ∨ b ∈ live → 8*h.size b.start = b.len
  low : h.size base = 0
  freep : h.freep ∈ base::starts F

structure Room (base : ℕ) (F : List Block) (b : Block) : Prop where
  above : ∀ f, f ∈ F ∨ f = b → base+8 ≤ f.start
  below : ∀ f ∈ F, f.stop < 2^32
  first : b.start+8 < 2^32
  last : b.stop < 2^34
  wrap : ∀ z ∈ base::starts F, b.stop%2^32 = z → b.stop = z

@[simp] theorem starts_nil : starts [] = [] := rfl

@[simp] theorem starts_cons (b : Block) (l : List Block) : starts (b::l) = b.start::starts l := rfl

@[simp] theorem starts_append (l m : List Block) : starts (l++m) = starts l++starts m :=
  List.map_append

theorem mem_starts {l : List Block} {x : ℕ} : x ∈ starts l ↔ ∃ f ∈ l, f.start = x := List.mem_map

variable {base : ℕ} {h : Heap} {F live R F₁ F₂ : List Block} {b c : Block}

theorem apart_start (hap : Apart b c) (hb : 0 < b.len) (hc : 0 < c.len) : b.start ≠ c.start := by
  simp only [Apart, Block.stop] at hap
  omega

section Place

theorem spaced_start (hs : F.Pairwise Before) : F.Pairwise fun f g => f.start < g.start := by
  refine hs.imp fun {f g} hfg => ?_
  simp only [Before, Block.stop] at hfg
  omega

theorem starts_nodup (ht : Tiling F live R) (hbase : ∀ f ∈ F, base < f.start) :
    (base::starts F).Nodup := by
  refine List.nodup_cons.mpr ⟨fun hm => ?_,?_⟩
  · obtain ⟨f,hf,he⟩ := mem_starts.mp hm
    exact absurd (hbase f hf) (by omega)
  · exact List.Pairwise.map _ (fun _ _ hlt => Nat.ne_of_lt hlt) (spaced_start ht.spaced)

/-- A node of the ring splits the list behind it. -/
theorem split_at_node {q : ℕ} (hq : q ∈ base::starts F) :
    ∃ F₁ F₂, F = F₁++F₂ ∧ q = final base (starts F₁) := by
  rcases List.mem_cons.mp hq with rfl | hq
  · exact ⟨[],F,rfl,rfl⟩
  · obtain ⟨f,hf,rfl⟩ := mem_starts.mp hq
    obtain ⟨A,B,rfl⟩ := List.append_of_mem hf
    exact ⟨A++[f],B,by simp,by simp⟩

theorem final_le (hs : F.Pairwise Before) (hbase : ∀ f ∈ F, base < f.start) :
    base ≤ final base (starts F) ∧ ∀ f ∈ F, f.start ≤ final base (starts F) := by
  rcases List.eq_nil_or_concat F with rfl | ⟨A,a,rfl⟩
  · simp
  · rw [List.concat_eq_append] at hs hbase ⊢
    rw [starts_append, starts_cons, starts_nil, final_concat]
    refine ⟨(hbase a (by simp)).le,fun f hf => ?_⟩
    rcases List.mem_append.mp hf with hf | hf
    · have := (List.pairwise_append.mp (spaced_start hs)).2.2 f hf a (by simp)
      exact this.le
    · rw [List.mem_singleton.mp hf]

theorem final_lt {n : ℕ} (hbase : base < n) (hlow : ∀ f ∈ F₁, f.start < n) :
    final base (starts F₁) < n := by
  rcases final_mem (x := base) (l := starts F₁) with he | hm
  · rw [he]
    exact hbase
  · obtain ⟨f,hf,he⟩ := mem_starts.mp hm
    rw [← he]
    exact hlow f hf

theorem slot_split (hs : F.Pairwise Before) (hring : Path h.ptr base (starts F) base)
    (hbase : ∀ f, f ∈ F ∨ f = b → base < f.start) {q : ℕ} (hq : q ∈ base::starts F)
    (hslot : Slot h b.start q) : ∃ F₁ F₂, F = F₁++F₂ ∧ q = final base (starts F₁) ∧
      (∀ f ∈ F₁, f.start < b.start) ∧ ∀ f ∈ F₂, b.start < f.start := by
  obtain ⟨F₁,F₂,rfl,rfl⟩ := split_at_node hq
  rw [starts_append] at hring
  have hnext := path_tail hring
  have hb := hbase b (.inr rfl)
  obtain ⟨hs1,hs2,-⟩ := List.pairwise_append.mp hs
  have hle := final_le hs1 fun f hf => hbase f (.inl (List.mem_append_left _ hf))
  refine ⟨F₁,F₂,rfl,rfl,?_⟩
  cases F₂ with
  | nil =>
    rw [starts_nil, path_nil] at hnext
    rw [Slot, hnext] at hslot
    refine ⟨fun f hf => ?_,by simp⟩
    have := hle.2 f hf
    omega
  | cons g G =>
    have hg : h.ptr (final base (starts F₁)) = g.start := hnext.1
    have hlt : final base (starts F₁) < g.start := by
      refine final_lt (hbase g (.inl (by simp))) fun f hf => ?_
      exact (List.pairwise_append.mp (spaced_start hs)).2.2 f hf g (by simp)
    rw [Slot, hg] at hslot
    refine ⟨fun f hf => ?_,fun f hf => ?_⟩
    · have := hle.2 f hf
      omega
    · rcases List.mem_cons.mp hf with rfl | hf
      · omega
      · have := (List.pairwise_cons.mp (spaced_start hs2)).1 f hf
        omega

theorem exists_split (hs : F.Pairwise Before) (hne : ∀ f ∈ F, f.start ≠ b.start) :
    ∃ F₁ F₂, F = F₁++F₂ ∧ (∀ f ∈ F₁, f.start < b.start) ∧ ∀ f ∈ F₂, b.start < f.start := by
  induction F with
  | nil => exact ⟨[],[],rfl,by simp,by simp⟩
  | cons f F ih =>
    by_cases hlt : f.start < b.start
    · obtain ⟨F₁,F₂,rfl,h1,h2⟩ := ih (List.pairwise_cons.mp hs).2 fun g hg => hne g (by simp [hg])
      exact ⟨f::F₁,F₂,rfl,by simpa using ⟨hlt,h1⟩,h2⟩
    · have hgt : b.start < f.start := by
        have := hne f List.mem_cons_self
        omega
      refine ⟨[],f::F,rfl,by simp,fun g hg => ?_⟩
      rcases List.mem_cons.mp hg with rfl | hg
      · exact hgt
      · exact hgt.trans ((List.pairwise_cons.mp (spaced_start hs)).1 g hg)

theorem slot_exists (hs : F.Pairwise Before) (hring : Path h.ptr base (starts F) base)
    (hbase : ∀ f, f ∈ F ∨ f = b → base < f.start) (hne : ∀ f ∈ F, f.start ≠ b.start) :
    ∃ q ∈ base::starts F, Slot h b.start q := by
  obtain ⟨F₁,F₂,rfl,h1,h2⟩ := exists_split hs hne
  refine ⟨final base (starts F₁),?_,?_⟩
  · rw [List.mem_cons, starts_append, List.mem_append]
    exact final_mem.imp_right .inl
  · rw [starts_append] at hring
    have hnext := path_tail hring
    have hlt := final_lt (hbase b (.inr rfl)) h1
    cases F₂ with
    | nil =>
      rw [starts_nil, path_nil] at hnext
      have hle := (final_le (List.pairwise_append.mp hs).1
        fun f hf => hbase f (.inl (List.mem_append_left _ hf))).1
      exact .inr ⟨hnext.trans_le hle,.inl hlt⟩
    | cons g G => exact .inl ⟨hlt,hnext.1 ▸ h2 g List.mem_cons_self⟩

end Place

section Joins

structure Lifted (base : ℕ) (h : Heap) (F₁ F₂ live R : List Block) (b b' : Block)
    (above : List Block) : Prop where
  start : b'.start = b.start
  stop : b.stop ≤ b'.stop
  last : b'.stop < 2^34
  tiling : Tiling (F₁++above) (b'::live) R
  old : ∀ f ∈ above, f ∈ F₂
  clear : ∀ f ∈ above, Before b' f
  chain : Path h.ptr b.start (starts above) base
  ring : Path h.ptr base (starts F₁++starts F₂) base
  sizes : ∀ c, c ∈ F₁++above ∨ c ∈ b'::live → 8*h.size c.start = c.len
  low : h.size base = 0

theorem plus_block (hs : 8*h.size b.start = b.len) :
    plus b.start (h.size b.start) = b.stop%2^32 := by
  rw [plus, hs, Block.stop]

/-- Blocks of a tiling have different starts. -/
theorem live_start_ne (ht : Tiling F (b::live) R) (hc : c ∈ F ∨ c ∈ live) : c.start ≠ b.start := by
  have hb := ht.pos b (.inr List.mem_cons_self)
  rcases hc with hc | hc
  · exact (apart_start (ht.clear b List.mem_cons_self c hc) hb (ht.pos c (.inl hc))).symm
  · exact (apart_start ((List.pairwise_cons.mp ht.apart).1 c hc) hb
      (ht.pos c (.inr (List.mem_cons_of_mem b hc)))).symm

theorem mem_starts_ne (ht : Tiling F (b::live) R) {z : ℕ} (hz : z ∈ starts F) : z ≠ b.start := by
  obtain ⟨f,hf,rfl⟩ := mem_starts.mp hz
  exact live_start_ne ht (.inl hf)

theorem lifted_alone (ht : Tiling (F₁++F₂) (b::live) R) (hr : Ring base h (F₁++F₂) (b::live))
    (hroom : Room base (F₁++F₂) b) (habove : ∀ f ∈ F₂, Before b f) :
    Lifted base (h.setPtr b.start (h.ptr (final base (starts F₁)))) F₁ F₂ live R b b F₂ := by
  have hring := hr.ring
  rw [starts_append] at hring
  have hne : ∀ z ∈ starts F₁++starts F₂, z ≠ b.start := by
    intro z hz
    rw [← starts_append] at hz
    exact mem_starts_ne ht hz
  have hbase : base ≠ b.start := by
    have := hroom.above b (.inr rfl)
    omega
  refine ⟨rfl,le_rfl,hroom.last,ht,fun _ hf => hf,habove,?_,?_,hr.sizes,hr.low⟩
  · refine path_congr (update_self ..) (fun z hz => ?_) (path_tail hring)
    exact update_of_ne (hne z (List.mem_append_right _ hz)) ..
  · exact path_congr (update_of_ne hbase ..) (fun z hz => update_of_ne (hne z hz) ..) hring

theorem lifted_joined (ht : Tiling (F₁++c::F₂) (b::live) R)
    (hr : Ring base h (F₁++c::F₂) (b::live)) (hroom : Room base (F₁++c::F₂) b)
    (htouch : b.stop = c.start) :
    Lifted base ((h.setSize b.start ((h.size b.start+h.size c.start)%2^32)).setPtr b.start
      (h.ptr c.start)) F₁ (c::F₂) live R b ⟨b.start,b.len+c.len⟩ F₂ := by
  have hring := hr.ring
  rw [starts_append, starts_cons] at hring
  have hne : ∀ z ∈ starts F₁++c.start::starts F₂, z ≠ b.start := by
    intro z hz
    rw [← starts_cons, ← starts_append] at hz
    exact mem_starts_ne ht hz
  have hbase : base ≠ b.start := by
    have := hroom.above b (.inr rfl)
    omega
  have hcstop := hroom.below c (by simp)
  have hsb := hr.sizes b (.inr List.mem_cons_self)
  have hsc := hr.sizes c (.inl (by simp))
  have htake : Tiling (F₁++F₂) (b::c::live) R := ht.take.perm (List.Perm.swap b c live)
  simp only [Block.stop] at hcstop htouch
  refine ⟨rfl,?_,?_,htake.join htouch,fun _ => List.mem_cons_of_mem c,?_,?_,?_,?_,?_⟩
  · simp only [Block.stop]
    omega
  · simp only [Block.stop]
    omega
  · intro f hf
    have hcf := (List.pairwise_cons.mp (List.pairwise_append.mp ht.spaced).2.1).1 f hf
    simp only [Before, Block.stop] at hcf ⊢
    omega
  · refine path_congr (update_self ..) (fun z hz => ?_) (path_append.mp hring).2
    exact update_of_ne (hne z (by simp [hz])) ..
  · exact path_congr (update_of_ne hbase ..) (fun z hz => update_of_ne (hne z hz) ..) hring
  · intro x hx
    show 8*update h.size b.start _ x.start = x.len
    by_cases hxb : x = ⟨b.start,b.len+c.len⟩
    · subst hxb
      rw [update_self]
      show _ = b.len+c.len
      omega
    · have hx' : x ∈ F₁++c::F₂ ∨ x ∈ live := by
        simp only [List.mem_append, List.mem_cons] at hx ⊢
        tauto
      rw [update_of_ne (live_start_ne ht hx')]
      exact hr.sizes x (hx'.imp_right (List.mem_cons_of_mem b))
  · exact (update_of_ne hbase ..).trans hr.low

theorem joinUp_spec (ht : Tiling (F₁++F₂) (b::live) R) (hr : Ring base h (F₁++F₂) (b::live))
    (hroom : Room base (F₁++F₂) b) (habove : ∀ f ∈ F₂, b.stop ≤ f.start) :
    ∃ b' above,
      Lifted base (joinUp b.start (final base (starts F₁)) h) F₁ F₂ live R b b' above := by
  have hring := hr.ring
  rw [starts_append] at hring
  have hnext := path_tail hring
  have hplus := plus_block (hr.sizes b (.inr List.mem_cons_self))
  cases F₂ with
  | nil =>
    have hno : ¬plus b.start (h.size b.start) = h.ptr (final base (starts F₁)) := by
      rw [starts_nil, path_nil] at hnext
      rw [hplus, hnext]
      intro he
      have hstop := hroom.wrap base List.mem_cons_self he
      have hlow := hroom.above b (.inr rfl)
      simp only [Block.stop] at hstop
      omega
    rw [joinUp, if_neg hno]
    exact ⟨b,[],lifted_alone ht hr hroom (by simp)⟩
  | cons c G =>
    have hc : h.ptr (final base (starts F₁)) = c.start := hnext.1
    rw [joinUp, hplus, hc]
    have hcstop := hroom.below c (by simp)
    by_cases htouch : b.stop = c.start
    · rw [if_pos (by rw [htouch]; simp only [Block.stop] at hcstop; omega)]
      exact ⟨_,G,lifted_joined ht hr hroom htouch⟩
    · rw [if_neg fun he => htouch (hroom.wrap c.start (by simp) he), ← hc]
      refine ⟨b,c::G,lifted_alone ht hr hroom fun f hf => ?_⟩
      have hbc := habove c List.mem_cons_self
      rcases List.mem_cons.mp hf with rfl | hf
      · exact lt_of_le_of_ne hbc htouch
      · have hcf := (List.pairwise_cons.mp (List.pairwise_append.mp ht.spaced).2.1).1 f hf
        simp only [Before, Block.stop] at hcf hbc ⊢
        omega

variable {above : List Block} {b' : Block}

structure Settled (base p : ℕ) (h : Heap) (old live R : List Block) (b : Block)
    (F : List Block) : Prop where
  tiling : Tiling F live R
  ring : Path h.ptr base (starts F) base
  sizes : ∀ c, c ∈ F ∨ c ∈ live → 8*h.size c.start = c.len
  low : h.size base = 0
  node : p ∈ base::starts F
  holds : ∃ c ∈ F, c.start ≤ b.start ∧ b.stop ≤ c.stop
  nodes : ∀ f ∈ F, f.start = b.start ∨ f.start ∈ starts old

section
variable (hl : Lifted base h F₁ F₂ live R b b' above)
include hl

theorem Lifted.above_mem {f : Block} (hf : f ∈ F₁ ∨ f ∈ above) : f.start ∈ starts (F₁++F₂) :=
  mem_starts.mpr ⟨f,List.mem_append.mpr (hf.imp_right (hl.old f)),rfl⟩

theorem Lifted.above_ne (hbase : base < b.start) (hlow : ∀ f ∈ F₁, f.start < b.start) {z : ℕ}
    (hz : z = b.start ∨ z ∈ starts above) : z ≠ final base (starts F₁) := by
  have hlt := final_lt hbase hlow
  rcases hz with rfl | hz
  · omega
  · obtain ⟨f,hf,rfl⟩ := mem_starts.mp hz
    have hclear := hl.clear f hf
    have hstart := hl.start
    simp only [Before, Block.stop] at hclear
    omega

theorem settled_apart (hbase : base < b.start) (hlow : ∀ f ∈ F₁, f.start < b.start)
    (hnd : (base::starts F₁).Nodup) (hbefore : ∀ f ∈ F₁, Before f b') :
    Settled base (final base (starts F₁)) (h.setPtr (final base (starts F₁)) b.start) (F₁++F₂)
      live R b (F₁++b'::above) := by
  refine ⟨hl.tiling.put hbefore hl.clear,?_,fun x hx => hl.sizes x ?_,hl.low,?_,
    ⟨b',by simp,hl.start.le,hl.stop⟩,fun f hf => ?_⟩
  · rw [starts_append, starts_cons, hl.start]
    refine path_replace hnd hl.ring (fun z _ hz => update_of_ne hz ..) ⟨update_self ..,?_⟩
    refine path_congr ?_ (fun z hz => ?_) hl.chain
    · exact update_of_ne (hl.above_ne hbase hlow (.inl rfl)) ..
    · exact update_of_ne (hl.above_ne hbase hlow (.inr hz)) ..
  · simp only [List.mem_append, List.mem_cons] at hx ⊢
    tauto
  · rw [List.mem_cons, starts_append, List.mem_append]
    exact final_mem.imp_right .inl
  · rw [List.mem_append, List.mem_cons] at hf
    rcases hf with hf | rfl | hf
    · exact .inr (hl.above_mem (.inl hf))
    · exact .inl hl.start
    · exact .inr (hl.above_mem (.inr hf))

end

theorem settled_joined {A : List Block} {a : Block}
    (hl : Lifted base h (A++[a]) F₂ live R b b' above) (hbase : base < a.start)
    (hlow : ∀ f ∈ A++[a], f.start < b.start) (hnd : (base::starts (A++[a])).Nodup)
    (htouch : a.stop = b.start) :
    Settled base a.start ((h.setSize a.start ((h.size a.start+h.size b.start)%2^32)).setPtr a.start
      (h.ptr b.start)) (A++[a]++F₂) live R b (A++⟨a.start,a.len+b'.len⟩::above) := by
  have hsa := hl.sizes a (.inl (by simp))
  have hsb := hl.sizes b' (.inr List.mem_cons_self)
  have hlast := hl.last
  have hstop := hl.stop
  have hstart := hl.start
  have htile := hl.tiling
  rw [List.append_assoc, List.singleton_append] at htile
  have htake := htile.take
  rw [hstart] at hsb
  have hfinal : final base (starts (A++[a])) = a.start := by simp
  simp only [Block.stop] at hlast hstop htouch
  refine ⟨(htake.join (by rw [hstart]; exact htouch)).put ?_ ?_,?_,?_,?_,by simp,
    ⟨⟨a.start,a.len+b'.len⟩,by simp,?_⟩,fun f hf => .inr ?_⟩
  · intro f hf
    exact (List.pairwise_append.mp htile.spaced).2.2 f hf a List.mem_cons_self
  · intro f hf
    have hclear := hl.clear f hf
    simp only [Before, Block.stop] at hclear ⊢
    omega
  · have hpath : Path (update h.ptr a.start (h.ptr b.start)) base (starts (A++[a])++starts above)
        base := by
      refine path_replace hnd hl.ring (fun z _ hz => update_of_ne (hfinal ▸ hz) ..) ?_
      refine path_congr (by rw [hfinal, update_self]) (fun z hz => ?_) hl.chain
      have hne := hl.above_ne (by omega) hlow (.inr hz)
      exact update_of_ne (hfinal ▸ hne) ..
    simpa using hpath
  · intro x hx
    show 8*update h.size a.start _ x.start = x.len
    by_cases hxm : x = ⟨a.start,a.len+b'.len⟩
    · subst hxm
      rw [update_self]
      show _ = a.len+b'.len
      omega
    · have hx' : x ∈ A++above ∨ x ∈ live := by
        simp only [List.mem_append, List.mem_cons] at hx ⊢
        tauto
      rw [update_of_ne (live_start_ne htake (hx'.imp_right (List.mem_cons_of_mem b')))]
      refine hl.sizes x ?_
      simp only [List.mem_append, List.mem_cons] at hx' ⊢
      tauto
  · exact (update_of_ne (by omega) ..).trans hl.low
  · simp only [Block.stop]
    omega
  · rw [List.mem_append, List.mem_cons] at hf
    rcases hf with hf | rfl | hf
    · exact hl.above_mem (.inl (by simp [hf]))
    · exact mem_starts.mpr ⟨a,by simp,rfl⟩
    · exact hl.above_mem (.inr hf)

theorem joinDown_spec (hl : Lifted base h F₁ F₂ live R b b' above) (hbase : base+8 ≤ b.start)
    (hlow : ∀ f ∈ F₁, base < f.start ∧ f.stop ≤ b.start) (hb : b.start < 2^32)
    (hnd : (base::starts F₁).Nodup) :
    ∃ F, Settled base (final base (starts F₁)) (joinDown b.start (final base (starts F₁)) h)
      (F₁++F₂) live R b F := by
  have hpos : ∀ f ∈ F₁, 0 < f.len := fun f hf => hl.tiling.pos f (.inl (by simp [hf]))
  have hlt : ∀ f ∈ F₁, f.start < b.start := by
    intro f hf
    have h1 := hpos f hf
    have h2 := (hlow f hf).2
    simp only [Block.stop] at h2
    omega
  rcases List.eq_nil_or_concat F₁ with rfl | ⟨A,a,rfl⟩
  · have hno : ¬plus base (h.size base) = b.start := by
      rw [hl.low, plus]
      omega
    rw [starts_nil, final_nil, joinDown, if_neg hno]
    exact ⟨_,settled_apart hl (by omega) hlt hnd (by simp)⟩
  · rw [List.concat_eq_append] at *
    have hfinal : final base (starts (A++[a])) = a.start := by simp
    have ha := hlow a (by simp)
    have hplus := plus_block (hl.sizes a (.inl (by simp)))
    rw [Nat.mod_eq_of_lt (by omega)] at hplus
    rw [hfinal, joinDown, hplus]
    by_cases htouch : a.stop = b.start
    · rw [if_pos htouch]
      exact ⟨_,settled_joined hl ha.1 hlt hnd htouch⟩
    · rw [if_neg htouch, ← hfinal]
      refine ⟨_,settled_apart hl (by omega) hlt hnd fun f hf => ?_⟩
      rw [Before, hl.start]
      rcases List.mem_append.mp hf with hf | hf
      · have htile := hl.tiling
        rw [List.append_assoc, List.singleton_append] at htile
        have hfa := (List.pairwise_append.mp htile.spaced).2.2 f hf a List.mem_cons_self
        have := hlt a (by simp)
        simp only [Before] at hfa
        omega
      · rw [List.mem_singleton.mp hf]
        exact lt_of_le_of_ne ha.2 htouch

end Joins

/-- `free` puts a block that is in use back on the ring. -/
theorem free_spec {ok : ℕ → Bool} (ht : Tiling F (b::live) R) (hr : Ring base h F (b::live))
    (hroom : Room base F b) (hok : ok base ∧ ∀ f, f ∈ F ∨ f = b → ok f.start) :
    ∃ h' F', (∀ k, F.length < k → free ok k (plus b.start 1) h = .ok h') ∧ Tiling F' live R ∧
      Ring base h' F' live ∧ (∃ c ∈ F', c.start ≤ b.start ∧ b.stop ≤ c.stop) ∧
      ∀ f ∈ F', f.start = b.start ∨ f.start ∈ starts F := by
  have hbase : ∀ f, f ∈ F ∨ f = b → base < f.start := by
    intro f hf
    have := hroom.above f hf
    omega
  have hfirst := hroom.first
  have hminus : minus (plus b.start 1) = b.start := minus_plus (by omega)
  have hgood : ∀ q ∈ base::starts F, ok q := by
    intro q hq
    rcases List.mem_cons.mp hq with rfl | hq
    · exact hok.1
    · obtain ⟨f,hf,rfl⟩ := mem_starts.mp hq
      exact hok.2 f (.inl hf)
  obtain ⟨z,hz,hslot⟩ := slot_exists ht.spaced hr.ring hbase fun f hf => live_start_ne ht (.inl hf)
  obtain ⟨q,hq,hstop,hwalk⟩ := walk_ring (fun p => ok p = false ∨ Slot h b.start p)
    hr.ring hr.freep hz (.inr hslot)
  have hq' : Slot h b.start q := by
    rcases hstop with hbad | hslot
    · rw [hgood q hq] at hbad
      cases hbad
    · exact hslot
  obtain ⟨F₁,F₂,rfl,rfl,hlow,hhigh⟩ := slot_split ht.spaced hr.ring hbase hq hq'
  have hcl : ∀ f ∈ F₁++F₂, Apart b f := ht.clear b List.mem_cons_self
  have hbelow : ∀ f ∈ F₁, base < f.start ∧ f.stop ≤ b.start := by
    intro f hf
    refine ⟨hbase f (.inl (List.mem_append_left _ hf)),?_⟩
    have h1 := hlow f hf
    have h2 := hcl f (List.mem_append_left _ hf)
    simp only [Apart, Block.stop] at h2 ⊢
    omega
  have habove : ∀ f ∈ F₂, b.stop ≤ f.start := by
    intro f hf
    have h1 := hhigh f hf
    have h2 := hcl f (List.mem_append_right _ hf)
    simp only [Apart, Block.stop] at h2 ⊢
    omega
  have hnd : (base::starts F₁).Nodup := by
    have hall := starts_nodup ht fun f hf => hbase f (.inl hf)
    rw [starts_append, ← List.cons_append] at hall
    exact (List.nodup_append.mp hall).1
  obtain ⟨b',above,hl⟩ := joinUp_spec ht hr hroom habove
  obtain ⟨F',hd⟩ := joinDown_spec hl (hroom.above b (.inr rfl)) hbelow (by omega) hnd
  refine ⟨{ joinDown b.start (final base (starts F₁))
    (joinUp b.start (final base (starts F₁)) h) with freep := final base (starts F₁) },F',
    fun k hk => ?_,hd.tiling,⟨hd.ring,hd.sizes,hd.low,hd.node⟩,hd.holds,hd.nodes⟩
  rw [free, hminus, hwalk k (by rw [starts, List.length_map]; exact hk)]
  refine if_pos ⟨hgood _ hq,hok.2 b (.inr rfl),fun _ => hgood _ ?_⟩
  have hnext := path_tail (starts_append F₁ F₂ ▸ hr.ring)
  cases F₂ with
  | nil => exact List.mem_cons.mpr (.inl hnext)
  | cons g G => exact List.mem_cons_of_mem _ (mem_starts.mpr ⟨g,by simp,hnext.1.symm⟩)

end Xv6.Malloc
