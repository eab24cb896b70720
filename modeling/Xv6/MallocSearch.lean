import Xv6.MallocFree

/-!
# Taking a block out

The loop of `malloc` goes once round the ring. It ends at the first block that
is large enough, or back where it began, and then `morecore` puts a block on
the ring that the second round finds.
-/

set_option autoImplicit false

namespace Xv6.Malloc
open Function NodePath BlockTiling

variable {σ : Type} {base : ℕ} {h : Heap} {F live R F₁ F₂ : List Block} {b c : Block}

section Carving

section
variable (ht : Tiling (F₁++c::F₂) live R) (hr : Ring base h (F₁++c::F₂) live)
    (hbase : ∀ f ∈ F₁++c::F₂, base < f.start)
include ht hr hbase

theorem previous_eq {prevp : ℕ} (hp : prevp ∈ base::starts (F₁++c::F₂))
    (hnext : h.ptr prevp = c.start) : prevp = final base (starts F₁) := by
  have hring := hr.ring
  refine path_injective (starts_nodup ht hbase) hring hp ?_ ?_
  · rw [List.mem_cons, starts_append, List.mem_append]
    exact final_mem.imp_right .inl
  · rw [starts_append, starts_cons, path_append] at hring
    rw [hnext, path_final hring.1]

theorem unlink_ring : Ring base { h.setPtr (final base (starts F₁)) (h.ptr c.start) with
      freep := final base (starts F₁) } (F₁++F₂) (c::live) := by
  have hnd := starts_nodup ht hbase
  have hring := hr.ring
  rw [starts_append, starts_cons] at hnd hring
  rw [← List.cons_append, List.nodup_append] at hnd
  refine ⟨?_,fun x hx => hr.sizes x ?_,hr.low,?_⟩
  · rw [starts_append]
    refine path_replace hnd.1 hring (fun z _ hz => update_of_ne hz ..) ?_
    refine path_congr (update_self ..) (fun z hz => update_of_ne ?_ ..) (path_append.mp hring).2
    refine (hnd.2.2 _ (List.mem_cons.mpr final_mem) z (List.mem_cons_of_mem _ hz)).symm
  · simp only [List.mem_append, List.mem_cons] at hx ⊢
    tauto
  · rw [List.mem_cons, starts_append, List.mem_append]
    exact final_mem.imp_right .inl

end

theorem split_tiling {n : ℕ} (ht : Tiling (F₁++c::F₂) live R) (h0 : 0 < n) (hn : n < c.len) :
    Tiling (F₁++⟨c.start,n⟩::F₂) (⟨c.start+n,c.len-n⟩::live) R := by
  obtain ⟨-,hs2,hs₁₂⟩ := List.pairwise_append.mp ht.spaced
  refine (ht.take.cut h0 hn).put (fun f hf => ?_) fun f hf => ?_
  · exact hs₁₂ f hf c List.mem_cons_self
  · have hcf := (List.pairwise_cons.mp hs2).1 f hf
    simp only [Before, Block.stop] at hcf ⊢
    omega

theorem carve_spec (ht : Tiling F live R) (hr : Ring base h F live)
    (hbase : ∀ f ∈ F, base < f.start) (hc : c ∈ F) {prevp n : ℕ}
    (hp : prevp ∈ base::starts F) (hnext : h.ptr prevp = c.start) (h0 : 0 < n)
    (hn : n ≤ h.size c.start) (hend : c.stop < 2^32+8*n) :
    ∃ t F', (carve n prevp c.start h).1 = t.start ∧ t.len = 8*n ∧ t.stop = c.stop ∧
      Tiling F' (t::live) R ∧ Ring base (carve n prevp c.start h).2 F' (t::live) := by
  obtain ⟨F₁,F₂,rfl⟩ := List.append_of_mem hc
  have hsize := hr.sizes c (.inl hc)
  by_cases he : h.size c.start = n
  · rw [carve, if_pos he, previous_eq ht hr hbase hp hnext]
    exact ⟨c,F₁++F₂,rfl,by omega,rfl,ht.take,unlink_ring ht hr hbase⟩
  · have hlen : 8*n < c.len := by omega
    have htile := split_tiling (n := c.len-8*n) ht (by omega) (by omega)
    have hplus : plus c.start (h.size c.start-n) = c.start+(c.len-8*n) := by
      rw [plus_small (by simp only [Block.stop] at hend; omega)]
      omega
    rw [carve, if_neg he, hplus]
    refine ⟨⟨c.start+(c.len-8*n),c.len-(c.len-8*n)⟩,_,rfl,?_,?_,htile,⟨?_,?_,?_,?_⟩⟩
    · show c.len-(c.len-8*n) = 8*n
      omega
    · simp only [Block.stop]
      omega
    · have hring := hr.ring
      rw [starts_append, starts_cons] at hring ⊢
      exact hring
    · intro x hx
      show 8*update (update h.size c.start _) _ n x.start = x.len
      rcases hx with hx | hx
      · rw [update_of_ne (live_start_ne htile (.inl hx))]
        by_cases hxc : x = ⟨c.start,c.len-8*n⟩
        · subst hxc
          rw [update_self]
          show _ = c.len-8*n
          omega
        · have hx' : x ∈ F₁++F₂ := by
            simp only [List.mem_append, List.mem_cons] at hx ⊢
            tauto
          rw [update_of_ne (live_start_ne ht.take (.inl hx'))]
          refine hr.sizes x (.inl ?_)
          simp only [List.mem_append, List.mem_cons] at hx' ⊢
          tauto
      · rcases List.mem_cons.mp hx with rfl | hx
        · rw [update_self]
          show _ = c.len-(c.len-8*n)
          omega
        · rw [update_of_ne (live_start_ne htile (.inr hx)),
            update_of_ne (live_start_ne ht.take (.inr hx))]
          exact hr.sizes x (.inr hx)
    · have hlow := hbase c hc
      exact ((update_of_ne (by omega) ..).trans (update_of_ne (by omega) ..)).trans hr.low
    · rw [starts_append, starts_cons] at hp ⊢
      exact hp

end Carving

section Round

variable {sys : Sys σ} {N n : ℕ} {st : State σ}

theorem search_steps {A : List ℕ} {prevp p k : ℕ} (hpath : Path st.heap.ptr prevp A p)
    (hA : ∀ a ∈ A, sys.present st.os a ∧ st.heap.size a < n ∧ a ≠ st.heap.freep) :
    search sys N n (k+A.length) prevp (st.heap.ptr prevp) st =
      search sys N n k (final prevp A) p st := by
  induction A generalizing prevp with
  | nil => rw [path_nil.mp hpath]; rfl
  | cons a A ih =>
    obtain ⟨hok,hsmall,hne⟩ := hA a List.mem_cons_self
    rw [hpath.1, List.length_cons, ← Nat.add_assoc, search, if_pos hok, if_neg (by omega),
      if_neg hne]
    exact ih hpath.2 fun x hx => hA x (List.mem_cons_of_mem a hx)

theorem search_take {prevp p k : ℕ} (hok : sys.present st.os p) (hn : n ≤ st.heap.size p) :
    search sys N n (k+1) prevp p st = take sys n prevp p st := by
  rw [search, if_pos hok, if_pos hn]

theorem search_round (sys : Sys σ) (n : ℕ) {L : List ℕ}
    (hring : Path st.heap.ptr st.heap.freep L st.heap.freep)
    (hnd : (st.heap.freep::L).Nodup) (hok : ∀ z ∈ st.heap.freep::L, sys.present st.os z) :
    (∃ prevp p, prevp ∈ st.heap.freep::L ∧ p ∈ st.heap.freep::L ∧ st.heap.ptr prevp = p ∧
      n ≤ st.heap.size p ∧ ∀ N k, L.length < k →
        search sys N n k st.heap.freep (st.heap.ptr st.heap.freep) st = take sys n prevp p st) ∨
    (∀ z ∈ st.heap.freep::L, st.heap.size z < n) ∧ ∀ N k,
      search sys N n (k+1+L.length) st.heap.freep (st.heap.ptr st.heap.freep) st =
        search sys N n (k+1) (final st.heap.freep L) st.heap.freep st := by
  have hne : ∀ a ∈ L, a ≠ st.heap.freep := by
    rintro a ha rfl
    exact (List.nodup_cons.mp hnd).1 ha
  cases hfind : L.find? (fun p => n ≤ st.heap.size p) with
  | some p =>
    left
    obtain ⟨hp,A,B,rfl,hA⟩ := List.find?_eq_some_iff_append.mp hfind
    rw [decide_eq_true_iff] at hp
    have hpath := (path_append.mp hring).1
    refine ⟨final st.heap.freep A,p,?_,by simp,path_final hpath,hp,fun N k hk => ?_⟩
    · rcases final_mem (x := st.heap.freep) (l := A) with hm | hm
      · rw [hm]
        exact List.mem_cons_self
      · exact List.mem_cons_of_mem _ (List.mem_append_left _ hm)
    · rw [List.length_append, List.length_cons] at hk
      obtain ⟨i,rfl⟩ : ∃ i, k = i+1+A.length := ⟨k-1-A.length,by omega⟩
      rw [search_steps hpath, search_take (hok p (by simp)) hp]
      intro a ha
      have hsmall := hA a ha
      refine ⟨hok a (by simp [ha]),by simpa using hsmall,hne a (by simp [ha])⟩
  | none =>
    have hL : ∀ a ∈ L, st.heap.size a < n := by
      intro a ha
      have := List.find?_eq_none.mp hfind a ha
      simpa using this
    have hsteps : ∀ N k, search sys N n (k+1+L.length) st.heap.freep
        (st.heap.ptr st.heap.freep) st =
          search sys N n (k+1) (final st.heap.freep L) st.heap.freep st := by
      intro N k
      exact search_steps hring fun a ha => ⟨hok a (by simp [ha]),hL a ha,hne a ha⟩
    by_cases hf : n ≤ st.heap.size st.heap.freep
    · left
      refine ⟨final st.heap.freep L,st.heap.freep,List.mem_cons.mpr final_mem,by simp,
        path_final hring,hf,fun N k hk => ?_⟩
      obtain ⟨i,rfl⟩ : ∃ i, k = i+1+L.length := ⟨k-1-L.length,by omega⟩
      rw [hsteps, search_take (hok _ (by simp)) hf]
    · right
      refine ⟨fun z hz => ?_,hsteps⟩
      rcases List.mem_cons.mp hz with rfl | hz
      · omega
      · exact hL z hz

theorem ring_from (ht : Tiling F live R) (hr : Ring base h F live)
    (hbase : ∀ f ∈ F, base < f.start) :
    ∃ L, Path h.ptr h.freep L h.freep ∧ (h.freep::L).Nodup ∧ L.length = F.length ∧
      ∀ z, z ∈ h.freep::L ↔ z ∈ base::starts F := by
  have hnd := starts_nodup ht hbase
  rcases List.mem_cons.mp hr.freep with hf | hf
  · rw [hf]
    exact ⟨starts F,hr.ring,hnd,by simp [starts],fun z => Iff.rfl⟩
  · obtain ⟨f,hf,he⟩ := mem_starts.mp hf
    obtain ⟨A,B,rfl⟩ := List.append_of_mem hf
    have hring := hr.ring
    rw [starts_append, starts_cons] at hnd hring ⊢
    have hperm : (f.start::(starts B++base::starts A)).Perm
        (base::(starts A++f.start::starts B)) := by
      rw [← List.cons_append, ← List.cons_append]
      exact List.perm_append_comm
    rw [← he]
    refine ⟨starts B++base::starts A,path_rotate hring,hperm.nodup_iff.mpr hnd,?_,
      fun z => hperm.mem_iff⟩
    simp only [starts, List.length_append, List.length_cons, List.length_map]
    omega

theorem round_taken (sys : Sys σ) (st : State σ) (ht : Tiling F live R)
    (hr : Ring base st.heap F live)
    (hbase : ∀ f ∈ F, base < f.start) (h0 : 0 < n) (hend : ∀ f ∈ F, f.stop < 2^32+8*n)
    (hok : ∀ z ∈ base::starts F, sys.present st.os z) (hc : c ∈ F) (hn : 8*n ≤ c.len) :
    ∃ t F' h', t.len = 8*n ∧ (∃ f ∈ F, f.start ≤ t.start ∧ t.stop = f.stop) ∧
      Tiling F' (t::live) R ∧ Ring base h' F' (t::live) ∧
      ∀ N k, F.length < k → search sys N n k st.heap.freep (st.heap.ptr st.heap.freep) st =
        if sys.present st.os t.start then .ok (plus t.start 1,⟨h',st.os⟩) else .error .trap := by
  obtain ⟨L,hring,hnd,hlen,hmem⟩ := ring_from ht hr hbase
  rcases search_round sys n hring hnd fun z hz => hok z ((hmem z).mp hz) with
    ⟨prevp,p,hprev,hp,hnext,hle,hrun⟩ | ⟨hsmall,-⟩
  · have hp' := (hmem p).mp hp
    rw [List.mem_cons, mem_starts] at hp'
    rcases hp' with rfl | ⟨f,hf,rfl⟩
    · rw [hr.low] at hle
      omega
    · obtain ⟨t,F',h1,h2,h3,h4,h5⟩ := carve_spec ht hr hbase hf ((hmem prevp).mp hprev) hnext h0 hle
        (hend f hf)
      refine ⟨t,F',_,h2,⟨f,hf,?_,h3⟩,h4,h5,fun N k hk => ?_⟩
      · have hsize := hr.sizes f (.inl hf)
        simp only [Block.stop] at h3
        omega
      · rw [hrun N k (by omega), take, h1]
  · have hsize := hr.sizes c (.inl hc)
    have := hsmall c.start ((hmem _).mpr (List.mem_cons_of_mem _ (mem_starts.mpr ⟨c,hc,rfl⟩)))
    omega

theorem round_more (sys : Sys σ) (st : State σ) (ht : Tiling F live R)
    (hr : Ring base st.heap F live)
    (hbase : ∀ f ∈ F, base < f.start) (h0 : 0 < n)
    (hok : ∀ z ∈ base::starts F, sys.present st.os z) (hsmall : ∀ f ∈ F, f.len < 8*n) :
    ∀ N k, search sys N n (k+1+F.length) st.heap.freep (st.heap.ptr st.heap.freep) st =
      (morecore sys N n st).bind fun r => if r.1 = 0 then .ok (0,r.2)
        else search sys N n k r.1 (r.2.heap.ptr r.1) r.2 := by
  obtain ⟨L,hring,hnd,hlen,hmem⟩ := ring_from ht hr hbase
  have hnodes : ∀ z ∈ base::starts F, st.heap.size z < n := by
    intro z hz
    rcases List.mem_cons.mp hz with rfl | hz
    · rw [hr.low]
      exact h0
    · obtain ⟨f,hf,rfl⟩ := mem_starts.mp hz
      have h1 := hsmall f hf
      have h2 := hr.sizes f (.inl hf)
      omega
  rcases search_round sys n hring hnd fun z hz => hok z ((hmem z).mp hz) with
    ⟨-,p,-,hp,-,hle,-⟩ | ⟨-,hrun⟩
  · exact absurd hle (Nat.not_le.mpr (hnodes p ((hmem p).mp hp)))
  · intro N k
    have hlast := hnodes _ hr.freep
    rw [← hlen, hrun N k, search, if_pos (hok _ hr.freep), if_neg (by omega), if_pos rfl]

end Round

structure Fresh (sys : Sys σ) (base : ℕ) (regions : σ → List Block) (I : σ → Prop) : Prop where
  pos : 0 < base
  anchor : ∀ s, I s → sys.present s base
  present : ∀ s, I s → ∀ a, Within (regions s) ⟨a,8⟩ → sys.present s a
  bounds : ∀ s, I s → ∀ r ∈ regions s, base+8 ≤ r.start ∧ r.stop < 2^32
  sbrk : ∀ s, I s → ∀ m, 0 < m → m < 2^31 → ∃ s', I s' ∧
    (sys.sbrk m s = .ok (none,s') ∧ regions s' = regions s ∨
      ∃ p, sys.sbrk m s = .ok (some p,s') ∧ regions s' = ⟨p,m⟩::regions s ∧
        ∀ r ∈ regions s, r.stop ≤ p)

section Refill

variable {p u : ℕ}

/-- A new region above all others is put on the ring. -/
theorem refill_spec (ok : ℕ → Bool) (ht : Tiling F live R) (hr : Ring base h F live)
    (hroom : Room base F ⟨p,8*u⟩) (h0 : 0 < u) (hR : ∀ r ∈ R, r.stop ≤ p)
    (hok : ok base ∧ ok p ∧ ∀ f ∈ F, ok f.start) :
    ∃ h' F', (∀ k, F.length < k → free ok k (plus p 1) (h.setSize p u) = .ok h') ∧
      Tiling F' live (⟨p,8*u⟩::R) ∧ Ring base h' F' live ∧
      (∃ c ∈ F', c.start ≤ p ∧ p+8*u ≤ c.stop) ∧ ∀ f ∈ F', f.start = p ∨ f.start ∈ starts F := by
  have hgrow : Tiling F (⟨p,8*u⟩::live) (⟨p,8*u⟩::R) := ht.grow (by simpa using h0) hR
  have hbase := hroom.above ⟨p,8*u⟩ (.inr rfl)
  have hring : Ring base (h.setSize p u) F (⟨p,8*u⟩::live) := by
    refine ⟨hr.ring,fun x hx => ?_,?_,hr.freep⟩
    · show 8*update h.size p u x.start = x.len
      by_cases hxb : x = ⟨p,8*u⟩
      · subst hxb
        rw [update_self]
      · have hx' : x ∈ F ∨ x ∈ live := by
          simp only [List.mem_cons] at hx
          tauto
        have hne : x.start ≠ p := live_start_ne hgrow hx'
        rw [update_of_ne hne]
        exact hr.sizes x hx'
    · exact (update_of_ne (by simp only at hbase; omega) ..).trans hr.low
  have hall : ok base ∧ ∀ f, f ∈ F ∨ f = ⟨p,8*u⟩ → ok f.start := by
    refine ⟨hok.1,fun f hf => ?_⟩
    rcases hf with hf | rfl
    · exact hok.2.2 f hf
    · exact hok.2.1
  exact free_spec (b := ⟨p,8*u⟩) hgrow hring hroom hall

end Refill

section Calls

variable {sys : Sys σ} {regions : σ → List Block} {I : σ → Prop} {st : State σ} {u : ℕ} {s : σ}

theorem block_bounds (hs : Fresh sys base regions I) (hI : I s) (ht : Tiling F live (regions s))
    {x : Block} (hx : x ∈ F ∨ x ∈ live) : base+8 ≤ x.start ∧ x.stop < 2^32 := by
  refine ⟨(ht.within x hx).le_start (ht.pos x hx) fun r hr => (hs.bounds s hI r hr).1,?_⟩
  have hle : x.stop ≤ 2^32-1 := by
    refine (ht.within x hx).stop_le (ht.pos x hx) fun r hr => ?_
    have := (hs.bounds s hI r hr).2
    omega
  omega

theorem block_present (hs : Fresh sys base regions I) (hI : I s) (ht : Tiling F live (regions s))
    (hr : Ring base h F live) {x : Block} (hx : x ∈ F ∨ x ∈ live) : sys.present s x.start := by
  have hpos := ht.pos x hx
  have hsize := hr.sizes x hx
  refine hs.present s hI x.start fun y h1 h2 => ht.within x hx y h1 ?_
  simp only [Block.stop] at h2 ⊢
  omega

theorem node_present (hs : Fresh sys base regions I) (hI : I s) (ht : Tiling F live (regions s))
    (hr : Ring base h F live) : ∀ z ∈ base::starts F, sys.present s z := by
  intro z hz
  rcases List.mem_cons.mp hz with rfl | hz
  · exact hs.anchor s hI
  · obtain ⟨f,hf,rfl⟩ := mem_starts.mp hz
    exact block_present hs hI ht hr (.inl hf)

theorem block_room (hs : Fresh sys base regions I) (hI : I s) (ht : Tiling F (b::live) (regions s))
    (hlen : 8 ≤ b.len) : Room base F b := by
  have hb := block_bounds hs hI ht (.inr List.mem_cons_self)
  refine ⟨fun f hf => ?_,fun f hf => (block_bounds hs hI ht (.inl hf)).2,?_,by omega,?_⟩
  · rcases hf with hf | rfl
    · exact (block_bounds hs hI ht (.inl hf)).1
    · exact hb.1
  · simp only [Block.stop] at hb
    omega
  · intro z _ he
    rw [Nat.mod_eq_of_lt hb.2] at he
    exact he

structure Granted (base : ℕ) (regions : σ → List Block) (I : σ → Prop) (u : ℕ)
    (live : List Block) (ap : ℕ) (st : State σ) : Prop where
  inv : I st.os
  block : ∃ t F, ap = t.start+8 ∧ t.len = 8*u ∧ Tiling F (t::live) (regions st.os) ∧
    Ring base st.heap F (t::live)

structure Refused (base : ℕ) (regions : σ → List Block) (I : σ → Prop) (u : ℕ)
    (F live : List Block) (h : Heap) (st : State σ) : Prop where
  inv : I st.os
  small : ∀ f ∈ F, f.len < 8*u
  heap : st.heap = h
  tiling : Tiling F live (regions st.os)
  ring : Ring base st.heap F live

theorem request_pos : 0 < request u := by
  rw [request]
  split <;> omega

theorem le_request : u ≤ request u := by
  rw [request]
  split <;> omega

theorem node_bounds (hs : Fresh sys base regions I) (hI : I s) (ht : Tiling F live (regions s)) :
    ∀ f ∈ F, base < f.start ∧ f.stop < 2^32 := by
  intro f hf
  have := block_bounds hs hI ht (.inl hf)
  omega

/-- A round that finds a block grants it. -/
theorem round_granted (hs : Fresh sys base regions I) (hI : I st.os)
    (ht : Tiling F live (regions st.os)) (hr : Ring base st.heap F live) (h0 : 0 < u)
    (hc : c ∈ F) (hu : 8*u ≤ c.len) : ∃ ap st', Granted base regions I u live ap st' ∧
      st'.os = st.os ∧ ∀ N k, F.length < k →
        search sys N u k st.heap.freep (st.heap.ptr st.heap.freep) st = .ok (ap,st') := by
  have hb := node_bounds hs hI ht
  obtain ⟨t,F',h',hlen,-,ht',hr',hrun⟩ := round_taken sys st ht hr (fun f hf => (hb f hf).1) h0
    (fun f hf => (hb f hf).2.trans_le (Nat.le_add_right ..)) (node_present hs hI ht hr) hc hu
  have hpt : sys.present st.os t.start := block_present hs hI ht' hr' (.inr List.mem_cons_self)
  have hbt := block_bounds hs hI ht' (.inr List.mem_cons_self)
  have hplus : plus t.start 1 = t.start+8 := by
    refine plus_small ?_
    simp only [Block.stop] at hbt
    omega
  refine ⟨t.start+8,⟨h',st.os⟩,⟨hI,t,F',rfl,hlen,ht',hr'⟩,rfl,fun N k hk => ?_⟩
  rw [hrun N k hk, if_pos hpt, hplus]

theorem morecore_spec (hs : Fresh sys base regions I) (hI : I st.os)
    (ht : Tiling F live (regions st.os)) (hr : Ring base st.heap F live)
    (hu : 8*request u < 2^31) :
    (∃ s', I s' ∧ sys.sbrk (8*request u) st.os = .ok (none,s') ∧ regions s' = regions st.os ∧
      ∀ N, morecore sys N u st = .ok (0,⟨st.heap,s'⟩)) ∨
    ∃ st' F', I st'.os ∧ (∃ p, sys.sbrk (8*request u) st.os = .ok (some p,st'.os)) ∧
      Tiling F' live (regions st'.os) ∧ Ring base st'.heap F' live ∧
      (∃ c ∈ F', 8*u ≤ c.len) ∧ st'.heap.freep ≠ 0 ∧
      ∀ N, F.length < N → morecore sys N u st = .ok (st'.heap.freep,st') := by
  have hbytes : request u*8%2^32 = 8*request u := by omega
  have hpos := request_pos (u := u)
  obtain ⟨s',hI',hout⟩ := hs.sbrk st.os hI (8*request u) (by omega) hu
  rcases hout with ⟨hsb,hreg⟩ | ⟨p,hsb,hreg,habove⟩
  · refine .inl ⟨s',hI',hsb,hreg,fun N => ?_⟩
    rw [morecore, hbytes, hsb]
  · right
    have hgrow : Tiling F (⟨p,8*request u⟩::live) (regions s') := by
      rw [hreg]
      exact ht.grow (by simpa using hpos) habove
    have hroom : Room base F ⟨p,8*request u⟩ := block_room hs hI' hgrow (by simp only; omega)
    have hwithin : ∀ x, x ∈ F ∨ x = ⟨p,8*request u⟩ → 8 ≤ x.len → sys.present s' x.start := by
      intro x hx hlen
      refine hs.present s' hI' x.start fun y h1 h2 => ?_
      have hx' : x ∈ F ∨ x ∈ ⟨p,8*request u⟩::live := hx.imp_right fun he => by simp [he]
      refine hgrow.within x hx' y h1 ?_
      simp only [Block.stop] at h2 ⊢
      omega
    have hlen : ∀ f ∈ F, 8 ≤ f.len := by
      intro f hf
      have h1 := ht.pos f (.inl hf)
      have h2 := hr.sizes f (.inl hf)
      omega
    have hpp : sys.present s' p := hwithin ⟨p,8*request u⟩ (.inr rfl) (by simp only; omega)
    obtain ⟨h',F',hfree,ht',hr',⟨c,hc,hle,hge⟩,-⟩ := refill_spec (sys.present s') ht hr hroom hpos
      habove ⟨hs.anchor s' hI',hpp,fun f hf => hwithin f (.inl hf) (hlen f hf)⟩
    rw [← hreg] at ht'
    refine ⟨⟨h',s'⟩,F',hI',⟨p,hsb⟩,ht',hr',⟨c,hc,?_⟩,?_,fun N hN => ?_⟩
    · have := le_request (u := u)
      simp only [Block.stop] at hge
      omega
    · have hb' := hs.pos
      show h'.freep ≠ 0
      rcases List.mem_cons.mp hr'.freep with he | hm
      · omega
      · obtain ⟨f,hf,he⟩ := mem_starts.mp hm
        have := (node_bounds hs hI' ht' f hf).1
        omega
    · rw [morecore, hbytes, hsb]
      simp only [hpp, if_true, hfree N hN]
      rfl

theorem search_spec (st : State σ) (hs : Fresh sys base regions I) (hI : I st.os)
    (ht : Tiling F live (regions st.os)) (hr : Ring base st.heap F live) (h0 : 0 < u)
    (hu : 8*request u < 2^31) :
    ∃ K ap st', (∀ k, K ≤ k →
        search sys k u k st.heap.freep (st.heap.ptr st.heap.freep) st = .ok (ap,st')) ∧
      (Granted base regions I u live ap st' ∧ (st'.os = st.os ∧ (∃ c ∈ F, 8*u ≤ c.len) ∨
          ∃ p, sys.sbrk (8*request u) st.os = .ok (some p,st'.os)) ∨
        ap = 0 ∧ Refused base regions I u F live st.heap st' ∧
          sys.sbrk (8*request u) st.os = .ok (none,st'.os)) := by
  by_cases hfit : ∃ c ∈ F, 8*u ≤ c.len
  · obtain ⟨c,hc,hle⟩ := hfit
    obtain ⟨ap,st',hg,hos,hrun⟩ := round_granted hs hI ht hr h0 hc hle
    exact ⟨F.length+1,ap,st',fun k hk => hrun k k (by omega),.inl ⟨hg,.inl ⟨hos,c,hc,hle⟩⟩⟩
  · have hsmall : ∀ f ∈ F, f.len < 8*u := by
      intro f hf
      by_contra hle
      exact hfit ⟨f,hf,by omega⟩
    have hback : ∀ k, F.length < k → ∃ i, k = i+1+F.length :=
      fun k hk => ⟨k-1-F.length,by omega⟩
    have hmore := round_more sys st ht hr (fun f hf => (node_bounds hs hI ht f hf).1) h0
      (node_present hs hI ht hr) hsmall
    rcases morecore_spec hs hI ht hr hu with ⟨s',hI',hsb,hreg,hrun⟩ |
      ⟨st1,F₁,hI1,⟨p,hsb⟩,ht1,hr1,⟨c,hc,hle⟩,hne,hrun⟩
    · refine ⟨F.length+1,0,⟨st.heap,s'⟩,fun k hk => ?_,
        .inr ⟨rfl,⟨hI',hsmall,rfl,hreg ▸ ht,hr⟩,hsb⟩⟩
      obtain ⟨i,rfl⟩ := hback k (by omega)
      rw [hmore, hrun]
      rfl
    · obtain ⟨ap,st',hg,hos,hsecond⟩ := round_granted hs hI1 ht1 hr1 h0 hc hle
      refine ⟨F.length+1+F₁.length+1,ap,st',fun k hk => ?_,.inl ⟨hg,.inr ⟨p,hos ▸ hsb⟩⟩⟩
      obtain ⟨i,rfl⟩ := hback k (by omega)
      rw [hmore, hrun _ (by omega)]
      show (if st1.heap.freep = 0 then _ else _) = _
      rw [if_neg hne, hsecond _ i (by omega)]

end Calls

end Xv6.Malloc
