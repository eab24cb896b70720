import Mathlib.Data.List.Pairwise
import Xv6.TransitionRun
import Xv6.MallocSearch

/-!
# Runs of the allocator

A program calls `malloc` and frees blocks it has been given, in any order, and
writes into them between the calls. In every state reached the blocks tile the
memory obtained so far, and every further call ends.
-/

set_option autoImplicit false

namespace Xv6.HeapRuns
open Function NodePath BlockTiling TransitionRun Malloc

structure Grant where
  ptr : ℕ
  want : ℕ
  deriving DecidableEq

def block (h : Heap) (g : Grant) : Block := ⟨g.ptr-8,8*h.size (g.ptr-8)⟩

def Returns {α : Type} (call : ℕ → Except Stop α) (r : α) : Prop := Settles call (.ok r)

structure Sound (base : ℕ) (R : List Block) (h : Heap) (F live : List Block) : Prop where
  tiling : Tiling F live R
  ring : Ring base h F live
  above : ∀ b, b ∈ F ∨ b ∈ live → base+8 ≤ b.start

def Begun (base : ℕ) (R : List Block) (h : Heap) (live : List Grant) : Prop :=
  (∃ F, Sound base R h F (live.map (block h))) ∧ ∀ g ∈ live, g.want+8 ≤ (block h g).len

def Consistent (base : ℕ) (R : List Block) (h : Heap) (live : List Grant) : Prop :=
  h.freep = 0 ∧ live = [] ∧ R = [] ∨ Begun base R h live

def Ordinary (n : ℕ) : Prop := 8*((n+7)/8+1) < 2^31

structure Written (live : List Grant) (h h' : Heap) : Prop where
  freep : h'.freep = h.freep
  kept : ∀ a, (∀ g ∈ live, a+8 ≤ g.ptr ∨ (block h g).stop ≤ a) →
    h'.ptr a = h.ptr a ∧ h'.size a = h.size a

section Runs

variable {σ : Type} (sys : Sys σ) (base : ℕ) (regions : σ → List Block) (I : σ → Prop)
  (allowed : ℕ → State σ → Prop)

inductive Reach : State σ → List Grant → Prop
  | start {h : Heap} {s : σ} : h.freep = 0 → I s → regions s = [] → Reach ⟨h,s⟩ []
  | malloc {st st' : State σ} {live : List Grant} {n ap : ℕ} : Reach st live → allowed n st →
      Returns (fun k => malloc sys base k n st) (ap,st') →
      Reach st' (if ap = 0 then live else ⟨ap,n⟩::live)
  | free {st : State σ} {live : List Grant} {g : Grant} {h' : Heap} : Reach st live → g ∈ live →
      Returns (fun k => free (sys.present st.os) k g.ptr st.heap) h' →
      Reach ⟨h',st.os⟩ (live.erase g)
  | write {st : State σ} {live : List Grant} {h' : Heap} : Reach st live →
      Written live st.heap h' → Reach ⟨h',st.os⟩ live
  | system {st : State σ} {live : List Grant} {s' : σ} : Reach st live → I s' →
      regions s' = regions st.os → Reach ⟨st.heap,s'⟩ live

end Runs

theorem Returns.unique {α : Type} {call : ℕ → Except Stop α} {r r' : α} (h : Returns call r)
    (h' : Returns call r') : r = r' := Except.ok.inj (Settles.unique h h')

variable {h h' : Heap} {n : ℕ}

theorem block_congr {live : List Grant} (hs : ∀ b ∈ live.map (block h), 8*h'.size b.start = b.len)
    {g : Grant} (hg : g ∈ live) : block h' g = block h g := by
  have := hs (block h g) (List.mem_map_of_mem hg)
  simp only [block] at this ⊢
  rw [this]

theorem nunits_ordinary (hn : Ordinary n) : nunits n = (n+7)/8+1 := by
  simp only [Ordinary] at hn
  rw [nunits, Nat.mod_eq_of_lt (by omega)]

theorem request_ordinary (hn : Ordinary n) : 8*request (nunits n) < 2^31 := by
  rw [nunits_ordinary hn, request]
  simp only [Ordinary] at hn
  split <;> omega

variable {σ : Type} {sys : Sys σ} {base : ℕ} {regions : σ → List Block} {I : σ → Prop}
  {st : State σ} {live : List Grant}

variable {R F : List Block}

theorem Sound.freep_pos {B : List Block} (hs : Sound base R h F B) (h0 : 0 < base) :
    h.freep ≠ 0 := by
  rcases List.mem_cons.mp hs.ring.freep with he | hm
  · omega
  · obtain ⟨f,hf,he⟩ := mem_starts.mp hm
    have := hs.above f (.inl hf)
    omega

/-- Before its search `malloc` has a well-formed ring, the first time as well. -/
theorem start_sound (hc : Consistent base R h live) (h0 : 0 < base) :
    ∃ F, Sound base R (start base h) F (live.map (block h)) := by
  rcases hc with ⟨hf,rfl,hR⟩ | ⟨⟨F,hF⟩,-⟩
  · rw [hR, start, if_pos hf]
    refine ⟨[],tiling_nil,?_,by simp⟩
    exact ⟨update_self ..,by simp,update_self ..,List.mem_cons_self⟩
  · rw [start, if_neg (hF.freep_pos h0)]
    exact ⟨F,hF⟩

theorem want_le (hc : Consistent base R h live) : ∀ g ∈ live, g.want+8 ≤ (block h g).len := by
  rcases hc with ⟨-,rfl,-⟩ | ⟨-,hw⟩
  · simp
  · exact hw

section
variable (hs : Fresh sys base regions I)
include hs

theorem begun_of {s : σ} (hI : I s) (ht : Tiling F (live.map (block h)) (regions s))
    (hr : Ring base h' F (live.map (block h))) (hw : ∀ g ∈ live, g.want+8 ≤ (block h g).len) :
    Begun base (regions s) h' live := by
  have hsame : ∀ g ∈ live, block h' g = block h g :=
    fun g hg => block_congr (fun b hb => hr.sizes b (.inr hb)) hg
  refine ⟨⟨F,?_⟩,fun g hg => hsame g hg ▸ hw g hg⟩
  rw [List.map_congr_left hsame]
  exact ⟨ht,hr,fun x hx => (block_bounds hs hI ht hx).1⟩

theorem malloc_spec (hI : I st.os) {B : List Block}
    (hF : Sound base (regions st.os) (start base st.heap) F B) (hu : 8*request (nunits n) < 2^31) :
    ∃ ap st', Returns (fun k => malloc sys base k n st) (ap,st') ∧
      (Granted base regions I (nunits n) B ap st' ∧
          (st'.os = st.os ∧ (∃ c ∈ F, 8*nunits n ≤ c.len) ∨
            ∃ p, sys.sbrk (8*request (nunits n)) st.os = .ok (some p,st'.os)) ∨
        ap = 0 ∧ Refused base regions I (nunits n) F B (start base st.heap) st' ∧
          sys.sbrk (8*request (nunits n)) st.os = .ok (none,st'.os)) := by
  have hfp : sys.present st.os (start base st.heap).freep :=
    node_present hs hI hF.tiling hF.ring _ hF.ring.freep
  obtain ⟨K,ap,st',hrun,hout⟩ := search_spec ⟨start base st.heap,st.os⟩ hs hI hF.tiling hF.ring
    (Nat.succ_pos _) hu
  refine ⟨ap,st',⟨K,fun k hk => ?_⟩,hout⟩
  show malloc sys base k n st = _
  rw [malloc, if_pos hfp]
  exact hrun k hk

theorem malloc_step (hI : I st.os) (hc : Consistent base (regions st.os) st.heap live)
    (hn : Ordinary n) : ∃ ap st', Returns (fun k => malloc sys base k n st) (ap,st') ∧ I st'.os ∧
      (st'.os = st.os ∨ ∃ o, sys.sbrk (8*request (nunits n)) st.os = .ok (o,st'.os)) ∧
      Begun base (regions st'.os) st'.heap (if ap = 0 then live else ⟨ap,n⟩::live) := by
  obtain ⟨F,hF⟩ := start_sound hc hs.pos
  have hwant := want_le hc
  have hu := nunits_ordinary hn
  obtain ⟨ap,st',hret,hout⟩ := malloc_spec hs hI hF (request_ordinary hn)
  refine ⟨ap,st',hret,?_⟩
  · rcases hout with ⟨⟨hI',t,F',rfl,hlen,ht,hr⟩,hos⟩ | ⟨rfl,href,hsb⟩
    · have hblock : block st'.heap ⟨t.start+8,n⟩ = t := by
        have := hr.sizes t (.inr List.mem_cons_self)
        simp only [block, Nat.add_sub_cancel]
        rw [this]
      have hsame : ∀ g ∈ live, block st'.heap g = block st.heap g :=
        fun g hg => block_congr (fun b hb => hr.sizes b (.inr (List.mem_cons_of_mem t hb))) hg
      have hlive : t::live.map (block st.heap) =
          (Grant.mk (t.start+8) n::live).map (block st'.heap) := by
        rw [List.map_cons, hblock, List.map_congr_left hsame]
      rw [hlive] at ht hr
      rw [if_neg (by omega)]
      refine ⟨hI',hos.imp (·.1) fun ⟨p,hp⟩ => ⟨_,hp⟩,begun_of hs hI' ht hr fun g hg => ?_⟩
      rcases List.mem_cons.mp hg with rfl | hg
      · rw [hblock, hlen, hu]
        show n+8 ≤ _
        omega
      · exact hsame g hg ▸ hwant g hg
    · rw [if_pos rfl]
      exact ⟨href.inv,.inr ⟨_,hsb⟩,begun_of hs href.inv href.tiling href.ring hwant⟩

theorem free_step (hI : I st.os) (hc : Consistent base (regions st.os) st.heap live) {g : Grant}
    (hg : g ∈ live) : ∃ h', Returns (fun k => free (sys.present st.os) k g.ptr st.heap) h' ∧
      Consistent base (regions st.os) h' (live.erase g) := by
  rcases hc with ⟨-,rfl,-⟩ | ⟨⟨F,hF⟩,hwant⟩
  · cases hg
  · have hperm : (live.map (block st.heap)).Perm
        (block st.heap g::(live.erase g).map (block st.heap)) :=
      (List.perm_cons_erase hg).map (block st.heap)
    have ht := hF.tiling.perm hperm
    have hr : Ring base st.heap F (block st.heap g::(live.erase g).map (block st.heap)) :=
      ⟨hF.ring.ring,fun b hb => hF.ring.sizes b (hb.imp_right hperm.mem_iff.mpr),hF.ring.low,
        hF.ring.freep⟩
    have hlen := hwant g hg
    have hptr : plus (block st.heap g).start 1 = g.ptr := by
      have hb := block_bounds hs hI ht (.inr List.mem_cons_self)
      simp only [block, Block.stop] at hb hlen ⊢
      rw [plus_small (by omega)]
      omega
    have hroom : Room base F (block st.heap g) := block_room hs hI ht (by omega)
    obtain ⟨h',F',hrun,ht',hr',-⟩ := free_spec ht hr hroom ⟨hs.anchor _ hI,fun f hf =>
      block_present hs hI ht hr (hf.imp_right fun he => List.mem_cons.mpr (.inl he))⟩
    rw [hptr] at hrun
    exact ⟨h',⟨F.length+1,fun k hk => hrun k hk⟩,
      .inr (begun_of hs hI ht' hr' fun x hx => hwant x (List.mem_of_mem_erase hx))⟩

end

theorem header_kept (hF : Sound base R h F (live.map (block h))) (hw : Written live h h')
    {x : Block} (hx : x ∈ F ∨ x ∈ live.map (block h)) :
    h'.ptr x.start = h.ptr x.start ∧ h'.size x.start = h.size x.start := by
  refine hw.kept x.start fun g hg => ?_
  have hg' : block h g ∈ live.map (block h) := List.mem_map_of_mem hg
  have hlow := hF.above (block h g) (.inr hg')
  by_cases he : x = block h g
  · subst he
    simp only [block] at hlow ⊢
    omega
  · have hap : Apart x (block h g) := by
      rcases hx with hx | hx
      · exact (hF.tiling.clear (block h g) hg' x hx).symm
      · exact hF.tiling.apart.forall hx hg' he
    simp only [Apart, block, Block.stop] at hap hlow ⊢
    omega

theorem write_step (hc : Consistent base R h live) (hw : Written live h h') :
    Consistent base R h' live := by
  rcases hc with ⟨hf,hl,hR⟩ | ⟨⟨F,hF⟩,hwant⟩
  · exact .inl ⟨hw.freep.trans hf,hl,hR⟩
  · have hsame : ∀ g ∈ live, block h' g = block h g := by
      intro g hg
      have hkept := (header_kept hF hw (.inr (List.mem_map_of_mem hg))).2
      simp only [block] at hkept ⊢
      rw [hkept]
    have hbase : h'.ptr base = h.ptr base ∧ h'.size base = h.size base := by
      refine hw.kept base fun g hg => ?_
      have := hF.above (block h g) (.inr (List.mem_map_of_mem hg))
      simp only [block] at this ⊢
      omega
    refine .inr ⟨⟨F,?_⟩,fun g hg => hsame g hg ▸ hwant g hg⟩
    rw [List.map_congr_left hsame]
    refine ⟨hF.tiling,⟨path_congr hbase.1 (fun z hz => ?_) hF.ring.ring,fun x hx => ?_,
      hbase.2.trans hF.ring.low,hw.freep ▸ hF.ring.freep⟩,hF.above⟩
    · obtain ⟨f,hf,rfl⟩ := mem_starts.mp hz
      exact (header_kept hF hw (.inl hf)).1
    · rw [(header_kept hF hw hx).2]
      exact hF.ring.sizes x hx

def Serves (sys : Sys σ) (base : ℕ) (regions : σ → List Block) (I : σ → Prop)
    (allowed : ℕ → State σ → Prop) : Prop :=
  ∀ st live n, I st.os → Consistent base (regions st.os) st.heap live → allowed n st →
    ∃ ap st', Returns (fun k => malloc sys base k n st) (ap,st') ∧ I st'.os ∧
      Consistent base (regions st'.os) st'.heap (if ap = 0 then live else ⟨ap,n⟩::live)

theorem serves_ordinary (hs : Fresh sys base regions I) :
    Serves sys base regions I fun n _ => Ordinary n := by
  intro st live n hI hc hn
  obtain ⟨ap,st',hret,hI',-,hc'⟩ := malloc_step hs hI hc hn
  exact ⟨ap,st',hret,hI',.inr hc'⟩

theorem reach_consistent {allowed : ℕ → State σ → Prop} (hs : Fresh sys base regions I)
    (hstep : Serves sys base regions I allowed) (hr : Reach sys base regions I allowed st live) :
    I st.os ∧ Consistent base (regions st.os) st.heap live := by
  induction hr with
  | start hf hI hR => exact ⟨hI,.inl ⟨hf,rfl,hR⟩⟩
  | malloc _ hn hret ih =>
    obtain ⟨ap,st',hret',hI,hc⟩ := hstep _ _ _ ih.1 ih.2 hn
    obtain ⟨rfl,rfl⟩ := Prod.mk.inj (hret.unique hret')
    exact ⟨hI,hc⟩
  | free _ hg hret ih =>
    obtain ⟨h',hret',hc⟩ := free_step hs ih.1 ih.2 hg
    obtain rfl := hret.unique hret'
    exact ⟨ih.1,hc⟩
  | write _ hw ih => exact ⟨ih.1,write_step ih.2 hw⟩
  | system _ hI hR ih =>
    refine ⟨hI,?_⟩
    rw [hR]
    exact ih.2

/-- In every run the heap is sound, and every call ends; a result that is not
null has the bytes asked for. -/
theorem heap_sound_in_every_run (hs : Fresh sys base regions I)
    (hr : Reach sys base regions I (fun n _ => Ordinary n) st live) :
    Consistent base (regions st.os) st.heap live ∧
    (∀ n, Ordinary n → ∃ ap st', Returns (fun k => malloc sys base k n st) (ap,st') ∧
      (ap ≠ 0 → n+8 ≤ (block st'.heap ⟨ap,n⟩).len)) ∧
    ∀ g ∈ live, ∃ h', Returns (fun k => free (sys.present st.os) k g.ptr st.heap) h' := by
  obtain ⟨hI,hc⟩ := reach_consistent hs (serves_ordinary hs) hr
  refine ⟨hc,fun n hn => ?_,fun g hg => ?_⟩
  · obtain ⟨ap,st',hret,-,-,hc'⟩ := malloc_step hs hI hc hn
    refine ⟨ap,st',hret,fun hne => ?_⟩
    rw [if_neg hne] at hc'
    exact hc'.2 ⟨ap,n⟩ List.mem_cons_self
  · obtain ⟨h',hret,-⟩ := free_step hs hI hc hg
    exact ⟨h',hret⟩

def bump : Sys (List Block) where
  sbrk m R := .ok (if bytes R+16+m < 2^32 then (some (bytes R+16),⟨bytes R+16,m⟩::R)
    else (none,R))
  present _ _ := true

def Bumped (R : List Block) : Prop :=
  ∀ r ∈ R, 16 ≤ r.start ∧ r.stop ≤ bytes R+16 ∧ bytes R+16 < 2^32

theorem bump_fresh : Fresh bump 8 id Bumped := by
  refine ⟨by decide,fun _ _ => rfl,fun _ _ _ _ => rfl,fun s hs r hr => ?_,fun s hs m h0 _ => ?_⟩
  · have := hs r hr
    omega
  · by_cases hm : bytes s+16+m < 2^32
    · have hsb : bump.sbrk m s = .ok (some (bytes s+16),⟨bytes s+16,m⟩::s) :=
        congrArg Except.ok (if_pos hm)
      refine ⟨_,fun r hr => ?_,.inr ⟨_,hsb,rfl,fun r hr => (hs r hr).2.1⟩⟩
      rw [bytes_cons]
      rcases List.mem_cons.mp hr with rfl | hr
      · simp only [Block.stop]
        omega
      · have := hs r hr
        simp only
        omega
    · exact ⟨s,hs,.inl ⟨congrArg Except.ok (if_neg hm),rfl⟩⟩

def untouched : State (List Block) := ⟨⟨fun _ => 0,fun _ => 0,0⟩,[]⟩

theorem malloc_untouched (i : ℕ) : ∃ st, malloc bump 8 (i+5) 100 untouched = .ok (32680,st) := by
  simp [malloc, start, untouched, bump, nunits, search, morecore, request, free, walk, joinUp,
    joinDown, minus, plus, Slot, Heap.setPtr, Heap.setSize, Except.map, Except.bind, take, carve]

/-- A first `malloc` of 100 bytes, and what follows for the next calls. -/
theorem heap_sound_after_malloc : ∃ st,
    Reach bump 8 id Bumped (fun n _ => Ordinary n) st [⟨32680,100⟩] ∧
    Consistent 8 st.os st.heap [⟨32680,100⟩] ∧
    (∃ ap st', Returns (fun k => malloc bump 8 k 100 st) (ap,st') ∧
      (ap ≠ 0 → 108 ≤ (block st'.heap ⟨ap,100⟩).len)) ∧
    ∃ h', Returns (fun k => free (bump.present st.os) k 32680 st.heap) h' := by
  have hn : Ordinary 100 := by unfold Ordinary; decide
  have hI : Bumped untouched.os := fun r hr => nomatch hr
  obtain ⟨ap,st,hret,-⟩ := malloc_step bump_fresh hI (.inl ⟨rfl,rfl,rfl⟩) hn
  obtain rfl : ap = 32680 := by
    obtain ⟨K,hK⟩ := hret
    obtain ⟨st',hrun⟩ := malloc_untouched K
    exact (Prod.mk.inj (Except.ok.inj ((hK (K+5) (by omega)).symm.trans hrun))).1
  have hr : Reach bump 8 id Bumped (fun n _ => Ordinary n) st [⟨32680,100⟩] :=
    .malloc (.start rfl hI rfl) hn hret
  obtain ⟨h₁,h₂,h₃⟩ := heap_sound_in_every_run bump_fresh hr
  exact ⟨st,hr,h₁,h₂ 100 hn,h₃ ⟨32680,100⟩ List.mem_cons_self⟩

/-- When all is freed and the regions follow each other, the ring is one block with
all of the memory, and `malloc` takes what it can from there without `sbrk`. -/
theorem freed_heap_is_one_block (hs : Fresh sys base regions I)
    (hr : Reach sys base regions I (fun n _ => Ordinary n) st []) {a : ℕ}
    (hR : ∀ q ∈ regions st.os, a ≤ q.start ∧ q.stop ≤ a+bytes (regions st.os))
    (hpos : 0 < bytes (regions st.os)) :
    Ring base st.heap [⟨a,bytes (regions st.os)⟩] [] ∧
    ∀ n, 8*nunits n ≤ bytes (regions st.os) → ∃ ap st',
      Returns (fun k => malloc sys base k n st) (ap,st') ∧ ap ≠ 0 ∧ st'.os = st.os := by
  obtain ⟨hI,hc⟩ := reach_consistent hs (serves_ordinary hs) hr
  rcases hc with ⟨-,-,hnil⟩ | ⟨⟨F,hF⟩,-⟩
  · rw [hnil, bytes_nil] at hpos
    omega
  · obtain rfl := hF.tiling.whole hR hpos
    refine ⟨hF.ring,fun n hn => ?_⟩
    obtain ⟨ap,st',⟨-,t,-,rfl,-⟩,hos,hrun⟩ := round_granted hs hI hF.tiling hF.ring
      (Nat.succ_pos _) List.mem_cons_self hn
    refine ⟨t.start+8,st',⟨2,fun k hk => ?_⟩,Nat.succ_ne_zero _,hos⟩
    show malloc sys base k n st = _
    rw [malloc, start, if_neg (hF.freep_pos hs.pos),
      if_pos (node_present hs hI hF.tiling hF.ring _ hF.ring.freep)]
    exact hrun k k hk

/-- A block of 100 bytes is taken and given back. -/
theorem freed_heap_after_malloc : ∃ st, Reach bump 8 id Bumped (fun n _ => Ordinary n) st [] ∧
    Ring 8 st.heap [⟨16,bytes st.os⟩] [] := by
  have hn : Ordinary 100 := by unfold Ordinary; decide
  have hI : Bumped untouched.os := fun r hr => nomatch hr
  obtain ⟨ap,st,hret,hI',-,hc⟩ := malloc_step bump_fresh hI (.inl ⟨rfl,rfl,rfl⟩) hn
  have hr : Reach bump 8 id Bumped (fun n _ => Ordinary n) st (if ap = 0 then [] else [⟨ap,100⟩]) :=
    .malloc (.start rfl hI rfl) hn hret
  have hne : ap ≠ 0 := by
    obtain ⟨K,hK⟩ := hret
    obtain ⟨st',hrun⟩ := malloc_untouched K
    rw [(Prod.mk.inj (Except.ok.inj ((hK (K+5) (by omega)).symm.trans hrun))).1]
    decide
  rw [if_neg hne] at hc hr
  obtain ⟨h',hret',-⟩ := free_step bump_fresh hI' (.inr hc) List.mem_cons_self
  have hr' := Reach.free hr List.mem_cons_self hret'
  rw [List.erase_cons_head] at hr'
  have hpos : 0 < bytes st.os := by
    obtain ⟨⟨F,hF⟩,hw⟩ := hc
    have h₁ := hF.tiling.total
    have h₂ := hw _ List.mem_cons_self
    simp only [List.map_cons, bytes_cons, id] at h₁
    omega
  exact ⟨_,hr',(freed_heap_is_one_block bump_fresh hr' (a := 16)
    (fun q hq => ⟨(hI' q hq).1,by have := (hI' q hq).2.1; simp only [id]; omega⟩) hpos).1⟩

end Xv6.HeapRuns
