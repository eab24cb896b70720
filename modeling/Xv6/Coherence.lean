import Xv6.ReadyInvariant
import Xv6.MutexEffects

/-!
# Threads, CPUs and waiters

What holds of the control state whatever the ready queues contain: no thread
runs on two CPUs or runs while it is blocked, and a slot without a live process
has no thread to switch to and nobody who would wake it.
-/

set_option autoImplicit false

namespace Xv6.Coherence
open KernelState RingBuffer NullQueue ReadyQueue ProcessCalls MutexCalls
open Machine ProcessFrames ProcessEffects MutexEffects
open ReadyInvariant

variable {C : Type} {s t u : Kernel C} {c : C} {p q np : Slot} {m : MuxId} {k : Pc}

def waker : Pc → Option Slot
  | .munlockWake _ q | .signalWake _ q => some q
  | _ => none

def Waits (s : Kernel C) (q : Slot) : Prop :=
  q ∈ list s.wqueue ∨ (∃ m, q ∈ list (s.muxes m).cv) ∨ ∃ x, waker (s.pc x) = some q

structure Coherent (s : Kernel C) : Prop where
  single : ∀ c d p, s.cpu c = some p → s.cpu d = some p → c = d
  awake : ∀ c p, s.cpu c = some p → ¬blocked s p
  ticked : ∀ q, s.preempted q = true → resumePc (s.pc q) = none
  live : ∀ c p, s.cpu c = some p → ¬Dead (s.proc p).state
  idle : ∀ q, Dead (s.proc q).state → ¬blocked s q
  embryo : ∀ p np, Forking s p np → (s.proc np).state = .embryo
  owner : ∀ p q np, Forking s p np → Forking s q np → p = q
  clear : ∀ q, Dead (s.proc q).state → ¬Waits s q

theorem dead_embryo {x : ProcState} (h : x = .embryo) : Dead x := .inr (.inl h)

/-- Threads and CPUs stay; live processes change state and join queues. -/
theorem coherent_mono (hs : Coherent s) (hcpu : t.cpu = s.cpu) (hpc : t.pc = s.pc)
    (hpre : t.preempted = s.preempted)
    (hst : ∀ q, (t.proc q).state = (s.proc q).state ∨
      ¬Dead (s.proc q).state ∧ ¬Dead (t.proc q).state)
    (hw : ∀ q, Waits t q → Waits s q ∨ ¬Dead (s.proc q).state) : Coherent t := by
  have hd : ∀ q, Dead (t.proc q).state → Dead (s.proc q).state := by
    intro q hq
    rcases hst q with h | h
    · exact h ▸ hq
    · exact absurd hq h.2
  have hf : ∀ x y, Forking t x y → Forking s x y := by
    intro x y h
    rwa [Forking, hpc] at h
  have hb : ∀ q, blocked t q ↔ blocked s q := by
    intro q
    rw [blocked, blocked, hpc, hpre]
  refine ⟨?_,fun c p hc => ?_,?_,fun c p hc h => ?_,fun q hq => ?_,fun x y hxy => ?_,
    fun x y z hx hy => ?_,fun q hq hwq => ?_⟩
  · rw [hcpu]
    exact hs.single
  · rw [hb]
    exact hs.awake c p (hcpu ▸ hc)
  · rw [hpre, hpc]
    exact hs.ticked
  · exact hs.live c p (hcpu ▸ hc) (hd p h)
  · rw [hb]
    exact hs.idle q (hd q hq)
  · have he := hs.embryo x y (hf x y hxy)
    rcases hst y with h | h
    · exact h.trans he
    · exact absurd (dead_embryo he) h.1
  · exact hs.owner x y z (hf x z hx) (hf y z hy)
  · rcases hw q hwq with h | h
    · exact hs.clear q (hd q hq) h
    · exact h (hd q hq)

theorem coherent_setProc (hs : Coherent s) (r : Proc)
    (hr : r.state = (s.proc q).state ∨ ¬Dead (s.proc q).state ∧ ¬Dead r.state) :
    Coherent (s.setProc q r) := by
  refine coherent_mono (t := s.setProc q r) hs rfl rfl rfl (fun x => ?_) (fun x => .inl)
  by_cases hx : x = q
  · subst hx
    simpa using hr
  · exact .inl (by simp [hx])

theorem coherent_makeRunnable (hs : Coherent s) (hq : ¬Dead (s.proc q).state)
    (h : makeRunnable s q = .ok t) : Coherent t := by
  obtain ⟨k,-,-,rfl⟩ := makeRunnable_ok h
  have hr := coherent_setProc (q := q) hs { s.proc q with state := .runnable }
    (.inr ⟨hq,by simp [Dead]⟩)
  exact coherent_mono hr rfl rfl rfl (fun _ => .inl rfl) (fun _ => .inl)

theorem coherent_woken (hs : Coherent s) (h : Woken s t) : Coherent t := by
  refine coherent_mono hs (woken_cpu h) (woken_pc h) (woken_preempted h) (fun q => ?_)
    (fun q hq => ?_)
  · rcases h.state q with hq | ⟨h1,h2⟩
    · exact .inl hq
    · exact .inr (by simp [h1, h2, Dead])
  · have hw : t.wqueue = s.wqueue := by rw [h.frame]
    rw [Waits, hw, woken_muxes h, woken_pc h] at hq
    exact .inl hq

theorem waits_setPc (h : Waits (s.setPc p k) q) : Waits s q ∨ waker k = some q := by
  rcases h with h | h | ⟨x,hx⟩
  · exact .inl (.inl h)
  · exact .inl (.inr (.inl h))
  · by_cases hxp : x = p
    · exact .inr (by simpa [hxp] using hx)
    · exact .inl (.inr (.inr ⟨x,by simpa [hxp] using hx⟩))

theorem waits_enroll {w : Queue Slot WAITERS} (h : enroll s.wqueue p = some w)
    (hq : Waits (s.setWqueue w) q) : Waits s q ∨ q = p := by
  rcases hq with hq | hq
  · exact ((mem_enroll _ _ _ _ h).mp hq).imp_left .inl
  · exact .inl (.inr hq)

theorem waits_join {w : Queue Slot WAITERS} (h : enroll (s.muxes m).cv p = some w)
    (hq : Waits (joinCv s p m w) q) : Waits s q ∨ q = p := by
  rcases hq with hq | ⟨i,hq⟩ | hq
  · exact .inl (.inl hq)
  · exact ((mem_joinCv h).mp hq).imp (fun hq => .inr (.inl ⟨i,hq⟩)) And.left
  · exact .inl (.inr (.inr hq))

theorem waits_shift (h : Waits (s.setWqueue (shift s.wqueue)) q) : Waits s q :=
  h.imp_left (mem_shift _ _)

theorem waits_leave {x : Slot} (h : Waits (leaveCv s m x) q) : Waits s q :=
  h.imp_right (Or.imp_left fun ⟨i,hi⟩ => ⟨i,mem_leaveCv hi⟩)

variable [DecidableEq C]

theorem yield_settled (h : yield s c p = .ok t) (hs : Settled s) : s.lock = none ∧ ∃ k,
    t = ((((setState (s.setLock (some p)) p .runnable).setRing k
      (push (s.ring k) (some p))).setPreempted p true).setCpu c none).setLock none := by
  obtain ⟨-,hl,u,hu,h⟩ := yield_ok h
  obtain ⟨k,-,-,rfl⟩ := makeRunnable_ok hu
  exact ⟨hl,k,(sched_settled h hs).2⟩

section
variable (hs : Coherent s) (hc : s.cpu c = some p)
include hs hc

section
omit [DecidableEq C]

theorem coherent_setPc (hk : resumePc k = none)
    (hf : ∀ np, k = .forkAlloc np ∨ k = .forkReady np → (s.proc np).state = .embryo ∧
      ∀ x, Forking s x np → x = p)
    (hw : ∀ q, waker k = some q → ¬Dead (s.proc q).state) : Coherent (s.setPc p k) := by
  have hfork : ∀ x np, Forking (s.setPc p k) x np →
      x = p ∧ (k = .forkAlloc np ∨ k = .forkReady np) ∨ x ≠ p ∧ Forking s x np := by
    intro x np h
    by_cases hx : x = p
    · exact .inl ⟨hx,by simpa [Forking, hx] using h⟩
    · exact .inr ⟨hx,by simpa [Forking, hx] using h⟩
  have hpre : s.preempted p ≠ true := fun h => hs.awake c p hc (.inl h)
  have hb : ∀ q, blocked (s.setPc p k) q → q ≠ p ∧ blocked s q := by
    intro q hq
    have hqp : q ≠ p := by
      rintro rfl
      simp [blocked, hk, hpre] at hq
    exact ⟨hqp,by simpa [blocked, hqp] using hq⟩
  refine ⟨hs.single,fun d q hd h => hs.awake d q hd (hb q h).2,fun q hq => ?_,hs.live,
    fun q hq h => hs.idle q hq (hb q h).2,fun x np h => ?_,fun x y np hx hy => ?_,fun q hq h => ?_⟩
  · by_cases hqp : q = p
    · simp [hqp, hk]
    · simpa [hqp] using hs.ticked q hq
  · rcases hfork x np h with ⟨-,h⟩ | ⟨-,h⟩
    · exact (hf np h).1
    · exact hs.embryo x np h
  · rcases hfork x np hx with ⟨h1,h2⟩ | ⟨h1,h2⟩ <;> rcases hfork y np hy with ⟨h3,h4⟩ | ⟨h3,h4⟩
    · rw [h1, h3]
    · exact absurd ((hf np h2).2 y h4) h3
    · exact absurd ((hf np h4).2 x h2) h1
    · exact hs.owner x y np h2 h4
  · rcases waits_setPc h with h | h
    · exact hs.clear q hq h
    · exact hw q h hq

theorem coherent_goto (hk : resumePc k = none) (hp : Plain k) (hw : waker k = none) :
    Coherent (s.setPc p k) := by
  refine coherent_setPc hs hc hk (fun np h => ?_) (by simp [hw])
  rcases h with h | h
  · exact absurd h (hp np).1
  · exact absurd h (hp np).2

end

omit [DecidableEq C] in
theorem coherent_ret (v : ℤ) : Coherent (ret s p v) :=
  coherent_goto (coherent_setProc (q := p) hs { s.proc p with eax := v } (.inl rfl)) hc rfl
    (by simp [Plain]) rfl

theorem coherent_leave (hcpu : t.cpu = (s.setCpu c none).cpu) (hq : t.wqueue = s.wqueue)
    (hcv : ∀ m, (t.muxes m).cv = (s.muxes m).cv) (hpc : ∀ q, q ≠ p → t.pc q = s.pc q)
    (hf : ∀ np, Forking t p np → Forking s p np)
    (hw : ∀ q, waker (t.pc p) = some q → waker (s.pc p) = some q)
    (hpre : ∀ q, q ≠ p → t.preempted q = s.preempted q)
    (htick : t.preempted p = true → resumePc (t.pc p) = none)
    (hst : ∀ q, q ≠ p → (t.proc q).state = (s.proc q).state)
    (hend : ¬Dead (t.proc p).state ∨ (¬blocked t p ∧ ¬Waits s p)) : Coherent t := by
  have hon : ∀ d q, t.cpu d = some q → s.cpu d = some q ∧ q ≠ p := by
    intro d q hd
    rw [hcpu] at hd
    simp only [Kernel.setCpu_cpu] at hd
    split at hd
    · simp at hd
    · refine ⟨hd,?_⟩
      rintro rfl
      exact absurd (hs.single d c q hd hc) ‹_›
  have hb : ∀ q, q ≠ p → (blocked t q ↔ blocked s q) := by
    intro q hq
    rw [blocked, blocked, hpre q hq, hpc q hq]
  have hf : ∀ x np, Forking t x np → Forking s x np := by
    intro x np h
    by_cases hx : x = p
    · subst hx
      exact hf np h
    · rwa [Forking, hpc x hx] at h
  have hwt : ∀ q, Waits t q → Waits s q := by
    intro q h
    rw [Waits, hq] at h
    simp only [hcv] at h
    rcases h with h | h | ⟨x,hx⟩
    · exact .inl h
    · exact .inr (.inl h)
    · refine .inr (.inr ⟨x,?_⟩)
      by_cases hxp : x = p
      · subst hxp
        exact hw q hx
      · rwa [hpc x hxp] at hx
  refine ⟨fun d e q hd he => ?_,fun d q hd => ?_,fun q hq => ?_,fun d q hd => ?_,fun q hq => ?_,
    fun x np h => ?_,fun x y np hx hy => hs.owner x y np (hf x np hx) (hf y np hy),fun q hq h => ?_⟩
  · exact hs.single d e q (hon d q hd).1 (hon e q he).1
  · obtain ⟨hd,hq⟩ := hon d q hd
    rw [hb q hq]
    exact hs.awake d q hd
  · by_cases hqp : q = p
    · subst hqp
      exact htick hq
    · rw [hpc q hqp]
      exact hs.ticked q (hpre q hqp ▸ hq)
  · obtain ⟨hd,hq⟩ := hon d q hd
    rw [hst q hq]
    exact hs.live d q hd
  · by_cases hqp : q = p
    · subst hqp
      exact (hend.resolve_left (fun h => h hq)).1
    · rw [hb q hqp]
      exact hs.idle q (hst q hqp ▸ hq)
  · have he := hs.embryo x np (hf x np h)
    have hn : np ≠ p := by
      rintro rfl
      exact hs.live c np hc (dead_embryo he)
    rw [hst np hn]
    exact he
  · by_cases hqp : q = p
    · subst hqp
      exact (hend.resolve_left (fun h => h hq)).2 (hwt q h)
    · exact hs.clear q (hst q hqp ▸ hq) (hwt q h)

end

theorem dispatch_blocked (h : dispatch s c p = .ok t) : blocked s p := by
  obtain ⟨ch,k,l,-,⟨hp,-⟩ | ⟨-,hr,-⟩⟩ := dispatch_ok h
  · exact .inl hp
  · exact .inr (by simp [hr])

theorem coherent_dispatch (hs : Coherent s) (h : dispatch s c p = .ok t) :
    Coherent t := by
  have hblk := dispatch_blocked h
  have hoff : ∀ d, s.cpu d ≠ some p := fun d hd => hs.awake d p hd hblk
  have hlive : ¬Dead (s.proc p).state := fun hd => hs.idle p hd hblk
  obtain ⟨ch,k,l,rfl,hk⟩ := dispatch_ok h
  have hon : ∀ d q, (switchTo s c p ch k l).cpu d = some q → d = c ∧ q = p ∨ s.cpu d = some q := by
    intro d q hd
    by_cases hdc : d = c
    · exact .inl ⟨hdc,by simpa [switchTo, hdc, eq_comm] using hd⟩
    · exact .inr (by simpa [switchTo, hdc] using hd)
  have hpc : ∀ q, q ≠ p → (switchTo s c p ch k l).pc q = s.pc q :=
    fun q hq => by simp [switchTo, hq]
  have hst : ∀ q, q ≠ p → (switchTo s c p ch k l).proc q = s.proc q := fun q hq => by
    simp [switchTo, hq]
  have hkp : resumePc k = none ∧ waker k = none ∨ k = s.pc p := by
    rcases hk with ⟨-,h,-⟩ | ⟨-,hr,-⟩
    · exact .inr h
    · refine .inl ⟨resumePc_final hr,?_⟩
      cases hs : s.pc p <;> simp only [hs, resumePc, Option.some.injEq, reduceCtorEq] at hr <;>
        subst hr <;> rfl
  have hres : resumePc k = none := by
    rcases hk with ⟨hp,rfl,-⟩ | ⟨-,hr,-⟩
    · exact hs.ticked p hp
    · exact resumePc_final hr
  have hb : ∀ q, blocked (switchTo s c p ch k l) q → q ≠ p ∧ blocked s q := by
    intro q hq
    have hqp : q ≠ p := by
      rintro rfl
      simp [blocked, switchTo, hres] at hq
    exact ⟨hqp,by simpa [blocked, switchTo, hqp] using hq⟩
  have hf : ∀ x np, Forking (switchTo s c p ch k l) x np → Forking s x np := by
    intro x np h
    by_cases hx : x = p
    · subst hx
      rcases hk with ⟨-,rfl,-⟩ | ⟨-,hr,-⟩
      · simpa [Forking, switchTo] using h
      · simp [Forking, switchTo, resumePc_plain hr np] at h
    · simpa [Forking, switchTo, hx] using h
  have hw : ∀ q, Waits (switchTo s c p ch k l) q → Waits s q := by
    rintro q (h | h | ⟨x,hx⟩)
    · exact .inl h
    · exact .inr (.inl h)
    · by_cases hxp : x = p
      · subst hxp
        rcases hkp with ⟨-,h⟩ | h
        · simp [switchTo, h] at hx
        · exact .inr (.inr ⟨x,by simpa [switchTo, h] using hx⟩)
      · exact .inr (.inr ⟨x,by rwa [hpc x hxp] at hx⟩)
  refine ⟨fun d e q hd he => ?_,fun d q hd h => ?_,fun q hq => ?_,fun d q hd => ?_,fun q hq h => ?_,
    fun x np h => ?_,fun x y np hx hy => hs.owner x y np (hf x np hx) (hf y np hy),fun q hq h => ?_⟩
  · rcases hon d q hd with ⟨h1,rfl⟩ | h1 <;> rcases hon e q he with ⟨h2,h3⟩ | h2
    · rw [h1, h2]
    · exact absurd h2 (hoff e)
    · exact absurd (h3 ▸ h1) (hoff d)
    · exact hs.single d e q h1 h2
  · obtain ⟨hqp,hq⟩ := hb q h
    rcases hon d q hd with ⟨-,h⟩ | h
    · exact hqp h
    · exact hs.awake d q h hq
  · by_cases hqp : q = p
    · subst hqp
      simpa [switchTo] using hres
    · rw [hpc q hqp]
      exact hs.ticked q (by simpa [switchTo, hqp] using hq)
  · rcases hon d q hd with ⟨-,rfl⟩ | h
    · simp [switchTo, Dead]
    · rw [hst q (fun hqp => hoff d (hqp ▸ h))]
      exact hs.live d q h
  · obtain ⟨hqp,h⟩ := hb q h
    exact hs.idle q (hst q hqp ▸ hq) h
  · have he := hs.embryo x np (hf x np h)
    have hn : np ≠ p := by
      rintro rfl
      exact hlive (dead_embryo he)
    rw [hst np hn]
    exact he
  · have hqp : q ≠ p := by
      rintro rfl
      simp [switchTo, Dead] at hq
    exact hs.clear q (hst q hqp ▸ hq) (hw q h)

theorem coherent_scanFrom {i : ℕ} (hs : Coherent s) (h : scanFrom s c i = .ok t) : Coherent t := by
  have hscan : ∀ n, Coherent (s.setScan c n) := fun n =>
    coherent_mono hs rfl rfl rfl (fun _ => .inl rfl) (fun _ => .inl)
  rcases scanFrom_ok h with rfl | ⟨q,-,hd⟩
  · exact coherent_mono hs rfl rfl rfl (fun _ => .inl rfl) (fun _ => .inl)
  · exact coherent_dispatch (hscan _) hd

theorem coherent_sched (hs : Coherent (s.setCpu c none)) (h : sched s c p = .ok t) :
    Coherent t := by
  obtain ⟨-,-,-,⟨-,rfl⟩ | ⟨i,-,hi⟩⟩ := sched_ok h
  · exact coherent_mono hs rfl rfl rfl (fun _ => .inl rfl) (fun _ => .inl)
  · exact coherent_scanFrom hs hi

omit [DecidableEq C] in
theorem coherent_setLock (hs : Coherent s) (l : Option Slot) : Coherent (s.setLock l) :=
  coherent_mono hs rfl rfl rfl (fun _ => .inl rfl) (fun _ => .inl)

theorem coherent_sleep (hs : Coherent s) (hc : s.cpu c = some p) {r : Proc}
    (hr : r.state = .sleeping) (hk : resumePc k ≠ none)
    (h : sched ((s.setProc p r).setPc p k) c p = .ok t) : Coherent t := by
  have hpre : s.preempted p ≠ true := fun h => hs.awake c p hc (.inl h)
  have hk' : Plain k ∧ waker k = none := by
    cases k <;> simp [resumePc, Plain, waker] at hk ⊢
  refine coherent_sched ?_ h
  refine coherent_leave hs hc rfl rfl (fun _ => rfl) (fun q hq => by simp [hq])
    (fun np hf => ?_) (fun q hq => ?_) (fun _ _ => rfl) (fun h => absurd h hpre)
    (fun q hq => by simp [hq]) (.inl (by simp [hr, Dead]))
  · simp [Forking, hk'.1 np] at hf
  · simp [hk'.2] at hq

section
omit [DecidableEq C]

theorem coherent_dead (hs : Coherent s) (hq : Dead (s.proc q).state) (r : Proc)
    (hr : Dead r.state) (ho : ∀ x, Forking s x q → r.state = .embryo) :
    Coherent (s.setProc q r) := by
  have hd : ∀ x, Dead ((s.setProc q r).proc x).state ↔ Dead (s.proc x).state := by
    intro x
    by_cases hx : x = q
    · simp [hx, hr, hq]
    · simp [hx]
  refine ⟨hs.single,hs.awake,hs.ticked,fun c p hc => ?_,fun x hx => ?_,fun x y hf => ?_,hs.owner,
    fun x hx => ?_⟩
  · rw [hd]
    exact hs.live c p hc
  · exact hs.idle x ((hd x).mp hx)
  · by_cases hy : y = q
    · subst hy
      simpa using ho x hf
    · simpa [hy] using hs.embryo x y hf
  · exact hs.clear x ((hd x).mp hx)

theorem coherent_absent (hs : Coherent s) (hq : Dead (s.proc q).state) :
    Coherent (s.setPc q .absent) := by
  have hf : ∀ x y, Forking (s.setPc q .absent) x y → Forking s x y := by
    intro x y h
    by_cases hx : x = q
    · simp [Forking, hx] at h
    · simpa [Forking, hx] using h
  have hpre : s.preempted q ≠ true := fun h => hs.idle q hq (.inl h)
  have hb : ∀ x, blocked (s.setPc q .absent) x → blocked s x := by
    intro x h
    by_cases hx : x = q
    · simp [blocked, hx, resumePc, hpre] at h
    · simpa [blocked, hx] using h
  refine ⟨hs.single,fun c p hc h => hs.awake c p hc (hb p h),fun x hx => ?_,hs.live,
    fun x hx h => hs.idle x hx (hb x h),fun x y h => hs.embryo x y (hf x y h),
    fun x y np hx hy => hs.owner x y np (hf x np hx) (hf y np hy),fun x hx h => ?_⟩
  · by_cases hxq : x = q
    · simp [hxq, resumePc]
    · simpa [hxq] using hs.ticked x hx
  · rcases waits_setPc h with h | h
    · exact hs.clear x hx h
    · simp [waker] at h

theorem coherent_publish (hs : Coherent s) (hq : Dead (s.proc q).state)
    (ho : ∀ x, ¬Forking s x q) : Coherent ((setState s q .runnable).setPc q .newborn) := by
  have hoff : ∀ c, s.cpu c ≠ some q := fun c hc => hs.live c q hc hq
  have hpre : s.preempted q ≠ true := fun h => hs.idle q hq (.inl h)
  have hf : ∀ x y, Forking ((setState s q .runnable).setPc q .newborn) x y → Forking s x y := by
    intro x y h
    by_cases hx : x = q
    · simp [Forking, hx] at h
    · simpa [Forking, hx] using h
  have hd : ∀ x, Dead (((setState s q .runnable).setPc q .newborn).proc x).state →
      x ≠ q ∧ Dead (s.proc x).state := by
    intro x h
    by_cases hx : x = q
    · simp [hx, Dead] at h
    · exact ⟨hx,by simpa [hx] using h⟩
  have hb : ∀ x, x ≠ q → (blocked ((setState s q .runnable).setPc q .newborn) x ↔ blocked s x) := by
    intro x hx
    simp [blocked, hx]
  refine ⟨hs.single,fun c p hc => ?_,fun x hx => ?_,fun c p hc h => hs.live c p hc (hd p h).2,
    fun x hx => ?_,fun x y h => ?_,fun x y np hx hy => hs.owner x y np (hf x np hx) (hf y np hy),
    fun x hx h => ?_⟩
  · rw [hb p (fun h => hoff c (h ▸ hc))]
    exact hs.awake c p hc
  · by_cases hxq : x = q
    · exact absurd (hxq ▸ hx) hpre
    · simpa [hxq] using hs.ticked x hx
  · rw [hb x (hd x hx).1]
    exact hs.idle x (hd x hx).2
  · have hy : y ≠ q := by
      rintro rfl
      exact ho x (hf x y h)
    simpa [hy] using hs.embryo x y (hf x y h)
  · rcases waits_setPc h with h | h
    · exact hs.clear x (hd x hx).2 h
    · simp [waker] at h

end

end Xv6.Coherence
