import Xv6.CoherentRuns

/-!
# Dead processes and the wait queues

`exit` takes a process out of no wait queue: its removal loop stops at the first
condition queue that holds the process, and the global wait queue is not
touched. When only processes without an entry exit, no dead process is ever in a
queue.
-/

set_option autoImplicit false

namespace Xv6.ExitQueues
open KernelState NullQueue ReadyQueue ProcessCalls MutexCalls
open Machine ProcessFrames ProcessEffects MutexEffects
open TransitionRun ReadyInvariant Coherence CoherentRuns

variable {C : Type} [DecidableEq C] {s t u : Kernel C} {c : C} {p q np : Slot} {m : MuxId}

theorem sched_frame (h : sched s c p = .ok t) :
    (∀ x, ¬blocked s x → t.proc x = s.proc x) ∧
    ∀ x, resumePc (s.pc x) = none → t.pc x = s.pc x := by
  have hd : ∀ {u v : Kernel C} {q : Slot}, u.proc = s.proc → u.pc = s.pc →
      u.preempted = s.preempted → dispatch u c q = .ok v →
      (∀ x, ¬blocked s x → v.proc x = s.proc x) ∧
      ∀ x, resumePc (s.pc x) = none → v.pc x = s.pc x := by
    intro u v q h1 h2 h3 hv
    have hb := dispatch_blocked hv
    rw [blocked, h2, h3] at hb
    obtain ⟨ch,k,l,rfl,hk⟩ := dispatch_ok hv
    refine ⟨fun x hx => ?_,fun x hx => ?_⟩
    · have hxq : x ≠ q := by
        rintro rfl
        exact hx hb
      simp [switchTo, hxq, h1]
    · by_cases hxq : x = q
      · subst hxq
        rcases hk with ⟨-,rfl,-⟩ | ⟨-,hr,-⟩
        · simp [switchTo, h2]
        · simp [h2, hx] at hr
      · simp [switchTo, hxq, h2]
  obtain ⟨-,-,-,⟨-,rfl⟩ | ⟨i,-,hi⟩⟩ := sched_ok h
  · exact ⟨fun _ _ => rfl,fun _ _ => rfl⟩
  · rcases scanFrom_ok hi with rfl | ⟨q,-,hq⟩
    · exact ⟨fun _ _ => rfl,fun _ _ => rfl⟩
    · exact hd (u := (s.setCpu c none).setScan c (some (q.val+1))) rfl rfl rfl hq

theorem exit_waits (hs : Coherent s) (hc : s.cpu c = some p) (hu : s.pc p = .user)
    (h : exit s c p = .ok t) :
    (t.proc p).state = .zombie ∧ t.wqueue = s.wqueue ∧
    (∀ m, (t.muxes m).cv = (s.muxes m).cv) ∧ (Waits t p ↔ Waits s p) := by
  obtain ⟨hm,hq,-⟩ := exit_muxes h
  have hcv : ∀ m, (t.muxes m).cv = (s.muxes m).cv := by
    intro m
    rw [hm m]
    split <;> rfl
  have hlater := fun x => (exit_procs h x).2.2
  obtain ⟨-,-,-,u,hw,hsched⟩ := exit_ok h
  obtain ⟨hproc,hpc⟩ := sched_frame hsched
  have hupc := woken_pc hw
  have hpre : u.preempted p ≠ true := by
    rw [woken_preempted hw]
    exact fun h => hs.awake c p hc (.inl h)
  refine ⟨?_,hq,hcv,?_⟩
  · rw [hproc p]
    · simp [retired]
    · rintro (h | h)
      · exact hpre h
      · simp [retired, resumePc] at h
  · rw [Waits, Waits, hq]
    simp only [hcv]
    refine or_congr_right (or_congr_right ⟨?_,?_⟩)
    · rintro ⟨x,hx⟩
      refine ⟨x,?_⟩
      rcases hlater x with h | h | h
      · rw [h] at hx
        split at hx
        · simp [waker] at hx
        · exact hx
      · generalize (if x = p then Pc.exited else s.pc x) = k at h
        cases k <;> simp only [resumePc, Option.some.injEq, reduceCtorEq] at h <;>
          rw [← h] at hx <;> simp [waker] at hx
      · generalize t.pc x = k at h hx
        cases k <;> simp [isProcessPc, waker] at h hx
    · rintro ⟨x,hx⟩
      have hxp : x ≠ p := by
        rintro rfl
        simp [hu, waker] at hx
      have hr : (retired u p).pc x = s.pc x := by
        simp [retired, forget, released, hxp, hupc]
      refine ⟨x,?_⟩
      rw [hpc x, hr]
      · exact hx
      · rw [hr]
        generalize s.pc x = k at hx
        cases k <;> simp [waker, resumePc] at hx ⊢

theorem wake_spares_dead (hs : Coherent s) {a : Act C} (ha : a = .munlockWake c ∨ a = .signalWake c)
    (h : step s a = .ok t) (hq : Dead (s.proc q).state) : (t.proc q).state = (s.proc q).state := by
  have hk : ∀ {p x : Slot} {u : Kernel C}, waker (s.pc p) = some x →
      makeRunnable (s.setLock (some p)) x = .ok u →
      (((ret u p 1).setLock none).proc q).state = (s.proc q).state := by
    intro p x u hp hu
    obtain ⟨k,-,-,rfl⟩ := makeRunnable_ok hu
    have hqx : q ≠ x := by
      rintro rfl
      exact hs.clear q hq (.inr (.inr ⟨p,hp⟩))
    by_cases hqp : q = p
    · subst hqp
      simp [ret, hqx]
    · simp [ret, hqx, hqp]
  obtain ⟨c,p,-,hsync⟩ := sync_step (a := a) (by rcases ha with rfl | rfl <;> rfl) h
  rcases ha with rfl | rfl
  · cases hsync with
    | munlockWake pc hf woken => exact hk (by rw [pc]; rfl) woken
  · cases hsync with
    | signalWake pc hf woken => exact hk (by rw [pc]; rfl) woken

/-- Dead processes in the wait queues. In a run in which processes exit only
when they stand in no queue and nobody is about to wake them, no dead slot is
ever in a queue or about to be woken, and the wakeups of `sys_munlock` and
`sys_signalcv` change no dead slot. An exit in any state reached keeps all
queues as they are, so it leaves its process waiting exactly when it was; and
its removal loop stays inside the condition queues when it was not. -/
theorem exit_queues_iff {s₀ : Kernel C} (h₀ : Coherent s₀) (h : Reaches step ExitsClear s₀ s) :
    (∀ q, Dead (s.proc q).state → ¬Waits s q) ∧
    (∀ c t q, step s (.munlockWake c) = .ok t ∨ step s (.signalWake c) = .ok t →
      Dead (s.proc q).state → (t.proc q).state = (s.proc q).state) ∧
    (∀ c p t, s.cpu c = some p → step s (.exit c) = .ok t →
      (t.proc p).state = .zombie ∧ t.wqueue = s.wqueue ∧
      (∀ m, (t.muxes m).cv = (s.muxes m).cv) ∧ (Waits t p ↔ Waits s p)) ∧
    ∀ p, ¬Waits s p → ∃ u, (List.finRange MUX_MAXNUM).foldlM (dropMutex p) s = .ok u := by
  have hs := reaches_invariant Coherent (fun _ _ _ hv ha hw => coherent_step hv ha hw) h₀ h
  refine ⟨hs.clear,fun c t q ht hq => ?_,fun c p t hc ht => ?_,fun p hp => ?_⟩
  · rcases ht with ht | ht
    · exact wake_spares_dead hs (.inl rfl) ht hq
    · exact wake_spares_dead hs (.inr rfl) ht hq
  · obtain ⟨x,hx,hu,ht⟩ := call_ok ht
    obtain rfl := Option.some.inj (hc.symm.trans hx)
    exact exit_waits hs hc hu ht
  · exact ⟨_,dropMutexes_eq _ (fun m _ _ hm => hp (.inr (.inl ⟨m,hm⟩)))⟩

theorem coherent_solo (c : C) : Coherent (solo c) := by
  have hcpu : ∀ d p, (solo c).cpu d = some p → d = c ∧ p = 0 := by
    intro d p h
    simpa [solo, eq_comm] using h
  have hpc : ∀ p, (solo c).pc p = .user ∨ (solo c).pc p = .absent := by
    intro p
    by_cases hp : p = 0 <;> simp [solo, hp]
  have hb : ∀ p, ¬blocked (solo c) p := by
    rintro p (h | h)
    · simp [solo, boot] at h
    · rcases hpc p with hp | hp <;> simp [hp, resumePc] at h
  have hf : ∀ p np, ¬Forking (solo c) p np := by
    intro p np h
    rcases hpc p with hp | hp <;> simp [Forking, hp] at h
  refine ⟨fun d e p hd he => ?_,fun d p _ => hb p,fun p hp => ?_,fun d p hd => ?_,fun p _ => hb p,
    fun p np h => absurd h (hf p np),fun p q np h => absurd h (hf p np),fun q _ hq => ?_⟩
  · rw [(hcpu d p hd).1, (hcpu e p he).1]
  · simp [solo, boot] at hp
  · rw [(hcpu d p hd).2]
    simp [solo, Dead]
  · rcases hq with h | ⟨m,h⟩ | ⟨x,h⟩
    · simp [solo, boot, list_empty] at h
    · simp [solo, boot, list_empty] at h
    · rcases hpc x with hx | hx <;> simp [hx, waker] at h

theorem exit_queues_after_wait : ∃ s : Kernel (Fin 2),
    ((s.proc 1).state = .sleeping ∧ 1 ∈ list s.wqueue) ∧
    (∀ q, Dead (s.proc q).state → ¬Waits s q) ∧
    (∀ c t q, step s (.munlockWake c) = .ok t ∨ step s (.signalWake c) = .ok t →
      Dead (s.proc q).state → (t.proc q).state = (s.proc q).state) ∧
    (∀ c p t, s.cpu c = some p → step s (.exit c) = .ok t →
      (t.proc p).state = .zombie ∧ t.wqueue = s.wqueue ∧
      (∀ m, (t.muxes m).cv = (s.muxes m).cv) ∧ (Waits t p ↔ Waits s p)) ∧
    ∀ p, ¬Waits s p → ∃ u, (List.finRange MUX_MAXNUM).foldlM (dropMutex p) s = .ok u := by
  obtain ⟨s,hr,hs⟩ := play_witness step ExitsClear
    (fun _ a => isKernelCall a && decide (∀ c, a ≠ .exit c))
    (fun s a ha => by
      simp only [Bool.and_eq_true, decide_eq_true_eq] at ha
      exact ⟨ha.1,fun c p h => absurd h (ha.2 c)⟩)
    (solo (0 : Fin 2))
    (List.flatten [[.mcreate 0 100 0], forkOn 0,
      [.schedule 1, .mlock 0 0, .mlockTry 0, .mlock 1 0, .mlockTry 1, .mlockSleep 1]])
    (fun s => decide ((s.proc 1).state = .sleeping ∧ 1 ∈ list s.wqueue)) (by decide +kernel)
  exact ⟨s,of_decide_eq_true hs,exit_queues_iff (coherent_solo 0) hr⟩

/-- A waiter is killed, finds the mutex free before the unlocking process has
dequeued it, takes the mutex and exits. The zombie stands in the wait queue,
and the pending wakeup makes it runnable again. -/
theorem exit_leaves_zombie_waiting : ∃ s t : Kernel (Fin 2),
    Reaches step (fun _ _ => True) (boot 0) s ∧ Reaches step (fun _ _ => True) s t ∧
    ((s.proc 1).state = .zombie ∧ 1 ∈ list s.wqueue) ∧ (t.proc 1).state = .runnable := by
  obtain ⟨s,hr,hs⟩ := play_witness step (fun _ _ => True) (fun _ _ => true) (fun _ _ _ => trivial)
    (boot (0 : Fin 2))
    (List.flatten [startup, [.mcreate 0 100 0], forkOn 0,
      [.schedule 1, .mlock 0 0, .mlockTry 0, .mlock 1 0, .mlockTry 1, .mlockSleep 1, .kill 0 2,
        .schedule 1, .munlock 0 0, .munlockClear 0, .mlockTry 1, .exit 1]])
    (fun s => decide ((s.proc 1).state = .zombie ∧ 1 ∈ list s.wqueue) &&
      (play step (fun _ _ => true) s [.munlockDequeue 0, .munlockWake 0]).any
        (fun t : Kernel (Fin 2) => decide ((t.proc 1).state = .runnable)))
    (by decide +kernel)
  obtain ⟨h1,h2⟩ := Bool.and_eq_true_iff.mp hs
  obtain ⟨t,ht,h3⟩ := play_witness step (fun _ _ => True) (fun _ _ => true) (fun _ _ _ => trivial)
    s [.munlockDequeue 0, .munlockWake 0] (fun t => decide ((t.proc 1).state = .runnable)) h2
  exact ⟨s,t,hr,ht,of_decide_eq_true h1,of_decide_eq_true h3⟩

end Xv6.ExitQueues
