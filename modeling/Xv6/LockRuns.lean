import Xv6.LockHolders
import Xv6.Boot

/-!
# The table lock in whole runs

From boot on, whatever calls are made, the table lock is where it should be
and the processes on the CPUs are marked as they should be, as long as only
sleepers are woken from the queues, the `sys_munlock` nested in `sys_waitcv`
is not refused and nobody exits out of a queue.
-/

set_option autoImplicit false

namespace Xv6.LockRuns
open KernelState RingBuffer NullQueue ReadyQueue ProcessCalls MutexCalls
open Machine ProcessFrames ProcessEffects MutexEffects
open TransitionRun ReadyInvariant Coherence CoherentRuns WaitLines
open Boot LockHolders

variable {C : Type} {s t u : Kernel C} {c : C} {p q : Slot} {k : Pc} {a : Act C}

structure Careful (s : Kernel C) (a : Act C) : Prop where
  exits : ∀ c p, a = .exit c → s.cpu c = some p → ¬Waits s p
  wakes : ∀ c p q, a = .munlockWake c ∨ a = .signalWake c → s.cpu c = some p →
    waker (s.pc p) = some q → (s.proc q).state = .sleeping
  checks : ∀ c p m, a = .waitcvCheck c → s.cpu c = some p → s.pc p = .waitcvCheck m →
    (s.proc p).muxPtrs m = true ∧ (s.muxes m).state = 1

structure Duty (s : Kernel C) : Prop extends Manned s where
  coherent : Coherent s
  free : s.muxLock = none
  proper : Proper s.wqueue

/-- The processes of the table fit into the wait queue of the mutexes. -/
theorem duty_room (hs : Duty s) : enroll s.wqueue p ≠ none := by
  intro h
  have hl := (enroll_full _ _ hs.proper.1 h).2
  have hn := hs.proper.2.length_le_card
  rw [hl, Fintype.card_fin] at hn
  simp [WAITERS, NPROC] at hn

theorem manned_wake (hs : Manned s) (hl : s.lock = none) (hq : (s.proc q).state = .sleeping)
    (h : makeRunnable (s.setLock (some p)) q = .ok u) : Manned ((ret u p 1).setLock none) := by
  have hun := manned_unlocked hs hl
  have hu := unlocked_makeRunnable (s := s.setLock (some p)) ⟨hun.state,hun.pc⟩ (by simp [hq]) h
  have hv := unlocked_ret (p := p) hu 1
  exact unlocked_manned ⟨hv.state,hv.pc⟩ rfl

theorem manned_waitcvSleep {m : MuxId} (hs : Manned s) (hl : s.lock = none) :
    Manned ((setState (s.setLock (some p)) p .sleeping).setPc p (.waitcvCheck m)) := by
  have hun := manned_unlocked hs hl
  refine ⟨fun d q hd => ?_,fun q => ?_⟩
  · by_cases hq : q = p
    · simp [hq, mark, cvLock]
    · simpa [hq, setState, mark_of (hun.pc q)] using hun.state d q hd
  · by_cases hq : q = p
    · simp [hq, setState, lockPc, cvLock]
    · have hq' : p ≠ q := fun h => hq h.symm
      simp [hq, hq', setState, hun.pc q]

variable [DecidableEq C]

theorem manned_waitcvSched {m : MuxId} (hs : Manned s) (ho : Coherent s) (hc : s.cpu c = some p)
    (hp : s.pc p = .waitcvSched m) (h : sched (s.setPc p (.waitcvAsleep m)) c p = .ok t) :
    Manned t := by
  have hl := (hs.lock p).mpr (by simp [hp, lockPc, cvLock])
  have hpc : ∀ q, q ≠ p → lockPc (s.pc q) = false := by
    intro q hq
    by_contra h
    have hql := (hs.lock q).mpr (by simpa using h)
    exact hq (Option.some.inj (hql.symm.trans hl))
  refine unlocked_sched ⟨fun d q hd => ?_,fun q => ?_⟩ h
  · by_cases hdc : d = c
    · simp [hdc] at hd
    · have hd' : s.cpu d = some q := by simpa [hdc] using hd
      have hq : q ≠ p := by
        rintro rfl
        exact hdc (ho.single d c q hd' hc)
      exact (hs.state d q hd').trans (mark_of (hpc q hq))
  · by_cases hq : q = p
    · simp [hq, lockPc, cvLock]
    · simpa [hq] using hpc q hq

theorem manned_sync (hs : Duty s) (hc : s.cpu c = some p) (ha : Careful s a) (h : Sync s c p a t) :
    Manned t := by
  have hgo : ∀ {u : Kernel C} {k : Pc}, lockPc k = lockPc (s.pc p) → cvLock k = cvLock (s.pc p) →
      u.cpu = s.cpu → u.lock = s.lock → u.pc = (s.setPc p k).pc → u.proc = s.proc → Manned u :=
    fun h1 h2 h3 h4 h5 h6 => manned_goto hs.toManned h1 h2 h3 h4 h5 (fun _ q _ => by rw [h6])
  cases h with
  | mlock pc | munlock pc | waitcv pc | waitcvRelock pc | signalcv pc | mlockEnroll pc
  | munlockClear pc | munlockDequeue pc | waitcvCheck pc | waitcvClear pc | waitcvDequeue pc
  | signalDequeue pc =>
    exact hgo (by simp [pc, lockPc, cvLock]) (by simp [pc, cvLock]) rfl rfl rfl rfl
  | mlockRefused pc | munlockRefused pc | waitcvFull pc | relockRefused pc | signalRefused pc
  | signalEmpty pc | munlockEmpty pc =>
      exact manned_ret hs.toManned (by simp [pc, lockPc, cvLock]) _
  | mlockFull pc locked full => exact absurd full (duty_room hs)
  | @mlockTake via m pc =>
    have ht : Manned (take s p m) := ⟨hs.state,hs.lock⟩
    exact manned_ret ht (by simp [take, pc, lockPc, cvLock]) 1
  | mlockSleep pc free left =>
    refine unlocked_leave left (manned_unlocked hs.toManned free) hs.coherent hc rfl
      (by simp [lockPc, cvLock]) rfl (fun q hq hr => ?_)
    simpa [setState, hq] using hr
  | munlockWake pc free woken =>
    exact manned_wake hs.toManned free (ha.wakes c p _ (.inl rfl) hc (by rw [pc]; rfl)) woken
  | signalWake pc free woken =>
    exact manned_wake hs.toManned free (ha.wakes c p _ (.inr rfl) hc (by rw [pc]; rfl)) woken
  | waitcvSleep pc free => exact manned_waitcvSleep hs.toManned free
  | @waitcvRefused m pc refused =>
    obtain ⟨h1,h2⟩ := ha.checks c p m rfl hc pc
    simp [h1, h2] at refused
  | waitcvSched pc left => exact manned_waitcvSched hs.toManned hs.coherent hc pc left

theorem sync_queue (hs : Duty s) (h : Sync s c p a t) :
    t.muxLock = none ∧ Proper t.wqueue ∧ t.stage = s.stage := by
  have hsame : ∀ {u : Kernel C}, u.muxLock = s.muxLock → u.wqueue = s.wqueue →
      u.stage = s.stage → u.muxLock = none ∧ Proper u.wqueue ∧ u.stage = s.stage := by
    intro u h1 h2 h3
    rw [h1, h2]
    exact ⟨hs.free,hs.proper,h3⟩
  cases h with
  | mlockFull pc locked full => exact absurd full (duty_room hs)
  | mlockEnroll pc locked enrolled => exact ⟨hs.free,proper_enroll _ _ _ hs.proper enrolled,rfl⟩
  | munlockDequeue pc head => exact ⟨hs.free,(proper_shift _ _ hs.proper head).1,rfl⟩
  | mlockSleep pc free left | waitcvSched pc left =>
    have hr := (routine_sched left).rest
    exact hsame (by rw [hr]; rfl) (by rw [hr]; rfl) (by rw [hr]; rfl)
  | munlockWake pc free woken | signalWake pc free woken =>
    obtain ⟨k,-,-,rfl⟩ := makeRunnable_ok woken
    exact hsame rfl rfl rfl
  | _ => exact hsame rfl rfl rfl

/-- The other calls leave the lock and the marks alone, and all but the
synchronisation calls the wait queue. -/
theorem duty_other (hs : Duty s) (ha : isKernelCall a = true) (hp : isProcessCall a = false)
    (hy : isSyncCall a = false) (h : step s a = .ok t) :
    Manned t ∧ t.muxLock = s.muxLock ∧ t.wqueue = s.wqueue ∧ t.stage = s.stage := by
  have hm := hs.toManned
  have hgo : ∀ {p : Slot} {u : Kernel C} {k : Pc}, lockPc (s.pc p) = false → lockPc k = false →
      u.cpu = s.cpu → u.lock = s.lock → u.pc = (s.setPc p k).pc →
      (∀ q, (u.proc q).state = (s.proc q).state) → Manned u :=
    fun h1 h2 h3 h4 h5 h6 => manned_goto hm (h2.trans h1.symm)
      ((lockPc_cvLock h2).trans (lockPc_cvLock h1).symm) h3 h4 h5 (fun _ q _ => h6 q)
  have hpop : ∀ {p : Slot} {e n} {u : Kernel C}, lockPc (s.pc p) = false →
      (u = s ∨ ∃ k, u = s.setRing k (pop (s.ring k))) →
      Manned (u.setPc p (.testpqdqLoop e n)) ∧ u.muxLock = s.muxLock ∧ u.wqueue = s.wqueue ∧
        u.stage = s.stage := by
    rintro p e n u hk (rfl | ⟨k,rfl⟩)
    · exact ⟨hgo hk rfl rfl rfl rfl (fun _ => rfl),rfl,rfl,rfl⟩
    · exact ⟨hgo hk rfl rfl rfl rfl (fun _ => rfl),rfl,rfl,rfl⟩
  obtain ⟨c,p,-,h⟩ | ⟨c,p,-,ho⟩ := other_step ha hp hy h
  · obtain ⟨hl,-,-,h⟩ := resume_ok h
    have hr := (routine_dispatch h).rest
    exact ⟨unlocked_dispatch (manned_unlocked hm hl) h,by rw [hr],by rw [hr],by rw [hr]⟩
  have hk : lockPc (s.pc p) = false := by cases ho <;> simp [*, lockPc, cvLock]
  cases ho with
  | prioKept l v => exact ⟨hgo (k := .user) hk rfl rfl rfl rfl (fun q => ret_marks q),rfl,rfl,rfl⟩
  | prioOwn | mdeleteDrop =>
    refine ⟨hgo (k := .user) hk rfl rfl rfl rfl (fun q => (ret_marks q).trans ?_),rfl,rfl,rfl⟩
    by_cases hq : q = p <;> simp [hq]
  | prioBelow q user free =>
    refine ⟨hgo (k := .user) hk rfl rfl free.symm rfl (fun x => (ret_marks x).trans ?_),rfl,rfl,rfl⟩
    by_cases hx : x = q <;> simp [hx]
  | mcreateFull | mdeleteRefused | testpqdqDone => exact ⟨manned_ret hm hk _,rfl,rfl,rfl⟩
  | mcreate m =>
    refine ⟨hgo (k := .user) hk rfl rfl rfl rfl (fun q => (ret_marks q).trans ?_),rfl,rfl,rfl⟩
    by_cases hq : q = p <;> simp [createMux, hq]
  | mdeleteShared | mdelete | mdeleteFree =>
    exact ⟨hgo hk rfl rfl rfl rfl (fun _ => rfl),rfl,rfl,rfl⟩
  | testpqeq r v user free state muxPtrs priority put =>
    rcases put with rfl | ⟨i,rfl⟩
    all_goals
      refine ⟨hgo (k := .user) hk rfl rfl free.symm rfl (fun q => (ret_marks q).trans ?_),
        rfl,rfl,rfl⟩
      by_cases hq : q = p <;> simp [hq, state]
  | testpqdq e user taken | testpqdqNext e n pc taken => exact hpop hk taken

theorem process_queue (ha : isProcessCall a = true) (h : step s a = .ok t) :
    t.muxLock = s.muxLock ∧ t.wqueue = s.wqueue := by
  by_cases hx : ∃ c, a = .exit c
  · obtain ⟨c,rfl⟩ := hx
    obtain ⟨p,-,-,h⟩ := call_ok h
    obtain ⟨-,-,-,u,hu,h⟩ := exit_ok h
    rw [(routine_sched h).rest]
    change u.muxLock = s.muxLock ∧ u.wqueue = s.wqueue
    rw [hu.frame]
    exact ⟨rfl,rfl⟩
  · rw [(frame_step ha (fun c hc => hx ⟨c,hc⟩) h).rest]
    exact ⟨rfl,rfl⟩

theorem duty_call (hs : Duty s) (ha : isKernelCall a = true) (hn : Careful s a)
    (h : step s a = .ok t) : Duty t ∧ t.stage = s.stage := by
  have ho := coherent_step hs.coherent ⟨ha,hn.exits⟩ h
  cases hy : isSyncCall a with
  | true =>
    obtain ⟨c,p,hc,hsync⟩ := sync_step hy h
    obtain ⟨h1,h2,h3⟩ := sync_queue hs hsync
    exact ⟨⟨manned_sync hs hc hn hsync,ho,h1,h2⟩,h3⟩
  | false =>
  cases hp : isProcessCall a with
  | true =>
    obtain ⟨h1,h2⟩ := process_queue hp h
    exact ⟨⟨manned_process hs.toManned hs.coherent hp h,ho,h1.trans hs.free,h2 ▸ hs.proper⟩,
      stage_step hp h⟩
  | false =>
    obtain ⟨hm,h1,h2,h3⟩ := duty_other hs ha hp hy h
    exact ⟨⟨hm,ho,h1.trans hs.free,h2 ▸ hs.proper⟩,h3⟩

section Start
variable {c₀ : C}

structure Still (s : Kernel C) : Prop extends Dormant s where
  calm : ∀ p, s.preempted p = false
  wqueue : s.wqueue = empty
  cv : ∀ m, (s.muxes m).cv = empty
  free : s.muxLock = none

section
omit [DecidableEq C]

theorem still_boot : Still (boot c₀) :=
  ⟨dormant_boot c₀,fun _ => rfl,rfl,fun _ => rfl,rfl⟩

theorem still_waits (hs : Still s) : ¬Waits s q := by
  rintro (h | ⟨m,h⟩ | ⟨x,h⟩)
  · simp [hs.wqueue, list_empty] at h
  · simp [hs.cv m, list_empty] at h
  · simp [hs.pc x, waker] at h

end

/-- Publishing the first process: it is runnable and its thread newborn. -/
theorem still_publish (hs : Still s) (h : step s .userinitPublish = .ok t) :
    Duty t ∧ t.stage = .published := by
  obtain ⟨p,v,hp,hv,rfl⟩ := userinitPublish_ok h
  obtain ⟨k,-,-,rfl⟩ := makeRunnable_ok hv
  have hpc : ∀ q, q ≠ p → (s.setPc p .newborn).pc q = .absent := fun q hq => by simp [hq, hs.pc q]
  have hcpu : ∀ c q, s.cpu c ≠ some q := fun c q hc => by simp [hs.cpu c] at hc
  have hfork : ∀ x np, ¬((s.setPc p .newborn).pc x = .forkAlloc np ∨
      (s.setPc p .newborn).pc x = .forkReady np) := by
    intro x np
    by_cases hx : x = p
    · simp [hx]
    · rw [hpc x hx]
      simp
  refine ⟨⟨⟨fun c q hc => absurd hc (hcpu c q),fun q => ?_⟩,⟨fun c d q hc => absurd hc (hcpu c q),
    fun c q hc => absurd hc (hcpu c q),fun q hq => ?_,fun c q hc => absurd hc (hcpu c q),
    fun q hq => ?_,fun x np hx => absurd hx (hfork x np),fun x y np hx => absurd hx (hfork x np),
    fun q _ hq => ?_⟩,hs.free,?_⟩,rfl⟩
  · change s.lock = some q ↔ lockPc ((s.setPc p .newborn).pc q) = true
    rw [hs.lock]
    by_cases hq : q = p
    · simp [hq, lockPc, cvLock]
    · rw [hpc q hq]
      simp [lockPc, cvLock]
  · exact absurd hq (by simp [setState, hs.calm q])
  · have hqp : q ≠ p := by
      rintro rfl
      simp [Dead] at hq
    simp [blocked, setState, hqp, hs.calm q, hs.pc q, resumePc]
  · refine still_waits (q := q) hs (hq.imp_right (Or.imp_right (Exists.imp (fun x hx => ?_))))
    by_cases hxp : x = p
    · simp [hxp, waker] at hx
    · simpa [setState, hxp] using hx
  · change Proper s.wqueue
    rw [hs.wqueue]
    exact proper_empty

def Started (s : Kernel C) : Prop := Duty s ∧ (s.stage = .published ∨ s.stage = .done)

theorem still_step (hs : Still s) (h : step s a = .ok t) : Still t ∨ Started t := by
  have hoff : ∀ c f, onCpu s c f ≠ .ok t := by
    intro c f hf
    obtain ⟨p,hc,-⟩ := onCpu_ok hf
    simp [hs.cpu c] at hc
  cases a
  case userinitAlloc =>
    have hd := dormant_alloc hs.toDormant h
    obtain ⟨-,p,u,hu,rfl⟩ := userinitAlloc_ok h
    obtain ⟨-,rfl⟩ := allocproc_some hu
    exact .inl ⟨hd,hs.calm,hs.wqueue,hs.cv,hs.free⟩
  case userinitPublish =>
    obtain ⟨hd,hst⟩ := still_publish hs h
    exact .inr ⟨hd,.inl hst⟩
  case userinitMutexes =>
    have hst := hs.stage
    simp [(userinitMutexes_ok h).1] at hst
  case resume c p =>
    have h : resume s c p = .ok t := h
    simp [resume, blocked, hs.calm p, hs.pc p, resumePc] at h
  case schedule c =>
    have hd := (dormant_schedule hs.toDormant h).1
    obtain ⟨-,-,-,⟨-,hf⟩ | ⟨-,hd'⟩ | ⟨u,q,-,hd',hq⟩⟩ := scheduler_ok h
    · rcases scanFrom_ok hf with rfl | ⟨q,hq,-⟩
      · exact .inl ⟨hd,hs.calm,hs.wqueue,hs.cv,hs.free⟩
      · exact absurd hq (hs.idle q).1
    · obtain ⟨rfl,-⟩ := pqDequeue_none hd'
      exact .inl hs
    · obtain ⟨k,p,-,-,hp,-⟩ := queued_dequeue hs.queued hd'
      exact absurd hp (hs.idle p).1
  case wakeup ch =>
    have hd := dormant_processCall hs.toDormant rfl h
    have hf := (wakeup_ok h).2.frame
    refine .inl ⟨hd,?_,?_,?_,?_⟩ <;> rw [hf]
    · exact hs.calm
    · exact hs.wqueue
    · exact hs.cv
    · exact hs.free
  all_goals exact absurd h (hoff _ _)

theorem started_step (hs : Started s) (hn : Careful s a) (h : step s a = .ok t) : Started t := by
  obtain ⟨hs,hst⟩ := hs
  cases hk : isKernelCall a with
  | true =>
    obtain ⟨hd,ht⟩ := duty_call hs hk hn h
    exact ⟨hd,by rwa [ht]⟩
  | false =>
    cases a <;> simp only [isKernelCall, Bool.true_eq_false] at hk
    case userinitAlloc => simp [(userinitAlloc_ok h).1] at hst
    case userinitPublish =>
      obtain ⟨p,u,hp,-⟩ := userinitPublish_ok h
      simp [hp] at hst
    case userinitMutexes =>
      obtain ⟨-,rfl⟩ := userinitMutexes_ok h
      refine ⟨⟨⟨hs.state,hs.lock⟩,coherent_mono hs.coherent rfl rfl rfl (fun _ => .inl rfl)
        (fun q hq => .inl ?_),rfl,proper_empty⟩,.inr rfl⟩
      rcases hq with hq | ⟨m,hq⟩ | hq
      · simp [list_empty] at hq
      · simp [list_empty] at hq
      · exact .inr (.inr hq)

theorem careful_reaches (h : Reaches step Careful (boot c₀) s) : Still s ∨ Started s := by
  refine reaches_invariant (fun s => Still s ∨ Started s) (fun s a t hs ha ht => ?_)
    (.inl still_boot) h
  rcases hs with hs | hs
  · exact still_step hs ht
  · exact .inr (started_step hs ha ht)

end Start

end Xv6.LockRuns
