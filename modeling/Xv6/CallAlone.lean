import Xv6.MutexEffects

/-!
# Mutex calls by a process that does not hold the mutex

A synchronisation call that runs to its end while nothing else moves. The checks
of `sys_munlock` and `sys_signalcv` read only whether somebody holds the mutex;
`sys_waitcv` enrolls its caller and marks it asleep before it looks at the mutex
at all.
-/

set_option autoImplicit false

namespace Xv6.CallAlone
open KernelState NullQueue ProcessCalls MutexCalls
open Machine ProcessFrames ProcessEffects MutexEffects
open TransitionRun

variable {C : Type} [DecidableEq C] {s t : Kernel C} {c : C} {p q : Slot} {m : MuxId} {id : ℤ}
  {a : Act C}

def nextSection (c : C) : Pc → Option (Act C)
  | .mdeleteFree _ => some (.mdeleteFree c)
  | .mdeleteDrop _ => some (.mdeleteDrop c)
  | .mlockTry _ _ => some (.mlockTry c)
  | .mlockSleep _ _ => some (.mlockSleep c)
  | .munlockClear _ => some (.munlockClear c)
  | .munlockDequeue _ => some (.munlockDequeue c)
  | .munlockWake _ _ => some (.munlockWake c)
  | .waitcvSleep _ => some (.waitcvSleep c)
  | .waitcvCheck _ => some (.waitcvCheck c)
  | .waitcvClear _ => some (.waitcvClear c)
  | .waitcvDequeue _ => some (.waitcvDequeue c)
  | .waitcvSched _ => some (.waitcvSched c)
  | .waitcvRelock _ => some (.waitcvRelock c)
  | .signalDequeue _ => some (.signalDequeue c)
  | .signalWake _ _ => some (.signalWake c)
  | _ => none

def finish (c : C) (p : Slot) : ℕ → Kernel C → Except Stop (Kernel C)
  | 0, s => .ok s
  | n+1, s => match nextSection c (s.pc p) with
    | none => .ok s
    | some a => step s a >>= finish c p n

def callAlone (s : Kernel C) (c : C) (p : Slot) (a : Act C) : Except Stop (Kernel C) :=
  step s a >>= finish c p 5

omit [DecidableEq C] in
theorem next_user (h : s.pc p = .user) : nextSection c (s.pc p) = none := by
  rw [h]
  rfl

theorem finish_done (h : nextSection c (s.pc p) = none) (n : ℕ) : finish c p n s = .ok s := by
  cases n with
  | zero => rfl
  | succ n => simp [finish, h]

theorem finish_next (h : nextSection c (s.pc p) = some a) (n : ℕ) :
    finish c p (n+1) s = (step s a >>= finish c p n) := by
  simp [finish, h]

theorem alone_ok (h : step s a = .ok t) : callAlone s c p a = finish c p 5 t := by
  rw [callAlone, h]
  rfl

theorem step_munlockClear (h : s.pc p = .munlockClear m) (hc : s.cpu c = some p) :
    step s (.munlockClear c) = munlockClear s p m (.munlockDequeue m) :=
  (onCpu_eq hc).trans (by simp only [h])

theorem step_munlockDequeue (h : s.pc p = .munlockDequeue m) (hc : s.cpu c = some p) :
    step s (.munlockDequeue c) = munlockDequeue s p m :=
  (onCpu_eq hc).trans (by simp only [h])

theorem step_signalDequeue (h : s.pc p = .signalDequeue m) (hc : s.cpu c = some p) :
    step s (.signalDequeue c) = signalDequeue s p m :=
  (onCpu_eq hc).trans (by simp only [h])

theorem step_waitcvSleep (h : s.pc p = .waitcvSleep m) (hc : s.cpu c = some p) :
    step s (.waitcvSleep c) = waitcvSleep s p m :=
  (onCpu_eq hc).trans (by simp only [h])

theorem step_waitcvCheck (h : s.pc p = .waitcvCheck m) (hc : s.cpu c = some p) :
    step s (.waitcvCheck c) = sysMunlock s p m (.waitcvClear m) :=
  (onCpu_eq hc).trans (by simp only [h])

theorem step_waitcvClear (h : s.pc p = .waitcvClear m) (hc : s.cpu c = some p) :
    step s (.waitcvClear c) = munlockClear s p m (.waitcvDequeue m) :=
  (onCpu_eq hc).trans (by simp only [h])

theorem step_waitcvDequeue (h : s.pc p = .waitcvDequeue m) (hc : s.cpu c = some p) :
    step s (.waitcvDequeue c) = waitcvDequeue s p m :=
  (onCpu_eq hc).trans (by simp only [h])

theorem step_waitcvSched (h : s.pc p = .waitcvSched m) (hc : s.cpu c = some p) :
    step s (.waitcvSched c) = waitcvSched s c p m :=
  (onCpu_eq hc).trans (by simp only [h])

structure Refused (s t : Kernel C) (p : Slot) : Prop where
  back : t.pc p = .user
  zero : (t.proc p).eax = 0
  mutexes : ∀ i, (t.muxes i).state = (s.muxes i).state
  wqueue : t.wqueue = s.wqueue
  cvs : ∀ i, (t.muxes i).cv = (s.muxes i).cv
  states : ∀ r, (t.proc r).state = (s.proc r).state
  rings : t.ring = s.ring

def Refuses (s : Kernel C) (c : C) (p : Slot) (a : Act C) : Prop :=
  ∃ t, callAlone s c p a = .ok t ∧ Refused s t p

omit [DecidableEq C] in
theorem refused_ret : Refused s (ret s p 0) p := by
  refine ⟨by simp [ret],by simp [ret],fun _ => rfl,rfl,fun _ => rfl,fun r => ?_,rfl⟩
  by_cases hr : r = p <;> simp [ret, hr]

theorem refuses_ret (h : step s a = .ok (ret s p 0)) : Refuses s c p a := by
  refine ⟨ret s p 0,?_,refused_ret⟩
  rw [alone_ok h]
  exact finish_done (next_user (by simp [ret])) 5

/-- What the two calls that wake somebody end with. -/
theorem wake_returns {n : ℕ} (h : finish c p (n+1) s = .ok t) (hc : s.cpu c = some p)
    (hpc : s.pc p = .munlockWake m q ∨ s.pc p = .signalWake m q) : (t.proc p).eax = 1 := by
  have hstep : ∃ a, nextSection c (s.pc p) = some a ∧ step s a = wakeSleeper s p q := by
    rcases hpc with hpc | hpc
    · exact ⟨.munlockWake c,by rw [hpc]; rfl,(onCpu_eq hc).trans (by simp only [hpc])⟩
    · exact ⟨.signalWake c,by rw [hpc]; rfl,(onCpu_eq hc).trans (by simp only [hpc])⟩
  obtain ⟨a,ha,hs⟩ := hstep
  rw [finish_next ha] at h
  obtain ⟨u,hu,h⟩ := bind_ok h
  obtain ⟨-,v,-,rfl⟩ := wakeSleeper_ok (hs ▸ hu)
  rw [finish_done (next_user (by simp [ret]))] at h
  cases h
  simp [ret]

theorem dequeue_returns {n : ℕ} (h : finish c p (n+2) s = .ok t) (hc : s.cpu c = some p)
    (hpc : s.pc p = .munlockDequeue m) : (t.proc p).eax = 1 := by
  rw [finish_next (a := .munlockDequeue c) (by rw [hpc]; rfl),
    step_munlockDequeue hpc hc] at h
  obtain ⟨u,hu,h⟩ := bind_ok h
  unfold munlockDequeue at hu
  split at hu
  · cases hu
    rw [finish_done (next_user (by simp [ret]))] at h
    cases h
    simp [ret]
  · rename_i x _
    cases hu
    exact wake_returns (m := m) (q := x) h hc (.inl (by simp))

theorem munlock_returns {n : ℕ} (h : finish c p (n+3) s = .ok t) (hc : s.cpu c = some p)
    (hpc : s.pc p = .munlockClear m) : (t.proc p).eax = 1 := by
  rw [finish_next (a := .munlockClear c) (by rw [hpc]; rfl),
    step_munlockClear hpc hc] at h
  obtain ⟨u,hu,h⟩ := bind_ok h
  obtain rfl := munlockClear_ok hu
  exact dequeue_returns (m := m) h hc (by simp)

section Foreign
variable (hc : s.cpu c = some p) (hu : s.pc p = .user) (hm : muxIndex id = some m)
  (ha : (s.proc p).muxPtrs m = true)
include hc hu hm ha

theorem munlock_refuses_iff :
    Refuses s c p (.munlock c id) ↔ (s.muxes m).state ≠ 1 := by
  have hstep : step s (.munlock c id) = sysMunlock s p m (.munlockClear m) :=
    muxCall_eq hc hu hm
  by_cases hs : (s.muxes m).state = 1
  · have hpass : step s (.munlock c id) = .ok (s.setPc p (.munlockClear m)) := by
      simp [hstep, sysMunlock, ha, hs]
    refine ⟨?_,fun h => absurd hs h⟩
    rintro ⟨t,ht,hr⟩
    rw [alone_ok hpass] at ht
    have h1 := munlock_returns (m := m) ht hc (by simp)
    have h0 := hr.zero
    omega
  · have hno : step s (.munlock c id) = .ok (ret s p 0) := by
      simp [hstep, sysMunlock, hs]
    exact ⟨fun _ => hs,fun _ => refuses_ret hno⟩

theorem signalcv_refuses_iff (hf : s.muxLock = none) :
    Refuses s c p (.signalcv c id) ↔ (s.muxes m).state ≠ 1 ∨ front (s.muxes m).cv = none := by
  have hstep : step s (.signalcv c id) = sysSignalcv s p m :=
    muxCall_eq hc hu hm
  by_cases hs : (s.muxes m).state = 1
  · have hpass : step s (.signalcv c id) = .ok (s.setPc p (.signalDequeue m)) := by
      simp [hstep, sysSignalcv, ha, hs]
    have hpc : (s.setPc p (.signalDequeue m)).pc p = .signalDequeue m := by simp
    rw [Refuses, alone_ok hpass, finish_next (a := .signalDequeue c) (by rw [hpc]; rfl),
      step_signalDequeue hpc hc]
    simp only [signalDequeue, Kernel.setPc_muxLock, Kernel.setPc_proc, Kernel.setPc_muxes, hf,
      acquire, bind, Except.bind, ha, Bool.not_true, Bool.false_eq_true, if_false, ne_eq, hs,
      not_true, false_or]
    cases hq : front (s.muxes m).cv with
    | none =>
      refine iff_of_true ⟨_,finish_done (next_user (by simp [ret])) 4,?_⟩ rfl
      refine ⟨by simp [ret],by simp [ret],fun _ => rfl,rfl,fun _ => rfl,fun r => ?_,rfl⟩
      by_cases hr : r = p <;> simp [ret, hr]
    | some x =>
      simp only [reduceCtorEq, iff_false]
      rintro ⟨t,ht,hr⟩
      have h1 := wake_returns (m := m) (q := x) ht hc (.inr (by simp))
      have h0 := hr.zero
      omega
  · have hno : step s (.signalcv c id) = .ok (ret s p 0) := by
      simp [hstep, sysSignalcv, hs]
    exact ⟨fun _ => .inl hs,fun _ => refuses_ret hno⟩

omit hc hu hm ha in
/-- A process that sleeps in `sched` is not switched back to by the round of
the scheduler it started. -/
theorem sched_pc (h : sched s c p = .ok t) (hz : (s.proc p).state = .sleeping) :
    t.pc p = s.pc p := by
  obtain ⟨-,-,-,⟨-,rfl⟩ | ⟨i,-,hi⟩⟩ := sched_ok h
  · rfl
  · rcases scanFrom_ok hi with rfl | ⟨q,hq,hd⟩
    · rfl
    · obtain ⟨ch,k,j,rfl,-⟩ := dispatch_ok hd
      have hne : p ≠ q := by
        rintro rfl
        have hq : (s.proc p).state = .runnable := hq
        simp [hz] at hq
      simp [switchTo, hne]

omit hc hu hm ha in
theorem waitcv_dequeued {n : ℕ} (h : finish c p (n+2) s = .ok t) (hc : s.cpu c = some p)
    (hpc : s.pc p = .waitcvDequeue m) (hz : (s.proc p).state = .sleeping) : t.pc p ≠ .user := by
  rw [finish_next (a := .waitcvDequeue c) (by rw [hpc]; rfl),
    step_waitcvDequeue hpc hc] at h
  obtain ⟨u,hu,h⟩ := bind_ok h
  unfold waitcvDequeue at hu
  split at hu
  case h_2 => simp at hu
  cases hu
  have hpc' : (s.setPc p (.waitcvSched m)).pc p = .waitcvSched m := by simp
  rw [finish_next (a := .waitcvSched c) (by rw [hpc']; rfl), step_waitcvSched hpc' hc] at h
  obtain ⟨u,hu,h⟩ := bind_ok h
  have hpc' : u.pc p = .waitcvAsleep m := by
    rw [sched_pc hu hz]
    simp
  rw [finish_done (by rw [hpc']; rfl)] at h
  cases h
  simp [hpc']

omit hc hu hm ha in
theorem waitcv_returns {n : ℕ} (h : finish c p (n+4) s = .ok t) (hc : s.cpu c = some p)
    (hpc : s.pc p = .waitcvCheck m) (hz : (s.proc p).state = .sleeping) :
    (t.proc p).state = .sleeping ∨ t.pc p ≠ .user := by
  rw [finish_next (a := .waitcvCheck c) (by rw [hpc]; rfl), step_waitcvCheck hpc hc] at h
  obtain ⟨u,hu,h⟩ := bind_ok h
  rcases sysMunlock_ok hu with ⟨-,rfl⟩ | ⟨-,rfl⟩
  · rw [finish_done (next_user (by simp [ret]))] at h
    cases h
    exact .inl (by simpa [ret] using hz)
  · have hpc' : (s.setPc p (.waitcvClear m)).pc p = .waitcvClear m := by simp
    rw [finish_next (a := .waitcvClear c) (by rw [hpc']; rfl), step_waitcvClear hpc' hc] at h
    obtain ⟨u,hu,h⟩ := bind_ok h
    obtain rfl := munlockClear_ok hu
    exact .inr (waitcv_dequeued (m := m) h hc (by simp) hz)

theorem waitcv_refuses_iff (hr : (s.proc p).state = .running) (hf : s.muxLock = none) :
    Refuses s c p (.waitcv c id) ↔ enroll (s.muxes m).cv p = none := by
  have hstep : step s (.waitcv c id) = sysWaitcv s p m :=
    muxCall_eq hc hu hm
  cases he : enroll (s.muxes m).cv p with
  | none =>
    have hno : step s (.waitcv c id) = .ok (ret s p 0) := by
      simp [hstep, sysWaitcv, hf, acquire, ha, he, bind, Except.bind]
    exact iff_of_true (refuses_ret hno) rfl
  | some w =>
    have hpass : step s (.waitcv c id) = .ok ((joinCv s p m w).setPc p (.waitcvSleep m)) := by
      simp [hstep, sysWaitcv, hf, acquire, ha, he, bind, Except.bind]
    refine iff_of_false ?_ (by simp)
    rintro ⟨t,ht,hq⟩
    have hpc : ((joinCv s p m w).setPc p (.waitcvSleep m)).pc p = .waitcvSleep m := by simp
    rw [alone_ok hpass, finish_next (a := .waitcvSleep c) (by rw [hpc]; rfl),
      step_waitcvSleep hpc hc] at ht
    obtain ⟨u,hu',ht⟩ := bind_ok ht
    obtain ⟨-,hu'⟩ := acquire_then hu'
    cases hu'
    rcases waitcv_returns (m := m) ht hc (by simp) (by simp) with hz | hz
    · have hst := hq.states p
      rw [hz, hr] at hst
      simp at hst
    · exact hz hq.back

/-- Calls by a process with access to the mutex, whoever holds it: when
`sys_munlock`, `sys_signalcv` and `sys_waitcv` return 0 and leave the mutexes,
the queues and the processes as they were. -/
theorem foreign_calls_refused_iff (hr : (s.proc p).state = .running) (hf : s.muxLock = none) :
    (Refuses s c p (.munlock c id) ↔ (s.muxes m).state ≠ 1) ∧
    (Refuses s c p (.signalcv c id) ↔ (s.muxes m).state ≠ 1 ∨ front (s.muxes m).cv = none) ∧
    (Refuses s c p (.waitcv c id) ↔ enroll (s.muxes m).cv p = none) :=
  ⟨munlock_refuses_iff hc hu hm ha,signalcv_refuses_iff hc hu hm ha hf,
    waitcv_refuses_iff hc hu hm ha hr hf⟩

end Foreign

theorem foreign_calls_refused_crew :
    (Refuses crew 1 1 (.munlock 1 3) ↔ (crew.muxes 3).state ≠ 1) ∧
    (Refuses crew 1 1 (.signalcv 1 3) ↔ (crew.muxes 3).state ≠ 1 ∨ front (crew.muxes 3).cv = none) ∧
    (Refuses crew 1 1 (.waitcv 1 3) ↔ enroll (crew.muxes 3).cv 1 = none) :=
  foreign_calls_refused_iff (s := crew) (c := 1) (p := 1) (m := 3) rfl rfl (by decide) rfl rfl rfl

/-- The first process creates a mutex, forks and locks it. Its child, which has
access to the mutex, unlocks it. -/
theorem child_unlocks_run : ∃ s t : Kernel (Fin 2), Reaches step (fun _ _ => True) (boot 0) s ∧
    (s.cpu 1 = some 1 ∧ s.pc 1 = .user ∧ (s.proc 1).muxPtrs 0 = true ∧ (s.muxes 0).state = 1 ∧
      s.holds 0 0 = true ∧ s.holds 1 0 = false) ∧
    callAlone s 1 1 (.munlock 1 0) = .ok t ∧ (t.proc 1).eax = 1 ∧ (t.muxes 0).state = 0 := by
  obtain ⟨s,hr,hs⟩ := play_witness step (fun _ _ => True) (fun _ _ => true)
    (fun _ _ _ => trivial) (boot (0 : Fin 2))
    (List.flatten [startup, [.mcreate 0 8 8], forkOn 0, [.mlock 0 0, .mlockTry 0, .schedule 1]])
    (fun s => decide (s.cpu 1 = some 1 ∧ s.pc 1 = .user ∧ (s.proc 1).muxPtrs 0 = true ∧
        (s.muxes 0).state = 1 ∧ s.holds 0 0 = true ∧ s.holds 1 0 = false) &&
      (callAlone s 1 1 (.munlock 1 0)).toOption.any (fun t : Kernel (Fin 2) =>
        decide ((t.proc 1).eax = 1 ∧ (t.muxes 0).state = 0)))
    (by decide +kernel)
  obtain ⟨h1,h2⟩ := Bool.and_eq_true_iff.mp hs
  obtain ⟨t,ht,h2⟩ := ok_of_any h2
  exact ⟨s,t,hr,of_decide_eq_true h1,ht,of_decide_eq_true h2⟩

end Xv6.CallAlone
