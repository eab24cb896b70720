import Xv6.LockRuns
import Xv6.CallAlone

/-!
# The spinlocks of the synchronisation calls

Every section of the six calls as the list of its lock operations, in the order
of the source: `acquire` and `release` of the three locks, `sched`, and the
return to user space with the mark the process has then.
-/

set_option autoImplicit false

namespace Xv6.SpinlockUse
open KernelState NullQueue ReadyQueue ProcessCalls MutexCalls
open Machine ProcessFrames MutexEffects
open TransitionRun Coherence WaitLines LockHolders LockRuns
open CallAlone

inductive Lock where
  | ptable
  | mutexes
  | wqueue
  deriving DecidableEq, Repr

inductive LockOp where
  | acquire (l : Lock)
  | release (l : Lock)
  | sched
  | ret (mark : ProcState)
  deriving DecidableEq, Repr

def obeys : List Lock → List LockOp → Option (List Lock)
  | held, [] => some held
  | held, .acquire l::ops => if l ∈ held then none else obeys (l::held) ops
  | held, .release l::ops => if l ∈ held then obeys (held.erase l) ops else none
  | held, .sched::ops => if held = [.ptable] then obeys held ops else none
  | held, .ret mark::ops => if held = [] ∧ mark = .running then obeys held ops else none

variable {C : Type} {s t : Kernel C} {c : C} {p q : Slot} {m : MuxId} {a : Act C}

def held (s : Kernel C) (p : Slot) : List Lock :=
  (if s.lock = some p then [.ptable] else []) ++ (if s.muxLock = some p then [.mutexes] else [])

def muxSection : List LockOp := [.acquire .mutexes, .release .mutexes]

def wqueueSection : List LockOp := [.acquire .wqueue, .release .wqueue]

def accessOps (s : Kernel C) (p : Slot) (m : MuxId) : List LockOp :=
  if (s.proc p).muxPtrs m then [] else [.ret (s.proc p).state]

def heldOps (s : Kernel C) (p : Slot) (m : MuxId) : List LockOp :=
  if (s.proc p).muxPtrs m ∧ (s.muxes m).state = 1 then [] else [.ret (s.proc p).state]

def mlockTryOps (s : Kernel C) (p : Slot) (m : MuxId) : List LockOp :=
  if (s.muxes m).state = 1 then
    match enroll s.wqueue p with
    | none => .acquire .mutexes::wqueueSection ++ [.ret (s.proc p).state]
    | some _ => .acquire .mutexes::wqueueSection ++ [.release .mutexes]
  else muxSection ++ [.ret (s.proc p).state]

def wakeOps (s : Kernel C) (p q : Slot) : List LockOp :=
  [.acquire .ptable, .release .ptable, .ret (if q = p then .runnable else (s.proc p).state)]

/-- The lock operations of the section that `p` runs as the action; one that
stops in `pq_enqueue` or at a bad pointer has the first of them only. -/
def lockOps (s : Kernel C) (p : Slot) : Act C → List LockOp
  | .mcreate _ _ _ => muxSection ++ [.ret (s.proc p).state]
  | .mdelete _ id => ((muxIndex id).map (accessOps s p)).getD []
  | .mdeleteFree _ => muxSection
  | .mdeleteDrop _ => [.ret (s.proc p).state]
  | .mlock _ id => ((muxIndex id).map (accessOps s p)).getD []
  | .mlockTry _ => match s.pc p with
    | .mlockTry _ m => mlockTryOps s p m
    | _ => []
  | .mlockSleep _ => [.acquire .ptable, .sched, .release .ptable]
  | .munlock _ id => ((muxIndex id).map (heldOps s p)).getD []
  | .munlockClear _ => muxSection
  | .munlockDequeue _ => match front s.wqueue with
    | none => wqueueSection ++ [.ret (s.proc p).state]
    | some _ => wqueueSection
  | .munlockWake _ | .signalWake _ => ((waker (s.pc p)).map (wakeOps s p)).getD []
  | .waitcv _ id => match muxIndex id with
    | none => []
    | some m => match enroll (s.muxes m).cv p with
      | none => muxSection ++ [.ret (s.proc p).state]
      | some _ => muxSection
  | .waitcvSleep _ => [.acquire .ptable]
  | .waitcvCheck _ => match s.pc p with
    | .waitcvCheck m => heldOps s p m
    | _ => []
  | .waitcvClear _ => muxSection
  | .waitcvDequeue _ => match front s.wqueue with
    | none => wqueueSection
    | some _ => wqueueSection ++ [.acquire .ptable, .release .ptable]
  | .waitcvSched _ => [.sched, .release .ptable]
  | .waitcvRelock _ => match s.pc p with
    | .waitcvRelock m => accessOps s p m
    | _ => []
  | .signalcv _ id => ((muxIndex id).map (heldOps s p)).getD []
  | .signalDequeue _ => match s.pc p with
    | .signalDequeue m => match front (s.muxes m).cv with
      | none => muxSection ++ [.ret (s.proc p).state]
      | some _ => muxSection
    | _ => []
  | _ => []

def caller : Act C → Option C
  | .mcreate c _ _ | .mdelete c _ | .mdeleteFree c | .mdeleteDrop c | .mlock c _ | .mlockTry c
  | .mlockSleep c | .munlock c _ | .munlockClear c | .munlockDequeue c | .munlockWake c
  | .waitcv c _ | .waitcvSleep c | .waitcvCheck c | .waitcvClear c | .waitcvDequeue c
  | .waitcvSched c | .waitcvRelock c | .signalcv c _ | .signalDequeue c | .signalWake c => some c
  | _ => none

def Breach (s : Kernel C) (p : Slot) (a : Act C) : Prop :=
  (∃ c m, a = .waitcvCheck c ∧ s.pc p = .waitcvCheck m ∧
    ¬((s.proc p).muxPtrs m = true ∧ (s.muxes m).state = 1)) ∨
  (∃ c, a = .waitcvDequeue c ∧ front s.wqueue ≠ none) ∨
  (∃ c, (a = .munlockWake c ∨ a = .signalWake c) ∧ waker (s.pc p) = some p)

theorem held_duty (hs : Duty s) : held s p = if lockPc (s.pc p) then [.ptable] else [] := by
  have hl := hs.lock p
  cases hk : lockPc (s.pc p) with
  | true => simp [held, hl.mpr hk, hs.free]
  | false =>
    have hn : s.lock ≠ some p := fun h => by simp [hl.mp h] at hk
    simp [held, hn, hs.free]

theorem held_out (hs : Duty s) (hk : lockPc (s.pc p) = false) : held s p = [] := by
  simp [held_duty hs, hk]

theorem held_in (hs : Duty s) (hk : lockPc (s.pc p) = true) : held s p = [.ptable] := by
  simp [held_duty hs, hk]

theorem running_out (hs : Duty s) (hc : s.cpu c = some p) (hk : lockPc (s.pc p) = false) :
    (s.proc p).state = .running := (hs.state c p hc).trans (mark_of hk)

def after (l : List Lock) : Act C → List Lock
  | .waitcvSleep _ => [.ptable]
  | .waitcvSched _ => []
  | _ => l

def Scripted (s : Kernel C) (p : Slot) (a : Act C) : Prop :=
  (¬Breach s p a → obeys (held s p) (lockOps s p a) = some (after (held s p) a)) ∧
  (Breach s p a → obeys (held s p) (lockOps s p a) = none)

def enters : Act C → Bool
  | .mcreate _ _ _ | .mdelete _ _ | .mlock _ _ | .munlock _ _ | .waitcv _ _ | .signalcv _ _ => true
  | _ => false

variable [DecidableEq C]

/-- A section that need not wait is the next one of its thread. -/
theorem section_pc (hc : s.cpu c = some p) (ha : caller a = some c)
    (h : step s a ≠ .error .disabled) :
    enters a = true ∧ s.pc p = .user ∨ enters a = false ∧ nextSection c (s.pc p) = some a := by
  have hat : ∀ f : Slot → Except Stop (Kernel C), onCpu s c f ≠ .error .disabled →
      f p ≠ .error .disabled := fun f hf => by rwa [onCpu_eq hc] at hf
  have hcall : ∀ f : Slot → Except Stop (Kernel C), call s c f ≠ .error .disabled →
      s.pc p = .user := by
    intro f hf
    by_contra hu
    exact hat _ hf (if_neg hu)
  cases a <;> simp only [caller, reduceCtorEq, Option.some.injEq] at ha <;> subst ha
  case mcreate | mdelete | mlock | munlock | waitcv | signalcv => exact .inl ⟨rfl,hcall _ h⟩
  all_goals
    refine .inr ⟨rfl,?_⟩
    have h := hat _ h
    split at h
    · rename_i hp
      rw [hp]
      rfl
    · simp at h

section
omit [DecidableEq C]

theorem scripted_out (hs : Duty s) (hc : s.cpu c = some p) (hk : lockPc (s.pc p) = false)
    (hp : nextSection c (s.pc p) = some a) :
    Scripted s p a := by
  have hr := running_out hs hc hk
  have hq := duty_room (p := p) hs
  rw [Scripted, held_out hs hk]
  cases hpc : s.pc p <;> rw [hpc] at hp hk <;>
    simp only [nextSection, Option.some.injEq, reduceCtorEq] at hp <;>
    simp only [lockPc, cvLock, Bool.true_eq_false] at hk <;> subst hp
  case mlockTry via m =>
    refine ⟨fun _ => ?_,fun h => absurd h (by simp [Breach])⟩
    by_cases hm : (s.muxes m).state = 1
    · obtain ⟨w,hw⟩ := Option.ne_none_iff_exists'.mp hq
      simp [lockOps, hpc, mlockTryOps, hm, hw, wqueueSection, obeys, after]
    · simp [lockOps, hpc, mlockTryOps, hm, muxSection, obeys, after, hr]
  case munlockDequeue m =>
    refine ⟨fun _ => ?_,fun h => absurd h (by simp [Breach])⟩
    cases hf : front s.wqueue <;> simp [lockOps, hf, wqueueSection, obeys, after, hr]
  case waitcvRelock m =>
    refine ⟨fun _ => ?_,fun h => absurd h (by simp [Breach])⟩
    cases hm : (s.proc p).muxPtrs m <;> simp [lockOps, hpc, accessOps, hm, obeys, after, hr]
  case signalDequeue m =>
    refine ⟨fun _ => ?_,fun h => absurd h (by simp [Breach])⟩
    cases hf : front (s.muxes m).cv <;> simp [lockOps, hpc, hf, muxSection, obeys, after, hr]
  case munlockWake m q | signalWake m q =>
    by_cases hqp : q = p <;> simp [lockOps, hpc, waker, wakeOps, obeys, after, Breach, hqp, hr]
  all_goals
    refine ⟨fun _ => ?_,fun h => absurd h (by simp [Breach])⟩
    simp [lockOps, muxSection, obeys, after, hr]

theorem scripted_in (hs : Duty s) (hc : s.cpu c = some p) (hk : cvLock (s.pc p) = true)
    (hp : nextSection c (s.pc p) = some a) :
    Scripted s p a := by
  have hl : lockPc (s.pc p) = true := by
    cases hpc : s.pc p <;> simp [hpc, cvLock, lockPc] at hk ⊢
  have hz : (s.proc p).state = .sleeping := (hs.state c p hc).trans (by simp [mark, hk])
  rw [Scripted, held_in hs hl]
  cases hpc : s.pc p <;> rw [hpc] at hp hk <;> simp only [cvLock, Bool.false_eq_true] at hk <;>
    simp only [nextSection, Option.some.injEq] at hp <;> subst hp
  case waitcvCheck m =>
    by_cases hm : (s.proc p).muxPtrs m = true ∧ (s.muxes m).state = 1 <;>
      simp [lockOps, hpc, heldOps, hm, obeys, after, Breach]
  case waitcvDequeue m =>
    cases hf : front s.wqueue <;> simp [lockOps, hf, wqueueSection, obeys, after, Breach]
  all_goals
    refine ⟨fun _ => ?_,fun h => absurd h (by simp [Breach])⟩
    simp [lockOps, muxSection, obeys, after]

end

theorem scripted_of (hs : Duty s) (hc : s.cpu c = some p) (ha : caller a = some c)
    (h : step s a ≠ .error .disabled) :
    Scripted s p a := by
  rcases section_pc hc ha h with ⟨he,hp⟩ | ⟨he,hp⟩
  · have hk : lockPc (s.pc p) = false := by rw [hp]; rfl
    have hr := running_out hs hc hk
    have hb : ¬Breach s p a := by
      rintro (⟨d,m,rfl,-⟩ | ⟨d,rfl,-⟩ | ⟨d,rfl | rfl,-⟩) <;> simp [enters] at he
    rw [Scripted, held_out hs hk]
    suffices h : obeys [] (lockOps s p a) = some (after [] a) from ⟨fun _ => h,fun h => absurd h hb⟩
    cases a <;> simp only [enters, Bool.false_eq_true] at he
    case mcreate => simp [lockOps, muxSection, obeys, after, hr]
    case waitcv c id =>
      cases hm : muxIndex id with
      | none => simp [lockOps, hm, obeys, after]
      | some m => cases hq : enroll (s.muxes m).cv p <;>
          simp [lockOps, hm, hq, muxSection, obeys, after, hr]
    case mdelete c id | mlock c id =>
      cases hm : muxIndex id with
      | none => simp [lockOps, hm, obeys, after]
      | some m => cases hq : (s.proc p).muxPtrs m <;>
          simp [lockOps, hm, accessOps, hq, obeys, after, hr]
    case munlock c id | signalcv c id =>
      cases hm : muxIndex id with
      | none => simp [lockOps, hm, obeys, after]
      | some m =>
        by_cases hq : (s.proc p).muxPtrs m ∧ (s.muxes m).state = 1 <;>
          simp [lockOps, hm, heldOps, hq, obeys, after, hr]
  · cases hk : lockPc (s.pc p) with
    | false => exact scripted_out hs hc hk hp
    | true =>
      refine scripted_in hs hc ?_ hp
      cases hpc : s.pc p <;> simp [hpc, lockPc, nextSection] at hk hp <;> exact hk

theorem sched_releases (hp : (s.proc p).state ≠ .runnable) (h : sched s c p = .ok t) :
    t.lock ≠ some p ∧ t.muxLock = s.muxLock := by
  have hm : t.muxLock = s.muxLock := by rw [(routine_sched h).rest]
  refine ⟨?_,hm⟩
  obtain ⟨-,-,-,⟨-,rfl⟩ | ⟨i,-,hf⟩⟩ := sched_ok h
  · simp
  · rcases scanFrom_ok hf with rfl | ⟨q,hq,hd⟩
    · simp
    · have hqp : q ≠ p := by
        rintro rfl
        exact hp hq
      obtain ⟨ch,k,l,rfl,⟨-,-,-,rfl⟩ | ⟨-,-,-,rfl⟩⟩ := dispatch_ok hd
      · simp [switchTo]
      · by_cases hk : k = .waitScan <;> simp [switchTo, hk, hqp]

omit [DecidableEq C] in
theorem held_same (hl : t.lock = s.lock) (hm : t.muxLock = s.muxLock) : held t p = held s p := by
  rw [held, held, hl, hm]

theorem held_step (hs : Duty s) (hc : s.cpu c = some p) (ha : caller a = some c)
    (h : step s a = .ok t) (hb : ¬Breach s p a) : held t p = after (held s p) a := by
  cases hy : isSyncCall a with
  | true =>
    obtain ⟨d,q,hd,hsync⟩ := sync_step hy h
    have hdc : d = c := by
      cases hsync <;> exact Option.some.inj ha
    subst hdc
    obtain rfl := Option.some.inj (hd.symm.trans hc)
    cases hsync with
    | mlockSleep pc free left =>
      obtain ⟨h1,h2⟩ := sched_releases (by simp [setState]) left
      change held t q = held s q
      rw [held_out hs (by rw [pc]; rfl)]
      simp [held, h1, h2, setState, hs.free]
    | waitcvSched pc left =>
      have hz := hs.state d q hc
      obtain ⟨h1,h2⟩ := sched_releases (by simp [hz, pc, mark, cvLock]) left
      simp [held, h1, h2, after, hs.free]
    | waitcvSleep pc free => simp [held, after, setState, hs.free]
    | munlockWake pc free woken | signalWake pc free woken =>
      obtain ⟨k,-,-,rfl⟩ := makeRunnable_ok woken
      exact held_same free.symm rfl
    | mlockFull pc locked full => exact absurd full (duty_room hs)
    | _ => exact held_same rfl rfl
  | false =>
    cases a <;> simp only [caller, isSyncCall, reduceCtorEq, Bool.true_eq_false] at ha hy
    case mcreate d name junk =>
      obtain ⟨q,-,-,h⟩ := call_ok h
      rcases sysMcreate_ok h with ⟨rfl,-⟩ | ⟨m,-,rfl⟩
      · exact held_same rfl rfl
      · exact held_same rfl rfl
    case mdelete d id =>
      obtain ⟨q,-,-,h⟩ := call_ok h
      obtain ⟨m,-,⟨-,rfl⟩ | ⟨-,-,rfl⟩ | ⟨-,-,rfl⟩⟩ := sysMdelete_ok h
      · exact held_same rfl rfl
      · exact held_same rfl rfl
      · exact held_same rfl rfl
    all_goals
      obtain ⟨q,-,h⟩ := onCpu_ok h
      split at h
      case h_2 => simp at h
    · obtain rfl := mdeleteFree_ok h
      exact held_same rfl rfl
    · cases h
      exact held_same rfl rfl

/-- Spinlock discipline. In every state of a run from boot in which only
sleepers are woken from the queues, no nested `sys_munlock` has been refused
and nobody has left out of a queue, a section of the six calls that need not
wait for a lock obeys the rules exactly when it is none of the three; the lock
fields of the next state are then what its operations leave. -/
theorem spinlocks_obeyed_iff {c₀ : C} (h : Reaches step Careful (boot c₀) s)
    (hc : s.cpu c = some p) (ha : caller a = some c) (he : step s a ≠ .error .disabled) :
    (obeys (held s p) (lockOps s p a) ≠ none ↔ ¬Breach s p a) ∧
    ∀ t, step s a = .ok t → ¬Breach s p a →
      obeys (held s p) (lockOps s p a) = some (held t p) := by
  rcases careful_reaches h with hs | ⟨hs,-⟩
  · simp [hs.cpu c] at hc
  obtain ⟨h1,h2⟩ := scripted_of hs hc ha he
  refine ⟨⟨fun hne hb => hne (h2 hb),fun hb => by simp [h1 hb]⟩,fun t ht hb => ?_⟩
  rw [held_step hs hc ha ht hb]
  exact h1 hb

def contended (c d : C) : List (Act C) :=
  [.mcreate c 8 8] ++ forkOn c ++ [.schedule d, .mlock c 0, .mlockTry c, .mlock d 0,
    .mlockTry d, .mlockSleep d]

/-- A process unlocks a mutex and wakes the one that waits for it. -/
theorem spinlocks_obeyed_handover : ∃ s t : Kernel (Fin 2), Reaches step Careful (boot 0) s ∧
    waker (s.pc 0) = some 1 ∧ step s (.munlockWake 0) = .ok t ∧
    obeys (held s 0) (lockOps s 0 (.munlockWake 0)) = some (held t 0) := by
  let run : List (Act (Fin 2)) :=
    startup ++ contended 0 1 ++ [.munlock 0 0, .munlockClear 0, .munlockDequeue 0]
  obtain ⟨s,hr,hs⟩ := play_witness step Careful (fun _ a => decide (a ∈ run))
    (fun s a ha => by
      refine ⟨fun c p h => ?_,fun c p q h => ?_,fun c p m h => ?_⟩
      · simp [run, startup, contended, forkOn, h] at ha
      · rcases h with h | h <;> simp [run, startup, contended, forkOn, h] at ha
      · simp [run, startup, contended, forkOn, h] at ha)
    (boot (0 : Fin 2)) run
    (fun s => decide (s.cpu 0 = some 0 ∧ waker (s.pc 0) = some 1) &&
      (step s (.munlockWake 0)).toOption.any fun _ => true) (by decide +kernel)
  obtain ⟨hs,ht⟩ := Bool.and_eq_true_iff.mp hs
  obtain ⟨hc,hw⟩ := of_decide_eq_true hs
  obtain ⟨t,ht,-⟩ := ok_of_any ht
  have hobey := (spinlocks_obeyed_iff hr hc rfl (a := .munlockWake 0) (by simp [ht])).2 t ht
  exact ⟨s,t,hr,hw,ht,hobey (by simp [Breach, hw])⟩

/-- Three runs. A process waits on the condition variable of a free mutex: it
returns 0 marked asleep and with `ptable.lock`. It waits while a process waits
for a mutex: it takes that lock twice. A child that was killed while it waited
for the mutex gets it later and unlocks it: it is still first in the queue,
and returns marked `RUNNABLE`. -/
theorem spinlocks_broken_runs :
    (∃ s t : Kernel (Fin 2), Reaches step (fun _ _ => True) (boot 0) s ∧
      obeys (held s 0) (lockOps s 0 (.waitcvCheck 0)) = none ∧
      step s (.waitcvCheck 0) = .ok t ∧ t.pc 0 = .user ∧ (t.proc 0).eax = 0 ∧
      held t 0 = [.ptable] ∧ (t.proc 0).state = .sleeping) ∧
    (∃ s : Kernel (Fin 2), Reaches step (fun _ _ => True) (boot 0) s ∧
      obeys (held s 0) (lockOps s 0 (.waitcvDequeue 0)) = none ∧
      step s (.waitcvDequeue 0) = .error (.panic "acquire")) ∧
    ∃ s t : Kernel (Fin 2), Reaches step (fun _ _ => True) (boot 0) s ∧
      obeys (held s 1) (lockOps s 1 (.munlockWake 1)) = none ∧
      step s (.munlockWake 1) = .ok t ∧ t.pc 1 = .user ∧ (t.proc 1).state = .runnable := by
  refine ⟨?_,?_,?_⟩
  · obtain ⟨s,hr,hs⟩ := play_witness step (fun _ _ => True) (fun _ _ => true)
      (fun _ _ _ => trivial) (boot (0 : Fin 2))
      (startup ++ [.mcreate 0 8 8, .waitcv 0 0, .waitcvSleep 0])
      (fun s => decide (obeys (held s 0) (lockOps s 0 (.waitcvCheck 0)) = none) &&
        (step s (.waitcvCheck 0)).toOption.any (fun t : Kernel (Fin 2) =>
          decide (t.pc 0 = .user ∧ (t.proc 0).eax = 0 ∧ held t 0 = [.ptable] ∧
            (t.proc 0).state = .sleeping)))
      (by decide +kernel)
    simp only [Bool.and_eq_true] at hs
    obtain ⟨t,ht,h⟩ := ok_of_any hs.2
    exact ⟨s,t,hr,of_decide_eq_true hs.1,ht,of_decide_eq_true h⟩
  · obtain ⟨s,hr,hs⟩ := play_witness step (fun _ _ => True) (fun _ _ => true)
      (fun _ _ _ => trivial) (boot (0 : Fin 2))
      (startup ++ contended 0 1 ++ [.waitcv 0 0, .waitcvSleep 0, .waitcvCheck 0, .waitcvClear 0])
      (fun s => decide (obeys (held s 0) (lockOps s 0 (.waitcvDequeue 0)) = none) &&
        decide (failure (step s (.waitcvDequeue 0)) = some (.panic "acquire")))
      (by decide +kernel)
    simp only [Bool.and_eq_true] at hs
    exact ⟨s,hr,of_decide_eq_true hs.1,failure_eq_some.mp (of_decide_eq_true hs.2)⟩
  · obtain ⟨s,hr,hs⟩ := play_witness step (fun _ _ => True) (fun _ _ => true)
      (fun _ _ _ => trivial) (boot (0 : Fin 2))
      (startup ++ contended 0 1 ++ [.kill 0 2, .schedule 1, .munlock 0 0, .munlockClear 0,
        .mlockTry 1, .munlock 1 0, .munlockClear 1, .munlockDequeue 1])
      (fun s => decide (obeys (held s 1) (lockOps s 1 (.munlockWake 1)) = none) &&
        (step s (.munlockWake 1)).toOption.any (fun t : Kernel (Fin 2) =>
          decide (t.pc 1 = .user ∧ (t.proc 1).state = .runnable)))
      (by decide +kernel)
    simp only [Bool.and_eq_true] at hs
    obtain ⟨t,ht,h⟩ := ok_of_any hs.2
    exact ⟨s,t,hr,of_decide_eq_true hs.1,ht,of_decide_eq_true h⟩

end Xv6.SpinlockUse
