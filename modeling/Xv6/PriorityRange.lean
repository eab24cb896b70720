import Xv6.Placement
import Xv6.MutexEffects

/-!
# The range of the priorities

`sys_prio_set` compares its argument as a signed number with `PRIO_MAX` and as
an unsigned one with the caller's priority, so a negative argument passes both
tests and `pq_enqueue` later uses it as an index.
-/

set_option autoImplicit false

namespace Xv6.PriorityRange
open KernelState RingBuffer ReadyQueue ProcessCalls MutexCalls Machine
open ProcessFrames ProcessEffects MutexEffects TransitionRun
open ReadyInvariant Placement

variable {C : Type} {s t u : Kernel C} {c : C} {p q : Slot} {a : Act C}
  {w : BitVec 32}

def SamePriorities (s t : Kernel C) : Prop := ∀ q, (t.proc q).priority = (s.proc q).priority

theorem same_trans (h : SamePriorities s t) (k : SamePriorities t u) : SamePriorities s u :=
  fun q => (k q).trans (h q)

theorem same_setProc {r : Proc} (h : r.priority = (s.proc p).priority) :
    SamePriorities s (s.setProc p r) := by
  intro q
  by_cases hq : q = p <;> simp [hq, h]

theorem same_ret (h : SamePriorities s u) (v : ℤ) : SamePriorities s (ret u p v) :=
  same_trans h (same_setProc rfl)

variable [DecidableEq C]

theorem sync_same (h : Sync s c p a t) : SamePriorities s t := by
  have hsleep : ∀ l, SamePriorities s (setState (s.setLock l) p .sleeping) :=
    fun l => same_setProc (s := s.setLock l) rfl
  cases h with
  | mlock | munlock | waitcvCheck | waitcvDequeue | waitcvRelock | signalcv | mlockEnroll
  | munlockClear | waitcvClear | munlockDequeue | waitcv | signalDequeue => exact fun _ => rfl
  | mlockRefused | munlockRefused | waitcvFull | waitcvRefused | relockRefused | signalRefused
  | signalEmpty | mlockFull => exact same_ret (s := s) (fun _ => rfl) 0
  | munlockEmpty => exact same_ret (s := s) (fun _ => rfl) 1
  | mlockTake => exact same_ret (u := take s p _) (fun _ => rfl) 1
  | mlockSleep pc free left => exact same_trans (hsleep _) (routine_sched left).priority
  | waitcvSleep => exact hsleep _
  | waitcvSched pc left => exact (routine_sched left).priority
  | munlockWake pc free woken | signalWake pc free woken => exact (routine_wake woken).priority

theorem exit_same (h : exit s c p = .ok t) : SamePriorities s t := by
  obtain ⟨-,-,-,u,hu,h⟩ := exit_ok h
  refine same_trans hu.priority (same_trans (fun q => ?_) (routine_sched h).priority)
  by_cases hq : q = p <;> simp [retired, forget, released, hq]

omit [DecidableEq C] in
theorem popped_same {k : Pc} (h : u = s ∨ ∃ k, u = s.setRing k (pop (s.ring k))) :
    SamePriorities s (u.setPc p k) := by
  rcases h with rfl | ⟨k,rfl⟩
  · exact fun _ => rfl
  · exact fun _ => rfl

def writesPriority : Act C → Bool
  | .userinitPublish | .forkPriority _ | .prioSet _ _ _ => true
  | _ => false

theorem step_same (ha : writesPriority a = false) (h : step s a = .ok t) : SamePriorities s t := by
  cases hr : isRoutine a with
  | true => exact (routine_step hr h).priority
  | false =>
  cases hy : isSyncCall a with
  | true =>
    obtain ⟨c,p,-,hsync⟩ := sync_step hy h
    exact sync_same hsync
  | false =>
  cases hk : isKernelCall a with
  | false =>
    cases a <;> simp only [writesPriority, isKernelCall, Bool.true_eq_false] at ha hk
    case userinitAlloc =>
      obtain ⟨-,np,v,hv,rfl⟩ := userinitAlloc_ok h
      obtain ⟨-,rfl⟩ := allocproc_some hv
      intro q
      by_cases hq : q = np <;> simp [hq]
    case userinitMutexes =>
      obtain ⟨-,rfl⟩ := userinitMutexes_ok h
      exact fun _ => rfl
  | true =>
  cases hp : isProcessCall a with
  | false =>
    obtain ⟨c,p,-,h⟩ | ⟨c,p,-,ho⟩ := other_step hk hp hy h
    · exact (routine_dispatch (resume_ok h).2.2.2).priority
    cases ho with
    | prioKept | prioOwn | prioBelow => simp [writesPriority] at ha
    | mcreateFull | mdeleteRefused | testpqdqDone => exact same_ret (fun _ => rfl) _
    | mcreate m =>
      refine same_ret (fun q => ?_) _
      by_cases hq : q = p <;> simp [createMux, hq]
    | mdeleteShared | mdelete | mdeleteFree => exact fun _ => rfl
    | mdeleteDrop => exact same_ret (same_setProc (by rfl)) 1
    | testpqeq r v user free state muxPtrs priority put =>
      refine same_ret ?_ v
      rcases put with rfl | ⟨k,rfl⟩
      · exact same_setProc (s := s.setLock (some p)) priority
      · exact same_setProc (s := s.setLock (some p)) priority
    | testpqdq e user taken | testpqdqNext e n pc taken => exact popped_same taken
  | true =>
  cases a <;> simp only [writesPriority, isRoutine, isProcessCall, Bool.false_eq_true,
    Bool.true_eq_false] at ha hr hp
  case exit c =>
    obtain ⟨p,-,-,h⟩ := call_ok h
    exact exit_same h
  case fork c =>
    obtain ⟨p,-,-,h⟩ := call_ok h
    rcases (fork_ok h).2 with rfl | ⟨np,-,rfl⟩
    · exact same_ret (u := s.setLock (some p)) (fun _ => rfl) (-1)
    · exact same_setProc (p := np) (r := { s.proc np with state := .embryo, pid := s.nextpid }) rfl
  case forkPublish c =>
    obtain ⟨p,-,h⟩ := onCpu_ok h
    split at h
    case h_2 => simp at h
    obtain ⟨-,u,hu,rfl⟩ := forkPublish_ok h
    exact (routine_makeRunnable hu).priority
  all_goals
    obtain ⟨p,-,h⟩ := onCpu_ok h
    split at h
    case h_2 => simp at h
    cases h
  · exact same_ret (same_setProc (by rfl)) (-1)
  · exact same_ret (same_setProc (by rfl)) (-1)
  · exact same_setProc (by rfl)
  · exact same_setProc (by rfl)

section
omit [DecidableEq C]

theorem range_same (hs : PrioInRange s) (h : SamePriorities s t) : PrioInRange t := by
  intro q
  rw [h q]
  exact hs q

theorem range_setProc (hs : PrioInRange s) {r : Proc} (hr : r.priority.toNat < PRIO_MAX) :
    PrioInRange (s.setProc p r) := by
  intro q
  by_cases hq : q = p
  · simpa [hq] using hr
  · simpa [hq] using hs q

end

theorem negative_toNat : w.toInt < 0 ↔ 2^31 ≤ w.toNat := by
  have hlt := w.isLt
  rw [BitVec.toInt_eq_toNat_cond]
  split <;> omega

theorem range_iff_int : w.toNat < PRIO_MAX ↔ 0 ≤ w.toInt ∧ w.toInt < PRIO_MAX := by
  have hn := negative_toNat (w := w)
  by_cases h : w.toInt < 0
  · have hw := hn.mp h
    simp only [PRIO_MAX]
    omega
  · have he := toNat_of_nonneg (not_lt.mp h)
    simp only [PRIO_MAX]
    omega

def SetsNegative (s : Kernel C) (a : Act C) : Prop :=
  ∃ c pid w p, a = .prioSet c pid w ∧ s.cpu c = some p ∧ w.toInt < 0 ∧
    ((s.proc p).pid = pid ∨ s.lock = none ∧ ∃ q, Assigns s p pid w q)

section
variable (hs : PrioInRange s)
include hs

section
omit [DecidableEq C]

theorem prioSet_own {pid : ℤ} (hw : w.toInt < 0) (hp : (s.proc p).pid = pid) :
    sysPrioSet s p pid w = .ok (ret (s.setProc p { s.proc p with priority := w }) p 1) := by
  have hn := negative_toNat.mp hw
  have hq := hs p
  have hlow : ¬w < (s.proc p).priority := by
    rw [BitVec.lt_def]
    simp only [PRIO_MAX] at hq
    omega
  have hmax : ¬(PRIO_MAX : ℤ) ≤ w.toInt := by
    simp only [PRIO_MAX]
    omega
  rw [sysPrioSet, if_neg hmax, if_neg hlow, if_pos hp]

theorem range_written {v : ℤ} {l k : Option Slot} :
    PrioInRange ((ret ((s.setLock l).setProc q { s.proc q with priority := w }) p v).setLock k) ↔
      w.toNat < PRIO_MAX := by
  have hret : SamePriorities ((s.setLock l).setProc q { s.proc q with priority := w })
      ((ret ((s.setLock l).setProc q { s.proc q with priority := w }) p v).setLock k) :=
    same_ret (fun _ => rfl) v
  constructor
  · intro h
    have hq := h q
    rw [hret q] at hq
    simpa using hq
  · intro hw
    exact range_same (range_setProc (s := s.setLock l) hs hw) hret

end

theorem prioSet_range_iff {pid : ℤ} (h : step s (.prioSet c pid w) = .ok t) :
    PrioInRange t ↔ ¬SetsNegative s (.prioSet c pid w) := by
  obtain ⟨p,hc,hu,h⟩ := call_ok h
  have hset : SetsNegative s (.prioSet c pid w) ↔ w.toInt < 0 ∧
      ((s.proc p).pid = pid ∨ s.lock = none ∧ ∃ q, Assigns s p pid w q) := by
    constructor
    · rintro ⟨c',pid',w',p',ha,hc',hw,hq⟩
      obtain ⟨rfl,rfl,rfl⟩ := Act.prioSet.inj ha
      obtain rfl := Option.some.inj (hc.symm.trans hc')
      exact ⟨hw,hq⟩
    · rintro ⟨hw,hq⟩
      exact ⟨c,pid,w,p,rfl,hc,hw,hq⟩
  rw [hset]
  by_cases hown : (s.proc p).pid = pid ∧ w.toInt < 0
  · have ht := (prioSet_own hs hown.2 hown.1).symm.trans h
    cases ht
    have hr := range_written (q := p) (p := p) (w := w) (v := 1) (l := s.lock) (k := s.lock) hs
    have hn := range_iff_int (w := w)
    refine ⟨fun hin => ?_,fun hno => absurd ⟨hown.2,.inl hown.1⟩ hno⟩
    have h0 := hn.mp (hr.mp hin)
    omega
  rcases sysPrioSet_ok h with ⟨l,v,rfl,hno⟩ | ⟨hv,hpid,rfl⟩ | ⟨q,hl,ha,rfl⟩
  · refine ⟨fun _ => ?_,fun _ => range_same hs (same_ret (u := s.setLock l) (fun _ => rfl) v)⟩
    rintro ⟨hw,hp | ⟨hl,q,hq⟩⟩
    · exact hown ⟨hp,hw⟩
    · exact hno q ⟨hl,hq⟩
  · have h0 : ¬w.toInt < 0 := fun hw => hown ⟨hpid,hw⟩
    refine ⟨fun _ hw => h0 hw.1,fun _ => ?_⟩
    refine (range_written (q := p) (p := p) (w := w) (v := 1) (l := s.lock) (k := s.lock) hs).mpr ?_
    exact range_iff_int.mpr ⟨not_lt.mp h0,hv⟩
  · rw [range_written hs, range_iff_int]
    refine ⟨fun hin hw => absurd hw.1 (not_lt.mpr hin.1),fun hw => ⟨?_,ha.valid⟩⟩
    by_contra h0
    exact hw ⟨not_le.mp h0,.inr ⟨hl,q,ha⟩⟩

omit [DecidableEq C] in
theorem publish_range (h : userinitPublish s = .ok t) : PrioInRange t := by
  obtain ⟨p,u,-,hu,rfl⟩ := userinitPublish_ok h
  have h0 : PrioInRange (s.setProc p { s.proc p with priority := 0 }) :=
    range_setProc hs (by simp)
  exact range_same (s := s.setProc p { s.proc p with priority := 0 }) h0
    (routine_makeRunnable hu).priority

/-- A step keeps the priorities in range exactly when it does not set a
negative one. -/
theorem range_step_iff (h : step s a = .ok t) : PrioInRange t ↔ ¬SetsNegative s a := by
  cases hw : writesPriority a with
  | false =>
    refine ⟨fun _ => ?_,fun _ => range_same hs (step_same hw h)⟩
    rintro ⟨c,pid,w,p,rfl,-⟩
    simp [writesPriority] at hw
  | true =>
    cases a <;> simp only [writesPriority, Bool.false_eq_true] at hw
    case prioSet c pid w => exact prioSet_range_iff hs h
    case userinitPublish =>
      refine ⟨fun _ => ?_,fun _ => publish_range hs h⟩
      rintro ⟨c,pid,w,p,ha,-⟩
      simp at ha
    case forkPriority c =>
      obtain ⟨p,-,h⟩ := onCpu_ok h
      split at h
      case h_2 => simp at h
      cases h
      refine ⟨fun _ => ?_,fun _ => ?_⟩
      · rintro ⟨c,pid,w,p,ha,-⟩
        simp at ha
      · exact (range_written (l := s.lock) (k := s.lock) hs).mpr (hs p)

end

/-- The priorities and the queue indices made from them. In a run, by any
processes and calls, in which no `sys_prio_set` sets a negative priority, every
priority read as an `int` is an index of the rings and no `pq_enqueue` leaves
them; and of the steps possible in its states exactly those that set a negative
priority take one out of the range. -/
theorem priorities_in_range_iff
    (h : Reaches step (fun s a => ¬SetsNegative s a) (boot c) s) :
    (∀ p, 0 ≤ (s.proc p).priority.toInt ∧ (s.proc p).priority.toInt < PRIO_MAX) ∧
    (∀ p, pqEnqueue s p ≠ .error .wild) ∧
    ∀ a t, step s a = .ok t →
      ((∀ p, 0 ≤ (t.proc p).priority.toInt ∧ (t.proc p).priority.toInt < PRIO_MAX) ↔
        ¬SetsNegative s a) := by
  have hs : PrioInRange s := by
    refine reaches_invariant PrioInRange (fun _ _ _ hv ha hw => (range_step_iff hv hw).mpr ha) ?_ h
    intro p
    simp [boot, zeroProc]
  refine ⟨fun p => range_iff_int.mp (hs p),fun p => ?_,fun a t ht => ?_⟩
  · obtain ⟨k,hk,-⟩ := prioIndex_of_lt _ (hs p)
    unfold pqEnqueue
    rw [hk]
    simp only
    split
    · simp
    · split <;> simp
  · rw [← range_step_iff hs ht]
    exact forall_congr' (fun p => range_iff_int.symm)

def unsigned : Act (Fin 2) → Bool
  | .prioSet _ _ w => decide (0 ≤ w.toInt)
  | _ => true

/-- A child of the first process raises its own priority value to 7. -/
theorem priorities_in_range_child : ∃ s : Kernel (Fin 2), (s.proc 1).priority = 7 ∧
    (∀ p, 0 ≤ (s.proc p).priority.toInt ∧ (s.proc p).priority.toInt < PRIO_MAX) ∧
    (∀ p, pqEnqueue s p ≠ .error .wild) ∧
    ∀ a t, step s a = .ok t →
      ((∀ p, 0 ≤ (t.proc p).priority.toInt ∧ (t.proc p).priority.toInt < PRIO_MAX) ↔
        ¬SetsNegative s a) := by
  obtain ⟨s,hr,hs⟩ := play_witness step (fun s a => ¬SetsNegative s a)
    (fun _ a => unsigned a)
    (fun s a ha => by
      rintro ⟨c,pid,w,p,rfl,-,hw,-⟩
      have h0 : 0 ≤ w.toInt := of_decide_eq_true ha
      omega)
    (boot (0 : Fin 2)) (List.flatten [startup, forkOn 0, [.schedule 1, .prioSet 1 2 7]])
    (fun s => decide ((s.proc 1).priority = 7)) (by decide +kernel)
  exact ⟨s,of_decide_eq_true hs,priorities_in_range_iff hr⟩

/-- The first process gives itself the priority -1. The next clock tick
indexes the rings with it. -/
theorem negative_priority_run : ∃ s : Kernel (Fin 2),
    Reaches step (fun _ _ => True) (boot 0) s ∧ (s.proc 0).priority.toInt = -1 ∧
    (s.proc 0).eax = 1 ∧ step s (.yield 0) = .error .wild := by
  obtain ⟨s,hr,hs⟩ := play_witness step (fun _ _ => True) (fun _ _ => true)
    (fun _ _ _ => trivial) (boot (0 : Fin 2)) (startup ++ [.prioSet 0 1 (-1)])
    (fun s => decide ((s.proc 0).priority.toInt = -1 ∧ (s.proc 0).eax = 1) &&
      decide (failure (step s (.yield 0)) = some .wild)) (by decide +kernel)
  obtain ⟨h1,h2⟩ := Bool.and_eq_true_iff.mp hs
  obtain ⟨hp,he⟩ := of_decide_eq_true h1
  exact ⟨s,hr,hp,he,failure_eq_some.mp (of_decide_eq_true h2)⟩

end Xv6.PriorityRange
