import Xv6.ReadyRuns

/-!
# Placement in the priority rings

An entry in ring `k` should belong to a process of priority `k`. Enqueueing
places correctly; a priority written while the process is queued does not move
its entry. `fork` does that when it copies the priority after publishing the
child, and `sys_prio_set` for any runnable descendant.
-/

set_option autoImplicit false

namespace Xv6.Placement
open KernelState RingBuffer ReadyQueue ProcessCalls MutexCalls Machine
open ProcessFrames ProcessEffects TransitionRun ReadyInvariant ReadyRuns

variable {C : Type} {s t u : Kernel C} {c : C} {p q np : Slot} {w : BitVec 32}

def Placed (s : Kernel C) : Prop :=
  ∀ k p, some p ∈ contents (s.ring k) → (s.proc p).priority.toNat = k.val

theorem toNat_of_nonneg (h : 0 ≤ w.toInt) : (w.toNat : ℤ) = w.toInt := by
  rw [BitVec.toInt_eq_toNat_cond] at *
  split at h
  · rw [if_pos ‹_›]
  · have hlt := w.isLt
    omega

theorem prioIndex_some {k : Prio} (h : prioIndex w = some k) : w.toNat = k.val := by
  unfold prioIndex at h
  split at h
  · rename_i hw
    cases h
    have hn := toNat_of_nonneg hw.1
    change w.toNat = w.toInt.toNat
    omega
  · simp at h

theorem placed_routine (hs : Placed s) (h : Routine s t) : Placed t := by
  intro k p hp
  rw [h.priority p]
  rcases h.moved k p hp with hp | hp
  · exact hs k p hp
  · exact prioIndex_some hp

theorem placed_congr (hr : t.ring = s.ring) (hp : ∀ q, (t.proc q).priority = (s.proc q).priority) :
    Placed t ↔ Placed s := by
  simp only [Placed, hr, hp]

theorem mem_ready {x : Option Slot} : x ∈ ready s ↔ ∃ k, x ∈ contents (s.ring k) := by
  simp [ready]

theorem queued_mem (hs : Queued s) : (∃ k, some p ∈ contents (s.ring k)) ↔
    (s.proc p).state = .runnable := by
  rw [← mem_ready, ← List.count_pos_iff]
  have hp := hs.2 p
  rw [entries] at hp
  rw [hp]
  split <;> simp [*]

theorem placed_setPriority (hq : Queued s) (hs : Placed s) (w : BitVec 32) :
    Placed (s.setProc q { s.proc q with priority := w }) ↔
      ¬((s.proc q).state = .runnable ∧ (s.proc q).priority ≠ w) := by
  constructor
  · rintro ht ⟨hr,hne⟩
    obtain ⟨k,hk⟩ := (queued_mem hq).mpr hr
    have h1 := hs k q hk
    have h2 := ht k q hk
    simp only [Kernel.setProc_proc, if_true] at h2
    exact hne (BitVec.eq_of_toNat_eq (h1.trans h2.symm))
  · intro hn k p hp
    by_cases h : p = q
    · subst h
      have hr := (queued_mem hq).mp ⟨k,hp⟩
      have hw : (s.proc p).priority = w := by
        by_contra hne
        exact hn ⟨hr,hne⟩
      simpa [← hw] using hs k p hp
    · simpa [h] using hs k p hp

def isPrioritySet : Act C → Bool
  | .prioSet _ _ w => decide (0 ≤ w.toInt)
  | _ => false

def Misplaces (s : Kernel C) (a : Act C) : Prop :=
  (∃ c p np pid, a = .forkPriority c ∧ s.cpu c = some p ∧ s.pc p = .forkPriority np pid ∧
    (s.proc np).state = .runnable ∧ (s.proc np).priority ≠ (s.proc p).priority) ∨
  ∃ c p q pid w, a = .prioSet c pid w ∧ s.cpu c = some p ∧ s.pc p = .user ∧ s.lock = none ∧
    Assigns s p pid w q ∧ (s.proc q).state = .runnable ∧ (s.proc q).priority ≠ w

def isPlacementCall (a : Act C) : Bool := isProcessCall a || isPrioritySet a

variable [DecidableEq C]

theorem prioSet_consistent (hs : Consistent s) {pid : ℤ} (hw : 0 ≤ w.toInt)
    (h : step s (.prioSet c pid w) = .ok t) : Consistent t := by
  obtain ⟨p,hc,-,h⟩ := call_ok h
  have hrun := consistent_running hs hc
  have hn := toNat_of_nonneg hw
  have hlt : w.toInt < PRIO_MAX → w.toNat < PRIO_MAX := by
    simp only [PRIO_MAX]
    omega
  rcases sysPrioSet_ok h with ⟨l,v,rfl,-⟩ | ⟨hv,-,rfl⟩ | ⟨q,-,ha,rfl⟩
  · exact consistent_setLock (consistent_ret (consistent_setLock hs l) hrun v) s.lock
  · have hr : Consistent (s.setProc p { s.proc p with priority := w }) :=
      consistent_setProc hs _ rfl (hlt hv)
    exact consistent_ret hr (consistent_running hr hc) 1
  · have hr : Consistent ((s.setLock (some p)).setProc q { s.proc q with priority := w }) :=
      consistent_setProc (consistent_setLock hs (some p)) _ rfl (hlt ha.valid)
    exact consistent_setLock (consistent_ret hr (consistent_running hr hc) 1) none

theorem placement_consistent (hs : Consistent s) {a : Act C} (ha : isPlacementCall a = true)
    (h : step s a = .ok t) : Consistent t := by
  rcases Bool.or_eq_true _ _ ▸ ha with ha | ha
  · exact step_consistent hs ha h
  · cases a <;> simp only [isPrioritySet, Bool.false_eq_true, decide_eq_true_eq] at ha
    exact prioSet_consistent hs ha h

section
omit [DecidableEq C]

theorem placed_setProc (r : Proc) (h : r.priority = (s.proc q).priority) :
    Placed (s.setProc q r) ↔ Placed s := by
  refine placed_congr (t := s.setProc q r) rfl (fun x => ?_)
  by_cases hx : x = q <;> simp [hx, h]

theorem placed_setPc {k : Pc} : Placed (s.setPc p k) ↔ Placed s := Iff.rfl

theorem ret_placed (v : ℤ) (l : Option Slot) : Placed ((ret s p v).setLock l) ↔ Placed s := by
  exact placed_setProc { s.proc p with eax := v } rfl

end

theorem prioSet_placed_iff (hs : Consistent s) (hp : Placed s) {pid : ℤ}
    (h : step s (.prioSet c pid w) = .ok t) : Placed t ↔ ¬Misplaces s (.prioSet c pid w) := by
  obtain ⟨p,hc,hu,h⟩ := call_ok h
  have hmis : Misplaces s (.prioSet c pid w) ↔ ∃ q, s.lock = none ∧ Assigns s p pid w q ∧
      (s.proc q).state = .runnable ∧ (s.proc q).priority ≠ w := by
    constructor
    · rintro (⟨_,_,_,_,h,-⟩ | ⟨c',p',q,pid',w',h,hc',-,hl,hq⟩)
      · simp at h
      · obtain ⟨rfl,rfl,rfl⟩ := Act.prioSet.inj h
        obtain rfl := Option.some.inj (hc.symm.trans hc')
        exact ⟨q,hl,hq⟩
    · rintro ⟨q,hl,hq⟩
      exact .inr ⟨c,p,q,pid,w,rfl,hc,hu,hl,hq⟩
  rw [hmis]
  rcases sysPrioSet_ok h with ⟨l,v,rfl,hno⟩ | ⟨hv,hpid,rfl⟩ | ⟨q,hl,ha,rfl⟩
  · refine ⟨fun _ => ?_,fun _ => (ret_placed v s.lock).mpr hp⟩
    rintro ⟨q,hl,ha,-⟩
    exact hno q ⟨hl,ha⟩
  · refine ⟨fun _ => ?_,fun _ => ?_⟩
    · rintro ⟨q,-,ha,-⟩
      exact ha.other hpid
    · refine (ret_placed 1 s.lock).mpr ((placed_setPriority hs.queued hp w).mpr ?_)
      simp [consistent_running hs hc]
  · rw [ret_placed]
    refine (placed_setPriority (s := s.setLock (some p)) hs.queued hp w).trans (not_congr ?_)
    constructor
    · rintro ⟨hr,hne⟩
      exact ⟨q,hl,ha,hr,hne⟩
    · rintro ⟨q',-,ha',hr,hne⟩
      obtain rfl := Option.some.inj (ha.found.symm.trans ha'.found)
      exact ⟨hr,hne⟩

theorem forkPriority_placed_iff (hs : Consistent s) (hp : Placed s)
    (h : step s (.forkPriority c) = .ok t) : Placed t ↔ ¬Misplaces s (.forkPriority c) := by
  obtain ⟨p,hc,h⟩ := onCpu_ok h
  split at h
  case h_2 => simp at h
  rename_i np pid hpc
  cases h
  refine (ret_placed pid s.lock).trans
    ((placed_setPriority hs.queued hp (s.proc p).priority).trans (not_congr ?_))
  constructor
  · rintro ⟨hr,hne⟩
    exact .inl ⟨c,p,np,pid,rfl,hc,hpc,hr,hne⟩
  · rintro (⟨c',p',np',pid',h,hc',hpc',hr,hne⟩ | ⟨_,_,_,_,_,h,-⟩)
    · obtain rfl := Act.forkPriority.inj h
      obtain rfl := Option.some.inj (hc.symm.trans hc')
      obtain ⟨rfl,rfl⟩ := Pc.forkPriority.inj (hpc.symm.trans hpc')
      exact ⟨hr,hne⟩
    · simp at h

theorem exit_placed (hp : Placed s) (h : step s (.exit c) = .ok t) : Placed t := by
  obtain ⟨p,-,-,h⟩ := call_ok h
  obtain ⟨-,-,-,u,hu,h⟩ := exit_ok h
  have hu : Placed u := placed_routine (s := s.setLock (some p)) hp hu.toRoutine
  refine placed_routine ?_ (routine_sched h)
  refine (placed_congr (t := retired u p) (s := u) rfl (fun q => ?_)).mpr hu
  by_cases hq : q = p <;> simp [retired, forget, released, hq]

/-- One step keeps the placement exactly when it does not change the priority
of a queued process. -/
theorem step_placed_iff (hs : Consistent s) (hp : Placed s) {a : Act C}
    (ha : isPlacementCall a = true) (h : step s a = .ok t) : Placed t ↔ ¬Misplaces s a := by
  cases hr : isRoutine a with
  | true =>
    refine ⟨fun _ => ?_,fun _ => placed_routine hp (routine_step hr h)⟩
    rintro (⟨c,_,_,_,rfl,-⟩ | ⟨c,_,_,_,_,rfl,-⟩) <;> simp [isRoutine] at hr
  | false =>
    cases a <;> simp only [isPlacementCall, isPrioritySet, isProcessCall, isRoutine, Bool.or_false,
      Bool.false_eq_true, Bool.true_eq_false] at ha hr
    case exit c =>
      refine ⟨fun _ => ?_,fun _ => exit_placed hp h⟩
      rintro (⟨c,_,_,_,h,-⟩ | ⟨c,_,_,_,_,h,-⟩) <;> simp at h
    case forkPriority c => exact forkPriority_placed_iff hs hp h
    case fork c =>
      refine ⟨fun _ => ?_,fun _ => ?_⟩
      · rintro (⟨c,_,_,_,h,-⟩ | ⟨c,_,_,_,_,h,-⟩) <;> simp at h
      · obtain ⟨p,-,-,h⟩ := call_ok h
        rcases (fork_ok h).2 with rfl | ⟨np,-,rfl⟩
        · exact (ret_placed (-1) none).mpr hp
        · exact (placed_setProc (s := s) _ (by rfl)).mpr hp
    case forkPublish c =>
      refine ⟨fun _ => ?_,fun _ => ?_⟩
      · rintro (⟨c,_,_,_,h,-⟩ | ⟨c,_,_,_,_,h,-⟩) <;> simp at h
      · obtain ⟨p,-,h⟩ := onCpu_ok h
        split at h
        case h_2 => simp at h
        obtain ⟨-,u,hu,rfl⟩ := forkPublish_ok h
        have hu : Placed u := placed_routine (s := s.setLock (some p)) hp (routine_makeRunnable hu)
        exact hu
    case prioSet c pid w => exact prioSet_placed_iff hs hp h
    all_goals
      obtain ⟨p,-,h⟩ := onCpu_ok h
      split at h
      case h_2 => simp at h
      cases h
      refine ⟨fun _ => ?_,fun _ => ?_⟩
      · rintro (⟨c,_,_,_,h,-⟩ | ⟨c,_,_,_,_,h,-⟩) <;> simp at h
    · exact (ret_placed (-1) s.lock).mpr ((placed_setProc _ (by rfl)).mpr hp)
    · exact (ret_placed (-1) s.lock).mpr ((placed_setProc _ (by rfl)).mpr hp)
    · exact placed_setPc.mpr ((placed_setProc _ (by rfl)).mpr hp)
    · exact placed_setPc.mpr ((placed_setProc _ (by rfl)).mpr hp)

theorem dispatch_smallest (hs : Consistent s) (hp : Placed s)
    (h : step s (.schedule c) = .ok t) (hc : t.cpu c = some p)
    (hq : (s.proc q).state = .runnable) :
    (s.proc p).priority.toNat ≤ (s.proc q).priority.toNat := by
  obtain ⟨-,hn,-,⟨hf,-⟩ | ⟨-,hd⟩ | ⟨u,p',-,hd,hq'⟩⟩ := scheduler_ok h
  · simp [hs.settled.1] at hf
  · obtain ⟨rfl,-⟩ := pqDequeue_none hd
    simp [hn] at hc
  · obtain ⟨ch,l,k,rfl,-⟩ := dispatch_ok hq'
    have hpp : p' = p := by simpa [switchTo] using hc
    subst hpp
    obtain ⟨k,rfl,hk,hlow,-⟩ := pqDequeue_some hd
    obtain ⟨j,hj⟩ := (queued_mem hs.queued).mpr hq
    rw [hp k p' (by simp [hk]), hp j q hj]
    by_contra hlt
    rw [hlow j (by simpa using hlt)] at hj
    simp at hj

/-- Queue placement. In a run in which no step changes the priority of a
queued process, every entry lies in the ring of its process's priority; of the
steps possible in its states exactly those that change such a priority misplace
an entry; and each dispatch takes a runnable process of the smallest
priority. -/
theorem placement_kept_iff {s₀ : Kernel C} (h₀ : Consistent s₀) (hp₀ : Placed s₀)
    (h : Reaches step (fun s a => isPlacementCall a = true ∧ ¬Misplaces s a) s₀ s) :
    Placed s ∧
    (∀ a t, isPlacementCall a = true → step s a = .ok t → (Placed t ↔ ¬Misplaces s a)) ∧
    ∀ c t p, step s (.schedule c) = .ok t → t.cpu c = some p →
      (s.proc p).state = .runnable ∧ ∀ q, (s.proc q).state = .runnable →
        (s.proc p).priority.toNat ≤ (s.proc q).priority.toNat := by
  obtain ⟨hs,hp⟩ : Consistent s ∧ Placed s := by
    refine reaches_invariant (fun s => Consistent s ∧ Placed s) (fun s a t hs ha ht => ?_)
      ⟨h₀,hp₀⟩ h
    exact ⟨placement_consistent hs.1 ha.1 ht,(step_placed_iff hs.1 hs.2 ha.1 ht).mpr ha.2⟩
  refine ⟨hp,fun a t ha ht => step_placed_iff hs hp ha ht,fun c t p ht hc => ?_⟩
  exact ⟨(consistent_dispatch hs ht hc).2.1,fun q hq => dispatch_smallest hs hp ht hc hq⟩

theorem placed_solo (c : C) : Placed (solo c) := by
  intro k p hp
  have hm : some p ∈ ready (solo c) := mem_ready.mpr ⟨k,hp⟩
  simp [ready_solo] at hm

theorem placement_kept_after_fork : ∃ s : Kernel (Fin 2), (s.proc 1).state = .runnable ∧
    Placed s ∧
    (∀ a t, isPlacementCall a = true → step s a = .ok t → (Placed t ↔ ¬Misplaces s a)) ∧
    ∀ c t p, step s (.schedule c) = .ok t → t.cpu c = some p →
      (s.proc p).state = .runnable ∧ ∀ q, (s.proc q).state = .runnable →
        (s.proc p).priority.toNat ≤ (s.proc q).priority.toNat := by
  obtain ⟨s,hr,hs⟩ := play_witness step
    (fun s a => isPlacementCall a = true ∧ ¬Misplaces s a)
    (fun _ a => isPlacementCall a && decide (∀ c, a ≠ .forkPriority c) && !isPrioritySet a)
    (fun s a ha => by
      simp only [Bool.and_eq_true, decide_eq_true_eq, Bool.not_eq_true'] at ha
      refine ⟨ha.1.1,?_⟩
      rintro (⟨c,_,_,_,h,-⟩ | ⟨c,_,_,pid,w,rfl,_,_,_,hw,_⟩)
      · exact ha.1.2 c h
      · simp [isPlacementCall, isProcessCall, ha.2] at ha)
    (solo (0 : Fin 2)) ((forkOn 0).take 4) (fun s => decide ((s.proc 1).state = .runnable))
    (by decide +kernel)
  exact ⟨s,of_decide_eq_true hs,placement_kept_iff (consistent_solo 0) (placed_solo 0) hr⟩

/-- A parent gives its queued child the priority 7 and itself the priority 5.
The entry of the child stays in ring 0 and is dispatched before the parent. -/
theorem prio_set_misplaces_run : ∃ s t : Kernel (Fin 2),
    Reaches step (fun _ _ => True) (boot 0) s ∧ step s (.schedule 1) = .ok t ∧
    (some 2 ∈ contents (s.ring 0) ∧ (s.proc 2).priority = 7 ∧ (s.proc 1).state = .runnable ∧
      (s.proc 1).priority = 5) ∧ t.cpu 1 = some 2 := by
  obtain ⟨s,hr,hs⟩ := play_witness step (fun _ _ => True)
    (fun _ _ => true) (fun _ _ _ => trivial) (boot (0 : Fin 2))
    (List.flatten [startup, forkOn 0, [.schedule 1], forkOn 1,
      [.prioSet 1 3 7, .prioSet 1 2 5, .yield 1]])
    (fun s => decide (some 2 ∈ contents (s.ring 0) ∧ (s.proc 2).priority = 7 ∧
      (s.proc 1).state = .runnable ∧ (s.proc 1).priority = 5) &&
      (step s (.schedule 1)).toOption.any (fun t : Kernel (Fin 2) => decide (t.cpu 1 = some 2)))
    (by decide +kernel)
  obtain ⟨h1,h2⟩ := Bool.and_eq_true_iff.mp hs
  obtain ⟨t,ht,hc⟩ := ok_of_any h2
  exact ⟨s,t,hr,ht,of_decide_eq_true h1,of_decide_eq_true hc⟩

end Xv6.Placement
