import Xv6.ProcessFrames

/-!
# What the process calls do

Inversion of the sections of the process calls. The mutex clean-up of `exit`
is given in closed form; the other calls, but for the sections of `fork`,
are routine for the rest of the kernel.
-/

set_option autoImplicit false

namespace Xv6.ProcessEffects
open KernelState RingBuffer NullQueue ReadyQueue ProcessCalls
open Machine ProcessFrames TransitionRun

variable {C : Type} [DecidableEq C] {s t : Kernel C} {c : C} {p : Slot}

theorem yield_ok (h : yield s c p = .ok t) :
    (s.proc p).state = .running ∧ s.lock = none ∧
    ∃ u, makeRunnable (s.setLock (some p)) p = .ok u ∧
      sched (u.setPreempted p true) c p = .ok t := by
  unfold yield at h
  split at h
  · simp at h
  rename_i hn
  simp only [ne_eq, not_or, not_not] at hn
  obtain ⟨u,hu,h⟩ := bind_ok h
  obtain ⟨hl,rfl⟩ := acquirePtable_ok hu
  obtain ⟨v,hv,h⟩ := bind_ok h
  exact ⟨hn.1,hl,v,hv,h⟩

omit [DecidableEq C] in
theorem allocproc_some {np : Slot} (h : allocproc s = some (np,t)) :
    (s.proc np).state = .unused ∧
    t = { s.setProc np { s.proc np with state := .embryo, pid := s.nextpid } with
      nextpid := s.nextpid+1 } := by
  obtain ⟨q,hq,he⟩ := Option.map_eq_some_iff.mp h
  obtain ⟨rfl,rfl⟩ := Prod.mk.inj he
  exact ⟨by simpa using findSlot_some hq,rfl⟩

section
omit [DecidableEq C]

theorem userinitAlloc_ok (h : userinitAlloc s = .ok t) :
    s.stage = .start ∧ ∃ p u, allocproc s = some (p,u) ∧ t = { u.setProc p { u.proc p with
      muxPtrs := fun _ => false
      sz := PGSIZE
      name := safestrcpy (u.proc p).name initcodeName } with
      initproc := some p, stage := .allocated p } := by
  unfold userinitAlloc at h
  split at h
  · simp at h
  rename_i hn
  split at h
  · simp at h
  rename_i p u hu
  cases h
  exact ⟨by simpa using (not_or.mp hn).1,p,u,hu,rfl⟩

theorem userinitPublish_ok (h : userinitPublish s = .ok t) :
    ∃ p u, s.stage = .allocated p ∧
      makeRunnable { s.setProc p { s.proc p with priority := 0 } with
        ring := fun k => { s.ring k with head := 0, tail := 0 } } p = .ok u ∧
      t = { u.setPc p .newborn with stage := .published } := by
  unfold userinitPublish at h
  split at h
  case h_2 => simp at h
  rename_i p hp
  split at h
  · simp at h
  obtain ⟨u,hu,h⟩ := bind_ok h
  cases h
  exact ⟨p,u,hp,hu,rfl⟩

theorem userinitMutexes_ok (h : userinitMutexes s = .ok t) : s.stage = .published ∧
    t = { s with
      muxes := fun _ => { name := 0, state := -1, cv := empty }, wqueue := empty,
      muxLock := none, stage := .done } := by
  unfold userinitMutexes at h
  split at h
  · rename_i hs
    cases h
    exact ⟨hs,rfl⟩
  · simp at h

end

def released (s : Kernel C) (p : Slot) (l : List MuxId) : Kernel C :=
  { s.setProc p { s.proc p with
      muxPtrs := fun m => if m ∈ l then false else (s.proc p).muxPtrs m } with
    muxes := fun m => if m ∈ l ∧ (s.proc p).muxPtrs m = true then
      { s.muxes m with name := 0, state := 0 } else s.muxes m }

section Released

section
omit [DecidableEq C]

theorem released_nil : released s p [] = s := by
  cases s
  simp only [released, Kernel.setProc, List.not_mem_nil, if_false, false_and, Kernel.mk.injEq,
    and_true]
  funext q
  split <;> simp [*]

theorem released_cons (m : MuxId) (l : List MuxId) (hm : (s.proc p).muxPtrs m = true) :
    released ((s.setMux m { s.muxes m with name := 0, state := 0 }).setProc p { s.proc p with
      muxPtrs := fun i => if i = m then false else (s.proc p).muxPtrs i }) p l =
    released s p (m::l) := by
  simp only [released, Kernel.setProc, Kernel.setMux, Kernel.mk.injEq, if_true, and_true, true_and,
    List.mem_cons]
  constructor
  · funext q
    split
    · simp only [Proc.mk.injEq, and_true, true_and]
      funext i
      by_cases hi : i = m <;> simp [hi]
    · rfl
  · funext i
    by_cases hi : i = m
    · simp [hi, hm]
    · simp [hi]

theorem released_skip (m : MuxId) (l : List MuxId) (hm : (s.proc p).muxPtrs m = false) :
    released s p l = released s p (m::l) := by
  simp only [released, Kernel.setProc, Kernel.mk.injEq, and_true, true_and, List.mem_cons]
  constructor
  · funext q
    split
    · simp only [Proc.mk.injEq, and_true, true_and]
      funext i
      by_cases hi : i = m <;> simp [hi, hm]
    · rfl
  · funext i
    by_cases hi : i = m
    · simp [hi, hm]
    · simp [hi]

/-- Outside the condition queues the clean-up frees every mutex the process
has access to and drops its references. -/
theorem dropMutexes_eq (l : List MuxId)
    (hcv : ∀ m ∈ l, (s.proc p).muxPtrs m = true → p ∉ list (s.muxes m).cv) :
    l.foldlM (dropMutex p) s = .ok (released s p l) := by
  induction l generalizing s with
  | nil => simp [released_nil, pure, Except.pure]
  | cons m l ih =>
    rw [List.foldlM_cons]
    cases hm : (s.proc p).muxPtrs m with
    | false =>
      simp only [dropMutex, hm, Bool.false_eq_true, if_false]
      rw [← released_skip m l hm, ← ih (fun i hi => hcv i (by simp [hi]))]
      rfl
    | true =>
      have hn := hcv m (by simp) hm
      simp only [dropMutex, hm, if_true, hn, if_false]
      rw [← released_cons m l hm, ← ih]
      · rfl
      · intro i hi h
        by_cases h' : i = m
        · simp [h'] at h
        · simpa [h'] using hcv i (by simp [hi]) (by simpa [h'] using h)

theorem dropMutexes_wild (l : List MuxId) {m : MuxId} (hl : m ∈ l)
    (hm : (s.proc p).muxPtrs m = true) (hcv : p ∈ list (s.muxes m).cv) :
    l.foldlM (dropMutex p) s = .error .wild := by
  induction l generalizing s with
  | nil => simp at hl
  | cons i l ih =>
    rw [List.foldlM_cons]
    cases hi : (s.proc p).muxPtrs i with
    | false =>
      have hne : m ≠ i := by
        rintro rfl
        simp [hi] at hm
      simp only [dropMutex, hi, Bool.false_eq_true, if_false]
      exact ih (by simpa [hne] using hl) hm hcv
    | true =>
      by_cases hw : p ∈ list (s.muxes i).cv
      · simp only [dropMutex, hi, if_true, hw]
        rfl
      · have hne : m ≠ i := by
          rintro rfl
          exact hw hcv
        simp only [dropMutex, hi, if_true, hw, if_false]
        exact ih (by simpa [hne] using hl) (by simpa [hne] using hm) (by simpa [hne] using hcv)

end

end Released

def retired (s : Kernel C) (p : Slot) : Kernel C :=
  (setState (forget (released s p (List.finRange MUX_MAXNUM)) p) p .zombie).setPc p .exited

section
variable (h : exit s c p = .ok t)
include h

/-- The loops of an exit that gets to its last `sched`. -/
theorem exit_loops : s.initproc ≠ some p ∧ s.lock = none ∧
    ∃ u v, wakeup1 (s.setLock (some p)) ((s.proc p).parent.map .proc) = .ok u ∧
      (List.finRange NPROC).foldlM (reparentOne p) u = .ok v ∧
      (∀ m, (v.proc p).muxPtrs m = true → p ∉ list (v.muxes m).cv) ∧
      sched (retired v p) c p = .ok t := by
  unfold exit at h
  split at h
  · simp at h
  refine ⟨‹_›,?_⟩
  obtain ⟨u,hu,h⟩ := bind_ok h
  obtain ⟨hl,rfl⟩ := acquirePtable_ok hu
  obtain ⟨v,hv,h⟩ := bind_ok h
  obtain ⟨w,hw,h⟩ := bind_ok h
  obtain ⟨x,hx,h⟩ := bind_ok h
  have hcv : ∀ m, (w.proc p).muxPtrs m = true → p ∉ list (w.muxes m).cv := by
    intro m hm hc
    rw [dropMutexes_wild _ (List.mem_finRange m) hm hc] at hx
    simp at hx
  rw [dropMutexes_eq _ (fun m _ => hcv m)] at hx
  cases hx
  exact ⟨hl,v,w,hv,hw,hcv,h⟩

theorem exit_ok : s.initproc ≠ some p ∧ s.lock = none ∧
    (∀ m, (s.proc p).muxPtrs m = true → p ∉ list (s.muxes m).cv) ∧
    ∃ u, Woken (s.setLock (some p)) u ∧ sched (retired u p) c p = .ok t := by
  obtain ⟨hi,hl,u,v,hu,hv,hcv,h⟩ := exit_loops h
  have hk := woken_trans (wakeup1_ok hu) (reparent_ok hv)
  refine ⟨hi,hl,fun m hm => ?_,v,hk,h⟩
  have hq := hcv m (by rw [hk.muxPtrs p]; exact hm)
  rwa [woken_muxes hk] at hq

theorem exit_muxes : (∀ m, t.muxes m = if (s.proc p).muxPtrs m = true then
      { s.muxes m with name := 0, state := 0 } else s.muxes m) ∧
    t.wqueue = s.wqueue ∧ (∀ q m, t.holds q m = if q = p then false else s.holds q m) := by
  obtain ⟨-,-,-,u,hu,h⟩ := exit_ok h
  have hr := (routine_sched h).rest
  have hp := hu.muxPtrs p
  have hf := hu.frame
  refine ⟨fun m => ?_,?_,fun q m => ?_⟩
  · have hm : t.muxes m = (retired u p).muxes m := by rw [hr]
    rw [hm]
    simp only [retired, forget, released, setState, Kernel.setPc_muxes, Kernel.setProc_muxes,
      List.mem_finRange, true_and, hp, woken_muxes hu]
    rfl
  · have hw : t.wqueue = u.wqueue := by rw [hr]; rfl
    rw [hw, hf]
    rfl
  · have hh : t.holds q m = if q = p then false else u.holds q m := by rw [hr]; rfl
    rw [hh, hf]
    rfl

theorem exit_procs (q : Slot) :
    (t.proc q).muxPtrs = (if q = p then fun _ => false else (s.proc q).muxPtrs) ∧
    (Dead (t.proc q).state → q = p ∨ Dead (s.proc q).state) ∧
    Later (if q = p then .exited else s.pc q) (t.pc q) := by
  obtain ⟨-,-,-,u,hu,h⟩ := exit_ok h
  have hr := routine_sched h
  have hpc := woken_pc hu
  refine ⟨(hr.muxPtrs q).trans ?_,fun hd => ?_,?_⟩
  · by_cases hq : q = p
    · simp [retired, forget, released, hq]
    · simpa [retired, forget, released, hq] using hu.muxPtrs q
  · by_cases hq : q = p
    · exact .inl hq
    · have hd := hr.dead q hd
      exact .inr (hu.dead q (by simpa [retired, forget, released, hq] using hd))
  · have hl := hr.pc q
    by_cases hq : q = p
    · simpa [retired, hq] using hl
    · simpa [retired, forget, released, hq, hpc] using hl

end

section
omit [DecidableEq C]

theorem kill_ok {pid : ℤ} (h : kill s p pid = .ok t) :
    s.lock = none ∧ (t = (ret (s.setLock (some p)) p (-1)).setLock none ∨
      ∃ q u, (s.proc q).pid = pid ∧ markKilled (s.setLock (some p)) q = .ok u ∧
        t = (ret u p 0).setLock none) := by
  obtain ⟨u,hu,h⟩ := bind_ok h
  obtain ⟨hl,rfl⟩ := acquirePtable_ok hu
  refine ⟨hl,?_⟩
  split at h
  · exact .inl (Except.ok.inj h).symm
  · rename_i q hq
    obtain ⟨v,hv,h⟩ := bind_ok h
    exact .inr ⟨q,v,by simpa using findSlot_some hq,hv,(Except.ok.inj h).symm⟩

theorem fork_ok (h : fork s p = .ok t) :
    s.lock = none ∧ (t = (ret (s.setLock (some p)) p (-1)).setLock none ∨
      ∃ np, (s.proc np).state = .unused ∧
        t = ({ (s.setLock (some p)).setProc np
            { s.proc np with state := .embryo, pid := s.nextpid } with
          nextpid := s.nextpid+1 }.setPc p (.forkAlloc np)).setLock none) := by
  obtain ⟨u,hu,h⟩ := bind_ok h
  obtain ⟨hl,rfl⟩ := acquirePtable_ok hu
  refine ⟨hl,?_⟩
  split at h
  · exact .inl (Except.ok.inj h).symm
  · rename_i np v hv
    obtain ⟨hun,rfl⟩ := allocproc_some hv
    exact .inr ⟨np,hun,(Except.ok.inj h).symm⟩

theorem forkPublish_ok {np : Slot} (h : forkPublish s p np = .ok t) :
    s.lock = none ∧ ∃ u, makeRunnable (s.setLock (some p)) np = .ok u ∧
      t = ((u.setPc np .newborn).setPc p (.forkShare np (u.proc np).pid)).setLock none := by
  obtain ⟨u,hu,h⟩ := bind_ok h
  obtain ⟨hl,rfl⟩ := acquirePtable_ok hu
  obtain ⟨v,hv,h⟩ := bind_ok h
  exact ⟨hl,v,hv,(Except.ok.inj h).symm⟩

end

theorem waitScan_ok (h : waitScan s c p = .ok t) :
    (∃ q, (s.proc q).state = .zombie ∧ (s.proc q).parent = some p ∧
      t = (ret (freeSlot s q) p (s.proc q).pid).setLock none) ∨
    (t = (ret s p (-1)).setLock none ∧
      ((∀ x, (s.proc x).parent ≠ some p) ∨ (s.proc p).killed = true)) ∨
    (sleepOn s c p (.proc p) .waiting = .ok t ∧
      ∀ x, (s.proc x).parent = some p → (s.proc x).state ≠ .zombie) := by
  unfold waitScan at h
  split at h
  · rename_i q hq
    have hq := findSlot_some hq
    simp only [Bool.and_eq_true, decide_eq_true_eq] at hq
    exact .inl ⟨q,hq.2,hq.1,(Except.ok.inj h).symm⟩
  · rename_i hno
    rw [findSlot, List.find?_eq_none] at hno
    split at h
    · rename_i hk
      refine .inr (.inl ⟨(Except.ok.inj h).symm,Or.imp_left (fun hk x hx => ?_) hk⟩)
      rw [findSlot, List.find?_eq_none] at hk
      simpa [hx] using hk x (List.mem_finRange x)
    · refine .inr (.inr ⟨h,fun x hx hz => ?_⟩)
      simpa [hx, hz] using hno x (List.mem_finRange x)

omit [DecidableEq C] in
theorem acquire_then {f : Kernel C → Except Stop (Kernel C)}
    (h : (acquirePtable s p >>= f) = .ok t) : s.lock = none ∧ f (s.setLock (some p)) = .ok t := by
  obtain ⟨u,hu,h⟩ := bind_ok h
  obtain ⟨hl,rfl⟩ := acquirePtable_ok hu
  exact ⟨hl,h⟩

structure Assigns (s : Kernel C) (p : Slot) (pid : ℤ) (w : BitVec 32) (q : Slot) : Prop where
  valid : w.toInt < PRIO_MAX
  lower : ¬w < (s.proc p).priority
  other : (s.proc p).pid ≠ pid
  found : findSlot (fun x => decide (x ≠ p) && decide ((s.proc x).pid = pid)) = some q
  ancestor : isAncestor s p (NPROC+1) (s.proc q).parent = .ok true

section
omit [DecidableEq C]

theorem isAncestor_setLock (l : Option Slot) (n : ℕ) (i : Option Slot) :
    isAncestor (s.setLock l) p n i = isAncestor s p n i := by
  induction n generalizing i with
  | zero => cases i <;> rfl
  | succ n ih =>
    cases i with
    | none => rfl
    | some i => simp [isAncestor, ih]

theorem sysPrioSet_ok {pid : ℤ} {w : BitVec 32} (h : sysPrioSet s p pid w = .ok t) :
    (∃ l v, t = (ret (s.setLock l) p v).setLock s.lock ∧
      ∀ q, ¬(s.lock = none ∧ Assigns s p pid w q)) ∨
    (w.toInt < PRIO_MAX ∧ (s.proc p).pid = pid ∧
      t = ret (s.setProc p { s.proc p with priority := w }) p 1) ∨
    ∃ q, s.lock = none ∧ Assigns s p pid w q ∧
      t = (ret ((s.setLock (some p)).setProc q { s.proc q with priority := w }) p 1).setLock
        none := by
  unfold sysPrioSet at h
  split at h
  · rename_i hv
    refine .inl ⟨s.lock,-1,(Except.ok.inj h).symm,fun q hq => ?_⟩
    have := hq.2.valid
    omega
  rename_i hv
  split at h
  · rename_i hl
    exact .inl ⟨s.lock,-1,(Except.ok.inj h).symm,fun q hq => hq.2.lower hl⟩
  rename_i hl
  split at h
  · rename_i ho
    exact .inr (.inl ⟨by omega,ho,(Except.ok.inj h).symm⟩)
  rename_i ho
  obtain ⟨hfree,h⟩ := acquire_then h
  split at h
  · rename_i hf
    refine .inl ⟨some p,-1,?_,fun q hq => ?_⟩
    · rw [hfree]
      exact (Except.ok.inj h).symm
    · have := hq.2.found.symm.trans hf
      simp at this
  · rename_i q hf
    obtain ⟨found,ha,h⟩ := bind_ok h
    rw [isAncestor_setLock] at ha
    split at h
    · rename_i hfound
      subst hfound
      exact .inr (.inr ⟨q,hfree,⟨by omega,hl,ho,hf,ha⟩,(Except.ok.inj h).symm⟩)
    · rename_i hfound
      refine .inl ⟨some p,-1,?_,fun q' hq => ?_⟩
      · rw [hfree]
        exact (Except.ok.inj h).symm
      · obtain rfl := Option.some.inj (hf.symm.trans hq.2.found)
        have := ha.symm.trans hq.2.ancestor
        simp at this
        exact hfound this

end

omit [DecidableEq C] in
theorem wakeup_ok {ch : Chan} (h : wakeup s ch = .ok t) : s.lock = none ∧ Woken s t := by
  unfold wakeup at h
  split at h
  · simp at h
  · exact ⟨by simpa using ‹¬s.lock ≠ none›,wakeup1_ok h⟩

theorem routine_sleepOn {ch : Chan} {k : Pc} (hk : isProcessPc k = true)
    (h : sleepOn s c p ch k = .ok t) : Routine s t := by
  refine routine_trans (routine_trans ?_ (routine_setPc (.inr (.inr hk)))) (routine_sched h)
  exact routine_setProc (r := { s.proc p with chan := some ch, state := .sleeping }) rfl rfl rfl
    (by simp [Dead])

theorem routine_scheduler (h : scheduler s c = .ok t) : Routine s t := by
  obtain ⟨-,-,-,⟨-,hf⟩ | ⟨-,hd⟩ | ⟨u,q,-,hd,hq⟩⟩ := scheduler_ok h
  · exact routine_trans (routine_control rfl) (routine_scanFrom hf)
  · obtain ⟨rfl,-⟩ := pqDequeue_none hd
    exact routine_control rfl
  · obtain ⟨k,rfl,hk,-⟩ := pqDequeue_some hd
    refine routine_trans (t := s.setRing k (pop (s.ring k)))
      ⟨rfl,fun _ => rfl,fun _ => rfl,fun i x hx => ?_,fun _ => .inl rfl,fun _ => id⟩
      (routine_dispatch hq)
    by_cases hi : i = k
    · subst hi
      rw [hk]
      simp only [Kernel.setRing_ring, if_true] at hx
      exact .inl (List.mem_cons_of_mem _ hx)
    · exact .inl (by simpa [hi] using hx)

theorem routine_waitScan (h : waitScan s c p = .ok t) : Routine s t := by
  rcases waitScan_ok h with ⟨q,hz,-,rfl⟩ | ⟨rfl,-⟩ | ⟨h,-⟩
  · refine routine_trans (t := freeSlot s q) ?_
      (routine_trans (routine_ret _) (routine_control rfl))
    exact routine_trans (routine_setPc (k := .absent) (.inr (.inr rfl)))
      (routine_setProc rfl rfl rfl (fun _ => .inr (.inr hz)))
  · exact routine_trans (routine_ret _) (routine_control rfl)
  · exact routine_sleepOn rfl h

def isRoutine : Act C → Bool
  | .schedule _ | .wakeup _ | .yield _ | .sleep _ _ | .kill _ _ | .wait _ | .waitScan _ => true
  | _ => false

variable {a : Act C}

theorem routine_step (ha : isRoutine a = true) (h : step s a = .ok t) : Routine s t := by
  cases a <;> simp only [isRoutine, Bool.false_eq_true] at ha
  case schedule c => exact routine_scheduler h
  case wakeup ch => exact (wakeup_ok h).2.toRoutine
  case yield c =>
    obtain ⟨p,-,h⟩ := onCpu_ok h
    obtain ⟨-,-,u,hu,h⟩ := yield_ok h
    exact routine_trans (routine_trans (routine_control rfl) (routine_makeRunnable hu))
      (routine_trans (routine_control rfl) (routine_sched h))
  case sleep c ch =>
    obtain ⟨p,-,-,h⟩ := call_ok h
    exact routine_trans (routine_control rfl) (routine_sleepOn rfl (acquire_then h).2)
  case kill c pid =>
    obtain ⟨p,-,-,h⟩ := call_ok h
    rcases (kill_ok h).2 with rfl | ⟨q,u,-,hu,rfl⟩
    · exact routine_trans (routine_control rfl)
        (routine_trans (routine_ret _) (routine_control rfl))
    · exact routine_trans (routine_trans (routine_control rfl) (markKilled_ok hu).toRoutine)
        (routine_trans (routine_ret _) (routine_control rfl))
  case wait c =>
    obtain ⟨p,-,-,h⟩ := call_ok h
    exact routine_trans (routine_control rfl) (routine_waitScan (acquire_then h).2)
  case waitScan c =>
    obtain ⟨p,-,h⟩ := onCpu_ok h
    split at h
    · exact routine_waitScan h
    · simp at h

theorem frame_step (ha : isProcessCall a = true) (hx : ∀ c, a ≠ .exit c) (h : step s a = .ok t) :
    Frame s t := by
  cases hr : isRoutine a with
  | true => exact routine_frame (routine_step hr h)
  | false =>
  cases a <;> simp only [isProcessCall, isRoutine, Bool.false_eq_true, Bool.true_eq_false] at ha hr
  case exit c => exact absurd rfl (hx c)
  case fork c =>
    obtain ⟨p,-,-,h⟩ := call_ok h
    rcases (fork_ok h).2 with rfl | ⟨np,-,rfl⟩
    · exact routine_frame (routine_trans (routine_control rfl)
        (routine_trans (routine_ret _) (routine_control rfl)))
    · refine ⟨rfl,fun q => ?_⟩
      by_cases hq : q = p
      · simp [hq]
      · exact .inl (.inl (by simp [hq]))
  case forkPublish c =>
    obtain ⟨p,-,h⟩ := onCpu_ok h
    split at h
    case h_2 => simp at h
    obtain ⟨-,u,hu,rfl⟩ := forkPublish_ok h
    obtain ⟨k,-,-,rfl⟩ := makeRunnable_ok hu
    refine ⟨rfl,fun q => ?_⟩
    by_cases hq : q = p
    · simp [hq]
    · simp only [Kernel.setLock_pc, Kernel.setPc_pc, hq, if_false]
      split
      · exact .inl (.inr (.inr rfl))
      · exact .inl (.inl rfl)
  all_goals
    obtain ⟨p,-,h⟩ := onCpu_ok h
    split at h
    case h_2 => simp at h
    cases h
    refine ⟨rfl,fun q => ?_⟩
    by_cases hq : q = p
    · simp [ret, hq, Later, isProcessPc]
    · exact .inl (.inl (by simp [ret, hq]))

theorem stage_step (ha : isProcessCall a = true) (h : step s a = .ok t) : t.stage = s.stage := by
  by_cases hx : ∃ c, a = .exit c
  · obtain ⟨c,rfl⟩ := hx
    obtain ⟨p,-,-,h⟩ := call_ok h
    obtain ⟨-,-,-,u,hu,h⟩ := exit_ok h
    rw [(routine_sched h).rest]
    change u.stage = s.stage
    rw [hu.frame]
    rfl
  · rw [(frame_step ha (fun c hc => hx ⟨c,hc⟩) h).rest]

end Xv6.ProcessEffects
