import Xv6.CallAlone
import Xv6.ReadyRuns

/-!
# Mutex ids from user space

The five calls that take a mutex id use it as an index of `mux_ptrs` without a
look at its range. All but `sys_waitcv` test the pointer they find there. Later
sections use it again: it is still there unless a `fork` on another CPU, which
copies the pointers after publishing the child, takes it away.
-/

set_option autoImplicit false

namespace Xv6.MutexIds
open KernelState RingBuffer NullQueue ReadyQueue ProcessCalls MutexCalls
open Machine ProcessFrames ProcessEffects MutexEffects
open ReadyRuns TransitionRun

variable {C : Type} {s t u : Kernel C} {c : C} {p q np : Slot} {m : MuxId} {k l : Pc} {a : Act C}

def uses : Pc → Option MuxId
  | .mdeleteFree m | .mlockTry _ m | .mlockSleep _ m | .mlockAsleep _ m | .munlockClear m
  | .waitcvClear m | .signalDequeue m => some m
  | _ => none

def Pointed (s : Kernel C) : Prop :=
  ∀ p m, uses (s.pc p) = some m → (s.proc p).muxPtrs m = true

def Strips (s : Kernel C) (a : Act C) : Prop :=
  ∃ c p np m, s.cpu c = some p ∧ uses (s.pc np) = some m ∧
    (((a = .forkCopy c ∨ a = .forkNoMem c) ∧ s.pc p = .forkAlloc np) ∨
      a = .forkShare c ∧ (∃ pid, s.pc p = .forkShare np pid) ∧ (s.proc p).muxPtrs m = false)

theorem later_uses (h : Later k l) (hl : uses l = some m) : uses k = some m := by
  rcases h with rfl | h | h
  · exact hl
  · cases k <;> simp only [resumePc, Option.some.injEq, reduceCtorEq] at h <;> subst h <;>
      simp [uses] at hl ⊢
    exact hl
  · cases l <;> simp [uses, isProcessPc] at hl h

theorem pointed_mono (hs : Pointed s) (hp : ∀ q, (t.proc q).muxPtrs = (s.proc q).muxPtrs)
    (hpc : ∀ q m, uses (t.pc q) = some m → uses (s.pc q) = some m) : Pointed t := by
  intro q m hq
  rw [hp q]
  exact hs q m (hpc q m hq)

theorem pointed_routine (hs : Pointed s) (h : Routine s t) : Pointed t :=
  pointed_mono hs h.muxPtrs (fun q _ => later_uses (h.pc q))

/-- One thread moves on to a place where its pointer is known. -/
theorem pointed_goto (hs : Pointed s) (hp : ∀ q, (t.proc q).muxPtrs = (s.proc q).muxPtrs)
    (hpc : t.pc = (s.setPc p k).pc) (hk : ∀ m, uses k = some m → (s.proc p).muxPtrs m = true) :
    Pointed t := by
  intro q m hq
  rw [hp q]
  rw [hpc] at hq
  by_cases h : q = p
  · subst h
    exact hk m (by simpa using hq)
  · exact hs q m (by simpa [h] using hq)

theorem ret_keeps {v : ℤ} (q : Slot) : ((ret s p v).proc q).muxPtrs = (s.proc q).muxPtrs := by
  by_cases hq : q = p <;> simp [ret, hq]

variable [DecidableEq C]

section
variable (hs : Pointed s)
include hs

section
omit [DecidableEq C]

theorem pointed_ret (v : ℤ) : Pointed (ret s p v) :=
  pointed_goto (k := .user) hs ret_keeps rfl (by simp [uses])

theorem pointed_munlock (h : sysMunlock s p m k = .ok t) (hk : ∀ i, uses k = some i → i = m) :
    Pointed t := by
  unfold sysMunlock at h
  split at h
  · cases h
    exact pointed_ret hs 0
  · rename_i hr
    cases h
    simp only [Bool.not_eq_true', not_or, Bool.not_eq_false] at hr
    refine pointed_goto hs (fun _ => rfl) rfl (fun i hi => ?_)
    rw [hk i hi]
    exact hr.1

theorem pointed_signalcv (h : sysSignalcv s p m = .ok t) : Pointed t := by
  unfold sysSignalcv at h
  split at h
  · cases h
    exact pointed_ret hs 0
  · rename_i hr
    cases h
    simp only [Bool.not_eq_true', not_or, Bool.not_eq_false] at hr
    refine pointed_goto hs (fun _ => rfl) rfl (fun i hi => ?_)
    cases hi
    exact hr.1

end

theorem pointed_sync (h : Sync s c p a t)
    (ha : (∀ c id, a ≠ .munlock c id) ∧ (∀ c, a ≠ .waitcvCheck c) ∧ ∀ c id, a ≠ .signalcv c id) :
    Pointed t := by
  have hself : ∀ {k m}, s.pc p = k → uses k = some m → (s.proc p).muxPtrs m = true := by
    rintro k m rfl hk
    exact hs p m hk
  have hsleep : ∀ q, ((setState (s.setLock (some p)) p .sleeping).proc q).muxPtrs =
      (s.proc q).muxPtrs := by
    intro q
    by_cases hq : q = p <;> simp [hq]
  cases h with
  | @munlock id => exact absurd rfl (ha.1 c id)
  | @munlockRefused id => exact absurd rfl (ha.1 c id)
  | waitcvCheck | waitcvRefused => exact absurd rfl (ha.2.1 c)
  | @signalcv id => exact absurd rfl (ha.2.2 c id)
  | @signalRefused id => exact absurd rfl (ha.2.2 c id)
  | mlock user index access | waitcvRelock pc access =>
    refine pointed_goto hs (fun _ => rfl) rfl (fun i hi => ?_)
    cases hi
    exact access
  | mlockRefused | waitcvFull | relockRefused | signalEmpty | munlockEmpty =>
    exact pointed_ret hs _
  | mlockFull =>
    exact pointed_goto (k := .user) hs ret_keeps rfl (by simp [uses])
  | mlockTake =>
    exact pointed_goto (k := .user) hs (ret_keeps (s := take s p _)) rfl (by simp [uses])
  | mlockEnroll pc =>
    exact pointed_goto hs (fun _ => rfl) rfl (fun i hi => hself pc hi)
  | mlockSleep pc free left =>
    refine pointed_routine ?_ (routine_sched left)
    exact pointed_goto hs hsleep rfl (fun i hi => hself pc hi)
  | munlockClear | waitcvClear | munlockDequeue | waitcv | waitcvDequeue | signalDequeue =>
    exact pointed_goto hs (fun _ => rfl) rfl (by simp [uses])
  | waitcvSleep => exact pointed_goto hs hsleep rfl (by simp [uses])
  | waitcvSched pc left =>
    refine pointed_routine ?_ (routine_sched left)
    exact pointed_goto hs (fun _ => rfl) rfl (by simp [uses])
  | munlockWake pc free woken | signalWake pc free woken =>
    exact pointed_routine hs (routine_wake woken)

theorem pointed_exit (h : exit s c p = .ok t) : Pointed t := by
  intro q m hq
  obtain ⟨hp,-,hl⟩ := exit_procs h q
  have hu := later_uses hl hq
  by_cases h : q = p
  · simp [h, uses] at hu
  · rw [hp, if_neg h]
    exact hs q m (by simpa [h] using hu)

omit [DecidableEq C] in
theorem pointed_fork (h : fork s p = .ok t) : Pointed t := by
  rcases (fork_ok h).2 with rfl | ⟨np,-,rfl⟩
  · exact pointed_goto (k := .user) hs ret_keeps rfl (by simp [uses])
  · refine pointed_goto hs (fun q => ?_) rfl (by simp [uses])
    by_cases hq : q = np <;> simp [hq]

end

omit [DecidableEq C] in
theorem pointed_given (np : Slot) (hs : Pointed s) {r : Proc}
    (hr : ∀ m, uses (s.pc np) = some m → r.muxPtrs m = true) (hk : uses k = none)
    (hp : ∀ q, (t.proc q).muxPtrs = ((s.setProc np r).proc q).muxPtrs)
    (hpc : t.pc = (s.setPc p k).pc) : Pointed t := by
  intro q m hq
  rw [hpc] at hq
  by_cases h : q = p
  · simp [h, hk] at hq
  · have hq : uses (s.pc q) = some m := by simpa [h] using hq
    rw [hp q]
    by_cases hn : q = np
    · subst hn
      simpa using hr m hq
    · simpa [hn] using hs q m hq

theorem pointed_process (hs : Pointed s) (ha : isProcessCall a = true) (hn : ¬Strips s a)
    (h : step s a = .ok t) : Pointed t := by
  cases hr : isRoutine a with
  | true => exact pointed_routine hs (routine_step hr h)
  | false =>
  cases a <;> simp only [isProcessCall, isRoutine, Bool.false_eq_true, Bool.true_eq_false] at ha hr
  case exit c =>
    obtain ⟨p,-,-,h⟩ := call_ok h
    exact pointed_exit hs h
  case fork c =>
    obtain ⟨p,-,-,h⟩ := call_ok h
    exact pointed_fork hs h
  all_goals
    obtain ⟨p,hc,h⟩ := onCpu_ok h
    split at h
    case h_2 => simp at h
    rename_i hpc
  · rename_i np
    cases h
    exact pointed_given np (k := .user) hs (r := s.proc np)
      (fun m hm => hs np m hm) rfl (fun q => (ret_keeps q).trans (by
        by_cases hq : q = np <;> simp [hq])) rfl
  · rename_i np
    cases h
    have hfree : ∀ m, uses (s.pc np) ≠ some m := fun m hm =>
      hn ⟨_,p,np,m,hc,hm,.inl ⟨.inr rfl,hpc⟩⟩
    exact pointed_given np (k := .user) hs (r := { s.proc np with muxPtrs := fun _ => false })
      (fun m hm => absurd hm (hfree m)) rfl (fun q => (ret_keeps q).trans (by
        by_cases hq : q = np <;> simp [hq])) rfl
  · rename_i np
    cases h
    have hfree : ∀ m, uses (s.pc np) ≠ some m := fun m hm =>
      hn ⟨_,p,np,m,hc,hm,.inl ⟨.inl rfl,hpc⟩⟩
    exact pointed_given np hs (r := { s.proc np with muxPtrs := fun _ => false })
      (fun m hm => absurd hm (hfree m)) (by simp [uses]) (fun q => by
        by_cases hq : q = np <;> simp [hq]) rfl
  · rename_i np
    obtain ⟨-,u,hu,rfl⟩ := forkPublish_ok h
    have hu : Pointed u := pointed_routine (s := s.setLock (some p)) hs (routine_makeRunnable hu)
    have hw : Pointed (u.setPc np .newborn) :=
      pointed_goto hu (fun _ => rfl) rfl (by simp [uses])
    exact pointed_goto hw (fun _ => rfl) rfl (by simp [uses])
  · rename_i np pid
    cases h
    refine pointed_given np hs (r := { s.proc np with muxPtrs := (s.proc p).muxPtrs })
      (fun m hm => ?_) (by simp [uses]) (fun q => by by_cases hq : q = np <;> simp [hq]) rfl
    by_contra hf
    exact hn ⟨_,p,np,m,hc,hm,.inr ⟨rfl,⟨pid,hpc⟩,by simpa using hf⟩⟩
  · rename_i np pid
    cases h
    exact pointed_given np (k := .user) hs (r := s.proc np)
      (fun m hm => hs np m hm) rfl (fun q => (ret_keeps q).trans (by
        by_cases hq : q = np <;> simp [hq])) rfl

theorem pointed_step (hs : Pointed s) (ha : isKernelCall a = true) (hn : ¬Strips s a)
    (h : step s a = .ok t) : Pointed t := by
  cases hr : isProcessCall a with
  | true => exact pointed_process hs hr hn h
  | false =>
  cases hy : isSyncCall a with
  | true =>
    by_cases hx : (∀ c id, a ≠ .munlock c id) ∧ (∀ c, a ≠ .waitcvCheck c) ∧
      ∀ c id, a ≠ .signalcv c id
    · obtain ⟨c,p,-,hsync⟩ := sync_step hy h
      exact pointed_sync hs hsync hx
    · cases a <;> simp only [isSyncCall, Bool.false_eq_true] at hy
      case munlock c id =>
        obtain ⟨p,m,-,-,-,h⟩ := muxCall_ok h
        exact pointed_munlock hs h (fun i hi => (Option.some.inj hi).symm)
      case waitcvCheck c =>
        obtain ⟨p,-,h⟩ := onCpu_ok h
        split at h
        · exact pointed_munlock hs h (fun i hi => (Option.some.inj hi).symm)
        · simp at h
      case signalcv c id =>
        obtain ⟨p,m,-,-,-,h⟩ := muxCall_ok h
        exact pointed_signalcv hs h
      all_goals exact absurd ⟨by simp,by simp,by simp⟩ hx
  | false =>
  have hpop : ∀ {p : Slot} {e n} {u : Kernel C}, (u = s ∨ ∃ k, u = s.setRing k (pop (s.ring k))) →
      Pointed (u.setPc p (.testpqdqLoop e n)) := by
    rintro p e n u (rfl | ⟨k,rfl⟩)
    · exact pointed_goto hs (fun _ => rfl) rfl (by simp [uses])
    · exact pointed_goto hs (fun _ => rfl) rfl (by simp [uses])
  obtain ⟨c,p,-,h⟩ | ⟨c,p,-,ho⟩ := other_step ha hr hy h
  · exact pointed_routine hs (routine_dispatch (resume_ok h).2.2.2)
  cases ho with
  | prioKept l v => exact pointed_goto (k := .user) hs ret_keeps rfl (by simp [uses])
  | prioOwn =>
    refine pointed_goto (k := .user) hs (fun q => ?_) rfl (by simp [uses])
    by_cases hq : q = p <;> simp [ret, hq]
  | prioBelow q =>
    refine pointed_goto (k := .user) hs (fun x => (ret_keeps x).trans ?_) rfl (by simp [uses])
    by_cases hq : x = q <;> simp [hq]
  | mcreateFull | mdeleteRefused | testpqdqDone => exact pointed_ret hs _
  | mcreate m user =>
    refine pointed_given p (k := .user) hs (r := { s.proc p with
      muxPtrs := fun i => if i = m then true else (s.proc p).muxPtrs i })
      (fun i hi => by simp [user, uses] at hi) rfl (fun q => ?_) rfl
    by_cases hq : q = p <;> simp [ret, createMux, hq]
  | mdeleteShared | mdeleteFree => exact pointed_goto hs (fun _ => rfl) rfl (by simp [uses])
  | mdelete m user access =>
    refine pointed_goto hs (fun _ => rfl) rfl (fun i hi => ?_)
    cases hi
    exact access
  | mdeleteDrop m pc =>
    refine pointed_given p (k := .user) hs (r := { s.proc p with
      muxPtrs := fun i => if i = m then false else (s.proc p).muxPtrs i })
      (fun i hi => by simp [pc, uses] at hi) rfl (fun q => ?_) rfl
    by_cases hq : q = p <;> simp [ret, hq]
  | testpqeq r v user free state muxPtrs priority put =>
    refine pointed_goto (p := p) (k := .user) hs (fun q => ?_) ?_ (by simp [uses])
    · rcases put with rfl | ⟨i,rfl⟩ <;> by_cases hq : q = p <;> simp [ret, hq, muxPtrs]
    · rcases put with rfl | ⟨i,rfl⟩ <;> rfl
  | testpqdq e user taken | testpqdqNext e n pc taken => exact hpop taken

inductive MuxCall where
  | mdelete
  | mlock
  | munlock
  | waitcv
  | signalcv
  deriving DecidableEq, Repr

def MuxCall.act (c : C) (id : ℤ) : MuxCall → Act C
  | .mdelete => .mdelete c id
  | .mlock => .mlock c id
  | .munlock => .munlock c id
  | .waitcv => .waitcv c id
  | .signalcv => .signalcv c id

def argint (fetched : Option ℤ) (junk : ℤ) : ℤ := fetched.getD junk

def Validated (s : Kernel C) (c : C) (p : Slot) (call : MuxCall) (fetched : Option ℤ) (junk : ℤ) :
    Prop :=
  muxIndex (argint fetched junk) ≠ none ∧
  step s (call.act c (argint fetched junk)) ≠ .error .wild ∧
  ((fetched = none ∨ ∀ m, muxIndex (argint fetched junk) = some m → (s.proc p).muxPtrs m = false) →
    step s (call.act c (argint fetched junk)) = .ok (ret s p 0))

def Acts (s : Kernel C) (p : Slot) (m : MuxId) : MuxCall → Prop
  | .mdelete | .mlock => (s.proc p).muxPtrs m = true
  | .munlock | .signalcv => (s.proc p).muxPtrs m = true ∧ (s.muxes m).state = 1
  | .waitcv => enroll (s.muxes m).cv p ≠ none

def Sane (s : Kernel C) (p : Slot) (call : MuxCall) (fetched : Option ℤ) (junk : ℤ) : Prop :=
  ∃ m, muxIndex (argint fetched junk) = some m ∧
    (call = .waitcv → (s.proc p).muxPtrs m = true) ∧ (fetched = none → ¬Acts s p m call)

section Calls
variable {call : MuxCall} {id : ℤ}

omit [DecidableEq C] in
theorem setPc_ne_ret {v : ℤ} (hk : k ≠ .user) (h : (t.setPc p k) = ret s p v) : False := by
  have hp := congrArg (fun u => u.pc p) h
  simp [ret] at hp
  exact hk hp

section
variable (hc : s.cpu c = some p) (hu : s.pc p = .user) (hf : s.muxLock = none)
    (hm : muxIndex id = some m)
include hc hu hf hm

/-- The first section of a call for an id in range: it uses a null pointer only
in `sys_waitcv`, and returns at once unless it passes its tests. -/
theorem call_first (hw : call = .waitcv → (s.proc p).muxPtrs m = true) :
    step s (call.act c id) ≠ .error .wild ∧
      (step s (call.act c id) = .ok (ret s p 0) ↔ ¬Acts s p m call) := by
  cases call with
  | mdelete =>
    have hs : step s (.mdelete c id) = sysMdelete s p id := call_eq hc hu
    simp only [MuxCall.act, Acts, hs, sysMdelete, hm]
    cases ha : (s.proc p).muxPtrs m with
    | false => simp
    | true =>
      simp only [Bool.not_true, Bool.false_eq_true, if_false, not_true, iff_false]
      split
      · exact ⟨by simp,fun h => setPc_ne_ret (by simp) (Except.ok.inj h)⟩
      · exact ⟨by simp,fun h => setPc_ne_ret (by simp) (Except.ok.inj h)⟩
  | mlock =>
    have hs : step s (.mlock c id) = sysMlock s p .mlock m := muxCall_eq hc hu hm
    simp only [MuxCall.act, Acts, hs, sysMlock]
    cases ha : (s.proc p).muxPtrs m with
    | false => simp
    | true =>
      simp only [if_true, not_true, iff_false]
      exact ⟨by simp,fun h => setPc_ne_ret (by simp) (Except.ok.inj h)⟩
  | munlock =>
    have hs : step s (.munlock c id) = sysMunlock s p m (.munlockClear m) := muxCall_eq hc hu hm
    simp only [MuxCall.act, Acts, hs, sysMunlock]
    split
    · rename_i hr
      refine ⟨by simp,iff_of_true rfl ?_⟩
      rintro ⟨ha,h1⟩
      simp [ha, h1] at hr
    · rename_i hr
      refine ⟨by simp,iff_of_false (fun h => setPc_ne_ret (by simp) (Except.ok.inj h)) ?_⟩
      simpa [not_or] using hr
  | signalcv =>
    have hs : step s (.signalcv c id) = sysSignalcv s p m := muxCall_eq hc hu hm
    simp only [MuxCall.act, Acts, hs, sysSignalcv]
    split
    · rename_i hr
      refine ⟨by simp,iff_of_true rfl ?_⟩
      rintro ⟨ha,h1⟩
      simp [ha, h1] at hr
    · rename_i hr
      refine ⟨by simp,iff_of_false (fun h => setPc_ne_ret (by simp) (Except.ok.inj h)) ?_⟩
      simpa [not_or] using hr
  | waitcv =>
    have hs : step s (.waitcv c id) = sysWaitcv s p m := muxCall_eq hc hu hm
    have ha := hw rfl
    simp only [MuxCall.act, Acts, hs, sysWaitcv, hf, acquire, bind, Except.bind, ha, Bool.not_true,
      Bool.false_eq_true, if_false]
    cases he : enroll (s.muxes m).cv p with
    | none => simp
    | some w =>
      refine ⟨by simp,iff_of_false (fun h => setPc_ne_ret (by simp) (Except.ok.inj h)) ?_⟩
      simp

theorem waitcv_wild (ha : (s.proc p).muxPtrs m = false) : step s (.waitcv c id) = .error .wild := by
  have hs : step s (.waitcv c id) = sysWaitcv s p m := muxCall_eq hc hu hm
  simp [hs, sysWaitcv, hf, acquire, ha, bind, Except.bind]

end

omit [DecidableEq C] in
theorem acts_access (h : Acts s p m call) (hw : call ≠ .waitcv) :
    (s.proc p).muxPtrs m = true := by
  cases call with
  | mdelete | mlock => exact h
  | munlock | signalcv => exact h.1
  | waitcv => exact absurd rfl hw

theorem validated_iff (hc : s.cpu c = some p) (hu : s.pc p = .user) (hf : s.muxLock = none)
    (fetched : Option ℤ) (junk : ℤ) :
    Validated s c p call fetched junk ↔ Sane s p call fetched junk := by
  unfold Validated Sane
  cases hm : muxIndex (argint fetched junk) with
  | none => simp
  | some m =>
    by_cases hw : call = .waitcv → (s.proc p).muxPtrs m = true
    · obtain ⟨h1,h2⟩ := call_first hc hu hf hm hw
      rw [h2]
      constructor
      · rintro ⟨-,-,h⟩
        exact ⟨m,rfl,hw,fun hn => h (.inl hn)⟩
      · rintro ⟨i,hi,-,h⟩
        cases hi
        refine ⟨by simp,h1,?_⟩
        rintro (hn | hno) hact
        · exact h hn hact
        · have ha := hno m rfl
          by_cases hcv : call = .waitcv
          · rw [hw hcv] at ha
            simp at ha
          · rw [acts_access hact hcv] at ha
            simp at ha
    · obtain ⟨rfl,ha⟩ := Classical.not_imp.mp hw
      have hwild := waitcv_wild hc hu hf hm (by simpa using ha)
      constructor
      · rintro ⟨-,h,-⟩
        exact absurd hwild h
      · rintro ⟨i,hi,h,-⟩
        cases hi
        exact absurd (h rfl) ha

end Calls

/-- Mutex ids. In every state of a run in which no `fork` takes a pointer from
a process that is about to use it and nobody exits out of the condition queue
of one of its mutexes, each thread inside a call has the pointer it will use;
and of the calls that can be made there, for all words an argument can hold and
whether or not it can be fetched, exactly the sane ones are validated. -/
theorem mutex_ids_validated_iff {s₀ : Kernel C} (h₀ : Pointed s₀)
    (h : Reaches step (fun s a => isKernelCall a = true ∧ ¬Strips s a ∧ ¬ExitsInCv s a) s₀ s) :
    (∀ p m, uses (s.pc p) = some m → (s.proc p).muxPtrs m = true) ∧
    ∀ c p call fetched junk, s.cpu c = some p → s.pc p = .user → s.muxLock = none →
      (Validated s c p call fetched junk ↔ Sane s p call fetched junk) := by
  have hs : Pointed s := reaches_invariant Pointed
    (fun _ _ _ hv ha hw => pointed_step hv ha.1 ha.2.1 hw) h₀ h
  exact ⟨hs,fun c p call fetched junk hc hu hf => validated_iff hc hu hf fetched junk⟩

/-- One process is inside `sys_mlock`, another calls it with two ids. -/
theorem mutex_ids_validated_crew : ∃ s : Kernel (Fin 3),
    (s.pc 0 = .mlockTry .mlock 0 ∧ (s.proc 0).muxPtrs 0 = true) ∧
    Validated s 1 1 .mlock (some 0) 0 ∧ ¬Validated s 1 1 .mlock (some 20) 0 := by
  obtain ⟨s,hr,hs⟩ := play_witness step
    (fun s a => isKernelCall a = true ∧ ¬Strips s a ∧ ¬ExitsInCv s a)
    (fun _ a => decide (a = .mlock 0 0))
    (fun s a ha => by
      rw [of_decide_eq_true ha]
      exact ⟨rfl,by simp [Strips],by simp [ExitsInCv]⟩)
    crew [.mlock 0 0]
    (fun s => decide (s.pc 0 = .mlockTry .mlock 0 ∧ s.cpu 1 = some 1 ∧ s.pc 1 = .user ∧
      s.muxLock = none)) (by decide +kernel)
  obtain ⟨h1,h2,h3,h4⟩ := of_decide_eq_true hs
  have h₀ : Pointed crew := fun p m h => by
    by_cases hp : p.val < 3 <;> simp [crew, hp, uses] at h
  obtain ⟨hp,hv⟩ := mutex_ids_validated_iff h₀ hr
  refine ⟨s,⟨h1,hp 0 0 (by rw [h1]; rfl)⟩,(hv 1 1 _ _ _ h2 h3 h4).mpr ⟨0,by decide,by simp,by simp⟩,
    fun h => ?_⟩
  obtain ⟨m,hm,-⟩ := (hv 1 1 _ _ _ h2 h3 h4).mp h
  exact absurd hm (by simp [show muxIndex (argint (some 20) 0) = none by decide])

/-- The first process without any mutex. An id past the table is used as an
index, `sys_waitcv` follows the null pointer, and with an argument that cannot
be fetched a call goes on with the mutex that its parameter happens to name. -/
theorem mutex_id_unchecked_run : ∃ s t u : Kernel (Fin 2),
    Reaches step (fun _ _ => True) (boot 0) s ∧ s.cpu 0 = some 0 ∧ s.pc 0 = .user ∧
    (step s (.mlock 0 20) = .error .wild ∧ ¬Validated s 0 0 .mlock (some 20) 0) ∧
    (step s (.waitcv 0 3) = .error .wild ∧ ¬Validated s 0 0 .waitcv (some 3) 0) ∧
    (step s (.mcreate 0 8 8) = .ok t ∧ step t (.mlock 0 (argint none 0)) = .ok u ∧
      u.pc 0 = .mlockTry .mlock 0) := by
  obtain ⟨s,hr,hs⟩ := play_witness step (fun _ _ => True) (fun _ _ => true)
    (fun _ _ _ => trivial) (boot (0 : Fin 2)) startup
    (fun s => decide (s.cpu 0 = some 0 ∧ s.pc 0 = .user) &&
      decide (failure (step s (.mlock 0 20)) = some .wild) &&
      decide (failure (step s (.waitcv 0 3)) = some .wild) &&
      (step s (.mcreate 0 8 8)).toOption.any (fun t : Kernel (Fin 2) =>
        (step t (.mlock 0 (argint none 0))).toOption.any (fun u : Kernel (Fin 2) =>
          decide (u.pc 0 = .mlockTry .mlock 0))))
    (by decide +kernel)
  simp only [Bool.and_eq_true] at hs
  obtain ⟨⟨⟨h1,h2⟩,h3⟩,h4⟩ := hs
  have hl := failure_eq_some.mp (of_decide_eq_true h2)
  have hw := failure_eq_some.mp (of_decide_eq_true h3)
  obtain ⟨t,ht,h4⟩ := ok_of_any h4
  obtain ⟨u,hu,h4⟩ := ok_of_any h4
  obtain ⟨hc,hp⟩ := of_decide_eq_true h1
  exact ⟨s,t,u,hr,hc,hp,⟨hl,fun h => h.2.1 hl⟩,⟨hw,fun h => h.2.1 hw⟩,ht,hu,of_decide_eq_true h4⟩

end Xv6.MutexIds
