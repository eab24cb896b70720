import Xv6.MutexEffects

/-!
# The window after a fork

Between the section that publishes a child and the end of its parent's `fork`
the child can already run. Until the parent's late assignments it finds in its
`mux_ptrs` and `priority` what they held when it was published.
-/

set_option autoImplicit false

namespace Xv6.ForkWindow
open KernelState ReadyQueue ProcessCalls MutexCalls
open Machine ProcessFrames ProcessEffects MutexEffects
open TransitionRun

variable {C : Type} {s t u : Kernel C} {c : C} {p q np : Slot} {a : Act C} {k : Pc}

def target : Pc → Option Slot
  | .forkAlloc np | .forkReady np | .forkShare np _ | .forkPriority np _ => some np
  | _ => none

structure Steady (s t : Kernel C) (q : Slot) : Prop where
  muxPtrs : (t.proc q).muxPtrs = (s.proc q).muxPtrs
  priority : (t.proc q).priority = (s.proc q).priority
  dead : Dead (t.proc q).state → Dead (s.proc q).state
  forks : target (t.pc q) ≠ none → t.pc q = s.pc q

theorem Steady.trans (h : Steady s t q) (h' : Steady t u q) : Steady s u q := by
  refine ⟨h'.muxPtrs.trans h.muxPtrs,h'.priority.trans h.priority,fun hd => h.dead (h'.dead hd),
    fun hf => ?_⟩
  have he := h'.forks hf
  rw [he] at hf ⊢
  exact h.forks hf

theorem steady_congr (hp : t.proc q = s.proc q) (hc : t.pc q = s.pc q) : Steady s t q :=
  ⟨by rw [hp],by rw [hp],by rw [hp]; exact id,fun _ => hc⟩

theorem later_forks {l : Pc} (h : Later k l) (hf : target l ≠ none) : l = k := by
  rcases h with h | h | h
  · exact h
  · cases k <;> simp only [resumePc, Option.some.injEq, reduceCtorEq] at h <;> subst h <;>
      exact absurd rfl hf
  · cases l <;> simp_all [isProcessPc, target]

theorem steady_routine (h : Routine s t) (q : Slot) : Steady s t q :=
  ⟨h.muxPtrs q,h.priority q,h.dead q,later_forks (h.pc q)⟩

theorem steady_setPc (hk : target k = none) (q : Slot) : Steady s (s.setPc p k) q := by
  refine ⟨rfl,rfl,id,fun hf => ?_⟩
  by_cases hq : q = p
  · simp [hq, hk] at hf
  · simp [hq]

variable [DecidableEq C]

section
omit [DecidableEq C]

theorem steady_ret (v : ℤ) (q : Slot) : Steady s (ret s p v) q := steady_routine (routine_ret v) q

/-- The rest of the kernel changes before the thread moves on. -/
theorem steady_goto {w : Kernel C} (hp : w.proc = s.proc) (hc : w.pc = s.pc) (hk : target k = none)
    (q : Slot) : Steady s (w.setPc p k) q :=
  (steady_congr (by rw [hp]) (by rw [hc])).trans (steady_setPc hk q)

end

theorem steady_sync (h : Sync s c p a t) (q : Slot) : Steady s t q := by
  have hwake : ∀ {u : Kernel C} {z : Slot}, makeRunnable (s.setLock (some p)) z = .ok u →
      Steady s ((ret u p 1).setLock none) q := fun hu => steady_routine (routine_wake hu) q
  have hsleep : ∀ {k : Pc} {l : Option Slot}, target k = none →
      Steady s ((setState (s.setLock l) p .sleeping).setPc p k) q := by
    intro k l hk
    have hr : Routine s (setState (s.setLock l) p .sleeping) :=
      routine_setProc (q := p) (r := { s.proc p with state := .sleeping }) rfl rfl rfl
        (by simp [Dead])
    exact (steady_routine hr q).trans (steady_setPc hk q)
  cases h with
  | mlock | munlock | waitcvCheck | waitcvDequeue | waitcvRelock | signalcv =>
    exact steady_setPc rfl q
  | mlockRefused | munlockRefused | munlockEmpty | waitcvFull | waitcvRefused | relockRefused
  | signalRefused | signalEmpty => exact steady_ret _ q
  | mlockFull => exact (steady_ret 0 q).trans (steady_congr rfl rfl)
  | mlockEnroll | munlockClear | munlockDequeue | waitcv | waitcvClear | signalDequeue =>
    exact steady_goto (by rfl) (by rfl) (by rfl) q
  | mlockTake => exact (steady_congr (by rfl) (by rfl)).trans (steady_ret 1 q)
  | mlockSleep _ _ hleft => exact (hsleep rfl).trans (steady_routine (routine_sched hleft) q)
  | waitcvSleep => exact hsleep rfl
  | waitcvSched _ hleft => exact (steady_setPc rfl q).trans (steady_routine (routine_sched hleft) q)
  | munlockWake _ _ hu | signalWake _ _ hu => exact hwake hu

def isForkCall : Act C → Bool
  | .fork _ | .forkNoStack _ | .forkNoMem _ | .forkCopy _ | .forkPublish _ | .forkShare _
  | .forkPriority _ => true
  | _ => false

def isWindowCall : Act C → Bool
  | .userinitAlloc | .userinitPublish | .userinitMutexes | .prioSet _ _ _ => false
  | _ => true

def cpuOf : Act C → Option C
  | .userinitAlloc | .userinitPublish | .userinitMutexes | .schedule _ | .resume _ _
  | .wakeup _ => none
  | .yield c | .sleep c _ | .kill c _ | .exit c | .wait c | .waitScan c | .fork c | .forkNoStack c
  | .forkNoMem c | .forkCopy c | .forkPublish c | .forkShare c | .forkPriority c | .prioSet c _ _
  | .mcreate c _ _ | .mdelete c _ | .mdeleteFree c | .mdeleteDrop c | .mlock c _ | .mlockTry c
  | .mlockSleep c | .munlock c _ | .munlockClear c | .munlockDequeue c | .munlockWake c
  | .waitcv c _ | .waitcvSleep c | .waitcvCheck c | .waitcvClear c | .waitcvDequeue c
  | .waitcvSched c | .waitcvRelock c | .signalcv c _ | .signalDequeue c | .signalWake c
  | .testpqeq c | .testpqdq c | .testpqdqNext c => some c

def Acts (s : Kernel C) (a : Act C) (q : Slot) : Prop := ∃ c, cpuOf a = some c ∧ s.cpu c = some q

/-- A step outside `fork` changes the copied fields of the acting process
only, which then is not inside `fork`. -/
theorem steady_step (ha : isWindowCall a = true) (hf : isForkCall a = false) (h : step s a = .ok t)
    (q : Slot) : Steady s t q ∨ Acts s a q ∧ target (t.pc q) = none := by
  have hedit : ∀ {p : Slot} {v : ℤ} {w : Kernel C}, Acts s a p →
      (q ≠ p → w.proc q = s.proc q ∧ w.pc q = s.pc q) →
      Steady s (ret w p v) q ∨ Acts s a q ∧ target ((ret w p v).pc q) = none := by
    intro p v w hc hw
    by_cases hq : q = p
    · subst hq
      exact .inr ⟨hc,by simp [ret, target]⟩
    · obtain ⟨hp,hpc⟩ := hw hq
      exact .inl ((steady_congr hp hpc).trans (steady_ret v q))
  cases hr : isRoutine a with
  | true => exact .inl (steady_routine (routine_step hr h) q)
  | false =>
    cases hs : isSyncCall a with
    | true =>
      obtain ⟨c,p,-,hsync⟩ := sync_step hs h
      exact .inl (steady_sync hsync q)
    | false =>
      by_cases hx : ∃ c, a = .exit c
      · obtain ⟨c,rfl⟩ := hx
        obtain ⟨p,hc,-,h⟩ := call_ok h
        obtain ⟨-,-,-,u,hu,hsched⟩ := exit_ok h
        have hrs := steady_routine (routine_sched hsched) q
        by_cases hq : q = p
        · subst hq
          refine .inr ⟨⟨c,rfl,hc⟩,?_⟩
          by_contra hne
          have he := hrs.forks hne
          simp [he, retired, target] at hne
        · refine .inl (Steady.trans ?_ hrs)
          have hw := steady_routine hu.toRoutine q
          refine ⟨?_,?_,?_,?_⟩
          · simpa [retired, forget, released, hq] using hw.muxPtrs
          · simpa [retired, forget, released, hq] using hw.priority
          · simpa [retired, forget, released, hq] using hw.dead
          · simpa [retired, forget, released, hq] using hw.forks
      have hp : isProcessCall a = false := by
        cases a <;> first | rfl | (cases hf; done) | (cases hr; done) | exact absurd ⟨_,rfl⟩ hx
      have hk : isKernelCall a = true := by cases a <;> first | rfl | cases ha
      obtain ⟨c,p,-,h⟩ | ⟨c,p,hc,ho⟩ := other_step hk hp hs h
      · exact .inl (steady_routine (routine_dispatch (resume_ok h).2.2.2) q)
      cases ho with
      | prioKept | prioOwn | prioBelow => simp [isWindowCall] at ha
      | mcreateFull | mdeleteRefused | testpqdqDone => exact .inl (steady_ret _ q)
      | mcreate m => exact hedit ⟨c,rfl,hc⟩ fun hq => ⟨by simp [createMux, hq],rfl⟩
      | mdeleteShared | mdelete => exact .inl (steady_setPc rfl q)
      | mdeleteFree => exact .inl (steady_goto (by rfl) (by rfl) (by rfl) q)
      | mdeleteDrop => exact hedit ⟨c,rfl,hc⟩ fun hq => ⟨by simp [hq],rfl⟩
      | testpqeq r v user free state muxPtrs priority put =>
        have hset : Steady s ((s.setLock (some p)).setProc p r) q := steady_routine
          (routine_setProc (q := p) (r := r) rfl muxPtrs priority (by rw [state]; exact id)) q
        refine .inl (Steady.trans (Steady.trans ?_ (steady_ret v q)) (steady_congr rfl rfl))
        rcases put with rfl | ⟨k,rfl⟩
        · exact hset
        · exact hset.trans (steady_congr rfl rfl)
      | testpqdq e user taken | testpqdqNext e n pc taken =>
        rcases taken with rfl | ⟨k,rfl⟩ <;> exact .inl (steady_goto (by rfl) (by rfl) (by rfl) q)

section Window
variable {M : MuxId → Bool} {P : BitVec 32}

structure Window (M : MuxId → Bool) (P : BitVec 32) (p np : Slot) (s : Kernel C) : Prop where
  live : ¬Dead (s.proc np).state
  muxPtrs : (s.proc np).muxPtrs = M
  priority : (s.proc np).priority = P
  others : ∀ q, q ≠ p → target (s.pc q) ≠ some np
  late : s.pc p ≠ .forkAlloc np ∧ s.pc p ≠ .forkReady np
  parent : target (s.pc p) = some np → ¬Dead (s.proc p).state ∧
    (∀ q, target (s.pc q) ≠ some p) ∧ (s.proc p).muxPtrs = M ∧ (s.proc p).priority = P

section
variable (hw : Window M P p np s)
include hw

section
omit [DecidableEq C]

theorem window_steady (hnp : Steady s t np) (hrest : ∀ q, Steady s t q ∨ target (t.pc q) = none) :
    Window M P p np t := by
  have hback : ∀ q z, target (t.pc q) = some z → t.pc q = s.pc q := by
    intro q z hz
    rcases hrest q with hq | hq
    · exact hq.forks (by simp [hz])
    · simp [hq] at hz
  refine ⟨fun hd => hw.live (hnp.dead hd),hnp.muxPtrs.trans hw.muxPtrs,
    hnp.priority.trans hw.priority,fun q hq hz => ?_,⟨fun he => ?_,fun he => ?_⟩,fun hz => ?_⟩
  · exact hw.others q hq (hback q np hz ▸ hz)
  · exact hw.late.1 (hback p np (by simp [he, target]) ▸ he)
  · exact hw.late.2 (hback p np (by simp [he, target]) ▸ he)
  · have hp := hback p np hz
    obtain ⟨hlive,hno,hmux,hprio⟩ := hw.parent (hp ▸ hz)
    rcases hrest p with hs | hs
    · refine ⟨fun hd => hlive (hs.dead hd),fun q hq => ?_,hs.muxPtrs.trans hmux,
        hs.priority.trans hprio⟩
      exact hno q (hback q p hq ▸ hq)
    · simp [hs] at hz

/-- A thread inside `fork` changes the slot `z` it works on, which is neither
the child nor its parent. -/
theorem window_edit {x z : Slot} (hzn : z ≠ np) (hzp : target (s.pc p) = some np → z ≠ p)
    (hproc : ∀ q, q ≠ z → (t.proc q).muxPtrs = (s.proc q).muxPtrs ∧
      (t.proc q).priority = (s.proc q).priority ∧ (t.proc q).state = (s.proc q).state)
    (hpc : ∀ q, q ≠ x → t.pc q = s.pc q ∨ target (t.pc q) = none)
    (hx : target (t.pc x) = none ∨ target (t.pc x) = some z) : Window M P p np t := by
  have hback : ∀ q, target (t.pc q) = some np → t.pc q = s.pc q := by
    intro q hq
    by_cases hqx : q = x
    · subst hqx
      rcases hx with hx | hx
      · simp [hx] at hq
      · exact absurd (Option.some.inj (hx.symm.trans hq)) hzn
    · rcases hpc q hqx with he | he
      · exact he
      · simp [he] at hq
  obtain ⟨hm,hpr,hst⟩ := hproc np hzn.symm
  refine ⟨by rw [hst]; exact hw.live,hm.trans hw.muxPtrs,hpr.trans hw.priority,fun q hq hz => ?_,
    ⟨fun he => ?_,fun he => ?_⟩,fun hz => ?_⟩
  · exact hw.others q hq (hback q hz ▸ hz)
  · exact hw.late.1 (hback p (by simp [he, target]) ▸ he)
  · exact hw.late.2 (hback p (by simp [he, target]) ▸ he)
  · have hz := hback p hz ▸ hz
    obtain ⟨hlive,hno,hmux,hprio⟩ := hw.parent hz
    obtain ⟨hm,hpr,hst⟩ := hproc p (hzp hz).symm
    refine ⟨by rw [hst]; exact hlive,fun q hq => ?_,hm.trans hmux,hpr.trans hprio⟩
    by_cases hqx : q = x
    · subst hqx
      rcases hx with hx | hx
      · simp [hx] at hq
      · exact hzp hz (Option.some.inj (hx.symm.trans hq))
    · rcases hpc q hqx with he | he
      · exact hno q (he ▸ hq)
      · simp [he] at hq

theorem window_early {x z : Slot} (hx : s.pc x = .forkAlloc z ∨ s.pc x = .forkReady z) :
    z ≠ np ∧ (target (s.pc p) = some np → z ≠ p) := by
  have ht : target (s.pc x) = some z := by rcases hx with h | h <;> rw [h] <;> rfl
  constructor
  · rintro rfl
    by_cases hxp : x = p
    · subst hxp
      rcases hx with h | h
      · exact hw.late.1 h
      · exact hw.late.2 h
    · exact hw.others x hxp ht
  · rintro hp rfl
    exact (hw.parent hp).2.1 x ht

theorem window_copy {x z : Slot} {r : Proc} (hnp : np ≠ p) (hx : target (s.pc x) = some z)
    (hk : target k = none ∨ ∃ pid, k = .forkPriority z pid) (hr : r.state = (s.proc z).state)
    (hsame : x = p → z = np → r.muxPtrs = M ∧ r.priority = P) :
    Window M P p np ((s.setProc z r).setPc x k) := by
  by_cases hz : z = np
  · subst hz
    have hxp : x = p := by
      by_contra hne
      exact hw.others x hne hx
    subst hxp
    obtain ⟨hm,hpr⟩ := hsame rfl rfl
    obtain ⟨hlive,hno,hmux,hprio⟩ := hw.parent hx
    refine ⟨by simpa [hr] using hw.live,by simpa using hm,by simpa using hpr,fun q hq => ?_,?_,
      fun _ => ⟨?_,fun q => ?_,?_,?_⟩⟩
    · simpa [hq] using hw.others q hq
    · rcases hk with hk | ⟨pid,rfl⟩
      · constructor <;> rintro he <;> simp [show k = _ from by simpa using he, target] at hk
      · simp
    · simpa [hnp.symm] using hlive
    · by_cases hq : q = x
      · subst hq
        rcases hk with hk | ⟨pid,rfl⟩
        · simp [hk]
        · simpa [target] using hnp
      · simpa [hq] using hno q
    · simpa [hnp.symm] using hmux
    · simpa [hnp.symm] using hprio
  · refine window_edit (x := x) hw hz (fun hp e => ?_) (fun q hq => ?_) (fun q hq => ?_) ?_
    · subst e
      exact (hw.parent hp).2.1 x hx
    · simp [hq]
    · exact .inl (by simp [hq])
    · rcases hk with hk | ⟨pid,rfl⟩
      · exact .inl (by simpa using hk)
      · exact .inr (by simp [target])

end

theorem window_fork (hnp : np ≠ p) (hf : isForkCall a = true) (h : step s a = .ok t) :
    Window M P p np t := by
  have hret : ∀ {x z : Slot} {r : Proc}, z ≠ np → (target (s.pc p) = some np → z ≠ p) →
      Window M P p np (ret (s.setProc z r) x (-1)) := by
    intro x z r hzn hzp
    refine window_edit (x := x) (z := z) hw hzn hzp (fun q hq => ?_) (fun q hq => ?_) ?_
    · by_cases hqx : q = x
      · simp [ret, hqx]
        by_cases hxz : x = z
        · exact absurd (hqx.trans hxz) hq
        · simp [hxz]
      · simp [ret, hqx, hq]
    · exact .inl (by simp [ret, hq])
    · exact .inl (by simp [ret, target])
  cases a <;> simp only [isForkCall, Bool.false_eq_true] at hf
  case fork c =>
    obtain ⟨x,hc,hu,h⟩ := call_ok h
    rcases (fork_ok h).2 with rfl | ⟨z,hz,rfl⟩
    · have hs : ∀ q, Steady s ((ret (s.setLock (some x)) x (-1)).setLock none) q := fun q =>
        steady_routine (routine_trans (routine_control rfl)
          (routine_trans (routine_ret _) (routine_control rfl))) q
      exact window_steady hw (hs np) fun q => .inl (hs q)
    · have hdead : Dead (s.proc z).state := .inl hz
      refine window_edit (x := x) (z := z) hw ?_ (fun hp => ?_) (fun q hq => ?_) (fun q hq => ?_) ?_
      · rintro rfl
        exact hw.live hdead
      · rintro rfl
        exact (hw.parent hp).1 hdead
      · simp [hq]
      · exact .inl (by simp [hq])
      · exact .inr (by simp [target])
  case forkNoStack c =>
    obtain ⟨x,hc,h⟩ := onCpu_ok h
    split at h
    · rename_i z hz
      cases h
      obtain ⟨h1,h2⟩ := window_early hw (.inl hz)
      exact hret h1 h2
    · cases h
  case forkNoMem c =>
    obtain ⟨x,hc,h⟩ := onCpu_ok h
    split at h
    · rename_i z hz
      cases h
      obtain ⟨h1,h2⟩ := window_early hw (.inl hz)
      exact hret h1 h2
    · cases h
  case forkCopy c =>
    obtain ⟨x,hc,h⟩ := onCpu_ok h
    split at h
    · rename_i z hz
      cases h
      obtain ⟨h1,h2⟩ := window_early hw (.inl hz)
      refine window_edit (x := x) (z := z) hw h1 h2 (fun q hq => ?_) (fun q hq => ?_) ?_
      · simp [hq]
      · exact .inl (by simp [hq])
      · exact .inr (by simp [target])
    · cases h
  case forkPublish c =>
    obtain ⟨x,hc,h⟩ := onCpu_ok h
    split at h
    · rename_i z hz
      obtain ⟨h1,h2⟩ := window_early hw (.inr hz)
      obtain ⟨-,u,hu,rfl⟩ := forkPublish_ok h
      obtain ⟨k,-,-,rfl⟩ := makeRunnable_ok hu
      refine window_edit (x := x) (z := z) hw h1 h2 (fun q hq => ?_) (fun q hq => ?_) ?_
      · simp [hq]
      · by_cases hqz : q = z
        · subst hqz
          exact .inr (by simp [hq, target])
        · exact .inl (by simp [hq, hqz])
      · exact .inr (by simp [target])
    · cases h
  case forkShare c =>
    obtain ⟨x,hc,h⟩ := onCpu_ok h
    split at h
    · rename_i z pid hz
      cases h
      have ht : target (s.pc x) = some z := by rw [hz]; rfl
      refine window_copy hw hnp ht (.inr ⟨pid,rfl⟩) rfl ?_
      rintro rfl rfl
      exact ⟨(hw.parent ht).2.2.1,hw.priority⟩
    · cases h
  case forkPriority c =>
    obtain ⟨x,hc,h⟩ := onCpu_ok h
    split at h
    · rename_i z pid hz
      cases h
      have ht : target (s.pc x) = some z := by rw [hz]; rfl
      have hcopy : Window M P p np ((s.setProc z { s.proc z with
          priority := (s.proc x).priority }).setPc x .user) := by
        refine window_copy hw hnp ht (.inl rfl) rfl ?_
        rintro rfl rfl
        exact ⟨hw.muxPtrs,(hw.parent ht).2.2.2⟩
      have hset : ∀ q, Steady ((s.setProc z { s.proc z with
          priority := (s.proc x).priority }).setPc x .user)
          (ret (s.setProc z { s.proc z with priority := (s.proc x).priority }) x pid) q := by
        intro q
        refine ⟨?_,?_,?_,fun _ => rfl⟩
        all_goals
          by_cases hq : q = x
          · simp [ret, hq]
          · simp [ret, hq]
      exact window_steady hcopy (hset np) fun q => .inl (hset q)
    · cases h

theorem window_step (hnp : np ≠ p) (ha : isWindowCall a = true) (hact : ¬Acts s a np)
    (h : step s a = .ok t) : Window M P p np t := by
  cases hf : isForkCall a with
  | true => exact window_fork hw hnp hf h
  | false =>
    have hs := steady_step ha hf h
    refine window_steady hw ?_ fun q => (hs q).imp_right And.right
    rcases hs np with hn | ⟨hn,-⟩
    · exact hn
    · exact absurd hn hact

/-- Until the child runs a section of its own it keeps the references and the
priority it was published with, if these are its parent's. -/
theorem window_reaches (hnp : np ≠ p)
    (h : Reaches step (fun s a => isWindowCall a = true ∧ ¬Acts s a np) s t) : Window M P p np t :=
  reaches_invariant (Window M P p np) (fun _ _ _ hs ha he => window_step hs hnp ha.1 ha.2 he) hw h

end

end Window

end Xv6.ForkWindow
