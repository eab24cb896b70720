import Xv6.ReadyInvariant

/-!
# Runs of the process calls

Every section of the process calls, except an exit out of a condition queue,
leads from a consistent state to a consistent one and stops neither with a wild
access nor with a full queue.
-/

set_option autoImplicit false

namespace Xv6.ReadyRuns
open KernelState RingBuffer NullQueue ReadyQueue ProcessCalls MutexCalls
open Machine ProcessFrames ProcessEffects TransitionRun ReadyInvariant

variable {C : Type} [DecidableEq C] {s t u : Kernel C} {c : C} {p q np : Slot}

section
variable (hs : Consistent s)
include hs

theorem scheduler_sound : Sound Consistent (scheduler s c) := by
  unfold scheduler
  split
  · exact sound_disabled
  rename_i hg
  simp only [not_or, not_and, not_not] at hg
  rw [if_neg (by simp [hs.settled.1])]
  split
  · rename_i t hd
    obtain ⟨rfl,-⟩ := pqDequeue_none hd
    exact hs
  · rename_i hd
    obtain ⟨p,t,he,-⟩ := consistent_switch hs hg.2.1 hd
    simp at he
  · rename_i hd
    obtain ⟨p,t,he,-,ht,hc⟩ := consistent_switch hs hg.2.1 hd
    cases he
    rw [ht]
    exact hc

theorem yield_sound (hc : s.cpu c = some p) : Sound Consistent (yield s c p) := by
  unfold yield
  split
  · exact sound_disabled
  apply sound_acquirePtable
  intro hfree
  have hl := consistent_setLock hs (some p)
  obtain ⟨k,hk,hq⟩ := queued_makeRunnable (p := p) hl.queued hl.prio
    (by simp [consistent_running hs hc])
  rw [hk]
  exact sound_sched (hs.settled.2 c) (consistent_preempt hl hc k hq)

theorem sleepOn_sound (hc : s.cpu c = some p) (ch : Chan) {k : Pc} (hk : resumePc k ≠ none)
    (hp : Plain k) : Sound Consistent (sleepOn s c p ch k) :=
  sound_sched (hs.settled.2 c) (consistent_leave hs hc _ (.inl ⟨rfl,hk⟩) (hs.prio p) hp)

section
omit [DecidableEq C]

theorem wakeup_sound (ch : Chan) : Sound Consistent (wakeup s ch) := by
  unfold wakeup
  split
  · exact sound_disabled
  · obtain ⟨t,ht,hw⟩ := wakes_wakeup1 hs.queued hs.prio (some ch)
    rw [ht]
    exact consistent_wakes hs hw

theorem kill_sound (hc : s.cpu c = some p) (pid : ℤ) : Sound Consistent (kill s p pid) := by
  apply sound_acquirePtable
  intro hfree
  have hl := consistent_setLock hs (some p)
  have hrun := consistent_running hs hc
  split
  · exact consistent_setLock (consistent_ret hl hrun _) none
  · rename_i q _
    obtain ⟨t,ht,hw⟩ := wakes_markKilled (q := q) hl.queued hl.prio
    have hk := consistent_wakes hl hw
    rw [ht]
    exact consistent_setLock (consistent_ret hk
      (consistent_running hk (woken_cpu hw.toWoken ▸ hc)) _) none

end

theorem retired_sound (hc : s.cpu c = some p) : Sound Consistent (sched (retired s p) c p) := by
  have hr : Consistent (forget (released s p (List.finRange MUX_MAXNUM)) p) := by
    refine consistent_congr hs rfl rfl rfl rfl rfl rfl (fun q => ?_) (fun q => ?_) <;>
      simp only [forget, released, Kernel.setProc_proc] <;> split
    · simp [*]
    · rfl
    · exact hs.prio p
    · exact hs.prio q
  exact sound_sched (hr.settled.2 c)
    (consistent_leave hr hc _ (.inr rfl) (hr.prio p) (by simp [Plain]))

/-- An exit keeps the invariant when the process stands in no condition queue
of a mutex it has access to, and accesses wild memory otherwise. -/
theorem exit_sound (hc : s.cpu c = some p)
    (hcv : s.initproc ≠ some p → s.lock = none → ∀ m, (s.proc p).muxPtrs m = true →
      p ∉ list (s.muxes m).cv) :
    Sound Consistent (exit s c p) := by
  unfold exit
  split
  · simp [Sound, fullMessage]
  apply sound_acquirePtable
  intro hfree
  have hl := consistent_setLock hs (some p)
  obtain ⟨t,ht,hw⟩ := wakes_wakeup1 hl.queued hl.prio
    (((s.setLock (some p)).proc p).parent.map .proc)
  have hc1 := consistent_wakes hl hw
  obtain ⟨u,hu,hv⟩ := wakes_reparent (p := p) hc1.queued hc1.prio
  have hc2 := consistent_wakes hc1 hv
  have hk := woken_trans hw.toWoken hv.toWoken
  have hd := dropMutexes_eq (s := u) (p := p) (List.finRange MUX_MAXNUM) (by
    intro m _ hm
    rw [hk.muxPtrs p] at hm
    rw [woken_muxes hk]
    exact hcv ‹_› hfree m hm)
  simp only [ht, hu, hd, bind, Except.bind]
  exact retired_sound hc2 (woken_cpu hk ▸ hc)

omit [DecidableEq C] in
theorem freeSlot_consistent (hq : (s.proc q).state = .zombie) : Consistent (freeSlot s q) := by
  have ho : ∀ x, Forking s x q → ProcState.unused = .embryo := by
    intro x hx
    have he := hs.threads.embryo x q hx
    simp [hq] at he
  unfold freeSlot
  apply consistent_goto
  · exact consistent_idle hs _ (by simp [Idle, hq]) (by simp [Idle]) (hs.prio q) ho
  · simp
  · simp [Plain]

theorem waitScan_sound (hc : s.cpu c = some p) : Sound Consistent (waitScan s c p) := by
  have hrun := consistent_running hs hc
  unfold waitScan
  split
  · rename_i q hq
    have hz : (s.proc q).state = .zombie := by
      have := findSlot_some hq
      simp only [Bool.and_eq_true, decide_eq_true_eq] at this
      exact this.2
    have hf := freeSlot_consistent hs hz
    exact consistent_setLock (consistent_ret hf (consistent_running hf hc) _) none
  · split
    · exact consistent_setLock (consistent_ret hs hrun _) none
    · exact sleepOn_sound hs hc _ (by simp [resumePc]) (by simp [Plain])

section
omit [DecidableEq C]

theorem fork_sound (hc : s.cpu c = some p) : Sound Consistent (fork s p) := by
  apply sound_acquirePtable
  intro hfree
  have hl := consistent_setLock hs (some p)
  have hrun := consistent_running hs hc
  cases ha : allocproc (s.setLock (some p)) with
  | none => exact consistent_setLock (consistent_ret hl hrun _) none
  | some x =>
    obtain ⟨np,t⟩ := x
    obtain ⟨hu,rfl⟩ := allocproc_some ha
    have hn : ∀ x, ¬Forking s x np := by
      intro x hx
      have he := hs.threads.embryo x np hx
      exact absurd (hu.symm.trans he) (by decide)
    have hi := consistent_idle (q := np) hl { s.proc np with state := .embryo, pid := s.nextpid }
      (by rw [hu]; simp [Idle]) (by simp [Idle]) (hs.prio np) (fun x hx => absurd hx (hn x))
    have hg : Consistent (((s.setLock (some p)).setProc np
        { s.proc np with state := .embryo, pid := s.nextpid }).setPc p (.forkAlloc np)) := by
      apply consistent_setPc hi
      · exact running_awake (consistent_running hi hc)
      · rintro np' (h | h)
        · obtain rfl := Pc.forkAlloc.inj h
          exact ⟨by simp,fun x hx => absurd hx (hn x)⟩
        · simp at h
    exact ⟨hg.queued,hg.onCpus,hg.prio,⟨hg.threads.saved,hg.threads.embryo,hg.threads.owner⟩,
      hg.settled⟩

theorem forking_released (hc : s.cpu c = some p) (hf : Forking s p np) {k : Pc} (hk : Plain k) :
    Consistent (s.setPc p k) ∧ (s.proc np).state = .embryo ∧
      ∀ x, ¬Forking (s.setPc p k) x np := by
  have hrun := consistent_running hs hc
  refine ⟨consistent_goto hs (by simp [hrun]) hk,hs.threads.embryo p np hf,fun x hx => ?_⟩
  by_cases h : x = p
  · simp [Forking, h, hk np] at hx
  · exact h (hs.threads.owner x p np (by simpa [Forking, h] using hx) hf)

theorem forkFail_consistent (hc : s.cpu c = some p) (hf : Forking s p np) (r : Proc)
    (hr : r.state = .unused) (hp : r.priority = (s.proc np).priority) :
    Consistent (ret (s.setProc np r) p (-1)) := by
  have hrun := consistent_running hs hc
  obtain ⟨hu,he,hn⟩ := forking_released (k := .user) hs hc hf (by simp [Plain])
  have hi := consistent_idle (q := np) hu r (by simp [Idle, he]) (by simp [Idle, hr])
    (by rw [hp]; exact hs.prio np) (fun x hx => absurd hx (hn x))
  have ht : Consistent (((s.setPc p .user).setProc np r).setProc p
      { ((s.setPc p .user).setProc np r).proc p with eax := -1 }) :=
    consistent_setProc hi _ rfl (hi.prio p)
  exact ht

theorem forkCopy_sound (hc : s.cpu c = some p) (hf : Forking s p np) :
    Sound Consistent (forkCopy s p np) := by
  have hrun := consistent_running hs hc
  have he := hs.threads.embryo p np hf
  have hi : Consistent (s.setProc np { s.proc np with
      muxPtrs := fun _ => false
      sz := (s.proc p).sz
      parent := some p
      eax := 0
      name := safestrcpy (s.proc np).name (s.proc p).name }) :=
    consistent_setProc hs _ rfl (hs.prio np)
  apply consistent_setPc hi
  · exact running_awake (consistent_running hi hc)
  · rintro np' (h | h)
    · simp at h
    · obtain rfl := Pc.forkReady.inj h
      exact ⟨by simpa using he,fun x hx => hs.threads.owner x p np hx hf⟩

theorem forkPublish_sound (hc : s.cpu c = some p) (hf : Forking s p np) :
    Sound Consistent (forkPublish s p np) := by
  apply sound_acquirePtable
  intro hfree
  have hl := consistent_setLock hs (some p)
  have he := hs.threads.embryo p np hf
  obtain ⟨k,hk,hq⟩ := queued_makeRunnable (p := np) hl.queued hl.prio (by simp [he])
  obtain ⟨hu,-,hn⟩ := forking_released (k := .forkShare np (((setState (s.setLock (some p)) np
    .runnable).setRing k (push (s.ring k) (some np))).proc np).pid) hl hc hf (by simp [Plain])
  have hp := consistent_publish hu (by simpa using he) hn k hq
  have hnp : p ≠ np := by
    rintro rfl
    exact absurd (he.symm.trans (consistent_running hs hc)) (by decide)
  rw [hk]
  apply consistent_setLock
  rw [setPc_comm (Ne.symm hnp)]
  exact hp

theorem forkShare_sound (hc : s.cpu c = some p) (pid : ℤ) :
    Sound Consistent (forkShare s p np pid) := by
  have hr : Consistent (s.setProc np { s.proc np with muxPtrs := (s.proc p).muxPtrs }) :=
    consistent_setProc hs _ rfl (hs.prio np)
  exact consistent_goto hr (running_awake (consistent_running hr hc)) (by simp [Plain])

theorem forkPriority_sound (hc : s.cpu c = some p) (pid : ℤ) :
    Sound Consistent (forkPriority s p np pid) := by
  have hr : Consistent (s.setProc np { s.proc np with priority := (s.proc p).priority }) :=
    consistent_setProc hs _ rfl (hs.prio p)
  exact consistent_ret hr (consistent_running hr hc) pid

end

end

def ExitsInCv (s : Kernel C) (a : Act C) : Prop :=
  ∃ c p m, a = .exit c ∧ s.cpu c = some p ∧ s.pc p = .user ∧ s.initproc ≠ some p ∧
    s.lock = none ∧ (s.proc p).muxPtrs m = true ∧ p ∈ list (s.muxes m).cv

variable {a : Act C}

theorem step_sound (hs : Consistent s) (ha : isProcessCall a = true) (hx : ¬ExitsInCv s a) :
    Sound Consistent (step s a) := by
  cases a <;> simp only [isProcessCall, Bool.false_eq_true] at ha
  case schedule c => exact scheduler_sound hs
  case wakeup ch => exact wakeup_sound hs ch
  case yield c => exact sound_onCpu (fun p hc => yield_sound hs hc)
  case sleep c ch =>
    refine sound_call (fun p hc _ => sound_acquirePtable (fun _ => ?_))
    exact sleepOn_sound (k := .asleep) (consistent_setLock hs (some p)) hc ch (by simp [resumePc])
      (by simp [Plain])
  case kill c pid => exact sound_call (fun p hc _ => kill_sound hs hc pid)
  case exit c =>
    refine sound_call (fun p hc hu => exit_sound hs hc (fun hi hl m hm hq => ?_))
    exact hx ⟨c,p,m,rfl,hc,hu,hi,hl,hm,hq⟩
  case wait c =>
    exact sound_call (fun p hc _ => sound_acquirePtable
      (fun _ => waitScan_sound (consistent_setLock hs _) hc))
  case waitScan c =>
    refine sound_onCpu (fun p hc => ?_)
    split
    · exact waitScan_sound hs hc
    · exact sound_disabled
  case fork c => exact sound_call (fun p hc _ => fork_sound hs hc)
  all_goals
    refine sound_onCpu (fun p hc => ?_)
    split
    case h_2 => exact sound_disabled
    rename_i hk
  · exact forkFail_consistent hs hc (.inl hk) _ rfl rfl
  · exact forkFail_consistent hs hc (.inl hk) _ rfl rfl
  · exact forkCopy_sound hs hc (.inl hk)
  · exact forkPublish_sound hs hc (.inr hk)
  · exact forkShare_sound hs hc _
  · exact forkPriority_sound hs hc _

theorem exitsInCv_wild (hs : Consistent s) (hx : ExitsInCv s a) : step s a = .error .wild := by
  obtain ⟨c,p,m,rfl,hc,hu,hi,hfree,hm,hcv⟩ := hx
  have hl := consistent_setLock hs (some p)
  obtain ⟨t,ht,hw⟩ := wakes_wakeup1 hl.queued hl.prio
    (((s.setLock (some p)).proc p).parent.map .proc)
  have hc1 := consistent_wakes hl hw
  obtain ⟨u,hv,hk⟩ := wakes_reparent (p := p) hc1.queued hc1.prio
  have hk := woken_trans hw.toWoken hk.toWoken
  have hd : (List.finRange MUX_MAXNUM).foldlM (dropMutex p) u = .error .wild := by
    apply dropMutexes_wild _ (List.mem_finRange m)
    · rw [hk.muxPtrs p]
      exact hm
    · rw [woken_muxes hk]
      exact hcv
  simp only [step, call, onCpu, hc, hu, if_true, exit, hi, if_false, acquirePtable, acquire, hfree,
    bind, Except.bind, ht, hv, hd]

theorem step_consistent (hs : Consistent s) (ha : isProcessCall a = true) (h : step s a = .ok t) :
    Consistent t := by
  by_cases hx : ExitsInCv s a
  · simp [exitsInCv_wild hs hx] at h
  · have hk := step_sound hs ha hx
    rwa [h] at hk

/-- A dispatch takes a runnable process that no CPU runs, and its entry with
it. -/
theorem consistent_dispatch (hs : Consistent s) (h : step s (.schedule c) = .ok t)
    (hp : t.cpu c = some p) :
    entries t p = 0 ∧ (s.proc p).state = .runnable ∧ ∀ d, s.cpu d ≠ some p := by
  have ht := step_consistent hs (a := .schedule c) rfl h
  obtain ⟨-,hc,-,⟨hf,-⟩ | ⟨-,hd⟩ | ⟨u,q,-,hd,hq⟩⟩ := scheduler_ok h
  · simp [hs.settled.1] at hf
  · obtain ⟨rfl,-⟩ := pqDequeue_none hd
    simp [hc] at hp
  · obtain ⟨q',t',he,hrun,-,-⟩ := consistent_switch hs hc hd
    cases he
    obtain ⟨ch,k,l,rfl,-⟩ := dispatch_ok hq
    have hqp : q = p := by simpa [switchTo] using hp
    subst hqp
    refine ⟨?_,hrun,fun d hd => ?_⟩
    · rw [ht.queued.2 q, consistent_running ht hp]
      simp
    · exact absurd (hrun.symm.trans (consistent_running hs hd)) (by decide)

theorem consistent_reaches {s₀ : Kernel C} (h₀ : Consistent s₀)
    (h : Reaches step (fun s a => isProcessCall a = true ∧ ¬ExitsInCv s a) s₀ s) :
    Consistent s :=
  reaches_invariant Consistent (fun _ _ _ hv ha hw => step_consistent hv ha.1 hw) h₀ h

omit [DecidableEq C] in
theorem sound_mono {I J : Kernel C → Prop} (hIJ : ∀ t, I t → J t) {x : Except Stop (Kernel C)}
    (h : Sound I x) : Sound J x := by
  cases x with
  | error e => exact h
  | ok t => exact hIJ t h

/-- Ready queue invariant. In a run of the process calls in which nobody exits
out of the condition queue of one of its mutexes, the invariant holds
throughout; exactly the exits left out are the sections that do not keep it;
and the scheduler dispatches runnable processes that no other CPU runs. -/
theorem ready_queue_kept_iff {s₀ : Kernel C} (h₀ : Consistent s₀)
    (h : Reaches step (fun s a => isProcessCall a = true ∧ ¬ExitsInCv s a) s₀ s) :
    (Queued s ∧ OnCpus s ∧ PrioInRange s) ∧
    (∀ a, isProcessCall a = true →
      (Sound (fun t => Queued t ∧ OnCpus t) (step s a) ↔ ¬ExitsInCv s a)) ∧
    ∀ c t p, step s (.schedule c) = .ok t → t.cpu c = some p →
      (s.proc p).state = .runnable ∧ ∀ d, s.cpu d ≠ some p := by
  have hs := consistent_reaches h₀ h
  refine ⟨⟨hs.queued,hs.onCpus,hs.prio⟩,fun a ha => ⟨fun hk hx => ?_,fun hx => ?_⟩,
    fun c t p ht hp => ?_⟩
  · rw [exitsInCv_wild hs hx] at hk
    exact hk.1 rfl
  · exact sound_mono (fun t ht => ⟨ht.queued,ht.onCpus⟩) (step_sound hs ha hx)
  · exact (consistent_dispatch hs ht hp).2

theorem ready_solo (c : C) : ready (solo c) = [] := by
  rw [ready, List.flatMap_eq_nil_iff]
  intro k _
  rw [contents_eq_nil]
  rfl

theorem consistent_solo (c : C) : Consistent (solo c) := by
  refine ⟨⟨by simp [ready_solo],fun p => ?_⟩,⟨fun d e p hd he => ?_,fun p => ?_⟩,fun p => ?_,
    ⟨fun p hp => ?_,fun p np hf => ?_,fun p q np hp => ?_⟩,rfl,fun _ => rfl⟩
  · rw [entries, ready_solo]
    by_cases hp : p = 0 <;> simp [solo, zeroProc, hp]
  · simp only [solo, Option.ite_none_right_eq_some] at hd he
    rw [hd.1, he.1]
  · by_cases hp : p = 0
    · simp [solo, hp]
    · simp [solo, zeroProc, hp, Ne.symm hp]
  · by_cases hp : p = 0 <;> simp [solo, zeroProc, hp]
  · by_cases h : p = 0 <;> simp [solo, zeroProc, h] at hp
  · by_cases h : p = 0 <;> simp [Forking, solo, h] at hf
  · by_cases h : p = 0 <;> simp [Forking, solo, h] at hp

theorem consistent_crew : Consistent crew := by
  refine ⟨by decide +kernel,by decide +kernel,by decide +kernel,⟨fun p hp => ?_,fun p np hf => ?_,
    fun p q np hf => ?_⟩,rfl,fun _ => rfl⟩
  · by_cases h : p.val < 3 <;> simp [crew, zeroProc, h] at hp
  · by_cases h : p.val < 3 <;> simp [Forking, crew, h] at hf
  · by_cases h : p.val < 3 <;> simp [Forking, crew, h] at hf

theorem ready_queue_kept_after_fork : ∃ s : Kernel (Fin 2), (s.proc 1).state = .runnable ∧
    (Queued s ∧ OnCpus s ∧ PrioInRange s) ∧
    (∀ a, isProcessCall a = true →
      (Sound (fun t => Queued t ∧ OnCpus t) (step s a) ↔ ¬ExitsInCv s a)) ∧
    ∀ c t p, step s (.schedule c) = .ok t → t.cpu c = some p →
      (s.proc p).state = .runnable ∧ ∀ d, s.cpu d ≠ some p := by
  obtain ⟨s,hr,hs⟩ := play_witness step
    (fun s a => isProcessCall a = true ∧ ¬ExitsInCv s a)
    (fun _ a => isProcessCall a && decide (∀ c, a ≠ .exit c))
    (fun s a ha => by
      simp only [Bool.and_eq_true, decide_eq_true_eq] at ha
      refine ⟨ha.1,?_⟩
      rintro ⟨c,-,-,h,-⟩
      exact ha.2 c h)
    (solo (0 : Fin 2)) (forkOn 0) (fun s => decide ((s.proc 1).state = .runnable))
    (by decide +kernel)
  exact ⟨s,of_decide_eq_true hs,ready_queue_kept_iff (consistent_solo 0) hr⟩

/-- A waiter on the condition of mutex 9 is killed, takes the mutex back and
exits with its queue entry in place. `p->mux_ptrs[9]`, with `p` one past the
table, is the first cell of the first ring and holds the first process, over
which the removal loop then shifts. -/
theorem exit_in_cv_run : ∃ t : Kernel (Fin 2), Reaches step (fun _ _ => True) (boot 0) t ∧
    (Queued t ∧ OnCpus t ∧ PrioInRange t ∧ t.firstTime = false ∧ t.lock = none) ∧
    (t.cpu 1 = some 1 ∧ front (t.muxes 9).cv = some 1 ∧ (t.ring 0).buf 0 = some 0) ∧
    step t (.exit 1) = .error .wild := by
  obtain ⟨t,hr,ht⟩ := play_witness step (fun _ _ => True)
    (fun _ _ => true) (fun _ _ _ => trivial) (boot (0 : Fin 2))
    (List.flatten [startup, List.replicate 10 (.mcreate 0 100 0), forkOn 0,
      [.schedule 1, .mlock 1 9, .mlockTry 1, .waitcv 1 9, .waitcvSleep 1, .waitcvCheck 1,
       .waitcvClear 1, .waitcvDequeue 1, .waitcvSched 1, .kill 0 2, .schedule 1, .waitcvRelock 1,
       .mlockTry 1]])
    (fun t => decide ((Queued t ∧ OnCpus t ∧ PrioInRange t ∧ t.firstTime = false ∧ t.lock = none) ∧
      (t.cpu 1 = some 1 ∧ front (t.muxes 9).cv = some 1 ∧ (t.ring 0).buf 0 = some 0) ∧
      failure (step t (.exit 1)) = some .wild))
    (by decide +kernel)
  obtain ⟨h1,h2,h3⟩ := of_decide_eq_true ht
  exact ⟨t,hr,h1,h2,failure_eq_some.mp h3⟩

end Xv6.ReadyRuns
