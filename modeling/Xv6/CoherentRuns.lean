import Xv6.Coherence

/-!
# Coherence along the calls

Every section of every call but `userinit` keeps the control state coherent,
unless a process exits that stands in a queue or is about to be woken.
-/

set_option autoImplicit false

namespace Xv6.CoherentRuns
open KernelState RingBuffer NullQueue ReadyQueue ProcessCalls MutexCalls
open Machine ProcessFrames ProcessEffects MutexEffects
open ReadyInvariant Coherence

variable {C : Type} [DecidableEq C] {s t u : Kernel C} {c : C} {p q np : Slot} {m : MuxId}
  {a : Act C}

section
variable (hs : Coherent s)
include hs

theorem coherent_scheduler (h : scheduler s c = .ok t) : Coherent t := by
  obtain ⟨-,-,-,⟨-,hf⟩ | ⟨-,hd⟩ | ⟨u,q,-,hd,hq⟩⟩ := scheduler_ok h
  · exact coherent_scanFrom (s := { s with firstTime := false })
      (coherent_mono hs rfl rfl rfl (fun _ => .inl rfl) (fun _ => .inl)) hf
  · obtain ⟨rfl,-⟩ := pqDequeue_none hd
    exact hs
  · obtain ⟨k,rfl,-⟩ := pqDequeue_some hd
    exact coherent_dispatch (s := s.setRing k (pop (s.ring k)))
      (coherent_mono hs rfl rfl rfl (fun _ => .inl rfl) (fun _ => .inl)) hq

theorem coherent_yield (hc : s.cpu c = some p) (h : yield s c p = .ok t) : Coherent t := by
  obtain ⟨-,-,u,hu,h⟩ := yield_ok h
  have hk := coherent_makeRunnable (coherent_setLock hs (some p)) (hs.live c p hc) hu
  obtain ⟨k,-,-,rfl⟩ := makeRunnable_ok hu
  refine coherent_sched ?_ h
  refine coherent_leave hk hc rfl rfl (fun _ => rfl) (fun _ _ => rfl) (fun _ => id) (fun _ => id)
    (fun q hq => by simp [hq]) (fun _ => ?_) (fun _ _ => rfl) (.inl (by simp [Dead]))
  have hb := hk.awake c p hc
  simp only [blocked, not_or, not_not] at hb
  exact hb.2

theorem coherent_exit (hc : s.cpu c = some p) (hw : ¬Waits s p) (h : exit s c p = .ok t) :
    Coherent t := by
  obtain ⟨-,-,-,u,hu,h⟩ := exit_ok h
  have hk := coherent_woken (coherent_setLock hs (some p)) hu
  have hcu : u.cpu c = some p := by
    rw [woken_cpu hu]
    exact hc
  have hpre : u.preempted p ≠ true := fun h => hk.awake c p hcu (.inl h)
  have hwu : ¬Waits u p := by
    rw [Waits, woken_pc hu, woken_muxes hu, show u.wqueue = s.wqueue by rw [hu.frame]; rfl]
    exact hw
  refine coherent_sched ?_ h
  refine coherent_leave hk hcu rfl rfl (fun m => ?_)
    (fun q hq => by simp [retired, forget, released, hq])
    (fun np hf => ?_) (fun q hq => ?_) (fun _ _ => rfl) (fun h => absurd h hpre) (fun q hq => ?_)
    (.inr ⟨?_,hwu⟩)
  · simp only [retired, forget, released, setState, Kernel.setCpu_muxes, Kernel.setPc_muxes,
      Kernel.setProc_muxes]
    split <;> rfl
  · simp [Forking, retired] at hf
  · simp [retired, waker] at hq
  · simp [retired, forget, released, hq]
  · rintro (h | h)
    · exact hpre h
    · simp [retired, resumePc] at h

theorem coherent_waitScan (hc : s.cpu c = some p) (h : waitScan s c p = .ok t) : Coherent t := by
  rcases waitScan_ok h with ⟨q,hz,-,rfl⟩ | ⟨rfl,-⟩ | ⟨h,-⟩
  · have hd : Dead (s.proc q).state := .inr (.inr hz)
    have hf : Coherent (freeSlot s q) := by
      refine coherent_absent (coherent_dead hs hd _ (.inl rfl) (fun x hx => ?_)) (by simp [Dead])
      have he := hs.embryo x q hx
      simp [hz] at he
    exact coherent_setLock (coherent_ret (c := c) hf hc _) none
  · exact coherent_setLock (coherent_ret hs hc _) none
  · exact coherent_sleep hs hc rfl (by simp [resumePc]) h

section
omit [DecidableEq C]

theorem coherent_fork (hc : s.cpu c = some p) (h : fork s p = .ok t) : Coherent t := by
  rcases (fork_ok h).2 with rfl | ⟨np,hu,rfl⟩
  · exact coherent_setLock (coherent_ret (c := c) (coherent_setLock hs _) hc _) none
  · have hn : ∀ x, ¬Forking s x np := by
      intro x hx
      have he := hs.embryo x np hx
      simp [hu] at he
    have hd := coherent_dead (q := np) hs (.inl hu)
      { s.proc np with state := .embryo, pid := s.nextpid } (.inr (.inl rfl)) (fun x hx =>
        absurd hx (hn x))
    have hk : Coherent ((s.setProc np { s.proc np with state := .embryo, pid := s.nextpid }).setPc p
        (.forkAlloc np)) := by
      refine coherent_setPc hd hc rfl (fun x hx => ?_) (by simp [waker])
      rcases hx with h | h
      · obtain rfl := Pc.forkAlloc.inj h
        exact ⟨by simp,fun x hx => absurd hx (hn x)⟩
      · simp at h
    exact coherent_mono hk rfl rfl rfl (fun _ => .inl rfl) (fun _ => .inl)

theorem coherent_release (hc : s.cpu c = some p) (hf : Forking s p np) {k : Pc}
    (hr : resumePc k = none) (hk : Plain k) (hw : waker k = none) :
    Coherent (s.setPc p k) ∧ Dead (s.proc np).state ∧ ∀ x, ¬Forking (s.setPc p k) x np := by
  refine ⟨coherent_goto hs hc hr hk hw,dead_embryo (hs.embryo p np hf),fun x hx => ?_⟩
  by_cases h : x = p
  · simp [Forking, h, hk np] at hx
  · exact h (hs.owner x p np (by simpa [Forking, h] using hx) hf)

theorem coherent_forkFail (hc : s.cpu c = some p) (hf : Forking s p np) (r : Proc)
    (hr : r.state = .unused) : Coherent (ret (s.setProc np r) p (-1)) := by
  obtain ⟨hk,hd,hn⟩ := coherent_release (k := .user) hs hc hf rfl (by simp [Plain]) rfl
  have hi := coherent_dead hk hd r (.inl hr) (fun x hx => absurd hx (hn x))
  have ht : Coherent (((s.setPc p .user).setProc np r).setProc p
      { ((s.setPc p .user).setProc np r).proc p with eax := -1 }) :=
    coherent_setProc hi _ (.inl rfl)
  exact ht

theorem coherent_forkPublish (hc : s.cpu c = some p) (hf : Forking s p np)
    (h : forkPublish s p np = .ok t) : Coherent t := by
  obtain ⟨-,u,hu,rfl⟩ := forkPublish_ok h
  have hnp : np ≠ p := by
    rintro rfl
    exact hs.live c np hc (dead_embryo (hs.embryo np np hf))
  obtain ⟨hk,hd,hn⟩ := coherent_release (k := .forkShare np (u.proc np).pid) hs hc hf rfl
    (by simp [Plain]) rfl
  have hp := coherent_publish hk hd hn
  rw [setPc_comm hnp]
  obtain ⟨k,-,-,rfl⟩ := makeRunnable_ok hu
  exact coherent_mono hp rfl rfl rfl (fun _ => .inl rfl) (fun _ => .inl)

end

theorem coherent_process (ha : isProcessCall a = true)
    (hx : ∀ c p, a = .exit c → s.cpu c = some p → ¬Waits s p) (h : step s a = .ok t) :
    Coherent t := by
  cases a <;> simp only [isProcessCall, Bool.false_eq_true] at ha
  case schedule c => exact coherent_scheduler hs h
  case wakeup ch => exact coherent_woken hs (wakeup_ok h).2
  case yield c =>
    obtain ⟨p,hc,h⟩ := onCpu_ok h
    exact coherent_yield hs hc h
  case sleep c ch =>
    obtain ⟨p,hc,-,h⟩ := call_ok h
    exact coherent_sleep (coherent_setLock hs (some p)) hc rfl (by simp [resumePc])
      (acquire_then h).2
  case kill c pid =>
    obtain ⟨p,hc,-,h⟩ := call_ok h
    rcases (kill_ok h).2 with rfl | ⟨q,u,-,hu,rfl⟩
    · exact coherent_setLock (coherent_ret (c := c) (coherent_setLock hs _) hc _) none
    · have hu := markKilled_ok hu
      have hk := coherent_woken (coherent_setLock hs _) hu
      exact coherent_setLock (coherent_ret (c := c) hk (by rw [woken_cpu hu]; exact hc) _) none
  case exit c =>
    obtain ⟨p,hc,-,h⟩ := call_ok h
    exact coherent_exit hs hc (hx c p rfl hc) h
  case wait c =>
    obtain ⟨p,hc,-,h⟩ := call_ok h
    exact coherent_waitScan (coherent_setLock hs (some p)) hc (acquire_then h).2
  case waitScan c =>
    obtain ⟨p,hc,h⟩ := onCpu_ok h
    split at h
    · exact coherent_waitScan hs hc h
    · simp at h
  case fork c =>
    obtain ⟨p,hc,-,h⟩ := call_ok h
    exact coherent_fork hs hc h
  all_goals
    obtain ⟨p,hc,h⟩ := onCpu_ok h
    split at h
    case h_2 => simp at h
    rename_i hpc
  · cases h
    exact coherent_forkFail hs hc (.inl hpc) _ rfl
  · cases h
    exact coherent_forkFail hs hc (.inl hpc) _ rfl
  · rename_i np
    cases h
    have hf : Forking s p np := .inl hpc
    refine coherent_setPc (coherent_setProc hs _ (.inl (by rfl))) hc rfl (fun x hx => ?_)
      (by simp [waker])
    rcases hx with h | h
    · simp at h
    · obtain rfl := Pc.forkReady.inj h
      exact ⟨by simpa using hs.embryo p np hf,fun x hx => hs.owner x p np hx hf⟩
  · exact coherent_forkPublish hs hc (.inr hpc) h
  · cases h
    exact coherent_goto (coherent_setProc hs _ (.inl (by rfl))) hc rfl (by simp [Plain]) rfl
  · cases h
    exact coherent_ret (coherent_setProc hs _ (.inl (by rfl))) hc _

theorem coherent_sync (hc : s.cpu c = some p) (h : Sync s c p a t) : Coherent t := by
  have hlive := hs.live c p hc
  have hgo : ∀ {k : Pc}, resumePc k = none → Plain k → waker k = none → Coherent (s.setPc p k) :=
    fun h1 h2 h3 => coherent_goto hs hc h1 h2 h3
  have hret : ∀ v, Coherent (ret s p v) := fun v => coherent_ret hs hc v
  have hsame : ∀ {u : Kernel C}, u.proc = s.proc → u.cpu = s.cpu → u.pc = s.pc →
      u.preempted = s.preempted → u.wqueue = s.wqueue → (∀ i, (u.muxes i).cv = (s.muxes i).cv) →
      Coherent u := by
    intro u h1 h2 h3 h4 h5 h6
    refine coherent_mono hs h2 h3 h4 (fun q => .inl (by rw [h1])) (fun q hq => .inl ?_)
    rw [Waits, h5, h3] at hq
    simp only [h6] at hq
    exact hq
  have hwake : ∀ {q : Slot} {u : Kernel C}, waker (s.pc p) = some q →
      makeRunnable (s.setLock (some p)) q = .ok u → Coherent ((ret u p 1).setLock none) := by
    intro q u hq hu
    have hk := coherent_makeRunnable (coherent_setLock hs (some p))
      (fun hd => hs.clear q hd (.inr (.inr ⟨p,hq⟩))) hu
    have hcu : u.cpu c = some p := by
      obtain ⟨k,-,-,rfl⟩ := makeRunnable_ok hu
      exact hc
    exact coherent_setLock (coherent_ret hk hcu 1) none
  cases h with
  | mlock | waitcvDequeue | waitcvRelock | signalcv | munlock | waitcvCheck =>
    exact hgo rfl (by simp [Plain]) rfl
  | mlockRefused | munlockRefused | waitcvFull | waitcvRefused | relockRefused | signalRefused
  | signalEmpty | munlockEmpty => exact hret _
  | mlockFull =>
    exact coherent_mono (hret 0) rfl rfl rfl (fun _ => .inl rfl) (fun _ => .inl)
  | @mlockEnroll _ _ w pc locked enrolled =>
    have hj : Coherent (s.setWqueue w) := by
      refine coherent_mono hs rfl rfl rfl (fun _ => .inl rfl) (fun q hq => ?_)
      exact (waits_enroll enrolled hq).imp_right (by rintro rfl; exact hlive)
    exact coherent_goto hj hc rfl (by simp [Plain]) rfl
  | @mlockTake _ m pc _ =>
    have ht : Coherent (take s p m) := hsame rfl rfl rfl rfl rfl take_cv
    exact coherent_ret ht hc 1
  | mlockSleep pc hf left =>
    exact coherent_sleep (coherent_setLock hs (some p)) hc rfl (by simp [resumePc]) left
  | waitcvSched pc left =>
    refine coherent_sched ?_ left
    refine coherent_leave hs hc rfl rfl (fun _ => rfl) (fun q hq => by simp [hq])
      (fun np hf => by simp [Forking] at hf) (fun q hq => by simp [waker] at hq) (fun _ _ => rfl)
      (fun h => absurd (.inl h) (hs.awake c p hc)) (fun _ _ => rfl) (.inl hlive)
  | @munlockClear m pc | @waitcvClear m pc =>
    have ht : Coherent (MutexCalls.clear s p m) := hsame rfl rfl rfl rfl rfl clear_cv
    exact coherent_goto ht hc rfl (by simp [Plain]) rfl
  | @munlockDequeue m q pc head =>
    have hq : ¬Dead (s.proc q).state := fun hd => hs.clear q hd (.inl (front_mem _ _ head))
    have hj : Coherent (s.setWqueue (shift s.wqueue)) :=
      coherent_mono hs rfl rfl rfl (fun _ => .inl rfl) (fun x hx => .inl (waits_shift hx))
    refine coherent_setPc hj hc rfl (by simp) (fun x hx => ?_)
    cases hx
    exact hq
  | munlockWake pc hf woken | signalWake pc hf woken => exact hwake (by rw [pc]; rfl) woken
  | @waitcv _ m w user index enrolled =>
    have hj : Coherent (joinCv s p m w) := by
      refine coherent_mono hs rfl rfl rfl (fun _ => .inl rfl) (fun q hq => ?_)
      exact (waits_join enrolled hq).imp_right (by rintro rfl; exact hlive)
    exact coherent_goto hj hc rfl (by simp [Plain]) rfl
  | @waitcvSleep m pc =>
    have hj : Coherent (setState (s.setLock (some p)) p .sleeping) :=
      coherent_setProc (coherent_setLock hs (some p)) _ (.inr ⟨hlive,by simp [Dead]⟩)
    exact coherent_goto hj hc rfl (by simp [Plain]) rfl
  | @signalDequeue m q pc head =>
    have hq : ¬Dead (s.proc q).state :=
      fun hd => hs.clear q hd (.inr (.inl ⟨m,front_mem _ _ head⟩))
    have hj : Coherent (leaveCv s m q) :=
      coherent_mono hs rfl rfl rfl (fun _ => .inl rfl) (fun x hx => .inl (waits_leave hx))
    refine coherent_setPc hj hc rfl (by simp) (fun x hx => ?_)
    cases hx
    exact hq

end

def ExitsClear (s : Kernel C) (a : Act C) : Prop :=
  isKernelCall a = true ∧ ∀ c p, a = .exit c → s.cpu c = some p → ¬Waits s p

theorem coherent_step (hs : Coherent s) (ha : ExitsClear s a) (h : step s a = .ok t) :
    Coherent t := by
  obtain ⟨hk,hx⟩ := ha
  cases hy : isSyncCall a with
  | true =>
    obtain ⟨c,p,hc,hsync⟩ := sync_step hy h
    exact coherent_sync hs hc hsync
  | false =>
  cases hr : isProcessCall a with
  | true => exact coherent_process hs hr hx h
  | false =>
  have hsame : ∀ {u : Kernel C}, u.cpu = s.cpu → u.pc = s.pc → u.preempted = s.preempted →
      (∀ q, (u.proc q).state = (s.proc q).state) → u.wqueue = s.wqueue →
      (∀ i, (u.muxes i).cv = (s.muxes i).cv) → Coherent u := by
    intro u h1 h2 h3 h4 h5 h6
    refine coherent_mono hs h1 h2 h3 (fun q => .inl (h4 q)) (fun q hq => .inl ?_)
    rw [Waits, h5, h2] at hq
    simp only [h6] at hq
    exact hq
  have hst : ∀ {l q r}, r.state = (s.proc q).state → Coherent ((s.setLock l).setProc q r) :=
    fun h => coherent_setProc (coherent_setLock hs _) _ (.inl h)
  have hpop : ∀ {c p e n} {u : Kernel C}, s.cpu c = some p →
      (u = s ∨ ∃ k, u = s.setRing k (pop (s.ring k))) →
      Coherent (u.setPc p (.testpqdqLoop e n)) := by
    intro c p e n u hc hu
    have hj : Coherent u ∧ u.cpu = s.cpu := by
      rcases hu with rfl | ⟨k,rfl⟩
      · exact ⟨hs,rfl⟩
      · exact ⟨hsame rfl rfl rfl (fun _ => rfl) rfl (fun _ => rfl),rfl⟩
    exact coherent_goto hj.1 (hj.2 ▸ hc) rfl (by simp [Plain]) rfl
  obtain ⟨c,p,-,h⟩ | ⟨c,p,hc,ho⟩ := other_step hk hr hy h
  · exact coherent_dispatch hs (resume_ok h).2.2.2
  cases ho with
  | prioKept l v => exact coherent_setLock (coherent_ret (coherent_setLock hs l) hc v) _
  | prioOwn => exact coherent_ret (coherent_setProc hs _ (.inl (by rfl))) hc 1
  | prioBelow q => exact coherent_setLock (coherent_ret (hst (by rfl)) hc 1) none
  | mcreateFull | mdeleteRefused | testpqdqDone => exact coherent_ret hs hc _
  | mcreate m =>
    refine coherent_ret (s := createMux s p m _) (hsame rfl rfl rfl (fun q => ?_) rfl
      (fun i => ?_)) hc _
    · by_cases hq : q = p <;> simp [createMux, hq]
    · by_cases hi : i = m <;> simp [createMux, hi]
  | mdeleteShared | mdelete => exact coherent_goto hs hc rfl (by simp [Plain]) rfl
  | mdeleteFree m =>
    have hj : Coherent (freeMux s m) := hsame rfl rfl rfl (fun _ => rfl) rfl (fun i => by
      by_cases hi : i = m <;> simp [freeMux, hi])
    exact coherent_goto hj hc rfl (by simp [Plain]) rfl
  | mdeleteDrop => exact coherent_ret (coherent_setProc hs _ (.inl (by rfl))) hc 1
  | testpqeq r v user free state muxPtrs priority put =>
    rcases put with rfl | ⟨k,rfl⟩
    · exact coherent_setLock (coherent_ret (hst state) hc v) none
    · have hj := coherent_mono (t := ((s.setLock (some p)).setProc p r).setRing k
        (push (s.ring k) (some p))) (hst state) rfl rfl rfl (fun _ => .inl rfl) (fun _ => .inl)
      exact coherent_setLock (coherent_ret hj hc v) none
  | testpqdq e user taken | testpqdqNext e n pc taken => exact hpop hc taken

end Xv6.CoherentRuns
