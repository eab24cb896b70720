import Xv6.CoherentRuns
import Xv6.WaitLines

/-!
# Who holds the table lock

Between two sections `ptable.lock` is held by the thread in the middle part of
`sys_waitcv`, by the thread on its way back into the scan of `wait`, or by
nobody. A process on a CPU is marked `RUNNING`, in that part of `sys_waitcv`
`SLEEPING`. The process calls keep this from any such state.
-/

set_option autoImplicit false

namespace Xv6.LockHolders
open KernelState RingBuffer ReadyQueue ProcessCalls
open Machine ProcessFrames ProcessEffects
open ReadyInvariant Coherence WaitLines

variable {C : Type} {s t u : Kernel C} {c : C} {p q : Slot} {k : Pc} {a : Act C}

def lockPc : Pc → Bool
  | .waitScan => true
  | k => cvLock k

def mark (k : Pc) : ProcState := if cvLock k then .sleeping else .running

structure Manned (s : Kernel C) : Prop where
  state : ∀ c p, s.cpu c = some p → (s.proc p).state = mark (s.pc p)
  lock : ∀ p, s.lock = some p ↔ lockPc (s.pc p) = true

structure Unlocked (s : Kernel C) : Prop where
  state : ∀ c p, s.cpu c = some p → (s.proc p).state = .running
  pc : ∀ p, lockPc (s.pc p) = false

theorem lockPc_cvLock (h : lockPc k = false) : cvLock k = false := by
  cases k <;> simp_all [lockPc]

theorem mark_of (h : lockPc k = false) : mark k = .running := by
  simp [mark, lockPc_cvLock h]

theorem manned_unlocked (hs : Manned s) (hl : s.lock = none) : Unlocked s := by
  have hpc : ∀ p, lockPc (s.pc p) = false := by
    intro p
    by_contra h
    have hp := (hs.lock p).mpr (by simpa using h)
    simp [hl] at hp
  exact ⟨fun c p hc => (hs.state c p hc).trans (mark_of (hpc p)),hpc⟩

theorem unlocked_manned (hs : Unlocked s) (hl : s.lock = none) : Manned s :=
  ⟨fun c p hc => (hs.state c p hc).trans (mark_of (hs.pc p)).symm,fun p => by simp [hl, hs.pc p]⟩

/-- The thread that goes on with the scan of `wait` is the only one inside a
locked part. -/
theorem manned_waitScan (hs : Manned s) (hp : s.pc p = .waitScan) : Unlocked (s.setPc p .user) := by
  have hl := (hs.lock p).mpr (by simp [hp, lockPc])
  have hpc : ∀ q, q ≠ p → lockPc (s.pc q) = false := by
    intro q hq
    by_contra h
    have hql := (hs.lock q).mpr (by simpa using h)
    exact hq (Option.some.inj (hql.symm.trans hl))
  refine ⟨fun c q hc => ?_,fun q => ?_⟩
  · have hq := hs.state c q hc
    by_cases hqp : q = p
    · subst hqp
      simpa [hp, mark, cvLock] using hq
    · exact hq.trans (mark_of (hpc q hqp))
  · by_cases hqp : q = p
    · simp [hqp, lockPc, cvLock]
    · simpa [hqp] using hpc q hqp

variable [DecidableEq C]

section
variable (hs : Unlocked s)
include hs

section
omit [DecidableEq C]

theorem unlocked_mono (hcpu : t.cpu = s.cpu)
    (hst : ∀ q, (s.proc q).state = .running → (t.proc q).state = .running)
    (hpc : ∀ q, lockPc (t.pc q) = false) : Unlocked t :=
  ⟨fun c q hc => hst q (hs.state c q (hcpu ▸ hc)),hpc⟩

theorem unlocked_setPc (hk : lockPc k = false) : Unlocked (s.setPc p k) := by
  refine unlocked_mono hs rfl (fun _ => id) (fun q => ?_)
  by_cases hq : q = p
  · simpa [hq] using hk
  · simpa [hq] using hs.pc q

theorem unlocked_setProc {r : Proc} (hr : (s.proc q).state = .running → r.state = .running) :
    Unlocked (s.setProc q r) := by
  refine unlocked_mono hs rfl (fun x hx => ?_) hs.pc
  by_cases h : x = q
  · subst h
    simpa using hr hx
  · simpa [h] using hx

theorem unlocked_ret (v : ℤ) : Unlocked (ret s p v) :=
  unlocked_setPc (s := s.setProc p { s.proc p with eax := v }) (unlocked_setProc hs id) rfl

theorem unlocked_woken (h : Woken s t) : Unlocked t := by
  refine unlocked_mono hs (woken_cpu h) (fun q hq => ?_) (fun q => ?_)
  · rcases h.state q with hk | ⟨hk,-⟩
    · exact hk.trans hq
    · simp [hq] at hk
  · rw [woken_pc h]
    exact hs.pc q

theorem unlocked_makeRunnable (hq : (s.proc q).state ≠ .running) (h : makeRunnable s q = .ok t) :
    Unlocked t := by
  obtain ⟨k,-,-,rfl⟩ := makeRunnable_ok h
  have hu := unlocked_setProc (q := q) (r := { s.proc q with state := .runnable }) hs
    (fun h => absurd h hq)
  exact ⟨hu.state,hu.pc⟩

end

theorem unlocked_dispatch (h : dispatch s c p = .ok t) : Manned t := by
  have hst : ∀ {ch k l} (d : C) (x : Slot), (switchTo s c p ch k l).cpu d = some x →
      ((switchTo s c p ch k l).proc x).state = .running := by
    intro ch k l d x hd
    by_cases hx : x = p
    · simp [switchTo, hx]
    · by_cases hdc : d = c
      · have hd : some p = some x := by simpa [switchTo, hdc] using hd
        exact absurd (Option.some.inj hd).symm hx
      · simpa [switchTo, hx] using hs.state d x (by simpa [switchTo, hdc] using hd)
  obtain ⟨ch,k,l,rfl,⟨-,rfl,-,rfl⟩ | ⟨-,hr,-,rfl⟩⟩ := dispatch_ok h
  · refine unlocked_manned ⟨hst,fun x => ?_⟩ rfl
    by_cases hx : x = p <;> simpa [switchTo, hx] using hs.pc _
  · have hk : cvLock k = false ∧ (lockPc k = true ↔ k = .waitScan) := by
      cases hpc : s.pc p <;> simp only [hpc, resumePc, Option.some.injEq, reduceCtorEq] at hr <;>
        subst hr <;> simp [cvLock, lockPc]
    refine ⟨fun d x hd => (hst d x hd).trans ?_,fun x => ?_⟩
    · by_cases hx : x = p
      · simp [switchTo, hx, mark, hk.1]
      · simpa [switchTo, hx] using (mark_of (hs.pc x)).symm
    · by_cases hx : x = p
      · by_cases hw : k = .waitScan
        · simp [switchTo, hx, hw, lockPc]
        · simp [switchTo, hx, hw, hk.2]
      · have hx' : p ≠ x := fun h => hx h.symm
        by_cases hw : k = .waitScan
        · simp [switchTo, hx, hx', hw, hs.pc x]
        · simp [switchTo, hx, hw, hs.pc x]

theorem unlocked_scanFrom {i : ℕ} (h : scanFrom s c i = .ok t) : Manned t := by
  rcases scanFrom_ok h with rfl | ⟨q,-,hd⟩
  · exact unlocked_manned ⟨hs.state,hs.pc⟩ rfl
  · exact unlocked_dispatch (s := s.setScan c (some (q.val+1))) ⟨hs.state,hs.pc⟩ hd

end

theorem unlocked_sched (hs : Unlocked (s.setCpu c none)) (h : sched s c p = .ok t) : Manned t := by
  obtain ⟨-,-,-,⟨-,rfl⟩ | ⟨i,-,hf⟩⟩ := sched_ok h
  · exact unlocked_manned ⟨hs.state,hs.pc⟩ rfl
  · exact unlocked_scanFrom hs hf

theorem unlocked_leave (h : sched u c p = .ok t) (hs : Unlocked s) (ho : Coherent s)
    (hc : s.cpu c = some p) (hcpu : u.cpu = s.cpu) (hk : lockPc k = false)
    (hpc : u.pc = (s.setPc p k).pc)
    (hst : ∀ q, q ≠ p → (s.proc q).state = .running → (u.proc q).state = .running) : Manned t := by
  refine unlocked_sched ⟨fun d q hd => ?_,fun q => ?_⟩ h
  · by_cases hdc : d = c
    · simp [hdc] at hd
    · have hd : s.cpu d = some q := by simpa [hdc, hcpu] using hd
      refine hst q ?_ (hs.state d q hd)
      rintro rfl
      exact hdc (ho.single d c q hd hc)
  · change lockPc (u.pc q) = false
    rw [hpc]
    exact (unlocked_setPc hs hk).pc q

section
omit [DecidableEq C]

theorem manned_goto (hs : Manned s) (hk : lockPc k = lockPc (s.pc p))
    (hm : cvLock k = cvLock (s.pc p)) (hcpu : t.cpu = s.cpu) (hl : t.lock = s.lock)
    (hpc : t.pc = (s.setPc p k).pc)
    (hst : ∀ c q, s.cpu c = some q → (t.proc q).state = (s.proc q).state) : Manned t := by
  refine ⟨fun d q hd => ?_,fun q => ?_⟩
  · rw [hcpu] at hd
    rw [hst d q hd, hs.state d q hd, hpc]
    by_cases hq : q = p
    · simp [hq, mark, hm]
    · simp [hq]
  · rw [hl, hs.lock q, hpc]
    by_cases hq : q = p
    · simp [hq, hk]
    · simp [hq]

theorem ret_marks {v : ℤ} (q : Slot) : ((ret s p v).proc q).state = (s.proc q).state := by
  by_cases hq : q = p <;> simp [ret, hq]

theorem manned_ret (hs : Manned s) (hp : lockPc (s.pc p) = false) (v : ℤ) : Manned (ret s p v) :=
  manned_goto (p := p) (k := .user) hs (by rw [hp]; rfl) (by rw [lockPc_cvLock hp]; rfl) rfl rfl rfl
    (fun _ q _ => ret_marks q)

end

section Process
variable {np : Slot}

theorem manned_scheduler (hs : Manned s) (h : scheduler s c = .ok t) : Manned t := by
  obtain ⟨hl,-,-,⟨-,hf⟩ | ⟨-,hd⟩ | ⟨u,q,-,hd,hq⟩⟩ := scheduler_ok h
  · have hu := manned_unlocked hs hl
    exact unlocked_scanFrom (s := { s with firstTime := false }) ⟨hu.state,hu.pc⟩ hf
  · obtain ⟨rfl,-⟩ := pqDequeue_none hd
    exact hs
  · obtain ⟨k,rfl,-⟩ := pqDequeue_some hd
    have hu := manned_unlocked hs hl
    exact unlocked_dispatch (s := s.setRing k (pop (s.ring k))) ⟨hu.state,hu.pc⟩ hq

theorem manned_yield (hs : Manned s) (ho : Coherent s) (hc : s.cpu c = some p)
    (h : yield s c p = .ok t) : Manned t := by
  obtain ⟨-,hl,u,hu,h⟩ := yield_ok h
  obtain ⟨k,-,-,rfl⟩ := makeRunnable_ok hu
  have hun := manned_unlocked hs hl
  refine unlocked_leave (k := s.pc p) h hun ho hc rfl (hun.pc p) ?_ (fun q hq hr => ?_)
  · funext q
    by_cases hq : q = p <;> simp [setState, hq]
  · simpa [setState, hq] using hr

theorem unlocked_sleepOn {ch : Chan} (hs : Unlocked (s.setPc p .user)) (ho : Coherent s)
    (hc : s.cpu c = some p) (hk : lockPc k = false) (h : sleepOn s c p ch k = .ok t) :
      Manned t := by
  refine unlocked_leave (s := s.setPc p .user) h hs ?_ hc rfl hk ?_ (fun q hq hr => ?_)
  · exact coherent_goto ho hc rfl (by simp [Plain]) rfl
  · funext q
    by_cases hq : q = p <;> simp [hq]
  · simpa [hq] using hr

theorem unlocked_waitScan (hs : Unlocked (s.setPc p .user)) (ho : Coherent s)
    (hc : s.cpu c = some p) (h : waitScan s c p = .ok t) : Manned t := by
  have hret : ∀ {u : Kernel C} {v : ℤ}, Unlocked (u.setPc p .user) →
      Manned ((ret u p v).setLock none) := by
    intro u v hu
    refine unlocked_manned (unlocked_mono hu rfl (fun q hq => ?_) hu.pc) rfl
    exact (ret_marks q).trans hq
  rcases waitScan_ok h with ⟨q,hz,-,rfl⟩ | ⟨rfl,-⟩ | ⟨h,-⟩
  · refine hret (unlocked_mono hs rfl (fun x hx => ?_) (fun x => ?_))
    · have hxq : x ≠ q := by
        rintro rfl
        simp [hz] at hx
      simpa [freeSlot, hxq] using hx
    · have hx := hs.pc x
      by_cases hxp : x = p
      · simp [hxp, lockPc, cvLock]
      · by_cases hxq : x = q
        · subst hxq
          simp [freeSlot, hxp, lockPc, cvLock]
        · simpa [freeSlot, hxp, hxq] using hx
  · exact hret hs
  · exact unlocked_sleepOn hs ho hc rfl h

theorem manned_exit (hs : Manned s) (ho : Coherent s) (hc : s.cpu c = some p)
    (h : exit s c p = .ok t) : Manned t := by
  obtain ⟨-,hl,-,u,hw,h⟩ := exit_ok h
  have hun := manned_unlocked hs hl
  have hu : Unlocked u := unlocked_woken (s := s.setLock (some p)) ⟨hun.state,hun.pc⟩ hw
  have hou : Coherent u := coherent_woken (coherent_setLock ho _) hw
  have hcu : u.cpu c = some p := by rw [woken_cpu hw]; exact hc
  refine unlocked_leave (k := .exited) h hu hou hcu rfl rfl rfl (fun q hq hr => ?_)
  simpa [retired, forget, released, setState, hq] using hr

section
omit [DecidableEq C]

theorem manned_fork (hs : Manned s) (h : fork s p = .ok t) : Manned t := by
  obtain ⟨hl,rfl | ⟨np,hn,rfl⟩⟩ := fork_ok h
  · have hu := unlocked_ret (p := p) (manned_unlocked hs hl) (-1)
    exact unlocked_manned ⟨hu.state,hu.pc⟩ rfl
  · have hu := unlocked_setPc (p := p) (k := .forkAlloc np)
      (unlocked_setProc (q := np) (r := { s.proc np with state := .embryo, pid := s.nextpid })
        (manned_unlocked hs hl) (by simp [hn])) rfl
    exact unlocked_manned ⟨hu.state,hu.pc⟩ rfl

theorem manned_forkPublish (hs : Manned s) (ho : Coherent s) (hf : Forking s p np)
    (h : forkPublish s p np = .ok t) : Manned t := by
  obtain ⟨hl,u,hu,rfl⟩ := forkPublish_ok h
  have hun := manned_unlocked hs hl
  have he : (s.proc np).state ≠ .running := by simp [ho.embryo p np hf]
  have hu := unlocked_makeRunnable (s := s.setLock (some p)) ⟨hun.state,hun.pc⟩ he hu
  have hv := unlocked_setPc (p := p) (k := .forkShare np (u.proc np).pid)
    (unlocked_setPc (p := np) (k := .newborn) hu rfl) rfl
  exact unlocked_manned ⟨hv.state,hv.pc⟩ rfl

theorem manned_given (hs : Manned s) (hp : lockPc (s.pc p) = false) (hk : lockPc k = false)
    {r : Proc} (hn : ∀ c, s.cpu c = some np → r.state = (s.proc np).state) (hcpu : t.cpu = s.cpu)
    (hl : t.lock = s.lock) (hpc : t.pc = (s.setPc p k).pc)
    (hst : ∀ q, (t.proc q).state = ((s.setProc np r).proc q).state) : Manned t := by
  refine manned_goto hs (hk.trans hp.symm)
    ((lockPc_cvLock hk).trans (lockPc_cvLock hp).symm) hcpu hl
    hpc (fun c q hc => ?_)
  rw [hst q]
  by_cases hq : q = np
  · subst hq
    simpa using hn c hc
  · simp [hq]

end

theorem manned_process (hs : Manned s) (ho : Coherent s) (ha : isProcessCall a = true)
    (h : step s a = .ok t) : Manned t := by
  cases a <;> simp only [isProcessCall, Bool.false_eq_true] at ha
  case schedule c => exact manned_scheduler hs h
  case wakeup ch =>
    obtain ⟨hl,hw⟩ := wakeup_ok h
    refine unlocked_manned (unlocked_woken (manned_unlocked hs hl) hw) ?_
    rw [hw.frame]
    exact hl
  case yield c =>
    obtain ⟨p,hc,h⟩ := onCpu_ok h
    exact manned_yield hs ho hc h
  case sleep c ch =>
    obtain ⟨p,hc,-,h⟩ := call_ok h
    obtain ⟨hl,h⟩ := acquire_then h
    have hu := unlocked_setPc (p := p) (k := .user) (manned_unlocked hs hl) rfl
    exact unlocked_sleepOn (s := s.setLock (some p)) ⟨hu.state,hu.pc⟩
      (coherent_setLock ho _) hc rfl h
  case kill c pid =>
    obtain ⟨p,hc,-,h⟩ := call_ok h
    obtain ⟨hl,rfl | ⟨q,u,-,hu,rfl⟩⟩ := kill_ok h
    · have hu := unlocked_ret (p := p) (manned_unlocked hs hl) (-1)
      exact unlocked_manned ⟨hu.state,hu.pc⟩ rfl
    · have hun := manned_unlocked hs hl
      have hv := unlocked_ret (p := p) (unlocked_woken (s := s.setLock (some p)) ⟨hun.state,hun.pc⟩
        (markKilled_ok hu)) 0
      exact unlocked_manned ⟨hv.state,hv.pc⟩ rfl
  case exit c =>
    obtain ⟨p,hc,-,h⟩ := call_ok h
    exact manned_exit hs ho hc h
  case wait c =>
    obtain ⟨p,hc,-,h⟩ := call_ok h
    obtain ⟨hl,h⟩ := acquire_then h
    have hu := unlocked_setPc (p := p) (k := .user) (manned_unlocked hs hl) rfl
    exact unlocked_waitScan (s := s.setLock (some p)) ⟨hu.state,hu.pc⟩ (coherent_setLock ho _) hc h
  case waitScan c =>
    obtain ⟨p,hc,h⟩ := onCpu_ok h
    split at h
    · exact unlocked_waitScan (manned_waitScan hs ‹_›) ho hc h
    · simp at h
  case fork c =>
    obtain ⟨p,hc,-,h⟩ := call_ok h
    exact manned_fork hs h
  all_goals
    obtain ⟨p,hc,h⟩ := onCpu_ok h
    split at h
    case h_2 => simp at h
    rename_i hpc
  · cases h
    refine manned_given (k := .user) hs (by simp [hpc, lockPc, cvLock]) rfl (fun d hd =>
      ?_) rfl rfl rfl
      (fun q => ret_marks q)
    exact absurd (dead_embryo (ho.embryo p _ (.inl hpc))) (ho.live d _ hd)
  · cases h
    refine manned_given (k := .user) hs (by simp [hpc, lockPc, cvLock]) rfl (fun d hd =>
      ?_) rfl rfl rfl
      (fun q => ret_marks q)
    exact absurd (dead_embryo (ho.embryo p _ (.inl hpc))) (ho.live d _ hd)
  · cases h
    exact manned_given hs (by simp [hpc, lockPc, cvLock]) rfl (fun _ _ => by rfl) rfl rfl rfl
      (fun _ => rfl)
  · exact manned_forkPublish hs ho (.inr hpc) h
  · cases h
    exact manned_given hs (by simp [hpc, lockPc, cvLock]) rfl (fun _ _ => by rfl) rfl rfl rfl
      (fun _ => rfl)
  · cases h
    exact manned_given (k := .user) hs (by simp [hpc, lockPc, cvLock]) rfl
      (fun _ _ => by rfl) rfl rfl
      rfl (fun q => ret_marks q)

end Process

end Xv6.LockHolders
