import Xv6.WakeInvariant

/-!
# Wakeups keep the ready queues consistent

Runs of the synchronisation calls with `kill`, `yield` and the scheduler. The
queues stay consistent, and every wakeup finds its process asleep, when no
waiter is taken from its queue before it sleeps, no kill wakes a waiter and
`sys_testpqdq` takes no entry.
-/

set_option autoImplicit false

namespace Xv6.WakeConsistency
open KernelState RingBuffer NullQueue ReadyQueue ProcessCalls MutexCalls
open Machine ProcessFrames ProcessEffects MutexEffects TransitionRun
open ReadyInvariant ReadyRuns Coherence WaitLines WakeInvariant

variable {C : Type} [DecidableEq C] {s t u : Kernel C} {c : C} {p q : Slot} {m : MuxId}

def isQueueCall : Act C → Bool
  | .testpqeq _ | .testpqdq _ | .testpqdqNext _ | .kill _ _ | .yield _ | .schedule _ => true
  | _ => false

def Disturbs (s : Kernel C) (a : Act C) : Prop :=
  (∃ c p m q, a = .munlockDequeue c ∧ s.cpu c = some p ∧ s.pc p = .munlockDequeue m ∧
    front s.wqueue = some q ∧ joining (s.pc q) = true) ∨
  (∃ c p m q, a = .signalDequeue c ∧ s.cpu c = some p ∧ s.pc p = .signalDequeue m ∧
    front (s.muxes m).cv = some q ∧ joining (s.pc q) = true) ∨
  (∃ c pid q, a = .kill c pid ∧ (s.proc q).pid = pid ∧ (s.proc q).state = .sleeping ∧
    waiting (s.pc q) = true) ∨
  ∃ c, (a = .testpqdq c ∨ a = .testpqdqNext c) ∧ (pqDequeue s).2 ≠ none

section
variable (hs : Calm s) (hc : s.cpu c = some p)
include hs hc

theorem calm_mlockSleep {via : Via} (hl : s.lock = none)
    (hlines : Lines ((((setState (s.setLock (some p)) p .sleeping).setPc p
      (.mlockAsleep via m)).setCpu c none).setLock none)) :
    Calm ((((setState (s.setLock (some p)) p .sleeping).setPc p
      (.mlockAsleep via m)).setCpu c none).setLock none) := by
  have hrun := calm_running hs hc (calm_unlocked hs hl p)
  refine calm_unlock ?_ rfl (fun q => ?_) hlines ?_
  · exact consistent_leave (consistent_setLock (calm_free hs hl) (some p)) hc _
      (.inl ⟨rfl,by simp [resumePc]⟩) ((calm_free hs hl).prio p) (by simp [Plain])
  · by_cases hq : q = p
    · simp [hq, cvLock]
    · simpa [hq] using calm_unlocked hs hl q
  · exact sleepers_mark (p := p) hs.toSleepers (by simp [hrun]) (by simp [waker])
      (fun q hq => by simp [hq]) rfl rfl rfl

omit [DecidableEq C] in
/-- A waiter enters the locked part of `sys_waitcv`. -/
theorem calm_waitcvSleep (hl : s.lock = none)
    (hlines : Lines ((setState (s.setLock (some p)) p .sleeping).setPc p (.waitcvCheck m))) :
    Calm ((setState (s.setLock (some p)) p .sleeping).setPc p (.waitcvCheck m)) := by
  have hfree := calm_free hs hl
  have hrun := calm_running hs hc (calm_unlocked hs hl p)
  have hcv : ∀ q, cvLock (((setState (s.setLock (some p)) p .sleeping).setPc p
      (.waitcvCheck m)).pc q) = decide (q = p) := by
    intro q
    by_cases hq : q = p
    · simp [hq, cvLock]
    · simp [hq, calm_unlocked hs hl q]
  refine ⟨?_,?_,hlines,fun q => ?_,fun q hq => ?_⟩
  · exact sleepers_mark (p := p) hs.toSleepers (by simp [hrun]) (by simp [waker])
      (fun q hq => by simp [hq]) rfl rfl rfl
  · have hgo := consistent_goto (k := .waitcvCheck m) hfree (running_awake hrun) (by simp [Plain])
    refine consistent_congr hgo rfl rfl rfl rfl rfl rfl (fun q => ?_) (fun q => ?_)
    · rw [view_state, hcv q]
      by_cases hq : q = p <;> simp [hq, hrun]
    · rw [view_priority]
      by_cases hq : q = p
      · simpa [hq] using hfree.prio p
      · simpa [hq] using hfree.prio q
  · rw [hcv q]
    simp [eq_comm]
  · rw [hcv q, decide_eq_true_eq] at hq
    simp [hq]

theorem calm_waitcvSched (hp : s.pc p = .waitcvSched m)
    (hlines : Lines (((s.setPc p (.waitcvAsleep m)).setCpu c none).setLock none)) :
    Calm (((s.setPc p (.waitcvAsleep m)).setCpu c none).setLock none) := by
  have hz := hs.marked p (by simp [hp, cvLock])
  have hlock := (hs.lock p).mpr (by simp [hp, cvLock])
  have hout : ∀ q, q ≠ p → cvLock (s.pc q) = false := by
    intro q hq
    by_contra h
    have h := (hs.lock q).mpr (by simpa using h)
    exact hq (Option.some.inj (h.symm.trans hlock))
  refine calm_unlock ?_ rfl (fun q => ?_) hlines ?_
  · have hleave := consistent_leave (k := .waitcvAsleep m) hs.consistent hc (s.proc p)
      (.inl ⟨hz,by simp [resumePc]⟩) (by simpa [view_priority] using hs.consistent.prio p)
      (by simp [Plain])
    refine consistent_congr hleave rfl rfl rfl rfl rfl rfl (fun q => ?_) (fun q => ?_)
    · by_cases hq : q = p
      · simp [hq]
      · simp [hq, view_state, hout q hq]
    · simpa [view_priority] using hs.consistent.prio q
  · by_cases hq : q = p
    · simp [hq, cvLock]
    · simpa [hq] using hout q hq
  · exact sleepers_mark (p := p) hs.toSleepers (by simp [hz]) (by simp [waker, hz])
      (fun q hq => by simp [hq]) rfl rfl rfl

omit [DecidableEq C] in
theorem calm_wake (hp : waker (s.pc p) = some q) (hl : s.lock = none)
    (hu : makeRunnable (s.setLock (some p)) q = .ok u) (hlines : Lines ((ret u p 1).setLock none)) :
    Calm ((ret u p 1).setLock none) := by
  have hz := hs.target p q hp
  have hfree := consistent_setLock (calm_free hs hl) (some p)
  have hrun := calm_running hs hc (calm_unlocked hs hl p)
  obtain ⟨v,hv,hw⟩ := wakes_makeRunnable (q := q) hfree.queued hfree.prio hz
  obtain rfl := Except.ok.inj (hu.symm.trans hv)
  have hcons := consistent_wakes hfree hw
  have hqp : q ≠ p := by
    rintro rfl
    simp [hrun] at hz
  obtain ⟨hf1,hf2,hf3⟩ := lines_flight hs.lines hp
  obtain ⟨k,-,-,rfl⟩ := makeRunnable_ok hu
  have hk : ∀ x r, waker (if x = p then .user else s.pc x) = some r →
      x ≠ p ∧ r ≠ q ∧ waker (s.pc x) = some r := by
    intro x r hx
    by_cases hxp : x = p
    · simp [hxp, waker] at hx
    · simp only [hxp, if_false] at hx
      refine ⟨hxp,?_,hx⟩
      rintro rfl
      exact hxp (hf3 x hx)
  refine calm_unlock (consistent_setLock
    (consistent_ret hcons (consistent_running hcons hc) 1) none)
    rfl (fun x => ?_) hlines ⟨fun x hx => ?_,fun x hx => ?_,fun x r hx => ?_⟩
  · by_cases hxp : x = p
    · simp [ret, hxp, cvLock]
    · simpa [ret, hxp] using calm_unlocked hs hl x
  · have hr := hs.ticked x hx
    have hxp : x ≠ p := by
      rintro rfl
      simp [hrun] at hr
    by_cases hxq : x = q
    · simp [ret, hxq, hqp]
    · simpa [ret, hxp, hxq] using hr
  · have hwx : Waits s x ∧ x ≠ q := by
      rcases hx with h | ⟨i,h⟩ | ⟨y,h⟩
      · refine ⟨.inl h,?_⟩
        rintro rfl
        exact hf1 h
      · refine ⟨.inr (.inl ⟨i,h⟩),?_⟩
        rintro rfl
        exact hf2 i h
      · obtain ⟨-,h1,h2⟩ := hk y x (by simpa [ret] using h)
        exact ⟨.inr (.inr ⟨y,h2⟩),h1⟩
    have hxp : x ≠ p := by
      rintro rfl
      have h := lines_waiting hs.lines hwx.1
      cases hpc : s.pc x <;> simp [hpc, waker, waiting] at hp h
    simpa [ret, hxp, hwx.2] using hs.listed x hwx.1
  · obtain ⟨-,hr,hx⟩ := hk x r (by simpa [ret] using hx)
    have hz := hs.target x r hx
    have hrp : r ≠ p := by
      rintro rfl
      simp [hrun] at hz
    simpa [ret, hrp, hr] using hz

end

omit [DecidableEq C] in
theorem leaked_refused (hs : Calm s) (hp : s.pc p = .waitcvCheck m) (v : ℤ) :
    Leaked (ret s p v) := by
  have hlock := (hs.lock p).mpr (by simp [hp, cvLock])
  refine ⟨?_,?_,fun q => ?_⟩
  · refine queued_congr (calm_queued hs) rfl (fun q => ?_)
    by_cases hq : q = p <;> simp [ret, hq]
  · simp [ret, hlock]
  · by_cases hq : q = p
    · simp [ret, hq, cvLock]
    · by_contra h
      have h := (hs.lock q).mpr (by simpa [ret, hq] using h)
      exact hq (Option.some.inj (h.symm.trans hlock))

variable {a : Act C}

theorem calm_sync (hs : Calm s) (hc : s.cpu c = some p) (hn : ¬Disturbs s a) (h : Sync s c p a t) :
    Calm t ∨ Leaked t := by
  have hset : Settled s := hs.consistent.settled
  have hl : (∀ i, s.pc p = .waitcvCheck i → t.pc p ≠ .user) → Lines t := lines_sync hs.lines hset h
  have hx := section_sync hset h
  have hsame : ∀ q, (s.proc q).state = (s.proc q).state ∧
      (s.proc q).priority = (s.proc q).priority := fun _ => ⟨rfl,rfl⟩
  cases h with
  | mlock pc | munlock pc | waitcvRelock pc | signalcv pc =>
    exact .inl (calm_goto hs hc (by simp [pc, cvLock]) (by simp [Plain]) (by simp [pc, joining]) rfl
      (hl (by simp [pc])) rfl rfl hsame (fun _ => rfl))
  | mlockRefused pc | munlockRefused pc | waitcvFull pc | relockRefused pc | signalRefused pc
  | signalEmpty pc | munlockEmpty pc =>
    exact .inl (calm_goto (k := .user) hs hc (by simp [pc, cvLock]) (by simp [Plain])
      (by simp [pc, joining]) rfl (hl (by simp [pc])) rfl rfl (ret_state rfl) (fun _ => rfl))
  | mlockFull pc =>
    exact .inl (calm_goto (k := .user) hs hc (by simp [pc, cvLock]) (by simp [Plain])
      (by simp [pc, joining]) rfl (hl (by simp [pc])) rfl rfl (ret_state rfl) (fun _ => rfl))
  | @mlockTake _ m pc =>
    exact .inl (calm_goto (k := .user) hs hc (by simp [pc, cvLock]) (by simp [Plain])
      (by simp [pc, joining]) rfl (hl (by simp [pc])) rfl rfl (ret_state rfl)
      (take_cv (s := s) (p := p) (m := m)))
  | @munlockClear m pc | @waitcvClear m pc =>
    exact .inl (calm_goto hs hc (by simp [pc, cvLock]) (by simp [Plain]) (by simp [pc, joining]) rfl
      (hl (by simp [pc])) rfl rfl hsame (clear_cv (s := s) (p := p) (m := m)))
  | waitcvCheck pc | waitcvDequeue pc =>
    exact .inl (calm_goto hs hc (by simp [pc, cvLock]) (by simp [Plain]) (by simp [pc, joining]) rfl
      (hl (by simp)) rfl rfl hsame (fun _ => rfl))
  | waitcvRefused pc => exact .inr (leaked_refused hs pc 0)
  | @mlockEnroll via m w pc _ enrolled =>
    refine .inl (calm_move (k := .mlockSleep via m) hs hc (by simp [pc, cvLock]) (by simp [Plain])
      (by simp [pc, joining]) (hl (by simp [pc])) rfl rfl hsame
      (fun q hq => (hx.waits q hq).imp_right (fun h => ⟨h.1,rfl⟩)) (by simp [waker]))
  | @waitcv _ m w pc _ enrolled =>
    refine .inl (calm_move (k := .waitcvSleep m) hs hc (by simp [pc, cvLock]) (by simp [Plain])
      (by simp [pc, joining]) (hl (by simp [pc])) rfl rfl hsame
      (fun q hq => (hx.waits q hq).imp_right (fun h => ⟨h.1,rfl⟩)) (by simp [waker]))
  | @munlockDequeue m q pc head =>
    have hq : Waits s q := .inl (front_mem _ _ head)
    have hz := (hs.listed q hq).resolve_left
      (fun hj => hn (.inl ⟨c,p,m,q,rfl,hc,pc,head,hj⟩))
    refine .inl (calm_move (k := .munlockWake m q) hs hc (by simp [pc, cvLock]) (by simp [Plain])
      (by simp [pc, joining]) (hl (by simp [pc])) rfl rfl hsame (fun x hw => .inl ?_)
      (fun x hx => Option.some.inj hx ▸ hz))
    exact (hx.waits x hw).resolve_right (by simp [waiting])
  | @signalDequeue m q pc head =>
    have hq : Waits s q := .inr (.inl ⟨m,front_mem _ _ head⟩)
    have hz := (hs.listed q hq).resolve_left
      (fun hj => hn (.inr (.inl ⟨c,p,m,q,rfl,hc,pc,head,hj⟩)))
    refine .inl (calm_move (k := .signalWake m q) hs hc (by simp [pc, cvLock]) (by simp [Plain])
      (by simp [pc, joining]) (hl (by simp [pc])) rfl rfl hsame (fun x hw => .inl ?_)
      (fun x hx => Option.some.inj hx ▸ hz))
    exact (hx.waits x hw).resolve_right (by simp [waiting])
  | mlockSleep pc free left =>
    obtain ⟨-,rfl⟩ := sched_settled left hset
    exact .inl (calm_mlockSleep hs hc free (hl (by simp [pc])))
  | waitcvSleep pc free => exact .inl (calm_waitcvSleep hs hc free (hl (by simp [pc])))
  | waitcvSched pc left =>
    obtain ⟨-,rfl⟩ := sched_settled left hset
    exact .inl (calm_waitcvSched hs hc pc (hl (by simp [pc])))
  | munlockWake pc free woken | signalWake pc free woken =>
    exact .inl (calm_wake hs hc (by rw [pc]; rfl) free woken (hl (by simp [pc])))

omit [DecidableEq C] in
theorem leaked_move (hs : Leaked s) {k : Pc} (hk : cvLock k = false)
    (hpc : t.pc = (s.setPc p k).pc) (hring : t.ring = s.ring) (hlock : t.lock = s.lock)
    (hst : ∀ q, (t.proc q).state = (s.proc q).state ∧ (t.proc q).priority = (s.proc q).priority) :
    Leaked t := by
  refine ⟨queued_congr hs.queued hring (fun q => by rw [(hst q).1]),hlock ▸ hs.locked,fun q => ?_⟩
  rw [hpc]
  by_cases hq : q = p
  · simp [hq, hk]
  · simpa [hq] using hs.outside q

theorem leaked_sync (hs : Leaked s) (h : Sync s c p a t) : Leaked t := by
  have hout := hs.outside p
  have hsame : ∀ q, (s.proc q).state = (s.proc q).state ∧
      (s.proc q).priority = (s.proc q).priority := fun _ => ⟨rfl,rfl⟩
  cases h with
  | mlockSleep _ free | waitcvSleep _ free | munlockWake _ free | signalWake _ free =>
    exact absurd free hs.locked
  | waitcvCheck pc | waitcvRefused pc | waitcvClear pc | waitcvDequeue pc | waitcvSched pc =>
    simp [pc, cvLock] at hout
  | mlockRefused | munlockRefused | waitcvFull | relockRefused | signalRefused | signalEmpty
  | munlockEmpty | mlockFull | mlockTake =>
    exact leaked_move (k := .user) hs rfl rfl rfl rfl (ret_state rfl)
  | mlock | munlock | waitcvRelock | signalcv | munlockClear | mlockEnroll | waitcv | munlockDequeue
  | signalDequeue => exact leaked_move hs rfl rfl rfl rfl hsame

theorem testpqdq_empty (ha : a = .testpqdq c ∨ a = .testpqdqNext c) (hd : (pqDequeue s).2 = none)
    (h : step s a = .ok t) : ∃ p, s.cpu c = some p ∧
      (s.pc p = .user ∨ ∃ e n, s.pc p = .testpqdqLoop e n) ∧
      ((∃ v, t = ret s p v) ∨ ∃ n, t = s.setPc p (.testpqdqLoop none n)) := by
  have htake : ∀ {p n}, testpqdqTake s p n = .ok t → t = s.setPc p (.testpqdqLoop none n) := by
    intro p n hk
    unfold testpqdqTake at hk
    split at hk
    · rename_i he
      simp [he] at hd
    · rename_i he
      rw [(pqDequeue_none he).1] at hk
      exact (Except.ok.inj hk).symm
  rcases ha with rfl | rfl
  · obtain ⟨p,hc,hu,h⟩ := call_ok h
    exact ⟨p,hc,.inl hu,.inr ⟨0,htake h⟩⟩
  · obtain ⟨p,hc,h⟩ := onCpu_ok h
    split at h
    · refine ⟨p,hc,.inr ⟨_,_,‹_›⟩,?_⟩
      unfold testpqdqNext at h
      split at h
      · exact .inl ⟨_,(Except.ok.inj h).symm⟩
      · split at h
        · simp at h
        · exact .inr ⟨_,htake h⟩
    · simp at h

theorem calm_kill (hs : Calm s) {pid : ℤ} (hn : ¬Disturbs s (.kill c pid))
    (h : step s (.kill c pid) = .ok t) : Calm t := by
  obtain ⟨p,hc,hu,hk⟩ := call_ok h
  obtain ⟨hl,hk⟩ := kill_ok hk
  have ht := step_consistent (calm_free hs hl) (a := .kill c pid) rfl h
  rcases hk with rfl | ⟨q,u,hq,hm,rfl⟩
  · refine calm_same hs hl ht rfl (funext fun x => ?_) rfl (fun _ => rfl) (fun x hx => ?_)
      (fun x _ hz => ?_)
    · by_cases hx : x = p <;> simp [ret, hx, hu]
    · exact (ret_state (u := s.setLock (some p)) rfl x).1.trans (hs.ticked x hx)
    · exact (ret_state (u := s.setLock (some p)) rfl x).1.trans hz
  · have hw := markKilled_ok hm
    have hst : ∀ x, ((ret u p 0).proc x).state = (u.proc x).state := fun x => (ret_state rfl x).1
    refine calm_same hs hl ht rfl (funext fun x => ?_) ?_ (fun i => ?_) (fun x hx => ?_)
      (fun x hx hz => ?_)
    · by_cases hx : x = p <;> simp [ret, hx, hu, woken_pc hw]
    · exact show u.wqueue = s.wqueue by rw [hw.frame]; rfl
    · exact congrArg Mutex.cv (congrFun (woken_muxes hw) i)
    · have hr := hs.ticked x (woken_preempted hw ▸ hx)
      rw [show (((ret u p 0).setLock none).proc x).state = _ from hst x]
      rcases hw.state x with h | h
      · exact h.trans hr
      · exact h.2
    · have hxq : x ≠ q := by
        rintro rfl
        exact hn (.inr (.inr (.inl ⟨c,pid,x,rfl,hq,hz,lines_waiting hs.lines hx⟩)))
      rw [show (((ret u p 0).setLock none).proc x).state = _ from hst x, markKilled_other hm hxq]
      exact hz

theorem calm_yield (hs : Calm s) (h : step s (.yield c) = .ok t) : Calm t := by
  obtain ⟨p,hc,hy⟩ := onCpu_ok h
  have hrun := (yield_ok hy).1
  obtain ⟨hl,k,rfl⟩ := yield_settled hy hs.consistent.settled
  have ht := step_consistent (calm_free hs hl) (a := .yield c) rfl h
  refine calm_same hs hl ht rfl rfl rfl (fun _ => rfl) (fun x hx => ?_) (fun x _ hz => ?_)
  · by_cases hxp : x = p
    · simp [hxp]
    · simpa [hxp] using hs.ticked x (by simpa [hxp] using hx)
  · have hxp : x ≠ p := by
      rintro rfl
      simp [hrun] at hz
    simpa [hxp] using hz

theorem calm_schedule (hs : Calm s) (h : step s (.schedule c) = .ok t) : Calm t ∨ Leaked t := by
  obtain ⟨hl,hc,-,hd⟩ := scheduler_ok h
  have hfree := calm_free hs hl
  have ht := step_consistent hfree (a := .schedule c) rfl h
  rcases hd with ⟨hf,-⟩ | ⟨-,hd⟩ | ⟨u,p,-,hd,hq⟩
  · simp [hfree.settled.1] at hf
  · obtain ⟨rfl,-⟩ := pqDequeue_none hd
    exact .inl hs
  obtain ⟨k,p',he,rfl,hrun,-⟩ := queued_dequeue hfree.queued hd
  cases he
  have hjoin : Waits s p → joining (s.pc p) = true := fun hw =>
    (hs.listed p hw).resolve_right (by simp [hrun])
  have hblk : s.preempted p = false → ¬Waits s p := by
    intro hb hw
    have hj := hjoin hw
    have hr := (hfree.threads.saved p (.inl hrun)).resolve_left (by simp [hb])
    cases hpc : s.pc p <;> simp [hpc, joining, resumePc] at hj hr
  have hlines := lines_dispatch (s := s.setRing k (pop (s.ring k)))
    (lines_congr hs.lines rfl rfl (fun _ => rfl)) hblk hq
  obtain ⟨ch,k',l,rfl,hk⟩ := dispatch_ok hq
  have hkp : cvLock k' = false ∧ (k' = s.pc p ∨ waker k' = none ∧ ¬Waits s p) := by
    rcases hk with ⟨-,hk,-⟩ | ⟨hb,hr,-⟩
    · subst hk
      exact ⟨calm_unlocked hs hl p,.inl rfl⟩
    · have hr : resumePc (s.pc p) = some k' := hr
      generalize s.pc p = k₀ at hr
      cases k₀ <;> simp only [resumePc, Option.some.injEq, reduceCtorEq] at hr <;> subst hr <;>
        exact ⟨rfl,.inr ⟨rfl,hblk hb⟩⟩
  have hout : ∀ x, cvLock ((switchTo (s.setRing k (pop (s.ring k))) c p ch k' l).pc x) = false := by
    intro x
    by_cases hx : x = p
    · simpa [switchTo, hx] using hkp.1
    · simpa [switchTo, hx] using calm_unlocked hs hl x
  cases l with
  | some r => exact .inr ⟨ht.queued,by simp [switchTo],hout⟩
  | none =>
  have hk2 : ∀ x r, waker ((switchTo (s.setRing k (pop (s.ring k))) c p ch k' none).pc x) = some r →
      waker (s.pc x) = some r := by
    intro x r hx
    by_cases hxp : x = p
    · subst hxp
      rcases hkp.2 with h | h
      · simpa [switchTo, h] using hx
      · simp [switchTo, h.1] at hx
    · simpa [switchTo, hxp] using hx
  refine .inl (calm_unlock ht rfl hout hlines ⟨fun x hx => ?_,fun x hx => ?_,fun x r hx => ?_⟩)
  · have hxp : x ≠ p := by
      rintro rfl
      simp [switchTo] at hx
    simpa [switchTo, hxp] using hs.ticked x (by simpa [switchTo, hxp] using hx)
  · have hw : Waits s x := hx.imp_right (Or.imp_right (Exists.imp (fun y hy => hk2 y x hy)))
    by_cases hxp : x = p
    · subst hxp
      refine .inl ?_
      rcases hkp.2 with h | h
      · simpa [switchTo, h] using hjoin hw
      · exact absurd hw h.2
    · simpa [switchTo, hxp] using hs.listed x hw
  · have hz := hs.target x r (hk2 x r hx)
    have hrp : r ≠ p := by
      rintro rfl
      simp [hrun] at hz
    simpa [switchTo, hrp] using hz

theorem calm_queue (hs : Calm s) (ha : isQueueCall a = true) (hn : ¬Disturbs s a)
    (h : step s a = .ok t) : Calm t ∨ Leaked t := by
  have hdq : ∀ c, a = .testpqdq c ∨ a = .testpqdqNext c → Calm t := by
    intro c ha
    have hd : (pqDequeue s).2 = none := by
      by_contra hd
      exact hn (.inr (.inr (.inr ⟨c,ha,hd⟩)))
    obtain ⟨p,hc,hp,ht⟩ := testpqdq_empty ha hd h
    have hp : cvLock (s.pc p) = false ∧ joining (s.pc p) = false ∧ waiting (s.pc p) = false := by
      rcases hp with hp | ⟨e,n,hp⟩ <;> simp [hp, cvLock, joining, waiting]
    have hout := lines_clear hs.lines hp.2.2
    rcases ht with ⟨v,rfl⟩ | ⟨n,rfl⟩
    · exact calm_goto (k := .user) hs hc hp.1.symm (by simp [Plain]) hp.2.1 rfl
        (lines_ret hs.lines hout v) rfl rfl (ret_state rfl) (fun _ => rfl)
    · exact calm_goto (k := .testpqdqLoop none n) hs hc hp.1.symm (by simp [Plain]) hp.2.1 rfl
        (lines_setPc hs.lines rfl (.inl hout)) rfl rfl (fun _ => ⟨rfl,rfl⟩) (fun _ => rfl)
  cases a <;> simp only [isQueueCall, Bool.false_eq_true] at ha
  case schedule c => exact calm_schedule hs h
  case yield c => exact .inl (calm_yield hs h)
  case kill c pid => exact .inl (calm_kill hs hn h)
  case testpqdq c => exact .inl (hdq c (.inl rfl))
  case testpqdqNext c => exact .inl (hdq c (.inr rfl))
  case testpqeq c =>
    obtain ⟨p,hc,hu,h⟩ := call_ok h
    obtain ⟨hl,r,v,u,hr,-,hprio,hq,rfl⟩ := sysTestpqeq_ok h
    have hfree := consistent_setLock (calm_free hs hl) (some p)
    have hrun := calm_running hs hc (calm_unlocked hs hl p)
    obtain rfl := hq.resolve_right (fun hq => by simp [hrun] at hq)
    have hcons := consistent_setProc hfree r hr (by rw [hprio]; exact hfree.prio p)
    have hst : ∀ x, ((ret ((s.setLock (some p)).setProc p r) p v).proc x).state =
      (s.proc x).state := by
      intro x
      by_cases hx : x = p <;> simp [ret, hx, hr]
    refine .inl (calm_same hs hl
      (consistent_setLock (consistent_ret hcons (consistent_running hcons hc) v) none) rfl
      (funext fun x => ?_) rfl (fun _ => rfl) (fun x hx => (hst x).trans (hs.ticked x hx))
      (fun x _ hz => (hst x).trans hz))
    by_cases hx : x = p <;> simp [ret, hx, hu]

theorem leaked_queue (hs : Leaked s) (ha : isQueueCall a = true) (hn : ¬Disturbs s a)
    (h : step s a = .ok t) : Leaked t := by
  have hdq : ∀ c, a = .testpqdq c ∨ a = .testpqdqNext c → Leaked t := by
    intro c ha
    have hd : (pqDequeue s).2 = none := by
      by_contra hd
      exact hn (.inr (.inr (.inr ⟨c,ha,hd⟩)))
    obtain ⟨p,hc,hp,⟨v,rfl⟩ | ⟨n,rfl⟩⟩ := testpqdq_empty ha hd h
    · exact leaked_move (k := .user) hs rfl rfl rfl rfl (ret_state rfl)
    · exact leaked_move hs rfl rfl rfl rfl (fun _ => ⟨rfl,rfl⟩)
  cases a <;> simp only [isQueueCall, Bool.false_eq_true] at ha
  case schedule c => exact absurd (scheduler_ok h).1 hs.locked
  case yield c =>
    obtain ⟨p,-,h⟩ := onCpu_ok h
    exact absurd (yield_ok h).2.1 hs.locked
  case kill c pid =>
    obtain ⟨p,-,-,h⟩ := call_ok h
    exact absurd (kill_ok h).1 hs.locked
  case testpqdq c => exact hdq c (.inl rfl)
  case testpqdqNext c => exact hdq c (.inr rfl)
  case testpqeq c =>
    obtain ⟨p,-,-,h⟩ := call_ok h
    exact absurd (sysTestpqeq_ok h).1 hs.locked

structure Quiet (s : Kernel C) : Prop where
  consistent : Consistent s
  lock : s.lock = none
  outside : ∀ q, waiting (s.pc q) = false ∧ waker (s.pc q) = none
  empty : s.wqueue = empty ∧ ∀ m, (s.muxes m).cv = empty
  ticked : ∀ q, s.preempted q = true → (s.proc q).state = .runnable

section
omit [DecidableEq C]

theorem lines_quiet (hs : Quiet s) : Lines s := by
  have hw : ∀ x q, waker (s.pc x) ≠ some q := by
    intro x q
    simp [(hs.outside x).2]
  refine ⟨fun q hq => ?_,fun m q hq => ?_,fun x m q h => ?_,fun x m q h => ?_,
    fun x y q h => absurd h (hw x q),?_,fun m => ?_⟩
  · simp [hs.empty.1, list_empty] at hq
  · simp [hs.empty.2 m, list_empty] at hq
  · exact absurd (by rw [h]; rfl) (hw x q)
  · exact absurd (by rw [h]; rfl) (hw x q)
  · rw [hs.empty.1]
    exact proper_empty
  · rw [hs.empty.2 m]
    exact proper_empty

theorem calm_quiet (hs : Quiet s) : Calm s := by
  refine calm_unlock hs.consistent hs.lock (fun q => ?_) (lines_quiet hs)
    ⟨hs.ticked,fun q hq => ?_,fun x q hx => ?_⟩
  · have h := (hs.outside q).1
    cases hpc : s.pc q <;> simp [hpc, waiting, cvLock] at h ⊢
  · exact absurd hq (lines_clear (lines_quiet hs) (hs.outside q).1)
  · simp [(hs.outside x).2] at hx

end

theorem wake_step (ha : a = .munlockWake c ∨ a = .signalWake c) (h : step s a = .ok t) :
    s.lock = none := by
  rcases ha with rfl | rfl <;>
    · obtain ⟨p,-,h⟩ := onCpu_ok h
      split at h
      · exact (wakeSleeper_ok h).1
      · simp at h

/-- Wakeups and ready queues. In a run without the disturbing steps the queues
hold each `RUNNABLE` process once and nothing else; a process that an unlock
or a signal wakes is `SLEEPING`, blocked in `sys_mlock` or `sys_waitcv`; and
what a scheduler takes off the queues it runs. -/
theorem wakeups_keep_queues {s₀ : Kernel C} (h₀ : Quiet s₀)
    (h : Reaches step (fun s a => (isSyncCall a = true ∨ isQueueCall a = true) ∧
      ¬Disturbs s a) s₀ s) :
    Queued s ∧
    (∀ c p q t, s.cpu c = some p → waker (s.pc p) = some q →
      step s (.munlockWake c) = .ok t ∨ step s (.signalWake c) = .ok t →
      (s.proc q).state = .sleeping ∧
        ((∃ via m, s.pc q = .mlockAsleep via m) ∨ ∃ m, s.pc q = .waitcvAsleep m)) ∧
    ∀ c u e, pqDequeue s = (u,some e) → step s (.schedule c) ≠ .error .disabled →
      ∃ p t, e = some p ∧ (s.proc p).state = .runnable ∧ step s (.schedule c) = .ok t ∧
        t.cpu c = some p := by
  have hs : Calm s ∨ Leaked s := by
    refine reaches_invariant (fun s => Calm s ∨ Leaked s) (fun v a w hv ha hw => ?_)
      (.inl (calm_quiet h₀)) h
    obtain ⟨hy | hq,hn⟩ := ha
    · obtain ⟨c,p,hc,hsync⟩ := sync_step hy hw
      rcases hv with hv | hv
      · exact calm_sync hv hc hn hsync
      · exact .inr (leaked_sync hv hsync)
    · rcases hv with hv | hv
      · exact calm_queue hv hq hn hw
      · exact .inr (leaked_queue hv hq hn hw)
  rcases hs with hs | hs
  · refine ⟨calm_queued hs,fun c p q t hc hp ht => ?_,fun c u e hd hen => ?_⟩
    · have hl : s.lock = none := by
        rcases ht with ht | ht
        · exact wake_step (.inl rfl) ht
        · exact wake_step (.inr rfl) ht
      have hz := hs.target p q hp
      have hb := calm_sleeper hs hl hz
      refine ⟨hz,?_⟩
      rcases waker_some hp with ⟨m,hm⟩ | ⟨m,hm⟩
      · exact .inl (mlockWait_blocked (hs.lines.wake p m q hm).1 hb)
      · exact .inr ⟨m,cvWait_blocked (hs.lines.signal p m q hm).1 hb⟩
    · have hen : ¬(s.lock ≠ none ∨ s.cpu c ≠ none ∨ (c = s.bootCpu ∧ s.stage ≠ .done)) :=
        fun hg => hen (if_pos hg)
      have hg := hen
      simp only [not_or, not_not] at hg
      have hfree := calm_free hs hg.1
      obtain ⟨p,t,rfl,hrun,ht,-⟩ := consistent_switch hfree hg.2.1 hd
      refine ⟨p,t,rfl,hrun,?_,?_⟩
      · show scheduler s c = .ok t
        rw [scheduler, if_neg hen, if_neg (by simp [hfree.settled.1]), hd]
        exact ht
      · obtain ⟨ch,k,l,rfl,-⟩ := dispatch_ok ht
        simp [switchTo]
  · refine ⟨hs.queued,fun c p q t hc hp ht => ?_,fun c u e hd hen => ?_⟩
    · rcases ht with ht | ht
      · exact absurd (wake_step (.inl rfl) ht) hs.locked
      · exact absurd (wake_step (.inr rfl) ht) hs.locked
    · exact absurd (if_pos (.inl hs.locked)) hen

theorem quiet_crew : Quiet crew := by
  refine ⟨consistent_crew,rfl,fun q => ?_,⟨rfl,fun _ => rfl⟩,fun q hq => by simp [crew, boot] at hq⟩
  by_cases h : q.val < 3 <;> simp [crew, h, waiting, waker]

def takesAsleep (s : Kernel C) : Act C → Bool
  | .munlockDequeue _ => (front s.wqueue).all (fun q => !joining (s.pc q))
  | .signalDequeue _ => false
  | a => isSyncCall a

omit [DecidableEq C] in
theorem takesAsleep_calm (h : takesAsleep s a = true) : isSyncCall a = true ∧ ¬Disturbs s a := by
  refine ⟨by cases a <;> simp [takesAsleep, isSyncCall] at h ⊢,?_⟩
  rintro (⟨c,p,m,q,rfl,-,-,hf,hj⟩ | ⟨c,p,m,q,rfl,-⟩ | ⟨c,pid,q,rfl,-⟩ | ⟨c,rfl | rfl,-⟩)
  · simp [takesAsleep, hf, hj] at h
  all_goals simp [takesAsleep, isSyncCall] at h

theorem wakeups_keep_queues_at_unlock : ∃ s : Kernel (Fin 3),
    (s.cpu 0 = some 0 ∧ s.pc 0 = .munlockWake 0 1) ∧ Queued s ∧
    (∀ c p q t, s.cpu c = some p → waker (s.pc p) = some q →
      step s (.munlockWake c) = .ok t ∨ step s (.signalWake c) = .ok t →
      (s.proc q).state = .sleeping ∧
        ((∃ via m, s.pc q = .mlockAsleep via m) ∨ ∃ m, s.pc q = .waitcvAsleep m)) ∧
    ∀ c u e, pqDequeue s = (u,some e) → step s (.schedule c) ≠ .error .disabled →
      ∃ p t, e = some p ∧ (s.proc p).state = .runnable ∧ step s (.schedule c) = .ok t ∧
        t.cpu c = some p := by
  obtain ⟨s,hr,hs⟩ := play_witness step
    (fun s a => (isSyncCall a = true ∨ isQueueCall a = true) ∧ ¬Disturbs s a) takesAsleep
    (fun s a ha => ⟨.inl (takesAsleep_calm ha).1,(takesAsleep_calm ha).2⟩)
    crew [.mlock 0 0, .mlockTry 0, .mlock 1 0, .mlockTry 1, .mlockSleep 1, .munlock 0 0,
      .munlockClear 0, .munlockDequeue 0]
    (fun s => decide (s.cpu 0 = some 0 ∧ s.pc 0 = .munlockWake 0 1)) (by decide +kernel)
  exact ⟨s,of_decide_eq_true hs,wakeups_keep_queues quiet_crew hr⟩

/-- The child joins the wait queue and is still running when the unlock takes
it, queues it as runnable and returns. It then goes to sleep with an entry in
the ready queue. -/
theorem unlock_queues_running :
    ∃ s t u : Kernel (Fin 2), Reaches step (fun _ _ => True) (boot 0) s ∧
    (s.pc 0 = .munlockWake 0 1 ∧ s.cpu 1 = some 1 ∧ (s.proc 1).state = .running) ∧
    step s (.munlockWake 0) = .ok t ∧ (t.cpu 1 = some 1 ∧ entries t 1 = 1) ∧
    step t (.mlockSleep 1) = .ok u ∧ (u.proc 1).state = .sleeping ∧ entries u 1 = 1 ∧
      ¬Queued u := by
  obtain ⟨s,hr,hs⟩ := play_witness step (fun _ _ => True)
    (fun _ _ => true) (fun _ _ _ => trivial) (boot (0 : Fin 2))
    (List.flatten [startup, [.mcreate 0 100 0], forkOn 0,
      [.schedule 1, .mlock 0 0, .mlockTry 0, .mlock 1 0, .mlockTry 1, .munlock 0 0, .munlockClear 0,
       .munlockDequeue 0]])
    (fun s => decide (s.pc 0 = .munlockWake 0 1 ∧ s.cpu 1 = some 1 ∧ (s.proc 1).state = .running) &&
      (step s (.munlockWake 0)).toOption.any (fun t : Kernel (Fin 2) =>
        decide (t.cpu 1 = some 1 ∧ entries t 1 = 1) &&
        (step t (.mlockSleep 1)).toOption.any (fun u : Kernel (Fin 2) =>
          decide ((u.proc 1).state = .sleeping ∧ entries u 1 = 1))))
    (by decide +kernel)
  simp only [Bool.and_eq_true] at hs
  obtain ⟨t,ht,h⟩ := ok_of_any hs.2
  simp only [Bool.and_eq_true] at h
  obtain ⟨u,hu,h'⟩ := ok_of_any h.2
  obtain ⟨hz,he⟩ := of_decide_eq_true h'
  refine ⟨s,t,u,hr,of_decide_eq_true hs.1,ht,of_decide_eq_true h.1,hu,hz,he,fun hq => ?_⟩
  have hq := hq.2 1
  simp [he, hz] at hq

end Xv6.WakeConsistency
