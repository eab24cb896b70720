import Xv6.ReadyRuns

/-!
# The first dispatches

Before `userinit` publishes the first process nothing runs and the rings are
empty. Publishing after some CPU has made its first round leads into a
consistent state; publishing before leaves the entry of the first process behind
when the scan of that round dispatches it.
-/

set_option autoImplicit false

namespace Xv6.Boot
open KernelState RingBuffer NullQueue ReadyQueue ProcessCalls Machine
open ProcessFrames ProcessEffects TransitionRun ReadyInvariant ReadyRuns

variable {C : Type} [DecidableEq C] {s t u v : Kernel C} {c d : C} {p : Slot} {a : Act C}

structure Dormant (s : Kernel C) : Prop where
  cpu : ∀ c, s.cpu c = none
  scan : ∀ c, s.scan c = none
  queued : Queued s
  idle : ∀ p, Idle (s.proc p).state
  prio : PrioInRange s
  pc : ∀ p, s.pc p = .absent
  lock : s.lock = none
  stage : s.stage = .start ∨ ∃ p, s.stage = .allocated p ∧ (s.proc p).state = .embryo

omit [DecidableEq C] in
theorem dormant_boot (c : C) : Dormant (boot c) := by
  have hr : ready (boot c) = [] := by
    rw [ready, List.flatMap_eq_nil_iff]
    intro k _
    rw [contents_eq_nil]
    rfl
  refine ⟨fun _ => rfl,fun _ => rfl,⟨by simp [hr],fun p => ?_⟩,?_,?_,fun _ => rfl,rfl,.inl rfl⟩
  · rw [entries, hr]
    rfl
  · simp [boot, zeroProc, Idle]
  · simp [PrioInRange, boot, zeroProc]

section
variable (hs : Dormant s)
include hs

section
omit [DecidableEq C]

theorem dormant_onCpus : OnCpus s := by
  refine ⟨fun c d p hc => ?_,fun p => ⟨?_,fun h => absurd h (hs.idle p).2.2⟩⟩
  · simp [hs.cpu c] at hc
  · rintro ⟨c,hc⟩
    simp [hs.cpu c] at hc

theorem dormant_consistent (hf : s.firstTime = false) : Consistent s := by
  refine ⟨hs.queued,dormant_onCpus hs,hs.prio,⟨fun p hp => ?_,fun p np h => ?_,fun p q np h => ?_⟩,
    hf,hs.scan⟩
  · rcases hp with h | h
    · exact absurd h (hs.idle p).1
    · exact absurd h (hs.idle p).2.1
  · simp [Forking, hs.pc p] at h
  · simp [Forking, hs.pc p] at h

theorem dormant_scan (i : ℕ) :
    findSlot (fun q => decide (i ≤ q.val) && decide ((s.proc q).state = .runnable)) = none := by
  rw [findSlot, List.find?_eq_none]
  intro q _
  simp [(hs.idle q).1]

end

theorem dormant_schedule (h : step s (.schedule c) = .ok t) : Dormant t ∧ t.cpu c = none := by
  obtain ⟨-,-,-,⟨-,hf⟩ | ⟨-,hd⟩ | ⟨u,q,-,hd,-⟩⟩ := scheduler_ok h
  · have hn := dormant_scan (s := { s with firstTime := false })
      ⟨hs.cpu,hs.scan,hs.queued,hs.idle,hs.prio,hs.pc,hs.lock,hs.stage⟩ 0
    rw [scanFrom, hn] at hf
    cases hf
    refine ⟨⟨hs.cpu,fun d => ?_,hs.queued,hs.idle,hs.prio,hs.pc,rfl,hs.stage⟩,hs.cpu c⟩
    simp [hs.scan d]
  · obtain ⟨rfl,-⟩ := pqDequeue_none hd
    exact ⟨hs,hs.cpu c⟩
  · obtain ⟨k,p,-,-,hp,-⟩ := queued_dequeue hs.queued hd
    exact absurd hp (hs.idle p).1

theorem dormant_processCall (ha : isProcessCall a = true) (h : step s a = .ok t) : Dormant t := by
  have hoff : ∀ c f, onCpu s c f ≠ .ok t := by
    intro c f hf
    obtain ⟨p,hc,-⟩ := onCpu_ok hf
    simp [hs.cpu c] at hc
  cases a <;> simp only [isProcessCall, Bool.false_eq_true] at ha
  case schedule c => exact (dormant_schedule hs h).1
  case wakeup ch =>
    obtain ⟨u,hu,hw⟩ := wakes_wakeup1 hs.queued hs.prio (some ch)
    have ht : wakeup s ch = .ok u := by simp [wakeup, hs.lock, hu]
    obtain rfl := Except.ok.inj (ht.symm.trans h)
    have hst : ∀ p, (u.proc p).state = (s.proc p).state := by
      intro p
      exact (hw.state p).resolve_right (fun h => (hs.idle p).2.1 h.1)
    have hfr := hw.frame
    refine ⟨?_,?_,hw.queued,fun p => hst p ▸ hs.idle p,wakes_prio hw.toWoken hs.prio,?_,?_,?_⟩
    · rw [woken_cpu hw.toWoken]
      exact hs.cpu
    · rw [hfr]
      exact hs.scan
    · rw [woken_pc hw.toWoken]
      exact hs.pc
    · rw [hfr]
      exact hs.lock
    · have hstage : u.stage = s.stage := by rw [hfr]
      rw [hstage]
      rcases hs.stage with h | ⟨p,hp,he⟩
      · exact .inl h
      · exact .inr ⟨p,hp,(hst p).trans he⟩
  all_goals exact absurd h (hoff _ _)

theorem dormant_alloc (h : step s .userinitAlloc = .ok t) : Dormant t := by
  obtain ⟨-,p,u,hu,rfl⟩ := userinitAlloc_ok h
  obtain ⟨hun,rfl⟩ := allocproc_some hu
  refine ⟨hs.cpu,hs.scan,queued_congr hs.queued rfl (fun q => ?_),fun q => ?_,fun q => ?_,hs.pc,
    hs.lock,.inr ⟨p,rfl,by simp⟩⟩ <;> by_cases hq : q = p
  · simp [hq, hun]
  · simp [hq]
  · simp [hq, Idle]
  · simpa [hq] using hs.idle q
  · simpa [hq] using hs.prio p
  · simpa [hq] using hs.prio q

/-- Publishing in `userinit` empties the rings and queues the first process. But for the
flag of the first round the state is consistent then. -/
theorem dormant_publish (h : step s .userinitPublish = .ok t) :
    Consistent { t with firstTime := false } ∧ t.firstTime = s.firstTime ∧
      t.stage = .published ∧ t.bootCpu = s.bootCpu ∧ t.lock = none ∧ (∀ d, t.cpu d = none) ∧
      ∃ p, (t.proc p).state = .runnable := by
  obtain ⟨p,v,hp,hv,rfl⟩ := userinitPublish_ok h
  obtain ⟨k,-,-,rfl⟩ := makeRunnable_ok hv
  have he : (s.proc p).state = .embryo := by
    rcases hs.stage with h | ⟨q,hq,he⟩
    · simp [hp] at h
    · obtain rfl := Stage.allocated.inj (hp.symm.trans hq)
      exact he
  let w : Kernel C :=
    { s.setProc p { s.proc p with priority := 0 } with
      ring := fun k => { s.ring k with head := 0, tail := 0 }
      firstTime := false }
  have hempty : ready w = [] := by
    rw [ready, List.flatMap_eq_nil_iff]
    intro k _
    rw [contents_eq_nil]
  have hst : ∀ q, (w.proc q).state = (s.proc q).state := by
    intro q
    by_cases hq : q = p <;> simp [w, hq]
  have hw : Dormant w := by
    refine ⟨hs.cpu,hs.scan,⟨by simp [hempty],fun q => ?_⟩,fun q => ?_,fun q => ?_,hs.pc,hs.lock,
      .inr ⟨p,hp,(hst p).trans he⟩⟩
    · rw [entries, hempty, hst q]
      simp [(hs.idle q).1]
    · rw [hst q]
      exact hs.idle q
    · by_cases hq : q = p
      · simp [w, hq]
      · simpa [w, hq] using hs.prio q
  have hcw := dormant_consistent hw rfl
  have hpub := consistent_publish hcw ((hst p).trans he)
    (fun x hx => by simp [Forking, hw.pc x] at hx) k
    (queued_push hcw.queued (by simp [hst p, he]) k)
  refine ⟨?_,rfl,rfl,rfl,hs.lock,hs.cpu,p,by simp⟩
  exact consistent_congr hpub rfl rfl rfl rfl rfl rfl (fun _ => rfl) hpub.prio

end

def isBootCall : Act C → Bool
  | .userinitAlloc | .userinitPublish | .userinitMutexes => true
  | _ => false

def PublishesLate (s : Kernel C) (a : Act C) : Prop :=
  (isProcessCall a = true ∨ isBootCall a = true) ∧ (a = .userinitPublish → s.firstTime = false)

def Booted (s : Kernel C) : Prop := Consistent s ∧ (s.stage = .published ∨ s.stage = .done)

theorem booted_step (hs : Booted s) (ha : PublishesLate s a) (h : step s a = .ok t) : Booted t := by
  obtain ⟨hs,hst⟩ := hs
  rcases ha.1 with hp | hb
  · refine ⟨step_consistent hs hp h,?_⟩
    rw [stage_step hp h]
    exact hst
  · cases a <;> simp only [isBootCall, Bool.false_eq_true] at hb
    case userinitAlloc => simp [(userinitAlloc_ok h).1] at hst
    case userinitPublish =>
      obtain ⟨p,u,hp,-⟩ := userinitPublish_ok h
      simp [hp] at hst
    case userinitMutexes =>
      obtain ⟨-,rfl⟩ := userinitMutexes_ok h
      exact ⟨consistent_congr hs rfl rfl rfl rfl rfl rfl (fun _ => rfl) hs.prio,.inr rfl⟩

theorem dormant_step (hs : Dormant s) (ha : PublishesLate s a) (h : step s a = .ok t) :
    Dormant t ∨ Booted t := by
  rcases ha.1 with hp | hb
  · exact .inl (dormant_processCall hs hp h)
  · cases a <;> simp only [isBootCall, Bool.false_eq_true] at hb
    case userinitAlloc => exact .inl (dormant_alloc hs h)
    case userinitPublish =>
      obtain ⟨hc,hf,hst,-⟩ := dormant_publish hs h
      refine .inr ⟨?_,.inl hst⟩
      exact consistent_congr hc rfl rfl rfl (hf.trans (ha.2 rfl)) rfl rfl (fun _ => rfl) hc.prio
    case userinitMutexes =>
      have hst := hs.stage
      simp [(userinitMutexes_ok h).1] at hst

theorem boot_reaches (h : Reaches step PublishesLate (boot c) s) : Dormant s ∨ Booted s := by
  refine reaches_invariant (fun s => Dormant s ∨ Booted s) (fun s a t hs ha ht => ?_)
    (.inl (dormant_boot c)) h
  rcases hs with hs | hs
  · exact dormant_step hs ha ht
  · exact .inr (booted_step hs ha ht)

/-- When the first round comes after `userinit`, its scan dispatches a process
that stays queued. -/
theorem first_round_leaves_entry (hs : Consistent { s with firstTime := false })
    (hf : s.firstTime = true) (hl : s.lock = none) (hc : s.cpu c = none)
    (hst : c = s.bootCpu → s.stage = .done) (hp : (s.proc p).state = .runnable) :
    ∃ t q, step s (.schedule c) = .ok t ∧ t.cpu c = some q ∧ entries t q = 1 := by
  obtain ⟨q,hq⟩ : ∃ q, findSlot (fun q => decide (0 ≤ q.val) &&
      decide ((s.proc q).state = .runnable)) = some q := by
    rw [← Option.isSome_iff_exists, findSlot, List.find?_isSome]
    exact ⟨p,List.mem_finRange p,by simp [hp]⟩
  have hrun : (s.proc q).state = .runnable := by
    have := findSlot_some hq
    simpa using this
  obtain ⟨t,ht⟩ := dispatch_total
    (s := ({ s with firstTime := false }.setScan c (some (q.val+1)))) (c := c)
    (hs.threads.saved q (.inl hrun))
  refine ⟨t,q,?_,?_,?_⟩
  · have hg : ¬(s.lock ≠ none ∨ s.cpu c ≠ none ∨ c = s.bootCpu ∧ s.stage ≠ .done) := by
      simp only [hl, hc, ne_eq, not_true, false_or, not_and, not_not]
      exact hst
    simp only [step, scheduler, if_neg hg, hf, if_true, scanFrom, hq]
    exact ht
  · obtain ⟨ch,k,l,rfl,-⟩ := dispatch_ok ht
    simp [switchTo]
  · obtain ⟨ch,k,l,rfl,-⟩ := dispatch_ok ht
    have he := hs.queued.2 q
    rw [if_pos hrun] at he
    exact he

/-- Boot dispatch. In every boot in which `userinit` publishes the first
process after some CPU's first round, the queues are consistent and a dispatch
takes a runnable process off them. Publishing keeps the first dispatch of the
boot CPU clean exactly when the first round is over. -/
theorem boot_dispatch_iff (h : Reaches step PublishesLate (boot c) s) :
    (Queued s ∧ OnCpus s) ∧
    (∀ d t p, step s (.schedule d) = .ok t → t.cpu d = some p →
      entries t p = 0 ∧ (s.proc p).state = .runnable ∧ ∀ e, s.cpu e ≠ some p) ∧
    ∀ t u, step s .userinitPublish = .ok t → step t .userinitMutexes = .ok u →
      ((∀ v p, step u (.schedule s.bootCpu) = .ok v → v.cpu s.bootCpu = some p →
        entries v p = 0) ↔ s.firstTime = false) := by
  have hs := boot_reaches h
  refine ⟨?_,fun d t p ht hp => ?_,fun t u ht hu => ?_⟩
  · rcases hs with hs | hs
    · exact ⟨hs.queued,dormant_onCpus hs⟩
    · exact ⟨hs.1.queued,hs.1.onCpus⟩
  · rcases hs with hs | hs
    · simp [(dormant_schedule hs ht).2] at hp
    · exact consistent_dispatch hs.1 ht hp
  · have hs : Dormant s := by
      refine hs.resolve_right (fun hb => ?_)
      have ht : userinitPublish s = .ok t := ht
      rcases hb.2 with h | h <;> simp [userinitPublish, h] at ht
    obtain ⟨hc,hf,hst,hboot,hl,hcpu,p,hp⟩ := dormant_publish hs ht
    have hu : userinitMutexes t = .ok u := hu
    simp only [userinitMutexes, hst, if_true] at hu
    cases hu
    constructor
    · intro hall
      by_contra hn
      obtain ⟨v,q,hv,hq,he⟩ := first_round_leaves_entry (c := s.bootCpu) (p := p)
        (s := { t with
          muxes := fun _ => { name := 0, state := -1, cv := empty }
          wqueue := empty
          muxLock := none
          stage := .done })
        (consistent_congr hc rfl rfl rfl rfl rfl rfl (fun _ => rfl) hc.prio)
        (by simpa [hf] using hn) hl (hcpu _) (fun _ => rfl) hp
      rw [hall v q hv hq] at he
      simp at he
    · intro hn v q hv hq
      refine (consistent_dispatch ?_ hv hq).1
      exact consistent_congr hc rfl rfl rfl (hf.trans hn) rfl rfl (fun _ => rfl) hc.prio

theorem boot_dispatch_after_publish : ∃ s : Kernel (Fin 2), (s.proc 0).state = .runnable ∧
    (Queued s ∧ OnCpus s) ∧
    (∀ d t p, step s (.schedule d) = .ok t → t.cpu d = some p →
      entries t p = 0 ∧ (s.proc p).state = .runnable ∧ ∀ e, s.cpu e ≠ some p) ∧
    ∀ t u, step s .userinitPublish = .ok t → step t .userinitMutexes = .ok u →
      ((∀ v p, step u (.schedule s.bootCpu) = .ok v → v.cpu s.bootCpu = some p →
        entries v p = 0) ↔ s.firstTime = false) := by
  obtain ⟨s,hr,hs⟩ := play_witness step PublishesLate
    (fun s a => (isProcessCall a || isBootCall a) &&
      (decide (a ≠ .userinitPublish) || !s.firstTime))
    (fun s a ha => by
      simp only [Bool.and_eq_true, Bool.or_eq_true, decide_eq_true_eq, Bool.not_eq_true',
        ne_eq] at ha
      exact ⟨ha.1,fun h => ha.2.resolve_left (fun hn => hn h)⟩)
    (boot (0 : Fin 2)) [.schedule 1, .userinitAlloc, .userinitPublish, .userinitMutexes]
    (fun s => decide ((s.proc 0).state = .runnable)) (by decide +kernel)
  exact ⟨s,of_decide_eq_true hs,boot_dispatch_iff hr⟩

/-- On a machine with one CPU `userinit` always comes first. -/
theorem boot_single_cpu_entry : ∃ t : Kernel Unit,
    Reaches step (fun _ a => isProcessCall a = true ∨ isBootCall a = true) (boot ()) t ∧
    t.cpu () = some 0 ∧ (t.proc 0).state = .running ∧ entries t 0 = 1 := by
  obtain ⟨t,hr,ht⟩ := play_witness step
    (fun _ a => isProcessCall a = true ∨ isBootCall a = true)
    (fun _ a => isProcessCall a || isBootCall a)
    (fun s a ha => by simpa using ha)
    (boot ()) [.userinitAlloc, .userinitPublish, .userinitMutexes, .schedule ()]
    (fun t => decide (t.cpu () = some 0 ∧ (t.proc 0).state = .running ∧ entries t 0 = 1))
    (by decide +kernel)
  exact ⟨t,hr,of_decide_eq_true ht⟩

end Xv6.Boot
