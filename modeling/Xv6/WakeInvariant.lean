import Xv6.WaitLines
import Xv6.ReadyRuns

/-!
# Sleepers, wakers and the ready queues

What the synchronisation calls keep as long as a waiter is only taken from its
queue once it is asleep and is not killed there; a process that runs
`sys_waitcv` marked asleep counts as running. The ready queue entries of a
process, together with its place in a queue, never outnumber the switches it is
waiting for.
-/

set_option autoImplicit false

namespace Xv6.WakeInvariant
open KernelState ProcessCalls ReadyInvariant Coherence WaitLines RingBuffer
open ReadyQueue Machine ProcessFrames ProcessEffects MutexEffects

section
variable {C : Type} {s t u : Kernel C} {c : C} {p q : Slot} {m : MuxId} {k : Pc}

def view (s : Kernel C) : Kernel C :=
  { s with
    proc := fun q => if cvLock (s.pc q) then { s.proc q with state := .running } else s.proc q }

structure Sleepers (s : Kernel C) : Prop where
  ticked : ∀ q, s.preempted q = true → (s.proc q).state = .runnable
  listed : ∀ q, Waits s q → joining (s.pc q) = true ∨ (s.proc q).state = .sleeping
  target : ∀ x q, waker (s.pc x) = some q → (s.proc q).state = .sleeping

structure Calm (s : Kernel C) : Prop extends Sleepers s where
  consistent : Consistent (view s)
  lines : Lines s
  lock : ∀ p, s.lock = some p ↔ cvLock (s.pc p) = true
  marked : ∀ p, cvLock (s.pc p) = true → (s.proc p).state = .sleeping

structure Leaked (s : Kernel C) : Prop where
  queued : Queued s
  locked : s.lock ≠ none
  outside : ∀ q, cvLock (s.pc q) = false

theorem view_state (s : Kernel C) (q : Slot) :
    ((view s).proc q).state = if cvLock (s.pc q) then .running else (s.proc q).state := by
  simp only [view]
  split <;> rfl

theorem view_priority (s : Kernel C) (q : Slot) :
    ((view s).proc q).priority = (s.proc q).priority := by
  simp only [view]
  split <;> rfl

theorem view_eq (h : ∀ q, cvLock (s.pc q) = false) : view s = s := by
  simp [view, h]

theorem calm_queued (hs : Calm s) : Queued s := by
  refine queued_congr (t := s) hs.consistent.queued rfl (fun q => ?_)
  rw [view_state]
  split
  · simp [hs.marked q ‹_›]
  · rfl

theorem calm_running (hs : Calm s) (hc : s.cpu c = some p) (hp : cvLock (s.pc p) = false) :
    (s.proc p).state = .running := by
  have hr := consistent_running (s := view s) hs.consistent hc
  rwa [view_state, hp] at hr

theorem calm_unlocked (hs : Calm s) (hl : s.lock = none) (q : Slot) : cvLock (s.pc q) = false := by
  by_contra h
  have hq := (hs.lock q).mpr (by simpa using h)
  simp [hl] at hq

theorem calm_free (hs : Calm s) (hl : s.lock = none) : Consistent s := by
  have hc := hs.consistent
  rwa [view_eq (calm_unlocked hs hl)] at hc

/-- A waiter that is asleep while the lock is free is blocked in the `sched`
call of its wait. -/
theorem calm_sleeper (hs : Calm s) (hl : s.lock = none) (hz : (s.proc q).state = .sleeping) :
    resumePc (s.pc q) ≠ none := by
  refine ((calm_free hs hl).threads.saved q (.inr hz)).resolve_left (fun h => ?_)
  simp [hs.ticked q h] at hz

theorem mlockWait_blocked (h : mlockWait k = true) (hb : resumePc k ≠ none) :
    ∃ via m, k = .mlockAsleep via m := by
  cases k <;> simp [mlockWait, resumePc] at h hb ⊢

theorem cvWait_blocked (h : cvWait m k = true) (hb : resumePc k ≠ none) : k = .waitcvAsleep m := by
  cases k <;> simp [cvWait, resumePc] at h hb ⊢
  exact h

theorem sleepers_mark (hs : Sleepers s) (hp : (s.proc p).state ≠ .runnable)
    (hself : (t.proc p).state = .sleeping ∧ waker (t.pc p) = none)
    (hother : ∀ q, q ≠ p → t.pc q = s.pc q ∧ t.proc q = s.proc q)
    (hpre : t.preempted = s.preempted) (hwq : t.wqueue = s.wqueue) (hmux : t.muxes = s.muxes) :
    Sleepers t := by
  have hk : ∀ x q, waker (t.pc x) = some q → waker (s.pc x) = some q := by
    intro x q hx
    by_cases hxp : x = p
    · simp [hxp, hself] at hx
    · rwa [(hother x hxp).1] at hx
  have hw : ∀ q, Waits t q → Waits s q := by
    intro q hq
    rw [Waits, hwq, hmux] at hq
    exact hq.imp_right (Or.imp_right (Exists.imp (fun x hx => hk x q hx)))
  refine ⟨fun q hq => ?_,fun q hq => ?_,fun x q hx => ?_⟩
  · have hq := hs.ticked q (hpre ▸ hq)
    have hqp : q ≠ p := by
      rintro rfl
      exact hp hq
    rwa [(hother q hqp).2]
  · by_cases hqp : q = p
    · exact .inr (hqp ▸ hself.1)
    · rw [(hother q hqp).1, (hother q hqp).2]
      exact hs.listed q (hw q hq)
  · by_cases hqp : q = p
    · exact hqp ▸ hself.1
    · rw [(hother q hqp).2]
      exact hs.target x q (hk x q hx)

section
variable (hs : Calm s) (hc : s.cpu c = some p) (hk : cvLock k = cvLock (s.pc p)) (hplain : Plain k)
include hs hc hk hplain

theorem calm_move (hj : joining (s.pc p) = false) (hl : Lines t) (hpc : t.pc = (s.setPc p k).pc)
    (hframe : t = { s with
      proc := t.proc, pc := t.pc, muxes := t.muxes, wqueue := t.wqueue,
      muxLock := t.muxLock, holds := t.holds, granted := t.granted, joins := t.joins,
      signals := t.signals })
    (hst : ∀ q, (t.proc q).state = (s.proc q).state ∧ (t.proc q).priority = (s.proc q).priority)
    (hw : ∀ q, Waits t q → Waits s q ∨ q = p ∧ joining k = true)
    (ht : ∀ q, waker k = some q → (s.proc q).state = .sleeping) : Calm t := by
  have hother : ∀ q, q ≠ p → t.pc q = s.pc q := fun q hq => by
    rw [hpc]
    simp [hq]
  have hself : t.pc p = k := by
    rw [hpc]
    simp
  have hcv : ∀ q, cvLock (t.pc q) = cvLock (s.pc q) := by
    intro q
    by_cases hq : q = p
    · rw [hq, hself, hk]
    · rw [hother q hq]
  have hgo : Consistent ((view s).setPc p k) :=
    consistent_goto hs.consistent (running_awake (consistent_running hs.consistent hc)) hplain
  have hlock : t.lock = s.lock := by rw [hframe]
  have hpre : t.preempted = s.preempted := by rw [hframe]
  refine ⟨⟨fun q hq => ?_,fun q hq => ?_,fun x q hx => ?_⟩,?_,hl,fun q => ?_,fun q hq => ?_⟩
  · rw [(hst q).1]
    exact hs.ticked q (hpre ▸ hq)
  · rw [(hst q).1]
    rcases hw q hq with h | ⟨rfl,h⟩
    · rcases hs.listed q h with h' | h'
      · have hqp : q ≠ p := by
          rintro rfl
          simp [hj] at h'
        rw [hother q hqp]
        exact .inl h'
      · exact .inr h'
    · rw [hself]
      exact .inl h
  · rw [(hst q).1]
    by_cases hxp : x = p
    · subst hxp
      rw [hself] at hx
      exact ht q hx
    · rw [hother x hxp] at hx
      exact hs.target x q hx
  · refine consistent_congr hgo ?_ ?_ ?_ ?_ hpc hpre (fun q => ?_) (fun q => ?_)
    · exact show t.ring = s.ring by rw [hframe]
    · exact show t.cpu = s.cpu by rw [hframe]
    · exact show t.scan = s.scan by rw [hframe]
    · exact show t.firstTime = s.firstTime by rw [hframe]
    · rw [view_state, hcv q, (hst q).1]
      exact (view_state s q).symm
    · rw [view_priority, (hst q).2, ← view_priority]
      exact hs.consistent.prio q
  · rw [hlock, hcv q]
    exact hs.lock q
  · rw [(hst q).1]
    exact hs.marked q (hcv q ▸ hq)

theorem calm_goto (hj : joining (s.pc p) = false) (hwk : waker k = none) (hl : Lines t)
    (hpc : t.pc = (s.setPc p k).pc)
    (hframe : t = { s with
      proc := t.proc, pc := t.pc, muxes := t.muxes, muxLock := t.muxLock, holds := t.holds,
      granted := t.granted })
    (hst : ∀ q, (t.proc q).state = (s.proc q).state ∧ (t.proc q).priority = (s.proc q).priority)
    (hcv : ∀ i, (t.muxes i).cv = (s.muxes i).cv) : Calm t := by
  have hwq : t.wqueue = s.wqueue := by rw [hframe]
  refine calm_move hs hc hk hplain hj hl hpc (by rw [hframe]) hst (fun q hq => .inl ?_)
    (by simp [hwk])
  rw [Waits, hwq, hpc] at hq
  simp only [hcv] at hq
  rcases waits_setPc hq with h | h
  · exact h
  · simp [hwk] at h

end

theorem calm_unlock (ht : Consistent t) (hl : t.lock = none) (hn : ∀ q, cvLock (t.pc q) = false)
    (hlines : Lines t) (hsl : Sleepers t) : Calm t := by
  refine ⟨hsl,?_,hlines,fun q => ?_,fun q hq => ?_⟩
  · rwa [view_eq hn]
  · simp [hl, hn q]
  · simp [hn q] at hq

theorem calm_same (hs : Calm s) (hls : s.lock = none) (ht : Consistent t) (hl : t.lock = none)
    (hpc : t.pc = s.pc) (hwq : t.wqueue = s.wqueue) (hcv : ∀ i, (t.muxes i).cv = (s.muxes i).cv)
    (htick : ∀ q, t.preempted q = true → (t.proc q).state = .runnable)
    (hst : ∀ q, Waits s q → (s.proc q).state = .sleeping → (t.proc q).state = .sleeping) :
    Calm t := by
  have hw : ∀ q, Waits t q → Waits s q := by
    intro q hq
    rw [Waits, hwq, hpc] at hq
    simp only [hcv] at hq
    exact hq
  refine calm_unlock ht hl (fun q => ?_) (lines_congr hs.lines hpc hwq hcv)
    ⟨htick,fun q hq => ?_,fun x q hx => ?_⟩
  · rw [hpc]
    exact calm_unlocked hs hls q
  · rw [hpc]
    exact (hs.listed q (hw q hq)).imp_right (hst q (hw q hq))
  · rw [hpc] at hx
    exact hst q (.inr (.inr ⟨x,hx⟩)) (hs.target x q hx)

end

variable {C : Type} {s t u : Kernel C} {c : C} {p q : Slot} {m : MuxId} {k : Pc}

def resting (k : Pc) : Bool := waiting k || (resumePc k).isSome

def need (s : Kernel C) (q : Slot) : ℕ :=
  (if s.preempted q then 1 else 0)+if resting (s.pc q) then 1 else 0

structure Rationed (s : Kernel C) : Prop where
  entry : ∀ q, entries s q ≤ need s q
  waits : ∀ q, Waits s q → entries s q+1 ≤ need s q

/-- Entries and places do not become more, and the needs not less. -/
theorem rationed_of (hs : Rationed s) (he : ∀ q, entries t q ≤ entries s q)
    (hw : ∀ q, Waits t q → Waits s q) (hn : ∀ q, need s q ≤ need t q) : Rationed t :=
  ⟨fun q => (he q).trans ((hs.entry q).trans (hn q)),
    fun q hq => (Nat.add_le_add_right (he q) 1).trans ((hs.waits q (hw q hq)).trans (hn q))⟩

theorem rationed_none (hs : Rationed s) (h : need s q = 0) : entries s q = 0 ∧ ¬Waits s q := by
  refine ⟨Nat.le_zero.mp (h ▸ hs.entry q),fun hw => ?_⟩
  have hq := hs.waits q hw
  omega

variable [DecidableEq C]

theorem rationed_sync (hs : Rationed s) (hl : Lines s) (hset : Settled s) {a : Act C}
    (hp : ¬blocked s p) (h : Sync s c p a t)
    (hn : ∀ i, s.pc p = .waitcvCheck i → t.pc p ≠ .user) : Rationed t := by
  have hx := section_sync hset h
  simp only [blocked, not_or, not_not] at hp
  have hother : ∀ q, q ≠ p → need t q = need s q := fun q hq => by
    rw [need, need, hx.pc q hq, hx.preempted]
  have hself : need s p = (if waiting (s.pc p) then 1 else 0) ∧
      (if waiting (t.pc p) then 1 else 0) ≤ need t p := by
    refine ⟨by simp [need, resting, hp],?_⟩
    by_cases hw : waiting (t.pc p) = true <;> simp [need, resting, hw]
  by_cases hstay : waiting (s.pc p) = true
  · have hk : waker (s.pc p) = none := by
      cases hpc : s.pc p <;> simp [hpc, waiting, waker] at hstay ⊢
    refine rationed_of hs (fun q => by simpa [hk] using hx.entries q)
      (fun q hq => (hx.waits q hq).resolve_right (by simp [hstay])) (fun q => ?_)
    by_cases hq : q = p
    · have ht := (hx.stays hstay).resolve_right (fun h => h.elim (fun i hi => hn i hi.1 hi.2))
      rw [hq]
      simpa [hself.1, hstay, ht] using hself.2
    · exact (hother q hq).ge
  · have hzero := rationed_none (q := p) hs (by simp [hself.1, hstay])
    have hwake : ∀ q, waker (s.pc p) = some q → q ≠ p ∧ Waits s q ∧ ¬Waits t q := by
      intro q hq
      obtain ⟨-,u,hu,rfl⟩ := sync_wake h hq
      have hw : Waits s q := .inr (.inr ⟨p,hq⟩)
      refine ⟨?_,hw,woken_clear hl hq hu⟩
      rintro rfl
      exact hzero.2 hw
    refine ⟨fun q => ?_,fun q hq => ?_⟩
    · have he := hx.entries q
      split at he
      · obtain ⟨hqp,hw,-⟩ := hwake q ‹_›
        rw [hother q hqp]
        exact he.trans (hs.waits q hw)
      · by_cases hqp : q = p
        · rw [hqp, hzero.1] at he
          rw [hqp]
          omega
        · rw [hother q hqp]
          exact he.trans (hs.entry q)
    · have he := hx.entries q
      rw [if_neg (fun h => (hwake q h).2.2 hq)] at he
      rcases hx.waits q hq with hw | ⟨rfl,-,hw⟩
      · have hqp : q ≠ p := by
          rintro rfl
          exact hzero.2 hw
        rw [hother q hqp]
        exact (Nat.add_le_add_right he 1).trans (hs.waits q hw)
      · have h1 := hself.2
        rw [if_pos hw] at h1
        rw [hzero.1] at he
        omega

theorem rationed_yield (hs : Rationed s) (hset : Settled s) (hp : ¬blocked s p)
    (h : yield s c p = .ok t) : Rationed t := by
  obtain ⟨-,k,rfl⟩ := yield_settled h hset
  simp only [blocked, not_or, not_not] at hp
  generalize ht : ((((setState (s.setLock (some p)) p .runnable).setRing k
    (push (s.ring k) (some p))).setPreempted p true).setCpu c none).setLock none = t
  have he : ∀ q, entries t q ≤ entries s q+if q = p then 1 else 0 := by
    intro q
    rw [← ht]
    exact entries_push_le s k p q
  have hn : ∀ q, need t q = need s q+if q = p then 1 else 0 := by
    intro q
    rw [← ht]
    by_cases hq : q = p
    · simp [need, hq, hp, Nat.add_comm]
    · simp [need, hq]
  have hw : ∀ q, Waits t q → Waits s q := by
    intro q hq
    rw [← ht] at hq
    exact hq
  refine ⟨fun q => ?_,fun q hq => ?_⟩
  · rw [hn q]
    exact (he q).trans (Nat.add_le_add_right (hs.entry q) _)
  · have h1 := hs.waits q (hw q hq)
    have h2 := he q
    rw [hn q]
    omega

/-- The entry that the scheduler takes is the switch its process waited for;
unless a tick had interrupted it, the process has no place in a queue. -/
theorem rationed_schedule (hs : Rationed s) (hd : pqDequeue s = (u,some (some p)))
    (h : dispatch u c p = .ok t) : Rationed t ∧ (s.preempted p = false → ¬Waits s p) := by
  obtain ⟨k,rfl,-,-,hr⟩ := pqDequeue_some hd
  have he : ∀ q, entries s q = entries (s.setRing k (pop (s.ring k))) q+if q = p then 1 else 0 := by
    intro q
    simp only [entries, hr, List.count_cons]
    by_cases hq : q = p
    · simp [hq]
    · simp [hq, Ne.symm hq]
  obtain ⟨ch,k',l,rfl,hk⟩ := dispatch_ok h
  generalize ht : switchTo (s.setRing k (pop (s.ring k))) c p ch k' l = t
  have het : ∀ q, entries t q = entries (s.setRing k (pop (s.ring k))) q := by
    intro q
    rw [← ht]
    rfl
  have hrest : s.preempted p = false → need s p ≤ 1 := by
    intro hb
    simp only [need, hb, Bool.false_eq_true, if_false]
    split <;> omega
  have hn : ∀ q, need s q = need t q+if q = p then 1 else 0 := by
    intro q
    rw [← ht]
    by_cases hq : q = p
    · subst hq
      rcases hk with ⟨hb,rfl,-⟩ | ⟨hb,hk,-⟩
      · have hb : s.preempted q = true := hb
        simp [need, switchTo, hb, Nat.add_comm]
      · have hb : s.preempted q = false := hb
        have hk : resumePc (s.pc q) = some k' := hk
        have hk' : resting k' = false := by
          generalize s.pc q = k₀ at hk
          cases k₀ <;> simp only [resumePc, Option.some.injEq, reduceCtorEq] at hk <;>
            subst hk <;> rfl
        have hk₀ : resting (s.pc q) = true := by simp [resting, hk]
        simp [need, switchTo, hb, hk', hk₀]
    · simp [need, switchTo, hq]
  have hw : ∀ q, Waits t q → Waits s q := by
    rintro q (hq | hq | ⟨x,hx⟩)
    · exact .inl (by rwa [← ht] at hq)
    · exact .inr (.inl (by rwa [← ht] at hq))
    · refine .inr (.inr ⟨x,?_⟩)
      rw [← ht] at hx
      by_cases hxp : x = p
      · subst hxp
        rcases hk with ⟨-,rfl,-⟩ | ⟨-,hk,-⟩
        · simpa [switchTo] using hx
        · have hk : resumePc (s.pc x) = some k' := hk
          simp only [switchTo, Kernel.setLock_pc, Kernel.setPreempted_pc, Kernel.setPc_pc,
            if_true] at hx
          generalize s.pc x = k₀ at hk
          cases k₀ <;> simp only [resumePc, Option.some.injEq, reduceCtorEq] at hk <;> subst hk <;>
            simp [waker] at hx
      · simpa [switchTo, hxp] using hx
  refine ⟨⟨fun q => ?_,fun q hq => ?_⟩,fun hb hwp => ?_⟩
  · have h1 := hs.entry q
    rw [he q, hn q] at h1
    rw [het q]
    omega
  · have h1 := hs.waits q (hw q hq)
    rw [he q, hn q] at h1
    rw [het q]
    omega
  · have h1 := hs.waits p hwp
    have h2 := hrest hb
    have h3 := he p
    simp only [if_true] at h3
    omega

end Xv6.WakeInvariant
