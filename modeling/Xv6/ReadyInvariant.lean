import Xv6.ProcessEffects

/-!
# The ready queue invariant

A slot has one ring entry when it is `RUNNABLE` and none otherwise, and the
processes on the CPUs are the `RUNNING` ones. The sections of the process calls
keep both, except an exit that finds the process in the condition queue of one
of its mutexes.
-/

set_option autoImplicit false

namespace Xv6.ReadyInvariant
open KernelState RingBuffer NullQueue ReadyQueue ProcessCalls Machine
open ProcessFrames TransitionRun

section
variable {C : Type} [DecidableEq C]

def Queued (s : Kernel C) : Prop :=
  none ∉ ready s ∧ ∀ p, entries s p = if (s.proc p).state = .runnable then 1 else 0

def OnCpus (s : Kernel C) : Prop :=
  (∀ c d p, s.cpu c = some p → s.cpu d = some p → c = d) ∧
    ∀ p, (∃ c, s.cpu c = some p) ↔ (s.proc p).state = .running

def PrioInRange (s : Kernel C) : Prop := ∀ p, (s.proc p).priority.toNat < PRIO_MAX

instance (s : Kernel C) : Decidable (Queued s) := inferInstanceAs (Decidable (_ ∧ _))

instance [Fintype C] (s : Kernel C) : Decidable (OnCpus s) := inferInstanceAs (Decidable (_ ∧ _))

instance (s : Kernel C) : Decidable (PrioInRange s) := inferInstanceAs (Decidable (∀ _, _))

def Settled (s : Kernel C) : Prop := s.firstTime = false ∧ ∀ c, s.scan c = none

def Forking (s : Kernel C) (p np : Slot) : Prop :=
  s.pc p = .forkAlloc np ∨ s.pc p = .forkReady np

structure Threads (s : Kernel C) : Prop where
  saved : ∀ p, (s.proc p).state = .runnable ∨ (s.proc p).state = .sleeping → blocked s p
  embryo : ∀ p np, Forking s p np → (s.proc np).state = .embryo
  owner : ∀ p q np, Forking s p np → Forking s q np → p = q

structure Consistent (s : Kernel C) : Prop where
  queued : Queued s
  onCpus : OnCpus s
  prio : PrioInRange s
  threads : Threads s
  settled : Settled s

theorem prioIndex_of_lt (w : BitVec 32) (h : w.toNat < PRIO_MAX) :
    ∃ k, prioIndex w = some k ∧ k.val = w.toNat := by
  have hi : w.toInt = w.toNat := by
    rw [BitVec.toInt_eq_toNat_cond]
    simp only [PRIO_MAX] at h
    rw [if_pos (by omega)]
  have hz : (w.toNat:ℤ) < PRIO_MAX := by exact_mod_cast h
  refine ⟨⟨w.toNat,h⟩,?_,rfl⟩
  rw [prioIndex, dif_pos ⟨by omega,hi ▸ hz⟩]
  simp [hi]

section Queue
variable {s t : Kernel C} {p : Slot}

section
variable (hs : Queued s)
include hs

section
omit [DecidableEq C]

theorem queued_congr (hr : t.ring = s.ring)
    (hp : ∀ q, (t.proc q).state = .runnable ↔ (s.proc q).state = .runnable) : Queued t := by
  have he : ready t = ready s := by simp [ready, hr]
  refine ⟨he ▸ hs.1,fun q => ?_⟩
  have hq := hs.2 q
  simp only [entries, he, hp q] at hq ⊢
  exact hq

/-- At most one entry for each of the 64 slots: no ring comes near to full. -/
theorem ready_length_le : (ready s).length ≤ NPROC+1 := by
  have hn : (ready s).Nodup := by
    rw [List.nodup_iff_count_le_one]
    intro e
    cases e with
    | none => simp [List.count_eq_zero_of_not_mem hs.1]
    | some p =>
      have hp := hs.2 p
      simp only [entries] at hp
      rw [hp]
      split <;> omega
  simpa using hn.length_le_card

theorem ring_room (k : Prio) : size (s.ring k)+1 < QSIZE := by
  have h1 := ring_length_le s k
  have h2 := ready_length_le hs
  simp only [NPROC, QSIZE] at *
  omega

theorem queued_push (hp : (s.proc p).state ≠ .runnable) (k : Prio) :
    Queued ((setState s p .runnable).setRing k (push (s.ring k) (some p))) := by
  have hperm : (ready ((setState s p .runnable).setRing k (push (s.ring k) (some p)))).Perm
      (some p::ready s) :=
    ready_push (setState s p .runnable) k (some p) (ring_room hs k)
  refine ⟨fun h => ?_,fun q => ?_⟩
  · have hm := hperm.mem_iff.mp h
    simp [hs.1] at hm
  · have hq := hs.2 q
    simp only [entries] at hq ⊢
    rw [hperm.count_eq, List.count_cons, hq]
    by_cases h : q = p
    · subst h
      simp [setState, hp]
    · simp [setState, h, Ne.symm h]

end

section
omit [DecidableEq C]

theorem queued_makeRunnable (hr : PrioInRange s) (hp : (s.proc p).state ≠ .runnable) :
    ∃ k, makeRunnable s p =
        .ok ((setState s p .runnable).setRing k (push (s.ring k) (some p))) ∧
      Queued ((setState s p .runnable).setRing k (push (s.ring k) (some p))) := by
  obtain ⟨k,hk,-⟩ := prioIndex_of_lt _ (hr p)
  exact ⟨k,makeRunnable_of hk (not_ringFull _ (ring_room hs k)),queued_push hs hp k⟩

theorem queued_dequeue {e : Option Slot} (h : pqDequeue s = (t,some e)) :
    ∃ k p, e = some p ∧ t = s.setRing k (pop (s.ring k)) ∧ (s.proc p).state = .runnable ∧
      none ∉ ready t ∧
      ∀ q, entries t q = if (s.proc q).state = .runnable ∧ q ≠ p then 1 else 0 := by
  obtain ⟨k,rfl,-,-,hr⟩ := pqDequeue_some h
  cases e with
  | none => exact absurd (by simp [hr]) hs.1
  | some p =>
    have hp := hs.2 p
    simp only [entries, hr, List.count_cons_self] at hp
    have hrun : (s.proc p).state = .runnable := by
      by_contra hn
      simp [hn] at hp
    refine ⟨k,p,rfl,rfl,hrun,fun hm => hs.1 (by simp [hr, hm]),fun q => ?_⟩
    have hq := hs.2 q
    simp only [entries, hr, List.count_cons] at hq ⊢
    by_cases h : q = p
    · subst h
      simp [hrun] at hq
      simp [hq]
    · simpa [h, Ne.symm h] using hq

end

end

end Queue

/-- A section ends well when it leaves `I` or stops without a wild access and
without the panic of a full queue. -/
def Sound (I : Kernel C → Prop) : Except Stop (Kernel C) → Prop
  | .ok t => I t
  | .error e => e ≠ .wild ∧ e ≠ .panic fullMessage

section Sound
variable {I J : Kernel C → Prop} {s : Kernel C} {c : C} {p : Slot}
  {f : Kernel C → Except Stop (Kernel C)}

section
omit [DecidableEq C]

theorem sound_disabled : Sound I (.error .disabled) := by
  simp [Sound]

theorem sound_onCpu {g : Slot → Except Stop (Kernel C)}
    (h : ∀ p, s.cpu c = some p → Sound I (g p)) : Sound I (onCpu s c g) := by
  unfold onCpu
  split
  · exact sound_disabled
  · exact h _ ‹_›

theorem sound_call {g : Slot → Except Stop (Kernel C)}
    (h : ∀ p, s.cpu c = some p → s.pc p = .user → Sound I (g p)) : Sound I (call s c g) := by
  apply sound_onCpu
  intro p hc
  split
  · exact h p hc ‹_›
  · exact sound_disabled

end

theorem acquire_message : "acquire" ≠ fullMessage := by decide

omit [DecidableEq C] in
theorem sound_acquirePtable (h : s.lock = none → Sound I (f (s.setLock (some p)))) :
    Sound I (acquirePtable s p >>= f) := by
  cases hl : s.lock with
  | none => simpa [acquirePtable, acquire, hl, bind, Except.bind] using h hl
  | some q =>
    by_cases hq : q = p
    · simp [acquirePtable, acquire, hl, hq, bind, Except.bind, Sound, acquire_message]
    · simp [acquirePtable, acquire, hl, hq, bind, Except.bind, Sound]

end Sound

theorem sound_sched {I : Kernel C → Prop} {s : Kernel C} {c : C} {p : Slot}
    (hs : s.scan c = none) (h : I ((s.setCpu c none).setLock none)) : Sound I (sched s c p) := by
  unfold sched
  split
  · simp [Sound, fullMessage]
  split
  · simp [Sound, fullMessage]
  split
  · simp [Sound, fullMessage]
  · rw [hs]
    exact h

theorem sched_settled {s t : Kernel C} {c : C} {p : Slot} (h : sched s c p = .ok t)
    (hs : Settled s) : s.lock = some p ∧ t = (s.setCpu c none).setLock none := by
  obtain ⟨hl,-,-,⟨-,ht⟩ | ⟨i,hi,-⟩⟩ := sched_ok h
  · exact ⟨hl,ht⟩
  · simp [hs.2 c] at hi

structure Wakes (s u : Kernel C) : Prop extends Woken s u where
  queued : Queued u

section Wakes
variable {s t u : Kernel C} {p q : Slot}

omit [DecidableEq C] in
theorem wakes_trans (h : Wakes s t) (k : Wakes t u) : Wakes s u :=
  ⟨woken_trans h.toWoken k.toWoken,k.queued⟩

section
omit [DecidableEq C]

theorem wakes_prio (h : Woken s t) (hr : PrioInRange s) : PrioInRange t := by
  intro q
  rw [h.priority q]
  exact hr q

theorem wakes_running (h : Woken s t) (q : Slot) :
    (t.proc q).state = .running ↔ (s.proc q).state = .running := by
  rcases h.state q with hq | hq
  · rw [hq]
  · simp [hq.1, hq.2]

end

section
variable (hs : Queued s)
include hs

section
omit [DecidableEq C]

theorem queued_setProc (r : Proc) (hr : r.state = (s.proc q).state) : Queued (s.setProc q r) := by
  refine queued_congr (t := s.setProc q r) hs rfl (fun x => ?_)
  simp only [Kernel.setProc_proc]
  split <;> simp [*]

theorem wakes_makeRunnable (hr : PrioInRange s) (hq : (s.proc q).state = .sleeping) :
    ∃ t, makeRunnable s q = .ok t ∧ Wakes s t := by
  obtain ⟨k,hk,hQ⟩ := queued_makeRunnable (p := q) hs hr (by simp [hq])
  exact ⟨_,hk,woken_makeRunnable hq hk,hQ⟩

theorem wakes_wakeup1 (hr : PrioInRange s) (ch : Option Chan) :
    ∃ t, wakeup1 s ch = .ok t ∧ Wakes s t := by
  apply foldlM_total (Wakes s)
  · intro t q _ ht
    unfold wakeOne
    split
    · rename_i hq
      obtain ⟨u,hu,hw⟩ := wakes_makeRunnable ht.queued (wakes_prio ht.toWoken hr) hq.1
      exact ⟨u,hu,wakes_trans ht hw⟩
    · exact ⟨t,rfl,ht⟩
  · exact ⟨woken_refl s,hs⟩

theorem wakes_markKilled (hr : PrioInRange s) : ∃ t, markKilled s q = .ok t ∧ Wakes s t := by
  have hk : Wakes s (s.setProc q { s.proc q with killed := true }) :=
    ⟨woken_setProc _ rfl rfl rfl,queued_setProc hs _ rfl⟩
  unfold markKilled
  simp only
  split
  · rename_i hq
    obtain ⟨t,ht,hw⟩ := wakes_makeRunnable (q := q) hk.queued (wakes_prio hk.toWoken hr)
      (by simpa using hq)
    exact ⟨t,ht,wakes_trans hk hw⟩
  · exact ⟨_,rfl,hk⟩

theorem wakes_reparentOne (hr : PrioInRange s) : ∃ t, reparentOne p s q = .ok t ∧ Wakes s t := by
  unfold reparentOne
  split
  · have hp : Wakes s (s.setProc q { s.proc q with parent := s.initproc }) :=
      ⟨woken_setProc _ rfl rfl rfl,queued_setProc hs _ rfl⟩
    simp only
    split
    · obtain ⟨t,ht,hw⟩ := wakes_wakeup1 hp.queued (wakes_prio hp.toWoken hr)
        (s.initproc.map .proc)
      exact ⟨t,ht,wakes_trans hp hw⟩
    · exact ⟨_,rfl,hp⟩
  · exact ⟨s,rfl,woken_refl s,hs⟩

theorem wakes_reparent (hr : PrioInRange s) :
    ∃ t, (List.finRange NPROC).foldlM (reparentOne p) s = .ok t ∧ Wakes s t := by
  apply foldlM_total (Wakes s)
  · intro t q _ ht
    obtain ⟨u,hu,hw⟩ := wakes_reparentOne (p := p) (q := q) ht.queued
      (wakes_prio ht.toWoken hr)
    exact ⟨u,hu,wakes_trans ht hw⟩
  · exact ⟨woken_refl s,hs⟩

end

end

end Wakes

end

variable {C : Type} {s t u : Kernel C} {c : C} {p q np : Slot} {k : Pc}

def Plain (k : Pc) : Prop := ∀ np, k ≠ .forkAlloc np ∧ k ≠ .forkReady np

theorem consistent_running (hs : Consistent s) (hc : s.cpu c = some p) :
    (s.proc p).state = .running := (hs.onCpus.2 p).mp ⟨c,hc⟩

theorem running_awake (h : (s.proc p).state = .running) :
    (s.proc p).state ≠ .runnable ∧ (s.proc p).state ≠ .sleeping := by
  simp [h]

theorem setPc_comm (h : p ≠ q) (k l : Pc) : (s.setPc p k).setPc q l = (s.setPc q l).setPc p k := by
  simp only [Kernel.setPc, Kernel.mk.injEq, true_and, and_true]
  funext x
  by_cases hx : x = p
  · simp [hx, h]
  · simp [hx]

section
variable (hs : Consistent s)
include hs

theorem consistent_wakes (hw : Wakes s u) : Consistent u := by
  have hcpu := woken_cpu hw.toWoken
  have hpc := woken_pc hw.toWoken
  have hfork : ∀ x np, Forking u x np ↔ Forking s x np := by
    intro x np
    rw [Forking, Forking, hpc]
  refine ⟨hw.queued,⟨hcpu ▸ hs.onCpus.1,fun q => ?_⟩,wakes_prio hw.toWoken hs.prio,
    ⟨fun q hq => ?_,fun q np hf => ?_,fun q r np hq hr => ?_⟩,?_⟩
  · rw [hcpu, wakes_running hw.toWoken q]
    exact hs.onCpus.2 q
  · have hq : (s.proc q).state = .runnable ∨ (s.proc q).state = .sleeping := by
      rcases hw.state q with h | h
      · exact h ▸ hq
      · exact .inr h.1
    rw [blocked, hpc, woken_preempted hw.toWoken]
    exact hs.threads.saved q hq
  · have he := hs.threads.embryo q np ((hfork q np).mp hf)
    rcases hw.state np with h | h
    · exact h.trans he
    · exact absurd (h.1.symm.trans he) (by decide)
  · exact hs.threads.owner q r np ((hfork q np).mp hq) ((hfork r np).mp hr)
  · rw [hw.frame]
    exact hs.settled

/-- Consistency reads the states, the priorities and the control points only. -/
theorem consistent_congr (hring : t.ring = s.ring) (hcpu : t.cpu = s.cpu) (hscan : t.scan = s.scan)
    (hfirst : t.firstTime = s.firstTime) (hpc : t.pc = s.pc) (hpre : t.preempted = s.preempted)
    (hst : ∀ q, (t.proc q).state = (s.proc q).state)
    (hp : ∀ q, (t.proc q).priority.toNat < PRIO_MAX) : Consistent t := by
  have hfork : ∀ x np, Forking t x np ↔ Forking s x np := by
    intro x np
    rw [Forking, Forking, hpc]
  refine ⟨queued_congr hs.queued hring (fun q => by rw [hst q]),⟨hcpu ▸ hs.onCpus.1,fun q => ?_⟩,hp,
    ⟨fun q hq => ?_,fun q np hf => ?_,fun q r np hq hr => ?_⟩,?_⟩
  · rw [hcpu, hst q]
    exact hs.onCpus.2 q
  · rw [blocked, hpc, hpre]
    rw [hst q] at hq
    exact hs.threads.saved q hq
  · rw [hst np]
    exact hs.threads.embryo q np ((hfork q np).mp hf)
  · exact hs.threads.owner q r np ((hfork q np).mp hq) ((hfork r np).mp hr)
  · rw [Settled, hfirst, hscan]
    exact hs.settled

theorem consistent_setLock (l : Option Slot) : Consistent (s.setLock l) :=
  consistent_congr hs rfl rfl rfl rfl rfl rfl (fun _ => rfl) hs.prio

theorem consistent_setProc (r : Proc) (hr : r.state = (s.proc q).state)
    (hp : r.priority.toNat < PRIO_MAX) : Consistent (s.setProc q r) := by
  refine consistent_congr (t := s.setProc q r) hs rfl rfl rfl rfl rfl rfl (fun x => ?_)
    (fun x => ?_)
  · simp only [Kernel.setProc_proc]
    split <;> simp [*]
  · simp only [Kernel.setProc_proc]
    split
    · exact hp
    · exact hs.prio x

theorem consistent_setPc (hp : (s.proc p).state ≠ .runnable ∧ (s.proc p).state ≠ .sleeping)
    (hk : ∀ np, k = .forkAlloc np ∨ k = .forkReady np → (s.proc np).state = .embryo ∧
      ∀ x, Forking s x np → x = p) :
    Consistent (s.setPc p k) := by
  have hfork : ∀ x np, Forking (s.setPc p k) x np →
      if x = p then k = .forkAlloc np ∨ k = .forkReady np else Forking s x np := by
    intro x np hf
    split
    · simpa [Forking, *] using hf
    · simpa [Forking, *] using hf
  refine ⟨hs.queued,hs.onCpus,hs.prio,⟨fun x hx => ?_,fun x np hf => ?_,fun x y np hx hy => ?_⟩,
    hs.settled⟩
  · have hn : x ≠ p := by
      rintro rfl
      rcases hx with h | h
      · exact hp.1 h
      · exact hp.2 h
    simpa [blocked, hn] using hs.threads.saved x hx
  · have hf := hfork x np hf
    split at hf
    · exact (hk np hf).1
    · exact hs.threads.embryo x np hf
  · have hx := hfork x np hx
    have hy := hfork y np hy
    by_cases h1 : x = p <;> by_cases h2 : y = p <;> simp only [h1, h2, if_true, if_false] at hx hy
    · rw [h1, h2]
    · exact h1.trans ((hk np hx).2 y hy).symm
    · exact ((hk np hy).2 x hx).trans h2.symm
    · exact hs.threads.owner x y np hx hy

theorem consistent_goto (hp : (s.proc p).state ≠ .runnable ∧ (s.proc p).state ≠ .sleeping)
    (hk : Plain k) : Consistent (s.setPc p k) := by
  apply consistent_setPc hs hp
  intro np h
  rcases h with h | h
  · exact absurd h (hk np).1
  · exact absurd h (hk np).2

theorem consistent_ret (hp : (s.proc p).state = .running) (v : ℤ) : Consistent (ret s p v) := by
  have hr : Consistent (s.setProc p { s.proc p with eax := v }) :=
    consistent_setProc hs _ rfl (hs.prio p)
  exact consistent_goto hr (by simp [hp]) (by simp [Plain])

end

def Idle (x : ProcState) : Prop := x ≠ .runnable ∧ x ≠ .sleeping ∧ x ≠ .running

theorem consistent_idle (hs : Consistent s) (r : Proc) (hq : Idle (s.proc q).state)
    (hr : Idle r.state) (hp : r.priority.toNat < PRIO_MAX)
    (ho : ∀ x, Forking s x q → r.state = .embryo) : Consistent (s.setProc q r) := by
  refine ⟨queued_congr hs.queued rfl (fun x => ?_),⟨hs.onCpus.1,fun x => ?_⟩,fun x => ?_,
    ⟨fun x hx => ?_,fun x y hf => ?_,hs.threads.owner⟩,hs.settled⟩
  · by_cases hx : x = q
    · simp [hx, hr.1, hq.1]
    · simp [hx]
  · refine (hs.onCpus.2 x).trans ?_
    by_cases hx : x = q
    · simp [hx, hr.2.2, hq.2.2]
    · simp [hx]
  · by_cases hx : x = q
    · simpa [hx] using hp
    · simpa [hx] using hs.prio x
  · by_cases hx' : x = q
    · simp [hx', hr.1, hr.2.1] at hx
    · exact hs.threads.saved x (by simpa [hx'] using hx)
  · by_cases hy : y = q
    · subst hy
      simpa using ho x hf
    · simpa [hy] using hs.threads.embryo x y hf

theorem consistent_publish (hs : Consistent s) (hq : (s.proc q).state = .embryo)
    (ho : ∀ x, ¬Forking s x q) (k : Prio)
    (h : Queued ((setState s q .runnable).setRing k (push (s.ring k) (some q)))) :
    Consistent (((setState s q .runnable).setRing k (push (s.ring k) (some q))).setPc q
      .newborn) := by
  have hfork : ∀ x y, Forking (((setState s q .runnable).setRing k
      (push (s.ring k) (some q))).setPc q .newborn) x y → y ≠ q ∧ Forking s x y := by
    intro x y hf
    have hx : x ≠ q := by
      rintro rfl
      simp [Forking] at hf
    have hs : Forking s x y := by simpa [Forking, hx] using hf
    refine ⟨?_,hs⟩
    rintro rfl
    exact ho x hs
  refine ⟨h,⟨hs.onCpus.1,fun x => ?_⟩,fun x => ?_,
    ⟨fun x hx => ?_,fun x y hf => ?_,fun x y np hx hy => ?_⟩,hs.settled⟩
  · refine (hs.onCpus.2 x).trans ?_
    by_cases hx : x = q
    · simp [hx, hq]
    · simp [hx]
  · by_cases hx : x = q
    · simpa [hx] using hs.prio q
    · simpa [hx] using hs.prio x
  · by_cases hx' : x = q
    · simp [blocked, hx', resumePc]
    · simpa [blocked, hx'] using hs.threads.saved x (by simpa [hx'] using hx)
  · obtain ⟨hy,hf⟩ := hfork x y hf
    simpa [hy] using hs.threads.embryo x y hf
  · exact hs.threads.owner x y np (hfork x np hx).2 (hfork y np hy).2

variable [DecidableEq C]

theorem onCpus_leave (hs : OnCpus s) (hc : s.cpu c = some p) (ht : t.cpu = (s.setCpu c none).cpu)
    (hr : ∀ x, (t.proc x).state = .running ↔ x ≠ p ∧ (s.proc x).state = .running) : OnCpus t := by
  have hcpu : ∀ d x, t.cpu d = some x ↔ d ≠ c ∧ s.cpu d = some x := by
    intro d x
    simp [ht]
  refine ⟨fun d e x hd he => ?_,fun x => ?_⟩
  · exact hs.1 d e x ((hcpu d x).mp hd).2 ((hcpu e x).mp he).2
  · rw [hr x, ← hs.2 x]
    constructor
    · rintro ⟨d,hd⟩
      obtain ⟨hd,he⟩ := (hcpu d x).mp hd
      refine ⟨?_,d,he⟩
      rintro rfl
      exact hd (hs.1 d c x he hc)
    · rintro ⟨hx,d,he⟩
      refine ⟨d,(hcpu d x).mpr ⟨?_,he⟩⟩
      rintro rfl
      exact hx (Option.some.inj (he.symm.trans hc))

theorem onCpus_enter (hs : OnCpus s) (hc : s.cpu c = none) (hp : (s.proc p).state ≠ .running)
    (ht : t.cpu = (s.setCpu c (some p)).cpu)
    (hr : ∀ x, (t.proc x).state = .running ↔ x = p ∨ (s.proc x).state = .running) : OnCpus t := by
  have hoff : ∀ d, s.cpu d ≠ some p := fun d hd => hp ((hs.2 p).mp ⟨d,hd⟩)
  have hcpu : ∀ d x, t.cpu d = some x ↔ d = c ∧ x = p ∨ d ≠ c ∧ s.cpu d = some x := by
    intro d x
    by_cases hd : d = c
    · simp [ht, hd, eq_comm]
    · simp [ht, hd]
  refine ⟨fun d e x hd he => ?_,fun x => ?_⟩
  · rcases (hcpu d x).mp hd with ⟨h1,rfl⟩ | h1 <;> rcases (hcpu e _).mp he with ⟨h2,h⟩ | h2
    · rw [h1, h2]
    · exact absurd h2.2 (hoff e)
    · exact absurd (h ▸ h1.2) (hoff d)
    · exact hs.1 d e x h1.2 h2.2
  · rw [hr x, ← hs.2 x]
    constructor
    · rintro ⟨d,hd⟩
      rcases (hcpu d x).mp hd with h | h
      · exact .inl h.2
      · exact .inr ⟨d,h.2⟩
    · rintro (rfl | ⟨d,hd⟩)
      · exact ⟨c,(hcpu c x).mpr (.inl ⟨rfl,rfl⟩)⟩
      · refine ⟨d,(hcpu d x).mpr (.inr ⟨?_,hd⟩)⟩
        rintro rfl
        simp [hc] at hd

/-- A section ends by leaving its CPU: asleep at a point it can go on from,
or as a zombie. -/
theorem consistent_leave (hs : Consistent s) (hc : s.cpu c = some p) (r : Proc)
    (hr : r.state = .sleeping ∧ resumePc k ≠ none ∨ r.state = .zombie)
    (hp : r.priority.toNat < PRIO_MAX) (hk : Plain k) :
    Consistent ((((s.setProc p r).setPc p k).setCpu c none).setLock none) := by
  have hrun := consistent_running hs hc
  have hn : r.state ≠ .runnable ∧ r.state ≠ .running := by
    rcases hr with h | h <;> simp [h]
  have hfork : ∀ x np, Forking ((((s.setProc p r).setPc p k).setCpu c none).setLock none) x np →
      Forking s x np := by
    intro x np hf
    by_cases hx : x = p
    · simp [Forking, hx, hk np] at hf
    · simpa [Forking, hx] using hf
  refine ⟨queued_congr hs.queued rfl (fun x => ?_),onCpus_leave hs.onCpus hc rfl (fun x => ?_),
    fun x => ?_,⟨fun x hx => ?_,fun x np hf => ?_,fun x y np hx hy => ?_⟩,hs.settled⟩
  · by_cases hx : x = p
    · simp [hx, hn.1, hrun]
    · simp [hx]
  · by_cases hx : x = p
    · simp [hx, hn.2]
    · simp [hx]
  · by_cases hx : x = p
    · simpa [hx] using hp
    · simpa [hx] using hs.prio x
  · by_cases hx' : x = p
    · subst hx'
      rcases hr with h | h
      · simp [blocked, h.2]
      · simp [h] at hx
    · simpa [blocked, hx'] using hs.threads.saved x (by simpa [hx'] using hx)
  · have he := hs.threads.embryo x np (hfork x np hf)
    have hx : np ≠ p := by
      rintro rfl
      simp [hrun] at he
    simpa [hx] using he
  · exact hs.threads.owner x y np (hfork x np hx) (hfork y np hy)

theorem consistent_preempt (hs : Consistent s) (hc : s.cpu c = some p) (k : Prio)
    (hq : Queued ((setState s p .runnable).setRing k (push (s.ring k) (some p)))) :
    Consistent (((((setState s p .runnable).setRing k (push (s.ring k) (some p))).setPreempted p
      true).setCpu c none).setLock none) := by
  have hrun := consistent_running hs hc
  refine ⟨hq,onCpus_leave hs.onCpus hc rfl (fun x => ?_),fun x => ?_,
    ⟨fun x hx => ?_,fun x np hf => ?_,hs.threads.owner⟩,hs.settled⟩
  · by_cases hx : x = p
    · simp [hx]
    · simp [hx]
  · by_cases hx : x = p
    · simpa [hx] using hs.prio p
    · simpa [hx] using hs.prio x
  · by_cases hx' : x = p
    · simp [blocked, hx']
    · simpa [blocked, hx'] using hs.threads.saved x (by simpa [hx'] using hx)
  · have he := hs.threads.embryo x np hf
    have hx : np ≠ p := by
      rintro rfl
      simp [hrun] at he
    simpa [hx] using he

theorem resumePc_plain {k' : Pc} (h : resumePc k = some k') : Plain k' := by
  intro np
  cases k <;> simp only [resumePc, Option.some.injEq, reduceCtorEq] at h <;> simp [← h]

theorem dispatch_total (h : blocked s p) : ∃ t, dispatch s c p = .ok t := by
  unfold dispatch
  split
  · exact ⟨_,rfl⟩
  · rename_i hn
    obtain ⟨k,hk⟩ := Option.ne_none_iff_exists'.mp (h.resolve_left hn)
    rw [hk]
    exact ⟨_,rfl⟩

theorem consistent_switchTo (hs : Consistent s) (hc : s.cpu c = none)
    (hd : pqDequeue s = (u,some (some p))) (ch : Option Chan) (l : Option Slot)
    (hk : k = s.pc p ∨ Plain k) : Consistent (switchTo u c p ch k l) := by
  obtain ⟨i,q,hq,rfl,hrun,hnone,hent⟩ := queued_dequeue hs.queued hd
  cases hq
  have hfork : ∀ x np, Forking (switchTo (s.setRing i (pop (s.ring i))) c p ch k l) x np →
      Forking s x np := by
    intro x np hf
    by_cases hx : x = p
    · subst hx
      rcases hk with rfl | hk
      · simpa [Forking, switchTo] using hf
      · simp [Forking, switchTo, hk np] at hf
    · simpa [Forking, switchTo, hx] using hf
  refine ⟨⟨hnone,fun x => ?_⟩,onCpus_enter hs.onCpus hc (p := p) (by simp [hrun]) rfl (fun x => ?_),
    fun x => ?_,⟨fun x hx => ?_,fun x np hf => ?_,fun x y np hx hy => ?_⟩,hs.settled⟩
  · refine (hent x).trans ?_
    by_cases hx : x = p
    · simp [switchTo, hx]
    · simp [switchTo, hx]
  · by_cases hx : x = p
    · simp [switchTo, hx]
    · simp [switchTo, hx]
  · by_cases hx : x = p
    · simpa [switchTo, hx] using hs.prio p
    · simpa [switchTo, hx] using hs.prio x
  · have hx' : x ≠ p := by
      rintro rfl
      simp [switchTo] at hx
    simpa [blocked, switchTo, hx'] using hs.threads.saved x (by simpa [switchTo, hx'] using hx)
  · have he := hs.threads.embryo x np (hfork x np hf)
    have hx : np ≠ p := by
      rintro rfl
      simp [hrun] at he
    simpa [switchTo, hx] using he
  · exact hs.threads.owner x y np (hfork x np hx) (hfork y np hy)

theorem consistent_switch (hs : Consistent s) (hc : s.cpu c = none) {e : Option Slot}
    (hd : pqDequeue s = (u,some e)) : ∃ p t, e = some p ∧ (s.proc p).state = .runnable ∧
      dispatch u c p = .ok t ∧ Consistent t := by
  obtain ⟨i,p,rfl,hu,hrun,-⟩ := queued_dequeue hs.queued hd
  have hpc : u.pc = s.pc := by rw [hu]; rfl
  have hb : blocked u p := by
    rw [hu]
    exact hs.threads.saved p (.inl hrun)
  obtain ⟨t,ht⟩ := dispatch_total (c := c) hb
  refine ⟨p,t,rfl,hrun,ht,?_⟩
  obtain ⟨ch,k,l,rfl,hk⟩ := dispatch_ok ht
  apply consistent_switchTo hs hc hd
  rcases hk with ⟨-,rfl,-⟩ | ⟨-,hr,-⟩
  · exact .inl (by rw [hpc])
  · exact .inr (resumePc_plain hr)

end Xv6.ReadyInvariant
