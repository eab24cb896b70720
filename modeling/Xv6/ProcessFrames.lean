import Xv6.Machine

/-!
# What the process calls leave alone

One inversion lemma for each way a section is entered or left. Most sections of
the process calls leave the mutexes, the wait queues, the histories and the
references and priorities as they are, queue an entry only in the ring of its
priority, and move threads only inside the process calls or out of a `sched`
call.
-/

set_option autoImplicit false

namespace Xv6.ProcessFrames
open KernelState ReadyQueue ProcessCalls MutexCalls Machine TransitionRun
open RingBuffer

section
variable {C : Type} {s t : Kernel C} {c : C} {p : Slot}

theorem onCpu_ok {f : Slot → Except Stop (Kernel C)} (h : onCpu s c f = .ok t) :
    ∃ p, s.cpu c = some p ∧ f p = .ok t := by
  unfold onCpu at h
  split at h
  · simp at h
  · exact ⟨_,‹_›,h⟩

theorem call_ok {f : Slot → Except Stop (Kernel C)} (h : call s c f = .ok t) :
    ∃ p, s.cpu c = some p ∧ s.pc p = .user ∧ f p = .ok t := by
  obtain ⟨p,hc,h⟩ := onCpu_ok h
  split at h
  · exact ⟨p,hc,‹_›,h⟩
  · simp at h

theorem muxCall_ok {id : ℤ} {f : Slot → MuxId → Except Stop (Kernel C)}
    (h : muxCall s c id f = .ok t) :
    ∃ p m, s.cpu c = some p ∧ s.pc p = .user ∧ muxIndex id = some m ∧ f p m = .ok t := by
  obtain ⟨p,hc,hu,h⟩ := call_ok h
  cases hm : muxIndex id with
  | none => simp [hm] at h
  | some m => exact ⟨p,m,hc,hu,rfl,by simpa [hm] using h⟩

theorem onCpu_eq {f : Slot → Except Stop (Kernel C)} (hc : s.cpu c = some p) :
    onCpu s c f = f p := by
  simp [onCpu, hc]

theorem call_eq {f : Slot → Except Stop (Kernel C)} (hc : s.cpu c = some p)
    (hu : s.pc p = .user) : call s c f = f p := by
  simp [call, onCpu, hc, hu]

theorem muxCall_eq {id : ℤ} {m : MuxId} {f : Slot → MuxId → Except Stop (Kernel C)}
    (hc : s.cpu c = some p) (hu : s.pc p = .user) (hm : muxIndex id = some m) :
    muxCall s c id f = f p m := by
  simp [muxCall, call, onCpu, hc, hu, hm]

theorem acquire_ok {l : Option Slot} {u : Unit} (h : acquire l p = .ok u) : l = none := by
  cases l with
  | none => rfl
  | some q =>
    simp only [acquire] at h
    split at h <;> simp at h

theorem acquirePtable_ok (h : acquirePtable s p = .ok t) :
    s.lock = none ∧ t = s.setLock (some p) := by
  obtain ⟨u,hu,h⟩ := bind_ok h
  exact ⟨acquire_ok hu,(Except.ok.inj h).symm⟩

variable [DecidableEq C]

/-- A switch leads back into the thread's own code: to where a clock tick
interrupted it, or behind the `sched` call it blocked in. -/
theorem dispatch_ok (h : dispatch s c p = .ok t) :
    ∃ ch k l, t = switchTo s c p ch k l ∧
      ((s.preempted p = true ∧ k = s.pc p ∧ ch = (s.proc p).chan ∧ l = none) ∨
       (s.preempted p = false ∧ resumePc (s.pc p) = some k ∧
        ch = (if s.pc p = .asleep ∨ s.pc p = .waiting then none else (s.proc p).chan) ∧
        l = if k = .waitScan then some p else none)) := by
  unfold dispatch at h
  split at h
  · exact ⟨_,_,_,(Except.ok.inj h).symm,.inl ⟨‹_›,rfl,rfl,rfl⟩⟩
  · split at h
    · simp at h
    · rename_i hp _ k hk
      exact ⟨_,k,_,(Except.ok.inj h).symm,.inr ⟨Bool.eq_false_iff.mpr hp,hk,rfl,rfl⟩⟩

theorem findSlot_some {f : Slot → Bool} {q : Slot} (h : findSlot f = some q) : f q = true :=
  List.find?_some h

theorem findSlot_none {f : Slot → Bool} (h : findSlot f = none) (q : Slot) : f q = false := by
  simpa using List.find?_eq_none.mp h q (List.mem_finRange q)

theorem scanFrom_ok {i : ℕ} (h : scanFrom s c i = .ok t) :
    t = (s.setScan c none).setLock none ∨
    ∃ q, (s.proc q).state = .runnable ∧ dispatch (s.setScan c (some (q.val+1))) c q = .ok t := by
  unfold scanFrom at h
  split at h
  · exact .inl (Except.ok.inj h).symm
  · rename_i q hq
    have hr := findSlot_some hq
    simp only [Bool.and_eq_true, decide_eq_true_eq] at hr
    exact .inr ⟨q,hr.2,h⟩

theorem sched_ok (h : sched s c p = .ok t) :
    s.lock = some p ∧ s.muxLock ≠ some p ∧ (s.proc p).state ≠ .running ∧
    ((s.scan c = none ∧ t = (s.setCpu c none).setLock none) ∨
     ∃ i, s.scan c = some i ∧ scanFrom (s.setCpu c none) c i = .ok t) := by
  unfold sched at h
  split at h
  · simp at h
  split at h
  · simp at h
  split at h
  · simp at h
  refine ⟨by simpa using ‹¬s.lock ≠ some p›,‹_›,‹_›,?_⟩
  cases hi : s.scan c with
  | none =>
    rw [hi] at h
    exact .inl ⟨rfl,(Except.ok.inj h).symm⟩
  | some i =>
    rw [hi] at h
    exact .inr ⟨i,rfl,h⟩

theorem scheduler_ok (h : scheduler s c = .ok t) :
    s.lock = none ∧ s.cpu c = none ∧ (c = s.bootCpu → s.stage = .done) ∧
    ((s.firstTime = true ∧ scanFrom { s with firstTime := false } c 0 = .ok t) ∨
     (s.firstTime = false ∧ pqDequeue s = (t,none)) ∨
     ∃ u p, s.firstTime = false ∧ pqDequeue s = (u,some (some p)) ∧ dispatch u c p = .ok t) := by
  unfold scheduler at h
  split at h
  · simp at h
  rename_i hg
  simp only [not_or, not_and, not_not] at hg
  refine ⟨hg.1,hg.2.1,hg.2.2,?_⟩
  split at h
  · exact .inl ⟨‹_›,h⟩
  rename_i hf
  have hf : s.firstTime = false := by simpa using hf
  split at h
  · cases h
    exact .inr (.inl ⟨hf,‹_›⟩)
  · simp at h
  · exact .inr (.inr ⟨_,_,hf,‹_›,h⟩)

end

variable {C : Type} {s t : Kernel C} {c : C} {p : Slot}

def isProcessPc : Pc → Bool
  | .absent | .newborn | .user | .asleep | .waitScan | .waiting | .exited => true
  | _ => false

def Dead (x : ProcState) : Prop := x = .unused ∨ x = .embryo ∨ x = .zombie

instance (x : ProcState) : Decidable (Dead x) := inferInstanceAs (Decidable (_ ∨ _))

def Later (k l : Pc) : Prop := l = k ∨ resumePc k = some l ∨ isProcessPc l = true

theorem resumePc_final {k l : Pc} (h : resumePc k = some l) : resumePc l = none := by
  cases k <;> simp only [resumePc, Option.some.injEq, reduceCtorEq] at h <;> subst h <;> rfl

theorem later_trans {k l m : Pc} (h : Later k l) (h' : Later l m) : Later k m := by
  rcases h' with rfl | hr | hp
  · exact h
  · rcases h with rfl | hk | hp
    · exact .inr (.inl hr)
    · simp [resumePc_final hk] at hr
    · refine .inr (.inr ?_)
      cases l <;> simp only [resumePc, isProcessPc, Option.some.injEq, reduceCtorEq,
        Bool.false_eq_true] at hr hp <;> subst hr <;> rfl
  · exact .inr (.inr hp)

structure Routine (s t : Kernel C) : Prop where
  rest : t = { s with
    proc := t.proc, ring := t.ring, nextpid := t.nextpid, firstTime := t.firstTime, cpu := t.cpu,
    scan := t.scan, lock := t.lock, pc := t.pc, preempted := t.preempted }
  muxPtrs : ∀ q, (t.proc q).muxPtrs = (s.proc q).muxPtrs
  priority : ∀ q, (t.proc q).priority = (s.proc q).priority
  moved : ∀ k q, some q ∈ contents (t.ring k) →
    some q ∈ contents (s.ring k) ∨ prioIndex (s.proc q).priority = some k
  pc : ∀ q, Later (s.pc q) (t.pc q)
  dead : ∀ q, Dead (t.proc q).state → Dead (s.proc q).state

structure Woken (s t : Kernel C) : Prop extends Routine s t where
  frame : t = { s with proc := t.proc, ring := t.ring }
  state : ∀ q, (t.proc q).state = (s.proc q).state ∨
    ((s.proc q).state = .sleeping ∧ (t.proc q).state = .runnable)

section Routine
variable {u : Kernel C} {q : Slot}

theorem routine_trans (h : Routine s t) (k : Routine t u) : Routine s u where
  rest := by
    rw [k.rest, h.rest]
  muxPtrs q := (k.muxPtrs q).trans (h.muxPtrs q)
  priority q := (k.priority q).trans (h.priority q)
  moved i q hq := by
    rcases k.moved i q hq with hk | hk
    · exact h.moved i q hk
    · rw [h.priority q] at hk
      exact .inr hk
  pc q := later_trans (h.pc q) (k.pc q)
  dead q hq := h.dead q (k.dead q hq)

/-- The table, the rings and the threads stay as they are. -/
theorem routine_control (h : t = { s with
    nextpid := t.nextpid, firstTime := t.firstTime, cpu := t.cpu, scan := t.scan, lock := t.lock,
    preempted := t.preempted }) : Routine s t := by
  have hp : t.proc = s.proc := by rw [h]
  have hr : t.ring = s.ring := by rw [h]
  have hc : t.pc = s.pc := by rw [h]
  refine ⟨by rw [h],fun q => by rw [hp],fun q => by rw [hp],fun k q hq => ?_,fun q => ?_,
    fun q => ?_⟩
  · rw [hr] at hq
    exact .inl hq
  · rw [hc]
    exact .inl rfl
  · rw [hp]
    exact id

theorem routine_setPc {k : Pc} (hk : Later (s.pc q) k) : Routine s (s.setPc q k) := by
  refine ⟨rfl,fun _ => rfl,fun _ => rfl,fun _ _ => .inl,fun x => ?_,fun _ => id⟩
  by_cases hx : x = q
  · subst hx
    simpa using hk
  · exact .inl (by simp [hx])

theorem routine_setProc {r : Proc} (h : t = { s.setProc q r with
    nextpid := t.nextpid, firstTime := t.firstTime, cpu := t.cpu, scan := t.scan, lock := t.lock,
    preempted := t.preempted }) (h1 : r.muxPtrs = (s.proc q).muxPtrs)
    (h2 : r.priority = (s.proc q).priority) (h3 : Dead r.state → Dead (s.proc q).state) :
    Routine s t := by
  have hp : Routine s (s.setProc q r) := by
    refine ⟨rfl,fun x => ?_,fun x => ?_,fun _ _ => .inl,fun _ => .inl rfl,fun x => ?_⟩ <;>
      simp only [Kernel.setProc_proc] <;> split
    · simp [*]
    · rfl
    · simp [*]
    · rfl
    · subst x
      exact h3
    · exact id
  exact routine_trans hp (routine_control h)

theorem routine_makeRunnable (h : makeRunnable s q = .ok t) : Routine s t := by
  obtain ⟨k,hk,-,rfl⟩ := makeRunnable_ok h
  refine ⟨rfl,fun x => ?_,fun x => ?_,fun i x hx => ?_,fun _ => .inl rfl,fun x => ?_⟩
  · simp only [setState, Kernel.setRing_proc, Kernel.setProc_proc]
    split <;> simp [*]
  · simp only [setState, Kernel.setRing_proc, Kernel.setProc_proc]
    split <;> simp [*]
  · by_cases hi : i = k
    · subst hi
      rcases mem_contents_push (by simpa using hx) with h | h
      · exact .inl h
      · cases h
        exact .inr hk
    · exact .inl (by simpa [hi] using hx)
  · by_cases hx : x = q
    · simp [hx, Dead]
    · simp [hx]

theorem routine_ret (v : ℤ) : Routine s (ret s p v) :=
  routine_trans (t := s.setProc p { s.proc p with eax := v }) (routine_setProc rfl rfl rfl id)
    (routine_setPc (.inr (.inr rfl)))

theorem woken_refl (s : Kernel C) : Woken s s :=
  ⟨routine_control rfl,rfl,fun _ => .inl rfl⟩

theorem woken_cpu (h : Woken s t) : t.cpu = s.cpu := by rw [h.frame]

theorem woken_pc (h : Woken s t) : t.pc = s.pc := by rw [h.frame]

theorem woken_preempted (h : Woken s t) : t.preempted = s.preempted := by rw [h.frame]

theorem woken_muxes (h : Woken s t) : t.muxes = s.muxes := by rw [h.frame]

theorem woken_trans (h : Woken s t) (k : Woken t u) : Woken s u := by
  refine ⟨routine_trans h.toRoutine k.toRoutine,?_,fun q => ?_⟩
  · rw [k.frame, h.frame]
  · rcases k.state q with hk | hk <;> rcases h.state q with hh | hh
    · exact .inl (hk.trans hh)
    · exact .inr ⟨hh.1,hk.trans hh.2⟩
    · exact .inr ⟨hh ▸ hk.1,hk.2⟩
    · exact absurd (hk.1.symm.trans hh.2) (by decide)

theorem woken_setProc (r : Proc) (h1 : r.muxPtrs = (s.proc q).muxPtrs)
    (h2 : r.priority = (s.proc q).priority) (h3 : r.state = (s.proc q).state) :
    Woken s (s.setProc q r) := by
  refine ⟨routine_setProc rfl h1 h2 (by rw [h3]; exact id),rfl,fun x => ?_⟩
  simp only [Kernel.setProc_proc]
  split <;> simp [*]

theorem woken_makeRunnable (hq : (s.proc q).state = .sleeping) (h : makeRunnable s q = .ok t) :
    Woken s t := by
  have hr := routine_makeRunnable h
  obtain ⟨k,-,-,rfl⟩ := makeRunnable_ok h
  refine ⟨hr,rfl,fun x => ?_⟩
  simp only [setState, Kernel.setRing_proc, Kernel.setProc_proc]
  split <;> simp [*]

theorem wakeup1_ok {ch : Option Chan} (h : wakeup1 s ch = .ok t) : Woken s t := by
  refine foldlM_invariant (Woken s) _ ?_ (woken_refl s) h
  intro v q w _ hv hw
  unfold wakeOne at hw
  split at hw
  · rename_i hq
    exact woken_trans hv (woken_makeRunnable hq.1 hw)
  · cases hw
    exact hv

theorem markKilled_ok (h : markKilled s q = .ok t) : Woken s t := by
  have hk : Woken s (s.setProc q { s.proc q with killed := true }) :=
    woken_setProc _ rfl rfl rfl
  unfold markKilled at h
  simp only at h
  split at h
  · exact woken_trans hk (woken_makeRunnable (by simpa using ‹_›) h)
  · cases h
    exact hk

theorem markKilled_other {x : Slot} (h : markKilled s q = .ok t) (hx : x ≠ q) :
    t.proc x = s.proc x := by
  unfold markKilled at h
  simp only at h
  split at h
  · obtain ⟨k,-,-,rfl⟩ := makeRunnable_ok h
    simp [hx]
  · cases h
    simp [hx]

theorem reparentOne_ok (h : reparentOne p s q = .ok t) : Woken s t := by
  unfold reparentOne at h
  split at h
  · have hr : Woken s (s.setProc q { s.proc q with parent := s.initproc }) :=
      woken_setProc _ rfl rfl rfl
    simp only at h
    split at h
    · exact woken_trans hr (wakeup1_ok h)
    · cases h
      exact hr
  · cases h
    exact woken_refl s

theorem reparent_ok (h : (List.finRange NPROC).foldlM (reparentOne p) s = .ok t) : Woken s t :=
  foldlM_invariant (Woken s) _ (fun _ _ _ _ hv hw => woken_trans hv (reparentOne_ok hw))
    (woken_refl s) h

end Routine

variable [DecidableEq C]

theorem routine_dispatch (h : dispatch s c p = .ok t) : Routine s t := by
  obtain ⟨ch,k,l,rfl,hk⟩ := dispatch_ok h
  have hp : Routine s (s.setPc p k) := by
    refine routine_setPc ?_
    rcases hk with ⟨-,rfl,-⟩ | ⟨-,hr,-⟩
    · exact .inl rfl
    · exact .inr (.inl hr)
  exact routine_trans hp
    (routine_setProc (q := p) (r := { s.proc p with chan := ch, state := .running })
    rfl rfl rfl (by simp [Dead]))

theorem routine_scanFrom {i : ℕ} (h : scanFrom s c i = .ok t) : Routine s t := by
  rcases scanFrom_ok h with rfl | ⟨q,-,hd⟩
  · exact routine_control rfl
  · exact routine_trans (routine_control rfl) (routine_dispatch hd)

theorem routine_sched (h : sched s c p = .ok t) : Routine s t := by
  obtain ⟨-,-,-,⟨-,rfl⟩ | ⟨i,-,hi⟩⟩ := sched_ok h
  · exact routine_control rfl
  · exact routine_trans (routine_control rfl) (routine_scanFrom hi)

structure Frame (s t : Kernel C) : Prop where
  rest : t = { s with
    proc := t.proc, ring := t.ring, nextpid := t.nextpid, firstTime := t.firstTime, cpu := t.cpu,
    scan := t.scan, lock := t.lock, pc := t.pc, preempted := t.preempted }
  pc : ∀ q, Later (s.pc q) (t.pc q) ∨
    ∃ np pid, t.pc q = .forkAlloc np ∨ t.pc q = .forkReady np ∨ t.pc q = .forkShare np pid ∨
      t.pc q = .forkPriority np pid

omit [DecidableEq C] in
theorem routine_frame (h : Routine s t) : Frame s t := ⟨h.rest,fun q => .inl (h.pc q)⟩

end Xv6.ProcessFrames
