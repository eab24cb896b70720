import Xv6.MutexEffects

/-!
# Stranded mutex waiters

One wait queue serves all mutexes, and an unlock wakes its head whichever mutex
that process waits for. No waiter for a free mutex is left behind when each
unlock takes a process that is inside `sys_mlock` for the same mutex, as long as
one is queued, and wakes nobody who is not yet asleep.
-/

set_option autoImplicit false

namespace Xv6.Stranding
open KernelState NullQueue ReadyQueue ProcessCalls MutexCalls
open Machine ProcessFrames ProcessEffects MutexEffects
open TransitionRun

variable {C : Type} {s t u : Kernel C} {c : C} {p q : Slot} {m : MuxId} {k : Pc}

def Inside (s : Kernel C) (m : MuxId) (q : Slot) : Prop :=
  ∃ via, s.pc q = .mlockTry via m ∨ s.pc q = .mlockSleep via m ∨ s.pc q = .mlockAsleep via m

def Waiter (s : Kernel C) (m : MuxId) (q : Slot) : Prop :=
  ∃ via, s.pc q = .mlockSleep via m ∨ s.pc q = .mlockAsleep via m ∧ (s.proc q).state = .sleeping

def Active (s : Kernel C) (m : MuxId) (q : Slot) : Prop :=
  ∃ via, s.pc q = .mlockTry via m ∨ s.pc q = .mlockAsleep via m ∧ (s.proc q).state ≠ .sleeping

def Up (x : ProcState) : Prop := x = .runnable ∨ x = .running

def upright : Pc → Bool
  | .user | .mlockTry _ _ | .mlockSleep _ _ | .munlockClear _ | .munlockDequeue _
  | .munlockWake _ _ => true
  | _ => false

def Served (s : Kernel C) (m : MuxId) : Prop :=
  (∃ r, Active s m r) ∨ (∃ x, s.pc x = .munlockDequeue m) ∨
    ∃ x i r, s.pc x = .munlockWake i r ∧ Waiter s m r

structure Attended (s : Kernel C) : Prop where
  compact : Compact s.wqueue
  listed : ∀ m q, Waiter s m q → q ∈ list s.wqueue ∨ ∃ x i, s.pc x = .munlockWake i q
  served : ∀ m q, (s.muxes m).state ≠ 1 → Waiter s m q → Served s m
  up : ∀ q, upright (s.pc q) = true → Up (s.proc q).state
  alive : ∀ q via m, s.pc q = .mlockAsleep via m → ¬Dead (s.proc q).state

def lockPc : Pc → Bool
  | .mlockTry _ _ | .mlockSleep _ _ | .mlockAsleep _ _ | .munlockDequeue _
    | .munlockWake _ _ => true
  | _ => false

def Onward (k : Pc) (x : ProcState) (l : Pc) (y : ProcState) : Prop :=
  l = k ∧ (y = x ∨ Up y) ∨
  (∃ via m, k = .mlockAsleep via m ∧ l = .mlockTry via m) ∧ Up y ∨
  lockPc k = false ∧ lockPc l = false ∧ (upright l = true → Up y)

theorem onward_trans {k l n : Pc} {x y z : ProcState} (h : Onward k x l y) (h' : Onward l y n z) :
    Onward k x n z := by
  rcases h with ⟨rfl,h⟩ | ⟨⟨via,m,rfl,rfl⟩,h⟩ | ⟨h1,h2,h⟩
  · rcases h' with ⟨rfl,h'⟩ | h' | h'
    · refine .inl ⟨rfl,?_⟩
      rcases h' with rfl | h'
      · exact h
      · exact .inr h'
    · exact .inr (.inl h')
    · exact .inr (.inr h')
  · rcases h' with ⟨rfl,h'⟩ | ⟨⟨_,_,h',-⟩,-⟩ | ⟨h',-⟩
    · refine .inr (.inl ⟨⟨via,m,rfl,rfl⟩,?_⟩)
      rcases h' with rfl | h'
      · exact h
      · exact h'
    · simp at h'
    · simp [lockPc] at h'
  · rcases h' with ⟨rfl,h'⟩ | ⟨⟨_,_,rfl,-⟩,-⟩ | ⟨-,h3,h4⟩
    · refine .inr (.inr ⟨h1,h2,fun hu => ?_⟩)
      rcases h' with rfl | h'
      · exact h hu
      · exact h'
    · simp [lockPc] at h2
    · exact .inr (.inr ⟨h1,h3,h4⟩)

structure Advance (s t : Kernel C) : Prop where
  wqueue : t.wqueue = s.wqueue
  state : ∀ m, (t.muxes m).state = (s.muxes m).state
  thread : ∀ q, Onward (s.pc q) (s.proc q).state (t.pc q) (t.proc q).state

theorem advance_trans (h : Advance s t) (h' : Advance t u) : Advance s u :=
  ⟨h'.wqueue.trans h.wqueue,fun m => (h'.state m).trans (h.state m),
    fun q => onward_trans (h.thread q) (h'.thread q)⟩

theorem attended_advance (hs : Attended s) (h : Advance s t) : Attended t := by
  have hw : ∀ m q, Waiter t m q → Waiter s m q := by
    rintro m q ⟨via,hq⟩
    refine ⟨via,?_⟩
    rcases h.thread q with ⟨h1,h2⟩ | ⟨⟨_,_,-,h1⟩,-⟩ | ⟨-,h1,-⟩
    · rw [h1] at hq
      rcases hq with hq | ⟨hq,hz⟩
      · exact .inl hq
      · rcases h2 with h2 | h2
        · exact .inr ⟨hq,h2 ▸ hz⟩
        · simp [hz, Up] at h2
    · rcases hq with hq | ⟨hq,-⟩ <;> simp [h1] at hq
    · rcases hq with hq | ⟨hq,-⟩ <;> simp [hq, lockPc] at h1
  have ha : ∀ m q, Active s m q → Active t m q := by
    rintro m q ⟨via,hq⟩
    refine ⟨via,?_⟩
    rcases h.thread q with ⟨h1,h2⟩ | ⟨⟨_,_,h0,h1⟩,-⟩ | ⟨h1,-⟩
    · rw [h1]
      rcases hq with hq | ⟨hq,hz⟩
      · exact .inl hq
      · refine .inr ⟨hq,?_⟩
        rcases h2 with h2 | h2 | h2
        · exact h2 ▸ hz
        · simp [h2]
        · simp [h2]
    · rcases hq with hq | ⟨hq,-⟩
      · simp [hq] at h0
      · obtain ⟨rfl,rfl⟩ := Pc.mlockAsleep.inj (h0.symm.trans hq)
        exact .inl h1
    · rcases hq with hq | ⟨hq,-⟩ <;> simp [hq, lockPc] at h1
  have hwa : ∀ m q, Waiter s m q → Waiter t m q ∨ Active t m q := by
    rintro m q ⟨via,hq⟩
    rcases h.thread q with ⟨h1,h2⟩ | ⟨⟨_,_,h0,h1⟩,-⟩ | ⟨h1,-⟩
    · rcases hq with hq | ⟨hq,hz⟩
      · exact .inl ⟨via,.inl (h1.trans hq)⟩
      · rcases h2 with h2 | h2 | h2
        · exact .inl ⟨via,.inr ⟨h1.trans hq,h2.trans hz⟩⟩
        · exact .inr ⟨via,.inr ⟨h1.trans hq,by simp [h2]⟩⟩
        · exact .inr ⟨via,.inr ⟨h1.trans hq,by simp [h2]⟩⟩
    · rcases hq with hq | ⟨hq,-⟩
      · simp [hq] at h0
      · obtain ⟨rfl,rfl⟩ := Pc.mlockAsleep.inj (h0.symm.trans hq)
        exact .inr ⟨_,.inl h1⟩
    · rcases hq with hq | ⟨hq,-⟩ <;> simp [hq, lockPc] at h1
  have hun : ∀ x, (∃ i, s.pc x = .munlockDequeue i) ∨ (∃ i r, s.pc x = .munlockWake i r) →
      t.pc x = s.pc x := by
    intro x hx
    rcases h.thread x with ⟨h1,-⟩ | ⟨⟨_,_,h0,-⟩,-⟩ | ⟨h1,-⟩
    · exact h1
    · rcases hx with ⟨i,hx⟩ | ⟨i,r,hx⟩ <;> simp [hx] at h0
    · rcases hx with ⟨i,hx⟩ | ⟨i,r,hx⟩ <;> simp [hx, lockPc] at h1
  refine ⟨h.wqueue ▸ hs.compact,fun m q hq => ?_,fun m q hm hq => ?_,fun q hq => ?_,
    fun q via m hq => ?_⟩
  · rw [h.wqueue]
    rcases hs.listed m q (hw m q hq) with hl | ⟨x,i,hx⟩
    · exact .inl hl
    · exact .inr ⟨x,i,(hun x (.inr ⟨i,q,hx⟩)).trans hx⟩
  · rw [h.state m] at hm
    rcases hs.served m q hm (hw m q hq) with ⟨r,hr⟩ | ⟨x,hx⟩ | ⟨x,i,r,hx,hr⟩
    · exact .inl ⟨r,ha m r hr⟩
    · exact .inr (.inl ⟨x,(hun x (.inl ⟨m,hx⟩)).trans hx⟩)
    · rcases hwa m r hr with hr | hr
      · exact .inr (.inr ⟨x,i,r,(hun x (.inr ⟨i,r,hx⟩)).trans hx,hr⟩)
      · exact .inl ⟨r,hr⟩
  · rcases h.thread q with ⟨h1,h2⟩ | ⟨-,h2⟩ | ⟨-,-,h2⟩
    · rcases h2 with h2 | h2
      · rw [h2]
        exact hs.up q (h1 ▸ hq)
      · exact h2
    · exact h2
    · exact h2 hq
  · rcases h.thread q with ⟨h1,h2⟩ | ⟨⟨_,_,-,h1⟩,-⟩ | ⟨-,h1,-⟩
    · rcases h2 with h2 | h2 | h2
      · rw [h2]
        exact hs.alive q via m (h1 ▸ hq)
      · simp [h2, Dead]
      · simp [h2, Dead]
    · simp [hq] at h1
    · simp [hq, lockPc] at h1

variable [DecidableEq C]

section Advance

section
omit [DecidableEq C]

theorem advance_woken (h : Woken s t) : Advance s t := by
  refine ⟨by rw [h.frame],fun m => by rw [woken_muxes h],fun q => .inl ⟨by rw [woken_pc h],?_⟩⟩
  rcases h.state q with h | h
  · exact .inl h
  · exact .inr (.inl h.2)

/-- The control data and the queues of the scheduler play no part. -/
theorem advance_control (h : t = { s with
    ring := t.ring, cpu := t.cpu, scan := t.scan, lock := t.lock, firstTime := t.firstTime,
    preempted := t.preempted }) : Advance s t := by
  refine ⟨by rw [h],fun m => by rw [h],fun q => .inl ⟨by rw [h],.inl ?_⟩⟩
  have hp : t.proc = s.proc := by rw [h]
  rw [hp]

theorem advance_makeRunnable (h : makeRunnable s q = .ok t) : Advance s t := by
  obtain ⟨k,-,-,rfl⟩ := makeRunnable_ok h
  refine ⟨rfl,fun _ => rfl,fun x => .inl ⟨rfl,?_⟩⟩
  by_cases hx : x = q <;> simp [hx, Up]

end

theorem advance_dispatch (h : dispatch s c q = .ok t) : Advance s t := by
  obtain ⟨ch,k,l,rfl,hk⟩ := dispatch_ok h
  refine ⟨rfl,fun _ => rfl,fun x => ?_⟩
  by_cases hx : x = q
  · subst hx
    have hst : ((switchTo s c x ch k l).proc x).state = .running := by simp [switchTo]
    have hpc : (switchTo s c x ch k l).pc x = k := by simp [switchTo]
    rw [hst, hpc]
    rcases hk with ⟨-,rfl,-⟩ | ⟨-,hr,-⟩
    · exact .inl ⟨rfl,.inr (.inr rfl)⟩
    · refine .inr ?_
      generalize s.pc x = k' at hr
      cases k' <;> simp only [resumePc, Option.some.injEq, reduceCtorEq] at hr <;> subst hr
      case mlockAsleep via m => exact .inl ⟨⟨via,m,rfl,rfl⟩,.inr rfl⟩
      all_goals exact .inr ⟨rfl,rfl,fun _ => .inr rfl⟩
  · exact .inl ⟨by simp [switchTo, hx],.inl (by simp [switchTo, hx])⟩

theorem advance_scanFrom {i : ℕ} (h : scanFrom s c i = .ok t) : Advance s t := by
  rcases scanFrom_ok h with rfl | ⟨q,-,hd⟩
  · exact advance_control rfl
  · exact advance_trans (advance_control rfl) (advance_dispatch hd)

theorem advance_sched (h : sched s c p = .ok t) : Advance s t := by
  obtain ⟨-,-,-,⟨-,rfl⟩ | ⟨i,-,hi⟩⟩ := sched_ok h
  · exact advance_control rfl
  · exact advance_trans (advance_control rfl) (advance_scanFrom hi)

theorem advance_scheduler (h : scheduler s c = .ok t) : Advance s t := by
  obtain ⟨-,-,-,⟨-,hf⟩ | ⟨-,hd⟩ | ⟨u,q,-,hd,hq⟩⟩ := scheduler_ok h
  · exact advance_trans (advance_control rfl) (advance_scanFrom hf)
  · obtain ⟨rfl,-⟩ := pqDequeue_none hd
    exact advance_control rfl
  · obtain ⟨k,rfl,-⟩ := pqDequeue_some hd
    exact advance_trans (advance_control rfl) (advance_dispatch hq)

section
omit [DecidableEq C]

theorem advance_outside (r : Proc) (h1 : lockPc (s.pc p) = false) (h2 : lockPc k = false)
    (hr : upright k = true → Up r.state) : Advance s ((s.setProc p r).setPc p k) := by
  refine ⟨rfl,fun _ => rfl,fun x => ?_⟩
  by_cases hx : x = p
  · subst hx
    exact .inr (.inr ⟨h1,by simpa using h2,by simpa using hr⟩)
  · exact .inl ⟨by simp [hx],.inl (by simp [hx])⟩

theorem advance_ret (hs : Attended s) (h1 : lockPc (s.pc p) = false)
    (h2 : upright (s.pc p) = true) (v : ℤ) : Advance s (ret s p v) :=
  advance_outside _ h1 rfl (fun _ => hs.up p h2)

end

end Advance

def isBystander : Act C → Bool
  | .schedule _ | .yield _ | .kill _ _ | .sleep _ _ | .wakeup _ => true
  | _ => false

variable {a : Act C}

theorem attended_bystander (hs : Attended s) (ha : isBystander a = true) (h : step s a = .ok t) :
    Attended t := by
  cases a <;> simp only [isBystander, Bool.false_eq_true] at ha
  case schedule c => exact attended_advance hs (advance_scheduler h)
  case wakeup ch => exact attended_advance hs (advance_woken (wakeup_ok h).2)
  case yield c =>
    obtain ⟨p,-,h⟩ := onCpu_ok h
    obtain ⟨-,-,u,hu,h⟩ := yield_ok h
    exact attended_advance hs (advance_trans (advance_trans (advance_control rfl)
      (advance_makeRunnable hu)) (advance_trans (advance_control rfl) (advance_sched h)))
  case sleep c ch =>
    obtain ⟨p,-,hu,h⟩ := call_ok h
    have ho : Advance (s.setLock (some p)) _ := advance_outside (p := p) (k := .asleep)
      { s.proc p with chan := some ch, state := .sleeping } (by simp [hu, lockPc]) rfl
      (by simp [upright])
    exact attended_advance hs (advance_trans (advance_trans (advance_control rfl) ho)
      (advance_sched (acquire_then h).2))
  case kill c pid =>
    obtain ⟨p,-,hu,h⟩ := call_ok h
    have hl : Attended (s.setLock (some p)) := attended_advance hs (advance_control rfl)
    rcases (kill_ok h).2 with rfl | ⟨q,u,-,hk,rfl⟩
    · have hr := attended_advance hl (advance_ret (p := p) hl (by simp [hu, lockPc])
        (by simp [hu, upright]) (-1))
      exact attended_advance hr (advance_control rfl)
    · have hw := markKilled_ok hk
      have hl := attended_advance hl (advance_woken hw)
      have hpc : u.pc p = .user := by
        rw [woken_pc hw]
        exact hu
      have hr := attended_advance hl (advance_ret (p := p) hl (by simp [hpc, lockPc])
        (by simp [hpc, upright]) 0)
      exact attended_advance hr (advance_control rfl)

omit [DecidableEq C] in
theorem inside_of (h : Active s m q ∨ Waiter s m q) : Inside s m q := by
  rcases h with ⟨via,h | ⟨h,-⟩⟩ | ⟨via,h | ⟨h,-⟩⟩
  · exact ⟨via,.inl h⟩
  · exact ⟨via,.inr (.inr h)⟩
  · exact ⟨via,.inr (.inl h)⟩
  · exact ⟨via,.inr (.inr h)⟩

section Move
variable (hpc : t.pc = (s.setPc p k).pc) (hst : ∀ q, (t.proc q).state = (s.proc q).state)

include hpc in
omit [DecidableEq C] in
theorem move_pc {x : Slot} (hx : x ≠ p) : t.pc x = s.pc x := by
  rw [hpc]
  simp [hx]

include hpc in
omit [DecidableEq C] in
theorem listed_move (hs : Attended s) (h : ∀ i r, s.pc p ≠ .munlockWake i r)
    (hsub : ∀ x, x ∈ list s.wqueue → x ∈ list t.wqueue) (hq : Waiter s m q) :
    q ∈ list t.wqueue ∨ ∃ x i, t.pc x = .munlockWake i q := by
  rcases hs.listed m q hq with hl | ⟨x,i,hx⟩
  · exact .inl (hsub q hl)
  · refine .inr ⟨x,i,(move_pc hpc ?_).trans hx⟩
    rintro rfl
    exact h i q hx

include hpc hst

section
omit [DecidableEq C]

theorem move_waiter (hq : q ≠ p) : Waiter t m q ↔ Waiter s m q := by
  simp only [Waiter, move_pc hpc hq, hst]

theorem move_active (hq : q ≠ p) : Active t m q ↔ Active s m q := by
  simp only [Active, move_pc hpc hq, hst]

/-- The attention for `m` does not depend on the thread that moves. -/
theorem served_move (h1 : ¬Inside s m p) (h2 : s.pc p ≠ .munlockDequeue m)
    (h3 : ∀ i r, s.pc p ≠ .munlockWake i r) (h : Served s m) : Served t m := by
  have h1 : ∀ q, Active s m q ∨ Waiter s m q → q ≠ p := by
    rintro q hq rfl
    exact h1 (inside_of hq)
  rcases h with ⟨r,hr⟩ | ⟨x,hx⟩ | ⟨x,i,r,hx,hr⟩
  · exact .inl ⟨r,(move_active hpc hst (h1 r (.inl hr))).mpr hr⟩
  · have hxp : x ≠ p := by
      rintro rfl
      exact h2 hx
    exact .inr (.inl ⟨x,(move_pc hpc hxp).trans hx⟩)
  · have hxp : x ≠ p := by
      rintro rfl
      exact h3 i r hx
    exact .inr (.inr ⟨x,i,r,(move_pc hpc hxp).trans hx,
      (move_waiter hpc hst (h1 r (.inr hr))).mpr hr⟩)

theorem attended_move (hs : Attended s) (hp : upright (s.pc p) = true) (hk : upright k = true)
    (hc : Compact t.wqueue)
    (hl : ∀ m q, q ≠ p → Waiter s m q → q ∈ list t.wqueue ∨ ∃ x i, t.pc x = .munlockWake i q)
    (hsv : ∀ m q, (t.muxes m).state ≠ 1 → q ≠ p → Waiter s m q → Served t m)
    (hself : ∀ via m, k = .mlockSleep via m → p ∈ list t.wqueue ∧ (t.muxes m).state = 1) :
    Attended t := by
  have hpp : t.pc p = k := by
    rw [hpc]
    simp
  have hw : ∀ m q, Waiter t m q →
      (q ≠ p ∧ Waiter s m q) ∨ q = p ∧ p ∈ list t.wqueue ∧ (t.muxes m).state = 1 := by
    intro m q hq
    by_cases hqp : q = p
    · subst hqp
      obtain ⟨via,hq⟩ := hq
      rw [hpp] at hq
      rcases hq with hq | ⟨hq,-⟩
      · exact .inr ⟨rfl,hself via m hq⟩
      · simp [hq, upright] at hk
    · exact .inl ⟨hqp,(move_waiter hpc hst hqp).mp hq⟩
  refine ⟨hc,fun m q hq => ?_,fun m q hm hq => ?_,fun q hq => ?_,fun q via m hq => ?_⟩
  · rcases hw m q hq with ⟨hqp,hq⟩ | ⟨rfl,hq,-⟩
    · exact hl m q hqp hq
    · exact .inl hq
  · rcases hw m q hq with ⟨hqp,hq⟩ | ⟨-,-,h1⟩
    · exact hsv m q hm hqp hq
    · exact absurd h1 hm
  · rw [hst q]
    by_cases hqp : q = p
    · subst hqp
      exact hs.up q hp
    · exact hs.up q (move_pc hpc hqp ▸ hq)
  · rw [hst q]
    by_cases hqp : q = p
    · subst hqp
      rw [hpp] at hq
      simp [hq, upright] at hk
    · exact hs.alive q via m (move_pc hpc hqp ▸ hq)

end

end Move

section
variable (hs : Attended s)
include hs

section
omit [DecidableEq C]

theorem attended_mlock (hu : s.pc p = .user) : Attended (s.setPc p (.mlockTry .mlock m)) := by
  refine attended_move (t := s.setPc p (.mlockTry .mlock m)) rfl (fun _ => rfl) hs
    (by simp [hu, upright]) rfl hs.compact (fun i q _ hw => ?_) (fun i q hi _ hw => ?_) (by simp)
  · exact listed_move (s := s) (p := p) rfl hs (by simp [hu]) (fun _ => id) hw
  · exact served_move (s := s) (p := p) rfl (fun _ => rfl) (by simp [Inside, hu]) (by simp [hu])
      (by simp [hu]) (hs.served i q hi hw)

theorem attended_tested {via : Via} (hpc : s.pc p = .mlockTry via m) (ht : t.pc = (s.setPc p k).pc)
    (hst : ∀ q, (t.proc q).state = (s.proc q).state) (hk : upright k = true) (hc : Compact t.wqueue)
    (hsub : ∀ q, q ∈ list s.wqueue → q ∈ list t.wqueue) (hm : (t.muxes m).state = 1)
    (hother : ∀ i, i ≠ m → (t.muxes i).state = (s.muxes i).state)
    (hself : ∀ via i, k = .mlockSleep via i → p ∈ list t.wqueue ∧ i = m) : Attended t := by
  refine attended_move ht hst hs (by simp [hpc, upright]) hk hc
    (fun i q _ hw => listed_move ht hs (by simp [hpc]) hsub hw) (fun i q hi _ hw => ?_)
    (fun via i hv => ?_)
  · have him : i ≠ m := by
      rintro rfl
      exact hi hm
    exact served_move ht hst (by simp [Inside, hpc, Ne.symm him]) (by simp [hpc]) (by simp [hpc])
      (hs.served i q (hother i him ▸ hi) hw)
  · obtain ⟨h1,rfl⟩ := hself via i hv
    exact ⟨h1,hm⟩

theorem attended_clear (hpc : s.pc p = .munlockClear m) :
    Attended ((clear s p m).setPc p (.munlockDequeue m)) := by
  refine attended_move (s := s) (p := p) (k := .munlockDequeue m) rfl (fun _ => rfl) hs
    (by simp [hpc, upright]) rfl hs.compact (fun i q _ hw => ?_) (fun i q hi _ hw => ?_) (by simp)
  · exact listed_move (s := s) (p := p) (k := .munlockDequeue m) rfl hs (by simp [hpc])
      (fun _ => id) hw
  · by_cases him : i = m
    · subst him
      exact .inr (.inl ⟨p,by simp⟩)
    · exact served_move (s := s) (p := p) (k := .munlockDequeue m) rfl (fun _ => rfl)
        (by simp [Inside, hpc]) (by simp [hpc]) (by simp [hpc])
        (hs.served i q (by simpa [clear, him] using hi) hw)

theorem attended_empty (hpc : s.pc p = .munlockDequeue m) (he : front s.wqueue = none) :
    Attended (ret s p 1) := by
  have hst : ∀ q, ((ret s p 1).proc q).state = (s.proc q).state := by
    intro q
    by_cases hq : q = p <;> simp [ret, hq]
  have hnil : list s.wqueue = [] := by
    have hf := front_eq_head s.wqueue hs.compact
    rw [he] at hf
    exact List.head?_eq_none_iff.mp hf.symm
  have hl : ∀ i q, Waiter s i q → q ∈ list s.wqueue ∨
      ∃ x j, (ret s p 1).pc x = .munlockWake j q := fun i q hw =>
    listed_move (s := s) (p := p) (k := .user) rfl hs (by simp [hpc]) (fun _ => id) hw
  refine attended_move (s := s) (p := p) (k := .user) rfl hst hs (by simp [hpc, upright]) rfl
    hs.compact (fun i q _ hw => hl i q hw) (fun i q _ hq hw => ?_) (by simp)
  rcases hl i q hw with h | ⟨x,j,hx⟩
  · simp [hnil] at h
  · exact .inr (.inr ⟨x,j,q,hx,
      (move_waiter (s := s) (t := ret s p 1) (k := .user) rfl hst hq).mpr hw⟩)

theorem attended_dequeue (hpc : s.pc p = .munlockDequeue m) (hf : front s.wqueue = some q)
    (hfair : Inside s m q ∨ ∀ r ∈ list s.wqueue, ¬Inside s m r) :
    Attended ((s.setWqueue (shift s.wqueue)).setPc p (.munlockWake m q)) := by
  obtain ⟨hc,hlist⟩ := compact_shift _ _ hs.compact hf
  have hin : ∀ i, ¬Inside s i p := by
    intro i
    simp [Inside, hpc]
  have hne : ∀ i r, Waiter s i r → r ≠ p := by
    rintro i r hr rfl
    exact hin i (inside_of (.inr hr))
  have hl : ∀ i r, Waiter s i r → r ∈ list (shift s.wqueue) ∨
      ∃ x j, ((s.setWqueue (shift s.wqueue)).setPc p (.munlockWake m q)).pc x =
        .munlockWake j r := by
    intro i r hr
    rcases hs.listed i r hr with h | ⟨x,j,hx⟩
    · rw [hlist] at h
      rcases List.mem_cons.mp h with rfl | h
      · exact .inr ⟨p,m,by simp⟩
      · exact .inl h
    · have hxp : x ≠ p := by
        rintro rfl
        simp [hpc] at hx
      exact .inr ⟨x,j,by simpa [hxp] using hx⟩
  refine attended_move (s := s) (p := p) (k := .munlockWake m q) rfl (fun _ => rfl) hs
    (by simp [hpc, upright]) rfl hc (fun i r _ hw => hl i r hw) (fun i r hi _ hw => ?_) (by simp)
  by_cases him : i = m
  · subst him
    have hflight : ∀ x j r, ((s.setWqueue (shift s.wqueue)).setPc p (.munlockWake i q)).pc x =
        .munlockWake j r → Waiter s i r →
        Served ((s.setWqueue (shift s.wqueue)).setPc p (.munlockWake i q)) i := fun x j r hx hr =>
      .inr (.inr ⟨x,j,r,hx,(move_waiter (s := s) (p := p) (k := .munlockWake i q) rfl
        (fun _ => rfl) (hne i r hr)).mpr hr⟩)
    rcases hfair with hq | hfair
    · have hq : Active s i q ∨ Waiter s i q := by
        obtain ⟨via,hq | hq | hq⟩ := hq
        · exact .inl ⟨via,.inl hq⟩
        · exact .inr ⟨via,.inl hq⟩
        · by_cases hz : (s.proc q).state = .sleeping
          · exact .inr ⟨via,.inr ⟨hq,hz⟩⟩
          · exact .inl ⟨via,.inr ⟨hq,hz⟩⟩
      rcases hq with hq | hq
      · have hqp : q ≠ p := by
          rintro rfl
          exact hin i (inside_of (.inl hq))
        exact .inl ⟨q,(move_active (s := s) (p := p) (k := .munlockWake i q) rfl (fun _ => rfl)
          hqp).mpr hq⟩
      · exact hflight p i q (by simp) hq
    · rcases hl i r hw with h | ⟨x,j,hx⟩
      · exact absurd (inside_of (.inr hw)) (hfair r (mem_shift _ _ h))
      · exact hflight x j r hx hw
  · exact served_move (s := s) (p := p) (k := .munlockWake m q) rfl (fun _ => rfl) (hin i)
      (by simp [hpc, Ne.symm him]) (by simp [hpc]) (hs.served i r hi hw)

theorem attended_wake (hpc : s.pc p = .munlockWake m q) (hq : ∀ via i, s.pc q ≠ .mlockSleep via i)
    (hu : makeRunnable (s.setLock (some p)) q = .ok u) : Attended ((ret u p 1).setLock none) := by
  have ha : Attended u :=
    attended_advance hs (advance_trans (advance_control rfl) (advance_makeRunnable hu))
  obtain ⟨k,-,-,rfl⟩ := makeRunnable_ok hu
  generalize hv : (setState (s.setLock (some p)) q .runnable).setRing k _ = v at *
  have hvpc : v.pc = s.pc := by rw [← hv]; rfl
  have hvq : (v.proc q).state = .runnable := by rw [← hv]; simp
  have hpv : v.pc p = .munlockWake m q := by rw [hvpc, hpc]
  have hawake : ∀ i, ¬Waiter v i q := by
    rintro i ⟨via,h | ⟨-,h⟩⟩
    · rw [hvpc] at h
      exact hq via i h
    · simp [hvq] at h
  have hst : ∀ x, ((ret v p 1).proc x).state = (v.proc x).state := by
    intro x
    by_cases hx : x = p <;> simp [ret, hx]
  have hfly : ∀ i x j r, v.pc x = .munlockWake j r → Waiter v i r → x ≠ p := by
    rintro i x j r hx hr rfl
    obtain ⟨-,rfl⟩ := Pc.munlockWake.inj (hpv.symm.trans hx)
    exact hawake i hr
  have hr : Attended (ret v p 1) := by
    refine attended_move (s := v) (p := p) (k := .user) rfl hst ha (by simp [hpv, upright]) rfl
      ha.compact (fun i r _ hw => ?_) (fun i r hi _ hw => ?_) (by simp)
    · rcases ha.listed i r hw with h | ⟨x,j,hx⟩
      · exact .inl h
      · exact .inr ⟨x,j,(move_pc (s := v) (k := .user) rfl (hfly i x j r hx hw)).trans hx⟩
    · have hin : ∀ x, Active v i x ∨ Waiter v i x → x ≠ p := by
        rintro x hx rfl
        obtain ⟨via,h⟩ := inside_of hx
        simp [hpv] at h
      rcases ha.served i r hi hw with ⟨x,hx⟩ | ⟨x,hx⟩ | ⟨x,j,y,hx,hy⟩
      · exact .inl ⟨x,(move_active (s := v) (t := ret v p 1) (k := .user) rfl hst
          (hin x (.inl hx))).mpr hx⟩
      · refine .inr (.inl ⟨x,(move_pc (s := v) (p := p) (k := .user) rfl ?_).trans hx⟩)
        rintro rfl
        simp [hpv] at hx
      · exact .inr (.inr ⟨x,j,y,(move_pc (s := v) (k := .user) rfl (hfly i x j y hx hy)).trans hx,
          (move_waiter (s := v) (t := ret v p 1) (k := .user) rfl hst (hin y (.inr hy))).mpr hy⟩)
  exact attended_advance hr (advance_control rfl)

theorem attended_sleep {via : Via} (hpc : s.pc p = .mlockSleep via m) :
    Attended ((setState (s.setLock (some p)) p .sleeping).setPc p (.mlockAsleep via m)) := by
  generalize ht : (setState (s.setLock (some p)) p .sleeping).setPc p (.mlockAsleep via m) = t
  have hwq : t.wqueue = s.wqueue := by rw [← ht]; rfl
  have hmux : t.muxes = s.muxes := by rw [← ht]; rfl
  have htp : t.pc p = .mlockAsleep via m := by rw [← ht]; simp
  have hx : ∀ x, x ≠ p → t.pc x = s.pc x ∧ (t.proc x).state = (s.proc x).state := by
    intro x hx
    rw [← ht]
    simp [hx]
  have hzp : (t.proc p).state = .sleeping := by rw [← ht]; simp
  have hw : ∀ i x, Waiter t i x ↔ Waiter s i x := by
    intro i x
    by_cases h : x = p
    · subst h
      simp only [Waiter, htp, hzp, hpc]
      simp
    · simp only [Waiter, hx x h]
  have hun : ∀ x, s.pc x ≠ .mlockSleep via m → t.pc x = s.pc x := by
    intro x h
    refine (hx x ?_).1
    rintro rfl
    exact h hpc
  refine ⟨hwq ▸ hs.compact,fun i x h => ?_,fun i x hi h => ?_,fun x h => ?_,fun x via' i h => ?_⟩
  · rw [hwq]
    rcases hs.listed i x ((hw i x).mp h) with h | ⟨y,j,hy⟩
    · exact .inl h
    · exact .inr ⟨y,j,(hun y (by simp [hy])).trans hy⟩
  · rw [hmux] at hi
    rcases hs.served i x hi ((hw i x).mp h) with ⟨y,hy⟩ | ⟨y,hy⟩ | ⟨y,j,z,hy,hz⟩
    · have hyp : y ≠ p := by
        rintro rfl
        rcases hy with ⟨via,hy | ⟨hy,-⟩⟩ <;> simp [hpc] at hy
      refine .inl ⟨y,?_⟩
      simp only [Active, hx y hyp]
      exact hy
    · exact .inr (.inl ⟨y,(hun y (by simp [hy])).trans hy⟩)
    · exact .inr (.inr ⟨y,j,z,(hun y (by simp [hy])).trans hy,(hw i z).mpr hz⟩)
  · have hxp : x ≠ p := by
      rintro rfl
      simp [htp, upright] at h
    rw [(hx x hxp).2]
    exact hs.up x ((hx x hxp).1 ▸ h)
  · by_cases hxp : x = p
    · subst hxp
      simp [hzp, Dead]
    · rw [(hx x hxp).2]
      exact hs.alive x via' i ((hx x hxp).1 ▸ h)

end

end

def Strands (s : Kernel C) (a : Act C) : Prop :=
  (∃ c p m q r, a = .munlockDequeue c ∧ s.cpu c = some p ∧ s.pc p = .munlockDequeue m ∧
    front s.wqueue = some q ∧ ¬Inside s m q ∧ r ∈ list s.wqueue ∧ Inside s m r) ∨
  ∃ c p m q via i, a = .munlockWake c ∧ s.cpu c = some p ∧ s.pc p = .munlockWake m q ∧
    s.pc q = .mlockSleep via i

def isLockSection : Act C → Bool
  | .mlock _ _ | .mlockTry _ | .mlockSleep _ | .munlock _ _ | .munlockClear _ | .munlockDequeue _
  | .munlockWake _ => true
  | _ => false

theorem attended_lock (hs : Attended s) (ha : isLockSection a = true) (hn : ¬Strands s a)
    (hc : s.cpu c = some p) (h : Sync s c p a t) : Attended t := by
  have hret : ∀ {v : ℤ}, s.pc p = .user → Attended (ret s p v) := fun hu =>
    attended_advance hs (advance_ret hs (by simp [hu, lockPc]) (by simp [hu, upright]) _)
  have hsame : ∀ {u : Kernel C} {v : ℤ} (q : Slot), u.proc = s.proc →
      ((ret u p v).proc q).state = (s.proc q).state := by
    intro u v q hu
    by_cases hq : q = p <;> simp [ret, hq, hu]
  cases h <;> simp only [isLockSection, Bool.false_eq_true] at ha
  case mlock user _ _ => exact attended_mlock hs user
  case mlockRefused user _ _ => exact hret user
  case mlockFull pc locked full =>
    exact attended_tested (k := .user) hs pc rfl (fun q => hsame q rfl) rfl hs.compact (fun _ => id)
      locked (fun _ _ => rfl) (by simp)
  case mlockEnroll via m w pc locked enrolled =>
    refine attended_tested (k := .mlockSleep via m) hs pc rfl (fun _ => rfl) rfl
      (compact_enroll _ _ _ hs.compact enrolled).1 (fun q hq => ?_) locked (fun _ _ => rfl)
      (fun via' i h => ?_)
    · exact (mem_enroll _ _ _ _ enrolled).mpr (.inl hq)
    · obtain ⟨-,rfl⟩ := Pc.mlockSleep.inj h
      exact ⟨(mem_enroll _ _ _ _ enrolled).mpr (.inr rfl),rfl⟩
  case mlockTake via m pc _ =>
    refine attended_tested (k := .user) hs pc rfl (fun q => hsame q rfl) rfl hs.compact
      (fun _ => id)
      ?_ (fun i hi => ?_) (by simp)
    · simp [ret, take]
    · simp [ret, take, hi]
  case mlockSleep pc hf left =>
    exact attended_advance (attended_sleep hs pc) (advance_sched left)
  case munlock m user _ _ =>
    refine attended_advance hs ⟨rfl,fun _ => rfl,fun x => ?_⟩
    by_cases hx : x = p
    · subst hx
      exact .inr (.inr ⟨by simp [user, lockPc],by simp [lockPc],
        fun _ => hs.up x (by simp [user, upright])⟩)
    · exact .inl ⟨by simp [hx],.inl rfl⟩
  case munlockRefused user => exact hret user
  case munlockClear pc => exact attended_clear hs pc
  case munlockEmpty pc he => exact attended_empty hs pc he
  case munlockDequeue m q pc head =>
    refine attended_dequeue hs pc head ?_
    by_contra hfair
    simp only [not_or, not_forall, not_not] at hfair
    obtain ⟨h1,r,hr,h2⟩ := hfair
    exact hn (.inl ⟨c,p,m,q,r,rfl,hc,pc,head,h1,hr,h2⟩)
  case munlockWake m q u pc hf woken =>
    refine attended_wake hs pc (fun via i h => ?_) woken
    exact hn (.inr ⟨c,p,m,q,via,i,rfl,hc,pc,h⟩)

theorem attended_step (hs : Attended s) (ha : isLockSection a = true ∨ isBystander a = true)
    (hn : ¬Strands s a) (h : step s a = .ok t) : Attended t := by
  rcases ha with ha | ha
  · have hy : isSyncCall a = true := by
      cases a <;> simp [isLockSection, isSyncCall] at ha ⊢
    obtain ⟨c,p,hc,hsync⟩ := sync_step hy h
    exact attended_lock hs ha hn hc hsync
  · exact attended_bystander hs ha h

structure Rested (s : Kernel C) : Prop where
  compact : Compact s.wqueue
  outside : ∀ q, lockPc (s.pc q) = false
  up : ∀ q, upright (s.pc q) = true → Up (s.proc q).state

omit [DecidableEq C] in
theorem attended_rested (hs : Rested s) : Attended s := by
  have hw : ∀ m q, ¬Waiter s m q := by
    rintro m q ⟨via,h | ⟨h,-⟩⟩ <;>
      · have ho := hs.outside q
        simp [h, lockPc] at ho
  refine ⟨hs.compact,fun m q h => absurd h (hw m q),fun m q _ h => absurd h (hw m q),hs.up,
    fun q via m h => ?_⟩
  have ho := hs.outside q
  simp [h, lockPc] at ho

/-- No stranded waiter. In a run of `sys_mlock`, `sys_munlock` and kills in
which no unlock strands anybody, when the mutex is free, a process sleeps
inside `sys_mlock` for it and no unlock is between the release and its wakeup,
some process inside `sys_mlock` for it can run. -/
theorem no_stranded_waiter {s₀ : Kernel C} (h₀ : Rested s₀)
    (h : Reaches step (fun s a => (isLockSection a = true ∨ isBystander a = true) ∧ ¬Strands s a)
      s₀ s)
    (hidle : ∀ x i r, s.pc x ≠ .munlockDequeue i ∧ s.pc x ≠ .munlockWake i r)
    (hm : (s.muxes m).state ≠ 1) (hq : Inside s m q) (hz : (s.proc q).state = .sleeping) :
    ∃ r, Inside s m r ∧ ((s.proc r).state = .runnable ∨ (s.proc r).state = .running) := by
  have hs := reaches_invariant Attended (fun _ _ _ hv ha hw => attended_step hv ha.1 ha.2 hw)
    (attended_rested h₀) h
  have hw : Waiter s m q := by
    obtain ⟨via,h | h | h⟩ := hq
    · have hu := hs.up q (by simp [h, upright])
      simp [hz, Up] at hu
    · exact ⟨via,.inl h⟩
    · exact ⟨via,.inr ⟨h,hz⟩⟩
  rcases hs.served m q hm hw with ⟨r,hr⟩ | ⟨x,hx⟩ | ⟨x,i,r,hx,-⟩
  · refine ⟨r,inside_of (.inl hr),?_⟩
    obtain ⟨via,h | ⟨h,hn⟩⟩ := hr
    · exact hs.up r (by simp [h, upright])
    · have ha := hs.alive r via m h
      revert ha hn
      cases (s.proc r).state <;> simp [Dead]
  · exact absurd hx (hidle x m 0).1
  · exact absurd hx (hidle x i r).2

theorem rested_crew : Rested crew := by
  refine ⟨compact_empty,fun q => ?_,fun q hq => ?_⟩
  · by_cases h : q.val < 3 <;> simp [crew, h, lockPc]
  · by_cases h : q.val < 3
    · simp [crew, h, Up]
    · simp [crew, h, upright] at hq

def takesSleeper (s : Kernel C) : Act C → Bool
  | .munlockDequeue c => (s.cpu c).all (fun p => (front s.wqueue).all (fun q => match s.pc p with
      | .munlockDequeue m => decide (s.pc q = .mlockAsleep .mlock m)
      | _ => true))
  | .munlockWake c => (s.cpu c).all (fun p => match s.pc p with
      | .munlockWake _ q => decide (resumePc (s.pc q) ≠ none)
      | _ => true)
  | a => isLockSection a

omit [DecidableEq C] in
theorem takesSleeper_fair (h : takesSleeper s a = true) : ¬Strands s a := by
  rintro (⟨c,p,m,q,r,rfl,hc,hp,hf,hq,-⟩ | ⟨c,p,m,q,via,i,rfl,hc,hp,hq⟩)
  · simp only [takesSleeper, hc, hf, hp, Option.all_some, decide_eq_true_eq] at h
    exact hq ⟨.mlock,.inr (.inr h)⟩
  · simp [takesSleeper, hc, hp, hq, resumePc] at h

theorem no_stranded_waiter_two_asleep : ∃ s : Kernel (Fin 3),
    ((s.muxes 0).state ≠ 1 ∧ (s.proc 2).state = .sleeping) ∧
    ∃ r, Inside s 0 r ∧ ((s.proc r).state = .runnable ∨ (s.proc r).state = .running) := by
  obtain ⟨s,hr,hs⟩ := play_witness step
    (fun s a => (isLockSection a = true ∨ isBystander a = true) ∧ ¬Strands s a)
    (fun s a => isLockSection a && takesSleeper s a)
    (fun s a ha => by
      simp only [Bool.and_eq_true] at ha
      exact ⟨.inl ha.1,takesSleeper_fair ha.2⟩)
    crew [.mlock 0 0, .mlockTry 0, .mlock 1 0, .mlockTry 1, .mlockSleep 1, .mlock 2 0, .mlockTry 2,
      .mlockSleep 2, .munlock 0 0, .munlockClear 0, .munlockDequeue 0, .munlockWake 0]
    (fun s => decide (((s.muxes 0).state ≠ 1 ∧ (s.proc 2).state = .sleeping) ∧
      s.pc 2 = .mlockAsleep .mlock 0 ∧ ∀ x, s.pc x = .user ∨ s.pc x = .mlockAsleep .mlock 0 ∨
        s.pc x = .absent)) (by decide +kernel)
  obtain ⟨h1,h2,h3⟩ := of_decide_eq_true hs
  refine ⟨s,h1,no_stranded_waiter rested_crew hr (fun x i r => ?_) h1.1
    ⟨.mlock,.inr (.inr h2)⟩ h1.2⟩
  rcases h3 x with h | h | h <;> simp [h]

def UnlocksOwn (s : Kernel C) (a : Act C) : Prop :=
  ∀ c id p m, a = .munlock c id → s.cpu c = some p → muxIndex id = some m → s.holds p m = true

/-- The first process holds two mutexes. One child waits for mutex 1, then
another for mutex 0. Unlocking mutex 0 wakes the first in the queue, who waits
for mutex 1; mutex 0 is free and nobody who waits for it can run. -/
theorem unlock_wakes_other_waiter : ∃ s : Kernel (Fin 2), Reaches step UnlocksOwn (boot 0) s ∧
    (∀ x i r, s.pc x ≠ .munlockDequeue i ∧ s.pc x ≠ .munlockWake i r) ∧
    (s.muxes 0).state ≠ 1 ∧ Inside s 0 2 ∧ (s.proc 2).state = .sleeping ∧
    ∀ r, Inside s 0 r → (s.proc r).state = .sleeping := by
  obtain ⟨s,hr,hs⟩ := play_witness step UnlocksOwn
    (fun s a => match a with
      | .munlock c id => (s.cpu c).all (fun p => (muxIndex id).all (fun m => s.holds p m))
      | _ => true)
    (fun s a ha => by
      rintro c id p m rfl hc hm
      simpa [hc, hm] using ha)
    (boot (0 : Fin 2))
    (List.flatten [startup, [.mcreate 0 100 0, .mcreate 0 200 0], forkOn 0, forkOn 0,
      [.mlock 0 0, .mlockTry 0, .mlock 0 1, .mlockTry 0, .schedule 1, .mlock 1 1, .mlockTry 1,
        .mlockSleep 1, .schedule 1, .mlock 1 0, .mlockTry 1, .mlockSleep 1, .munlock 0 0,
        .munlockClear 0, .munlockDequeue 0, .munlockWake 0]])
    (fun s => decide ((s.muxes 0).state ≠ 1 ∧ s.pc 2 = .mlockAsleep .mlock 0 ∧
      (s.proc 2).state = .sleeping ∧ ∀ x, x ≠ 2 → s.pc x = .user ∨
        s.pc x = .mlockAsleep .mlock 1 ∨ s.pc x = .absent)) (by decide +kernel)
  obtain ⟨h1,h2,h3,h4⟩ := of_decide_eq_true hs
  refine ⟨s,hr,fun x i r => ?_,h1,⟨.mlock,.inr (.inr h2)⟩,h3,fun r hin => ?_⟩
  · by_cases hx : x = 2
    · simp [hx, h2]
    · rcases h4 x hx with h | h | h <;> simp [h]
  · by_cases hx : r = 2
    · rw [hx]
      exact h3
    · obtain ⟨via,hin⟩ := hin
      rcases h4 r hx with h | h | h <;> simp [h] at hin

end Xv6.Stranding
