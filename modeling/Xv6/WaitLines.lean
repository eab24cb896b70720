import Xv6.Coherence

/-!
# Who stands in which queue

The control points at which a process can stand in the wait queue of the mutexes
or in a condition queue, or can have been taken from one and not woken yet, and
what a section of the synchronisation calls does to its thread, the queues and
the rings.
-/

set_option autoImplicit false

namespace Xv6.WaitLines
open KernelState NullQueue ReadyQueue ProcessCalls MutexCalls Machine
open ProcessFrames MutexEffects ReadyInvariant Coherence

section
variable {C : Type} [DecidableEq C] {s t u : Kernel C} {c : C} {p q : Slot} {m : MuxId} {k : Pc}

def mlockWait : Pc → Bool
  | .mlockSleep _ _ | .mlockAsleep _ _ => true
  | _ => false

def cvWait (m : MuxId) : Pc → Bool
  | .waitcvSleep i | .waitcvCheck i | .waitcvClear i | .waitcvDequeue i | .waitcvSched i
  | .waitcvAsleep i => decide (i = m)
  | _ => false

def cvLock : Pc → Bool
  | .waitcvCheck _ | .waitcvClear _ | .waitcvDequeue _ | .waitcvSched _ => true
  | _ => false

def joining : Pc → Bool
  | .mlockSleep _ _ | .waitcvSleep _ => true
  | _ => false

def waiting : Pc → Bool
  | .mlockSleep _ _ | .mlockAsleep _ _ | .waitcvSleep _ | .waitcvCheck _ | .waitcvClear _
  | .waitcvDequeue _ | .waitcvSched _ | .waitcvAsleep _ => true
  | _ => false

structure Lines (s : Kernel C) : Prop where
  wq : ∀ q, q ∈ list s.wqueue → mlockWait (s.pc q) = true
  cv : ∀ m q, q ∈ list (s.muxes m).cv → cvWait m (s.pc q) = true
  wake : ∀ x m q, s.pc x = .munlockWake m q → mlockWait (s.pc q) = true ∧ q ∉ list s.wqueue
  signal : ∀ x m q, s.pc x = .signalWake m q →
    cvWait m (s.pc q) = true ∧ q ∉ list (s.muxes m).cv
  once : ∀ x y q, waker (s.pc x) = some q → waker (s.pc y) = some q → x = y
  proper : Proper s.wqueue ∧ ∀ m, Proper (s.muxes m).cv

theorem cvWait_unique {i j : MuxId} (hi : cvWait i k = true) (hj : cvWait j k = true) : i = j := by
  cases k <;> simp only [cvWait, decide_eq_true_eq, Bool.false_eq_true] at hi hj <;>
    exact hi.symm.trans hj

theorem cvWait_not_mlockWait (h : cvWait m k = true) : mlockWait k = false := by
  cases k <;> simp [cvWait, mlockWait] at h ⊢

theorem waiting_of (h : mlockWait k = true ∨ ∃ m, cvWait m k = true) : waiting k = true := by
  cases k <;> simp [mlockWait, cvWait, waiting] at h ⊢

theorem waker_some (h : waker k = some q) :
    (∃ m, k = .munlockWake m q) ∨ ∃ m, k = .signalWake m q := by
  cases k <;> simp only [waker, Option.some.injEq, reduceCtorEq] at h <;> subst h
  · exact .inl ⟨_,rfl⟩
  · exact .inr ⟨_,rfl⟩

section
variable (hs : Lines s)
include hs

section
omit [DecidableEq C]

theorem lines_waiting (h : Waits s p) : waiting (s.pc p) = true := by
  apply waiting_of
  rcases h with h | ⟨m,h⟩ | ⟨x,h⟩
  · exact .inl (hs.wq p h)
  · exact .inr ⟨m,hs.cv m p h⟩
  · rcases waker_some h with ⟨m,hx⟩ | ⟨m,hx⟩
    · exact .inl (hs.wake x m p hx).1
    · exact .inr ⟨m,(hs.signal x m p hx).1⟩

/-- A process outside the waiting parts of the calls is in no queue. -/
theorem lines_clear (h : waiting (s.pc p) = false) : ¬Waits s p := fun hw => by
  simp [lines_waiting hs hw] at h

theorem lines_flight (h : waker (s.pc p) = some q) :
    q ∉ list s.wqueue ∧ (∀ i, q ∉ list (s.muxes i).cv) ∧ ∀ x, waker (s.pc x) = some q → x = p := by
  refine ⟨fun hq => ?_,fun i hq => ?_,fun x hx => hs.once x p q hx h⟩
  · rcases waker_some h with ⟨m,hp⟩ | ⟨m,hp⟩
    · exact (hs.wake p m q hp).2 hq
    · have h1 := hs.wq q hq
      simp [cvWait_not_mlockWait (hs.signal p m q hp).1] at h1
  · have hc := hs.cv i q hq
    rcases waker_some h with ⟨m,hp⟩ | ⟨m,hp⟩
    · have h1 := (hs.wake p m q hp).1
      simp [cvWait_not_mlockWait hc] at h1
    · obtain rfl := cvWait_unique hc (hs.signal p m q hp).1
      exact (hs.signal p i q hp).2 hq

theorem lines_congr (hpc : t.pc = s.pc) (hw : t.wqueue = s.wqueue)
    (hcv : ∀ m, (t.muxes m).cv = (s.muxes m).cv) : Lines t := by
  refine ⟨?_,fun m q => ?_,?_,fun x m q => ?_,?_,?_,fun m => ?_⟩
  · rw [hw, hpc]
    exact hs.wq
  · rw [hcv, hpc]
    exact hs.cv m q
  · rw [hw, hpc]
    exact hs.wake
  · rw [hcv, hpc]
    exact hs.signal x m q
  · rw [hpc]
    exact hs.once
  · rw [hw]
    exact hs.proper.1
  · rw [hcv]
    exact hs.proper.2 m

theorem lines_setPc (hk : waker k = none)
    (hstay : ¬Waits s p ∨ (mlockWait (s.pc p) = true → mlockWait k = true) ∧
      ∀ m, cvWait m (s.pc p) = true → cvWait m k = true) :
    Lines (s.setPc p k) := by
  have hw : ∀ x q, waker ((s.setPc p k).pc x) = some q → x ≠ p ∧ waker (s.pc x) = some q := by
    intro x q h
    by_cases hx : x = p
    · simp [hx, hk] at h
    · exact ⟨hx,by simpa [hx] using h⟩
  have hm : ∀ q, Waits s q → mlockWait (s.pc q) = true →
      mlockWait ((s.setPc p k).pc q) = true := by
    intro q hq h
    by_cases hqp : q = p
    · subst hqp
      simpa using (hstay.resolve_left (fun h => h hq)).1 h
    · simpa [hqp] using h
  have hc : ∀ m q, Waits s q → cvWait m (s.pc q) = true →
      cvWait m ((s.setPc p k).pc q) = true := by
    intro m q hq h
    by_cases hqp : q = p
    · subst hqp
      simpa using (hstay.resolve_left (fun h => h hq)).2 m h
    · simpa [hqp] using h
  refine ⟨fun q hq => hm q (.inl hq) (hs.wq q hq),
    fun m q hq => hc m q (.inr (.inl ⟨m,hq⟩)) (hs.cv m q hq),fun x m q h => ?_,fun x m q h => ?_,
    fun x y q hx hy => hs.once x y q (hw x q hx).2 (hw y q hy).2,hs.proper⟩
  · obtain ⟨hx,hxq⟩ := hw x q (by rw [h]; rfl)
    have h : s.pc x = .munlockWake m q := by simpa [hx] using h
    exact ⟨hm q (.inr (.inr ⟨x,hxq⟩)) (hs.wake x m q h).1,(hs.wake x m q h).2⟩
  · obtain ⟨hx,hxq⟩ := hw x q (by rw [h]; rfl)
    have h : s.pc x = .signalWake m q := by simpa [hx] using h
    exact ⟨hc m q (.inr (.inr ⟨x,hxq⟩)) (hs.signal x m q h).1,(hs.signal x m q h).2⟩

theorem lines_ret (hp : ¬Waits s p) (v : ℤ) : Lines (ret s p v) :=
  lines_setPc (s := s.setProc p { s.proc p with eax := v })
    (lines_congr hs rfl rfl (fun _ => rfl)) rfl (.inl hp)

theorem lines_enroll {via : Via} {w : Queue Slot WAITERS} (hp : ¬Waits s p)
    (hw : enroll s.wqueue p = some w) : Lines ((s.setWqueue w).setPc p (.mlockSleep via m)) := by
  have hl := lines_setPc (k := .mlockSleep via m) hs rfl (.inl hp)
  refine ⟨fun q hq => ?_,hl.cv,fun x i q h => ⟨(hl.wake x i q h).1,fun hq => ?_⟩,hl.signal,hl.once,
    proper_enroll _ _ _ hs.proper.1 hw,hs.proper.2⟩
  · rcases (mem_enroll _ _ _ _ hw).mp hq with h | rfl
    · exact hl.wq q h
    · simp [mlockWait]
  · rcases (mem_enroll _ _ _ _ hw).mp hq with h' | rfl
    · exact (hl.wake x i q h).2 h'
    · have hx : x ≠ q := by
        rintro rfl
        simp at h
      exact hp (.inr (.inr ⟨x,by rw [show s.pc x = _ by simpa [hx] using h]; rfl⟩))

theorem lines_join {w : Queue Slot WAITERS} (hp : ¬Waits s p)
    (hw : enroll (s.muxes m).cv p = some w) :
    Lines ((joinCv s p m w).setPc p (.waitcvSleep m)) := by
  have hl := lines_setPc (k := .waitcvSleep m) hs rfl (.inl hp)
  refine ⟨hl.wq,fun i q hq => ?_,hl.wake,fun x i q h =>
    ⟨(hl.signal x i q h).1,fun hq => ?_⟩,hl.once,
    hs.proper.1,fun i => ?_⟩
  · rcases (mem_joinCv hw).mp hq with h | ⟨rfl,rfl⟩
    · exact hl.cv i q h
    · simp [cvWait]
  · rcases (mem_joinCv hw).mp hq with h' | ⟨rfl,rfl⟩
    · exact (hl.signal x i q h).2 h'
    · have hx : x ≠ q := by
        rintro rfl
        simp at h
      have hxq : s.pc x = .signalWake i q := by simpa [joinCv, hx] using h
      exact hp (.inr (.inr ⟨x,by rw [hxq]; rfl⟩))
  · by_cases hi : i = m
    · subst hi
      simpa [joinCv] using proper_enroll _ _ _ (hs.proper.2 i) hw
    · simpa [joinCv, hi] using hs.proper.2 i

/-- The front of a queue leaves it for the process that is to wake it. -/
theorem lines_leave (hp : ¬Waits s p) (hq : Waits s q) (hno : ∀ x, waker (s.pc x) ≠ some q)
    (hk : waker k = some q) (hpc : t.pc = (s.setPc p k).pc)
    (hwq : ∀ r, r ∈ list t.wqueue → r ∈ list s.wqueue)
    (hcv : ∀ i r, r ∈ list (t.muxes i).cv → r ∈ list (s.muxes i).cv)
    (hwake : ∀ i, k = .munlockWake i q → mlockWait (s.pc q) = true ∧ q ∉ list t.wqueue)
    (hsig : ∀ i, k = .signalWake i q → cvWait i (s.pc q) = true ∧ q ∉ list (t.muxes i).cv)
    (hproper : Proper t.wqueue ∧ ∀ i, Proper (t.muxes i).cv) : Lines t := by
  have hpc' : ∀ r, r ≠ p → t.pc r = s.pc r := fun r hr => by simp [hpc, hr]
  have hne : ∀ r, Waits s r → t.pc r = s.pc r := fun r hr =>
    hpc' r (fun he => hp (he ▸ hr))
  have hw : ∀ x r, waker (t.pc x) = some r →
      x = p ∧ t.pc x = k ∧ r = q ∨ x ≠ p ∧ t.pc x = s.pc x ∧ r ≠ q ∧ t.pc r = s.pc r := by
    intro x r h
    by_cases hx : x = p
    · have hxk : t.pc x = k := by simp [hpc, hx]
      rw [hxk, hk] at h
      exact .inl ⟨hx,hxk,(Option.some.inj h).symm⟩
    · rw [hpc' x hx] at h
      exact .inr ⟨hx,hpc' x hx,fun hr => hno x (hr ▸ h),hne r (.inr (.inr ⟨x,h⟩))⟩
  refine ⟨fun r hr => ?_,fun i r hr => ?_,fun x i r h => ?_,fun x i r h => ?_,fun x y r hx hy => ?_,
    hproper⟩
  · rw [hne r (.inl (hwq r hr))]
    exact hs.wq r (hwq r hr)
  · rw [hne r (.inr (.inl ⟨i,hcv i r hr⟩))]
    exact hs.cv i r (hcv i r hr)
  · rcases hw x r (by rw [h]; rfl) with ⟨-,hxk,rfl⟩ | ⟨-,hx,-,hr⟩
    · rw [hne r hq]
      exact hwake i (hxk.symm.trans h)
    · rw [hr]
      have hold := hs.wake x i r (hx.symm.trans h)
      exact ⟨hold.1,fun hm => hold.2 (hwq r hm)⟩
  · rcases hw x r (by rw [h]; rfl) with ⟨-,hxk,rfl⟩ | ⟨-,hx,-,hr⟩
    · rw [hne r hq]
      exact hsig i (hxk.symm.trans h)
    · rw [hr]
      have hold := hs.signal x i r (hx.symm.trans h)
      exact ⟨hold.1,fun hm => hold.2 (hcv i r hm)⟩
  · rcases hw x r hx with ⟨h1,-,h2⟩ | ⟨-,h1,h2,-⟩ <;> rcases hw y r hy with ⟨h4,-,h5⟩ | ⟨-,h4,h5,-⟩
    · rw [h1, h4]
    · exact absurd h2 h5
    · exact absurd h5 h2
    · exact hs.once x y r (h1 ▸ hx) (h4 ▸ hy)

theorem lines_dequeue (hp : ¬Waits s p) (hf : front s.wqueue = some q) :
    Lines ((s.setWqueue (shift s.wqueue)).setPc p (.munlockWake m q)) := by
  obtain ⟨h1,h2,-⟩ := proper_shift _ _ hs.proper.1 hf
  have hq := front_mem _ _ hf
  refine lines_leave hs hp (.inl hq) (fun x hx => (lines_flight hs hx).1 hq) rfl rfl
    (fun r hr => mem_shift _ _ hr) (fun _ _ hr => hr) (fun i _ => ⟨hs.wq q hq,h2⟩) (fun i h => ?_)
    ⟨h1,hs.proper.2⟩
  cases h

theorem lines_signal (hp : ¬Waits s p) (hf : front (s.muxes m).cv = some q) :
    Lines ((leaveCv s m q).setPc p (.signalWake m q)) := by
  obtain ⟨h1,h2,-⟩ := proper_shift _ _ (hs.proper.2 m) hf
  have hq := front_mem _ _ hf
  refine lines_leave hs hp (.inr (.inl ⟨m,hq⟩)) (fun x hx => (lines_flight hs hx).2.1 m hq) rfl rfl
    (fun _ hr => hr) (fun _ _ => mem_leaveCv (q := q)) (fun i h => ?_) (fun i h => ?_)
    ⟨hs.proper.1,fun i => ?_⟩
  · cases h
  · cases h
    exact ⟨hs.cv m q hq,by simpa [leaveCv] using h2⟩
  · by_cases hi : i = m
    · subst hi
      simpa [leaveCv] using h1
    · simpa [leaveCv, hi] using hs.proper.2 i

end

theorem lines_dispatch (hp : s.preempted p = false → ¬Waits s p) (h : dispatch s c p = .ok t) :
    Lines t := by
  obtain ⟨ch,k,l,rfl,⟨-,rfl,-⟩ | ⟨hb,hr,-⟩⟩ := dispatch_ok h
  · refine lines_congr hs (funext fun x => ?_) rfl (fun _ => rfl)
    by_cases hx : x = p <;> simp [switchTo, hx]
  · have hk : waker k = none := by
      cases hpc : s.pc p <;> simp only [hpc, resumePc, Option.some.injEq, reduceCtorEq] at hr <;>
        subst hr <;> rfl
    exact lines_congr (lines_setPc hs hk (.inl (hp hb))) rfl rfl (fun _ => rfl)

/-- Every section of the calls keeps the lines, unless `sys_waitcv` returns
because its nested `sys_munlock` was refused. -/
theorem lines_sync (hset : Settled s) {a : Act C} (h : Sync s c p a t)
    (hn : ∀ i, s.pc p = .waitcvCheck i → t.pc p ≠ .user) : Lines t := by
  have hgo : ∀ {u : Kernel C} {k : Pc}, Lines u → waiting (u.pc p) = false → waker k = none →
      Lines (u.setPc p k) := fun hu h1 h2 => lines_setPc hu h2 (.inl (lines_clear hu h1))
  have hret : ∀ {u : Kernel C} {v : ℤ}, Lines u → waiting (u.pc p) = false → Lines (ret u p v) :=
    fun hu h => lines_ret hu (lines_clear hu h) _
  have hstay : ∀ {u : Kernel C} {i : MuxId} {k : Pc}, Lines u → cvWait i (u.pc p) = true →
      cvWait i k = true → Lines (u.setPc p k) := by
    intro u i k hu hi hk
    have hw : waker k = none := by
      cases k <;> simp [cvWait, waker] at hk ⊢
    refine lines_setPc hu hw (.inr ⟨fun hm => ?_,fun j hj => ?_⟩)
    · simp [cvWait_not_mlockWait hi] at hm
    · rwa [cvWait_unique hj hi]
  have hcv : ∀ i, Lines (MutexCalls.clear s p i) := fun i => lines_congr hs rfl rfl (fun j => by
    by_cases hj : j = i <;> simp [MutexCalls.clear, hj])
  cases h with
  | mlock pc | munlock pc | waitcvRelock pc | signalcv pc =>
      exact hgo hs (by simp [pc, waiting]) rfl
  | mlockRefused pc | munlockRefused pc | waitcvFull pc | relockRefused pc | signalRefused pc
  | signalEmpty pc | munlockEmpty pc => exact hret hs (by simp [pc, waiting])
  | waitcvRefused pc => exact absurd (by simp [ret]) (hn _ pc)
  | mlockFull pc =>
    exact lines_congr (hret hs (by simp [pc, waiting])) rfl rfl (fun _ => rfl)
  | mlockEnroll pc _ enrolled =>
    exact lines_enroll hs (lines_clear hs (by simp [pc, waiting])) enrolled
  | @mlockTake _ m pc =>
    have hl : Lines (take s p m) := lines_congr hs rfl rfl take_cv
    exact hret hl (by simp [take, pc, waiting])
  | @mlockSleep via m _ pc _ left =>
    obtain ⟨-,rfl⟩ := sched_settled left hset
    have hl : Lines (s.setPc p (.mlockAsleep via m)) :=
      lines_setPc hs rfl (.inr ⟨fun _ => rfl,by simp [pc, cvWait]⟩)
    exact lines_congr hl rfl rfl (fun _ => rfl)
  | @munlockClear m pc => exact hgo (hcv m) (by simp [MutexCalls.clear, pc, waiting]) rfl
  | munlockDequeue pc head =>
    exact lines_dequeue hs (lines_clear hs (by simp [pc, waiting])) head
  | munlockWake pc _ woken | signalWake pc _ woken =>
    obtain ⟨k,-,-,rfl⟩ := makeRunnable_ok woken
    exact lines_congr (hret (v := 1) hs (by simp [pc, waiting])) rfl rfl (fun _ => rfl)
  | waitcv pc _ enrolled =>
    exact lines_join hs (lines_clear hs (by simp [pc, waiting])) enrolled
  | @waitcvSleep m pc =>
    have hl : Lines (s.setPc p (.waitcvCheck m)) :=
      hstay (i := m) hs (by simp [pc, cvWait]) (by simp [cvWait])
    exact lines_congr hl rfl rfl (fun _ => rfl)
  | @waitcvCheck m pc | @waitcvDequeue m pc =>
    exact hstay (i := m) hs (by simp [pc, cvWait]) (by simp [cvWait])
  | @waitcvClear m pc =>
    exact hstay (i := m) (hcv m) (by simp [MutexCalls.clear, pc, cvWait]) (by simp [cvWait])
  | @waitcvSched m _ pc left =>
    obtain ⟨-,rfl⟩ := sched_settled left hset
    have hl : Lines (s.setPc p (.waitcvAsleep m)) :=
      hstay (i := m) hs (by simp [pc, cvWait]) (by simp [cvWait])
    exact lines_congr hl rfl rfl (fun _ => rfl)
  | signalDequeue pc head =>
    exact lines_signal hs (lines_clear hs (by simp [pc, waiting])) head

end

end

variable {C : Type} {s t u : Kernel C} {c : C} {p q : Slot} {m : MuxId} {k : Pc}

structure Section (s t : Kernel C) (p : Slot) : Prop where
  pc : ∀ q, q ≠ p → t.pc q = s.pc q
  muxPtrs : ∀ q, (t.proc q).muxPtrs = (s.proc q).muxPtrs
  preempted : t.preempted = s.preempted
  settled : Settled t
  waits : ∀ q, Waits t q → Waits s q ∨ q = p ∧ waiting (s.pc p) = false ∧ waiting (t.pc p) = true
  stays : waiting (s.pc p) = true → waiting (t.pc p) = true ∨
    ∃ i, s.pc p = .waitcvCheck i ∧ t.pc p = .user
  entries : ∀ q, entries t q ≤ entries s q+if waker (s.pc p) = some q then 1 else 0

theorem entries_ring (h : t.ring = s.ring) (q : Slot) : entries t q = entries s q := by
  simp only [ReadyQueue.entries, ready, h]

/-- The thread moves to `k`; queues and rings stay. -/
theorem section_move (hset : Settled s) (hw : waker k = none)
    (hstay : waiting (s.pc p) = true → waiting k = true ∨ (∃ i, s.pc p = .waitcvCheck i) ∧
      k = .user)
    (hpc : t.pc = (s.setPc p k).pc)
    (hframe : t = { s with
      proc := t.proc, pc := t.pc, muxes := t.muxes, lock := t.lock, muxLock := t.muxLock,
      cpu := t.cpu, holds := t.holds, granted := t.granted, joins := t.joins,
      signals := t.signals })
    (hcv : ∀ i, (t.muxes i).cv = (s.muxes i).cv)
    (hptr : ∀ q, (t.proc q).muxPtrs = (s.proc q).muxPtrs) : Section s t p := by
  have hself : t.pc p = k := by
    rw [hpc]
    simp
  have hwq : t.wqueue = s.wqueue := by rw [hframe]
  refine ⟨fun q hq => ?_,hptr,by rw [hframe],?_,fun q hq => .inl ?_,fun h => ?_,fun q => ?_⟩
  · rw [hpc]
    simp [hq]
  · rw [hframe]
    exact hset
  · rw [Waits, hwq, hpc] at hq
    simp only [hcv] at hq
    exact (waits_setPc hq).resolve_right (by simp [hw])
  · rw [hself]
    exact (hstay h).imp_right (fun h => h.1.imp (fun i hi => ⟨hi,h.2⟩))
  · rw [entries_ring (by rw [hframe]) q]
    exact Nat.le_add_right _ _

theorem ret_muxPtrs {v : ℤ} (h : u.proc = s.proc) (q : Slot) :
    ((ret u p v).proc q).muxPtrs = (s.proc q).muxPtrs := by
  by_cases hq : q = p <;> simp [ret, hq, h]

theorem ret_state {v : ℤ} (h : u.proc = s.proc) (q : Slot) :
    ((ret u p v).proc q).state = (s.proc q).state ∧
      ((ret u p v).proc q).priority = (s.proc q).priority := by
  by_cases hq : q = p <;> simp [ret, hq, h]

variable [DecidableEq C]

omit [DecidableEq C] in
theorem section_wake (hset : Settled s) (hp : waker (s.pc p) = some q)
    (hu : makeRunnable (s.setLock (some p)) q = .ok u) :
      Section s ((ret u p 1).setLock none) p := by
  have hr := routine_wake hu
  obtain ⟨k,-,-,rfl⟩ := makeRunnable_ok hu
  refine ⟨fun x hx => by simp [ret, hx],hr.muxPtrs,rfl,hset,fun x hx => .inl ?_,fun h => ?_,
    fun x => ?_⟩
  · exact (waits_setPc (s := s) (k := .user) hx).resolve_right (by simp [waker])
  · cases hpc : s.pc p <;> simp [hpc, waker, waiting] at hp h
  · refine le_trans (entries_push_le s k q x) ?_
    by_cases hx : x = q <;> simp [hx, hp]

theorem section_sync (hset : Settled s) {a : Act C} (h : Sync s c p a t) : Section s t p := by
  cases h with
  | mlock pc | munlock pc | waitcvRelock pc | signalcv pc =>
    exact section_move hset rfl (by simp [pc, waiting]) rfl rfl (fun _ => rfl) (fun _ => rfl)
  | waitcvCheck pc | waitcvDequeue pc =>
    exact section_move hset rfl (by simp [waiting]) rfl rfl (fun _ => rfl) (fun _ => rfl)
  | mlockRefused pc | munlockRefused pc | waitcvFull pc | relockRefused pc | signalRefused pc
  | signalEmpty pc | munlockEmpty pc | mlockFull pc =>
    exact section_move (k := .user) hset rfl (by simp [pc, waiting]) rfl rfl (fun _ => rfl)
      (ret_muxPtrs rfl)
  | waitcvRefused pc =>
    exact section_move (k := .user) hset rfl (by simp [pc]) rfl rfl (fun _ => rfl) (ret_muxPtrs rfl)
  | @mlockTake _ m pc =>
    exact section_move (k := .user) hset rfl (by simp [pc, waiting]) rfl rfl
      (take_cv (s := s) (p := p) (m := m)) (ret_muxPtrs rfl)
  | @munlockClear m pc | @waitcvClear m pc =>
    exact section_move hset rfl (by simp [pc, waiting]) rfl rfl
      (clear_cv (s := s) (p := p) (m := m)) (fun _ => rfl)
  | mlockSleep pc free left =>
    obtain ⟨-,rfl⟩ := sched_settled left hset
    refine section_move (k := .mlockAsleep _ _) hset rfl (by simp [waiting]) rfl rfl (fun _ => rfl)
      (fun q => ?_)
    by_cases hq : q = p <;> simp [hq]
  | waitcvSleep pc free =>
    refine section_move (k := .waitcvCheck _) hset rfl (by simp [waiting]) rfl rfl (fun _ => rfl)
      (fun q => ?_)
    by_cases hq : q = p <;> simp [hq]
  | waitcvSched pc left =>
    obtain ⟨-,rfl⟩ := sched_settled left hset
    exact section_move hset rfl (by simp [waiting]) rfl rfl (fun _ => rfl) (fun _ => rfl)
  | munlockWake pc free woken | signalWake pc free woken =>
    exact section_wake hset (by rw [pc]; rfl) woken
  | @mlockEnroll via m w pc _ enrolled =>
    refine ⟨fun q hq => by simp [hq],fun _ => rfl,rfl,hset,fun q hq => ?_,by simp [pc, waiting],
      fun q => Nat.le_add_right _ _⟩
    have hq := (waits_setPc hq).resolve_right (by simp [waker])
    exact (waits_enroll enrolled hq).imp_right fun h => ⟨h,by simp [pc, waiting],by simp [waiting]⟩
  | @waitcv _ m w pc _ enrolled =>
    refine ⟨fun q hq => by simp [joinCv, hq],fun _ => rfl,rfl,hset,fun q hq => ?_,
      by simp [pc, waiting],fun q => Nat.le_add_right _ _⟩
    have hq := (waits_setPc hq).resolve_right (by simp [waker])
    exact (waits_join enrolled hq).imp_right fun h => ⟨h,by simp [pc, waiting],by simp [waiting]⟩
  | @munlockDequeue m q pc head =>
    refine ⟨fun q hq => by simp [hq],fun _ => rfl,rfl,hset,fun x hx => .inl ?_,
      by simp [pc, waiting],fun q => Nat.le_add_right _ _⟩
    rcases waits_setPc hx with h | h
    · exact waits_shift h
    · exact Option.some.inj h ▸ .inl (front_mem _ _ head)
  | @signalDequeue m q pc head =>
    refine ⟨fun q hq => by simp [leaveCv, hq],fun _ => rfl,rfl,hset,fun x hx => .inl ?_,
      by simp [pc, waiting],fun q => Nat.le_add_right _ _⟩
    rcases waits_setPc hx with h | h
    · exact waits_leave h
    · exact Option.some.inj h ▸ .inr (.inl ⟨m,front_mem _ _ head⟩)

theorem sync_wake {a : Act C} (h : Sync s c p a t) (hp : waker (s.pc p) = some q) :
    s.lock = none ∧ ∃ u, makeRunnable (s.setLock (some p)) q = .ok u ∧
      t = (ret u p 1).setLock none := by
  cases h with
  | munlockWake pc free woken | signalWake pc free woken =>
    rw [pc] at hp
    cases hp
    exact ⟨free,_,woken,rfl⟩
  | mlock pc | munlock pc | waitcvRelock pc | signalcv pc | waitcvCheck pc | waitcvDequeue pc
  | mlockRefused pc | munlockRefused pc | waitcvFull pc | relockRefused pc | signalRefused pc
  | signalEmpty pc | munlockEmpty pc | mlockFull pc | waitcvRefused pc | mlockTake pc
  | munlockClear pc | waitcvClear pc | mlockSleep pc | waitcvSleep pc | waitcvSched pc
  | mlockEnroll pc | waitcv pc | munlockDequeue pc | signalDequeue pc => simp [pc, waker] at hp

omit [DecidableEq C] in
theorem woken_clear (hs : Lines s) (hp : waker (s.pc p) = some q)
    (hu : makeRunnable (s.setLock (some p)) q = .ok u) : ¬Waits ((ret u p 1).setLock none) q := by
  obtain ⟨h1,h2,h3⟩ := lines_flight hs hp
  obtain ⟨k,-,-,rfl⟩ := makeRunnable_ok hu
  rintro (h | ⟨i,h⟩ | ⟨x,h⟩)
  · exact h1 h
  · exact h2 i h
  · by_cases hx : x = p
    · simp [ret, hx, waker] at h
    · exact hx (h3 x (by simpa [ret, hx] using h))

end Xv6.WaitLines
