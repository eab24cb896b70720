import Xv6.ProcessEffects

/-!
# What the mutex and condition variable calls do

All ways in which a section of `sys_mlock`, `sys_munlock`, `sys_waitcv` or
`sys_signalcv` can succeed, with the guards it passed and the state it leaves.
Invariants of these calls are proved by cases over this relation.
-/

set_option autoImplicit false

namespace Xv6.MutexEffects
open KernelState RingBuffer NullQueue ReadyQueue ProcessCalls MutexCalls
open Machine ProcessFrames ProcessEffects TransitionRun

variable {C : Type} [DecidableEq C]

inductive Sync (s : Kernel C) (c : C) (p : Slot) : Act C → Kernel C → Prop where
  | mlock {id : ℤ} {m : MuxId} (user : s.pc p = .user) (index : muxIndex id = some m)
      (access : (s.proc p).muxPtrs m = true) :
      Sync s c p (.mlock c id) (s.setPc p (.mlockTry .mlock m))
  | mlockRefused {id : ℤ} {m : MuxId} (user : s.pc p = .user) (index : muxIndex id = some m)
      (refused : (s.proc p).muxPtrs m = false) : Sync s c p (.mlock c id) (ret s p 0)
  | mlockFull {via : Via} {m : MuxId} (pc : s.pc p = .mlockTry via m)
      (locked : (s.muxes m).state = 1) (full : enroll s.wqueue p = none) :
      Sync s c p (.mlockTry c) ((ret s p 0).setMuxLock (some p))
  | mlockEnroll {via : Via} {m : MuxId} {w : Queue Slot WAITERS} (pc : s.pc p = .mlockTry via m)
      (locked : (s.muxes m).state = 1) (enrolled : enroll s.wqueue p = some w) :
      Sync s c p (.mlockTry c) ((s.setWqueue w).setPc p (.mlockSleep via m))
  | mlockTake {via : Via} {m : MuxId} (pc : s.pc p = .mlockTry via m)
      (open_ : (s.muxes m).state ≠ 1) : Sync s c p (.mlockTry c) (ret (take s p m) p 1)
  | mlockSleep {via : Via} {m : MuxId} {t : Kernel C} (pc : s.pc p = .mlockSleep via m)
      (free : s.lock = none)
      (left : sched ((setState (s.setLock (some p)) p .sleeping).setPc p (.mlockAsleep via m)) c p =
        .ok t) : Sync s c p (.mlockSleep c) t
  | munlock {id : ℤ} {m : MuxId} (user : s.pc p = .user) (index : muxIndex id = some m)
      (locked : (s.muxes m).state = 1) :
      Sync s c p (.munlock c id) (s.setPc p (.munlockClear m))
  | munlockRefused {id : ℤ} (user : s.pc p = .user) : Sync s c p (.munlock c id) (ret s p 0)
  | munlockClear {m : MuxId} (pc : s.pc p = .munlockClear m) :
      Sync s c p (.munlockClear c) ((clear s p m).setPc p (.munlockDequeue m))
  | munlockEmpty {m : MuxId} (pc : s.pc p = .munlockDequeue m) (empty : front s.wqueue = none) :
      Sync s c p (.munlockDequeue c) (ret s p 1)
  | munlockDequeue {m : MuxId} {q : Slot} (pc : s.pc p = .munlockDequeue m)
      (head : front s.wqueue = some q) :
      Sync s c p (.munlockDequeue c)
        ((s.setWqueue (shift s.wqueue)).setPc p (.munlockWake m q))
  | munlockWake {m : MuxId} {q : Slot} {u : Kernel C} (pc : s.pc p = .munlockWake m q)
      (free : s.lock = none) (woken : makeRunnable (s.setLock (some p)) q = .ok u) :
      Sync s c p (.munlockWake c) ((ret u p 1).setLock none)
  | waitcvFull {id : ℤ} {m : MuxId} (user : s.pc p = .user) (index : muxIndex id = some m)
      (full : enroll (s.muxes m).cv p = none) : Sync s c p (.waitcv c id) (ret s p 0)
  | waitcv {id : ℤ} {m : MuxId} {w : Queue Slot WAITERS} (user : s.pc p = .user)
      (index : muxIndex id = some m) (enrolled : enroll (s.muxes m).cv p = some w) :
      Sync s c p (.waitcv c id) ((joinCv s p m w).setPc p (.waitcvSleep m))
  | waitcvSleep {m : MuxId} (pc : s.pc p = .waitcvSleep m) (free : s.lock = none) :
      Sync s c p (.waitcvSleep c)
        ((setState (s.setLock (some p)) p .sleeping).setPc p (.waitcvCheck m))
  | waitcvCheck {m : MuxId} (pc : s.pc p = .waitcvCheck m) (locked : (s.muxes m).state = 1) :
      Sync s c p (.waitcvCheck c) (s.setPc p (.waitcvClear m))
  | waitcvRefused {m : MuxId} (pc : s.pc p = .waitcvCheck m)
      (refused : (s.proc p).muxPtrs m = false ∨ (s.muxes m).state ≠ 1) :
      Sync s c p (.waitcvCheck c) (ret s p 0)
  | waitcvClear {m : MuxId} (pc : s.pc p = .waitcvClear m) :
      Sync s c p (.waitcvClear c) ((clear s p m).setPc p (.waitcvDequeue m))
  | waitcvDequeue {m : MuxId} (pc : s.pc p = .waitcvDequeue m) (empty : front s.wqueue = none) :
      Sync s c p (.waitcvDequeue c) (s.setPc p (.waitcvSched m))
  | waitcvSched {m : MuxId} {t : Kernel C} (pc : s.pc p = .waitcvSched m)
      (left : sched (s.setPc p (.waitcvAsleep m)) c p = .ok t) : Sync s c p (.waitcvSched c) t
  | waitcvRelock {m : MuxId} (pc : s.pc p = .waitcvRelock m)
      (access : (s.proc p).muxPtrs m = true) :
      Sync s c p (.waitcvRelock c) (s.setPc p (.mlockTry .waitcv m))
  | relockRefused {m : MuxId} (pc : s.pc p = .waitcvRelock m)
      (refused : (s.proc p).muxPtrs m = false) : Sync s c p (.waitcvRelock c) (ret s p 0)
  | signalcv {id : ℤ} {m : MuxId} (user : s.pc p = .user) (index : muxIndex id = some m)
      (locked : (s.muxes m).state = 1) :
      Sync s c p (.signalcv c id) (s.setPc p (.signalDequeue m))
  | signalRefused {id : ℤ} {m : MuxId} (user : s.pc p = .user) (index : muxIndex id = some m)
      (refused : (s.proc p).muxPtrs m = false ∨ (s.muxes m).state ≠ 1) :
      Sync s c p (.signalcv c id) (ret s p 0)
  | signalEmpty {m : MuxId} (pc : s.pc p = .signalDequeue m)
      (empty : front (s.muxes m).cv = none) : Sync s c p (.signalDequeue c) (ret s p 0)
  | signalDequeue {m : MuxId} {q : Slot} (pc : s.pc p = .signalDequeue m)
      (head : front (s.muxes m).cv = some q) :
      Sync s c p (.signalDequeue c) ((leaveCv s m q).setPc p (.signalWake m q))
  | signalWake {m : MuxId} {q : Slot} {u : Kernel C} (pc : s.pc p = .signalWake m q)
      (free : s.lock = none) (woken : makeRunnable (s.setLock (some p)) q = .ok u) :
      Sync s c p (.signalWake c) ((ret u p 1).setLock none)

def isSyncCall : Act C → Bool
  | .mlock _ _ | .mlockTry _ | .mlockSleep _ | .munlock _ _ | .munlockClear _ | .munlockDequeue _
  | .munlockWake _ | .waitcv _ _ | .waitcvSleep _ | .waitcvCheck _ | .waitcvClear _
  | .waitcvDequeue _ | .waitcvSched _ | .waitcvRelock _ | .signalcv _ _ | .signalDequeue _
  | .signalWake _ => true
  | _ => false

section Sections
variable {s t : Kernel C} {c : C} {p q : Slot} {m : MuxId} {via : Via}

omit [DecidableEq C] in
theorem muxLocked {f : Unit → Except Stop (Kernel C)}
    (h : (acquire s.muxLock p >>= f) = .ok t) : f () = .ok t := by
  obtain ⟨_,-,h⟩ := bind_ok h
  exact h

theorem mlockTry_sync (hpc : s.pc p = .mlockTry via m) (h : mlockTry s p via m = .ok t) :
    Sync s c p (.mlockTry c) t := by
  have h := muxLocked h
  split at h
  · simp at h
  split at h
  · split at h
    · cases h
      exact .mlockFull hpc ‹_› ‹_›
    · cases h
      exact .mlockEnroll hpc ‹_› ‹_›
  · cases h
    exact .mlockTake hpc ‹_›

section
omit [DecidableEq C]

theorem wakeSleeper_ok (h : wakeSleeper s p q = .ok t) :
    s.lock = none ∧ ∃ u, makeRunnable (s.setLock (some p)) q = .ok u ∧
      t = (ret u p 1).setLock none := by
  obtain ⟨hl,h⟩ := acquire_then h
  obtain ⟨u,hu,h⟩ := bind_ok h
  exact ⟨hl,u,hu,(Except.ok.inj h).symm⟩

theorem routine_wake {u : Kernel C} (h : makeRunnable (s.setLock (some p)) q = .ok u) :
    Routine s ((ret u p 1).setLock none) :=
  routine_trans (routine_trans (routine_control rfl) (routine_makeRunnable h))
    (routine_trans (routine_ret 1) (routine_control rfl))

end

section
omit [DecidableEq C]

@[simp] theorem take_cv (i : MuxId) : ((take s p m).muxes i).cv = (s.muxes i).cv := by
  by_cases hi : i = m <;> simp [take, hi]

@[simp] theorem clear_cv (i : MuxId) : ((clear s p m).muxes i).cv = (s.muxes i).cv := by
  by_cases hi : i = m <;> simp [clear, hi]

theorem mem_joinCv {w : Queue Slot WAITERS} {i : MuxId} (h : enroll (s.muxes m).cv p = some w) :
    q ∈ list ((joinCv s p m w).muxes i).cv ↔ q ∈ list (s.muxes i).cv ∨ q = p ∧ i = m := by
  by_cases hi : i = m
  · subst hi
    simpa [joinCv] using mem_enroll _ _ _ q h
  · simp [joinCv, hi]

theorem mem_leaveCv {i : MuxId} {x : Slot} (h : x ∈ list ((leaveCv s m q).muxes i).cv) :
    x ∈ list (s.muxes i).cv := by
  by_cases hi : i = m
  · subst hi
    exact mem_shift _ _ (by simpa [leaveCv] using h)
  · simpa [leaveCv, hi] using h

theorem joinCv_state (w : Queue Slot WAITERS) (i : MuxId) :
    ((joinCv s p m w).muxes i).state = (s.muxes i).state := by
  by_cases hi : i = m <;> simp [joinCv, hi]

theorem leaveCv_state (i : MuxId) : ((leaveCv s m q).muxes i).state = (s.muxes i).state := by
  by_cases hi : i = m <;> simp [leaveCv, hi]

theorem sysMlock_ok (h : sysMlock s p via m = .ok t) :
    ((s.proc p).muxPtrs m = false ∧ t = ret s p 0) ∨
    ((s.proc p).muxPtrs m = true ∧ t = s.setPc p (.mlockTry via m)) := by
  unfold sysMlock at h
  split at h
  · exact .inr ⟨‹_›,(Except.ok.inj h).symm⟩
  · exact .inl ⟨Bool.eq_false_iff.mpr ‹_›,(Except.ok.inj h).symm⟩

theorem sysMunlock_ok {k : Pc} (h : sysMunlock s p m k = .ok t) :
    (((s.proc p).muxPtrs m = false ∨ (s.muxes m).state ≠ 1) ∧ t = ret s p 0) ∨
    ((s.muxes m).state = 1 ∧ t = s.setPc p k) := by
  unfold sysMunlock at h
  split at h
  · rename_i hr
    exact .inl ⟨by simpa using hr,(Except.ok.inj h).symm⟩
  · rename_i hr
    simp only [not_or, not_not] at hr
    exact .inr ⟨hr.2,(Except.ok.inj h).symm⟩

theorem munlockClear_ok {k : Pc} (h : munlockClear s p m k = .ok t) :
    t = (clear s p m).setPc p k := by
  have h := muxLocked h
  split at h
  · simp at h
  · exact (Except.ok.inj h).symm

theorem sysMcreate_ok {name junk : BitVec 32} (h : sysMcreate s p name junk = .ok t) :
    (t = ret s p (-1) ∧ ∀ m, (s.muxes m).name ≠ 0) ∨
    ∃ m, (s.muxes m).name = 0 ∧ t = ret (createMux s p m (mcreateName s p name junk)) p m.val := by
  have h := muxLocked h
  split at h
  · rename_i hn
    refine .inl ⟨(Except.ok.inj h).symm,fun m => ?_⟩
    simpa using List.find?_eq_none.mp hn m (List.mem_finRange m)
  · rename_i m hm
    exact .inr ⟨m,by simpa using List.find?_some hm,(Except.ok.inj h).symm⟩

theorem sysMdelete_ok {id : ℤ} (h : sysMdelete s p id = .ok t) : ∃ m, muxIndex id = some m ∧
    (((s.proc p).muxPtrs m = false ∧ t = ret s p 0) ∨
     ((s.proc p).muxPtrs m = true ∧ (∃ q, q ≠ p ∧ (s.proc q).muxPtrs m = true) ∧
       t = s.setPc p (.mdeleteDrop m)) ∨
     ((s.proc p).muxPtrs m = true ∧ (∀ q, q ≠ p → (s.proc q).muxPtrs m = false) ∧
       t = s.setPc p (.mdeleteFree m))) := by
  unfold sysMdelete at h
  split at h
  · simp at h
  rename_i m hm
  refine ⟨m,hm,?_⟩
  split at h
  · rename_i ha
    exact .inl ⟨by simpa using ha,(Except.ok.inj h).symm⟩
  rename_i ha
  have ha : (s.proc p).muxPtrs m = true := by simpa using ha
  split at h
  · rename_i q hq
    have hq := findSlot_some hq
    simp only [Bool.and_eq_true, decide_eq_true_eq] at hq
    exact .inr (.inl ⟨ha,⟨q,hq⟩,(Except.ok.inj h).symm⟩)
  · rename_i hn
    refine .inr (.inr ⟨ha,fun q hq => ?_,(Except.ok.inj h).symm⟩)
    simpa [hq] using findSlot_none hn q

theorem mdeleteFree_ok (h : mdeleteFree s p m = .ok t) :
    t = (freeMux s m).setPc p (.mdeleteDrop m) := by
  have h := muxLocked h
  split at h
  · simp at h
  · exact (Except.ok.inj h).symm

/-- A call of `sys_testpqeq` renames the process and calls `pq_enqueue`. -/
theorem sysTestpqeq_ok (h : sysTestpqeq s p = .ok t) : s.lock = none ∧ ∃ r v u,
    r.state = (s.proc p).state ∧ r.muxPtrs = (s.proc p).muxPtrs ∧
    r.priority = (s.proc p).priority ∧
    (u = (s.setLock (some p)).setProc p r ∨ (s.proc p).state = .runnable ∧
      ∃ k, u = ((s.setLock (some p)).setProc p r).setRing k (push (s.ring k) (some p))) ∧
    t = (ret u p v).setLock none := by
  obtain ⟨hl,h⟩ := acquire_then h
  obtain ⟨⟨u,x⟩,hu,h⟩ := bind_ok h
  refine ⟨hl,{ s.proc p with name := priorityName (s.proc p) },_,u,rfl,rfl,rfl,?_,
    (Except.ok.inj h).symm⟩
  rcases pqEnqueue_ok hu with rfl | ⟨hr,k,rfl⟩
  · exact .inl rfl
  · exact .inr ⟨by simpa using hr,k,rfl⟩

theorem testpqdqTake_ok {n : ℕ} (h : testpqdqTake s p n = .ok t) : ∃ u e,
    (u = s ∨ ∃ k, u = s.setRing k (pop (s.ring k))) ∧ t = u.setPc p (.testpqdqLoop e n) := by
  unfold testpqdqTake at h
  split at h
  · rename_i u e hd
    obtain ⟨k,rfl,-⟩ := pqDequeue_some hd
    exact ⟨_,e,.inr ⟨k,rfl⟩,(Except.ok.inj h).symm⟩
  · rename_i u hd
    obtain ⟨rfl,-⟩ := pqDequeue_none hd
    exact ⟨_,none,.inl rfl,(Except.ok.inj h).symm⟩

theorem testpqdqNext_ok {e : Option Slot} {n : ℕ} (h : testpqdqNext s p e n = .ok t) :
    (∃ v, t = ret s p v) ∨ ∃ u e n, (u = s ∨ ∃ k, u = s.setRing k (pop (s.ring k))) ∧
      t = u.setPc p (.testpqdqLoop e n) := by
  unfold testpqdqNext at h
  split at h
  · exact .inl ⟨_,(Except.ok.inj h).symm⟩
  split at h
  · simp at h
  · obtain ⟨u,e,hu,rfl⟩ := testpqdqTake_ok h
    exact .inr ⟨u,e,_,hu,rfl⟩

end

end Sections

theorem sync_step {s t : Kernel C} {a : Act C} (ha : isSyncCall a = true) (h : step s a = .ok t) :
    ∃ c p, s.cpu c = some p ∧ Sync s c p a t := by
  cases a <;> simp only [isSyncCall, Bool.false_eq_true] at ha
  case mlock c id =>
    obtain ⟨p,m,hc,hu,hm,h⟩ := muxCall_ok h
    refine ⟨c,p,hc,?_⟩
    rcases sysMlock_ok h with ⟨hr,rfl⟩ | ⟨ha,rfl⟩
    · exact .mlockRefused hu hm hr
    · exact .mlock hu hm ha
  case munlock c id =>
    obtain ⟨p,m,hc,hu,hm,h⟩ := muxCall_ok h
    refine ⟨c,p,hc,?_⟩
    rcases sysMunlock_ok h with ⟨-,rfl⟩ | ⟨hl,rfl⟩
    · exact .munlockRefused hu
    · exact .munlock hu hm hl
  case waitcv c id =>
    obtain ⟨p,m,hc,hu,hm,h⟩ := muxCall_ok h
    refine ⟨c,p,hc,?_⟩
    have h := muxLocked h
    split at h
    · simp at h
    split at h
    · cases h
      exact .waitcvFull hu hm ‹_›
    · cases h
      exact .waitcv hu hm ‹_›
  case signalcv c id =>
    obtain ⟨p,m,hc,hu,hm,h⟩ := muxCall_ok h
    refine ⟨c,p,hc,?_⟩
    unfold sysSignalcv at h
    split at h
    · rename_i hr
      cases h
      exact .signalRefused hu hm (by simpa using hr)
    · rename_i hr
      simp only [not_or, not_not] at hr
      cases h
      exact .signalcv hu hm hr.2
  all_goals
    obtain ⟨p,hc,h⟩ := onCpu_ok h
    split at h
    case h_2 => simp at h
    rename_i hpc
    refine ⟨_,p,hc,?_⟩
  · exact mlockTry_sync hpc h
  · obtain ⟨hl,h⟩ := acquire_then h
    exact .mlockSleep hpc hl h
  · obtain rfl := munlockClear_ok h
    exact .munlockClear hpc
  · unfold munlockDequeue at h
    split at h
    · cases h
      exact .munlockEmpty hpc ‹_›
    · cases h
      exact .munlockDequeue hpc ‹_›
  · obtain ⟨hl,u,hu,rfl⟩ := wakeSleeper_ok h
    exact .munlockWake hpc hl hu
  · obtain ⟨hl,h⟩ := acquire_then h
    cases h
    exact .waitcvSleep hpc hl
  · rcases sysMunlock_ok h with ⟨hr,rfl⟩ | ⟨hl,rfl⟩
    · exact .waitcvRefused hpc hr
    · exact .waitcvCheck hpc hl
  · obtain rfl := munlockClear_ok h
    exact .waitcvClear hpc
  · unfold waitcvDequeue at h
    split at h
    · cases h
      exact .waitcvDequeue hpc ‹_›
    · simp at h
  · exact .waitcvSched hpc h
  · rcases sysMlock_ok h with ⟨hr,rfl⟩ | ⟨ha,rfl⟩
    · exact .relockRefused hpc hr
    · exact .waitcvRelock hpc ha
  · have h := muxLocked h
    split at h
    · simp at h
    split at h
    · cases h
      exact .signalEmpty hpc ‹_›
    · cases h
      exact .signalDequeue hpc ‹_›
  · obtain ⟨hl,u,hu,rfl⟩ := wakeSleeper_ok h
    exact .signalWake hpc hl hu

inductive Other (s : Kernel C) (c : C) (p : Slot) : Act C → Kernel C → Prop where
  | prioKept {pid : ℤ} {w : BitVec 32} (l : Option Slot) (v : ℤ) (user : s.pc p = .user) :
      Other s c p (.prioSet c pid w) ((ret (s.setLock l) p v).setLock s.lock)
  | prioOwn {pid : ℤ} {w : BitVec 32} (user : s.pc p = .user) :
      Other s c p (.prioSet c pid w) (ret (s.setProc p { s.proc p with priority := w }) p 1)
  | prioBelow {pid : ℤ} {w : BitVec 32} (q : Slot) (user : s.pc p = .user) (free : s.lock = none) :
      Other s c p (.prioSet c pid w)
        ((ret ((s.setLock (some p)).setProc q { s.proc q with priority := w }) p 1).setLock none)
  | mcreateFull {name junk : BitVec 32} (user : s.pc p = .user) :
      Other s c p (.mcreate c name junk) (ret s p (-1))
  | mcreate {name junk : BitVec 32} (m : MuxId) (user : s.pc p = .user) :
      Other s c p (.mcreate c name junk)
        (ret (createMux s p m (mcreateName s p name junk)) p m.val)
  | mdeleteRefused {id : ℤ} (user : s.pc p = .user) : Other s c p (.mdelete c id) (ret s p 0)
  | mdeleteShared {id : ℤ} (m : MuxId) (user : s.pc p = .user) :
      Other s c p (.mdelete c id) (s.setPc p (.mdeleteDrop m))
  | mdelete {id : ℤ} (m : MuxId) (user : s.pc p = .user)
      (access : (s.proc p).muxPtrs m = true) :
      Other s c p (.mdelete c id) (s.setPc p (.mdeleteFree m))
  | mdeleteFree (m : MuxId) (pc : s.pc p = .mdeleteFree m) :
      Other s c p (.mdeleteFree c) ((freeMux s m).setPc p (.mdeleteDrop m))
  | mdeleteDrop (m : MuxId) (pc : s.pc p = .mdeleteDrop m) :
      Other s c p (.mdeleteDrop c) (ret (s.setProc p { s.proc p with
        muxPtrs := fun i => if i = m then false else (s.proc p).muxPtrs i }) p 1)
  | testpqeq {u : Kernel C} (r : Proc) (v : ℤ) (user : s.pc p = .user) (free : s.lock = none)
      (state : r.state = (s.proc p).state) (muxPtrs : r.muxPtrs = (s.proc p).muxPtrs)
      (priority : r.priority = (s.proc p).priority)
      (put : u = (s.setLock (some p)).setProc p r ∨
        ∃ k, u = ((s.setLock (some p)).setProc p r).setRing k (push (s.ring k) (some p))) :
      Other s c p (.testpqeq c) ((ret u p v).setLock none)
  | testpqdq {u : Kernel C} (e : Option Slot) (user : s.pc p = .user)
      (taken : u = s ∨ ∃ k, u = s.setRing k (pop (s.ring k))) :
      Other s c p (.testpqdq c) (u.setPc p (.testpqdqLoop e 0))
  | testpqdqNext {u : Kernel C} {x : Option Slot} {j : ℕ} (e : Option Slot) (n : ℕ)
      (pc : s.pc p = .testpqdqLoop x j) (taken : u = s ∨ ∃ k, u = s.setRing k (pop (s.ring k))) :
      Other s c p (.testpqdqNext c) (u.setPc p (.testpqdqLoop e n))
  | testpqdqDone {x : Option Slot} {j : ℕ} (v : ℤ) (pc : s.pc p = .testpqdqLoop x j) :
      Other s c p (.testpqdqNext c) (ret s p v)

theorem resume_ok {s t : Kernel C} {c : C} {p : Slot} (h : resume s c p = .ok t) :
    s.lock = none ∧ s.cpu c = none ∧ blocked s p ∧ dispatch s c p = .ok t := by
  unfold resume at h
  split at h
  · rename_i hg
    exact ⟨hg.1,hg.2.1,hg.2.2,h⟩
  · simp at h

theorem other_step {s t : Kernel C} {a : Act C} (hk : isKernelCall a = true)
    (hp : isProcessCall a = false) (hy : isSyncCall a = false) (h : step s a = .ok t) :
    (∃ c p, a = .resume c p ∧ resume s c p = .ok t) ∨
      ∃ c p, s.cpu c = some p ∧ Other s c p a t := by
  cases a <;> simp only [isKernelCall, isSyncCall, isProcessCall, Bool.false_eq_true,
    Bool.true_eq_false] at hk hy hp
  case resume c p => exact .inl ⟨c,p,rfl,h⟩
  case prioSet c pid w =>
    obtain ⟨p,hc,hu,h⟩ := call_ok h
    refine .inr ⟨c,p,hc,?_⟩
    rcases sysPrioSet_ok h with ⟨l,v,rfl,-⟩ | ⟨-,-,rfl⟩ | ⟨q,hl,-,rfl⟩
    · exact .prioKept l v hu
    · exact .prioOwn hu
    · exact .prioBelow q hu hl
  case mcreate c name junk =>
    obtain ⟨p,hc,hu,h⟩ := call_ok h
    refine .inr ⟨c,p,hc,?_⟩
    rcases sysMcreate_ok h with ⟨rfl,-⟩ | ⟨m,-,rfl⟩
    · exact .mcreateFull hu
    · exact .mcreate m hu
  case mdelete c id =>
    obtain ⟨p,hc,hu,h⟩ := call_ok h
    refine .inr ⟨c,p,hc,?_⟩
    obtain ⟨m,-,⟨-,rfl⟩ | ⟨-,-,rfl⟩ | ⟨ha,-,rfl⟩⟩ := sysMdelete_ok h
    · exact .mdeleteRefused hu
    · exact .mdeleteShared m hu
    · exact .mdelete m hu ha
  case testpqeq c =>
    obtain ⟨p,hc,hu,h⟩ := call_ok h
    obtain ⟨hl,r,v,u,h1,h2,h3,hput,rfl⟩ := sysTestpqeq_ok h
    exact .inr ⟨c,p,hc,.testpqeq r v hu hl h1 h2 h3 (hput.imp_right And.right)⟩
  case testpqdq c =>
    obtain ⟨p,hc,hu,h⟩ := call_ok h
    obtain ⟨u,e,ht,rfl⟩ := testpqdqTake_ok h
    exact .inr ⟨c,p,hc,.testpqdq e hu ht⟩
  all_goals
    obtain ⟨p,hc,h⟩ := onCpu_ok h
    split at h
    case h_2 => simp at h
    rename_i hpc
    refine .inr ⟨_,p,hc,?_⟩
  · obtain rfl := mdeleteFree_ok h
    exact .mdeleteFree _ hpc
  · cases h
    exact .mdeleteDrop _ hpc
  · rcases testpqdqNext_ok h with ⟨v,rfl⟩ | ⟨u,e,n,ht,rfl⟩
    · exact .testpqdqDone v hpc
    · exact .testpqdqNext e n hpc ht

end Xv6.MutexEffects
