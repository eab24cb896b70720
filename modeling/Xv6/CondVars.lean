import Xv6.CondVarInvariant
import Xv6.WakeConsistency

/-!
# Condition variables lose no signal

Processes call `sys_waitcv`, `sys_signalcv` and `sys_munlock` on mutexes they
hold. Then a signal always takes a sleeping waiter, the one that joined first. A
foreign unlock lets a signaller in before the waiter is asleep.
-/

set_option autoImplicit false

namespace Xv6.CondVars
open KernelState RingBuffer NullQueue ReadyQueue ProcessCalls MutexCalls
open Machine ProcessFrames ProcessEffects MutexEffects TransitionRun
open ReadyInvariant Coherence CoherentRuns WaitLines WakeInvariant
open MutualExclusion CondVarInvariant

variable {C : Type} {s t u : Kernel C} {c : C} {p q : Slot} {m : MuxId} {a : Act C}

def byHolder (s : Kernel C) (c : C) (id : ℤ) : Bool :=
  match s.cpu c, muxIndex id with
  | some p, some m => s.holds p m
  | _, _ => true

def signalsHeld (s : Kernel C) : Act C → Bool
  | .waitcv c id | .signalcv c id => byHolder s c id
  | .kill _ _ | .exit _ | .resume _ _ => false
  | _ => true

def isSwitch : Act C → Bool
  | .yield _ | .schedule _ => true
  | _ => false

def careful (s : Kernel C) : Act C → Bool
  | .munlock c id => byHolder s c id
  | a => signalsHeld s a && (isSyncCall a || isSwitch a)

structure CvSound (s : Kernel C) : Prop where
  exclusive : Exclusive s
  coherent : Coherent s
  settled : Settled s
  lines : Lines s
  rationed : Rationed s
  entitled : Entitled s
  dozing : Dozing s
  pending : Pending s
  inOrder : InOrder s

theorem byHolder_holds {id : ℤ} (h : byHolder s c id = true) (hc : s.cpu c = some p)
    (hm : muxIndex id = some m) : s.holds p m = true := by
  simpa [byHolder, hc, hm] using h

theorem careful_holds (ha : careful s a = true) {id : ℤ}
    (hcall : a = .munlock c id ∨ a = .waitcv c id ∨ a = .signalcv c id) (hc : s.cpu c = some p)
    (hm : muxIndex id = some m) : s.holds p m = true := by
  rcases hcall with rfl | rfl | rfl
  · exact byHolder_holds ha hc hm
  · exact byHolder_holds (Bool.and_eq_true_iff.mp ha).1 hc hm
  · exact byHolder_holds (Bool.and_eq_true_iff.mp ha).1 hc hm

theorem careful_call (ha : careful s a = true) :
    isSyncCall a = true ∨ (∃ c, a = .yield c) ∨ ∃ c, a = .schedule c := by
  cases a <;> simp [careful, signalsHeld, isSyncCall, isSwitch] at ha ⊢

theorem disciplined_careful (ha : careful s a = true) : Disciplined s a := by
  refine ⟨?_,fun c id p m h hc hm => careful_holds ha (h.imp_right .inl) hc hm⟩
  rcases careful_call ha with h | ⟨c,rfl⟩ | ⟨c,rfl⟩
  · exact .inl h
  · exact .inr (.inl ⟨rfl,by simp⟩)
  · exact .inr (.inl ⟨rfl,by simp⟩)

variable [DecidableEq C]

/-- A thread that is about to release its mutex is not refused. -/
theorem check_passes (hs : CvSound s) (h : Sync s c p a t) (i : MuxId)
    (hi : s.pc p = .waitcvCheck i) : t.pc p ≠ .user := by
  have hh := hs.exclusive.releasing p i (by simp [hi, releases])
  have ha := hs.entitled.access p i (.inl hh)
  have hl := (hs.exclusive.locked i).mpr ⟨p,hh⟩
  cases h with
  | waitcvRefused pc refused =>
    obtain rfl := Pc.waitcvCheck.inj (pc.symm.trans hi)
    simp [ha, hl] at refused
  | waitcvCheck => simp
  | mlockSleep pc | waitcvSched pc | munlockWake pc | signalWake pc | mlock pc | munlock pc
  | waitcvRelock pc | signalcv pc | waitcvDequeue pc | mlockRefused pc | munlockRefused pc
  | waitcvFull pc | relockRefused pc | signalRefused pc | signalEmpty pc | munlockEmpty pc
  | mlockFull pc | mlockTake pc | munlockClear pc | waitcvClear pc | waitcvSleep pc
  | mlockEnroll pc | waitcv pc | munlockDequeue pc | signalDequeue pc => simp [pc] at hi

theorem cvSound_sync (hs : CvSound s) (ha : careful s a = true) (hc : s.cpu c = some p)
    (h : Sync s c p a t) : CvSound t where
  exclusive := exclusive_sync hs.exclusive hc (disciplined_careful ha).2 h
  coherent := coherent_sync hs.coherent hc h
  settled := (section_sync hs.settled h).settled
  lines := lines_sync hs.lines hs.settled h (check_passes hs h)
  rationed := rationed_sync hs.rationed hs.lines hs.settled (hs.coherent.awake c p hc) h
    (check_passes hs h)
  entitled := entitled_sync hs.entitled hs.exclusive hs.settled
    (fun _ _ hcall hm => careful_holds ha (.inr (.inr hcall)) hc hm) h
  dozing := dozing_sync hs.dozing hs.exclusive hs.lines hs.entitled hs.settled h
  pending := pending_sync hs.pending hs.lines hs.dozing hs.settled h
  inOrder := inOrder_sync hs.inOrder hs.lines hs.settled h

theorem cvSound_yield (hs : CvSound s) (hc : s.cpu c = some p) (h : yield s c p = .ok t)
    (he : Exclusive t) : CvSound t := by
  have hb := hs.coherent.awake c p hc
  have hk := coherent_yield hs.coherent hc h
  have hr := rationed_yield hs.rationed hs.settled hb h
  have hd := dozing_yield hs.dozing hs.settled hb h
  have hp := pending_yield hs.pending hs.settled h
  obtain ⟨-,k,rfl⟩ := yield_settled h hs.settled
  refine ⟨he,hk,hs.settled,lines_congr hs.lines rfl rfl (fun _ => rfl),hr,⟨fun q i hq => ?_,
    hs.entitled.signalling⟩,hd,hp,hs.inOrder⟩
  have ha := hs.entitled.access q i hq
  by_cases hqp : q = p
  · subst hqp
    simpa using ha
  · simpa [hqp] using ha

theorem cvSound_schedule (hs : CvSound s) (h : scheduler s c = .ok t) (he : Exclusive t) :
    CvSound t := by
  have hk := coherent_scheduler hs.coherent h
  obtain ⟨hf,-,-,⟨hft,-⟩ | ⟨-,hd⟩ | ⟨u,q,-,hd,hq⟩⟩ := scheduler_ok h
  · simp [hs.settled.1] at hft
  · obtain ⟨rfl,-⟩ := pqDequeue_none hd
    exact hs
  · obtain ⟨hr,hw⟩ := rationed_schedule hs.rationed hd hq
    obtain ⟨k,rfl,-⟩ := pqDequeue_some hd
    have hkr : Coherent (s.setRing k (pop (s.ring k))) :=
      coherent_mono hs.coherent rfl rfl rfl (fun _ => .inl rfl) (fun _ => .inl)
    have hl : Lines (s.setRing k (pop (s.ring k))) := lines_congr hs.lines rfl rfl (fun _ => rfl)
    refine ⟨he,hk,?_,lines_dispatch hl hw hq,hr,
      entitled_dispatch (s := s.setRing k _) ⟨hs.entitled.access,hs.entitled.signalling⟩ hkr hq,
      dozing_dispatch (s := s.setRing k _) ⟨hs.dozing.locked,hs.dozing.asleep,
        hs.dozing.signalled⟩ hkr
        hf hq,
      pending_dispatch (s := s.setRing k _) hs.pending hkr hq,?_⟩
    · obtain ⟨ch,j,l,rfl,-⟩ := dispatch_ok hq
      exact hs.settled
    · obtain ⟨ch,j,l,rfl,-⟩ := dispatch_ok hq
      exact hs.inOrder

theorem cvSound_step (hs : CvSound s) (ha : careful s a = true) (h : step s a = .ok t) :
    CvSound t := by
  have he := exclusive_step hs.exclusive (disciplined_careful ha) h
  rcases careful_call ha with hy | ⟨c,rfl⟩ | ⟨c,rfl⟩
  · obtain ⟨c,p,hc,hsync⟩ := sync_step hy h
    exact cvSound_sync hs ha hc hsync
  · obtain ⟨p,hc,h⟩ := onCpu_ok h
    exact cvSound_yield hs hc h he
  · exact cvSound_schedule hs h he

structure Fresh (s : Kernel C) : Prop extends WakeConsistency.Quiet s where
  free : AllFree s
  coherent : Coherent s
  calls : ∀ q, wants (s.pc q) = none ∧ signalsOn (s.pc q) = none
  history : ∀ m, s.joins m = [] ∧ s.signals m = []

omit [DecidableEq C] in
theorem cvSound_fresh (hs : Fresh s) : CvSound s := by
  have hwait : ∀ q m, cvWait m (s.pc q) ≠ true := fun q m h => by
    simpa [(hs.outside q).1] using waiting_of (.inr ⟨m,h⟩)
  have hnone : ∀ q, ¬Waits s q := fun q =>
    lines_clear (WakeConsistency.lines_quiet hs.toQuiet) (hs.outside q).1
  refine ⟨exclusive_allFree hs.free,hs.coherent,hs.consistent.settled,
    WakeConsistency.lines_quiet hs.toQuiet,⟨fun q => ?_,fun q hq => absurd hq (hnone q)⟩,
    ⟨fun q m h => ?_,fun q m h => ?_⟩,⟨fun q h => ?_,fun q m h => ?_,fun x m q h => ?_⟩,
    fun q m h => absurd h (hwait q m),fun m => ?_⟩
  · rw [hs.consistent.queued.2 q]
    split
    · rcases hs.consistent.threads.saved q (.inl ‹_›) with h | h
      · simp [need, h]
      · simp [need, resting, Option.isSome_iff_ne_none.mpr h]
    · exact Nat.zero_le _
  · simp [hs.free.holds, (hs.calls q).1] at h
  · simp [(hs.calls q).2] at h
  · have ho := (hs.outside q).1
    cases hk : s.pc q <;> simp [hk, cvLock, waiting] at h ho
  · exact absurd (by simp [h, cvWait]) (hwait q m)
  · simpa [h, waker] using (hs.outside x).2
  · simp [(hs.history m).1, (hs.history m).2, hs.empty.2 m, list_empty]

def insideWaitcv (m : MuxId) : Pc → Bool
  | .waitcvSleep i | .waitcvCheck i | .waitcvClear i | .waitcvDequeue i | .waitcvSched i
  | .waitcvAsleep i | .waitcvRelock i | .mlockTry .waitcv i | .mlockSleep .waitcv i
  | .mlockAsleep .waitcv i => decide (i = m)
  | _ => false

section
omit [DecidableEq C]

/-- A waiter that a signaller is about to take is asleep. -/
theorem taken_sleeping (hs : CvSound s) (hp : s.pc p = .signalDequeue m)
    (hq : q ∈ list (s.muxes m).cv) : (s.proc q).state = .sleeping := by
  have hr := signalled_released hs.exclusive hs.lines hs.entitled hp hq
  have hw := hs.lines.cv m q hq
  cases hk : s.pc q <;> simp only [hk, cvWait, releases, reduceCtorEq, Bool.false_eq_true] at hw hr
  case waitcvDequeue i => exact (hs.dozing.locked q (by simp [hk, cvLock])).2
  case waitcvSched i => exact (hs.dozing.locked q (by simp [hk, cvLock])).2
  case waitcvAsleep i => exact hs.dozing.asleep q i hk (.inr (.inl ⟨m,hq⟩))

theorem woken_asleep (hs : CvSound s) (hp : s.pc p = .signalWake m q) (hf : s.lock = none) :
    s.pc q = .waitcvAsleep m ∧ (s.proc q).state = .sleeping := by
  have hw := (hs.lines.signal p m q hp).1
  have hr := hs.dozing.signalled p m q hp
  have hk : cvLock (s.pc q) ≠ true := fun hk => by simpa [hf] using (hs.dozing.locked q hk).1
  have hpc : s.pc q = .waitcvAsleep m := by
    generalize s.pc q = k at hw hr hk
    cases k <;> simp [cvWait, cvLock, releases] at hw hr hk ⊢
    exact hw
  exact ⟨hpc,hs.dozing.asleep q m hpc (.inr (.inr ⟨p,by rw [hp]; rfl⟩))⟩

theorem empty_woken (hs : CvSound s) (hp : s.pc p = .signalDequeue m)
    (he : front (s.muxes m).cv = none) (hq : cvWait m (s.pc q) = true) :
    s.pc q = .waitcvAsleep m ∧ (s.proc q).state ≠ .sleeping := by
  have hl : list (s.muxes m).cv = [] := by
    rw [front_eq_head _ (hs.lines.proper.2 m).1] at he
    exact List.head?_eq_none_iff.mp he
  rcases hs.pending q m hq with h | ⟨x,h⟩ | h
  · simp [hl] at h
  · obtain rfl := hs.exclusive.unique x p m (hs.entitled.signalling x m (by simp [h, signalsOn]))
      (hs.entitled.signalling p m (by simp [hp, signalsOn]))
    simp [hp] at h
  · exact h

end

theorem returns_holding (hs : CvSound s) (ha : careful s a = true) (h : step s a = .ok t)
    (hp : insideWaitcv m (s.pc p) = true) (hu : t.pc p = .user) (hv : (t.proc p).eax = 1) :
    t.holds p m = true := by
  rcases careful_call ha with hy | ⟨c,rfl⟩ | ⟨c,rfl⟩
  · obtain ⟨c,x,hc,hsync⟩ := sync_step hy h
    have hx := section_sync hs.settled hsync
    obtain rfl : p = x := by
      by_contra hne
      rw [hx.pc p hne] at hu
      simp [hu, insideWaitcv] at hp
    cases hsync with
    | @mlockTake via i pc =>
      obtain ⟨rfl,rfl⟩ : via = .waitcv ∧ i = m := by
        cases via <;> simp [pc, insideWaitcv] at hp ⊢
        exact hp
      simp [ret, take]
    | mlockSleep pc _ left =>
      obtain ⟨-,rfl⟩ := sched_settled left hs.settled
      simp at hu
    | waitcvSched pc left =>
      obtain ⟨-,rfl⟩ := sched_settled left hs.settled
      simp at hu
    | mlockFull pc | waitcvRefused pc | relockRefused pc => simp [ret] at hv
    | mlock pc | munlock pc | signalcv pc | mlockRefused pc | munlockRefused pc
    | waitcvFull pc | signalRefused pc | signalEmpty pc | munlockEmpty pc | munlockClear pc
    | waitcv pc | munlockDequeue pc | signalDequeue pc | munlockWake pc | signalWake pc =>
      simp [pc, insideWaitcv] at hp
    | waitcvCheck | waitcvRelock | waitcvDequeue | waitcvClear | waitcvSleep | mlockEnroll =>
      simp at hu
  · obtain ⟨x,hc,h⟩ := onCpu_ok h
    obtain ⟨-,k,rfl⟩ := yield_settled h hs.settled
    have hu : s.pc p = .user := hu
    simp [hu, insideWaitcv] at hp
  · obtain ⟨-,-,-,⟨hft,-⟩ | ⟨-,hd⟩ | ⟨u,x,-,hd,hq⟩⟩ := scheduler_ok h
    · simp [hs.settled.1] at hft
    · obtain ⟨rfl,-⟩ := pqDequeue_none hd
      simp [hu, insideWaitcv] at hp
    · obtain ⟨k,rfl,-⟩ := pqDequeue_some hd
      obtain ⟨ch,j,l,rfl,hj⟩ := dispatch_ok hq
      by_cases hx : p = x
      · subst hx
        obtain rfl : j = .user := by simpa [switchTo] using hu
        rcases hj with ⟨-,hj,-⟩ | ⟨-,hj,-⟩
        · have hj : Pc.user = s.pc p := hj
          simp [← hj, insideWaitcv] at hp
        · have hj : resumePc (s.pc p) = some .user := hj
          generalize s.pc p = k₀ at hp hj
          cases k₀ <;> simp [resumePc, insideWaitcv] at hj hp
      · have hu : s.pc p = .user := by simpa [switchTo, hx] using hu
        simp [hu, insideWaitcv] at hp

/-- No signal is lost. A signal takes the longest-waiting process, which is
asleep in `sys_waitcv`; its wakeup makes that process runnable, changes no
other state and returns 1; a holder's signal returns 0 only when everybody
who waits has been woken already; and `sys_waitcv` returns 1 to the holder
only. -/
theorem no_lost_signal {s₀ : Kernel C} (h₀ : Fresh s₀)
    (h : Reaches step (fun s a => careful s a = true) s₀ s) (m : MuxId) :
    (∀ c p q t, s.cpu c = some p → s.pc p = .signalDequeue m → front (s.muxes m).cv = some q →
      step s (.signalDequeue c) = .ok t →
      (s.proc q).state = .sleeping ∧ cvWait m (s.pc q) = true ∧ t.pc p = .signalWake m q ∧
        ∃ l, s.joins m = s.signals m ++ q::l ∧ t.signals m = s.signals m ++ [q]) ∧
    (∀ c p q t, s.cpu c = some p → s.pc p = .signalWake m q → step s (.signalWake c) = .ok t →
      s.pc q = .waitcvAsleep m ∧ (s.proc q).state = .sleeping ∧ (t.proc q).state = .runnable ∧
        (t.proc p).eax = 1 ∧ t.pc p = .user ∧ ∀ x, x ≠ q → (t.proc x).state = (s.proc x).state) ∧
    (∀ c id p t, s.cpu c = some p → muxIndex id = some m → s.holds p m = true →
      step s (.signalcv c id) = .ok t → t.pc p = .signalDequeue m) ∧
    (∀ c p t, s.cpu c = some p → s.pc p = .signalDequeue m → step s (.signalDequeue c) = .ok t →
      t.pc p = .user → (t.proc p).eax = 0 ∧
        ∀ q, cvWait m (s.pc q) = true → s.pc q = .waitcvAsleep m ∧ (s.proc q).state ≠ .sleeping) ∧
    ∀ a p t, careful s a = true → step s a = .ok t → insideWaitcv m (s.pc p) = true →
      t.pc p = .user → (t.proc p).eax = 1 → ∀ q, t.holds q m = true ↔ q = p := by
  have hs := reaches_invariant CvSound (fun _ _ _ hv ha hw => cvSound_step hv ha hw)
    (cvSound_fresh h₀) h
  refine ⟨fun c p q t hc hp hf ht => ?_,fun c p q t hc hp ht => ?_,fun c id p t hc hm hh ht => ?_,
    fun c p t hc hp ht hu => ?_,fun a p t ha ht hp hu hv => ?_⟩
  · obtain ⟨_,x,hx,hsync⟩ := sync_step rfl ht
    cases hsync with
    | signalEmpty pc empty =>
      obtain rfl := Option.some.inj (hx.symm.trans hc)
      obtain rfl := Pc.signalDequeue.inj (pc.symm.trans hp)
      simp [hf] at empty
    | @signalDequeue i _ pc head =>
      obtain rfl := Option.some.inj (hx.symm.trans hc)
      obtain rfl := Pc.signalDequeue.inj (pc.symm.trans hp)
      obtain rfl := Option.some.inj (head.symm.trans hf)
      have hq := front_mem _ _ head
      refine ⟨taken_sleeping hs pc hq,hs.lines.cv _ _ hq,by simp,
        list (shift (s.muxes i).cv),?_,by simp [leaveCv]⟩
      rw [← (proper_shift _ _ (hs.lines.proper.2 _) head).2.2]
      exact hs.inOrder _
  · obtain ⟨_,x,hx,hsync⟩ := sync_step rfl ht
    cases hsync with
    | @signalWake i w _ pc free woken =>
      obtain rfl := Option.some.inj (hx.symm.trans hc)
      obtain ⟨rfl,rfl⟩ := Pc.signalWake.inj (pc.symm.trans hp)
      obtain ⟨hq,hz⟩ := woken_asleep hs pc free
      have hqx : w ≠ x := by
        rintro rfl
        simp [pc] at hq
      obtain ⟨k,-,-,rfl⟩ := makeRunnable_ok woken
      refine ⟨hq,hz,by simp [ret, hqx],by simp [ret],by simp [ret],fun y hy => ?_⟩
      by_cases hyx : y = x
      · subst hyx
        simp [ret, hy]
      · simp [ret, hy, hyx]
  · have ha := hs.entitled.access p m (.inl hh)
    have hl := (hs.exclusive.locked m).mpr ⟨p,hh⟩
    obtain ⟨_,x,hx,hsync⟩ := sync_step rfl ht
    cases hsync with
    | signalcv _ index =>
      obtain rfl := Option.some.inj (hx.symm.trans hc)
      obtain rfl := Option.some.inj (index.symm.trans hm)
      simp
    | signalRefused _ index refused =>
      obtain rfl := Option.some.inj (hx.symm.trans hc)
      obtain rfl := Option.some.inj (index.symm.trans hm)
      simp [ha, hl] at refused
  · obtain ⟨_,x,hx,hsync⟩ := sync_step rfl ht
    cases hsync with
    | signalEmpty pc empty =>
      obtain rfl := Option.some.inj (hx.symm.trans hc)
      obtain rfl := Pc.signalDequeue.inj (pc.symm.trans hp)
      exact ⟨by simp [ret],fun q hq => empty_woken hs pc empty hq⟩
    | signalDequeue pc head =>
      obtain rfl := Option.some.inj (hx.symm.trans hc)
      simp at hu
  · have ht' := cvSound_step hs ha ht
    have hh := returns_holding hs ha ht hp hu hv
    intro q
    exact ⟨fun hq => ht'.exclusive.unique q p m hq hh,fun hq => hq ▸ hh⟩

theorem fresh_crew : Fresh crew := by
  have hpc : ∀ q, crew.pc q = .user ∨ crew.pc q = .absent := by
    intro q
    by_cases h : q.val < 3 <;> simp [crew, h]
  have hon : ∀ c p, crew.cpu c = some p → p.val = c.val := by
    intro c p hc
    simp only [crew, Option.some.injEq] at hc
    simp [← hc]
  refine ⟨WakeConsistency.quiet_crew,⟨fun m => by simp [crew, boot],fun _ _ => rfl,fun _ _ => rfl,
    fun p => ?_⟩,?_,fun q => ?_,fun _ => ⟨rfl,rfl⟩⟩
  · rcases hpc p with h | h <;> simp [h, releases]
  · have hup : ∀ q, ¬blocked crew q := by
      intro q
      have hpre : crew.preempted q = false := rfl
      rcases hpc q with h | h <;> simp [blocked, h, hpre, resumePc]
    have hfork : ∀ p np, ¬Forking crew p np := by
      intro p np
      rcases hpc p with h | h <;> simp [Forking, h]
    refine ⟨fun c d p hc hd => Fin.ext ((hon c p hc).symm.trans (hon d p hd)),fun c p _ => hup p,
      fun q h => by simp [crew, boot] at h,fun c p hc => ?_,fun q _ => hup q,
      fun p np h => absurd h (hfork p np),fun p q np h => absurd h (hfork p np),fun q _ => ?_⟩
    · have hp : p.val < 3 := (hon c p hc).trans_lt c.isLt
      simp [crew, hp, Dead]
    · exact lines_clear (WakeConsistency.lines_quiet WakeConsistency.quiet_crew)
        (WakeConsistency.quiet_crew.outside q).1
  · rcases hpc q with h | h <;> simp [h, wants, signalsOn]

theorem no_lost_signal_while_waiting : ∃ s : Kernel (Fin 3), Fresh crew ∧
    Reaches step (fun s a => careful s a = true) crew s ∧
    (s.pc 0 = .signalDequeue 0 ∧ s.cpu 0 = some 0 ∧ front (s.muxes 0).cv = some 1) ∧
    (∀ c p q t, s.cpu c = some p → s.pc p = .signalDequeue 0 → front (s.muxes 0).cv = some q →
      step s (.signalDequeue c) = .ok t →
      (s.proc q).state = .sleeping ∧ cvWait 0 (s.pc q) = true ∧ t.pc p = .signalWake 0 q ∧
        ∃ l, s.joins 0 = s.signals 0 ++ q::l ∧ t.signals 0 = s.signals 0 ++ [q]) := by
  obtain ⟨s,hr,hs⟩ := play_witness step (fun s a => careful s a = true) careful (fun _ _ => id) crew
    [.mlock 1 0, .mlockTry 1, .waitcv 1 0, .waitcvSleep 1, .waitcvCheck 1, .waitcvClear 1,
     .waitcvDequeue 1, .waitcvSched 1, .mlock 0 0, .mlockTry 0, .signalcv 0 0]
    (fun s => decide (s.pc 0 = .signalDequeue 0 ∧ s.cpu 0 = some 0 ∧ front (s.muxes 0).cv = some 1))
    (by decide +kernel)
  exact ⟨s,fresh_crew,hr,of_decide_eq_true hs,(no_lost_signal fresh_crew hr 0).1⟩

/-- The child joins the condition queue of the mutex it holds; the parent
unlocks that mutex, locks it and signals. The waiter it takes is running. -/
theorem signal_takes_running : ∃ s t : Kernel (Fin 2),
    Reaches step (fun s a => signalsHeld s a = true) (boot 0) s ∧
    (s.cpu 0 = some 0 ∧ s.pc 0 = .signalDequeue 0 ∧ s.holds 0 0 = true) ∧
    step s (.signalDequeue 0) = .ok t ∧
    (t.pc 0 = .signalWake 0 1 ∧ (s.proc 1).state = .running ∧ (t.proc 1).state = .running) := by
  obtain ⟨s,hr,hs⟩ := play_witness step (fun s a => signalsHeld s a = true) signalsHeld
    (fun _ _ => id) (boot (0 : Fin 2))
    (List.flatten [startup, [.mcreate 0 100 0], forkOn 0,
      [.schedule 1, .mlock 1 0, .mlockTry 1, .waitcv 1 0, .munlock 0 0, .munlockClear 0,
       .munlockDequeue 0, .mlock 0 0, .mlockTry 0, .signalcv 0 0]])
    (fun s => decide (s.cpu 0 = some 0 ∧ s.pc 0 = .signalDequeue 0 ∧ s.holds 0 0 = true) &&
      (step s (.signalDequeue 0)).toOption.any (fun t : Kernel (Fin 2) =>
        decide (t.pc 0 = .signalWake 0 1 ∧ (s.proc 1).state = .running ∧
          (t.proc 1).state = .running))) (by decide +kernel)
  simp only [Bool.and_eq_true] at hs
  obtain ⟨t,ht,h⟩ := ok_of_any hs.2
  exact ⟨s,t,hr,of_decide_eq_true hs.1,ht,of_decide_eq_true h⟩

end Xv6.CondVars
