import Xv6.WakeInvariant
import Xv6.CoherentRuns
import Xv6.MutualExclusion

/-!
# Waiters of a condition variable

A waiter joins the condition queue while it holds the mutex, so a signaller, who
holds it too, cannot take the waiter before it is asleep and the mutex released.
From then on only the wakeup of that signal changes its state.
-/

set_option autoImplicit false

namespace Xv6.CondVarInvariant
open KernelState RingBuffer NullQueue ReadyQueue ProcessCalls MutexCalls
open Machine ProcessFrames ProcessEffects MutexEffects
open ReadyInvariant Coherence WaitLines
open MutualExclusion

variable {C : Type} [DecidableEq C] {s t u : Kernel C} {c : C} {p q : Slot} {m : MuxId} {k : Pc}
  {a : Act C}

def wants : Pc → Option MuxId
  | .mlockTry _ m | .mlockSleep _ m | .mlockAsleep _ m => some m
  | _ => none

def signalsOn : Pc → Option MuxId
  | .signalDequeue m | .signalWake m _ => some m
  | _ => none

structure Entitled (s : Kernel C) : Prop where
  access : ∀ q m, s.holds q m = true ∨ wants (s.pc q) = some m → (s.proc q).muxPtrs m = true
  signalling : ∀ q m, signalsOn (s.pc q) = some m → s.holds q m = true

structure Dozing (s : Kernel C) : Prop where
  locked : ∀ q, cvLock (s.pc q) = true → s.lock = some q ∧ (s.proc q).state = .sleeping
  asleep : ∀ q m, s.pc q = .waitcvAsleep m → Waits s q → (s.proc q).state = .sleeping
  signalled : ∀ x m q, s.pc x = .signalWake m q → releases (s.pc q) = none

def Pending (s : Kernel C) : Prop := ∀ q m, cvWait m (s.pc q) = true →
  q ∈ list (s.muxes m).cv ∨ (∃ x, s.pc x = .signalWake m q) ∨
    s.pc q = .waitcvAsleep m ∧ (s.proc q).state ≠ .sleeping

def InOrder (s : Kernel C) : Prop := ∀ m, s.joins m = s.signals m ++ list (s.muxes m).cv

omit [DecidableEq C] in
theorem entitled_move (hs : Entitled s) (hx : Section s t p)
    (hk : ∀ i, wants (t.pc p) = some i → (s.proc p).muxPtrs i = true)
    (hsig : ∀ i, signalsOn (t.pc p) = some i → t.holds p i = true)
    (hh : ∀ q i, t.holds q i = true → s.holds q i = true ∨ q = p ∧ wants (s.pc p) = some i)
    (hkeep : ∀ q i, q ≠ p → s.holds q i = true → t.holds q i = true) : Entitled t := by
  refine ⟨fun q i h => ?_,fun q i h => ?_⟩
  · rw [hx.muxPtrs q]
    rcases h with h | h
    · rcases hh q i h with h | ⟨rfl,h⟩
      · exact hs.access q i (.inl h)
      · exact hs.access q i (.inr h)
    · by_cases hq : q = p
      · subst hq
        exact hk i h
      · exact hs.access q i (.inr (hx.pc q hq ▸ h))
  · by_cases hq : q = p
    · subst hq
      exact hsig i h
    · rw [hx.pc q hq] at h
      exact hkeep q i hq (hs.signalling q i h)

theorem entitled_sync (hs : Entitled s) (he : Exclusive s) (hset : Settled s)
    (hd : ∀ id i, a = .signalcv c id → muxIndex id = some i → s.holds p i = true)
    (h : Sync s c p a t) : Entitled t := by
  have hx := section_sync hset h
  have hrest : t.holds = s.holds → wants (t.pc p) = none → signalsOn (t.pc p) = none →
      Entitled t := fun h1 h2 h3 =>
    entitled_move hs hx (by simp [h2]) (by simp [h3]) (fun q i hq => .inl (h1 ▸ hq))
      (fun q i _ hq => h1 ▸ hq)
  have hask : ∀ i, t.holds = s.holds → wants (t.pc p) = some i → (s.proc p).muxPtrs i = true →
      signalsOn (t.pc p) = none → Entitled t := fun i h1 h2 h3 h4 =>
    entitled_move hs hx (fun j hj => Option.some.inj (h2.symm.trans hj) ▸ h3) (by simp [h4])
      (fun q i hq => .inl (h1 ▸ hq)) (fun q i _ hq => h1 ▸ hq)
  have hclear : ∀ i, releases (s.pc p) = some i → t.holds = (MutexCalls.clear s p i).holds →
      wants (t.pc p) = none → signalsOn (t.pc p) = none → Entitled t := by
    intro i hi h1 h2 h3
    refine entitled_move hs hx (by simp [h2]) (by simp [h3]) (fun q j hq => ?_)
      (fun q j hq hj => ?_)
    · by_cases hj : j = i
      · simp [h1, MutexCalls.clear, hj] at hq
      · exact .inl (by simpa [h1, MutexCalls.clear, hj] using hq)
    · have hji : j ≠ i := by
        rintro rfl
        exact hq (he.unique q p j hj (he.releasing p j hi))
      simpa [h1, MutexCalls.clear, hji] using hj
  cases h with
  | mlock pc _ access | waitcvRelock pc access =>
    exact hask _ rfl (by simp [wants]) access (by simp [signalsOn])
  | @mlockEnroll via m w pc =>
    exact hask m rfl (by simp [wants]) (hs.access p m (.inr (by simp [pc, wants])))
      (by simp [signalsOn])
  | @mlockSleep via m _ pc _ left =>
    obtain ⟨-,rfl⟩ := sched_settled left hset
    exact hask m rfl (by simp [wants]) (hs.access p m (.inr (by simp [pc, wants])))
      (by simp [signalsOn])
  | waitcvSched _ left =>
    obtain ⟨-,rfl⟩ := sched_settled left hset
    exact hrest rfl (by simp [wants]) (by simp [signalsOn])
  | munlockWake _ _ woken | signalWake _ _ woken =>
    obtain ⟨k,-,-,rfl⟩ := makeRunnable_ok woken
    exact hrest rfl (by simp [ret, wants]) (by simp [ret, signalsOn])
  | munlockClear pc | waitcvClear pc =>
    exact hclear _ (by rw [pc]; rfl) rfl (by simp [wants]) (by simp [signalsOn])
  | @mlockTake via m pc =>
    refine entitled_move hs hx (by simp [ret, wants]) (by simp [ret, signalsOn]) (fun q i hq => ?_)
      (fun q i _ hq => by simp [ret, take, hq])
    by_cases h : q = p ∧ i = m
    · obtain ⟨rfl,rfl⟩ := h
      exact .inr ⟨rfl,by simp [pc, wants]⟩
    · exact .inl (by simpa [ret, take, h] using hq)
  | signalcv _ index =>
    refine entitled_move hs hx (by simp [wants]) (fun i hi => ?_) (fun q i hq => .inl hq)
      (fun q i _ hq => hq)
    obtain rfl := Option.some.inj (show some _ = some i by simpa [signalsOn] using hi)
    exact hd _ _ rfl index
  | @signalDequeue m q pc =>
    refine entitled_move hs hx (by simp [wants]) (fun i hi => ?_) (fun q i hq => .inl hq)
      (fun q i _ hq => hq)
    obtain rfl := Option.some.inj (show some m = some i by simpa [signalsOn] using hi)
    exact hs.signalling p m (by simp [pc, signalsOn])
  | mlockRefused | munlockRefused | waitcvFull | relockRefused | signalRefused | signalEmpty
  | munlockEmpty | mlockFull | waitcvRefused =>
    exact hrest rfl (by simp [ret, wants]) (by simp [ret, signalsOn])
  | munlock | waitcvCheck | waitcvDequeue | waitcvSleep | munlockDequeue | waitcv =>
    exact hrest rfl (by simp [wants]) (by simp [signalsOn])

theorem cvWait_releases {i : MuxId} (h : cvWait m k = true) (hr : releases k = some i) : i = m := by
  cases k <;> simp only [cvWait, releases, Option.some.injEq, decide_eq_true_eq, Bool.false_eq_true,
    reduceCtorEq] at h hr <;> exact hr.symm.trans h

section
omit [DecidableEq C]

/-- A section moves `p`; whoever else runs with `ptable.lock` keeps it, and
nobody who is asleep in a queue is woken. -/
theorem dozing_move (hs : Dozing s) (hx : Section s t p)
    (hlock : cvLock (t.pc p) = true → t.lock = some p ∧ (t.proc p).state = .sleeping)
    (hasleep : ∀ i, t.pc p = .waitcvAsleep i → (t.proc p).state = .sleeping)
    (hkeep : t.lock = s.lock ∨ ∀ q, q ≠ p → cvLock (s.pc q) = false)
    (hst : ∀ q, q ≠ p → (t.proc q).state = (s.proc q).state ∨ cvLock (s.pc q) = false ∧ ¬Waits t q)
    (hrel : releases (t.pc p) = none ∨ ∀ x i, s.pc x ≠ .signalWake i p)
    (hsig : ∀ i q, t.pc p = .signalWake i q → releases (t.pc q) = none) : Dozing t := by
  refine ⟨fun q hq => ?_,fun q i hq hw => ?_,fun x i q h => ?_⟩
  · by_cases hqp : q = p
    · subst hqp
      exact hlock hq
    · rw [hx.pc q hqp] at hq
      obtain ⟨h1,h2⟩ := hs.locked q hq
      have hl : t.lock = s.lock := hkeep.resolve_right (fun h => by simp [h q hqp] at hq)
      have hz := (hst q hqp).resolve_right (fun h => by simp [h.1] at hq)
      exact ⟨hl.trans h1,hz.trans h2⟩
  · by_cases hqp : q = p
    · subst hqp
      exact hasleep i hq
    · rw [hx.pc q hqp] at hq
      have hz := (hst q hqp).resolve_right (fun h => h.2 hw)
      exact hz.trans (hs.asleep q i hq ((hx.waits q hw).resolve_right (fun h => hqp h.1)))
  · by_cases hxp : x = p
    · subst hxp
      exact hsig i q h
    · rw [hx.pc x hxp] at h
      by_cases hqp : q = p
      · subst hqp
        exact hrel.resolve_right (fun hn => hn x i h)
      · rw [hx.pc q hqp]
        exact hs.signalled x i q h

theorem signalled_released (he : Exclusive s) (hl : Lines s) (ht : Entitled s)
    (hp : s.pc p = .signalDequeue m) (hq : q ∈ list (s.muxes m).cv) : releases (s.pc q) = none := by
  cases hr : releases (s.pc q) with
  | none => rfl
  | some i =>
    obtain rfl := cvWait_releases (hl.cv m q hq) hr
    obtain rfl := he.unique q p i (he.releasing q i hr)
      (ht.signalling p i (by simp [hp, signalsOn]))
    simp [hp, releases] at hr

end

theorem dozing_sync (hs : Dozing s) (he : Exclusive s) (hl : Lines s) (ht : Entitled s)
    (hset : Settled s) (h : Sync s c p a t) : Dozing t := by
  have hx := section_sync hset h
  have huser : waiting (s.pc p) = false → ∀ x i, s.pc x ≠ .signalWake i p := by
    intro hw x i hi
    simp [waiting_of (.inr ⟨i,(hl.signal x i p hi).1⟩)] at hw
  have hnext : releases (s.pc p) ≠ none → ∀ x i, s.pc x ≠ .signalWake i p :=
    fun h x i hi => h (hs.signalled x i p hi)
  have hfree : s.lock = none → ∀ q, cvLock (s.pc q) = false := by
    intro hn q
    by_contra hq
    simpa [hn] using (hs.locked q (by simpa using hq)).1
  have hplain : t.lock = s.lock → (∀ q, (t.proc q).state = (s.proc q).state) →
      (cvLock (t.pc p) = true → cvLock (s.pc p) = true) → (∀ i, t.pc p ≠ .waitcvAsleep i) →
      (releases (t.pc p) = none ∨ ∀ x i, s.pc x ≠ .signalWake i p) →
      (∀ i q, t.pc p ≠ .signalWake i q) → Dozing t := by
    intro h1 h2 h3 h4 h5 h6
    refine dozing_move hs hx (fun hk => ?_) (fun i hi => absurd hi (h4 i)) (.inl h1)
      (fun q _ => .inl (h2 q)) h5 (fun i q hi => absurd hi (h6 i q))
    obtain ⟨h7,h8⟩ := hs.locked p (h3 hk)
    exact ⟨h1.trans h7,(h2 p).trans h8⟩
  cases h with
  | mlock | waitcvRelock | signalcv | mlockEnroll | munlockDequeue | munlockClear =>
    exact hplain rfl (fun _ => rfl) (by simp [cvLock]) (by simp) (.inl (by simp [releases]))
      (by simp)
  | munlock pc | waitcv pc =>
    exact hplain rfl (fun _ => rfl) (by simp [cvLock]) (by simp)
      (.inr (huser (by simp [pc, waiting])))
      (by simp)
  | waitcvCheck pc =>
    exact hplain rfl (fun _ => rfl) (by simp [pc, cvLock]) (by simp)
      (.inr (hnext (by simp [pc, releases]))) (by simp)
  | waitcvClear pc | waitcvDequeue pc =>
    exact hplain rfl (fun _ => rfl) (by simp [pc, cvLock]) (by simp) (.inl (by simp [releases]))
      (by simp)
  | mlockRefused | munlockRefused | waitcvFull | relockRefused | signalRefused | signalEmpty
  | munlockEmpty | mlockFull | waitcvRefused | mlockTake =>
    exact hplain rfl (fun q => (ret_state rfl q).1) (by simp [ret, cvLock]) (by simp [ret])
      (.inl (by simp [ret, releases])) (by simp [ret])
  | mlockSleep _ free left =>
    obtain ⟨-,rfl⟩ := sched_settled left hset
    exact dozing_move hs hx (by simp [cvLock]) (by simp) (.inr (fun q _ => hfree free q))
      (fun q hq => .inl (by simp [hq])) (.inl (by simp [releases])) (by simp)
  | waitcvSleep pc free =>
    exact dozing_move hs hx (by simp) (by simp) (.inr (fun q _ => hfree free q))
      (fun q hq => .inl (by simp [hq])) (.inr (hnext (by simp [pc, releases]))) (by simp)
  | waitcvSched pc left =>
    obtain ⟨hl',rfl⟩ := sched_settled left hset
    have hself := (hs.locked p (by simp [pc, cvLock])).2
    refine dozing_move hs hx (by simp [cvLock]) (fun _ _ => hself) (.inr (fun q hq => ?_))
      (fun _ _ => .inl rfl) (.inl (by simp [releases])) (by simp)
    by_contra hk
    have hq' := (hs.locked q (by simpa using hk)).1.symm.trans hl'
    exact hq (Option.some.inj hq')
  | @munlockWake _ w _ pc free woken | @signalWake _ w _ pc free woken =>
    have hn := woken_clear hl (by rw [pc]; rfl) woken
    obtain ⟨k,-,-,rfl⟩ := makeRunnable_ok woken
    refine dozing_move hs hx (by simp [ret, cvLock]) (by simp [ret])
      (.inr (fun q _ => hfree free q))
      (fun q hq => ?_) (.inl (by simp [ret, releases])) (by simp [ret])
    by_cases hw : q = w
    · exact .inr ⟨hfree free q,hw ▸ hn⟩
    · exact .inl (by simp [ret, hq, hw])
  | @signalDequeue m q pc head =>
    have hr := signalled_released he hl ht pc (front_mem _ _ head)
    refine dozing_move hs hx (by simp [cvLock]) (by simp) (.inl rfl) (fun _ _ => .inl rfl)
      (.inl (by simp [releases])) (fun i x h => ?_)
    obtain ⟨-,rfl⟩ := Pc.signalWake.inj (show Pc.signalWake m q = .signalWake i x by simpa using h)
    by_cases hqp : q = p
    · simp [hqp, releases]
    · rw [hx.pc q hqp]
      exact hr

theorem dozing_yield (hs : Dozing s) (hset : Settled s) (hp : ¬blocked s p)
    (h : yield s c p = .ok t) : Dozing t := by
  obtain ⟨hf,k,rfl⟩ := yield_settled h hset
  simp only [blocked, not_or, not_not] at hp
  refine ⟨fun q hq => ?_,fun q i hq hw => ?_,hs.signalled⟩
  · exact absurd (hf.symm.trans (hs.locked q hq).1) (by simp)
  · have hqp : q ≠ p := by
      rintro rfl
      simp [show s.pc q = _ from hq, resumePc] at hp
    simpa [hqp] using hs.asleep q i hq hw

theorem resumed_plain {j : Pc} (h : resumePc k = some j) :
    cvLock j = false ∧ (∀ i, cvWait i j = false) ∧ releases j = none ∧
      (∀ i q, j ≠ .signalWake i q) ∧ signalsOn j = none := by
  cases k <;> simp only [resumePc, Option.some.injEq, reduceCtorEq] at h <;> subst h <;>
    simp [cvLock, cvWait, releases, signalsOn]

theorem resumed_wants {j : Pc} (h : resumePc k = some j) (hj : wants j = some m) :
    wants k = some m := by
  cases k <;> simp only [resumePc, Option.some.injEq, reduceCtorEq] at h <;> subst h <;>
    simp_all [wants]

theorem switched_pc (hk : Coherent s) (h : dispatch s c p = .ok t) :
    (t.pc p = s.pc p ∧ resumePc (s.pc p) = none) ∨ resumePc (s.pc p) = some (t.pc p) := by
  obtain ⟨ch,k,l,rfl,⟨hb,rfl,-⟩ | ⟨-,hr,-⟩⟩ := dispatch_ok h
  · exact .inl ⟨by simp [switchTo],hk.ticked p hb⟩
  · exact .inr (by simpa [switchTo] using hr)

theorem entitled_dispatch (hs : Entitled s) (hk : Coherent s) (h : dispatch s c p = .ok t) :
    Entitled t := by
  have hpc := switched_pc hk h
  obtain ⟨ch,k,l,rfl,-⟩ := dispatch_ok h
  refine ⟨fun q i hq => ?_,fun q i hq => ?_⟩
  · have hptr : ((switchTo s c p ch k l).proc q).muxPtrs = (s.proc q).muxPtrs := by
      by_cases hqp : q = p <;> simp [switchTo, hqp]
    rw [hptr]
    refine hs.access q i (hq.imp_right (fun hw => ?_))
    by_cases hqp : q = p
    · subst hqp
      rcases hpc with ⟨hp,-⟩ | hp
      · rwa [hp] at hw
      · exact resumed_wants hp hw
    · simpa [switchTo, hqp] using hw
  · by_cases hqp : q = p
    · subst hqp
      rcases hpc with ⟨hp,-⟩ | hp
      · exact hs.signalling q i (hp ▸ hq)
      · simp [(resumed_plain hp).2.2.2.2] at hq
    · exact hs.signalling q i (by simpa [switchTo, hqp] using hq)

theorem dozing_dispatch (hs : Dozing s) (hk : Coherent s) (hf : s.lock = none)
    (h : dispatch s c p = .ok t) : Dozing t := by
  have hfree : ∀ q, cvLock (s.pc q) = false := by
    intro q
    by_contra hq
    simpa [hf] using (hs.locked q (by simpa using hq)).1
  have hpc := switched_pc hk h
  obtain ⟨ch,k,l,rfl,-⟩ := dispatch_ok h
  have hother : ∀ q, q ≠ p → (switchTo s c p ch k l).pc q = s.pc q := fun q hq => by
    simp [switchTo, hq]
  have hsig : ∀ x i q, (switchTo s c p ch k l).pc x = .signalWake i q →
    s.pc x = .signalWake i q := by
    intro x i q hx
    by_cases hxp : x = p
    · subst hxp
      rcases hpc with ⟨hp,-⟩ | hp
      · exact hp ▸ hx
      · exact absurd hx ((resumed_plain hp).2.2.2.1 i q)
    · exact hother x hxp ▸ hx
  refine ⟨fun q hq => ?_,fun q i hq hw => ?_,fun x i q hx => ?_⟩
  · by_cases hqp : q = p
    · subst hqp
      rcases hpc with ⟨hp,-⟩ | hp
      · simp [hp, hfree q] at hq
      · simp [(resumed_plain hp).1] at hq
    · rw [hother q hqp, hfree q] at hq
      simp at hq
  · by_cases hqp : q = p
    · subst hqp
      rcases hpc with ⟨hp,hn⟩ | hp
      · simp [← hp, hq, resumePc] at hn
      · have hc := (resumed_plain hp).2.1 i
        simp [hq, cvWait] at hc
    · rw [hother q hqp] at hq
      have hz := hs.asleep q i hq ?_
      · simpa [switchTo, hqp] using hz
      · rcases hw with hw | hw | ⟨x,hx⟩
        · exact .inl hw
        · exact .inr (.inl hw)
        · refine .inr (.inr ⟨x,?_⟩)
          by_cases hxp : x = p
          · subst hxp
            rcases hpc with ⟨hp,-⟩ | hp
            · exact hp ▸ hx
            · rcases waker_some hx with ⟨j,hj⟩ | ⟨j,hj⟩
              · generalize s.pc x = k₀ at hp
                rw [hj] at hp
                cases k₀ <;> simp [resumePc] at hp
              · exact absurd hj ((resumed_plain hp).2.2.2.1 j q)
          · exact hother x hxp ▸ hx
  · have hr := hs.signalled x i q (hsig x i q hx)
    by_cases hqp : q = p
    · subst hqp
      rcases hpc with ⟨hp,-⟩ | hp
      · exact hp ▸ hr
      · exact (resumed_plain hp).2.2.1
    · rw [hother q hqp]
      exact hr

omit [DecidableEq C] in
theorem pending_move (hs : Pending s) (hx : Section s t p)
    (hcv : ∀ i, cvWait i (t.pc p) = true →
      p ∈ list (t.muxes i).cv ∨ cvWait i (s.pc p) = true ∧ s.pc p ≠ .waitcvAsleep i)
    (hst : ∀ q, q ≠ p → (s.proc q).state ≠ .sleeping → (t.proc q).state ≠ .sleeping)
    (hmem : ∀ q i, q ∈ list (s.muxes i).cv → q ∈ list (t.muxes i).cv ∨ t.pc p = .signalWake i q)
    (hfl : ∀ q i, s.pc p = .signalWake i q →
      t.pc q = .waitcvAsleep i ∧ (t.proc q).state ≠ .sleeping) : Pending t := by
  have hold : ∀ q i, cvWait i (s.pc q) = true → (q = p → s.pc q ≠ .waitcvAsleep i) →
      q ∈ list (t.muxes i).cv ∨ (∃ x, t.pc x = .signalWake i q) ∨
        t.pc q = .waitcvAsleep i ∧ (t.proc q).state ≠ .sleeping := by
    intro q i hq hp
    rcases hs q i hq with h | ⟨x,h⟩ | ⟨h,hz⟩
    · exact (hmem q i h).imp_right (fun h => .inl ⟨p,h⟩)
    · by_cases hxp : x = p
      · exact .inr (.inr (hfl q i (hxp ▸ h)))
      · exact .inr (.inl ⟨x,(hx.pc x hxp).trans h⟩)
    · have hqp : q ≠ p := fun h' => hp h' h
      exact .inr (.inr ⟨(hx.pc q hqp).trans h,hst q hqp hz⟩)
  intro q i hq
  by_cases hqp : q = p
  · subst hqp
    rcases hcv i hq with h | ⟨h1,h2⟩
    · exact .inl h
    · exact hold q i h1 (fun _ => h2)
  · exact hold q i (hx.pc q hqp ▸ hq) (fun h => absurd h hqp)

theorem pending_sync (hs : Pending s) (hl : Lines s) (hd : Dozing s) (hset : Settled s)
    (h : Sync s c p a t) : Pending t := by
  have hx := section_sync hset h
  have hstep : (∀ i, (t.muxes i).cv = (s.muxes i).cv) → (∀ i q, s.pc p ≠ .signalWake i q) →
      (∀ i, cvWait i (t.pc p) = true → cvWait i (s.pc p) = true ∧ s.pc p ≠ .waitcvAsleep i) →
      (∀ q, q ≠ p → (s.proc q).state ≠ .sleeping → (t.proc q).state ≠ .sleeping) → Pending t :=
    fun h1 h2 h3 h4 => pending_move hs hx (fun i hi => .inr (h3 i hi)) h4
      (fun q i hq => .inl (by rwa [h1])) (fun q i hi => absurd hi (h2 i q))
  cases h with
  | mlock pc | waitcvRelock pc | signalcv pc | mlockEnroll pc | munlockDequeue pc | munlock pc =>
    exact hstep (fun _ => rfl) (by simp [pc]) (by simp [cvWait]) (fun _ _ => id)
  | @munlockClear m pc | @waitcvClear m pc =>
    exact hstep (clear_cv (s := s) (p := p) (m := m)) (by simp [pc]) (by simp [pc, cvWait])
      (fun _ _ => id)
  | waitcvCheck pc | waitcvDequeue pc =>
    exact hstep (fun _ => rfl) (by simp [pc]) (by simp [pc, cvWait]) (fun _ _ => id)
  | mlockRefused pc | munlockRefused pc | waitcvFull pc | relockRefused pc | signalRefused pc
  | signalEmpty pc | munlockEmpty pc | mlockFull pc | waitcvRefused pc =>
    exact hstep (fun _ => rfl) (by simp [pc]) (by simp [ret, cvWait])
      (fun q hq => by simp [ret, hq])
  | @mlockTake _ m pc =>
    exact hstep (take_cv (s := s) (p := p) (m := m)) (by simp [pc]) (by simp [ret, cvWait])
      (fun q hq => by simp [ret, take, hq])
  | mlockSleep pc _ left =>
    obtain ⟨-,rfl⟩ := sched_settled left hset
    exact hstep (fun _ => rfl) (by simp [pc]) (by simp [cvWait]) (fun q hq => by simp [hq])
  | waitcvSleep pc =>
    exact hstep (fun _ => rfl) (by simp [pc]) (by simp [pc, cvWait]) (fun q hq => by simp [hq])
  | waitcvSched pc left =>
    obtain ⟨-,rfl⟩ := sched_settled left hset
    exact hstep (fun _ => rfl) (by simp [pc]) (by simp [pc, cvWait]) (fun _ _ => id)
  | munlockWake pc _ woken =>
    obtain ⟨k,-,-,rfl⟩ := makeRunnable_ok woken
    refine hstep (fun _ => rfl) (by simp [pc]) (by simp [ret, cvWait]) (fun q hq hz => ?_)
    simp only [ret, Kernel.setLock_proc, Kernel.setPc_proc, Kernel.setProc_proc, if_neg hq,
      Kernel.setRing_proc, setState]
    split
    · simp
    · exact hz
  | @signalWake m w _ pc free woken =>
    obtain ⟨k,-,-,rfl⟩ := makeRunnable_ok woken
    refine pending_move hs hx (by simp [ret, cvWait]) (fun q hq hz => ?_) (fun q i hq => .inl hq)
      (fun q i hi => ?_)
    · simp only [ret, Kernel.setLock_proc, Kernel.setPc_proc, Kernel.setProc_proc, if_neg hq,
        Kernel.setRing_proc, setState]
      split
      · simp
      · exact hz
    · obtain ⟨rfl,rfl⟩ := Pc.signalWake.inj (pc.symm.trans hi)
      have hw := (hl.signal p m w pc).1
      have hwp : w ≠ p := by
        rintro rfl
        simp [pc, cvWait] at hw
      refine ⟨(hx.pc w hwp).trans ?_,by simp [ret, hwp]⟩
      have hr := hd.signalled p m w pc
      have hk : cvLock (s.pc w) ≠ true := fun hk => by simpa [free] using (hd.locked w hk).1
      generalize s.pc w = k₀ at hw hr hk
      cases k₀ <;> simp [cvWait, cvLock, releases] at hw hr hk ⊢
      exact hw
  | @waitcv _ m w pc _ enrolled =>
    refine pending_move hs hx (fun i hi => .inl ?_) (fun _ _ => id) (fun q i hq => .inl ?_)
      (by simp [pc])
    · obtain rfl : m = i := by simpa [cvWait] using hi
      exact (mem_joinCv enrolled).mpr (.inr ⟨rfl,rfl⟩)
    · exact (mem_joinCv enrolled).mpr (.inl hq)
  | @signalDequeue m w pc head =>
    refine pending_move hs hx (by simp [cvWait]) (fun _ _ => id) (fun q i hq => ?_) (by simp [pc])
    by_cases hi : i = m
    · subst hi
      rw [(proper_shift _ _ (hl.proper.2 i) head).2.2] at hq
      rcases List.mem_cons.mp hq with rfl | hq
      · exact .inr (by simp)
      · exact .inl (by simpa [leaveCv] using hq)
    · exact .inl (by simpa [leaveCv, hi] using hq)

theorem pending_yield (hs : Pending s) (hset : Settled s)
    (h : yield s c p = .ok t) : Pending t := by
  obtain ⟨-,k,rfl⟩ := yield_settled h hset
  intro q i hq
  refine (hs q i hq).imp_right (Or.imp_right (fun ⟨h1,h2⟩ => ⟨h1,?_⟩))
  by_cases hqp : q = p
  · simp [hqp]
  · simpa [hqp] using h2

theorem pending_dispatch (hs : Pending s) (hk : Coherent s) (h : dispatch s c p = .ok t) :
    Pending t := by
  have hpc := switched_pc hk h
  obtain ⟨ch,k,l,rfl,-⟩ := dispatch_ok h
  have hfl : ∀ x i q, s.pc x = .signalWake i q → (switchTo s c p ch k l).pc x =
    .signalWake i q := by
    intro x i q hx
    by_cases hxp : x = p
    · subst hxp
      rcases hpc with ⟨hp,-⟩ | hp
      · rw [hp, hx]
      · simp [hx, resumePc] at hp
    · simpa [switchTo, hxp] using hx
  intro q i hq
  by_cases hqp : q = p
  · subst hqp
    rcases hpc with ⟨hp,hn⟩ | hp
    · rw [hp] at hq
      rcases hs q i hq with h | ⟨x,h⟩ | ⟨h,-⟩
      · exact .inl h
      · exact .inr (.inl ⟨x,hfl x i q h⟩)
      · simp [h, resumePc] at hn
    · simp [(resumed_plain hp).2.1 i] at hq
  · have hpq : (switchTo s c p ch k l).pc q = s.pc q := by simp [switchTo, hqp]
    rw [hpq] at hq
    rcases hs q i hq with h | ⟨x,h⟩ | ⟨h,hz⟩
    · exact .inl h
    · exact .inr (.inl ⟨x,hfl x i q h⟩)
    · exact .inr (.inr ⟨hpq.trans h,by simpa [switchTo, hqp] using hz⟩)

omit [DecidableEq C] in
theorem inOrder_congr (hs : InOrder s) (hj : t.joins = s.joins) (hg : t.signals = s.signals)
    (hcv : ∀ i, (t.muxes i).cv = (s.muxes i).cv) : InOrder t := fun i => by
  rw [hj, hg, hcv i]
  exact hs i

theorem inOrder_sync (hs : InOrder s) (hl : Lines s) (hset : Settled s) (h : Sync s c p a t) :
    InOrder t := by
  cases h with
  | mlockSleep _ _ left =>
    obtain ⟨-,rfl⟩ := sched_settled left hset
    exact hs
  | waitcvSched _ left =>
    obtain ⟨-,rfl⟩ := sched_settled left hset
    exact hs
  | munlockWake _ _ woken | signalWake _ _ woken =>
    obtain ⟨k,-,-,rfl⟩ := makeRunnable_ok woken
    exact hs
  | @munlockClear m | @waitcvClear m =>
    exact inOrder_congr hs rfl rfl (clear_cv (s := s) (p := p) (m := m))
  | @mlockTake _ m =>
    exact inOrder_congr hs rfl rfl (take_cv (s := s) (p := p) (m := m))
  | @waitcv _ m w pc _ enrolled =>
    intro i
    by_cases hi : i = m
    · subst hi
      have hp : p ∉ list (s.muxes i).cv := fun hp => by
        simpa [pc, cvWait] using hl.cv i p hp
      have hw := (compact_enroll _ _ _ (hl.proper.2 i).1 enrolled).2
      rw [if_neg hp] at hw
      simp [joinCv, entrant, hp, hw, hs i]
    · simpa [joinCv, hi] using hs i
  | @signalDequeue m w pc head =>
    intro i
    by_cases hi : i = m
    · subst hi
      have hw := (proper_shift _ _ (hl.proper.2 i) head).2.2
      simp [leaveCv, hs i, hw]
    · simpa [leaveCv, hi] using hs i
  | mlock | waitcvRelock | signalcv | mlockEnroll | munlockDequeue | munlock | waitcvSleep
  | waitcvCheck | waitcvDequeue | mlockRefused | munlockRefused | waitcvFull | relockRefused
  | signalRefused | signalEmpty | munlockEmpty | mlockFull | waitcvRefused => exact hs

end Xv6.CondVarInvariant
