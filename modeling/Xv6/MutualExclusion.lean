import Xv6.MutexEffects

/-!
# Mutual exclusion of the user mutexes

A mutex is held from the step of `sys_mlock` that sets its state to 1 until a
step of `sys_munlock` clears it. When the callers release only what they hold, a
process that was granted a mutex and has not released it is the only holder.
-/

set_option autoImplicit false

namespace Xv6.MutualExclusion
open KernelState ReadyQueue ProcessCalls MutexCalls
open Machine ProcessFrames ProcessEffects MutexEffects TransitionRun

variable {C : Type} {s t : Kernel C} {c : C} {p : Slot} {m : MuxId}

structure Owned (s : Kernel C) : Prop where
  locked : ∀ m, (s.muxes m).state = 1 ↔ ∃ p, s.holds p m = true
  unique : ∀ p q m, s.holds p m = true → s.holds q m = true → p = q

def releases : Pc → Option MuxId
  | .munlockClear m | .waitcvSleep m | .waitcvCheck m | .waitcvClear m => some m
  | _ => none

structure Exclusive (s : Kernel C) : Prop extends Owned s where
  granted : ∀ p m, s.granted p m = true → s.holds p m = true
  releasing : ∀ p m, releases (s.pc p) = some m → s.holds p m = true

theorem owned_congr (hs : Owned s) (hst : ∀ m, (t.muxes m).state = (s.muxes m).state)
    (hh : t.holds = s.holds) : Owned t := by
  refine ⟨fun m => ?_,?_⟩
  · rw [hst m, hh]
    exact hs.locked m
  · rw [hh]
    exact hs.unique

theorem owned_take (hs : Owned s) (ho : (s.muxes m).state ≠ 1) (p : Slot) :
    Owned (take s p m) := by
  have hfree : ∀ q, s.holds q m = false := by
    intro q
    by_contra hq
    exact ho ((hs.locked m).mpr ⟨q,by simpa using hq⟩)
  refine ⟨fun i => ?_,fun q r i hq hr => ?_⟩
  · by_cases hi : i = m
    · subst hi
      simp only [take, Kernel.setMux_muxes, if_true, true_iff]
      exact ⟨p,by simp⟩
    · simpa [take, hi] using hs.locked i
  · by_cases hi : i = m
    · subst hi
      simp only [take, hfree, and_true] at hq hr
      rw [show q = p by simpa using hq, show r = p by simpa using hr]
    · exact hs.unique q r i (by simpa [take, hi] using hq) (by simpa [take, hi] using hr)

theorem owned_clear (hs : Owned s) (p : Slot) : Owned (clear s p m) := by
  refine ⟨fun i => ?_,fun q r i hq hr => ?_⟩
  · by_cases hi : i = m
    · simp [clear, hi]
    · simpa [clear, hi] using hs.locked i
  · by_cases hi : i = m
    · simp [clear, hi] at hq
    · exact hs.unique q r i (by simpa [clear, hi] using hq) (by simpa [clear, hi] using hr)

theorem exclusive_congr (hs : Exclusive s) (hst : ∀ m, (t.muxes m).state = (s.muxes m).state)
    (hh : t.holds = s.holds) (hg : t.granted = s.granted) (hpc : t.pc = s.pc) : Exclusive t := by
  refine ⟨owned_congr hs.toOwned hst hh,?_,?_⟩
  · rw [hh, hg]
    exact hs.granted
  · rw [hh, hpc]
    exact hs.releasing

theorem exclusive_setPc (hs : Exclusive s) {k : Pc}
    (hk : ∀ m, releases k = some m → s.holds p m = true) : Exclusive (s.setPc p k) := by
  refine ⟨owned_congr hs.toOwned (fun _ => rfl) rfl,hs.granted,fun q m hq => ?_⟩
  by_cases h : q = p
  · subst h
    exact hk m (by simpa using hq)
  · exact hs.releasing q m (by simpa [h] using hq)

theorem later_releases {k l : Pc} (h : Later k l) (hl : releases l = some m) : l = k := by
  rcases h with h | h | h
  · exact h
  · cases k <;> simp only [resumePc, Option.some.injEq, reduceCtorEq] at h <;> subst h <;>
      simp [releases] at hl
  · cases l <;> simp [releases, isProcessPc] at hl h

/-- The process calls neither take nor release a mutex. -/
theorem exclusive_frame (hs : Exclusive s) (h : Frame s t) : Exclusive t := by
  have hr := h.rest
  refine ⟨owned_congr hs.toOwned (fun m => by rw [hr]) (by rw [hr]),?_,fun q m hq => ?_⟩
  · rw [hr]
    exact hs.granted
  · rcases h.pc q with hl | ⟨np,pid,hf | hf | hf | hf⟩
    · rw [later_releases hl hq] at hq
      rw [hr]
      exact hs.releasing q m hq
    all_goals simp [hf, releases] at hq

theorem exclusive_routine (hs : Exclusive s) (h : Routine s t) : Exclusive t :=
  exclusive_frame hs (routine_frame h)

theorem exclusive_take (hs : Exclusive s) (ho : (s.muxes m).state ≠ 1) :
    Exclusive (take s p m) := by
  refine ⟨owned_take hs.toOwned ho p,fun q i hq => ?_,fun q i hq => ?_⟩
  · by_cases h : q = p ∧ i = m
    · simp [take, h]
    · simp only [take, if_neg h] at hq ⊢
      exact hs.granted q i hq
  · have hh := hs.releasing q i hq
    simp only [take]
    split <;> simp [hh]

theorem exclusive_clear (hs : Exclusive s) (hp : s.holds p m = true) {k : Pc}
    (hk : releases k = none) : Exclusive ((clear s p m).setPc p k) := by
  refine ⟨owned_congr (owned_clear hs.toOwned p) (fun _ => rfl) rfl,fun q i hq => ?_,
    fun q i hq => ?_⟩
  · simp only [Kernel.setPc_granted, Kernel.setPc_holds, clear] at hq ⊢
    by_cases hi : i = m
    · subst hi
      by_cases hqp : q = p
      · simp [hqp] at hq
      · simp only [hqp, false_and, if_false] at hq
        exact absurd (hs.unique q p i (hs.granted q i hq) hp) hqp
    · simpa [hi] using hs.granted q i (by simpa [hi] using hq)
  · by_cases hqp : q = p
    · simp [hqp, hk] at hq
    · have hh := hs.releasing q i (by simpa [clear, hqp] using hq)
      have hi : i ≠ m := by
        rintro rfl
        exact hqp (hs.unique q p i hh hp)
      simpa [clear, hi] using hh

def Disciplined (s : Kernel C) (a : Act C) : Prop :=
  (isSyncCall a = true ∨ (isProcessCall a = true ∧ ∀ c, a ≠ .exit c) ∨ ∃ c p, a = .resume c p) ∧
    ∀ c id p m, a = .munlock c id ∨ a = .waitcv c id → s.cpu c = some p →
      muxIndex id = some m → s.holds p m = true

variable [DecidableEq C]

theorem exclusive_sync (hs : Exclusive s) {a : Act C} (hc : s.cpu c = some p)
    (hd : ∀ c id p m, a = .munlock c id ∨ a = .waitcv c id → s.cpu c = some p →
      muxIndex id = some m → s.holds p m = true)
    (h : Sync s c p a t) : Exclusive t := by
  have hgo : ∀ {u : Kernel C} {k : Pc}, Exclusive u → releases k = none →
      Exclusive (u.setPc p k) := fun hu hk => exclusive_setPc hu (by simp [hk])
  have hret : ∀ v, Exclusive (ret s p v) := fun v => exclusive_routine hs (routine_ret v)
  cases h with
  | mlock | waitcvDequeue | waitcvRelock | signalcv => exact hgo hs rfl
  | mlockRefused | munlockRefused | waitcvFull | waitcvRefused | relockRefused | signalRefused
  | signalEmpty | munlockEmpty => exact hret _
  | mlockFull => exact exclusive_congr (hret 0) (fun _ => rfl) rfl rfl rfl
  | mlockEnroll | munlockDequeue =>
    exact hgo (exclusive_congr (t := s.setWqueue _) hs (fun _ => rfl) rfl rfl rfl) rfl
  | mlockTake pc ho => exact exclusive_routine (exclusive_take hs ho) (routine_ret 1)
  | mlockSleep pc hf left =>
    have hu : Exclusive (setState (s.setLock (some p)) p .sleeping) :=
      exclusive_congr hs (fun _ => rfl) rfl rfl rfl
    exact exclusive_routine (hgo hu rfl) (routine_sched left)
  | waitcvSched pc left => exact exclusive_routine (hgo hs rfl) (routine_sched left)
  | munlock user index locked =>
    refine exclusive_setPc hs (fun i hi => ?_)
    cases hi
    exact hd c _ p _ (.inl rfl) hc index
  | munlockClear pc | waitcvClear pc =>
    exact exclusive_clear hs (hs.releasing p _ (by simp [pc, releases])) rfl
  | munlockWake pc hf woken | signalWake pc hf woken =>
    exact exclusive_routine hs (routine_wake woken)
  | @waitcv _ m w user index enrolled =>
    have hj : Exclusive (joinCv s p m w) := exclusive_congr hs (joinCv_state w) rfl rfl rfl
    refine exclusive_setPc hj (fun i hi => ?_)
    cases hi
    exact hd c _ p _ (.inr rfl) hc index
  | @waitcvSleep m pc =>
    have hu : Exclusive (setState (s.setLock (some p)) p .sleeping) :=
      exclusive_congr hs (fun _ => rfl) rfl rfl rfl
    exact exclusive_setPc hu (fun i hi => hs.releasing p i (by rw [pc]; exact hi))
  | @waitcvCheck m pc =>
    exact exclusive_setPc hs (fun i hi => hs.releasing p i (by rw [pc]; exact hi))
  | @signalDequeue m q =>
    exact hgo (exclusive_congr (t := leaveCv s m q) hs leaveCv_state rfl rfl rfl) rfl

theorem exclusive_step (hs : Exclusive s) {a : Act C} (ha : Disciplined s a)
    (h : step s a = .ok t) : Exclusive t := by
  rcases ha.1 with hy | hr | ⟨c,p,rfl⟩
  · obtain ⟨c,p,hc,hsync⟩ := sync_step hy h
    exact exclusive_sync hs hc ha.2 hsync
  · exact exclusive_frame hs (frame_step hr.1 hr.2 h)
  · have h : resume s c p = .ok t := h
    unfold resume at h
    split at h
    · exact exclusive_routine hs (routine_dispatch h)
    · simp at h

structure AllFree (s : Kernel C) : Prop where
  state : ∀ m, (s.muxes m).state ≠ 1
  holds : ∀ p m, s.holds p m = false
  granted : ∀ p m, s.granted p m = false
  releases : ∀ p, releases (s.pc p) = none

omit [DecidableEq C] in
theorem exclusive_allFree (hs : AllFree s) : Exclusive s := by
  refine ⟨⟨fun m => ?_,fun p q m hp => ?_⟩,fun p m hp => ?_,fun p m hp => ?_⟩
  · simp [hs.state m, hs.holds]
  · simp [hs.holds p m] at hp
  · simp [hs.granted p m] at hp
  · simp [hs.releases p] at hp

/-- Mutual exclusion, over all interleavings of any number of processes and
mutexes: at most one holder, state 1 exactly while there is one, and whoever
was granted the mutex and has not released it is the holder. -/
theorem mutual_exclusion {s₀ : Kernel C} (h₀ : AllFree s₀) (h : Reaches step Disciplined s₀ s)
    (m : MuxId) :
    (∀ p q, s.holds p m = true → s.holds q m = true → p = q) ∧
    ((s.muxes m).state = 1 ↔ ∃ p, s.holds p m = true) ∧
    ∀ p, s.granted p m = true → s.holds p m = true := by
  have hs := reaches_invariant Exclusive (fun _ _ _ hv ha hw => exclusive_step hv ha hw)
    (exclusive_allFree h₀) h
  exact ⟨fun p q => hs.unique p q m,hs.locked m,fun p => hs.granted p m⟩

theorem allFree_crew : AllFree crew := by
  refine ⟨fun m => by simp [crew, boot],fun _ _ => rfl,fun _ _ => rfl,fun p => ?_⟩
  by_cases hp : p.val < 3 <;> simp [crew, hp, releases]

/-- One process holds the mutex while a second one waits for it. -/
theorem mutual_exclusion_locked : ∃ s : Kernel (Fin 3), s.granted 0 3 = true ∧
    1 ∈ NullQueue.list s.wqueue ∧ (s.muxes 3).state = 1 ∧ ∀ p, s.holds p 3 = true → p = 0 := by
  obtain ⟨s,hr,hs⟩ := play_witness step Disciplined
    (fun _ a => decide (a = .mlock 0 3 ∨ a = .mlockTry 0 ∨ a = .mlock 1 3 ∨ a = .mlockTry 1))
    (fun s a ha => by
      rcases of_decide_eq_true ha with rfl | rfl | rfl | rfl <;>
        exact ⟨.inl rfl,fun c id p m h => by simp at h⟩)
    crew [.mlock 0 3, .mlockTry 0, .mlock 1 3, .mlockTry 1]
    (fun s => s.granted 0 3 && decide (1 ∈ NullQueue.list s.wqueue)) (by decide +kernel)
  obtain ⟨hgrant,hwait⟩ := Bool.and_eq_true_iff.mp hs
  obtain ⟨hunique,hstate,hholds⟩ := mutual_exclusion allFree_crew hr 3
  have h0 := hholds 0 hgrant
  exact ⟨s,hgrant,of_decide_eq_true hwait,hstate.mpr ⟨0,h0⟩,fun p hp => hunique p 0 hp h0⟩

end Xv6.MutualExclusion
