import Xv6.MutualExclusion

/-!
# What an exit releases

An exiting process should free exactly the mutexes it holds and leave alone
those that another live process uses. The clean-up of `exit` resets every mutex
the process has access to, and from inside a condition queue it shifts through a
pointer one past the table, where the model stops.
-/

set_option autoImplicit false

namespace Xv6.ExitRelease
open KernelState NullQueue ReadyQueue ProcessCalls MutexCalls
open Machine ProcessFrames ProcessEffects MutexEffects
open MutualExclusion TransitionRun

variable {C : Type} [DecidableEq C] {s t : Kernel C} {c : C} {p : Slot} {m : MuxId}

def Live (x : ProcState) : Prop := x = .sleeping ∨ x = .runnable ∨ x = .running

structure ReleasesOwn (s : Kernel C) (p : Slot) (t : Kernel C) : Prop where
  freed : ∀ m, (s.muxes m).state = 1 ∧ (t.muxes m).state ≠ 1 ↔ s.holds p m = true
  shared : ∀ m q, q ≠ p → Live (s.proc q).state → (s.proc q).muxPtrs m = true →
    ((s.muxes m).name ≠ 0 → (t.muxes m).name ≠ 0) ∧
      (s.holds q m = true → (t.muxes m).state = 1)

structure SoleOwner (s : Kernel C) (p : Slot) : Prop where
  locked : ∀ m, (s.proc p).muxPtrs m = true → (s.muxes m).state = 1 → s.holds p m = true
  unshared : ∀ m q, (s.proc p).muxPtrs m = true → q ≠ p → Live (s.proc q).state →
    (s.proc q).muxPtrs m = true → (s.muxes m).name = 0
  access : ∀ m, s.holds p m = true → (s.proc p).muxPtrs m = true
  outside : ∀ m, (s.proc p).muxPtrs m = true → p ∉ list (s.muxes m).cv

section
variable (hs : Owned s)
include hs

section
omit [DecidableEq C]

theorem releasesOwn_iff
    (hm : ∀ m, t.muxes m = if (s.proc p).muxPtrs m = true then
      { s.muxes m with name := 0, state := 0 } else s.muxes m)
    (hcv : ∀ m, (s.proc p).muxPtrs m = true → p ∉ list (s.muxes m).cv) :
    ReleasesOwn s p t ↔ SoleOwner s p := by
  have hin : ∀ m, (s.proc p).muxPtrs m = true → (t.muxes m).name = 0 ∧ (t.muxes m).state = 0 := by
    intro m ha
    rw [hm m, if_pos ha]
    exact ⟨rfl,rfl⟩
  have hout : ∀ m, ¬(s.proc p).muxPtrs m = true → t.muxes m = s.muxes m := by
    intro m ha
    rw [hm m, if_neg ha]
  constructor
  · intro hr
    refine ⟨fun m ha hst => ?_,fun m q ha hq hl haq => ?_,fun m hh => ?_,hcv⟩
    · exact (hr.freed m).mp ⟨hst,by simp [(hin m ha).2]⟩
    · by_contra hne
      exact (hr.shared m q hq hl haq).1 hne (hin m ha).1
    · by_contra ha
      have hst := (hr.freed m).mpr hh
      rw [hout m ha] at hst
      exact hst.2 hst.1
  · intro ho
    refine ⟨fun m => ⟨fun hst => ?_,fun hh => ?_⟩,fun m q hq hl haq => ⟨fun hne => ?_,fun hh => ?_⟩⟩
    · by_contra hn
      have ha : ¬(s.proc p).muxPtrs m = true := fun ha => hn (ho.locked m ha hst.1)
      rw [hout m ha] at hst
      exact hst.2 hst.1
    · refine ⟨(hs.locked m).mpr ⟨p,hh⟩,?_⟩
      simp [(hin m (ho.access m hh)).2]
    · by_cases ha : (s.proc p).muxPtrs m = true
      · exact absurd (ho.unshared m q ha hq hl haq) hne
      · rw [hout m ha]
        exact hne
    · have hst := (hs.locked m).mpr ⟨q,hh⟩
      have ha : ¬(s.proc p).muxPtrs m = true := by
        intro ha
        exact hq (hs.unique q p m hh (ho.locked m ha hst))
      rw [hout m ha]
      exact hst

theorem cleanUp_releasesOwn_iff :
    (∃ u, (List.finRange MUX_MAXNUM).foldlM (dropMutex p) s = .ok u ∧ ReleasesOwn s p u) ↔
      SoleOwner s p := by
  by_cases hcv : ∀ m, (s.proc p).muxPtrs m = true → p ∉ list (s.muxes m).cv
  · rw [dropMutexes_eq _ (fun m _ => hcv m)]
    have hiff := releasesOwn_iff (t := released s p (List.finRange MUX_MAXNUM)) hs
      (fun m => by simp [released]) hcv
    constructor
    · rintro ⟨u,hu,hr⟩
      cases hu
      exact hiff.mp hr
    · exact fun ho => ⟨_,rfl,hiff.mpr ho⟩
  · obtain ⟨m,hm⟩ := not_forall.mp hcv
    obtain ⟨ha,hq⟩ := Classical.not_imp.mp hm
    rw [dropMutexes_wild _ (List.mem_finRange m) ha (not_not.mp hq)]
    constructor
    · rintro ⟨u,hu,-⟩
      simp at hu
    · exact fun ho => absurd ho.outside hcv

end

/-- The exit of a sole owner keeps the relation of states and holders. -/
theorem owned_exit (ho : SoleOwner s p) (h : exit s c p = .ok t) : Owned t := by
  obtain ⟨hm,-,hh⟩ := exit_muxes h
  refine ⟨fun m => ?_,fun q r m hq hr => ?_⟩
  · rw [hm m]
    by_cases ha : (s.proc p).muxPtrs m = true
    · rw [if_pos ha]
      constructor
      · intro h0
        simp at h0
      · rintro ⟨q,hq⟩
        rw [hh q m] at hq
        split at hq
        · simp at hq
        · rename_i hqp
          exact absurd (hs.unique q p m hq (ho.locked m ha ((hs.locked m).mpr ⟨q,hq⟩))) hqp
    · rw [if_neg ha, hs.locked m]
      constructor
      · rintro ⟨q,hq⟩
        refine ⟨q,?_⟩
        rw [hh q m, if_neg]
        · exact hq
        · rintro rfl
          exact ha (ho.access m hq)
      · rintro ⟨q,hq⟩
        rw [hh q m] at hq
        split at hq
        · simp at hq
        · exact ⟨q,hq⟩
  · rw [hh] at hq hr
    split at hq <;> split at hr <;> simp_all
    exact hs.unique q r m hq hr

section
omit [DecidableEq C]

theorem owned_frame (h : Frame s t) : Owned t := by
  have hr := h.rest
  exact owned_congr hs (fun m => by rw [hr]) (by rw [hr])

theorem owned_routine (h : Routine s t) : Owned t := owned_frame hs (routine_frame h)

end

theorem owned_sync {a : Act C} (h : Sync s c p a t) : Owned t := by
  have hgo : ∀ {u v : Kernel C}, Owned u → v.muxes = u.muxes → v.holds = u.holds → Owned v :=
    fun hu hm hh => owned_congr hu (fun m => by rw [hm]) hh
  cases h with
  | mlock | waitcvDequeue | waitcvRelock | signalcv | mlockEnroll | munlockDequeue | munlock
  | waitcvCheck | waitcvSleep => exact hgo hs rfl rfl
  | mlockRefused | munlockRefused | waitcvFull | waitcvRefused | relockRefused | signalRefused
  | signalEmpty | munlockEmpty | mlockFull => exact hgo hs rfl rfl
  | mlockTake pc ho => exact owned_routine (owned_take hs ho p) (routine_ret 1)
  | mlockSleep pc hf left =>
    exact owned_routine (hgo (v := (setState (s.setLock (some p)) p .sleeping).setPc p _)
      hs rfl rfl)
      (routine_sched left)
  | @waitcvSched m _ pc left =>
    exact owned_routine (hgo (v := s.setPc p (.waitcvAsleep m)) hs rfl rfl) (routine_sched left)
  | munlockClear pc | waitcvClear pc => exact hgo (owned_clear hs p) rfl rfl
  | munlockWake pc hf woken | signalWake pc hf woken => exact owned_routine hs (routine_wake woken)
  | @waitcv _ m w => exact owned_congr hs (joinCv_state (p := p) w) rfl
  | @signalDequeue m q => exact owned_congr hs (leaveCv_state (q := q)) rfl

section
omit [DecidableEq C]

theorem owned_createMux (p : Slot) (addr : BitVec 32) : Owned (createMux s p m addr) := by
  refine ⟨fun i => ?_,fun q r i hq hr => ?_⟩
  · by_cases hi : i = m
    · simp [createMux, hi]
    · simpa [createMux, hi] using hs.locked i
  · by_cases hi : i = m
    · simp [createMux, hi] at hq
    · exact hs.unique q r i (by simpa [createMux, hi] using hq) (by simpa [createMux, hi] using hr)

theorem owned_freeMux : Owned (freeMux s m) := by
  refine ⟨fun i => ?_,fun q r i hq hr => ?_⟩
  · by_cases hi : i = m
    · simp [freeMux, hi]
    · simpa [freeMux, hi] using hs.locked i
  · by_cases hi : i = m
    · simp [freeMux, hi] at hq
    · exact hs.unique q r i (by simpa [freeMux, hi] using hq) (by simpa [freeMux, hi] using hr)

end

end

def ExitsClean (s : Kernel C) (a : Act C) : Prop :=
  isKernelCall a = true ∧ ∀ c p, a = .exit c → s.cpu c = some p → SoleOwner s p

theorem owned_step (hs : Owned s) {a : Act C} (ha : ExitsClean s a) (h : step s a = .ok t) :
    Owned t := by
  have hgo : ∀ {u v : Kernel C}, Owned u → v.muxes = u.muxes → v.holds = u.holds → Owned v :=
    fun hu hm hh => owned_congr hu (fun m => by rw [hm]) hh
  cases hy : isSyncCall a with
  | true =>
    obtain ⟨c,p,-,hsync⟩ := sync_step hy h
    exact owned_sync hs hsync
  | false =>
  obtain ⟨hk,hx⟩ := ha
  by_cases he : ∃ c, a = .exit c
  · obtain ⟨c,rfl⟩ := he
    obtain ⟨p,hc,-,h⟩ := call_ok h
    exact owned_exit hs (hx c p rfl hc) h
  cases hr : isProcessCall a with
  | true => exact owned_frame hs (frame_step hr (fun c hc => he ⟨c,hc⟩) h)
  | false =>
  obtain ⟨c,p,-,h⟩ | ⟨c,p,-,ho⟩ := other_step hk hr hy h
  · exact owned_routine hs (routine_dispatch (resume_ok h).2.2.2)
  cases ho with
  | mcreate m => exact hgo (owned_createMux hs p _) rfl rfl
  | mdeleteFree m => exact hgo (owned_freeMux hs) rfl rfl
  | testpqeq r v user free state muxPtrs priority put =>
    rcases put with rfl | ⟨k,rfl⟩ <;> exact hgo hs rfl rfl
  | testpqdq e user taken | testpqdqNext e n pc taken =>
    rcases taken with rfl | ⟨k,rfl⟩ <;> exact hgo hs rfl rfl
  | _ => exact hgo hs rfl rfl

/-- Exit releases only what the process holds. In a run in which only sole
owners outside the condition queues of their mutexes exit, in any state
reached the clean-up of a process gets to its end, frees exactly the mutexes
of the process and spares those of the others exactly when the process meets
this condition again; and the same holds for every exit that returns to the
scheduler, which none does from inside such a queue. -/
theorem exit_releases_iff {s₀ : Kernel C} (h₀ : Owned s₀) (h : Reaches step ExitsClean s₀ s) :
    Owned s ∧
    (∀ p, (∃ u, (List.finRange MUX_MAXNUM).foldlM (dropMutex p) s = .ok u ∧ ReleasesOwn s p u) ↔
      SoleOwner s p) ∧
    ∀ c p t, s.cpu c = some p → step s (.exit c) = .ok t →
      (∀ m, (s.proc p).muxPtrs m = true → p ∉ list (s.muxes m).cv) ∧
      (ReleasesOwn s p t ↔ SoleOwner s p) := by
  have hs := reaches_invariant Owned (fun _ _ _ hv ha hw => owned_step hv ha hw) h₀ h
  refine ⟨hs,fun p => cleanUp_releasesOwn_iff hs,fun c p t hc ht => ?_⟩
  obtain ⟨q,hq,-,ht⟩ := call_ok ht
  obtain rfl := Option.some.inj (hc.symm.trans hq)
  have hcv := (exit_ok ht).2.2.1
  exact ⟨hcv,releasesOwn_iff hs (exit_muxes ht).1 hcv⟩

omit [DecidableEq C] in
theorem owned_boot (c : C) : Owned (boot c) := by
  refine ⟨fun m => ?_,fun p q m hp => ?_⟩
  · simp [boot]
  · simp [boot] at hp

theorem owned_solo (c : C) : Owned (solo c) := owned_congr (owned_boot c) (fun _ => rfl) rfl

theorem exit_releases_after_fork : ∃ s : Kernel (Fin 2),
    (s.cpu 1 = some 1 ∧ s.holds 1 0 = true) ∧ Owned s ∧
    (∀ p, (∃ u, (List.finRange MUX_MAXNUM).foldlM (dropMutex p) s = .ok u ∧ ReleasesOwn s p u) ↔
      SoleOwner s p) ∧
    ∀ c p t, s.cpu c = some p → step s (.exit c) = .ok t →
      (∀ m, (s.proc p).muxPtrs m = true → p ∉ list (s.muxes m).cv) ∧
      (ReleasesOwn s p t ↔ SoleOwner s p) := by
  obtain ⟨s,hr,hs⟩ := play_witness step ExitsClean
    (fun _ a => isKernelCall a && decide (∀ c, a ≠ .exit c))
    (fun s a ha => by
      simp only [Bool.and_eq_true, decide_eq_true_eq] at ha
      exact ⟨ha.1,fun c p h => absurd h (ha.2 c)⟩)
    (solo (0 : Fin 2))
    (List.flatten [forkOn 0, [.schedule 1, .mcreate 1 100 0, .mlock 1 0, .mlockTry 1]])
    (fun s => decide (s.cpu 1 = some 1 ∧ s.holds 1 0 = true)) (by decide +kernel)
  exact ⟨s,of_decide_eq_true hs,exit_releases_iff (owned_solo 0) hr⟩

/-- A child that inherited access to a mutex exits while its parent holds it:
the mutex is free and nameless afterwards. -/
theorem exit_frees_parents_mutex : ∃ s t : Kernel (Fin 2),
    Reaches step (fun _ _ => True) (boot 0) s ∧ step s (.exit 1) = .ok t ∧
    (s.cpu 1 = some 1 ∧ s.holds 0 0 = true ∧ s.holds 1 0 = false ∧ (s.proc 0).muxPtrs 0 = true ∧
      (s.proc 0).state = .running ∧ (s.muxes 0).name ≠ 0 ∧ (s.muxes 0).state = 1) ∧
    (t.muxes 0).name = 0 ∧ (t.muxes 0).state = 0 := by
  obtain ⟨s,hr,hs⟩ := play_witness step (fun _ _ => True)
    (fun _ _ => true) (fun _ _ _ => trivial) (boot (0 : Fin 2))
    (List.flatten [startup, [.mcreate 0 100 0], forkOn 0, [.schedule 1, .mlock 0 0, .mlockTry 0]])
    (fun s => decide (s.cpu 1 = some 1 ∧ s.holds 0 0 = true ∧ s.holds 1 0 = false ∧
      (s.proc 0).muxPtrs 0 = true ∧ (s.proc 0).state = .running ∧ (s.muxes 0).name ≠ 0 ∧
      (s.muxes 0).state = 1) && (step s (.exit 1)).toOption.any (fun t : Kernel (Fin 2) =>
        decide ((t.muxes 0).name = 0 ∧ (t.muxes 0).state = 0)))
    (by decide +kernel)
  obtain ⟨h1,h2⟩ := Bool.and_eq_true_iff.mp hs
  obtain ⟨t,ht,h3⟩ := ok_of_any h2
  exact ⟨s,t,hr,ht,of_decide_eq_true h1,of_decide_eq_true h3⟩

end Xv6.ExitRelease
