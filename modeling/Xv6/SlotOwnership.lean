import Xv6.ReadyRuns
import Xv6.MutexEffects

/-!
# Ownership of the mutex slots

A slot of the mutex table is free when its name is null, and a process has
access to it through `mux_ptrs`. A slot should be free exactly if nobody has
access. One call at a time keeps that, unless a mutex is created with a null
name or `exit` drops a shared one.
-/

set_option autoImplicit false

namespace Xv6.SlotOwnership
open KernelState ReadyQueue ProcessCalls MutexCalls
open Machine ProcessFrames ProcessEffects MutexEffects
open TransitionRun ReadyInvariant ReadyRuns

variable {C : Type} {s t : Kernel C} {c : C} {p q np : Slot} {m : MuxId}

def Named (s : Kernel C) : Prop :=
  ∀ m, (s.muxes m).name = 0 ↔ ∀ q, (s.proc q).muxPtrs m = false

def busy : Pc → Bool
  | .forkAlloc _ | .forkReady _ | .forkShare _ _ | .forkPriority _ _ | .mdeleteFree _
  | .mdeleteDrop _ => true
  | _ => false

def isLaterSection : Act C → Bool
  | .forkNoStack _ | .forkNoMem _ | .forkCopy _ | .forkPublish _ | .forkShare _ | .forkPriority _
  | .mdeleteFree _ | .mdeleteDrop _ => true
  | _ => false

def Serial (s : Kernel C) (a : Act C) : Prop :=
  (∃ p, busy (s.pc p) = true) → isLaterSection a = true

instance (s : Kernel C) (a : Act C) : Decidable (Serial s a) := inferInstanceAs (Decidable (_ → _))

def Quiet (s : Kernel C) : Prop := ∀ p, busy (s.pc p) = false

instance (s : Kernel C) : Decidable (Quiet s) := inferInstanceAs (Decidable (∀ _, _))

def Phase (s : Kernel C) (p : Slot) : Pc → Prop
  | .forkShare np _ => Named s ∧ ¬Dead (s.proc np).state ∧ ∀ m, (s.proc np).muxPtrs m = false
  | .mdeleteFree m => Named s ∧ ∀ q, q ≠ p → (s.proc q).muxPtrs m = false
  | .mdeleteDrop m => ∀ i, (s.muxes i).name = 0 ↔
      ∀ q, q = p ∧ i = m ∨ (s.proc q).muxPtrs i = false
  | _ => Named s

structure Tidy (s : Kernel C) : Prop where
  consistent : Consistent s
  dead : ∀ q m, Dead (s.proc q).state → (s.proc q).muxPtrs m = false
  active : ∃ p, (∀ q, q ≠ p → busy (s.pc q) = false) ∧ Phase s p (s.pc p)

theorem phase_idle {k : Pc} (hk : busy k = false) : Phase s p k ↔ Named s := by
  cases k <;> simp [busy, Phase] at hk ⊢

theorem phase_setPc {k l : Pc} : Phase (s.setPc q l) p k ↔ Phase s p k := by cases k <;> rfl

theorem tidy_named (hs : Tidy s) (hq : Quiet s) : Named s := by
  obtain ⟨p,-,hp⟩ := hs.active
  exact (phase_idle (hq p)).mp hp

theorem tidy_active (hs : Tidy s) (hb : busy (s.pc p) = true) :
    (∀ q, q ≠ p → busy (s.pc q) = false) ∧ Phase s p (s.pc p) := by
  obtain ⟨x,hx,hp⟩ := hs.active
  have he : p = x := by
    by_contra hne
    simp [hx p hne] at hb
  subst he
  exact ⟨hx,hp⟩

theorem named_congr (hn : ∀ m, (t.muxes m).name = (s.muxes m).name)
    (hp : ∀ q, (t.proc q).muxPtrs = (s.proc q).muxPtrs) : Named t ↔ Named s := by
  simp only [Named, hn, hp]

theorem later_busy {k l : Pc} (h : Later k l) (hk : busy k = false) : busy l = false := by
  rcases h with rfl | h | h
  · exact hk
  · cases k <;> simp only [resumePc, Option.some.injEq, reduceCtorEq] at h <;> subst h <;> rfl
  · cases l <;> simp [isProcessPc, busy] at h ⊢

/-- A section that leaves nobody busy. -/
theorem tidy_quiet (hc : Consistent t)
    (hd : ∀ q m, Dead (t.proc q).state → (t.proc q).muxPtrs m = false) (hq : Quiet t)
    (hn : Named t) : Tidy t :=
  ⟨hc,hd,0,fun q _ => hq q,(phase_idle (hq 0)).mpr hn⟩

theorem tidy_routine (hs : Tidy s) (hq : Quiet s) (hc : Consistent t) (h : Routine s t) :
    Tidy t := by
  refine tidy_quiet hc (fun q m hd => ?_) (fun q => later_busy (h.pc q) (hq q)) ?_
  · rw [h.muxPtrs q]
    exact hs.dead q m (h.dead q hd)
  · refine (named_congr (fun m => ?_) h.muxPtrs).mpr (tidy_named hs hq)
    rw [h.rest]

theorem tidy_keep (hs : Tidy s) (hn : Named s) (hc : Consistent t)
    (hm : ∀ q, (t.proc q).muxPtrs = (s.proc q).muxPtrs) (hx : t.muxes = s.muxes)
    (hd : ∀ q, Dead (t.proc q).state → Dead (s.proc q).state)
    (hb : ∀ q, q ≠ p → busy (t.pc q) = false) (hp : Named t → Phase t p (t.pc p)) : Tidy t := by
  refine ⟨hc,fun q m hq => ?_,p,hb,hp ((named_congr (fun m => by rw [hx]) hm).mpr hn)⟩
  rw [hm q]
  exact hs.dead q m (hd q hq)

theorem consistent_createMux (hs : Consistent s) (addr : BitVec 32) :
    Consistent (createMux s p m addr) := by
  refine consistent_congr hs rfl rfl rfl rfl rfl rfl (fun q => ?_) (fun q => ?_) <;>
    simp only [createMux, Kernel.setProc_proc] <;> split
  · simp [*]
  · rfl
  · exact hs.prio p
  · exact hs.prio q

theorem named_createMux (hs : Named s) (addr : BitVec 32) :
    Named (createMux s p m addr) ↔ addr ≠ 0 := by
  constructor
  · rintro ht rfl
    have hp := (ht m).mp (by simp [createMux]) p
    simp [createMux] at hp
  · intro ha i
    by_cases hi : i = m
    · subst hi
      simp only [createMux, Kernel.setProc_muxes, Kernel.setMux_muxes, if_true, ha, false_iff]
      intro h
      have hp := h p
      simp at hp
    · have hq : ∀ q, ((createMux s p m addr).proc q).muxPtrs i = (s.proc q).muxPtrs i := by
        intro q
        by_cases hq : q = p <;> simp [createMux, hq, hi]
      simp only [hq]
      simpa [createMux, hi] using hs i

variable [DecidableEq C]

theorem named_exit (hs : Named s) (h : exit s c p = .ok t) :
    Named t ↔ ∀ m q, q ≠ p → (s.proc p).muxPtrs m = true → (s.proc q).muxPtrs m = false := by
  obtain ⟨hm,-,-⟩ := exit_muxes h
  have hr := fun q => (exit_procs h q).1
  constructor
  · intro ht m q hq ha
    have hf := (ht m).mp (by rw [hm m, if_pos ha]) q
    simpa [hr q, hq] using hf
  · intro hs' m
    rw [hm m]
    by_cases ha : (s.proc p).muxPtrs m = true
    · rw [if_pos ha]
      simp only [true_iff]
      intro q
      rw [hr q]
      split
      · rfl
      · exact hs' m q ‹_› ha
    · have ha : (s.proc p).muxPtrs m = false := by simpa using ha
      have hq : ∀ q, (t.proc q).muxPtrs m = (s.proc q).muxPtrs m := by
        intro q
        rw [hr q]
        split
        · subst q
          exact ha.symm
        · rfl
      simp only [ha, Bool.false_eq_true, if_false, hq]
      exact hs m

def Leaks (s : Kernel C) (a : Act C) : Prop :=
  (∃ c p q m, a = .exit c ∧ s.cpu c = some p ∧ q ≠ p ∧ (s.proc p).muxPtrs m = true ∧
    (s.proc q).muxPtrs m = true) ∨
  ∃ c p name junk m, a = .mcreate c name junk ∧ s.cpu c = some p ∧ (s.muxes m).name = 0 ∧
    mcreateName s p name junk = 0

theorem exit_named_iff (hs : Named s) (h : step s (.exit c) = .ok t) :
    Named t ↔ ¬Leaks s (.exit c) := by
  obtain ⟨p,hc,-,h⟩ := call_ok h
  rw [named_exit hs h]
  constructor
  · rintro hn (⟨c',p',q,m,he,hc',hq,ha,hb⟩ | ⟨_,_,_,_,_,he,-⟩)
    · obtain rfl := Act.exit.inj he
      obtain rfl := Option.some.inj (hc.symm.trans hc')
      simp [hn m q hq ha] at hb
    · simp at he
  · intro hl m q hq ha
    by_contra hb
    exact hl (.inl ⟨c,p,q,m,rfl,hc,hq,ha,by simpa using hb⟩)

theorem mcreate_named_iff (hs : Named s) {name junk : BitVec 32}
    (h : step s (.mcreate c name junk) = .ok t) :
    Named t ↔ ¬Leaks s (.mcreate c name junk) := by
  obtain ⟨p,hc,-,h⟩ := call_ok h
  have hleak : Leaks s (.mcreate c name junk) ↔
      ∃ m, (s.muxes m).name = 0 ∧ mcreateName s p name junk = 0 := by
    constructor
    · rintro (⟨_,_,_,_,he,-⟩ | ⟨c',p',name',junk',m,he,hc',hm⟩)
      · simp at he
      · obtain ⟨rfl,rfl,rfl⟩ := Act.mcreate.inj he
        obtain rfl := Option.some.inj (hc.symm.trans hc')
        exact ⟨m,hm⟩
    · rintro ⟨m,hm⟩
      exact .inr ⟨c,p,name,junk,m,rfl,hc,hm⟩
  have hret : ∀ {u : Kernel C} {v : ℤ}, Named (ret u p v) ↔ Named u := fun {u v} =>
    named_congr (fun m => rfl) (routine_ret (s := u) (p := p) v).muxPtrs
  rcases sysMcreate_ok h with ⟨rfl,hfull⟩ | ⟨m,hm,rfl⟩
  · rw [hret, hleak]
    exact ⟨fun _ ⟨m,hm,_⟩ => hfull m hm,fun _ => hs⟩
  · rw [hret, named_createMux hs, hleak]
    exact not_congr ⟨fun h0 => ⟨m,hm,h0⟩,fun ⟨_,_,h0⟩ => h0⟩

section
variable (hs : Tidy s)
include hs

theorem tidy_exit (hq : Quiet s) (hl : ¬Leaks s (.exit c)) (h : step s (.exit c) = .ok t) :
    Tidy t := by
  have hn := (exit_named_iff (tidy_named hs hq) h).mpr hl
  have hc := step_consistent hs.consistent (a := .exit c) rfl h
  obtain ⟨p,-,-,h⟩ := call_ok h
  refine tidy_quiet hc (fun q m hd => ?_) (fun q => ?_) hn
  · rw [(exit_procs h q).1]
    split
    · rfl
    · exact hs.dead q m (((exit_procs h q).2.1 hd).resolve_left ‹_›)
  · refine later_busy (exit_procs h q).2.2 ?_
    split
    · rfl
    · exact hq q

theorem tidy_mcreate (hq : Quiet s) {name junk : BitVec 32} (hl : ¬Leaks s (.mcreate c name junk))
    (h : step s (.mcreate c name junk) = .ok t) : Tidy t := by
  have hn := (mcreate_named_iff (tidy_named hs hq) h).mpr hl
  obtain ⟨p,hc,-,h⟩ := call_ok h
  have hrun := consistent_running hs.consistent hc
  rcases sysMcreate_ok h with ⟨rfl,-⟩ | ⟨m,-,rfl⟩
  · exact tidy_routine hs hq (consistent_ret hs.consistent hrun _) (routine_ret _)
  · have hk := consistent_createMux (p := p) (m := m) hs.consistent (mcreateName s p name junk)
    refine tidy_quiet (consistent_ret hk (consistent_running hk hc) _) (fun q i hd => ?_)
      (fun q => ?_) hn
    · by_cases h : q = p
      · simp [ret, createMux, h, hrun, Dead] at hd
      · simpa [ret, createMux, h] using hs.dead q i (by simpa [ret, createMux, h] using hd)
    · by_cases h : q = p
      · simp [ret, h, busy]
      · simpa [ret, createMux, h] using hq q

theorem tidy_mdelete (hq : Quiet s) {id : ℤ} (h : step s (.mdelete c id) = .ok t) : Tidy t := by
  have hn := tidy_named hs hq
  obtain ⟨p,hc,-,h⟩ := call_ok h
  have hrun := consistent_running hs.consistent hc
  have hgo : ∀ {k : Pc}, Plain k → Phase s p k → Tidy (s.setPc p k) := by
    intro k hk hp
    refine tidy_keep (p := p) hs hn (consistent_goto hs.consistent (running_awake hrun) hk)
      (fun _ => rfl) rfl (fun _ hd => hd) (fun q h => ?_) (fun _ => ?_)
    · simpa [h] using hq q
    · simpa [phase_setPc] using hp
  obtain ⟨m,-,⟨-,rfl⟩ | ⟨-,⟨q,hqp,ha⟩,rfl⟩ | ⟨-,hsole,rfl⟩⟩ := sysMdelete_ok h
  · exact tidy_routine hs hq (consistent_ret hs.consistent hrun _) (routine_ret _)
  · refine hgo (by simp [Plain]) (fun i => ?_)
    rw [hn i]
    refine ⟨fun hi x => .inr (hi x),fun hi x => ?_⟩
    rcases hi x with ⟨rfl,rfl⟩ | hx
    · rcases hi q with ⟨h,-⟩ | h
      · exact absurd h hqp
      · simp [ha] at h
    · exact hx
  · exact hgo (by simp [Plain]) ⟨hn,hsole⟩

theorem tidy_mdeleteFree (h : step s (.mdeleteFree c) = .ok t) : Tidy t := by
  obtain ⟨p,hc,h⟩ := onCpu_ok h
  split at h
  case h_2 => simp at h
  rename_i m hpc
  obtain ⟨hb,hp⟩ := tidy_active (p := p) hs (by simp [hpc, busy])
  rw [hpc] at hp
  obtain ⟨hn,hsole⟩ := hp
  obtain rfl := mdeleteFree_ok h
  have hf : Consistent (freeMux s m) :=
    consistent_congr hs.consistent rfl rfl rfl rfl rfl rfl (fun _ => rfl) hs.consistent.prio
  refine ⟨consistent_goto hf (running_awake (consistent_running hf hc)) (by simp [Plain]),hs.dead,p,
    fun q h => ?_,?_⟩
  · simpa [freeMux, h] using hb q h
  · simp only [Kernel.setPc_pc, if_true]
    intro i
    by_cases hi : i = m
    · subst hi
      simp only [freeMux, Kernel.setPc_muxes, Kernel.setMux_muxes, if_true, true_iff]
      intro q
      by_cases hq : q = p
      · exact .inl ⟨hq,trivial⟩
      · exact .inr (hsole q hq)
    · simpa [freeMux, hi] using hn i

theorem tidy_mdeleteDrop (h : step s (.mdeleteDrop c) = .ok t) : Tidy t := by
  obtain ⟨p,hc,h⟩ := onCpu_ok h
  split at h
  case h_2 => simp at h
  rename_i m hpc
  obtain ⟨hb,hp⟩ := tidy_active (p := p) hs (by simp [hpc, busy])
  rw [hpc] at hp
  cases h
  have hr : Consistent (s.setProc p { s.proc p with
      muxPtrs := fun i => if i = m then false else (s.proc p).muxPtrs i }) :=
    consistent_setProc hs.consistent _ rfl (hs.consistent.prio p)
  have hm : ∀ q i, ((ret (s.setProc p { s.proc p with
      muxPtrs := fun i => if i = m then false else (s.proc p).muxPtrs i }) p 1).proc q).muxPtrs i =
      false ↔ q = p ∧ i = m ∨ (s.proc q).muxPtrs i = false := by
    intro q i
    by_cases hq : q = p <;> by_cases hi : i = m <;> simp [ret, hq, hi]
  refine tidy_quiet (consistent_ret hr (consistent_running hr hc) _) (fun q i hd => ?_)
    (fun q => ?_) (fun i => ?_)
  · rw [hm]
    refine .inr (hs.dead q i ?_)
    by_cases hq : q = p
    · subst hq
      simpa [ret] using hd
    · simpa [ret, hq] using hd
  · by_cases hq : q = p
    · simp [ret, hq, busy]
    · simpa [ret, hq] using hb q hq
  · simp only [hm]
    exact hp i

theorem tidy_fork (hq : Quiet s) (h : step s (.fork c) = .ok t) : Tidy t := by
  have hk := step_consistent hs.consistent (a := .fork c) rfl h
  have hn := tidy_named hs hq
  obtain ⟨p,-,-,h⟩ := call_ok h
  rcases (fork_ok h).2 with rfl | ⟨np,hu,rfl⟩
  · exact tidy_routine hs hq hk (routine_trans (routine_control rfl)
      (routine_trans (routine_ret _) (routine_control rfl)))
  · refine tidy_keep (p := p) hs hn hk (fun q => ?_) rfl (fun q hd => ?_) (fun q h => ?_)
      (fun h => ?_)
    · by_cases h : q = np <;> simp [h]
    · by_cases h : q = np
      · exact .inl (h ▸ hu)
      · simpa [h] using hd
    · simpa [h] using hq q
    · simp only [Kernel.setLock_pc, Kernel.setPc_pc, if_true]
      exact h

section
omit [DecidableEq C]

/-- A forking thread that still owns its embryo: the references of the embryo
are null, so clearing them changes nothing. -/
theorem tidy_embryo (hf : Forking s p np) :
    (s.proc np).state = .embryo ∧ (s.proc np).muxPtrs = (fun _ => false) ∧ Named s ∧
      ∀ q, q ≠ p → busy (s.pc q) = false := by
  have he := hs.consistent.threads.embryo p np hf
  have hb : busy (s.pc p) = true := by
    rcases hf with h | h <;> simp [h, busy]
  obtain ⟨hb,hp⟩ := tidy_active hs hb
  refine ⟨he,funext (fun m => hs.dead np m (.inr (.inl he))),?_,hb⟩
  rcases hf with h | h <;> simpa [h, Phase] using hp

theorem tidy_forkFail (hf : Forking s p np) {r : Proc} (hr : r.muxPtrs = fun _ => false)
    (hk : Consistent (ret (s.setProc np r) p (-1))) : Tidy (ret (s.setProc np r) p (-1)) := by
  obtain ⟨he,hm,hn,hb⟩ := tidy_embryo hs hf
  refine tidy_keep (p := p) hs hn hk (fun q => ?_) rfl (fun q hd => ?_) (fun q h => ?_)
    (fun h => ?_)
  · rw [(routine_ret (s := s.setProc np r) (p := p) (-1)).muxPtrs q]
    by_cases h : q = np <;> simp [h, hr, hm]
  · by_cases h : q = np
    · exact .inr (.inl (h ▸ he))
    · have hd := (routine_ret (s := s.setProc np r) (p := p) (-1)).dead q hd
      simpa [h] using hd
  · simpa [ret, h] using hb q h
  · have hu : (ret (s.setProc np r) p (-1)).pc p = .user := by simp [ret]
    rw [hu]
    exact h

end

theorem tidy_forkCopy (h : step s (.forkCopy c) = .ok t) : Tidy t := by
  have hk := step_consistent hs.consistent (a := .forkCopy c) rfl h
  obtain ⟨p,-,h⟩ := onCpu_ok h
  split at h
  case h_2 => simp at h
  rename_i np hpc
  obtain ⟨he,hm,hn,hb⟩ := tidy_embryo hs (.inl hpc)
  cases h
  refine tidy_keep (p := p) hs hn hk (fun q => ?_) rfl (fun q hd => ?_) (fun q h => ?_)
    (fun h => ?_)
  · by_cases h : q = np <;> simp [h, hm]
  · by_cases h : q = np
    · exact .inr (.inl (h ▸ he))
    · simpa [h] using hd
  · simpa [h] using hb q h
  · simp only [Kernel.setPc_pc, if_true]
    exact h

theorem tidy_forkPublish (h : step s (.forkPublish c) = .ok t) : Tidy t := by
  have hk := step_consistent hs.consistent (a := .forkPublish c) rfl h
  obtain ⟨p,-,h⟩ := onCpu_ok h
  split at h
  case h_2 => simp at h
  rename_i np hpc
  obtain ⟨-,hm,hn,hb⟩ := tidy_embryo hs (.inr hpc)
  obtain ⟨-,u,hu,rfl⟩ := forkPublish_ok h
  have hr : Routine s u := routine_trans (routine_control rfl) (routine_makeRunnable hu)
  obtain ⟨k,-,-,rfl⟩ := makeRunnable_ok hu
  refine tidy_keep (p := p) hs hn hk hr.muxPtrs rfl hr.dead (fun q h => ?_) (fun h => ?_)
  · simp only [Kernel.setLock_pc, Kernel.setPc_pc, h, if_false]
    split
    · rfl
    · exact hb q h
  · simp only [Kernel.setLock_pc, Kernel.setPc_pc, if_true]
    exact ⟨h,by simp [Dead],fun m => by simp [hm]⟩

theorem tidy_forkShare (h : step s (.forkShare c) = .ok t) : Tidy t := by
  have hk := step_consistent hs.consistent (a := .forkShare c) rfl h
  obtain ⟨p,-,h⟩ := onCpu_ok h
  split at h
  case h_2 => simp at h
  rename_i np pid hpc
  obtain ⟨hb,hp⟩ := tidy_active (p := p) hs (by simp [hpc, busy])
  rw [hpc] at hp
  obtain ⟨hn,hlive,hm⟩ := hp
  cases h
  refine ⟨hk,fun q m hd => ?_,p,fun q h => ?_,?_⟩
  · by_cases h : q = np
    · subst h
      exact absurd (by simpa using hd) hlive
    · simpa [h] using hs.dead q m (by simpa [h] using hd)
  · simpa [h] using hb q h
  · simp only [Kernel.setPc_pc, if_true]
    intro m
    refine (hn m).trans ⟨fun hq q => ?_,fun hq q => ?_⟩
    · by_cases h : q = np <;> simp [h, hq]
    · by_cases h : q = np
      · rw [h, hm]
      · simpa [h] using hq q

theorem tidy_forkPriority (h : step s (.forkPriority c) = .ok t) : Tidy t := by
  have hk := step_consistent hs.consistent (a := .forkPriority c) rfl h
  obtain ⟨p,-,h⟩ := onCpu_ok h
  split at h
  case h_2 => simp at h
  rename_i np pid hpc
  obtain ⟨hb,hp⟩ := tidy_active (p := p) hs (by simp [hpc, busy])
  rw [hpc] at hp
  cases h
  have hr := routine_ret (s := s.setProc np { s.proc np with priority := (s.proc p).priority })
    (p := p) pid
  refine tidy_keep (p := p) hs hp hk (fun q => ?_) rfl (fun q hd => ?_) (fun q h => ?_)
    (fun h => ?_)
  · rw [hr.muxPtrs q]
    by_cases h : q = np <;> simp [h]
  · have hd := hr.dead q hd
    by_cases h : q = np
    · subst h
      simpa using hd
    · simpa [h] using hd
  · simpa [ret, h] using hb q h
  · have hu : (ret (s.setProc np { s.proc np with priority := (s.proc p).priority }) p pid).pc p =
        .user := by simp [ret]
    rw [hu]
    exact h

end

def isMutexSlotCall : Act C → Bool
  | .mcreate _ _ _ | .mdelete _ _ | .mdeleteFree _ | .mdeleteDrop _ => true
  | _ => false

def isSlotCall (a : Act C) : Bool := isProcessCall a || isMutexSlotCall a

theorem tidy_step (hs : Tidy s) {a : Act C} (ha : isSlotCall a = true) (hser : Serial s a)
    (hl : ¬Leaks s a) (h : step s a = .ok t) : Tidy t := by
  have hq : isLaterSection a = false → Quiet s := by
    intro hn p
    by_contra hb
    have := hser ⟨p,by simpa using hb⟩
    simp [hn] at this
  cases hr : isRoutine a with
  | true =>
    have hp : isProcessCall a = true ∧ isLaterSection a = false := by
      cases a <;> simp [isRoutine, isProcessCall, isLaterSection] at hr ⊢
    exact tidy_routine hs (hq hp.2) (step_consistent hs.consistent hp.1 h) (routine_step hr h)
  | false =>
    cases a <;> simp only [isSlotCall, isProcessCall, isMutexSlotCall, isRoutine, Bool.or_false,
      Bool.false_eq_true, Bool.true_eq_false] at ha hr
    case exit c => exact tidy_exit hs (hq rfl) hl h
    case mcreate c name junk => exact tidy_mcreate hs (hq rfl) hl h
    case mdelete c id => exact tidy_mdelete hs (hq rfl) h
    case mdeleteFree c => exact tidy_mdeleteFree hs h
    case mdeleteDrop c => exact tidy_mdeleteDrop hs h
    case fork c => exact tidy_fork hs (hq rfl) h
    case forkCopy c => exact tidy_forkCopy hs h
    case forkPublish c => exact tidy_forkPublish hs h
    case forkShare c => exact tidy_forkShare hs h
    case forkPriority c => exact tidy_forkPriority hs h
    case forkNoStack c | forkNoMem c =>
      have hk := step_consistent hs.consistent rfl h
      obtain ⟨p,-,h⟩ := onCpu_ok h
      split at h
      case h_2 => simp at h
      rename_i np hpc
      cases h
      exact tidy_forkFail hs (.inl hpc) (by first | rfl | exact (tidy_embryo hs (.inl hpc)).2.1) hk

/-- A step of a whole call keeps the agreement exactly when it does not leak. -/
theorem quiet_named_iff (hs : Tidy s) {a : Act C} (ha : isSlotCall a = true) (hq : Quiet s)
    (hq' : Quiet t) (h : step s a = .ok t) : Named t ↔ ¬Leaks s a := by
  have hn := tidy_named hs hq
  refine ⟨fun ht hl => ?_,fun hl => ?_⟩
  · rcases hl with ⟨c,p,q,m,rfl,hl⟩ | ⟨c,p,name,junk,m,rfl,hl⟩
    · exact (exit_named_iff hn h).mp ht (.inl ⟨c,p,q,m,rfl,hl⟩)
    · exact (mcreate_named_iff hn h).mp ht (.inr ⟨c,p,name,junk,m,rfl,hl⟩)
  · refine tidy_named (tidy_step hs ha (fun ⟨p,hp⟩ => ?_) hl h) hq'
    simp [hq p] at hp

theorem mcreate_stranger (hs : Named s) {name junk : BitVec 32} (hc : s.cpu c = some p)
    (h : step s (.mcreate c name junk) = .ok t) (hm : (t.proc p).eax = m.val) (hq : q ≠ p) :
    (t.proc q).muxPtrs m = false := by
  obtain ⟨x,hx,-,h⟩ := call_ok h
  obtain rfl := Option.some.inj (hc.symm.trans hx)
  rcases sysMcreate_ok h with ⟨rfl,-⟩ | ⟨i,hi,rfl⟩
  · simp only [ret, Kernel.setPc_proc, Kernel.setProc_proc, if_true] at hm
    omega
  · have him : i = m := by
      simp only [ret, Kernel.setPc_proc, Kernel.setProc_proc, if_true, Nat.cast_inj] at hm
      exact Fin.ext hm
    subst him
    simpa [ret, createMux, hq] using (hs i).mp hi q

theorem mdeleteFree_last (hs : Tidy s) (hc : s.cpu c = some p)
    (h : step s (.mdeleteFree c) = .ok t) (hm : (s.muxes m).name ≠ 0)
    (hm' : (t.muxes m).name = 0) :
    (s.proc p).muxPtrs m = true ∧ ∀ q, q ≠ p → (s.proc q).muxPtrs m = false := by
  obtain ⟨x,hx,h⟩ := onCpu_ok h
  obtain rfl := Option.some.inj (hc.symm.trans hx)
  split at h
  case h_2 => simp at h
  rename_i i hpc
  obtain rfl := mdeleteFree_ok h
  obtain ⟨-,hp⟩ := tidy_active (p := p) hs (by simp [hpc, busy])
  rw [hpc] at hp
  obtain ⟨hn,hsole⟩ := hp
  have him : m = i := by
    by_contra hne
    exact hm (by simpa [freeMux, hne] using hm')
  subst him
  refine ⟨?_,hsole⟩
  by_contra ha
  refine hm ((hn m).mpr (fun q => ?_))
  by_cases hq : q = p
  · rw [hq]
    simpa using ha
  · exact hsole q hq

/-- Mutex slot ownership. In a run of whole calls in which no process exits
that shares a mutex and no mutex is created under the null name, a slot is
free exactly when nobody has access to it; of the steps of whole calls exactly
the ones left out break this; a created mutex is accessible to its creator
only, and a deletion frees a slot only for the last process with access. -/
theorem slot_ownership_iff {s₀ : Kernel C} (hc : Consistent s₀) (hq : Quiet s₀) (hn : Named s₀)
    (hd : ∀ q m, Dead (s₀.proc q).state → (s₀.proc q).muxPtrs m = false)
    (h : Reaches step (fun s a => isSlotCall a = true ∧ Serial s a ∧ ¬Leaks s a) s₀ s) :
    (Quiet s → Named s) ∧
    (∀ a t, isSlotCall a = true → Quiet s → Quiet t → step s a = .ok t →
      (Named t ↔ ¬Leaks s a)) ∧
    (∀ c p name junk t m, Quiet s → s.cpu c = some p → step s (.mcreate c name junk) = .ok t →
      (t.proc p).eax = m.val → ∀ q, q ≠ p → (t.proc q).muxPtrs m = false) ∧
    ∀ c p t m, s.cpu c = some p → step s (.mdeleteFree c) = .ok t → (s.muxes m).name ≠ 0 →
      (t.muxes m).name = 0 →
      (s.proc p).muxPtrs m = true ∧ ∀ q, q ≠ p → (s.proc q).muxPtrs m = false := by
  have hs : Tidy s := reaches_invariant Tidy
    (fun _ _ _ hv ha hw => tidy_step hv ha.1 ha.2.1 ha.2.2 hw) (tidy_quiet hc hd hq hn) h
  exact ⟨tidy_named hs,fun a t ha hq hq' ht => quiet_named_iff hs ha hq hq' ht,
    fun c p name junk t m hq hc ht hm q hqp => mcreate_stranger (tidy_named hs hq) hc ht hm hqp,
    fun c p t m hc ht hm hm' => mdeleteFree_last hs hc ht hm hm'⟩

theorem solo_slots (c : C) : Quiet (solo c) ∧ Named (solo c) ∧
    ∀ q m, Dead ((solo c).proc q).state → ((solo c).proc q).muxPtrs m = false := by
  have hm : ∀ q m, ((solo c).proc q).muxPtrs m = false := by
    intro q m
    by_cases hq : q = 0 <;> simp [solo, zeroProc, hq]
  refine ⟨fun p => ?_,fun m => ?_,fun q m _ => hm q m⟩
  · by_cases hp : p = 0 <;> simp [solo, hp, busy]
  · exact ⟨fun _ q => hm q m,fun _ => rfl⟩

theorem slot_ownership_after_fork : ∃ s : Kernel (Fin 2),
    ((s.proc 1).muxPtrs 0 = true ∧ Quiet s) ∧
    (Quiet s → Named s) ∧
    (∀ a t, isSlotCall a = true → Quiet s → Quiet t → step s a = .ok t →
      (Named t ↔ ¬Leaks s a)) ∧
    (∀ c p name junk t m, Quiet s → s.cpu c = some p → step s (.mcreate c name junk) = .ok t →
      (t.proc p).eax = m.val → ∀ q, q ≠ p → (t.proc q).muxPtrs m = false) ∧
    ∀ c p t m, s.cpu c = some p → step s (.mdeleteFree c) = .ok t → (s.muxes m).name ≠ 0 →
      (t.muxes m).name = 0 →
      (s.proc p).muxPtrs m = true ∧ ∀ q, q ≠ p → (s.proc q).muxPtrs m = false := by
  obtain ⟨s,hr,hs⟩ := play_witness step
    (fun s a => isSlotCall a = true ∧ Serial s a ∧ ¬Leaks s a)
    (fun s a => isSlotCall a && decide (Serial s a) && (isLaterSection a || decide (a = .fork 0 ∨
      a = .mcreate 0 100 0 ∧ s.cpu 0 = some 0 ∧ mcreateName s 0 100 0 ≠ 0)))
    (fun s a ha => by
      simp only [Bool.and_eq_true, Bool.or_eq_true, decide_eq_true_eq] at ha
      refine ⟨ha.1.1,ha.1.2,?_⟩
      rintro (⟨c,_,_,_,rfl,-⟩ | ⟨c,p,name,junk,m,rfl,hc,-,h0⟩)
      · simp [isLaterSection] at ha
      · simp only [isLaterSection, Bool.false_eq_true, reduceCtorEq, false_or] at ha
        obtain ⟨-,he,hp,hn⟩ := ha
        obtain ⟨rfl,rfl,rfl⟩ := Act.mcreate.inj he
        obtain rfl := Option.some.inj (hp.symm.trans hc)
        exact hn h0)
    (solo (0 : Fin 2)) (List.flatten [[.mcreate 0 100 0], forkOn 0])
    (fun s => decide ((s.proc 1).muxPtrs 0 = true ∧ Quiet s)) (by decide +kernel)
  obtain ⟨hq,hn,hd⟩ := solo_slots (0 : Fin 2)
  exact ⟨s,of_decide_eq_true hs,slot_ownership_iff (consistent_solo 0) hq hn hd hr⟩

/-- The first process creates mutex 0 and forks a child, which exits. The slot
is then free although its creator still has access, and the next
`sys_mcreate`, by a process that has nothing to do with the mutex, returns the
same id. -/
theorem exit_hands_slot_over : ∃ s t : Kernel (Fin 2),
    Reaches step Serial (boot 0) s ∧ step s (.mcreate 1 200 0) = .ok t ∧
    (Quiet s ∧ (s.muxes 0).name = 0 ∧ (s.proc 0).muxPtrs 0 = true ∧ s.cpu 1 = some 1 ∧
      (s.proc 1).muxPtrs 0 = false) ∧
    (t.proc 1).eax = 0 ∧ (t.proc 1).muxPtrs 0 = true ∧ (t.proc 0).muxPtrs 0 = true := by
  obtain ⟨s,hr,hs⟩ := play_witness step Serial (fun s a => decide (Serial s a))
    (fun _ _ ha => of_decide_eq_true ha) (boot (0 : Fin 2))
    (List.flatten [startup, forkOn 0, [.schedule 1, .mcreate 0 100 0], forkOn 0,
      [.yield 1, .schedule 1, .exit 1, .schedule 1]])
    (fun s => decide (Quiet s ∧ (s.muxes 0).name = 0 ∧ (s.proc 0).muxPtrs 0 = true ∧
      s.cpu 1 = some 1 ∧ (s.proc 1).muxPtrs 0 = false) &&
      (step s (.mcreate 1 200 0)).toOption.any (fun t : Kernel (Fin 2) =>
        decide ((t.proc 1).eax = 0 ∧ (t.proc 1).muxPtrs 0 = true ∧ (t.proc 0).muxPtrs 0 = true)))
    (by decide +kernel)
  obtain ⟨h1,h2⟩ := Bool.and_eq_true_iff.mp hs
  obtain ⟨t,ht,h3⟩ := ok_of_any h2
  exact ⟨s,t,hr,ht,of_decide_eq_true h1,of_decide_eq_true h3⟩

end Xv6.SlotOwnership
