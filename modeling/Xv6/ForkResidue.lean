import Xv6.ForkImage

/-!
# What a reused slot hands to the next process

Two kernels that differ only in what earlier processes left in unused slots. The
children of a fork in each agree exactly when the slot held the same priority,
shared pages, channel and open files. A killed mark is left there by `kill(0)`,
since unused slots have the pid 0.
-/

set_option autoImplicit false

namespace Xv6.ForkResidue
open Function KernelState RingBuffer ReadyQueue ProcessCalls Machine
open ProcessFrames ProcessEffects TransitionRun
open ForkImage (Image inKernel inKernel_ok sharePages_eq plain console)
open PageCalls (NOFILE SHM_MAXNUM FileId ShmId)

variable {C : Type} {s s' t t' v v' : Image C} {p np np' : Slot}

def forkChild (s : Image C) (p : Slot) : Except Stop (Option (Slot × Image C × Image C)) := do
  let s ← inKernel (fork · p) s
  match s.kernel.pc p with
  | .forkAlloc np => do
    let s ← ForkImage.forkCopy s p np
    let t ← ForkImage.forkPublish s p np
    let pid := (t.kernel.proc np).pid
    let u ← inKernel (forkShare · p np pid) t
    let v ← inKernel (forkPriority · p np pid) u
    .ok (some (np,t,v))
  | _ => .ok none

def firstUnused (k : Kernel C) : Option Slot :=
  findSlot fun q => decide ((k.proc q).state = .unused)

structure Agrees (s s' : Image C) (p : Slot) : Prop where
  caller : s'.kernel.proc p = s.kernel.proc p
  tf : s'.tf p = s.tf p
  ofile : s'.ofile p = s.ofile p
  cwd : s'.cwd p = s.cwd p
  shmpgs : s'.shmpgs p = s.shmpgs p
  nextpid : s'.kernel.nextpid = s.kernel.nextpid
  unused : ∀ q, (s'.kernel.proc q).state = .unused ↔ (s.kernel.proc q).state = .unused

structure Child (s t v : Image C) (p np : Slot) : Prop where
  slot : firstUnused s.kernel = some np
  killed : (v.kernel.proc np).killed = (s.kernel.proc np).killed
  enqueued : (t.kernel.proc np).priority = (s.kernel.proc np).priority
  priority : (v.kernel.proc np).priority = (s.kernel.proc p).priority
  shmpgs : v.shmpgs np = s.shmpgs np
  muxPtrs : (v.kernel.proc np).muxPtrs = (s.kernel.proc p).muxPtrs
  ofile : v.ofile np = fun i => (s.ofile p i).or (s.ofile np i)
  chan : (v.kernel.proc np).chan = (s.kernel.proc np).chan
  ring : ∃ k, prioIndex (s.kernel.proc np).priority = some k ∧
    t.kernel.ring k = push (s.kernel.ring k) (some np)

theorem fork_pc {k j : Kernel C} (hne : (k.proc p).state ≠ .unused) (hpc : j.pc p = .forkAlloc np)
    (h : fork k p = .ok j) : firstUnused k = some np ∧ np ≠ p ∧ j.ring = k.ring ∧
      j.proc p = k.proc p ∧ ∃ pid, j.proc np =
        { k.proc np with state := .embryo, pid := pid } := by
  obtain ⟨-,h⟩ := acquire_then h
  unfold allocproc at h
  cases hf : firstUnused k with
  | none =>
    have hf' : findSlot (fun q => decide (((k.setLock (some p)).proc q).state = .unused)) =
      none := hf
    rw [hf'] at h
    cases h
    simp [ret] at hpc
  | some z =>
    have hf' : findSlot (fun q => decide (((k.setLock (some p)).proc q).state = .unused)) =
      some z := hf
    rw [hf'] at h
    cases h
    have hz : (k.proc z).state = .unused := by simpa using findSlot_some hf
    have hzp : z ≠ p := by
      rintro rfl
      exact hne hz
    obtain rfl : z = np := by simpa using hpc
    exact ⟨rfl,hzp,rfl,by simp [hzp.symm],k.nextpid,by simp⟩

/-- The late copies of `fork`, after the child is published. -/
theorem late_copies {pid : ℤ} (hne : np ≠ p) (h1 : inKernel (forkShare · p np pid) t = .ok s')
    (h2 : inKernel (forkPriority · p np pid) s' = .ok v) :
    (v.kernel.proc np).killed = (t.kernel.proc np).killed ∧
    (v.kernel.proc np).chan = (t.kernel.proc np).chan ∧
    (v.kernel.proc np).muxPtrs = (t.kernel.proc p).muxPtrs ∧
    (v.kernel.proc np).priority = (t.kernel.proc p).priority ∧
    v.shmpgs = t.shmpgs ∧ v.ofile = t.ofile := by
  obtain ⟨hk1,hu⟩ := inKernel_ok h1
  obtain ⟨hk2,hv⟩ := inKernel_ok h2
  have hk1 := (Except.ok.inj hk1).symm
  have hk2 := (Except.ok.inj hk2).symm
  refine ⟨?_,?_,?_,?_,by rw [hv, hu],by rw [hv, hu]⟩
  all_goals
    rw [hk2, hk1]
    simp [ret, hne, hne.symm]

variable [DecidableEq C]

omit [DecidableEq C] in
theorem forkChild_child (hne : (s.kernel.proc p).state ≠ .unused)
    (h : forkChild s p = .ok (some (np,t,v))) : Child s t v p np := by
  obtain ⟨s₀,h₀,h⟩ := bind_ok h
  split at h
  · rename_i z hz
    obtain ⟨s1,h1,h⟩ := bind_ok h
    obtain ⟨t1,h2,h⟩ := bind_ok h
    obtain ⟨u,h3,h⟩ := bind_ok h
    obtain ⟨w,h4,h⟩ := bind_ok h
    obtain ⟨rfl,htw⟩ := Prod.mk.inj (Option.some.inj (Except.ok.inj h))
    obtain ⟨rfl,rfl⟩ := Prod.mk.inj htw
    obtain ⟨hk₀,hs₀⟩ := inKernel_ok h₀
    obtain ⟨hslot,hzp,hring,hp,pid,hnp⟩ := fork_pc hne hz hk₀
    have hb := ForkImage.published hzp h1 (ForkImage.undisturbed_refl s1 p z) h2
    obtain ⟨hkill,hchan,hmux,hprio,hshm,hof⟩ := late_copies hzp h3 h4
    have hring₁ : s1.kernel.ring = s.kernel.ring := by
      have hk1 := (Except.ok.inj (ForkImage.forkCopy_kernel h1)).symm
      obtain ⟨m,hm,-⟩ := sharePages_eq p z s₀
      rw [hk1, hm, ← hring]
      rfl
    obtain ⟨k,hk,hpush⟩ := hb.ring
    refine ⟨hslot,?_,?_,?_,?_,?_,?_,?_,k,?_,?_⟩
    · rw [hkill, hb.killed, hnp]
    · rw [hb.priority, hnp]
    · rw [hprio, hb.parent.1, hp]
    · rw [hshm, hb.shmpgs, hs₀]
    · rw [hmux, hb.parent.1, hp]
    · rw [hof, hb.ofile, hs₀]
    · rw [hchan, hb.chan, hnp]
    · rw [← hk, hnp]
    · rw [hpush, hring₁]
  · cases Except.ok.inj h

structure NoResidue (s s' t t' v v' : Image C) (np np' : Slot) : Prop where
  slot : np' = np
  killed : (v'.kernel.proc np').killed = (v.kernel.proc np).killed
  enqueued : (t'.kernel.proc np').priority = (t.kernel.proc np).priority
  priority : (v'.kernel.proc np').priority = (v.kernel.proc np).priority
  shmpgs : v'.shmpgs np' = v.shmpgs np
  muxPtrs : (v'.kernel.proc np').muxPtrs = (v.kernel.proc np).muxPtrs
  ofile : v'.ofile np' = v.ofile np
  chan : (v'.kernel.proc np').chan = (v.kernel.proc np).chan
  placed : ∃ k, t.kernel.ring k = push (s.kernel.ring k) (some np) ∧
    t'.kernel.ring k = push (s'.kernel.ring k) (some np')
  unkilled : (v.kernel.proc np).killed = false

structure SameLeftovers (s s' : Image C) (p np : Slot) : Prop where
  unkilled : (s.kernel.proc np).killed = false ∧ (s'.kernel.proc np).killed = false
  priority : (s'.kernel.proc np).priority = (s.kernel.proc np).priority
  shmpgs : s'.shmpgs np = s.shmpgs np
  ofile : ∀ i, s.ofile p i = none → s'.ofile np i = s.ofile np i
  chan : (s'.kernel.proc np).chan = (s.kernel.proc np).chan

section
omit [DecidableEq C]

theorem firstUnused_agrees (h : Agrees s s' p) : firstUnused s'.kernel = firstUnused s.kernel := by
  have hf : (fun q => decide ((s'.kernel.proc q).state = .unused)) =
      fun q => decide ((s.kernel.proc q).state = .unused) :=
    funext fun q => decide_eq_decide.mpr (h.unused q)
  rw [firstUnused, hf, firstUnused]

/-- Two forks in kernels that agree but for the unused slots give the same
child, not killed, exactly when the slot they take holds the same leftovers
in both and no mark. -/
theorem no_residue_iff (s s' t t' v v' : Image C) (p np np' : Slot) (ha : Agrees s s' p)
    (hne : (s.kernel.proc p).state ≠ .unused) (h : forkChild s p = .ok (some (np,t,v)))
    (h' : forkChild s' p = .ok (some (np',t',v'))) :
    NoResidue s s' t t' v v' np np' ↔ SameLeftovers s s' p np := by
  have hc := forkChild_child hne h
  have hc' := forkChild_child (by rw [ha.caller]; exact hne) h'
  obtain rfl : np' = np := by
    have he := hc'.slot
    rw [firstUnused_agrees ha, hc.slot] at he
    exact (Option.some.inj he).symm
  constructor
  · intro hn
    refine ⟨⟨hc.killed.symm.trans hn.unkilled,?_⟩,?_,?_,fun i hi => ?_,?_⟩
    · rw [← hc'.killed, hn.killed]
      exact hn.unkilled
    · rw [← hc'.enqueued, hn.enqueued, hc.enqueued]
    · rw [← hc'.shmpgs, hn.shmpgs, hc.shmpgs]
    · have he := congrFun (hc'.ofile.symm.trans (hn.ofile.trans hc.ofile)) i
      simpa [ha.ofile, hi] using he
    · rw [← hc'.chan, hn.chan, hc.chan]
  · intro hl
    obtain ⟨k,hk,hpush⟩ := hc.ring
    obtain ⟨k',hk',hpush'⟩ := hc'.ring
    obtain rfl : k' = k := by
      rw [hl.priority, hk] at hk'
      exact (Option.some.inj hk').symm
    refine ⟨rfl,?_,?_,?_,?_,?_,?_,?_,⟨k',hpush,hpush'⟩,hc.killed.trans hl.unkilled.1⟩
    · rw [hc.killed, hc'.killed, hl.unkilled.1, hl.unkilled.2]
    · rw [hc.enqueued, hc'.enqueued, hl.priority]
    · rw [hc.priority, hc'.priority, ha.caller]
    · rw [hc.shmpgs, hc'.shmpgs, hl.shmpgs]
    · rw [hc.muxPtrs, hc'.muxPtrs, ha.caller]
    · rw [hc.ofile, hc'.ofile, ha.ofile]
      funext i
      cases ho : s.ofile p i with
      | none => simp [hl.ofile i ho]
      | some f => rfl
    · rw [hc.chan, hc'.chan, hl.chan]

end

omit [DecidableEq C] in
theorem forkChild_one {g : Image C → Bool}
    (h : (forkChild s p).toOption.any (fun r => r.any fun x => x.1 = 1 && g x.2.2) = true) :
    ∃ t v, forkChild s p = .ok (some (1,t,v)) ∧ g v = true := by
  obtain ⟨r,hr,hx⟩ := ok_of_any h
  obtain ⟨⟨np,t,v⟩,rfl,hv⟩ := (Option.any_eq_true _ _).mp hx
  obtain ⟨hnp,hv⟩ := Bool.and_eq_true_iff.mp hv
  obtain rfl : np = 1 := of_decide_eq_true hnp
  exact ⟨t,v,hr,hv⟩

/-- The first process forks, with the console open, in two kernels: in the
second one the slot still has a file where the console's descriptors go. -/
theorem no_residue_clean_slot : ∃ s s' t t' v v' : Image (Fin 2),
    s.ofile 1 0 = none ∧ s'.ofile 1 0 = some 9 ∧ forkChild s 0 = .ok (some (1,t,v)) ∧
    forkChild s' 0 = .ok (some (1,t',v')) ∧ NoResidue s s' t t' v v' 1 1 := by
  let s := console 7 (plain (solo (0 : Fin 2)))
  let s' := { s with
    ofile := Function.update s.ofile 1 fun i => if i.val < 3 then some 9 else none }
  obtain ⟨t,v,hr,-⟩ := forkChild_one (s := s) (p := 0) (g := fun _ => true) (by decide +kernel)
  obtain ⟨t',v',hr',-⟩ := forkChild_one (s := s') (p := 0) (g := fun _ => true)
    (by decide +kernel)
  refine ⟨s,s',t,t',v,v',rfl,rfl,hr,hr',?_⟩
  refine (no_residue_iff s s' t t' v v' 0 1 1 ⟨rfl,rfl,rfl,rfl,rfl,rfl,fun _ => Iff.rfl⟩
    (by decide) hr hr').mpr ⟨⟨rfl,rfl⟩,rfl,rfl,fun i hi => ?_,rfl⟩
  have h3 : ¬i.val < 3 := by
    intro h
    simp [s, console, h] at hi
  simp [s', s, console, h3, plain]

omit [DecidableEq C] in
theorem kill_agrees {k k' : Kernel C} {q : Slot} {pid : ℤ}
    (hfind : findSlot (fun x => decide ((k.proc x).pid = pid)) = some q)
    (hun : (k.proc q).state = .unused) (heax : (k.proc p).eax = 0) (hpq : p ≠ q)
    (h : kill k p pid = .ok k') : Agrees (plain k) (plain k') p := by
  obtain ⟨-,h⟩ := acquire_then h
  have hfind' : findSlot (fun x => decide (((k.setLock (some p)).proc x).pid = pid)) = some q :=
    hfind
  rw [hfind'] at h
  obtain ⟨u,hu,h⟩ := bind_ok h
  cases h
  have hns : ¬((k.setLock (some p)).proc q).state = .sleeping := by
    show ¬(k.proc q).state = .sleeping
    simp [hun]
  simp only [markKilled, if_neg hns] at hu
  cases hu
  refine ⟨?_,rfl,rfl,rfl,rfl,rfl,fun x => ?_⟩
  · show ((ret _ p 0).setLock none).proc p = k.proc p
    simp only [ret, Kernel.setLock_proc, Kernel.setPc_proc, Kernel.setProc_proc, if_true,
      if_neg hpq]
    rw [← heax]
  · show (((ret _ p 0).setLock none).proc x).state = .unused ↔ (k.proc x).state = .unused
    by_cases hx : x = p
    · subst hx
      simp [ret, hpq]
    · by_cases hxq : x = q
      · subst hxq
        simp [ret, hx]
      · simp [ret, hx, hxq]

/-- A `kill(0)` before the fork: the same fork gives a killed child. -/
theorem child_born_killed : ∃ (k k' : Kernel (Fin 2)) (t t' v v' : Image (Fin 2)),
    Reaches step (fun _ _ => True) (boot 0) k ∧ step k (.kill 0 0) = .ok k' ∧
      Agrees (plain k) (plain k') 0 ∧ forkChild (plain k) 0 = .ok (some (1,t,v)) ∧
      forkChild (plain k') 0 = .ok (some (1,t',v')) ∧ (v'.kernel.proc 1).killed = true ∧
      ¬NoResidue (plain k) (plain k') t t' v v' 1 1 := by
  obtain ⟨k,hreach,hg⟩ := play_witness step (fun _ _ => True) (fun _ _ => true)
    (fun _ _ _ => trivial) (boot (0 : Fin 2)) startup
    (fun k => k.cpu 0 = some 0 && (k.proc 0).eax = 0 &&
      findSlot (fun q => decide ((k.proc q).pid = 0)) = some 1 &&
      (k.proc 1).state = .unused &&
      ((forkChild (plain k) 0).toOption.any fun r => r.any fun x =>
        x.1 = 1 && !(x.2.2.kernel.proc 1).killed) &&
      (step k (.kill 0 0)).toOption.any fun k' =>
        (forkChild (plain k') 0).toOption.any fun r => r.any fun x =>
          x.1 = 1 && (x.2.2.kernel.proc 1).killed) (by decide +kernel)
  simp only [Bool.and_eq_true, decide_eq_true_eq] at hg
  obtain ⟨⟨⟨⟨⟨hcpu,heax⟩,hfind⟩,hun⟩,hfork⟩,hkill⟩ := hg
  obtain ⟨t,v,hr,hv⟩ := forkChild_one (g := fun v => !(v.kernel.proc 1).killed) hfork
  obtain ⟨k',hk',hfork'⟩ := ok_of_any hkill
  obtain ⟨t',v',hr',hv'⟩ := forkChild_one (g := fun v => (v.kernel.proc 1).killed) hfork'
  simp only [Bool.not_eq_true'] at hv
  have hagree : Agrees (plain k) (plain k') 0 := by
    obtain ⟨p,hc,-,h⟩ := call_ok hk'
    obtain rfl := Option.some.inj (hcpu.symm.trans hc)
    exact kill_agrees hfind hun heax (by decide) h
  refine ⟨k,k',t,t',v,v',hreach,hk',hagree,hr,hr',hv',fun hn => ?_⟩
  have he := hn.killed
  rw [hv, hv'] at he
  cases he

end Xv6.ForkResidue
