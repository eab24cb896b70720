import Xv6.ForkWindow
import Xv6.PageCalls

/-!
# What a forked child inherits

The fields of a process that `fork` is to hand on. The loop over `shmpgs` stores
through the pointers of the new slot, which hold whatever its last occupant left
there: a stale pointer leads to the same table entry, a null pointer to the
first words of the caller's memory. References and priority are copied after the
child is published.
-/

set_option autoImplicit false

namespace Xv6.ForkImage
open Function KernelState RingBuffer ReadyQueue Machine
open ProcessFrames ProcessEffects TransitionRun ForkWindow
open PageCalls (NOFILE SHM_MAXNUM FileId ShmId)

inductive Reg where
  | edi | esi | ebp | oesp | ebx | edx | ecx | gs | fs | es | ds | trapno | err | eip | cs | eflags
  | esp | ss
  deriving DecidableEq, Repr

structure Entry where
  allocated : BitVec 32
  name : BitVec 32
  pa : BitVec 32
  refCount : BitVec 32
  deriving DecidableEq, Repr

structure Image (C : Type) where
  kernel : Kernel C
  tf : Slot → Reg → BitVec 32
  ofile : Slot → Fin NOFILE → Option FileId
  cwd : Slot → Option ℕ
  shmpgs : Slot → ShmId → Bool
  shmtable : ShmId → Entry
  memory : Slot → ℕ → BitVec 32

variable {C : Type} {s t u : Image C} {p np : Slot}

def store (m : ℕ → BitVec 32) (e : Entry) : ℕ → BitVec 32 :=
  update (update (update (update m 0 e.allocated) 1 e.name) 2 e.pa) 3 e.refCount

def shareOne (p np : Slot) (s : Image C) (i : ShmId) : Image C :=
  if s.shmpgs p i then
    if s.shmpgs np i then { s with shmtable := update s.shmtable i (s.shmtable i) }
    else { s with memory := update s.memory p (store (s.memory p) (s.shmtable i)) }
  else s

def sharePages (p np : Slot) (s : Image C) : Image C :=
  (List.finRange SHM_MAXNUM).foldl (shareOne p np) s

/-- The copies of `fork` outside the process subsystem. A descriptor that is
not open in the parent is not written. -/
def inherit (s : Image C) (p np : Slot) (k : Kernel C) : Image C :=
  { s with
    kernel := k
    tf := update s.tf np (s.tf p)
    ofile := update s.ofile np fun i => (s.ofile p i).or (s.ofile np i)
    cwd := update s.cwd np (s.cwd p) }

def forkCopy (s : Image C) (p np : Slot) : Except Stop (Image C) :=
  (ProcessCalls.forkCopy (sharePages p np s).kernel p np).map (inherit (sharePages p np s) p np)

def inKernel (f : Kernel C → Except Stop (Kernel C)) (s : Image C) : Except Stop (Image C) :=
  (f s.kernel).map fun k => { s with kernel := k }

def forkPublish (s : Image C) (p np : Slot) : Except Stop (Image C) :=
  inKernel (ProcessCalls.forkPublish · p np) s

/-- The section of the larger state is the one of the process subsystem. -/
theorem forkCopy_kernel (h : forkCopy s p np = .ok t) :
    ProcessCalls.forkCopy (sharePages p np s).kernel p np = .ok t.kernel := by
  obtain ⟨k,hk,rfl⟩ := map_ok h
  exact hk

theorem inKernel_ok {f : Kernel C → Except Stop (Kernel C)} (h : inKernel f s = .ok t) :
    f s.kernel = .ok t.kernel ∧ t = { s with kernel := t.kernel } := by
  obtain ⟨k,hk,rfl⟩ := map_ok h
  exact ⟨hk,rfl⟩

section Share

theorem shareOne_eq (p np : Slot) (s : Image C) (i : ShmId) :
    ∃ m, shareOne p np s i = { s with memory := update s.memory p m } ∧
    ((s.shmpgs p i = true → s.shmpgs np i = true) → m = s.memory p) := by
  unfold shareOne
  split
  · split
    · exact ⟨s.memory p,by simp,fun _ => rfl⟩
    · rename_i hp hnp
      exact ⟨_,rfl,fun h => absurd (h hp) hnp⟩
  · exact ⟨s.memory p,by simp,fun _ => rfl⟩

theorem sharePages_eq (p np : Slot) (s : Image C) :
    ∃ m, sharePages p np s = { s with memory := update s.memory p m } ∧
      ((∀ i, s.shmpgs p i = true → s.shmpgs np i = true) → m = s.memory p) := by
  have hloop : ∀ (l : List ShmId) (s : Image C),
      ∃ m, l.foldl (shareOne p np) s = { s with memory := update s.memory p m } ∧
        ((∀ i, s.shmpgs p i = true → s.shmpgs np i = true) → m = s.memory p) := by
    intro l
    induction l with
    | nil => exact fun s => ⟨s.memory p,by simp,fun _ => rfl⟩
    | cons i l ih =>
      intro s
      obtain ⟨m,hm,hsame⟩ := shareOne_eq p np s i
      obtain ⟨m',hm',hsame'⟩ := ih (shareOne p np s i)
      refine ⟨m',?_,fun h => ?_⟩
      · rw [List.foldl_cons, hm', hm]
        simp
      · rw [hm] at hsame'
        rw [hsame' h]
        simp [hsame (h i)]
  exact hloop _ s

end Share

variable [DecidableEq C]

section Publish
variable {s₁ s₂ : Image C}

structure Undisturbed (s t : Image C) (p np : Slot) : Prop where
  proc : ∀ q, q = p ∨ q = np → t.kernel.proc q = s.kernel.proc q
  tf : ∀ q, q = p ∨ q = np → t.tf q = s.tf q
  ofile : ∀ q, q = p ∨ q = np → t.ofile q = s.ofile q
  cwd : ∀ q, q = p ∨ q = np → t.cwd q = s.cwd q
  shmpgs : ∀ q, q = p ∨ q = np → t.shmpgs q = s.shmpgs q
  memory : t.memory p = s.memory p

structure Complete (s t : Image C) (p np : Slot) : Prop where
  priority : (t.kernel.proc np).priority = (s.kernel.proc p).priority
  muxPtrs : (t.kernel.proc np).muxPtrs = (s.kernel.proc p).muxPtrs
  shmpgs : t.shmpgs np = s.shmpgs p
  ofile : t.ofile np = s.ofile p
  cwd : t.cwd np = s.cwd p
  sz : (t.kernel.proc np).sz = (s.kernel.proc p).sz
  tf : t.tf np = s.tf p ∧ (t.kernel.proc np).eax = 0
  queued : ∃ k, prioIndex (s.kernel.proc p).priority = some k ∧
    some np ∈ contents (t.kernel.ring k)
  parent : t.kernel.proc p = s.kernel.proc p ∧ t.tf p = s.tf p ∧ t.ofile p = s.ofile p ∧
    t.cwd p = s.cwd p ∧ t.shmpgs p = s.shmpgs p
  memory : t.memory p = s.memory p

structure Inheritable (s : Image C) (p np : Slot) : Prop where
  priority : (s.kernel.proc np).priority = (s.kernel.proc p).priority
  muxPtrs : ∀ m, (s.kernel.proc p).muxPtrs m = false
  shmpgs : s.shmpgs np = s.shmpgs p
  ofile : ∀ i, s.ofile p i = none → s.ofile np i = none

structure Published (s s₂ t : Image C) (p np : Slot) : Prop where
  killed : (t.kernel.proc np).killed = (s.kernel.proc np).killed
  chan : (t.kernel.proc np).chan = (s.kernel.proc np).chan
  priority : (t.kernel.proc np).priority = (s.kernel.proc np).priority
  muxPtrs : (t.kernel.proc np).muxPtrs = fun _ => false
  sz : (t.kernel.proc np).sz = (s.kernel.proc p).sz
  eax : (t.kernel.proc np).eax = 0
  tf : t.tf np = s.tf p
  ofile : t.ofile np = fun i => (s.ofile p i).or (s.ofile np i)
  cwd : t.cwd np = s.cwd p
  shmpgs : t.shmpgs np = s.shmpgs np
  parent : t.kernel.proc p = s.kernel.proc p ∧ t.tf p = s.tf p ∧ t.ofile p = s.ofile p ∧
    t.cwd p = s.cwd p ∧ t.shmpgs p = s.shmpgs p
  memory : (∀ i, s.shmpgs p i = true → s.shmpgs np i = true) → t.memory p = s.memory p
  ring : ∃ k, prioIndex (s.kernel.proc np).priority = some k ∧
    t.kernel.ring k = push (s₂.kernel.ring k) (some np)

section
variable (hne : np ≠ p) (hcopy : forkCopy s p np = .ok s₁) (hq : Undisturbed s₁ s₂ p np)
include hne hcopy hq

section
omit [DecidableEq C]

theorem published (hpub : forkPublish s₂ p np = .ok t) : Published s s₂ t p np := by
  obtain ⟨m,hm,hsame⟩ := sharePages_eq p np s
  obtain ⟨hpk,ht⟩ := inKernel_ok hpub
  obtain ⟨-,u,hu,htk⟩ := forkPublish_ok hpk
  obtain ⟨k,hk,-,rfl⟩ := makeRunnable_ok hu
  obtain ⟨j,hj,rfl⟩ := map_ok hcopy
  rw [hm] at hj
  cases hj
  have hnp := hq.proc np (.inr rfl)
  have hp := hq.proc p (.inl rfl)
  have hk' : prioIndex (s.kernel.proc np).priority = some k := by
    rw [← hk]
    simp [hnp, inherit]
  rw [ht]
  refine ⟨?_,?_,?_,?_,?_,?_,?_,?_,?_,?_,⟨?_,?_,?_,?_,?_⟩,fun h => ?_,k,hk',?_⟩
  · simp [htk, hnp, inherit]
  · simp [htk, hnp, inherit]
  · simp [htk, hnp, inherit]
  · simp [htk, hnp, inherit]
  · simp [htk, hnp, inherit]
  · simp [htk, hnp, inherit]
  · simp [hq.tf np (.inr rfl), inherit, hm]
  · simp [hq.ofile np (.inr rfl), inherit, hm]
  · simp [hq.cwd np (.inr rfl), inherit, hm]
  · simp [hq.shmpgs np (.inr rfl), inherit, hm]
  · simp [htk, hne.symm, hp, inherit]
  · simp [hq.tf p (.inl rfl), inherit, hm, hne.symm]
  · simp [hq.ofile p (.inl rfl), inherit, hm, hne.symm]
  · simp [hq.cwd p (.inl rfl), inherit, hm, hne.symm]
  · simp [hq.shmpgs p (.inl rfl), inherit, hm]
  · simp [hq.memory, inherit, hm, hsame h]
  · simp [htk]

theorem complete_iff (hroom : ∀ k, size (s₂.kernel.ring k)+1 < QSIZE)
    (hpub : forkPublish s₂ p np = .ok t) : Complete s t p np ↔ Inheritable s p np := by
  have hb := published hne hcopy hq hpub
  constructor
  · intro hc
    refine ⟨hb.priority.symm.trans hc.priority,fun m => ?_,hb.shmpgs.symm.trans hc.shmpgs,
      fun i hi => ?_⟩
    · rw [← hc.muxPtrs, hb.muxPtrs]
    · have he := congrFun (hb.ofile.symm.trans hc.ofile) i
      simpa [hi] using he
  · intro hi
    obtain ⟨k,hk,hring⟩ := hb.ring
    refine ⟨hb.priority.trans hi.priority,?_,hb.shmpgs.trans hi.shmpgs,?_,hb.cwd,hb.sz,
      ⟨hb.tf,hb.eax⟩,⟨k,?_,?_⟩,hb.parent,hb.memory fun i h => ?_⟩
    · rw [hb.muxPtrs]
      funext m
      exact (hi.muxPtrs m).symm
    · rw [hb.ofile]
      funext i
      cases ho : s.ofile p i with
      | none => simp [hi.ofile i ho]
      | some f => rfl
    · rw [← hi.priority]
      exact hk
    · rw [hring, contents_push _ _ (hroom k)]
      simp
    · rw [hi.shmpgs]
      exact h

end

end

structure Alone (k : Kernel C) (p np : Slot) : Prop where
  live : ¬Dead (k.proc p).state
  child : ∀ q, q ≠ p → target (k.pc q) ≠ some np
  parent : ∀ q, target (k.pc q) ≠ some p

omit [DecidableEq C] in
theorem published_window (hne : np ≠ p) (hcopy : forkCopy s p np = .ok s₁)
    (hq : Undisturbed s₁ s₂ p np) (hpub : forkPublish s₂ p np = .ok t)
    (hi : Inheritable s p np) (ha : Alone s₂.kernel p np) :
    Window (s.kernel.proc p).muxPtrs (s.kernel.proc p).priority p np t.kernel := by
  have hb := published hne hcopy hq hpub
  obtain ⟨-,u,hu,htk⟩ := forkPublish_ok (inKernel_ok hpub).1
  obtain ⟨k,-,-,rfl⟩ := makeRunnable_ok hu
  refine ⟨?_,?_,hb.priority.trans hi.priority,fun q hqp => ?_,?_,fun _ => ⟨?_,fun q => ?_,?_,?_⟩⟩
  · simp [htk, Dead]
  · rw [hb.muxPtrs]
    funext m
    exact (hi.muxPtrs m).symm
  · by_cases hqn : q = np
    · subst hqn
      simp [htk, hqp, target]
    · simpa [htk, hqp, hqn] using ha.child q hqp
  · simp [htk]
  · simpa [htk, hne.symm] using ha.live
  · by_cases hqp : q = p
    · subst hqp
      simpa [htk, target] using hne
    · by_cases hqn : q = np
      · subst hqn
        simp [htk, hqp, target]
      · simpa [htk, hqp, hqn] using ha.parent q
  · rw [hb.parent.1]
  · rw [hb.parent.1]

/-- The published child is complete exactly when the slot and the parent are
as `Inheritable` says; in that case it finds its parent's references and
priority whenever it starts its first system call. -/
theorem fork_publishes_complete_iff (s s₁ s₂ t : Image C) (p np : Slot) (hne : np ≠ p)
    (hcopy : forkCopy s p np = .ok s₁) (hq : Undisturbed s₁ s₂ p np)
    (hroom : ∀ k, size (s₂.kernel.ring k)+1 < QSIZE) (hpub : forkPublish s₂ p np = .ok t) :
    (Complete s t p np ↔ Inheritable s p np) ∧
    (Inheritable s p np → Alone s₂.kernel p np → ∀ u,
      Reaches step (fun k a => isWindowCall a = true ∧ ¬Acts k a np) t.kernel u →
      (u.proc np).muxPtrs = (s.kernel.proc p).muxPtrs ∧
        (u.proc np).priority = (s.kernel.proc p).priority) := by
  refine ⟨complete_iff hne hcopy hq hroom hpub,fun hi ha u hu => ?_⟩
  have hw := window_reaches (published_window hne hcopy hq hpub hi ha) hne hu
  exact ⟨hw.muxPtrs,hw.priority⟩

def plain (k : Kernel C) : Image C :=
  { kernel := k
    tf := fun _ _ => 0
    ofile := fun _ _ => none
    cwd := fun _ => none
    shmpgs := fun _ _ => false
    shmtable := fun _ => ⟨0,0,0,0⟩
    memory := fun _ _ => 0 }

def console (f : FileId) (s : Image C) : Image C :=
  { s with
    tf := update s.tf 0 fun _ => 64
    ofile := update s.ofile 0 fun i => if i.val < 3 then some f else none
    cwd := update s.cwd 0 (some 1) }

def named (s : Image C) : Image C := { s with shmtable := fun _ => ⟨1,9,0,1⟩ }

omit [DecidableEq C] in
theorem undisturbed_refl (s : Image C) (p np : Slot) : Undisturbed s s p np :=
  ⟨fun _ _ => rfl,fun _ _ => rfl,fun _ _ => rfl,fun _ _ => rfl,fun _ _ => rfl,rfl⟩

/-- The first process, with the console open, forks into a slot that was never
used, and another process names shared pages before the child is published. -/
theorem fork_publishes_complete_first : ∃ s s₁ t : Image (Fin 2),
    s.ofile 0 2 = some 7 ∧ forkCopy s 0 1 = .ok s₁ ∧ forkPublish (named s₁) 0 1 = .ok t ∧
    Complete s t 0 1 ∧
    ∀ u, Reaches step (fun k a => isWindowCall a = true ∧ ¬Acts k a 1) t.kernel u →
      (u.proc 1).muxPtrs = (s.kernel.proc 0).muxPtrs ∧
        (u.proc 1).priority = (s.kernel.proc 0).priority := by
  obtain ⟨k,-,hg⟩ := ok_of_any (x := ProcessCalls.fork (solo (0 : Fin 2)) 0)
    (g := fun k => (forkCopy (console 7 (plain k)) 0 1).toOption.any fun s₁ =>
      (forkPublish (named s₁) 0 1).toOption.any fun _ =>
        decide (((∀ i : Fin PRIO_MAX, size (s₁.kernel.ring i)+1 < QSIZE) ∧
          (k.proc 1).priority = (k.proc 0).priority ∧
          ∀ m : MuxId, (k.proc 0).muxPtrs m = false) ∧ ¬Dead (s₁.kernel.proc 0).state ∧
          ∀ q : Slot, (q ≠ 0 → target (s₁.kernel.pc q) ≠ some 1) ∧
            target (s₁.kernel.pc q) ≠ some 0)) (by decide +kernel)
  obtain ⟨s₁,hcopy,hg⟩ := ok_of_any hg
  obtain ⟨t,hpub,hg⟩ := ok_of_any hg
  obtain ⟨⟨hroom,hprio,hmux⟩,hlive,halone⟩ := of_decide_eq_true hg
  have hi : Inheritable (console 7 (plain k)) 0 1 := ⟨hprio,hmux,rfl,fun _ _ => rfl⟩
  obtain ⟨hiff,hchild⟩ := fork_publishes_complete_iff (console 7 (plain k)) s₁ (named s₁) t 0 1
    (by decide) hcopy ⟨fun _ _ => rfl,fun _ _ => rfl,fun _ _ => rfl,fun _ _ => rfl,fun _ _ => rfl,
    rfl⟩ hroom hpub
  exact ⟨console 7 (plain k),s₁,t,rfl,hcopy,hpub,hiff.mpr hi,
    hchild hi ⟨hlive,fun q => (halone q).1,fun q => (halone q).2⟩⟩

/-- The first process lowers its priority to 5 and forks: the child is queued
with priority 0. -/
theorem child_published_with_stale_priority : ∃ (k : Kernel (Fin 2)) (s₁ t : Image (Fin 2)),
    Reaches step (fun _ _ => True) (boot 0) k ∧ forkCopy (plain k) 0 1 = .ok s₁ ∧
      forkPublish s₁ 0 1 = .ok t ∧ (k.proc 0).priority = 5 ∧
      some 1 ∈ contents (t.kernel.ring 0) ∧ ¬Complete (plain k) t 0 1 := by
  obtain ⟨k,hr,hg⟩ := play_witness step (fun _ _ => True) (fun _ _ => true) (fun _ _ _ => trivial)
    (boot (0 : Fin 2)) (List.flatten [startup, [.prioSet 0 1 5, .fork 0]])
    (fun k => (forkCopy (plain k) 0 1).toOption.any fun s₁ =>
      (forkPublish s₁ 0 1).toOption.any fun t => (k.proc 0).priority = 5 ∧
        some 1 ∈ contents (t.kernel.ring 0) ∧ (t.kernel.proc 1).priority = 0)
    (by decide +kernel)
  obtain ⟨s₁,hcopy,hg⟩ := ok_of_any hg
  obtain ⟨t,hpub,hg⟩ := ok_of_any hg
  obtain ⟨hfive,hmem,hzero⟩ := of_decide_eq_true hg
  refine ⟨k,s₁,t,hr,hcopy,hpub,hfive,hmem,fun hc => ?_⟩
  have he : (t.kernel.proc 1).priority = (k.proc 0).priority := hc.priority
  rw [hzero, hfive] at he
  exact absurd he (by decide)

end Publish

end Xv6.ForkImage
