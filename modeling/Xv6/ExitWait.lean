import Xv6.FamilyRuns

/-!
# Exit and wait

The protocol between a process that exits and the parent that waits for it,
over every interleaving of the sections of fork, exit, wait and kill, read
off the ledger that goes along with the run.
-/

set_option autoImplicit false

namespace Xv6.ExitWait
open KernelState ProcessCalls Machine TransitionRun ProcessFrames
open ProcessEffects Kinship FamilyTree FamilyRuns

variable {C : Type} [DecidableEq C] {s t : Kernel C} {c : C} {p q : Slot} {l : Ledger}

def ParentOf (s : Kernel C) (l : Ledger) (a b : ℤ) : Prop :=
  l.origin a = some b ∨
    ∃ i o, s.initproc = some i ∧ b = (s.proc i).pid ∧ l.origin a = some o ∧ o ∈ l.exited

def Mourned (s : Kernel C) (l : Ledger) (v : ℤ) : Prop :=
  ∃ q r, (s.proc q).state = .zombie ∧ (s.proc q).pid = v ∧
    (∀ x, (s.proc x).state = .zombie → (s.proc x).pid = v → x = q) ∧
    (s.proc q).parent = some r ∧ phase (s.proc r).state = .live ∧
    ParentOf s l v (s.proc r).pid

def isWait (c : C) (a : Act C) : Prop := a = .wait c ∨ a = .waitScan c

omit [DecidableEq C] in
theorem mourned (hs : Kept s l) {v : ℤ} (hv : v ∈ l.exited) (hn : v ∉ l.reaped.map Prod.fst) :
    Mourned s l v := by
  obtain ⟨q,hz,hq⟩ := ((hs.booked.exits v hv).2).resolve_left hn
  have hz : phase (s.proc q).state = .zombie := hz
  have hq : (s.proc q).pid = v := hq
  have hun : ∀ x, phase (s.proc x).state = .zombie → (view s l).phase x ≠ .unused :=
    fun x hx => held (.inr hx)
  cases hp : (s.proc q).parent with
  | none =>
    have hroot := hs.forest.rooted q (.inr hz) hp
    rcases hs.forest.alone q hroot with h | ⟨h,-⟩
    · simp [show phase (s.proc q).state = .live from h] at hz
    · simp [show phase (s.proc q).state = .embryo from h] at hz
  | some r =>
    refine ⟨q,r,phase_zombie.mp hz,hq,fun x hx hxv => ?_,hp,(hs.forest.parents q r hp).1,?_⟩
    · exact hs.forest.unique x q (hun x (phase_zombie.mpr hx)) (hun q hz) (hxv.trans hq.symm)
    · rcases hs.booked.forked q r (.inr hz) hp with h | ⟨h,o,ho,hx⟩
      · exact .inl (hq ▸ h)
      · exact .inr ⟨r,o,h,rfl,hq ▸ ho,hx⟩

theorem wait_section {a : Act C} (ha : isWait c a) (h : step s a = .ok t) :
    ∃ p k, s.cpu c = some p ∧ waitScan (s.setLock k) c p = .ok t := by
  rcases ha with rfl | rfl
  · obtain ⟨p,hc,-,h⟩ := call_ok h
    exact ⟨p,some p,hc,(acquire_then h).2⟩
  · obtain ⟨p,hc,h⟩ := onCpu_ok h
    split at h
    · exact ⟨p,s.lock,hc,h⟩
    · simp at h

/-- A `wait` that returns -1 has no child to wait for, or has been killed. -/
theorem wait_fails (hs : Kept s l) {a : Act C} (ha : isWait c a) (hc : s.cpu c = some p)
    (h : step s a = .ok t) (hu : t.pc p = .user) (he : (t.proc p).eax = -1) :
    (∀ x, (s.proc x).parent ≠ some p) ∨ (s.proc p).killed = true := by
  obtain ⟨p',k,hc',h⟩ := wait_section ha h
  obtain rfl : p = p' := Option.some.inj (hc.symm.trans hc')
  rcases waitScan_ok h with ⟨q,hz,-,rfl⟩ | ⟨-,hk⟩ | ⟨hd,-⟩
  · have hz : (s.proc q).state = .zombie := hz
    have hpos : 0 < (s.proc q).pid := (hs.forest.pids q (by simp [view, hz, phase])).1
    have he : (s.proc q).pid = -1 := by simpa [ret] using he
    omega
  · exact hk
  · simp [sleepOn_pc hd] at hu

/-- The exit/wait protocol, in every state that any interleaving of fork,
exit, wait, kill and the scheduler reaches from the boot: who exited and was
not returned is a zombie in exactly one slot under a live parent, its own or
the first process; an id is returned once, to that parent; nobody sleeps in
`wait` with a zombie child; and `wait` returns -1 only to a process without
a child or to one that was killed. -/
theorem exit_wait_protocol
    (h : Reaches booked (fun _ a => isFamilyCall a = true) (boot c,noEntries) (s,l)) :
    (∀ v ∈ l.exited, v ∉ l.reaped.map Prod.fst → Mourned s l v) ∧
    (l.reaped.map Prod.fst).Nodup ∧
    (∀ e ∈ l.reaped, e.1 ∈ l.exited ∧ ParentOf s l e.1 e.2) ∧
    (∀ q x, s.pc q = .waiting → (s.proc q).state = .sleeping → (s.proc x).parent = some q →
      (s.proc x).state ≠ .zombie) ∧
    (∀ d p a t, isWait d a → s.cpu d = some p → step s a = .ok t → t.pc p = .user →
      (t.proc p).eax = -1 → (∀ x, (s.proc x).parent ≠ some p) ∨ (s.proc p).killed = true) := by
  have hs := kept_reaches h
  refine ⟨fun v hv hn => mourned hs hv hn,hs.booked.once,hs.booked.returned,
    fun q x hq hz hx he => ?_,fun d p a t ha hc ht hu he => wait_fails hs ha hc ht hu he⟩
  exact (hs.linked.restful q ⟨hq,hz⟩).2 x hx (phase_zombie.mpr he)

/-- A run in which the first process forks two children, one exits while the
parent sleeps in `wait` and is returned to it, and the other is a zombie. -/
theorem exit_wait_two_children : ∃ (s : Kernel (Fin 2)) (l : Ledger),
    Reaches booked (fun _ a => isFamilyCall a = true) (boot 0,noEntries) (s,l) ∧
    l.reaped = [(2,1)] ∧ l.exited = [3,2] ∧ Mourned s l 3 := by
  obtain ⟨⟨s,l⟩,hr,hg⟩ := play_witness booked (fun _ a => isFamilyCall a = true)
    (fun _ a => isFamilyCall a) (fun _ _ h => h) (boot (0 : Fin 2),noEntries)
    (List.flatten [startup, forkOn 0, forkOn 0, [.wait 0, .schedule 1, .schedule 0, .exit 1,
      .schedule 1, .waitScan 1, .exit 0]])
    (fun x : Kernel (Fin 2) × Ledger => decide (x.2.reaped = [(2,1)]) &&
      decide (x.2.exited = [3,2])) (by decide +kernel)
  simp only [Bool.and_eq_true, decide_eq_true_eq] at hg
  refine ⟨s,l,hr,hg.1,hg.2,(exit_wait_protocol hr).1 3 ?_ ?_⟩
  · simp [hg.2]
  · simp [hg.1]

end Xv6.ExitWait
