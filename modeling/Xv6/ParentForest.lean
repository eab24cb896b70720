import Xv6.FamilyRuns

/-!
# The parent links form a forest

Slots are recycled, so the links alone do not show that a walk up the
ancestry ends. The process ids do: they fall along every link, down to the
first process, whose id stops the walk of `sys_prio_set`.
-/

set_option autoImplicit false

namespace Xv6.ParentForest
open KernelState ProcessCalls Machine TransitionRun Kinship FamilyTree
open FamilyRuns

variable {C : Type} [DecidableEq C] {s : Kernel C} {c : C} {p q x i : Slot} {l : List Slot}

def Occupied (x : ProcState) : Prop := x ≠ .unused ∧ x ≠ .embryo

instance (x : ProcState) : Decidable (Occupied x) := inferInstanceAs (Decidable (_ ∧ _))

theorem occupied_phase {x : ProcState} :
    Occupied x ↔ phase x = .live ∨ phase x = .zombie := by
  cases x <;> simp [Occupied, phase]

def parent (s : Kernel C) (q : Slot) : Option Slot := (s.proc q).parent

theorem family_exists (h : Reaches step (fun _ a => isFamilyCall a = true) (boot c) s) :
    ∃ l, Kept s l := by
  refine reaches_invariant (fun s => ∃ l, Kept s l) ?_ ⟨noEntries,kept_boot c⟩ h
  rintro s a t ⟨l,hs⟩ ha ht
  exact ⟨record s a t l,kept_step hs ha ht⟩

section
omit [DecidableEq C]

theorem climbs {b : Ledger} (hf : Forest (view s b)) (hq : Occupied (s.proc q).state) :
    ∃ i l, s.initproc = some i ∧ Climb (parent s) q l i ∧ l.Nodup ∧
      ∀ x ∈ l, Occupied (s.proc x).state := by
  cases hr : s.initproc with
  | none =>
    have hu : phase (s.proc q).state = .unused := (hf.empty hr).2 q
    exact absurd (phase_unused.mp hu) hq.1
  | some i =>
    have hheld : ∀ x, Occupied (s.proc x).state → (view s b).phase x ≠ .unused :=
      fun x hx => held (occupied_phase.mp hx)
    have hup : ∀ x, Occupied (s.proc x).state → x ≠ i → ∃ y, parent s x = some y ∧
        Occupied (s.proc y).state ∧ (s.proc y).pid < (s.proc x).pid := by
      intro x hx hne
      cases hp : parent s x with
      | none =>
        have hroot := hf.rooted x (occupied_phase.mp hx) hp
        exact absurd (Option.some.inj (hroot.symm.trans hr)) hne
      | some r =>
        obtain ⟨hl,hlt⟩ := hf.parents x r hp
        exact ⟨r,rfl,occupied_phase.mpr (.inl hl),hlt⟩
    obtain ⟨l,hc⟩ := climb_exists (fun x => (s.proc x).pid) (fun x => Occupied (s.proc x).state) i
      (fun x hx => (hf.pids x (hheld x hx)).1) hup q hq
    exact ⟨i,l,rfl,hc⟩

theorem isAncestor_total (hc : Climb (parent s) x l i) (hi : (s.proc i).pid ≤ 1) (n : ℕ)
    (hn : l.length ≤ n) : ∃ b, isAncestor s p n (some x) = .ok b := by
  induction hc generalizing n with
  | here x =>
    cases n with
    | zero => simp at hn
    | succ n =>
      rw [isAncestor, if_neg (by omega)]
      exact ⟨false,rfl⟩
  | @up x y r l link rest ih =>
    cases n with
    | zero => simp at hn
    | succ n =>
      rw [isAncestor]
      have hlink : (s.proc x).parent = some y := link
      split
      · split
        · exact ⟨true,rfl⟩
        · rw [hlink]
          exact ih hi n (by simpa using hn)
      · exact ⟨false,rfl⟩

end

/-- The parent forest. In every state that the process calls, the scheduler
and `userinit` reach, the parent links lead from every published process to
the first one, over published processes only and over none twice; so the
walk of `sys_prio_set` from the parent of a live process ends with an answer. -/
theorem parent_forest (h : Reaches step (fun _ a => isFamilyCall a = true) (boot c) s)
    (hq : Occupied (s.proc q).state) :
    (∃ i l, s.initproc = some i ∧ Climb (parent s) q l i ∧ l.Nodup ∧
      ∀ x ∈ l, Occupied (s.proc x).state) ∧
    (s.initproc ≠ some q →
      ∀ p, ∃ b, isAncestor s p (NPROC+1) (s.proc q).parent = .ok b) := by
  obtain ⟨b,hk⟩ := family_exists h
  refine ⟨climbs hk.forest hq,fun hne p => ?_⟩
  cases hp : (s.proc q).parent with
  | none => exact absurd (hk.forest.rooted q (occupied_phase.mp hq) hp) hne
  | some r =>
    have hr := occupied_phase.mpr (.inl (hk.forest.parents q r hp).1)
    obtain ⟨i,l,hi,hc,hn,-⟩ := climbs hk.forest hr
    refine isAncestor_total hc (hk.forest.one i hi).le _ ?_
    have hle := hn.length_le_card
    simp only [Fintype.card_fin] at hle
    omega

/-- A grandchild of the first process: two links up. -/
theorem parent_forest_grandchild : ∃ s : Kernel (Fin 2),
    Reaches step (fun _ a => isFamilyCall a = true) (boot 0) s ∧
    (s.proc 2).parent = some 1 ∧ Occupied (s.proc 2).state ∧
    ∃ i l, s.initproc = some i ∧ Climb (parent s) 2 l i ∧ l.Nodup ∧
      ∀ x ∈ l, Occupied (s.proc x).state := by
  obtain ⟨s,hr,hg⟩ := play_witness step (fun _ a => isFamilyCall a = true)
    (fun _ a => isFamilyCall a) (fun _ _ h => h) (boot 0)
    (List.flatten [startup, forkOn 0, [.schedule 1], forkOn 1])
    (fun s : Kernel (Fin 2) => decide ((s.proc 2).parent = some 1) &&
      decide (Occupied (s.proc 2).state)) (by decide +kernel)
  simp only [Bool.and_eq_true, decide_eq_true_eq] at hg
  exact ⟨s,hr,hg.1,hg.2,(parent_forest hr hg.2).1⟩

end Xv6.ParentForest
