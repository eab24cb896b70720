import Xv6.KernelState
import Xv6.TransitionRun
import Mathlib.Data.Fintype.Option

/-!
# The priority rings of the scheduler

The entries of all rings, read in priority order, form one list: a dequeue takes
its first element and an enqueue adds one element to it. The fullness test is
the C expression, whose remainder is negative when the head index is zero.
-/

set_option autoImplicit false

namespace Xv6.ReadyQueue
open KernelState RingBuffer TransitionRun

variable {C : Type} {p : Slot}

def fullMessage : String := "process tried to enqueue when queue is full\n"

def prioIndex (w : BitVec 32) : Option Prio :=
  if h : 0 ≤ w.toInt ∧ w.toInt < PRIO_MAX then some ⟨w.toInt.toNat,by omega⟩ else none

def ringFull (r : Ring (Option Slot) QSIZE) : Prop :=
  (r.tail.val : ℤ) = ((r.head.val : ℤ)-1).tmod QSIZE

instance (r : Ring (Option Slot) QSIZE) : Decidable (ringFull r) :=
  inferInstanceAs (Decidable (_ = _))

def pqEnqueue (s : Kernel C) (p : Slot) : Except Stop (Kernel C × ℤ) :=
  if (s.proc p).state ≠ .runnable then .ok (s,-1)
  else match prioIndex (s.proc p).priority with
    | none => .error .wild
    | some k =>
      if ringFull (s.ring k) then .ok (s,-1)
      else .ok (s.setRing k (push (s.ring k) (some p)),1)

def pqDequeue (s : Kernel C) : Kernel C × Option (Option Slot) :=
  match (List.finRange PRIO_MAX).find? (fun k => (s.ring k).head ≠ (s.ring k).tail) with
  | none => (s,none)
  | some k => (s.setRing k (pop (s.ring k)),some ((s.ring k).buf (s.ring k).head))

@[simp] def setState (s : Kernel C) (p : Slot) (x : ProcState) : Kernel C :=
  s.setProc p { s.proc p with state := x }

def makeRunnable (s : Kernel C) (p : Slot) : Except Stop (Kernel C) := do
  let (t,r) ← pqEnqueue (setState s p .runnable) p
  if r < 0 then .error (.panic fullMessage) else .ok t

def ready (s : Kernel C) : List (Option Slot) :=
  (List.finRange PRIO_MAX).flatMap (fun k => contents (s.ring k))

def entries (s : Kernel C) (p : Slot) : ℕ := (ready s).count (some p)

theorem ringFull_iff (r : Ring (Option Slot) QSIZE) :
    ringFull r ↔ r.head ≠ 0 ∧ size r+1 = QSIZE := by
  obtain ⟨⟨h,hh⟩,⟨t,ht⟩,buf⟩ := r
  simp only [QSIZE] at hh ht
  simp only [ringFull, size, Fin.sub_def, Ne, Fin.ext_iff, Fin.val_zero, QSIZE]
  by_cases h0 : h = 0
  · subst h0
    have hm : (((0:ℕ):ℤ)-1).tmod (100:ℕ) = -1 := by decide
    rw [hm]
    omega
  · have hm : ((h:ℤ)-1).tmod (100:ℕ) = (h:ℤ)-1 := Int.tmod_eq_of_lt (by omega) (by omega)
    rw [hm]
    omega

theorem not_ringFull (r : Ring (Option Slot) QSIZE) (h : size r+1 < QSIZE) : ¬ringFull r := by
  rw [ringFull_iff]
  omega

theorem pqEnqueue_ok {s t : Kernel C} {r : ℤ} (h : pqEnqueue s p = .ok (t,r)) :
    t = s ∨ (s.proc p).state = .runnable ∧ ∃ k, t = s.setRing k (push (s.ring k) (some p)) := by
  unfold pqEnqueue at h
  split at h
  · exact .inl (Prod.mk.inj (Except.ok.inj h)).1.symm
  rename_i hr
  split at h
  · simp at h
  · split at h
    · exact .inl (Prod.mk.inj (Except.ok.inj h)).1.symm
    · exact .inr ⟨by simpa using hr,_,(Prod.mk.inj (Except.ok.inj h)).1.symm⟩

/-- Inversion of a successful `makeRunnable`: the process became `RUNNABLE`
and was pushed on the ring of its priority. -/
theorem makeRunnable_ok {s t : Kernel C} (h : makeRunnable s p = .ok t) :
    ∃ k, prioIndex (s.proc p).priority = some k ∧ ¬ringFull (s.ring k) ∧
      t = (setState s p .runnable).setRing k (push (s.ring k) (some p)) := by
  obtain ⟨⟨u,r⟩,hu,h⟩ := bind_ok h
  simp only [pqEnqueue, setState, Kernel.setProc_proc, if_true, ne_eq, not_true, if_false,
    Kernel.setProc_ring] at hu
  cases hk : prioIndex (s.proc p).priority with
  | none => simp [hk] at hu
  | some k =>
    simp only [hk] at hu
    refine ⟨k,rfl,?_⟩
    split at hu
    · cases hu
      simp at h
    · rename_i hf
      cases hu
      have ht : Except.ok _ = Except.ok t := h
      exact ⟨hf,(Except.ok.inj ht).symm⟩

theorem makeRunnable_of {s : Kernel C} {k : Prio} (hk : prioIndex (s.proc p).priority = some k)
    (hf : ¬ringFull (s.ring k)) : makeRunnable s p =
      .ok ((setState s p .runnable).setRing k (push (s.ring k) (some p))) := by
  simp [makeRunnable, pqEnqueue, setState, hk, hf, bind, Except.bind]

section Lists
variable {α β : Type*} [DecidableEq α]

theorem flatMap_update (a b : List α) (k : α) (hl : (a ++ k::b).Nodup) (f : α → List β)
    (y : List β) : (a ++ k::b).flatMap (fun j => if j = k then y else f j) =
      a.flatMap f ++ y ++ b.flatMap f := by
  have hn := List.nodup_middle.mp hl
  rw [List.nodup_cons, List.mem_append, not_or] at hn
  have hc : ∀ c : List α, k ∉ c →
      c.flatMap (fun j => if j = k then y else f j) = c.flatMap f := by
    intro c hc
    apply List.flatMap_congr
    intro j hj
    rw [if_neg]
    rintro rfl
    exact hc hj
  simp [hc a hn.1.1, hc b hn.1.2]

end Lists

section
variable (s : Kernel C) (k : Prio)
include s k

theorem ready_split (a b : List Prio) (hl : List.finRange PRIO_MAX = a ++ k::b) :
    ready s = a.flatMap (fun j => contents (s.ring j)) ++ contents (s.ring k) ++
        b.flatMap (fun j => contents (s.ring j)) ∧
      ∀ r, ready (s.setRing k r) = a.flatMap (fun j => contents (s.ring j)) ++ contents r ++
        b.flatMap (fun j => contents (s.ring j)) := by
  constructor
  · simp [ready, hl]
  · intro r
    rw [← flatMap_update a b k (hl ▸ List.nodup_finRange _), ready, hl]
    apply List.flatMap_congr
    intro j _
    simp only [Kernel.setRing_ring]
    split <;> rfl

theorem ready_setRing : ∃ a b, ready s = a ++ contents (s.ring k) ++ b ∧
      ∀ r, ready (s.setRing k r) = a ++ contents r ++ b := by
  obtain ⟨a,b,hl⟩ := List.append_of_mem (List.mem_finRange k)
  exact ⟨_,_,ready_split s k a b hl⟩

theorem ring_length_le : size (s.ring k) ≤ (ready s).length := by
  obtain ⟨a,b,ha,-⟩ := ready_setRing s k
  rw [ha, ← contents_length]
  simp only [List.length_append]
  omega

theorem ready_push (x : Option Slot) (h : size (s.ring k)+1 < QSIZE) :
    (ready (s.setRing k (push (s.ring k) x))).Perm (x::ready s) := by
  obtain ⟨a,b,ha,hb⟩ := ready_setRing s k
  rw [hb, ha, contents_push _ _ h]
  have hm : ((a ++ contents (s.ring k)) ++ x::b).Perm (x::((a ++ contents (s.ring k)) ++ b)) :=
    List.perm_middle
  simpa using hm

theorem entries_push_le (p q : Slot) : entries (s.setRing k (push (s.ring k) (some p))) q ≤
      entries s q+if q = p then 1 else 0 := by
  by_cases h : size (s.ring k)+1 < QSIZE
  · rw [entries, (ready_push s k (some p) h).count_eq, List.count_cons]
    by_cases hq : q = p
    · simp [entries, hq]
    · simp [entries, hq, Ne.symm hq]
  · have hs := size_lt (s.ring k)
    obtain ⟨a,b,ha,hb⟩ := ready_setRing s k
    rw [entries, entries, hb, ha, contents_push_full _ _ (by omega)]
    simp only [List.count_append, List.count_nil]
    omega

end

theorem pqDequeue_none {s t : Kernel C} (h : pqDequeue s = (t,none)) : t = s ∧ ready s = [] := by
  unfold pqDequeue at h
  split at h
  · rename_i hf
    refine ⟨(Prod.mk.inj h).1.symm,?_⟩
    rw [ready, List.flatMap_eq_nil_iff]
    intro k hk
    rw [contents_eq_nil]
    simpa using List.find?_eq_none.mp hf k hk
  · simp at h

theorem pqDequeue_some {s t : Kernel C} {e : Option Slot} (h : pqDequeue s = (t,some e)) :
    ∃ k, t = s.setRing k (pop (s.ring k)) ∧ contents (s.ring k) = e::contents (pop (s.ring k)) ∧
      (∀ j < k, contents (s.ring j) = []) ∧ ready s = e::ready t := by
  unfold pqDequeue at h
  split at h
  · simp at h
  · rename_i k hf
    obtain ⟨rfl,he⟩ := Prod.mk.inj h
    cases he
    have hne : (s.ring k).head ≠ (s.ring k).tail := by simpa using List.find?_some hf
    obtain ⟨-,a,b,hl,ha⟩ := List.find?_eq_some_iff_append.mp hf
    have hnil : ∀ j ∈ a, contents (s.ring j) = [] := by
      intro j hj
      rw [contents_eq_nil]
      simpa using ha j hj
    have hc := contents_pop (s.ring k) hne
    refine ⟨k,rfl,hc,?_,?_⟩
    · intro j hj
      apply hnil
      have hs : (List.finRange PRIO_MAX).Pairwise (·<·) := List.pairwise_lt_finRange _
      have hm : j ∈ a ++ k::b := hl ▸ List.mem_finRange j
      rcases List.mem_append.mp hm with hj' | hj'
      · exact hj'
      · rw [hl] at hs
        have hkb := (List.pairwise_cons.mp (List.pairwise_append.mp hs).2.1).1
        rcases List.mem_cons.mp hj' with rfl | hb
        · exact absurd hj (lt_irrefl _)
        · exact absurd (hkb j hb) (not_lt_of_gt hj)
    · obtain ⟨hs,ht⟩ := ready_split s k a b hl
      rw [hs, ht, hc, List.flatMap_eq_nil_iff.mpr hnil]
      rfl

end Xv6.ReadyQueue
