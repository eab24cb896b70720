import Xv6.PriorityLine
import Xv6.ReadyInvariant

/-!
# The order of service of the priority rings

`pq_enqueue` and `pq_dequeue` on their own, in any sequence. As long as no
process is queued twice the rings are one waiting line with priorities, and no
call is refused. Queued again and again, a process can fill a ring, which the
fullness test sees only when the head index is not zero.
-/

set_option autoImplicit false

namespace Xv6.ReadyOrder
open KernelState RingBuffer ReadyQueue ReadyInvariant PriorityLine
open TransitionRun Machine

variable {C : Type}

inductive QueueOp where
  | enqueue (p : Slot)
  | dequeue
  | edit (p : Slot) (r : Proc)

structure Desk (C : Type) where
  kernel : Kernel C
  line : List (Prio × Slot)
  asked : List Slot
  returned : List Slot

def arrival (s : Kernel C) (p : Slot) : List (Prio × Slot) :=
  if (s.proc p).state = .runnable then (prioIndex (s.proc p).priority).toList.map (·,p) else []

def deskStep (d : Desk C) : QueueOp → Except Stop (Desk C)
  | .enqueue p => (pqEnqueue d.kernel p).map (fun x =>
      ⟨x.1,d.line ++ arrival d.kernel p,d.asked ++ (arrival d.kernel p).map Prod.snd,d.returned⟩)
  | .dequeue => .ok ⟨(pqDequeue d.kernel).1,rest d.line,d.asked,
      d.returned ++ ((pqDequeue d.kernel).2.bind id).toList⟩
  | .edit p r => .ok ⟨d.kernel.setProc p r,d.line,d.asked,d.returned⟩

def Initialised (s : Kernel C) : Prop := ∀ k, (s.ring k).head = 0 ∧ (s.ring k).tail = 0

def opened (s : Kernel C) : Desk C := ⟨s,[],[],[]⟩

def Once (d : Desk C) : QueueOp → Prop
  | .enqueue p => entries d.kernel p = 0
  | .dequeue => True
  | .edit _ r => r.priority.toNat < PRIO_MAX

structure InOrder (d : Desk C) : Prop where
  lanes : ∀ k, contents (d.kernel.ring k) = (lane k d.line).map some
  single : (d.line.map Prod.snd).Nodup
  prio : PrioInRange d.kernel
  books : d.asked.Perm (d.returned ++ d.line.map Prod.snd)

section Order
variable {d e : Desk C} {p : Slot}

section
variable (hd : InOrder d)
include hd

theorem entries_of_mem (hp : p ∈ d.line.map Prod.snd) : entries d.kernel p ≠ 0 := by
  obtain ⟨⟨k,q⟩,hm,rfl⟩ := List.mem_map.mp hp
  rw [entries, ← Nat.pos_iff_ne_zero, List.count_pos_iff, ready, List.mem_flatMap]
  refine ⟨k,List.mem_finRange k,?_⟩
  rw [hd.lanes k, List.mem_map]
  exact ⟨q,mem_lane.mpr hm,rfl⟩

/-- The 64 processes do not fill a ring of 100 cells. -/
theorem lane_room (k : Prio) : size (d.kernel.ring k)+1 < QSIZE := by
  have h1 : (lane k d.line).length ≤ d.line.length := by
    rw [lane, List.length_map]
    exact List.length_filter_le _ _
  have h2 : d.line.length ≤ NPROC := by
    simpa using hd.single.length_le_card
  rw [← contents_length, hd.lanes k, List.length_map]
  simp only [NPROC, QSIZE] at *
  omega

theorem enqueue_accepted (hr : (d.kernel.proc p).state = .runnable) :
    ∃ k, prioIndex (d.kernel.proc p).priority = some k ∧ pqEnqueue d.kernel p =
      .ok (d.kernel.setRing k (push (d.kernel.ring k) (some p)),1) := by
  obtain ⟨k,hk,-⟩ := prioIndex_of_lt _ (hd.prio p)
  refine ⟨k,hk,?_⟩
  simp [pqEnqueue, hr, hk, not_ringFull _ (lane_room hd k)]

theorem inOrder_enqueue (hp : entries d.kernel p = 0) (h : deskStep d (.enqueue p) = .ok e) :
    InOrder e := by
  obtain ⟨⟨t,r⟩,ht,rfl⟩ := map_ok h
  by_cases hr : (d.kernel.proc p).state = .runnable
  · obtain ⟨k,hk,he⟩ := enqueue_accepted hd hr
    obtain ⟨rfl,rfl⟩ := Prod.mk.inj (Except.ok.inj (he.symm.trans ht))
    have ha : arrival d.kernel p = [(k,p)] := by simp [arrival, hr, hk]
    have hn : p ∉ d.line.map Prod.snd := fun hm => entries_of_mem hd hm hp
    refine ⟨fun j => ?_,?_,hd.prio,?_⟩
    · simp only [ha, Kernel.setRing_ring, lane_append]
      by_cases hj : j = k
      · subst hj
        simp [contents_push _ _ (lane_room hd j), hd.lanes j]
      · simp [hj, hd.lanes j]
    · simp only [ha, List.map_append, List.map_cons, List.map_nil]
      refine List.nodup_append.mpr ⟨hd.single,by simp,fun a ha b hb => ?_⟩
      rintro rfl
      exact hn (List.mem_singleton.mp hb ▸ ha)
    · simp only [ha, List.map_append, List.map_cons, List.map_nil]
      rw [← List.append_assoc]
      exact hd.books.append_right [p]
  · have ha : arrival d.kernel p = [] := by simp [arrival, hr]
    have ht : (d.kernel,(-1:ℤ)) = (t,r) := by simpa [pqEnqueue, hr] using ht
    obtain ⟨rfl,rfl⟩ := Prod.mk.inj ht
    simpa [ha] using hd

theorem dequeue_next : pqDequeue d.kernel = match next d.line with
    | none => (d.kernel,none)
    | some x => (d.kernel.setRing x.1 (pop (d.kernel.ring x.1)),some (some x.2)) := by
  have hwait : ∀ {k q}, (k,q) ∈ d.line → contents (d.kernel.ring k) ≠ [] := by
    intro k q hm hz
    rw [hd.lanes k, List.map_eq_nil_iff] at hz
    simpa [hz] using mem_lane.mpr hm
  rcases hq : pqDequeue d.kernel with ⟨t,_ | x⟩
  · obtain ⟨rfl,hz⟩ := pqDequeue_none hq
    cases hn : next d.line with
    | none => rfl
    | some f =>
      refine absurd ?_ (hwait (next_smallest hn).1)
      exact List.flatMap_eq_nil_iff.mp hz f.1 (List.mem_finRange _)
  · obtain ⟨k,rfl,hc,hlow,-⟩ := pqDequeue_some hq
    cases hn : next d.line with
    | none =>
      rw [hd.lanes k, next_eq_none.mp hn] at hc
      simp [lane] at hc
    | some f =>
      have hk : lane k d.line ≠ [] := by
        intro hz
        rw [hd.lanes k, hz] at hc
        simp at hc
      have hkf : k = f.1 := by
        obtain ⟨q,hq'⟩ := List.exists_mem_of_ne_nil _ hk
        have hle := (next_smallest hn).2 _ (mem_lane.mp hq')
        refine le_antisymm (not_lt.mp fun hlt => ?_) hle
        exact hwait (next_smallest hn).1 (hlow _ hlt)
      have hx := lane_next hn k
      rw [if_pos hkf] at hx
      rw [hd.lanes k, hx, List.map_cons] at hc
      rw [← (List.cons.inj hc).1, hkf]

theorem inOrder_dequeue (h : deskStep d .dequeue = .ok e) : InOrder e := by
  cases h
  have hq := dequeue_next hd
  cases hn : next d.line with
  | none =>
    rw [hn] at hq
    simpa [hq, PriorityLine.rest, hn] using hd
  | some f =>
    rw [hn] at hq
    have hperm := (next_perm hn).map Prod.snd
    have hne : (d.kernel.ring f.1).head ≠ (d.kernel.ring f.1).tail := by
      rw [Ne, ← contents_eq_nil, hd.lanes f.1, lane_next hn f.1]
      simp
    refine ⟨fun k => ?_,?_,?_,?_⟩
    · have hl := hd.lanes k
      rw [lane_next hn k] at hl
      by_cases hk : k = f.1
      · subst hk
        rw [if_pos rfl, contents_pop _ hne] at hl
        simpa [hq] using (List.cons.inj hl).2
      · simpa [hq, hk] using hl
    · exact (List.nodup_cons.mp (hperm.nodup_iff.mp hd.single)).2
    · rw [hq]
      exact hd.prio
    · simp only [hq, Option.bind_some, id, Option.toList_some, List.append_assoc]
      exact hd.books.trans (hperm.append_left _)

theorem inOrder_step {a : QueueOp} (ha : Once d a) (h : deskStep d a = .ok e) : InOrder e := by
  cases a with
  | enqueue p => exact inOrder_enqueue hd ha h
  | dequeue => exact inOrder_dequeue hd h
  | edit p r =>
    cases h
    refine ⟨hd.lanes,hd.single,fun q => ?_,hd.books⟩
    by_cases hq : q = p
    · have hr : r.priority.toNat < PRIO_MAX := ha
      simpa [hq] using hr
    · simpa [hq] using hd.prio q

end

theorem inOrder_opened {s : Kernel C} (hs : Initialised s) (hp : PrioInRange s) :
    InOrder (opened s) := by
  refine ⟨fun k => ?_,List.nodup_nil,hp,List.Perm.refl _⟩
  have hk : contents (s.ring k) = [] := by
    rw [contents_eq_nil, (hs k).1, (hs k).2]
  exact hk

end Order

/-- The rings are `PRIO_MAX` first-in first-out lists. In every state that
enqueues of processes without an entry, dequeues and changes of the process
table lead to, the rings hold the waiting processes lane by lane, an enqueue of
a `RUNNABLE` process is accepted, a dequeue returns the earliest of those with
the smallest priority, `NULL` exactly when nobody waits, and whoever was
enqueued has been returned once or still waits. -/
theorem rings_serve_in_order {s₀ : Kernel C} (h₀ : Initialised s₀) (hp : PrioInRange s₀)
    {d : Desk C} (h : Reaches deskStep Once (opened s₀) d) :
    (∀ k, contents (d.kernel.ring k) = (lane k d.line).map some) ∧
    (∀ p, (d.kernel.proc p).state = .runnable → ∃ t, pqEnqueue d.kernel p = .ok (t,1)) ∧
    (pqDequeue d.kernel).2 = (next d.line).map (fun e => some e.2) ∧
    ((pqDequeue d.kernel).2 = none ↔ d.line = []) ∧
    d.asked.Perm (d.returned ++ d.line.map Prod.snd) := by
  have hd : InOrder d := reaches_invariant InOrder (fun _ _ _ hv ha hw => inOrder_step hv ha hw)
    (inOrder_opened h₀ hp) h
  have hq : (pqDequeue d.kernel).2 = (next d.line).map (fun e => some e.2) := by
    rw [dequeue_next hd]
    cases next d.line <;> rfl
  refine ⟨hd.lanes,fun p hr => ?_,hq,?_,hd.books⟩
  · obtain ⟨k,-,hk⟩ := enqueue_accepted hd hr
    exact ⟨_,hk⟩
  · rw [hq, Option.map_eq_none_iff]
    exact next_eq_none

def trio : Kernel Unit :=
  { boot () with proc := fun p =>
      { zeroProc with state := .runnable, priority := if p = 0 then 4 else 2 } }

theorem rings_serve_in_order_trio : ∃ d : Desk Unit, d.returned = [1] ∧
    d.line = [(4,0),(2,2)] ∧
    (∀ k, contents (d.kernel.ring k) = (lane k d.line).map some) ∧
    (∀ p, (d.kernel.proc p).state = .runnable → ∃ t, pqEnqueue d.kernel p = .ok (t,1)) ∧
    (pqDequeue d.kernel).2 = (next d.line).map (fun e => some e.2) ∧
    ((pqDequeue d.kernel).2 = none ↔ d.line = []) ∧
    d.asked.Perm (d.returned ++ d.line.map Prod.snd) := by
  obtain ⟨d,hr,hd⟩ := play_witness deskStep Once
    (fun d a => match a with
      | .enqueue p => decide (entries d.kernel p = 0)
      | .dequeue => true
      | .edit _ _ => false)
    (fun d a ha => by
      cases a with
      | enqueue p =>
        have h0 : entries d.kernel p = 0 := of_decide_eq_true ha
        exact h0
      | dequeue => trivial
      | edit p r => simp at ha)
    (opened trio) [.enqueue 0, .enqueue 1, .enqueue 2, .dequeue]
    (fun d => decide (d.returned = [1] ∧ d.line = [(4,0),(2,2)])) (by decide +kernel)
  obtain ⟨h1,h2⟩ := of_decide_eq_true hd
  exact ⟨d,h1,h2,rings_serve_in_order (fun k => ⟨rfl,rfl⟩) (by decide) hr⟩

def EnqueueExact (s : Kernel C) (p : Slot) (k : Prio) : Prop :=
  ∃ t r, pqEnqueue s p = .ok (t,r) ∧ (r = -1 ↔ size (s.ring k) = QSIZE-1) ∧
    (r ≠ -1 → contents (t.ring k) = contents (s.ring k) ++ [some p] ∧
      ∀ j, j ≠ k → t.ring j = s.ring j)

/-- The fullness test is exact but for a full ring whose head index is zero,
which the call takes for one with room and empties. -/
theorem enqueue_exact_iff (s : Kernel C) (p : Slot) (k : Prio)
    (hr : (s.proc p).state = .runnable) (hk : prioIndex (s.proc p).priority = some k) :
    EnqueueExact s p k ↔ ¬((s.ring k).head = 0 ∧ size (s.ring k) = QSIZE-1) := by
  have hlt := size_lt (s.ring k)
  by_cases hf : ringFull (s.ring k)
  · have he : pqEnqueue s p = .ok (s,-1) := by simp [pqEnqueue, hr, hk, hf]
    obtain ⟨h0,hfull⟩ := (ringFull_iff _).mp hf
    refine ⟨fun _ hz => h0 hz.1,fun _ => ⟨s,-1,he,?_,fun h => absurd rfl h⟩⟩
    exact ⟨fun _ => by omega,fun _ => rfl⟩
  · have he : pqEnqueue s p = .ok (s.setRing k (push (s.ring k) (some p)),1) := by
      simp [pqEnqueue, hr, hk, hf]
    constructor
    · rintro ⟨t,r,ht,hm,-⟩ ⟨-,hfull⟩
      obtain ⟨rfl,rfl⟩ := Prod.mk.inj (Except.ok.inj (he.symm.trans ht))
      have hr := hm.mpr hfull
      omega
    · intro hn
      have hroom : size (s.ring k)+1 < QSIZE := by
        by_contra hge
        apply hf
        rw [ringFull_iff]
        refine ⟨fun h0 => hn ⟨h0,?_⟩,?_⟩
        · omega
        · omega
      refine ⟨_,1,he,?_,fun _ => ⟨?_,fun j hj => ?_⟩⟩
      · constructor
        · intro h
          omega
        · intro h
          omega
      · simpa using contents_push _ (some p) hroom
      · simp [hj]

theorem enqueue_exact_trio : EnqueueExact trio 0 4 :=
  (enqueue_exact_iff trio 0 4 rfl (by decide)).mpr (by decide)

/-- From the initialised rings one process is enqueued 99 times. The next call
returns 1 and leaves the ring empty. -/
theorem full_ring_emptied : ∃ (d : Desk Unit) (t : Kernel Unit), Initialised trio ∧
    Reaches deskStep (fun d a => ∃ p, a = .enqueue p ∧ (d.kernel.proc p).state = .runnable ∧
      prioIndex (d.kernel.proc p).priority ≠ none) (opened trio) d ∧
    size (d.kernel.ring 4) = QSIZE-1 ∧ pqEnqueue d.kernel 0 = .ok (t,1) ∧
    contents (t.ring 4) = [] ∧ ¬EnqueueExact d.kernel 0 4 := by
  obtain ⟨d,hr,hd⟩ := play_witness deskStep
    (fun d a => ∃ p, a = .enqueue p ∧ (d.kernel.proc p).state = .runnable ∧
      prioIndex (d.kernel.proc p).priority ≠ none)
    (fun d a => match a with
      | .enqueue p => decide ((d.kernel.proc p).state = .runnable ∧
          prioIndex (d.kernel.proc p).priority ≠ none)
      | _ => false)
    (fun d a ha => by
      cases a with
      | enqueue p => exact ⟨p,rfl,of_decide_eq_true ha⟩
      | dequeue => simp at ha
      | edit p r => simp at ha)
    (opened trio) (List.replicate 99 (.enqueue 0))
    (fun d => decide (size (d.kernel.ring 4) = QSIZE-1 ∧
        (d.kernel.proc 0).state = .runnable ∧ prioIndex (d.kernel.proc 0).priority = some 4 ∧
        ¬ringFull (d.kernel.ring 4)))
    (by decide +kernel)
  obtain ⟨hs,hrun,hk,hf⟩ := of_decide_eq_true hd
  have he : pqEnqueue d.kernel 0 =
      .ok (d.kernel.setRing 4 (push (d.kernel.ring 4) (some 0)),1) := by
    simp [pqEnqueue, hrun, hk, hf]
  refine ⟨d,_,fun k => ⟨rfl,rfl⟩,hr,hs,he,?_,?_⟩
  · have hfull : size (d.kernel.ring 4)+1 = QSIZE := by
      rw [hs]
      rfl
    simpa using contents_push_full (d.kernel.ring 4) (some 0) hfull
  · rintro ⟨t,r,ht,hm,-⟩
    obtain ⟨-,rfl⟩ := Prod.mk.inj (Except.ok.inj (he.symm.trans ht))
    exact absurd (hm.mpr hs) (by decide)

end Xv6.ReadyOrder
