import Xv6.MutexEffects

/-!
# The wait queues as queues

Whatever sections are interleaved, short of an exit, each wait queue is a queue
in the order of arrival: a section puts its caller at the end or takes the first
entry. A process stands in a queue once, so that no queue gets full.
-/

set_option autoImplicit false

namespace Xv6.QueueOrder
open KernelState NullQueue ReadyQueue ProcessCalls MutexCalls
open Machine ProcessFrames ProcessEffects MutexEffects TransitionRun

variable {C : Type} {s t : Kernel C} {a : Act C} {i : Option MuxId} {p : Slot}

def line (s : Kernel C) : Option MuxId → Queue Slot WAITERS
  | none => s.wqueue
  | some m => (s.muxes m).cv

def newcomer (s : Kernel C) (i : Option MuxId) : Act C → List Slot
  | .mlockTry c => match s.cpu c with
    | none => []
    | some p => match s.pc p with
      | .mlockTry _ m =>
        if i = none ∧ (s.muxes m).state = 1 then entrant s.wqueue p else []
      | _ => []
  | .waitcv c id => match s.cpu c with
    | none => []
    | some p => if i ≠ none ∧ i = muxIndex id then entrant (line s i) p else []
  | _ => []

def leaving (s : Kernel C) (i : Option MuxId) : Act C → ℕ
  | .munlockDequeue _ => if i = none then 1 else 0
  | .signalDequeue c => match s.cpu c with
    | none => 0
    | some p => match s.pc p with
      | .signalDequeue m => if i = some m then 1 else 0
      | _ => 0
  | _ => 0

def isCalm : Act C → Bool
  | .exit _ => false
  | a => isSyncCall a || isProcessCall a

theorem calm_process (ha : isCalm a = true) (hy : isSyncCall a = false) :
    isProcessCall a = true ∧ ∀ c, a ≠ .exit c := by
  cases a <;> simp_all [isCalm, isSyncCall, isProcessCall]

def Served (s t : Kernel C) (a : Act C) (i : Option MuxId) : Prop :=
  Proper (line t i) ∧
    list (line t i) = (list (line s i)).drop (leaving s i a)++newcomer s i a

theorem served_same (hs : ∀ i, Proper (line s i)) (he : line t i = line s i)
    (hn : newcomer s i a = []) (hl : leaving s i a = 0) : Served s t a i := by
  rw [Served, he, hn, hl, List.drop_zero, List.append_nil]
  exact ⟨hs i,rfl⟩

theorem served_join (hs : Proper (line s i)) (he : enroll (line s i) p = some (line t i))
    (hl : leaving s i a = 0) (hn : newcomer s i a = entrant (line s i) p) :
    Served s t a i := by
  refine ⟨proper_enroll _ _ p hs he,?_⟩
  rw [(compact_enroll _ _ p hs.1 he).2, hl, hn, List.drop_zero]
  by_cases hp : p ∈ list (line s i) <;> simp [entrant, hp]

theorem served_leave {x : Slot} (hs : Proper (line s i)) (hf : front (line s i) = some x)
    (he : line t i = shift (line s i)) (hn : newcomer s i a = []) (hl : leaving s i a = 1) :
    Served s t a i := by
  obtain ⟨hp,-,hlist⟩ := proper_shift _ x hs hf
  rw [Served, he, hn, hl, hlist]
  exact ⟨hp,(List.append_nil _).symm⟩

theorem served_empty (hs : Proper (line s i)) (hf : front (line s i) = none)
    (he : line t i = line s i) (hn : newcomer s i a = []) : Served s t a i := by
  rw [front_eq_head _ hs.1] at hf
  rw [Served, he, hn, List.head?_eq_none_iff.mp hf, List.drop_nil]
  exact ⟨hs,rfl⟩

theorem line_frame {u : Kernel C} (h : Frame u t) : line t i = line u i := by
  rw [h.rest]
  cases i <;> rfl

/-- There are fewer processes than places. -/
theorem enroll_room {q : Queue Slot WAITERS} (hq : Proper q) (p : Slot) : enroll q p ≠ none := by
  intro h
  have hlen := (enroll_full q p hq.1 h).2
  have hcard := hq.2.length_le_card
  rw [hlen, Fintype.card_fin] at hcard
  exact absurd hcard (by decide)

theorem line_take {m : MuxId} : line (ret (take s p m) p 1) i = line s i := by
  cases i with
  | none => rfl
  | some j => by_cases h : j = m <;> simp [line, ret, take, h]

theorem line_clear {m : MuxId} {k : Pc} : line ((clear s p m).setPc p k) i = line s i := by
  cases i with
  | none => rfl
  | some j => by_cases h : j = m <;> simp [line, clear, h]

variable [DecidableEq C]

theorem served_sync {c : C} (hs : ∀ i, Proper (line s i)) (hc : s.cpu c = some p)
    (h : Sync s c p a t) (i : Option MuxId) : Served s t a i := by
  cases h with
  | mlockFull _ _ full => exact absurd full (enroll_room (hs none) p)
  | waitcvFull _ _ full => exact absurd full (enroll_room (hs (some _)) p)
  | mlockEnroll pc locked enrolled =>
    cases i with
    | none =>
      refine served_join (hs none) enrolled rfl ?_
      simp only [newcomer, hc, pc, locked, and_self, if_true]
      rfl
    | some j => exact served_same hs rfl (by simp [newcomer, hc, pc]) rfl
  | mlockTake pc open_ =>
    exact served_same hs line_take (by simp [newcomer, hc, pc, open_]) rfl
  | mlockSleep _ _ left =>
    exact served_same hs ((line_frame (routine_frame (routine_sched left))).trans
      (by cases i <;> rfl)) rfl rfl
  | munlockClear => exact served_same hs line_clear rfl rfl
  | waitcvClear => exact served_same hs line_clear rfl rfl
  | munlockEmpty _ empty =>
    cases i with
    | none => exact served_empty (hs none) empty rfl rfl
    | some j => exact served_same hs rfl rfl rfl
  | munlockDequeue _ head =>
    cases i with
    | none => exact served_leave (hs none) head rfl rfl rfl
    | some j => exact served_same hs rfl rfl rfl
  | munlockWake _ _ woken =>
      exact served_same hs (line_frame (routine_frame (routine_wake woken))) rfl rfl
  | signalWake _ _ woken =>
      exact served_same hs (line_frame (routine_frame (routine_wake woken))) rfl rfl
  | waitcvSched _ left =>
    exact served_same hs ((line_frame (routine_frame (routine_sched left))).trans
      (by cases i <;> rfl)) rfl rfl
  | @waitcv id m w _ index enrolled =>
    by_cases hi : i = some m
    · subst hi
      refine served_join (hs (some m)) (enrolled.trans ?_) rfl ?_
      · simp [line, joinCv]
      · simp [newcomer, hc, index]
    · refine served_same hs ?_ (by simp [newcomer, hc, index, hi]) rfl
      cases i with
      | none => rfl
      | some j =>
        have hj : j ≠ m := fun h => hi (congrArg some h)
        simp [line, joinCv, hj]
  | @signalEmpty m pc empty =>
    by_cases hi : i = some m
    · subst hi
      exact served_empty (hs (some m)) empty rfl rfl
    · exact served_same hs (by cases i <;> rfl) rfl (by simp [leaving, hc, pc, hi])
  | @signalDequeue m q pc head =>
    by_cases hi : i = some m
    · subst hi
      exact served_leave (hs (some m)) head (by simp [line, leaveCv]) rfl
        (by simp [leaving, hc, pc])
    · refine served_same hs ?_ rfl (by simp [leaving, hc, pc, hi])
      cases i with
      | none => rfl
      | some j =>
        have hj : j ≠ m := fun h => hi (congrArg some h)
        simp [line, leaveCv, hj]
  | _ => exact served_same hs (by cases i <;> rfl) rfl rfl

theorem served_step (hs : ∀ i, Proper (line s i)) (ha : isCalm a = true)
    (h : step s a = .ok t) (i : Option MuxId) : Served s t a i := by
  cases hy : isSyncCall a with
  | true =>
    obtain ⟨c,p,hc,hsync⟩ := sync_step hy h
    exact served_sync hs hc hsync i
  | false =>
    obtain ⟨hp,hx⟩ := calm_process ha hy
    refine served_same hs (line_frame (frame_step hp hx h)) ?_ ?_
    · cases a <;> first | rfl | cases hy
    · cases a <;> first | rfl | cases hy

def joined (i : Option MuxId) : Kernel C → List (Act C) → List Slot
  | _, [] => []
  | s, a::as => newcomer s i a++((step s a).toOption.elim [] fun t => joined i t as)

def departed (i : Option MuxId) : Kernel C → List (Act C) → List Slot
  | _, [] => []
  | s, a::as => (list (line s i)).take (leaving s i a)++
      ((step s a).toOption.elim [] fun t => departed i t as)

theorem served_run (as : List (Act C)) (hs : ∀ i, Proper (line s i))
    (h : play step (fun _ => isCalm) s as = some t) (i : Option MuxId) : Proper (line t i) ∧
      list (line s i)++joined i s as = departed i s as++list (line t i) := by
  induction as generalizing s with
  | nil =>
    cases h
    exact ⟨hs i,List.append_nil _⟩
  | cons a as ih =>
    rw [play] at h
    split at h
    case isFalse => cases h
    rename_i ha
    cases hu : step s a with
    | error e => simp [hu] at h
    | ok u =>
      rw [hu] at h
      have hserved := served_step hs ha hu
      obtain ⟨hp,hl⟩ := ih (fun j => (hserved j).1) h
      refine ⟨hp,?_⟩
      have hsplit := List.take_append_drop (leaving s i a) (list (line s i))
      rw [(hserved i).2] at hl
      simp only [joined, departed, hu, Except.toOption, Option.elim_some]
      rw [List.append_assoc, ← hl, ← List.append_assoc, ← List.append_assoc, ← List.append_assoc,
        hsplit]

/-- In every run each queue holds distinct processes in its first places, in the
order of arrival, and nulls behind them. Each section puts its caller at the
end or takes the first entry, and never finds a queue full. -/
theorem queues_in_order {s₀ : Kernel C} (h₀ : ∀ i, Proper (line s₀ i)) (as : List (Act C))
    (h : play step (fun _ => isCalm) s₀ as = some s) (i : Option MuxId) :
    (∃ l : List Slot, l.Nodup ∧ l.length ≤ NPROC ∧
      (line s i).cells = l.map some++List.replicate (WAITERS-l.length) none ∧
      list (line s₀ i)++joined i s₀ as = departed i s₀ as++l) ∧
    (∀ p, enroll (line s i) p ≠ none) ∧
    ∀ a t, isCalm a = true → step s a = .ok t → Served s t a i := by
  have hrun := served_run as h₀ h
  obtain ⟨⟨⟨k,hk⟩,hnodup⟩,horder⟩ := hrun i
  refine ⟨⟨list (line s i),hnodup,?_,?_,horder⟩,enroll_room (hrun i).1,
    fun a t ha ht => served_step (fun j => (hrun j).1) ha ht i⟩
  · simpa using hnodup.length_le_card
  · have hlen := (line s i).length_eq
    rw [hk, List.length_append, List.length_map, List.length_replicate] at hlen
    rw [← Nat.eq_sub_of_add_eq' hlen]
    exact hk

theorem proper_crew (i : Option MuxId) : Proper (line crew i) := by
  cases i <;> exact proper_empty

def twoWaiters (c d e : C) : List (Act C) :=
  [.mlock c 0, .mlockTry c, .mlock d 0, .mlockTry d, .mlockSleep d, .mlock e 0, .mlockTry e,
    .mlockSleep e, .munlock c 0, .munlockClear c]

/-- Two processes wait for a mutex that the third one holds and gives up. -/
theorem queues_in_order_two_waiters :
    ∃ s t, play step (fun _ => isCalm) crew (twoWaiters 0 1 2) = some s ∧
      (line s none).cells = [some 1, some 2] ++ List.replicate 998 none ∧
      (∀ p, enroll (line s none) p ≠ none) ∧ step s (.munlockDequeue 0) = .ok t ∧
      list (line t none) = [2] := by
  have hrun : (play step (fun _ => isCalm) crew (twoWaiters 0 1 2)).any (fun s =>
      (step s (.munlockDequeue 0)).toOption.any fun _ => true) = true := by decide +kernel
  obtain ⟨s,hs,hd⟩ := (Option.any_eq_true _ _).mp hrun
  obtain ⟨⟨l,-,-,hl,ho⟩,hroom,hstep⟩ := queues_in_order proper_crew _ hs none
  have hj : list (line crew none)++joined none crew (twoWaiters 0 1 2) = [1,2] := by
    decide +kernel
  have hn : departed none crew (twoWaiters 0 1 2) = [] := by decide +kernel
  rw [hj, hn, List.nil_append] at ho
  subst ho
  obtain ⟨t,ht,-⟩ := ok_of_any hd
  refine ⟨s,t,hs,hl,hroom,ht,?_⟩
  rw [(hstep _ t rfl ht).2, list_of_cells _ _ _ hl]
  rfl

end Xv6.QueueOrder
