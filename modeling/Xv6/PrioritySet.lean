import Xv6.ParentForest
import Xv6.PriorityRange

/-!
# What `sys_prio_set` does

The call should give a priority to its caller or to a live descendant. The code
looks for the first other slot with the id, whatever its state, and walks up the
parent links from there, through null links too; it takes a zombie or a half
made child for a descendant, and never finds the first process to be an
ancestor.
-/

set_option autoImplicit false

namespace Xv6.PrioritySet
open Function KernelState ReadyQueue ProcessCalls MutexCalls Machine
open ProcessFrames ProcessEffects TransitionRun Coherence Kinship FamilyTree
open FamilyRuns ParentForest Placement

variable {C : Type} {s t u : Kernel C} {c : C} {p q x i : Slot} {b : Ledger}

structure Numbered {α : Type*} (pid : α → ℤ) (next : ℤ) : Prop where
  below : ∀ q, pid q < next
  unique : ∀ q r, pid q = pid r → pid q ≠ 0 → q = r

section Ids
variable {α : Type*} [DecidableEq α] {pid : α → ℤ} {next : ℤ}

theorem numbered_alloc (h : Numbered pid next) (i : α) :
    Numbered (update pid i next) (next+1) := by
  refine ⟨fun q => ?_,fun q r he hz => ?_⟩
  · have hq := h.below q
    by_cases hi : q = i
    · simp [hi]
    · simp only [update_of_ne hi]
      omega
  · have hq := h.below q
    have hr := h.below r
    by_cases hi : q = i <;> by_cases hj : r = i
    · rw [hi, hj]
    · rw [hi, update_self, update_of_ne hj] at he
      omega
    · rw [hj, update_self, update_of_ne hi] at he
      omega
    · rw [update_of_ne hi, update_of_ne hj] at he
      rw [update_of_ne hi] at hz
      exact h.unique q r he hz

theorem numbered_free (h : Numbered pid next) (hn : 0 < next) (i : α) :
    Numbered (update pid i 0) next := by
  refine ⟨fun q => ?_,fun q r he hz => ?_⟩
  · by_cases hi : q = i
    · simpa [hi] using hn
    · simpa [hi] using h.below q
  · by_cases hi : q = i
    · simp [hi] at hz
    · rw [update_of_ne hi] at he hz
      by_cases hj : r = i
      · rw [hj, update_self] at he
        exact absurd he hz
      · rw [update_of_ne hj] at he
        exact h.unique q r he hz

theorem numbered_step {x y : Family α} (hf : Forest x) (h : Numbered x.pid x.next)
    (hs : Step x y) : Numbered y.pid y.next := by
  cases hs with
  | found i => exact numbered_alloc h i
  | alloc p np => exact numbered_alloc h np
  | reap p q => exact numbered_free h hf.positive q
  | start | fail | link | publish | exit => exact h

end Ids

def isTableCall : Act C → Bool
  | .prioSet _ _ _ => true
  | a => isFamilyCall a

structure Table (s : Kernel C) (b : Ledger) : Prop extends Kept s b where
  numbered : Numbered (fun q => (s.proc q).pid) s.nextpid

theorem numbered_congr (hp : ∀ q, (t.proc q).pid = (s.proc q).pid) (hn : t.nextpid = s.nextpid)
    (hs : Numbered (fun q => (s.proc q).pid) s.nextpid) :
    Numbered (fun q => (t.proc q).pid) t.nextpid := by
  rw [funext hp, hn]
  exact hs

theorem numbered_still (h : Still s t) (hs : Numbered (fun q => (s.proc q).pid) s.nextpid) :
    Numbered (fun q => (t.proc q).pid) t.nextpid := numbered_congr h.pid h.rest.1 hs

theorem kept_still (hs : Kept s b) (hc : Coherent t) (hw : ∀ q, Waits t q → Waits s q)
    (h : Still s t) : Kept t b :=
  kept_follows hs hc (fun q hq => hs.clear q (hw q hq))
    ⟨linked_still hs.linked h,.inl (view_still h)⟩

variable [DecidableEq C]

section
variable (hs : Table s b)
include hs

section
omit [DecidableEq C]

theorem table_setLock (l : Option Slot) : Table (s.setLock l) b :=
  ⟨kept_still hs.toKept (coherent_setLock hs.coherent l) (fun _ => id) (still_lock l),hs.numbered⟩

theorem table_setPriority (q : Slot) (w : BitVec 32) :
    Table (s.setProc q { s.proc q with priority := w }) b := by
  have hk : Still s (s.setProc q { s.proc q with priority := w }) :=
    still_setProc rfl rfl rfl (fun h => .inl ⟨h,rfl⟩)
  exact ⟨kept_still hs.toKept (coherent_setProc hs.coherent _ (.inl rfl)) (fun _ => id) hk,
    numbered_still hk hs.numbered⟩

theorem table_ret (hc : s.cpu c = some p) (v : ℤ) : Table (ret s p v) b :=
  ⟨kept_still hs.toKept (coherent_ret hs.coherent hc v)
    (fun _ hq => (waits_setPc (k := .user) hq).resolve_right (by simp [waker])) (still_ret v),
    numbered_still (still_ret (p := p) v) hs.numbered⟩

end

theorem table_prioSet {pid : ℤ} {w : BitVec 32} (h : step s (.prioSet c pid w) = .ok t) :
    Table t b := by
  obtain ⟨p,hc,-,h⟩ := call_ok h
  rcases sysPrioSet_ok h with ⟨l,v,rfl,-⟩ | ⟨-,-,rfl⟩ | ⟨q,-,-,rfl⟩
  · exact table_setLock (table_ret (table_setLock hs l) hc v) _
  · exact table_ret (c := c) (table_setPriority hs p w) hc 1
  · exact table_setLock (table_ret (c := c)
      (table_setPriority (table_setLock hs (some p)) q w) hc 1)
      none

theorem numbered_userinit {a : Act C} (ha : isFamilyCall a = true) (hn : isProcessCall a = false)
    (h : step s a = .ok t) : Numbered (fun q => (t.proc q).pid) t.nextpid := by
  cases a <;> simp only [isFamilyCall, isProcessCall, Bool.false_eq_true,
    Bool.true_eq_false] at ha hn
  case userinitAlloc =>
    obtain ⟨-,np,v,hv,ht⟩ := userinitAlloc_ok h
    obtain ⟨-,rfl⟩ := allocproc_some hv
    have hp : ∀ q, (t.proc q).pid = update (fun q => (s.proc q).pid) np s.nextpid q := by
      intro q
      by_cases hq : q = np <;> simp [ht, hq]
    have hn : t.nextpid = s.nextpid+1 := by
      rw [ht]
      rfl
    rw [funext hp, hn]
    exact numbered_alloc hs.numbered np
  case userinitPublish =>
    obtain ⟨i,u,-,hu,ht⟩ := userinitPublish_ok h
    obtain ⟨k,-,-,rfl⟩ := makeRunnable_ok hu
    refine numbered_congr (fun q => ?_) ?_ hs.numbered
    · by_cases hq : q = i <;> simp [ht, hq]
    · rw [ht]
      rfl
  case userinitMutexes =>
    obtain ⟨-,rfl⟩ := userinitMutexes_ok h
    exact hs.numbered
  case resume c p =>
    have h : resume s c p = .ok t := h
    unfold resume at h
    split at h
    case isFalse => simp at h
    rename_i hb
    have hl : ¬Dead (s.proc p).state := fun hd => hs.coherent.idle p hd hb.2.2
    exact numbered_still (still_dispatch (phase_live hl) h) hs.numbered

theorem table_step {a : Act C} (ha : isTableCall a = true) (h : step s a = .ok t) :
    ∃ b, Table t b := by
  by_cases hp : ∃ c pid w, a = .prioSet c pid w
  · obtain ⟨c,pid,w,rfl⟩ := hp
    exact ⟨b,table_prioSet hs h⟩
  · have hf : isFamilyCall a = true := by
      cases a <;> simp only [isTableCall] at ha
      case prioSet c pid w => exact absurd ⟨c,pid,w,rfl⟩ hp
      all_goals exact ha
    refine ⟨record s a t b,kept_step hs.toKept hf h,?_⟩
    cases hn : isProcessCall a with
    | false => exact numbered_userinit hs hf hn h
    | true =>
      have hnum : Numbered (view s b).pid (view s b).next := hs.numbered
      rcases (process_follows hs.toKept hn h).2 with hv | hv
      · rw [← hv] at hnum
        exact hnum
      · exact numbered_step hs.forest hnum hv

end

theorem table_reaches (h : Reaches step (fun _ a => isTableCall a = true) (boot c) s) :
    ∃ b, Table s b := by
  refine reaches_invariant (fun s => ∃ b, Table s b) ?_ ⟨noEntries,kept_boot c,?_⟩ h
  · rintro s a t ⟨b,hs⟩ ha ht
    exact table_step hs ha ht
  · refine ⟨fun q => ?_,fun q r _ hz => ?_⟩
    · simp [boot, zeroProc]
    · simp [boot, zeroProc] at hz

def Live (x : ProcState) : Prop := ¬Dead x

def Descends (s : Kernel C) (q p : Slot) : Prop :=
  Relation.TransGen (fun x y => (s.proc x).parent = some y) q p

section
omit [DecidableEq C]

theorem descends_iff (h : (s.proc x).parent = some q) :
    Descends s x p ↔ q = p ∨ Descends s q p := by
  rw [Descends, Relation.TransGen.head'_iff]
  constructor
  · rintro ⟨r,hr,hp⟩
    obtain rfl := Option.some.inj (h.symm.trans hr)
    rcases Relation.reflTransGen_iff_eq_or_transGen.mp hp with rfl | hp
    · exact .inl rfl
    · exact .inr hp
  · rintro (rfl | hp)
    · exact ⟨q,h,Relation.ReflTransGen.refl⟩
    · exact ⟨q,h,hp.to_reflTransGen⟩

theorem not_descends (h : (s.proc x).parent = none) : ¬Descends s x p := by
  intro hd
  obtain ⟨r,hr,-⟩ := Relation.TransGen.head'_iff.mp hd
  simp [h] at hr

/-- The walk answers whether `p`, if it is not the first process, is on the
way up from `x`. -/
theorem isAncestor_climb (hf : Forest (view s b)) {l : List Slot} (hc : Climb (parent s) x l i)
    (hi : (s.proc i).pid = 1) (htop : (s.proc i).parent = none) (n : ℕ) (hn : l.length ≤ n) :
    ∃ r, isAncestor s p n (some x) = .ok r ∧
      (r = true ↔ 1 < (s.proc p).pid ∧ (x = p ∨ Descends s x p)) := by
  induction hc generalizing n with
  | here x =>
    cases n with
    | zero => simp at hn
    | succ n =>
      rw [isAncestor, if_neg (by omega)]
      refine ⟨false,rfl,by simp,?_⟩
      rintro ⟨h1,rfl | hd⟩
      · omega
      · exact absurd hd (not_descends htop)
  | @up x y r l link rest ih =>
    cases n with
    | zero => simp at hn
    | succ n =>
      have hlink : (s.proc x).parent = some y := link
      obtain ⟨hl,hlt⟩ := hf.parents x y hlink
      have hpos := (hf.pids y (held (.inl hl))).1
      have hx : 1 < (s.proc x).pid := by
        change 0 < (s.proc y).pid at hpos
        change (s.proc y).pid < (s.proc x).pid at hlt
        omega
      rw [isAncestor, if_pos hx]
      by_cases hp : x = p
      · subst hp
        rw [if_pos rfl]
        exact ⟨true,rfl,by simp [hx]⟩
      · rw [if_neg hp, hlink]
        obtain ⟨r,hr,hb⟩ := ih hi htop n (by simpa using hn)
        refine ⟨r,hr,?_⟩
        rw [hb, descends_iff hlink]
        simp [hp]

theorem isAncestor_eq (hs : Table s b) (hq : (s.proc q).parent = some x) :
    ∃ r, isAncestor s p (NPROC+1) (s.proc q).parent = .ok r ∧
      (r = true ↔ 1 < (s.proc p).pid ∧ Descends s q p) := by
  have hl := (hs.forest.parents q x hq).1
  obtain ⟨i,l,hi,hc,hn,-⟩ := climbs hs.forest (occupied_phase.mpr (.inl hl))
  have hle := hn.length_le_card
  simp only [Fintype.card_fin] at hle
  rw [hq, descends_iff hq]
  exact isAncestor_climb hs.forest hc (hs.forest.one i hi) (hs.forest.top i hi) _ (by omega)

end

def Entitled (s : Kernel C) (p : Slot) (pid : ℤ) (w : BitVec 32) : Prop :=
  0 ≤ w.toInt ∧ w.toInt < PRIO_MAX ∧ ((s.proc p).priority.toNat : ℤ) ≤ w.toInt ∧
    ((s.proc p).pid = pid ∨ ∃ q, Live (s.proc q).state ∧ Descends s q p ∧ (s.proc q).pid = pid)

def PrioSetRight (s : Kernel C) (c : C) (p : Slot) (pid : ℤ) (w : BitVec 32) : Prop :=
  (Entitled s p pid w ∧ ∃ q, (s.proc q).pid = pid ∧
    step s (.prioSet c pid w) = .ok (ret (s.setProc q { s.proc q with priority := w }) p 1)) ∨
  ¬Entitled s p pid w ∧ step s (.prioSet c pid w) = .ok (ret s p (-1))

def Regular (s : Kernel C) (p : Slot) (pid : ℤ) (w : BitVec 32) : Prop :=
  (PRIO_MAX ≤ w.toInt ∨ w < (s.proc p).priority) ∨
  ((s.proc p).pid = pid ∧ 0 ≤ w.toInt) ∨
  ((s.proc p).pid ≠ pid ∧ ∀ q, (s.proc q).pid = pid → (s.proc q).parent ≠ none ∧
    (Descends s q p →
      ((Live (s.proc q).state ∧ 0 ≤ w.toInt) ↔ s.initproc ≠ some p)))

section
omit [DecidableEq C]

theorem ret_unlocked (hl : s.lock = none) (v : ℤ) (l : Option Slot) :
    (ret (s.setLock l) p v).setLock none = ret s p v := by
  obtain ⟨⟩ := s
  simp only at hl
  subst hl
  rfl

theorem prioSet_search {pid : ℤ} {w : BitVec 32} (hl : s.lock = none)
    (hmax : ¬(PRIO_MAX : ℤ) ≤ w.toInt) (hlow : ¬w < (s.proc p).priority)
    (hpid : (s.proc p).pid ≠ pid) :
    sysPrioSet s p pid w =
      match findSlot (fun q => decide (q ≠ p) && decide ((s.proc q).pid = pid)) with
      | none => .ok (ret s p (-1))
      | some q => (isAncestor s p (NPROC+1) (s.proc q).parent).bind (fun r =>
          if r then .ok (ret (s.setProc q { s.proc q with priority := w }) p 1)
          else .ok (ret s p (-1))) := by
  rw [sysPrioSet, if_neg hmax, if_neg hlow, if_neg hpid]
  simp only [acquirePtable, acquire, hl, bind, Except.bind, Kernel.setLock_proc,
    isAncestor_setLock]
  cases findSlot (fun q => decide (q ≠ p) && decide ((s.proc q).pid = pid)) with
  | none => simp only [ret_unlocked hl]
  | some q =>
    simp only
    cases isAncestor s p (NPROC+1) (s.proc q).parent with
    | error e => rfl
    | ok r =>
      cases r with
      | false => simp only [Bool.false_eq_true, if_false, ret_unlocked hl]
      | true =>
        have hr := ret_unlocked (s := s.setProc q { s.proc q with priority := w }) (p := p) hl 1
          (some p)
        simp only [if_true, ← hr]
        rfl

end

section Right
variable {pid : ℤ} {w : BitVec 32}

omit [DecidableEq C] in
theorem ret_eax {v : ℤ} : ((ret s p v).proc p).eax = v := by simp [ret]

theorem right_refused (h : step s (.prioSet c pid w) = .ok (ret s p (-1))) :
    PrioSetRight s c p pid w ↔ ¬Entitled s p pid w := by
  constructor
  · rintro (⟨-,q,-,hq⟩ | ⟨hn,-⟩)
    · have he := congrArg (fun t => (t.proc p).eax) (Except.ok.inj (h.symm.trans hq))
      simp only [ret_eax] at he
      omega
    · exact hn
  · intro hn
    exact .inr ⟨hn,h⟩

theorem right_set (hq : (s.proc q).pid = pid) (h : step s (.prioSet c pid w) =
    .ok (ret (s.setProc q { s.proc q with priority := w }) p 1)) :
    PrioSetRight s c p pid w ↔ Entitled s p pid w := by
  constructor
  · rintro (⟨he,-⟩ | ⟨-,hr⟩)
    · exact he
    · have he := congrArg (fun t => (t.proc p).eax) (Except.ok.inj (h.symm.trans hr))
      simp only [ret_eax] at he
      omega
  · intro he
    exact .inl ⟨he,q,hq,h⟩

theorem right_stuck {e : Stop} (h : step s (.prioSet c pid w) = .error e) :
    ¬PrioSetRight s c p pid w := by
  rintro (⟨-,q,-,hq⟩ | ⟨-,hq⟩)
  · simp [h] at hq
  · simp [h] at hq

section
omit [DecidableEq C]

/-- For a priority that passes the range tests of the code only its sign and
the target are left to see. -/
theorem entitled_iff (hmax : ¬(PRIO_MAX : ℤ) ≤ w.toInt) (hlow : ¬w < (s.proc p).priority) :
    Entitled s p pid w ↔ 0 ≤ w.toInt ∧ ((s.proc p).pid = pid ∨
      ∃ q, Live (s.proc q).state ∧ Descends s q p ∧ (s.proc q).pid = pid) := by
  constructor
  · rintro ⟨h0,-,-,ht⟩
    exact ⟨h0,ht⟩
  · rintro ⟨h0,ht⟩
    have hn := toNat_of_nonneg h0
    rw [BitVec.lt_def] at hlow
    exact ⟨h0,by omega,by omega,ht⟩

theorem entitled_target (hs : Table s b) (hpid : (s.proc p).pid ≠ pid)
    (hmax : ¬(PRIO_MAX : ℤ) ≤ w.toInt) (hlow : ¬w < (s.proc p).priority)
    (hq : (s.proc q).pid = pid) (hz : pid ≠ 0) :
    Entitled s p pid w ↔ 0 ≤ w.toInt ∧ Live (s.proc q).state ∧ Descends s q p := by
  rw [entitled_iff hmax hlow, or_iff_right hpid]
  refine and_congr_right (fun _ => ⟨?_,fun h => ⟨q,h.1,h.2,hq⟩⟩)
  rintro ⟨r,hr,hd,hp⟩
  obtain rfl : r = q := hs.numbered.unique r q (hp.trans hq.symm) (by rw [hp]; exact hz)
  exact ⟨hr,hd⟩

theorem init_iff (hs : Table s b) (hp : Live (s.proc p).state) :
    s.initproc = some p ↔ ¬1 < (s.proc p).pid := by
  have hph : phase (s.proc p).state = .live := phase_live hp
  have hpos : 0 < (s.proc p).pid := (hs.forest.pids p (held (.inl hph))).1
  constructor
  · intro hi
    have h1 : (s.proc p).pid = 1 := hs.forest.one p hi
    omega
  · intro hn
    obtain ⟨i,hi,-⟩ := root_live hs.forest (p := p) hph
    have h1 : (s.proc i).pid = 1 := hs.forest.one i hi
    have he : (s.proc p).pid = (s.proc i).pid := by omega
    have hz : (s.proc p).pid ≠ 0 := by omega
    obtain rfl : p = i := hs.numbered.unique p i he hz
    exact hi

end

theorem search_right_iff (hs : Table s b) (hp : Live (s.proc p).state)
    (hstep : step s (.prioSet c pid w) = sysPrioSet s p pid w) (hl : s.lock = none)
    (hmax : ¬(PRIO_MAX : ℤ) ≤ w.toInt) (hlow : ¬w < (s.proc p).priority)
    (hpid : (s.proc p).pid ≠ pid) :
    PrioSetRight s c p pid w ↔ ∀ q, (s.proc q).pid = pid → (s.proc q).parent ≠ none ∧
      (Descends s q p → ((Live (s.proc q).state ∧ 0 ≤ w.toInt) ↔ s.initproc ≠ some p)) := by
  rw [prioSet_search hl hmax hlow hpid] at hstep
  cases hf : findSlot (fun q => decide (q ≠ p) && decide ((s.proc q).pid = pid)) with
  | none =>
    have hno : ∀ q, (s.proc q).pid ≠ pid := by
      intro q hq
      have hne : q ≠ p := fun h => hpid (h ▸ hq)
      simpa [hne, hq] using findSlot_none hf q
    rw [hf] at hstep
    rw [right_refused hstep]
    refine ⟨fun _ q hq => absurd hq (hno q),fun _ he => ?_⟩
    obtain ⟨-,h | ⟨q,-,-,hq⟩⟩ := (entitled_iff hmax hlow).mp he
    · exact hpid h
    · exact hno q hq
  | some q =>
    have hq := findSlot_some hf
    simp only [Bool.and_eq_true, decide_eq_true_eq] at hq
    rw [hf] at hstep
    simp only at hstep
    cases hpar : (s.proc q).parent with
    | none =>
      rw [hpar] at hstep
      refine ⟨fun h => absurd h (right_stuck hstep),fun h => absurd hpar (h q hq.2).1⟩
    | some x =>
      have hocc : phase (s.proc q).state ≠ .unused := by
        intro hun
        have hnone : (s.proc q).parent = none := hs.forest.orphan q hun
        simp [hpar] at hnone
      have hpos : 0 < (s.proc q).pid := (hs.forest.pids q hocc).1
      have hz : pid ≠ 0 := by
        rw [← hq.2]
        omega
      have honly : ∀ r, (s.proc r).pid = pid → r = q := fun r hr =>
        hs.numbered.unique r q (hr.trans hq.2.symm) (by rw [hr]; exact hz)
      have hall : (∀ r, (s.proc r).pid = pid → (s.proc r).parent ≠ none ∧
          (Descends s r p → ((Live (s.proc r).state ∧ 0 ≤ w.toInt) ↔ s.initproc ≠ some p))) ↔
          (Descends s q p → ((Live (s.proc q).state ∧ 0 ≤ w.toInt) ↔ 1 < (s.proc p).pid)) := by
        rw [Ne, init_iff hs hp, not_not]
        constructor
        · intro h
          exact (h q hq.2).2
        · intro h r hr
          rw [honly r hr]
          exact ⟨by simp [hpar],h⟩
      have hent := entitled_target (w := w) hs hpid hmax hlow hq.2 hz
      obtain ⟨r,hr,hb⟩ := isAncestor_eq (p := p) hs hpar
      rw [hr] at hstep
      simp only [Except.bind] at hstep
      rw [hall]
      cases r with
      | true =>
        obtain ⟨h1,hd⟩ := hb.mp rfl
        simp only [if_true] at hstep
        rw [right_set hq.2 hstep, hent]
        simp only [hd, h1, and_true, iff_true, true_imp_iff]
        exact and_comm
      | false =>
        have hb : ¬(1 < (s.proc p).pid ∧ Descends s q p) := by simpa using hb
        simp only [Bool.false_eq_true, if_false] at hstep
        rw [right_refused hstep, hent]
        by_cases hd : Descends s q p
        · have h1 : ¬1 < (s.proc p).pid := fun h1 => hb ⟨h1,hd⟩
          simp only [hd, h1, and_true, iff_false, true_imp_iff]
          exact not_congr and_comm
        · simp [hd]

/-- What `sys_prio_set` gets right. In every state that the process calls and
`sys_prio_set` itself reach, for every process in user space and all arguments,
the call does what it should exactly when it is regular. -/
theorem prio_set_right_iff {d : C}
    (h : Reaches step (fun _ a => isTableCall a = true) (boot d) s)
    (hc : s.cpu c = some p) (hu : s.pc p = .user) (hl : s.lock = none) (pid : ℤ) (w : BitVec 32) :
    PrioSetRight s c p pid w ↔ Regular s p pid w := by
  obtain ⟨b,hs⟩ := table_reaches h
  have hp : Live (s.proc p).state := hs.coherent.live c p hc
  have hstep : step s (.prioSet c pid w) = sysPrioSet s p pid w :=
    call_eq hc hu
  by_cases hr : (PRIO_MAX : ℤ) ≤ w.toInt ∨ w < (s.proc p).priority
  · have hno : sysPrioSet s p pid w = .ok (ret s p (-1)) := by
      unfold sysPrioSet
      split
      · rfl
      · rw [if_pos (hr.resolve_left ‹_›)]
    rw [right_refused (hstep.trans hno)]
    refine ⟨fun _ => .inl hr,fun _ => ?_⟩
    rintro ⟨h0,hlt,hle,-⟩
    have hn := toNat_of_nonneg h0
    rw [BitVec.lt_def] at hr
    omega
  · have hreg : Regular s p pid w ↔ _ := or_iff_right hr
    rw [hreg]
    rw [not_or] at hr
    by_cases hown : (s.proc p).pid = pid
    · have hset : sysPrioSet s p pid w =
          .ok (ret (s.setProc p { s.proc p with priority := w }) p 1) := by
        rw [sysPrioSet, if_neg hr.1, if_neg hr.2, if_pos hown]
      rw [right_set hown (hstep.trans hset), entitled_iff hr.1 hr.2]
      simp [hown]
    · rw [search_right_iff hs hp hstep hl hr.1 hr.2 hown]
      simp [hown]

end Right

/-- A child of the first process sets its own priority. -/
theorem prio_set_right_child : ∃ s : Kernel (Fin 2),
    Reaches step (fun _ a => isTableCall a = true) (boot 0) s ∧
    (s.cpu 1 = some 1 ∧ s.pc 1 = .user ∧ s.lock = none ∧ (s.proc 1).pid = 2) ∧
    (PrioSetRight s 1 1 2 7 ↔ Regular s 1 2 7) := by
  obtain ⟨s,hr,hs⟩ := play_witness step (fun _ a => isTableCall a = true)
    (fun _ a => isTableCall a) (fun _ _ h => h) (boot (0 : Fin 2))
    (List.flatten [startup, forkOn 0, [.schedule 1]])
    (fun s => decide (s.cpu 1 = some 1 ∧ s.pc 1 = .user ∧ s.lock = none ∧ (s.proc 1).pid = 2))
    (by decide +kernel)
  have hs := of_decide_eq_true hs
  exact ⟨s,hr,hs,prio_set_right_iff hr hs.1 hs.2.1 hs.2.2.1 2 7⟩

/-- The first process, with a live child of id 2, calls `sys_prio_set`. For the
id 0 the code follows the null link of an unused slot, for its child it returns
-1, and for itself it accepts the priority -1. -/
theorem prio_set_wrong_run : ∃ s t u : Kernel (Fin 2),
    Reaches step (fun _ a => isTableCall a = true) (boot 0) s ∧
    (s.cpu 0 = some 0 ∧ s.initproc = some 0 ∧ (s.proc 1).state = .runnable ∧
      (s.proc 1).parent = some 0 ∧ (s.proc 1).pid = 2) ∧
    (step s (.prioSet 0 0 5) = .error .wild ∧ ¬PrioSetRight s 0 0 0 5) ∧
    (step s (.prioSet 0 2 5) = .ok t ∧ (t.proc 0).eax = -1) ∧
    step s (.prioSet 0 1 (-1)) = .ok u ∧ (u.proc 0).eax = 1 ∧ (u.proc 0).priority.toInt = -1 := by
  obtain ⟨s,hr,hs⟩ := play_witness step (fun _ a => isTableCall a = true)
    (fun _ a => isTableCall a) (fun _ _ h => h) (boot (0 : Fin 2)) (startup ++ forkOn 0)
    (fun s => decide (s.cpu 0 = some 0 ∧ s.initproc = some 0 ∧ (s.proc 1).state = .runnable ∧
        (s.proc 1).parent = some 0 ∧ (s.proc 1).pid = 2) &&
      decide (failure (step s (.prioSet 0 0 5)) = some .wild) &&
      (step s (.prioSet 0 2 5)).toOption.any (fun t : Kernel (Fin 2) =>
        decide ((t.proc 0).eax = -1)) &&
      (step s (.prioSet 0 1 (-1))).toOption.any (fun t : Kernel (Fin 2) =>
        decide ((t.proc 0).eax = 1 ∧ (t.proc 0).priority.toInt = -1)))
    (by decide +kernel)
  simp only [Bool.and_eq_true] at hs
  obtain ⟨⟨⟨h1,h2⟩,h3⟩,h4⟩ := hs
  have hw := failure_eq_some.mp (of_decide_eq_true h2)
  obtain ⟨t,ht,hv⟩ := ok_of_any h3
  obtain ⟨u,hu,hx⟩ := ok_of_any h4
  exact ⟨s,t,u,hr,of_decide_eq_true h1,⟨hw,right_stuck hw⟩,⟨ht,of_decide_eq_true hv⟩,hu,
    of_decide_eq_true hx⟩

end Xv6.PrioritySet
