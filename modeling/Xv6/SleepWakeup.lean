import Xv6.ReadyRuns
import Xv6.Kinship

/-!
# Sleep and wakeup

Processes that wait for a condition under a spinlock `lk` and processes that
establish it and call `wakeup`, interleaved at the operations on `lk` and
`ptable.lock`. A sleeper gives `lk` back only after it holds `ptable.lock`.
Others may be preempted, kill and wake whomever they like.
-/

set_option autoImplicit false

namespace Xv6.SleepWakeup
open Function KernelState ReadyQueue ProcessCalls TransitionRun
open Machine (blocked crew)
open ProcessFrames ProcessEffects ReadyInvariant
open ReadyRuns Kinship

inductive Point where
  | outside
  | arrive
  | test
  | enter
  | give
  | doze
  | asleep
  | tidy
  | leave
  | relock
  | body
  | approach
  | set
  | call
  | scan
  | drop
  | done
  deriving DecidableEq, Repr

def Point.holdsLk : Point → Bool
  | .test | .enter | .give | .body | .set | .call | .scan | .drop | .done => true
  | _ => false

def Point.holdsTable : Point → Bool
  | .give | .doze | .tidy | .leave | .scan | .drop => true
  | _ => false

structure World (C : Type) where
  kernel : Kernel C
  lk : Option Slot
  cond : Bool
  point : Slot → Point

inductive Act (C : Type) where
  | schedule (c : C)
  | yield (c : C)
  | kill (c : C) (pid : ℤ)
  | wakeup (ch : Chan)
  | spurious (q : Slot)
  | start (c : C) (waker : Bool)
  | advance (c : C)
  | finish (c : C) (keep : Bool)
  deriving DecidableEq, Repr

variable {C : Type} [DecidableEq C]

def World.goto (s : World C) (p : Slot) (k : Point) : World C :=
  { s with point := update s.point p k }

def World.withKernel (s : World C) (k : Kernel C) : World C := { s with kernel := k }

def acquireLk (s : World C) (p : Slot) (k : Point) : Except Stop (World C) := do
  acquire s.lk p
  .ok ({ s with lk := some p }.goto p k)

def advance (ch : Chan) (s : World C) (c : C) (p : Slot) : Except Stop (World C) :=
  match s.point p with
  | .outside | .asleep | .body => .error .disabled
  | .arrive => acquireLk s p .test
  | .test => .ok (s.goto p (if s.cond then .body else .enter))
  -- sleep(chan, lk)
  | .enter => (acquirePtable s.kernel p).map (fun k => (s.withKernel k).goto p .give)
  | .give => .ok ({ s with lk := none }.goto p .doze)
  | .doze => (sleepOn s.kernel c p ch .asleep).map (fun k => (s.withKernel k).goto p .asleep)
  | .tidy => .ok ((s.withKernel
      (s.kernel.setProc p { s.kernel.proc p with chan := none })).goto p .leave)
  | .leave => .ok ((s.withKernel (s.kernel.setLock none)).goto p .relock)
  | .relock => acquireLk s p .test
  | .approach => acquireLk s p .set
  | .set => .ok ({ s with cond := true }.goto p .call)
  -- wakeup(chan)
  | .call => (acquirePtable s.kernel p).map (fun k => (s.withKernel k).goto p .scan)
  | .scan => (wakeup1 s.kernel (some ch)).map (fun k => (s.withKernel k).goto p .drop)
  | .drop => .ok ((s.withKernel (s.kernel.setLock none)).goto p .done)
  | .done => .ok ({ s with lk := none }.goto p .outside)

def schedule (s : World C) (c : C) : Except Stop (World C) :=
  if s.kernel.lock ≠ none ∨ s.kernel.cpu c ≠ none then .error .disabled
  else match pqDequeue s.kernel with
    | (k,none) => .ok (s.withKernel k)
    | (_,some none) => .error (.panic "switchuvm: no process")
    | (k,some (some p)) =>
      if s.point p = .asleep then
        .ok ((s.withKernel (switchTo k c p (k.proc p).chan .user (some p))).goto p .tidy)
      else (dispatch k c p).map (fun k => s.withKernel (k.setLock none))

def spurious (s : Kernel C) (q : Slot) : Except Stop (Kernel C) :=
  if s.lock = none ∧ (s.proc q).state = .sleeping then makeRunnable s q else .error .disabled

def onCpu (s : World C) (c : C) (f : Slot → Except Stop (World C)) : Except Stop (World C) :=
  match s.kernel.cpu c with
  | none => .error .disabled
  | some p => f p

def step (ch : Chan) (s : World C) : Act C → Except Stop (World C)
  | .schedule c => schedule s c
  | .yield c => onCpu s c (fun p =>
      -- interrupts are off while a spinlock is held
      if s.lk = some p then .error .disabled else (yield s.kernel c p).map s.withKernel)
  | .kill c pid => onCpu s c (fun p =>
      if s.point p = .outside then (kill s.kernel p pid).map s.withKernel else .error .disabled)
  | .wakeup ch' => (wakeup s.kernel ch').map s.withKernel
  | .spurious q => (spurious s.kernel q).map s.withKernel
  | .start c waker => onCpu s c (fun p =>
      if s.point p = .outside then .ok (s.goto p (if waker then .approach else .arrive))
      else .error .disabled)
  | .advance c => onCpu s c (fun p => advance ch s c p)
  | .finish c keep => onCpu s c (fun p =>
      if s.point p = .body then .ok ({ s with cond := keep && s.cond }.goto p .done)
      else .error .disabled)

def SleepsOn (ch : Chan) (s : Kernel C) (q : Slot) : Prop :=
  (s.proc q).state = .sleeping ∧ (s.proc q).chan = some ch

instance (ch : Chan) (s : Kernel C) (q : Slot) : Decidable (SleepsOn ch s q) :=
  inferInstanceAs (Decidable (_ ∧ _))

def Quiet (ch : Chan) (s t : Kernel C) : Prop := ∀ q, SleepsOn ch t q → SleepsOn ch s q

def WakesAll (ch : Chan) (s t : Kernel C) : Prop :=
  ∀ q, t.proc q = (if SleepsOn ch s q then { s.proc q with state := .runnable } else s.proc q) ∧
    entries t q = if SleepsOn ch s q then 1 else entries s q

section Quiet
variable {ch ch' : Chan} {s t u : Kernel C} {c : C} {p q : Slot}

section
omit [DecidableEq C]

theorem quiet_trans (h : Quiet ch s t) (k : Quiet ch t u) : Quiet ch s u :=
  fun q hq => h q (k q hq)

theorem quiet_proc (h : t.proc = s.proc) : Quiet ch s t := by
  intro q hq
  rwa [SleepsOn, h] at hq

theorem quiet_setProc {r : Proc} (hr : r.state = .sleeping → r.chan = some ch → SleepsOn ch s q) :
    Quiet ch s (s.setProc q r) := by
  intro x hx
  by_cases h : x = q
  · subst h
    obtain ⟨h1,h2⟩ := hx
    exact hr (by simpa using h1) (by simpa using h2)
  · simpa [SleepsOn, h] using hx

theorem quiet_makeRunnable (h : makeRunnable s q = .ok t) : Quiet ch s t := by
  obtain ⟨k,-,-,rfl⟩ := makeRunnable_ok h
  have hr : Quiet ch s (s.setProc q { s.proc q with state := .runnable }) :=
    quiet_setProc (by simp)
  exact quiet_trans hr (quiet_proc rfl)

end

theorem quiet_switchTo (k : Option Chan) (l : Pc) (m : Option Slot) :
    Quiet ch s (switchTo s c p k l m) := by
  have hr : Quiet ch s (s.setProc p { s.proc p with chan := k, state := .running }) :=
    quiet_setProc (by simp)
  exact quiet_trans hr (quiet_proc rfl)

section
omit [DecidableEq C]

theorem quiet_wakeup1 {k : Option Chan} (h : wakeup1 s k = .ok t) : Quiet ch s t := by
  intro q hq
  have hp := wakeup1_procs h q
  by_cases hs : (s.proc q).state = .sleeping ∧ (s.proc q).chan = k
  · rw [if_pos hs] at hp
    simp [SleepsOn, hp] at hq
  · rw [if_neg hs] at hp
    rwa [SleepsOn, hp] at hq

theorem quiet_markKilled (h : markKilled s q = .ok t) : Quiet ch s t := by
  have hk : Quiet ch s (s.setProc q { s.proc q with killed := true }) :=
    quiet_setProc (fun h1 h2 => ⟨h1,h2⟩)
  unfold markKilled at h
  simp only at h
  split at h
  · exact quiet_trans hk (quiet_makeRunnable h)
  · cases h
    exact hk

theorem quiet_ret (v : ℤ) : Quiet ch s (ret s p v) := by
  have hr : Quiet ch s (s.setProc p { s.proc p with eax := v }) :=
    quiet_setProc (fun h1 h2 => ⟨h1,h2⟩)
  exact quiet_trans hr (quiet_proc rfl)

end

end Quiet

structure Safe (ch : Chan) (s : World C) : Prop where
  consistent : Consistent s.kernel
  holder : ∀ p, (s.point p).holdsLk = true ↔ s.lk = some p
  table : ∀ p, (s.point p).holdsTable = true → s.kernel.lock = some p
  seen : ∀ p, s.point p = .enter ∨ s.point p = .give → s.cond = false
  woken : s.cond = true → (∃ p, s.point p = .call ∨ s.point p = .scan) ∨
    ∀ p, s.point p ≠ .doze ∧ ¬SleepsOn ch s.kernel p

structure Moved (s t : World C) (p : Slot) (k : Point) : Prop where
  point : t.point = update s.point p k
  taken : k.holdsLk = true → t.lk = some p ∧ (s.lk = none ∨ s.lk = some p)
  free : k.holdsLk = false → t.lk = if (s.point p).holdsLk then none else s.lk
  locked : k.holdsTable = true →
    t.kernel.lock = some p ∧ (s.kernel.lock = none ∨ s.kernel.lock = some p)
  unlocked : k.holdsTable = false →
    t.kernel.lock = if (s.point p).holdsTable then none else s.kernel.lock
  cond : t.cond = true → s.cond = true ∨ (s.point p).holdsLk = true
  seen : k = .enter ∨ k = .give → t.cond = false

section Safe
variable {ch : Chan} {s t : World C} {c : C} {p : Slot} {k : Point}

section
variable (hs : Safe ch s) (h : Moved s t p k)
include hs h

section
omit [DecidableEq C]

theorem moved_holder (q : Slot) : (t.point q).holdsLk = true ↔ t.lk = some q := by
  have hq := hs.holder q
  have hp := hs.holder p
  rw [h.point]
  cases hk : k.holdsLk with
  | true =>
    obtain ⟨h1,h2⟩ := h.taken hk
    by_cases hqp : q = p
    · simp [hqp, hk, h1]
    · rw [update_of_ne hqp, hq, h1]
      rcases h2 with h2 | h2 <;> simp [h2, Ne.symm hqp]
  | false =>
    rw [h.free hk]
    by_cases hqp : q = p
    · subst hqp
      rw [update_self]
      split
      · simp [hk]
      · rename_i hn
        rw [← hq]
        simp [hk, hn]
    · rw [update_of_ne hqp, hq]
      split
      · rw [hp.mp ‹_›]
        simp [Ne.symm hqp]
      · rfl

theorem moved_table (q : Slot) (hq : (t.point q).holdsTable = true) : t.kernel.lock = some q := by
  rw [h.point] at hq
  by_cases hqp : q = p
  · subst hqp
    rw [update_self] at hq
    exact (h.locked hq).1
  · rw [update_of_ne hqp] at hq
    have hl := hs.table q hq
    cases hk : k.holdsTable with
    | true =>
      obtain ⟨-,h2⟩ := h.locked hk
      simp [hl, hqp] at h2
    | false =>
      rw [h.unlocked hk]
      split
      · have hp := hs.table p ‹_›
        exact absurd (Option.some.inj (hl.symm.trans hp)) hqp
      · exact hl

theorem moved_seen (q : Slot) (hq : t.point q = .enter ∨ t.point q = .give) : t.cond = false := by
  rw [h.point] at hq
  by_cases hqp : q = p
  · subst hqp
    rw [update_self] at hq
    exact h.seen hq
  · rw [update_of_ne hqp] at hq
    have hc := hs.seen q hq
    have hl : s.lk = some q := (hs.holder q).mp (by rcases hq with hq | hq <;>
      simp [hq, Point.holdsLk])
    by_contra ht
    rcases h.cond (by simpa using ht) with h | h
    · simp [hc] at h
    · have hp := (hs.holder p).mp h
      exact hqp (Option.some.inj (hl.symm.trans hp))

theorem moved_safe (hc : Consistent t.kernel)
    (hw : t.cond = true → (∃ p, t.point p = .call ∨ t.point p = .scan) ∨ ∀ p, t.point p ≠ .doze ∧
      ¬SleepsOn ch t.kernel p) :
    Safe ch t :=
  ⟨hc,moved_holder hs h,moved_table hs h,moved_seen hs h,hw⟩

/-- An operation that lets nobody fall asleep and passes by no scan. -/
theorem moved_quiet (hc : Consistent t.kernel) (hq : Quiet ch s.kernel t.kernel)
    (hcond : t.cond = true → s.cond = true) (hk : k ≠ .doze)
    (hw : s.point p = .call ∨ s.point p = .scan → k = .call ∨ k = .scan) : Safe ch t := by
  refine moved_safe hs h hc (fun ht => ?_)
  rcases hs.woken (hcond ht) with ⟨q,hq⟩ | hn
  · refine .inl ⟨q,?_⟩
    rw [h.point]
    by_cases hqp : q = p
    · subst hqp
      rw [update_self]
      exact hw hq
    · rwa [update_of_ne hqp]
  · refine .inr (fun q => ⟨?_,fun hz => (hn q).2 (hq q hz)⟩)
    rw [h.point]
    by_cases hqp : q = p
    · simpa [hqp] using hk
    · simpa [hqp] using (hn q).1

end

end

section
omit [DecidableEq C]

theorem kernel_safe (hs : Safe ch s) {k : Kernel C} (hfree : s.kernel.lock = none)
    (hc : Consistent k) (hq : Quiet ch s.kernel k) : Safe ch (s.withKernel k) := by
  refine ⟨hc,hs.holder,fun p hp => ?_,hs.seen,fun h => ?_⟩
  · have hl := hs.table p hp
    simp [hfree] at hl
  · rcases hs.woken h with h | h
    · exact .inl h
    · exact .inr (fun p => ⟨(h p).1,fun hz => (h p).2 (hq p hz)⟩)

theorem acquireLk_ok (h : acquireLk s p k = .ok t) :
    s.lk = none ∧ t = { s with lk := some p }.goto p k := by
  obtain ⟨_,hl,h⟩ := bind_ok h
  exact ⟨acquire_ok hl,(Except.ok.inj h).symm⟩

end

section
variable (hs : Safe ch s)
include hs

section
omit [DecidableEq C]

theorem acquireLk_safe (h : acquireLk s p k = .ok t) (h1 : k.holdsLk = true)
    (h2 : k.holdsTable = false) (h3 : (s.point p).holdsTable = false)
    (h4 : k ≠ .enter ∧ k ≠ .give ∧ k ≠ .doze) : Safe ch t := by
  obtain ⟨hl,rfl⟩ := acquireLk_ok h
  have hp : (s.point p).holdsLk = false := by
    have hn := hs.holder p
    simpa [hl] using hn
  have hm : Moved s ({ s with lk := some p }.goto p k) p k :=
    ⟨rfl,fun _ => ⟨rfl,.inl hl⟩,by simp [h1],by simp [h2],by simp [h3, World.goto],.inl,
      by simp [h4]⟩
  refine moved_quiet hs hm hs.consistent (fun _ => id) id h4.2.2 (fun hw => ?_)
  rcases hw with hw | hw <;> simp [hw, Point.holdsLk] at hp

theorem table_moved {r : Kernel C} (h1 : k.holdsLk = (s.point p).holdsLk)
    (h2 : k.holdsTable = true → r.lock = some p ∧ (s.kernel.lock = none ∨ s.kernel.lock = some p))
    (h3 : k.holdsTable = false → r.lock = if (s.point p).holdsTable then none else s.kernel.lock)
    (h4 : k = .enter ∨ k = .give → s.cond = false) : Moved s ((s.withKernel r).goto p k) p k := by
  refine ⟨rfl,fun hk => ?_,fun hk => ?_,h2,h3,.inl,h4⟩
  · have hl := (hs.holder p).mp (h1 ▸ hk)
    exact ⟨hl,.inr hl⟩
  · rw [if_neg (by rw [← h1, hk]; decide)]
    rfl

/-- The scan: all threads that were about to sleep hold `ptable.lock`, and
those asleep are woken. -/
theorem scan_safe (hp : s.point p = .scan) {r : Kernel C} (h : wakeup1 s.kernel (some ch) = .ok r) :
    Safe ch ((s.withKernel r).goto p .drop) := by
  have hl := hs.table p (by simp [hp, Point.holdsTable])
  obtain ⟨r',hr,hwk⟩ := wakes_wakeup1 hs.consistent.queued hs.consistent.prio (some ch)
  obtain rfl := Except.ok.inj (hr.symm.trans h)
  have hlock : r'.lock = s.kernel.lock := by rw [hwk.frame]
  have hm : Moved s ((s.withKernel r').goto p .drop) p .drop :=
    table_moved hs (by simp [hp, Point.holdsLk]) (fun _ => ⟨hlock.trans hl,.inr hl⟩)
      (by simp [Point.holdsTable]) (by simp)
  refine moved_safe hs hm (consistent_wakes hs.consistent hwk) (fun _ => .inr (fun q => ⟨?_,?_⟩))
  · intro hq
    by_cases hqp : q = p
    · simp [World.goto, hqp] at hq
    · have hd : s.point q = .doze := by simpa [World.goto, World.withKernel, hqp] using hq
      have hlq := hs.table q (by simp [hd, Point.holdsTable])
      exact hqp (Option.some.inj (hlq.symm.trans hl))
  · rintro ⟨h1,h2⟩
    have hq := wakeup1_procs h q
    split at hq
    · simp [World.goto, World.withKernel, hq] at h1
    · rename_i hn
      exact hn ⟨by simpa [World.goto, World.withKernel, hq] using h1,
        by simpa [World.goto, World.withKernel, hq] using h2⟩

end

theorem doze_safe (hp : s.point p = .doze) (hcpu : s.kernel.cpu c = some p) {r : Kernel C}
    (h : sleepOn s.kernel c p ch .asleep = .ok r) : Safe ch ((s.withKernel r).goto p .asleep) := by
  have hc : Consistent r := by
    have hk := sleepOn_sound (k := .asleep) hs.consistent hcpu ch (by simp [resumePc])
      (by simp [Plain])
    rwa [h] at hk
  have hlock : r.lock = none := by
    rw [(sched_settled h hs.consistent.settled).2]
    rfl
  have hm : Moved s ((s.withKernel r).goto p .asleep) p .asleep :=
    table_moved hs (by simp [hp, Point.holdsLk]) (by simp [Point.holdsTable])
      (by simp [hp, hlock, Point.holdsTable]) (by simp)
  refine moved_safe hs hm hc (fun ht => .inl ?_)
  rcases hs.woken ht with ⟨q,hq⟩ | hn
  · refine ⟨q,?_⟩
    have hqp : q ≠ p := by
      rintro rfl
      simp [hp] at hq
    simpa [World.goto, World.withKernel, hqp] using hq
  · exact absurd hp (hn p).1

theorem advance_safe (hcpu : s.kernel.cpu c = some p) (h : advance ch s c p = .ok t) :
    Safe ch t := by
  unfold advance at h
  cases hp : s.point p with
  | outside => simp [hp] at h
  | asleep => simp [hp] at h
  | body => simp [hp] at h
  | arrive =>
    simp only [hp] at h
    exact acquireLk_safe hs h rfl rfl (by simp [hp, Point.holdsTable]) (by simp)
  | relock =>
    simp only [hp] at h
    exact acquireLk_safe hs h rfl rfl (by simp [hp, Point.holdsTable]) (by simp)
  | approach =>
    simp only [hp] at h
    exact acquireLk_safe hs h rfl rfl (by simp [hp, Point.holdsTable]) (by simp)
  | test =>
    simp only [hp] at h
    cases h
    have hm : Moved s (s.goto p (if s.cond then .body else .enter)) p
        (if s.cond then .body else .enter) := by
      apply table_moved (r := s.kernel) hs
      · split <;> simp [hp, Point.holdsLk]
      · split <;> simp [Point.holdsTable]
      · simp [hp, Point.holdsTable]
      · split <;> simp [*]
    refine moved_quiet hs hm hs.consistent (fun _ => id) id ?_ (by simp [hp])
    split <;> simp
  | enter =>
    simp only [hp] at h
    obtain ⟨r,hr,rfl⟩ := map_ok h
    obtain ⟨hl,rfl⟩ := acquirePtable_ok hr
    have hm : Moved s ((s.withKernel (s.kernel.setLock (some p))).goto p .give) p .give :=
      table_moved hs (by simp [hp, Point.holdsLk]) (fun _ => ⟨rfl,.inl hl⟩)
        (by simp [Point.holdsTable]) (fun _ => hs.seen p (.inl hp))
    exact moved_quiet hs hm (consistent_setLock hs.consistent _) (quiet_proc rfl) id (by simp)
      (by simp [hp])
  | give =>
    simp only [hp] at h
    cases h
    have hl := hs.table p (by simp [hp, Point.holdsTable])
    have hm : Moved s ({ s with lk := none }.goto p .doze) p .doze :=
      ⟨rfl,by simp [Point.holdsLk],by simp [hp, Point.holdsLk, World.goto],
        fun _ => ⟨hl,.inr hl⟩,by simp [Point.holdsTable],.inl,by simp⟩
    refine moved_safe hs hm hs.consistent (fun ht => ?_)
    have hf := hs.seen p (.inr hp)
    exact absurd (ht.symm.trans hf) (by decide)
  | doze =>
    simp only [hp] at h
    obtain ⟨r,hr,rfl⟩ := map_ok h
    exact doze_safe hs hp hcpu hr
  | tidy =>
    simp only [hp] at h
    cases h
    have hl := hs.table p (by simp [hp, Point.holdsTable])
    have hm := table_moved (k := .leave) (p := p)
      (r := s.kernel.setProc p { s.kernel.proc p with chan := none }) hs
      (by simp [hp, Point.holdsLk]) (fun _ => ⟨hl,.inr hl⟩) (by simp [Point.holdsTable]) (by simp)
    exact moved_quiet hs hm
      (consistent_setProc hs.consistent { s.kernel.proc p with chan := none } rfl
        (hs.consistent.prio p))
      (quiet_setProc (by simp)) id (by simp) (by simp [hp])
  | leave =>
    simp only [hp] at h
    cases h
    have hm := table_moved (k := .relock) (p := p) (r := s.kernel.setLock none) hs
      (by simp [hp, Point.holdsLk]) (by simp [Point.holdsTable]) (by simp [hp, Point.holdsTable])
      (by simp)
    exact moved_quiet hs hm (consistent_setLock hs.consistent none) (quiet_proc rfl) id (by simp)
      (by simp [hp])
  | set =>
    simp only [hp] at h
    cases h
    have hl := (hs.holder p).mp (by simp [hp, Point.holdsLk])
    have hm : Moved s ({ s with cond := true }.goto p .call) p .call :=
      ⟨rfl,fun _ => ⟨hl,.inr hl⟩,by simp [Point.holdsLk],by simp [Point.holdsTable],
        by simp [hp, Point.holdsTable, World.goto],fun _ => .inr (by simp [hp, Point.holdsLk]),
        by simp⟩
    exact moved_safe hs hm hs.consistent (fun _ => .inl ⟨p,by simp [World.goto]⟩)
  | call =>
    simp only [hp] at h
    obtain ⟨r,hr,rfl⟩ := map_ok h
    obtain ⟨hl,rfl⟩ := acquirePtable_ok hr
    have hm : Moved s ((s.withKernel (s.kernel.setLock (some p))).goto p .scan) p .scan :=
      table_moved hs (by simp [hp, Point.holdsLk]) (fun _ => ⟨rfl,.inl hl⟩)
        (by simp [Point.holdsTable]) (by simp)
    exact moved_quiet hs hm (consistent_setLock hs.consistent _) (quiet_proc rfl) id (by simp)
      (by simp)
  | scan =>
    simp only [hp] at h
    obtain ⟨r,hr,rfl⟩ := map_ok h
    exact scan_safe hs hp hr
  | drop =>
    simp only [hp] at h
    cases h
    have hm := table_moved (k := .done) (p := p) (r := s.kernel.setLock none) hs
      (by simp [hp, Point.holdsLk]) (by simp [Point.holdsTable]) (by simp [hp, Point.holdsTable])
      (by simp)
    exact moved_quiet hs hm (consistent_setLock hs.consistent none) (quiet_proc rfl) id (by simp)
      (by simp [hp])
  | done =>
    simp only [hp] at h
    cases h
    have hm : Moved s ({ s with lk := none }.goto p .outside) p .outside :=
      ⟨rfl,by simp [Point.holdsLk],by simp [hp, Point.holdsLk, World.goto],
        by simp [Point.holdsTable],by simp [hp, Point.holdsTable, World.goto],.inl,by simp⟩
    exact moved_quiet hs hm hs.consistent (fun _ => id) id (by simp) (by simp [hp])

theorem schedule_safe (h : schedule s c = .ok t) : Safe ch t := by
  unfold schedule at h
  split at h
  · simp at h
  rename_i hg
  simp only [not_or, not_not] at hg
  split at h
  · rename_i k hd
    cases h
    obtain ⟨rfl,-⟩ := pqDequeue_none hd
    exact hs
  · simp at h
  · rename_i k p hd
    have hproc : k.proc = s.kernel.proc := by
      obtain ⟨i,rfl,-⟩ := pqDequeue_some hd
      rfl
    split at h
    · rename_i hp
      cases h
      have hm := table_moved (k := .tidy) (p := p)
        (r := switchTo k c p (k.proc p).chan .user (some p)) hs (by simp [hp, Point.holdsLk])
        (fun _ => ⟨rfl,.inl hg.1⟩) (by simp [Point.holdsTable]) (by simp)
      exact moved_quiet hs hm
        (consistent_switchTo hs.consistent hg.2 hd _ _ (.inr (by simp [Plain])))
        (quiet_trans (quiet_proc hproc) (quiet_switchTo _ _ _)) id (by simp) (by simp [hp])
    · obtain ⟨r,hr,rfl⟩ := map_ok h
      obtain ⟨q,u,he,-,hu,hc⟩ := consistent_switch hs.consistent hg.2 hd
      cases he
      obtain rfl := Except.ok.inj (hu.symm.trans hr)
      obtain ⟨k',l,m,rfl,-⟩ := dispatch_ok hu
      exact kernel_safe hs hg.1 (consistent_setLock hc none)
        (quiet_trans (quiet_proc hproc) (quiet_trans (quiet_switchTo k' l m) (quiet_proc rfl)))

end

omit [DecidableEq C] in
theorem onCpu_ok {f : Slot → Except Stop (World C)} (h : onCpu s c f = .ok t) :
    ∃ p, s.kernel.cpu c = some p ∧ f p = .ok t := by
  unfold onCpu at h
  split at h
  · simp at h
  · exact ⟨_,‹_›,h⟩

section
variable (hs : Safe ch s)
include hs

section
omit [DecidableEq C]

theorem start_safe (hp : s.point p = .outside) (hk : k = .approach ∨ k = .arrive) :
    Safe ch (s.goto p k) := by
  have hm : Moved s (s.goto p k) p k := by
    apply table_moved (r := s.kernel) hs
    · rcases hk with rfl | rfl <;> simp [hp, Point.holdsLk]
    · rcases hk with rfl | rfl <;> simp [Point.holdsTable]
    · simp [hp, Point.holdsTable]
    · rcases hk with rfl | rfl <;> simp
  refine moved_quiet hs hm hs.consistent (fun _ => id) id ?_ (by simp [hp])
  rcases hk with rfl | rfl <;> simp

theorem finish_safe (hp : s.point p = .body) (keep : Bool) :
    Safe ch ({ s with cond := keep && s.cond }.goto p .done) := by
  have hl := (hs.holder p).mp (by simp [hp, Point.holdsLk])
  have hm : Moved s ({ s with cond := keep && s.cond }.goto p .done) p .done :=
    ⟨rfl,fun _ => ⟨hl,.inr hl⟩,by simp [Point.holdsLk],by simp [Point.holdsTable],
      by simp [hp, Point.holdsTable, World.goto],fun _ => .inr (by simp [hp, Point.holdsLk]),
      by simp⟩
  refine moved_quiet hs hm hs.consistent (fun _ => id) (fun ht => ?_) (by simp) (by simp [hp])
  simp only [World.goto, Bool.and_eq_true] at ht
  exact ht.2

theorem kill_safe (hcpu : s.kernel.cpu c = some p) {pid : ℤ} {r : Kernel C}
    (h : kill s.kernel p pid = .ok r) : Safe ch (s.withKernel r) := by
  have hc : Consistent r := by
    have hk := kill_sound hs.consistent hcpu pid
    rwa [h] at hk
  have hq : Quiet ch s.kernel (s.kernel.setLock (some p)) := quiet_proc rfl
  obtain ⟨hl,rfl | ⟨q,u,-,hu,rfl⟩⟩ := kill_ok h
  · exact kernel_safe hs hl hc (quiet_trans hq (quiet_trans (quiet_ret (-1)) (quiet_proc rfl)))
  · exact kernel_safe hs hl hc (quiet_trans hq (quiet_trans (quiet_markKilled hu)
      (quiet_trans (quiet_ret 0) (quiet_proc rfl))))

theorem wakeup_safe {ch' : Chan} {r : Kernel C} (h : wakeup s.kernel ch' = .ok r) :
    Safe ch (s.withKernel r) := by
  have hc : Consistent r := by
    have hk := wakeup_sound hs.consistent ch'
    rwa [h] at hk
  have hl := (wakeup_ok h).1
  rw [wakeup, if_neg (by simp [hl])] at h
  exact kernel_safe hs hl hc (quiet_wakeup1 h)

theorem spurious_safe {q : Slot} {r : Kernel C} (h : spurious s.kernel q = .ok r) :
    Safe ch (s.withKernel r) := by
  unfold spurious at h
  split at h
  · rename_i hg
    obtain ⟨r',hr,hw⟩ := wakes_makeRunnable hs.consistent.queued hs.consistent.prio hg.2
    obtain rfl := Except.ok.inj (hr.symm.trans h)
    exact kernel_safe hs hg.1 (consistent_wakes hs.consistent hw) (quiet_makeRunnable h)
  · simp at h

end

theorem yield_safe (hcpu : s.kernel.cpu c = some p) {r : Kernel C}
    (h : yield s.kernel c p = .ok r) :
    Safe ch (s.withKernel r) := by
  have hc : Consistent r := by
    have hk := yield_sound hs.consistent hcpu
    rwa [h] at hk
  obtain ⟨-,hl,u,hu,hsched⟩ := yield_ok h
  refine kernel_safe hs hl hc (quiet_trans (quiet_proc (t := s.kernel.setLock (some p)) rfl)
    (quiet_trans (quiet_makeRunnable hu) ?_))
  have hset : Settled (u.setPreempted p true) := by
    obtain ⟨k,-,-,rfl⟩ := makeRunnable_ok hu
    exact hs.consistent.settled
  rw [(sched_settled hsched hset).2]
  exact quiet_proc rfl

theorem step_safe {a : Act C} (h : step ch s a = .ok t) : Safe ch t := by
  cases a with
  | schedule c => exact schedule_safe hs h
  | yield c =>
    obtain ⟨p,hcpu,h⟩ := onCpu_ok h
    split at h
    · simp at h
    · obtain ⟨r,hr,rfl⟩ := map_ok h
      exact yield_safe hs hcpu hr
  | kill c pid =>
    obtain ⟨p,hcpu,h⟩ := onCpu_ok h
    split at h
    · obtain ⟨r,hr,rfl⟩ := map_ok h
      exact kill_safe hs hcpu hr
    · simp at h
  | wakeup ch' =>
    obtain ⟨r,hr,rfl⟩ := map_ok h
    exact wakeup_safe hs hr
  | spurious q =>
    obtain ⟨r,hr,rfl⟩ := map_ok h
    exact spurious_safe hs hr
  | start c waker =>
    obtain ⟨p,-,h⟩ := onCpu_ok h
    split at h
    · rename_i hp
      cases h
      refine start_safe hs hp ?_
      cases waker
      · exact .inr rfl
      · exact .inl rfl
    · simp at h
  | advance c =>
    obtain ⟨p,hcpu,h⟩ := onCpu_ok h
    exact advance_safe hs hcpu h
  | finish c keep =>
    obtain ⟨p,-,h⟩ := onCpu_ok h
    split at h
    · cases h
      exact finish_safe hs ‹_› keep
    · simp at h

end

end Safe

structure Start (ch : Chan) (s : World C) : Prop where
  consistent : Consistent s.kernel
  unlocked : s.kernel.lock = none
  free : s.lk = none
  point : ∀ p, s.point p = .outside
  awake : ∀ p, ¬SleepsOn ch s.kernel p

omit [DecidableEq C] in
theorem start_invariant {ch : Chan} {s : World C} (hs : Start ch s) : Safe ch s := by
  refine ⟨hs.consistent,fun p => ?_,fun p hp => ?_,fun p hp => ?_,fun _ => .inr (fun p => ?_)⟩
  · simp [hs.point p, hs.free, Point.holdsLk]
  · simp [hs.point p, Point.holdsTable] at hp
  · simp [hs.point p] at hp
  · exact ⟨by simp [hs.point p],hs.awake p⟩

theorem reaches_safe {ch : Chan} {s t : World C} (hs : Start ch s)
    (h : Reaches (step ch) (fun _ _ => True) s t) : Safe ch t :=
  reaches_invariant (Safe ch) (fun _ _ _ hs _ h => step_safe hs h) (start_invariant hs) h

omit [DecidableEq C] in
theorem wakeup1_all (ch : Chan) {s : Kernel C} (hs : Consistent s) :
    ∃ t, wakeup1 s (some ch) = .ok t ∧ WakesAll ch s t := by
  obtain ⟨t,ht,hw⟩ := wakes_wakeup1 hs.queued hs.prio (some ch)
  refine ⟨t,ht,fun q => ?_⟩
  have hp : t.proc q = if SleepsOn ch s q then { s.proc q with state := .runnable } else s.proc q :=
    wakeup1_procs ht q
  refine ⟨hp,?_⟩
  rw [hw.queued.2 q, hs.queued.2 q, hp]
  split
  · simp
  · rfl

/-- No wakeup is lost: whenever `lk` is free and the condition true, nobody is
left asleep on the channel. A waker at its scan of the table gets through, and
its `wakeup`, as anybody's on the channel, wakes exactly the processes asleep
there. -/
theorem no_lost_wakeup {ch : Chan} {s t : World C} (hs : Start ch s)
    (h : Reaches (step ch) (fun _ _ => True) s t) :
    (t.lk = none → t.cond = true → ∀ p, ¬SleepsOn ch t.kernel p) ∧
    (∀ c p, t.kernel.cpu c = some p → t.point p = .scan →
      ∃ u, step ch t (.advance c) = .ok u ∧ WakesAll ch t.kernel u.kernel) ∧
    (∀ u, step ch t (.wakeup ch) = .ok u → WakesAll ch t.kernel u.kernel) := by
  have ht := reaches_safe hs h
  obtain ⟨r,hr,hw⟩ := wakeup1_all ch ht.consistent
  refine ⟨fun hl hc => ?_,fun c p hcpu hp => ?_,fun u hu => ?_⟩
  · rcases ht.woken hc with ⟨p,hp⟩ | hn
    · have hk := (ht.holder p).mp (by rcases hp with hp | hp <;> simp [hp, Point.holdsLk])
      simp [hl] at hk
    · exact fun p => (hn p).2
  · refine ⟨(t.withKernel r).goto p .drop,?_,hw⟩
    simp only [step, onCpu, hcpu, advance, hp, hr]
    rfl
  · obtain ⟨k,hk,rfl⟩ := map_ok hu
    have hl := (wakeup_ok hk).1
    rw [wakeup, if_neg (by simp [hl])] at hk
    obtain rfl := Except.ok.inj (hr.symm.trans hk)
    exact hw

/-- A process has seen the condition false and given `lk` back when another
one sets the condition; the scan still finds it asleep. -/
theorem no_lost_wakeup_after_give : ∃ t u : World (Fin 3),
    Reaches (step (.addr 0)) (fun _ _ => True) ⟨crew,none,false,fun _ => .outside⟩ t ∧
    SleepsOn (.addr 0) t.kernel 0 ∧ t.cond = true ∧ step (.addr 0) t (.advance 1) = .ok u ∧
    (u.kernel.proc 0).state = .runnable ∧ entries u.kernel 0 = 1 := by
  have hstart : Start (.addr 0) (⟨crew,none,false,fun _ => .outside⟩ : World (Fin 3)) :=
    ⟨consistent_crew,rfl,rfl,fun _ => rfl,by decide⟩
  obtain ⟨t,hr,ht⟩ := play_witness (step (.addr 0)) (fun _ _ => True) (fun _ _ => true)
    (fun _ _ _ => trivial) (⟨crew,none,false,fun _ => .outside⟩ : World (Fin 3))
    [.start 0 false, .advance 0, .advance 0, .advance 0, .advance 0, .start 1 true, .advance 1,
      .advance 1, .advance 0, .advance 1]
    (fun t => decide (SleepsOn (.addr 0) t.kernel 0) && t.cond && decide (t.point 1 = .scan) &&
      decide (t.kernel.cpu 1 = some 1))
    (by decide +kernel)
  simp only [Bool.and_eq_true, decide_eq_true_eq] at ht
  obtain ⟨⟨⟨hz,hc⟩,hp⟩,hcpu⟩ := ht
  obtain ⟨u,hu,hw⟩ := (no_lost_wakeup hstart hr).2.1 1 1 hcpu hp
  obtain ⟨hproc,hent⟩ := hw 0
  rw [if_pos hz] at hproc hent
  exact ⟨t,u,hr,hz,hc,hu,by rw [hproc],hent⟩

end Xv6.SleepWakeup
