import Xv6.CoherentRuns
import Xv6.FamilyBooks

/-!
# What the process calls do to the family of processes

Of the family the specification sees the phase, the process id and the parent
of each slot, and who sleeps in `wait`. Most sections change none of it. The
two loops over the table inside `exit` are given in closed form.
-/

set_option autoImplicit false

namespace Xv6.Kinship
open KernelState RingBuffer ReadyQueue ProcessCalls
open Machine ProcessFrames ProcessEffects TransitionRun
open Coherence
open FamilyTree (Phase)

variable {C : Type} {s t u : Kernel C} {c : C} {p q np : Slot} {l : List Slot}

def phase : ProcState → Phase
  | .unused => .unused
  | .embryo => .embryo
  | .zombie => .zombie
  | .sleeping | .runnable | .running => .live

@[simp] theorem phase_of_sleeping : phase .sleeping = .live := rfl

@[simp] theorem phase_of_runnable : phase .runnable = .live := rfl

theorem phase_live {x : ProcState} (h : ¬Dead x) : phase x = .live := by
  cases x <;> simp [Dead, phase] at h ⊢

theorem phase_zombie {x : ProcState} : phase x = .zombie ↔ x = .zombie := by
  cases x <;> simp [phase]

theorem phase_unused {x : ProcState} : phase x = .unused ↔ x = .unused := by
  cases x <;> simp [phase]

def Asleep (s : Kernel C) (q : Slot) : Prop := s.pc q = .waiting ∧ (s.proc q).state = .sleeping

def Restful (s : Kernel C) (q : Slot) : Prop := (s.proc q).chan = some (.proc q) ∧
  ∀ x, (s.proc x).parent = some q → phase (s.proc x).state ≠ .zombie

structure Steady (s t : Kernel C) : Prop where
  phase : ∀ q, phase (t.proc q).state = phase (s.proc q).state
  pid : ∀ q, (t.proc q).pid = (s.proc q).pid
  parent : ∀ q, (t.proc q).parent = (s.proc q).parent
  rest : t.nextpid = s.nextpid ∧ t.initproc = s.initproc ∧ t.stage = s.stage
  alloc : ∀ q np, t.pc q = .forkAlloc np → s.pc q = .forkAlloc np
  ready : ∀ q np, t.pc q = .forkReady np → s.pc q = .forkReady np

structure Still (s t : Kernel C) : Prop extends Steady s t where
  asleep : ∀ q, Asleep t q → Asleep s q ∧ (t.proc q).chan = (s.proc q).chan

theorem restful_congr (hs : Restful s q) (hc : (t.proc q).chan = (s.proc q).chan)
    (hph : ∀ x, phase (t.proc x).state = phase (s.proc x).state)
    (hpa : ∀ x, (t.proc x).parent = (s.proc x).parent) : Restful t q := by
  refine ⟨hc.trans hs.1,fun x hx => ?_⟩
  rw [hph x]
  exact hs.2 x ((hpa x).symm.trans hx)

theorem Steady.trans (h : Steady s t) (k : Steady t u) : Steady s u where
  phase q := (k.phase q).trans (h.phase q)
  pid q := (k.pid q).trans (h.pid q)
  parent q := (k.parent q).trans (h.parent q)
  rest := ⟨k.rest.1.trans h.rest.1,k.rest.2.1.trans h.rest.2.1,k.rest.2.2.trans h.rest.2.2⟩
  alloc q np hq := h.alloc q np (k.alloc q np hq)
  ready q np hq := h.ready q np (k.ready q np hq)

theorem still_trans (h : Still s t) (k : Still t u) : Still s u where
  toSteady := h.toSteady.trans k.toSteady
  asleep q hq :=
    have hk := k.asleep q hq
    have hh := h.asleep q hk.1
    ⟨hh.1,hk.2.trans hh.2⟩

/-- Table and threads stay. -/
theorem still_control (hp : t.proc = s.proc) (hpc : t.pc = s.pc) (hn : t.nextpid = s.nextpid)
    (hi : t.initproc = s.initproc) (hg : t.stage = s.stage) : Still s t := by
  refine ⟨⟨fun q => by rw [hp],fun q => by rw [hp],fun q => by rw [hp],⟨hn,hi,hg⟩,
    fun q np hq => ?_,fun q np hq => ?_⟩,fun q hq => ?_⟩
  · rwa [hpc] at hq
  · rwa [hpc] at hq
  · rw [Asleep, hp, hpc] at hq
    exact ⟨hq,by rw [hp]⟩

theorem still_setProc {r : Proc} (hph : phase r.state = phase (s.proc q).state)
    (hid : r.pid = (s.proc q).pid) (hpa : r.parent = (s.proc q).parent)
    (hsl : r.state = .sleeping → (s.proc q).state = .sleeping ∧ r.chan = (s.proc q).chan ∨
      s.pc q ≠ .waiting) : Still s (s.setProc q r) := by
  refine ⟨⟨fun x => ?_,fun x => ?_,fun x => ?_,⟨rfl,rfl,rfl⟩,fun _ _ => id,fun _ _ => id⟩,
    fun x hx => ?_⟩
  · by_cases h : x = q <;> simp [h, hph]
  · by_cases h : x = q <;> simp [h, hid]
  · by_cases h : x = q <;> simp [h, hpa]
  · by_cases h : x = q
    · subst h
      obtain ⟨h1,h2⟩ := hx
      simp only [Kernel.setProc_pc, Kernel.setProc_proc, if_true] at h1 h2
      rcases hsl h2 with ⟨h3,h4⟩ | h3
      · exact ⟨⟨h1,h3⟩,by simpa using h4⟩
      · exact absurd h1 h3
    · simpa [Asleep, h] using hx

theorem still_setPc {k : Pc} (h1 : ∀ np, k = .forkAlloc np → s.pc q = .forkAlloc np)
    (h2 : ∀ np, k = .forkReady np → s.pc q = .forkReady np)
    (h3 : k = .waiting → s.pc q = .waiting ∨ (s.proc q).state ≠ .sleeping) :
    Still s (s.setPc q k) := by
  refine ⟨⟨fun _ => rfl,fun _ => rfl,fun _ => rfl,⟨rfl,rfl,rfl⟩,fun x np hx => ?_,
    fun x np hx => ?_⟩,fun x hx => ?_⟩
  · by_cases h : x = q
    · subst h
      exact h1 np (by simpa using hx)
    · simpa [h] using hx
  · by_cases h : x = q
    · subst h
      exact h2 np (by simpa using hx)
    · simpa [h] using hx
  · obtain ⟨hp,hz⟩ := hx
    by_cases h : x = q
    · subst h
      rcases h3 (by simpa using hp) with h | h
      · exact ⟨⟨h,hz⟩,rfl⟩
      · exact absurd hz h
    · exact ⟨⟨by simpa [h] using hp,hz⟩,rfl⟩

theorem still_ret (v : ℤ) : Still s (ret s p v) :=
  still_trans (t := s.setProc p { s.proc p with eax := v })
    (still_setProc rfl rfl rfl (fun h => .inl ⟨h,rfl⟩))
    (still_setPc (by simp) (by simp) (by simp))

theorem still_lock (l : Option Slot) : Still s (s.setLock l) := still_control rfl rfl rfl rfl rfl

theorem still_makeRunnable (hq : phase (s.proc q).state = .live) (h : makeRunnable s q = .ok t) :
    Still s t := by
  obtain ⟨k,-,-,rfl⟩ := makeRunnable_ok h
  have hr : Still s (s.setProc q { s.proc q with state := .runnable }) :=
    still_setProc hq.symm rfl rfl (by simp)
  exact still_trans hr (still_control rfl rfl rfl rfl rfl)

variable [DecidableEq C]

theorem still_dispatch (hq : phase (s.proc q).state = .live) (h : dispatch s c q = .ok t) :
    Still s t := by
  obtain ⟨ch,k,l,rfl,hk⟩ := dispatch_ok h
  have hr : Still s (s.setProc q { s.proc q with chan := ch, state := .running }) :=
    still_setProc hq.symm rfl rfl (by simp)
  refine still_trans (still_trans hr (still_setPc (q := q) (k := k) (fun np h => ?_)
    (fun np h => ?_)
    (fun _ => .inr (by simp)))) (still_control rfl rfl rfl rfl rfl)
  · subst h
    rcases hk with ⟨-,hk,-⟩ | ⟨-,hk,-⟩
    · exact hk.symm
    · cases hp : s.pc q <;> simp [hp, resumePc] at hk
  · subst h
    rcases hk with ⟨-,hk,-⟩ | ⟨-,hk,-⟩
    · exact hk.symm
    · cases hp : s.pc q <;> simp [hp, resumePc] at hk

theorem still_scanFrom {i : ℕ} (h : scanFrom s c i = .ok t) : Still s t := by
  rcases scanFrom_ok h with rfl | ⟨q,hq,hd⟩
  · exact still_control rfl rfl rfl rfl rfl
  · refine still_trans (t := s.setScan c (some (q.val+1))) (still_control rfl rfl rfl rfl rfl)
      (still_dispatch (q := q) ?_ hd)
    simp [hq]

theorem still_sched (h : sched s c p = .ok t) : Still s t := by
  obtain ⟨-,-,-,⟨-,rfl⟩ | ⟨i,-,hi⟩⟩ := sched_ok h
  · exact still_control rfl rfl rfl rfl rfl
  · exact still_trans (t := s.setCpu c none) (still_control rfl rfl rfl rfl rfl) (still_scanFrom hi)

theorem still_scheduler (hs : Coherent s) (h : scheduler s c = .ok t) : Still s t := by
  obtain ⟨-,-,-,⟨-,hf⟩ | ⟨-,hd⟩ | ⟨u,q,-,hd,hq⟩⟩ := scheduler_ok h
  · exact still_trans (t := { s with firstTime := false }) (still_control rfl rfl rfl rfl rfl)
      (still_scanFrom hf)
  · obtain ⟨rfl,-⟩ := pqDequeue_none hd
    exact still_control rfl rfl rfl rfl rfl
  · obtain ⟨k,rfl,-⟩ := pqDequeue_some hd
    have hb : blocked s q := dispatch_blocked (s := s.setRing k (pop (s.ring k))) hq
    have hl : ¬Dead (s.proc q).state := fun hd => hs.idle q hd hb
    exact still_trans (t := s.setRing k (pop (s.ring k))) (still_control rfl rfl rfl rfl rfl)
      (still_dispatch (phase_live hl) hq)

theorem still_yield (hs : Coherent s) (hc : s.cpu c = some p) (h : yield s c p = .ok t) :
    Still s t := by
  obtain ⟨-,-,u,hu,h⟩ := yield_ok h
  refine still_trans (still_trans (still_lock (some p)) (still_makeRunnable ?_ hu))
    (still_trans (t := u.setPreempted p true) (still_control rfl rfl rfl rfl rfl) (still_sched h))
  exact phase_live (hs.live c p hc)

structure Dozes (s t : Kernel C) (p : Slot) (ch : Chan) : Prop extends Steady s t where
  asleep : ∀ q, Asleep t q → Asleep s q ∧ (t.proc q).chan = (s.proc q).chan ∨
    q = p ∧ (t.proc q).chan = some ch

omit [DecidableEq C] in
theorem still_dozes {ch : Chan} (h : Dozes s t p ch) (k : Still t u) : Dozes s u p ch where
  toSteady := h.toSteady.trans k.toSteady
  asleep q hq := by
    obtain ⟨hq,hc⟩ := k.asleep q hq
    rcases h.asleep q hq with h | h
    · exact .inl ⟨h.1,hc.trans h.2⟩
    · exact .inr ⟨h.1,hc.trans h.2⟩

theorem sleepOn_dozes {ch : Chan} {k : Pc} (hp : phase (s.proc p).state = .live)
    (hk : k = .asleep ∨ k = .waiting) (h : sleepOn s c p ch k = .ok t) : Dozes s t p ch := by
  refine still_dozes ?_ (still_sched h)
  refine ⟨⟨fun x => ?_,fun x => ?_,fun x => ?_,⟨rfl,rfl,rfl⟩,fun x np hx => ?_,fun x np hx => ?_⟩,
    fun x hx => ?_⟩
  · by_cases hx : x = p
    · subst hx
      simpa using hp.symm
    · simp [hx]
  · by_cases hx : x = p <;> simp [hx]
  · by_cases hx : x = p <;> simp [hx]
  · by_cases hxp : x = p
    · rcases hk with rfl | rfl <;> simp [hxp] at hx
    · simpa [hxp] using hx
  · by_cases hxp : x = p
    · rcases hk with rfl | rfl <;> simp [hxp] at hx
    · simpa [hxp] using hx
  · by_cases hxp : x = p
    · exact .inr ⟨hxp,by simp [hxp]⟩
    · exact .inl (by simpa [Asleep, hxp] using hx)

theorem still_sleep {ch : Chan} (hp : phase (s.proc p).state = .live)
    (h : sleepOn s c p ch .asleep = .ok t) : Still s t := by
  have hd := sleepOn_dozes hp (.inl rfl) h
  have hk := still_sched h
  refine ⟨hd.toSteady,fun q hq => ?_⟩
  rcases hd.asleep q hq with h | ⟨rfl,-⟩
  · exact h
  · have hq := (hk.asleep q hq).1.1
    simp at hq

section
omit [DecidableEq C]

/-- After `wakeup1` nobody sleeps on the channel. -/
theorem wakeup1_procs {ch : Option Chan} (h : wakeup1 s ch = .ok t) (q : Slot) :
    t.proc q = if (s.proc q).state = .sleeping ∧ (s.proc q).chan = ch then
      { s.proc q with state := .runnable } else s.proc q := by
  have hl := foldlM_visited (fun l v => ∀ q, v.proc q =
    if q ∈ l ∧ (s.proc q).state = .sleeping ∧ (s.proc q).chan = ch then
      { s.proc q with state := .runnable } else s.proc q) _ ?_ (List.nodup_finRange NPROC) ?_ h q
  · simpa using hl
  · intro done x v w _ hx hv hw q
    have hvx : v.proc x = s.proc x := by
      rw [hv x]
      simp [hx]
    unfold wakeOne at hw
    rw [hvx] at hw
    split at hw
    · rename_i hz
      obtain ⟨k,-,-,rfl⟩ := makeRunnable_ok hw
      by_cases hq : q = x
      · subst hq
        simp [hz, hvx]
      · simp [hq, hv q]
    · rename_i hz
      cases hw
      by_cases hq : q = x
      · subst hq
        simp [hz, hvx]
      · simp [hq, hv q]
  · simp

theorem still_wakeup1 {ch : Option Chan} (h : wakeup1 s ch = .ok t) : Still s t := by
  have hp := wakeup1_procs h
  have hf := (wakeup1_ok h).frame
  have hpc : t.pc = s.pc := by rw [hf]
  refine ⟨⟨fun q => ?_,fun q => ?_,fun q => ?_,⟨by rw [hf],by rw [hf],by rw [hf]⟩,
    fun q np hq => ?_,fun q np hq => ?_⟩,fun q hq => ?_⟩
  · rw [hp q]
    split
    · rename_i hz
      simp [hz.1]
    · rfl
  · rw [hp q]
    split <;> rfl
  · rw [hp q]
    split <;> rfl
  · rwa [hpc] at hq
  · rwa [hpc] at hq
  · rw [Asleep, hpc, hp q] at hq
    rw [hp q]
    split at hq
    · simp at hq
    · rename_i hz
      rw [if_neg hz]
      exact ⟨hq,rfl⟩

theorem still_wakeup {ch : Chan} (h : wakeup s ch = .ok t) : Still s t := by
  unfold wakeup at h
  split at h
  · simp at h
  · exact still_wakeup1 h

theorem still_markKilled (h : markKilled s q = .ok t) : Still s t := by
  have hk : Still s (s.setProc q { s.proc q with killed := true }) :=
    still_setProc rfl rfl rfl (fun h => .inl ⟨h,rfl⟩)
  unfold markKilled at h
  simp only at h
  split at h
  · rename_i hz
    refine still_trans hk (still_makeRunnable ?_ h)
    simp [hz]
  · cases h
    exact hk

theorem still_kill {pid : ℤ} (h : kill s p pid = .ok t) : Still s t := by
  rcases (kill_ok h).2 with rfl | ⟨q,u,-,hu,rfl⟩
  · exact still_trans (still_lock (some p)) (still_trans (still_ret (-1)) (still_lock none))
  · exact still_trans (still_lock (some p))
      (still_trans (still_markKilled hu) (still_trans (still_ret 0) (still_lock none)))

end

structure Moved (s t : Kernel C) (p : Slot) (l : List Slot) : Prop where
  proc : ∀ q, t.proc q = { s.proc q with
    parent := if q ∈ l ∧ (s.proc q).parent = some p then s.initproc else (s.proc q).parent
    state := (t.proc q).state }
  state : ∀ q, (t.proc q).state = (s.proc q).state ∨
    (s.proc q).state = .sleeping ∧ (t.proc q).state = .runnable
  frame : t = { s with proc := t.proc, ring := t.ring }

structure Adopted (s t : Kernel C) (p : Slot) (l : List Slot) : Prop extends Moved s t p l where
  woken : ∀ q x, (t.proc q).state = .sleeping → (s.proc q).chan = s.initproc.map .proc → x ∈ l →
    (s.proc x).parent = some p → (s.proc x).state ≠ .zombie

section
omit [DecidableEq C]

theorem moved_step {x : Slot} (hs : Moved s t p l) (hp : (s.proc x).parent = some p) :
    Moved s (t.setProc x { t.proc x with parent := s.initproc }) p (l ++ [x]) := by
  refine ⟨fun q => ?_,fun q => ?_,?_⟩
  · by_cases hq : q = x
    · subst hq
      simp only [Kernel.setProc_proc, if_true, List.mem_append, List.mem_singleton, or_true,
        true_and, hp]
      rw [hs.proc q]
    · have hm : (q ∈ l ++ [x]) = (q ∈ l) := by simp [hq]
      simp only [Kernel.setProc_proc, if_neg hq, hm]
      exact hs.proc q
  · by_cases hq : q = x
    · subst hq
      simpa using hs.state q
    · simpa [hq] using hs.state q
  · rw [hs.frame]
    rfl

theorem moved_skip {x : Slot} (hs : Moved s t p l) (hp : (s.proc x).parent ≠ some p) :
    Moved s t p (l ++ [x]) := by
  refine ⟨fun q => ?_,hs.state,hs.frame⟩
  have hm : (q ∈ l ++ [x] ∧ (s.proc q).parent = some p) = (q ∈ l ∧ (s.proc q).parent = some p) := by
    by_cases hq : q = x <;> simp [hq, hp]
  simp only [hm]
  exact hs.proc q

end

section
omit [DecidableEq C]

theorem moved_wake {ch : Option Chan} (hs : Moved s t p l) (h : wakeup1 t ch = .ok u) :
    Moved s u p l ∧ ∀ q, (u.proc q).state = .sleeping →
      (t.proc q).state = .sleeping ∧ (s.proc q).chan ≠ ch := by
  have hp := wakeup1_procs h
  have hchan : ∀ q, (t.proc q).chan = (s.proc q).chan := fun q => by rw [hs.proc q]
  refine ⟨⟨fun q => ?_,fun q => ?_,?_⟩,fun q hq => ?_⟩
  · rw [hp q]
    split
    · rw [hs.proc q]
    · exact hs.proc q
  · rw [hp q]
    split
    · rename_i hz
      rcases hs.state q with h | h
      · exact .inr ⟨h ▸ hz.1,rfl⟩
      · simp [h.2] at hz
    · exact hs.state q
  · rw [(wakeup1_ok h).frame, hs.frame]
  · rw [hp q] at hq
    split at hq
    · simp at hq
    · rename_i hz
      exact ⟨hq,fun hc => hz ⟨hq,(hchan q).trans hc⟩⟩

theorem adopted_step {x : Slot} (hs : Adopted s t p l) (hx : x ∉ l)
    (h : reparentOne p t x = .ok u) :
    Adopted s u p (l ++ [x]) := by
  have hpar : (t.proc x).parent = (s.proc x).parent := by
    rw [hs.proc x]
    simp [hx]
  have hinit : t.initproc = s.initproc := by rw [hs.frame]
  have hold : ∀ q y, (t.proc q).state = .sleeping → (s.proc q).chan = s.initproc.map .proc →
      y ∈ l ++ [x] → y ≠ x ∨ (s.proc x).state ≠ .zombie ∨ (s.proc x).parent ≠ some p →
      (s.proc y).parent = some p → (s.proc y).state ≠ .zombie := by
    intro q y hq hc hy hne hyp
    rcases List.mem_append.mp hy with hy | hy
    · exact hs.woken q y hq hc hy hyp
    · obtain rfl := List.mem_singleton.mp hy
      rcases hne with h | h | h
      · exact absurd rfl h
      · exact h
      · exact absurd hyp h
  unfold reparentOne at h
  rw [hpar, hinit] at h
  split at h
  · rename_i hp
    have hm := moved_step (x := x) hs.toMoved hp
    have hz : ((t.setProc x { t.proc x with parent := s.initproc }).proc x).state =
        (t.proc x).state := by simp
    simp only [hz] at h
    have hsame : ∀ q, ((t.setProc x { t.proc x with parent := s.initproc }).proc q).state =
        (t.proc q).state := by
      intro q
      by_cases hq : q = x <;> simp [hq]
    split at h
    · obtain ⟨hm,hw⟩ := moved_wake hm h
      exact ⟨hm,fun q y hq hc => absurd hc (hw q hq).2⟩
    · rename_i hn
      cases h
      refine ⟨hm,fun q y hq hc hy hyp => ?_⟩
      refine hold q y ((hsame q).symm.trans hq) hc hy (.inr (.inl (fun he => ?_))) hyp
      rcases hs.state x with h | h
      · exact hn (h.trans he)
      · simp [h.1] at he
  · rename_i hp
    cases h
    exact ⟨moved_skip hs.toMoved hp,fun q y hq hc hy hyp =>
      hold q y hq hc hy (.inr (.inr hp)) hyp⟩

theorem reparent_adopts (h : (List.finRange NPROC).foldlM (reparentOne p) s = .ok t) :
    Adopted s t p (List.finRange NPROC) :=
  foldlM_visited (fun l t => Adopted s t p l) _ (fun _ _ _ _ _ hx hv hw => adopted_step hv hx hw)
    (List.nodup_finRange NPROC)
    ⟨⟨fun q => by simp,fun q => .inl rfl,rfl⟩,fun q x _ _ hx => by simp at hx⟩ h

end

structure Exits (s t : Kernel C) (p : Slot) : Prop where
  phase : ∀ q, phase (t.proc q).state = if q = p then .zombie else phase (s.proc q).state
  pid : ∀ q, (t.proc q).pid = (s.proc q).pid
  parent : ∀ q, (t.proc q).parent =
    if (s.proc q).parent = some p then s.initproc else (s.proc q).parent
  rest : t.nextpid = s.nextpid ∧ t.initproc = s.initproc ∧ t.stage = s.stage
  alloc : ∀ q np, t.pc q = .forkAlloc np → s.pc q = .forkAlloc np
  ready : ∀ q np, t.pc q = .forkReady np → s.pc q = .forkReady np
  asleep : ∀ q, Asleep t q → Asleep s q ∧ (t.proc q).chan = (s.proc q).chan ∧ q ≠ p ∧
    (s.proc q).chan ≠ (s.proc p).parent.map .proc ∧
    ((s.proc q).chan = s.initproc.map .proc →
      ∀ x, (s.proc x).parent = some p → (s.proc x).state ≠ .zombie)

theorem exit_exits (h : exit s c p = .ok t) : Exits s t p := by
  obtain ⟨-,-,u,v,hu,hv,-,h⟩ := exit_loops h
  have hw := still_wakeup1 hu
  have hwp := wakeup1_procs hu
  have hf := (wakeup1_ok hu).frame
  have ha := reparent_adopts hv
  have hk := still_sched h
  have hinit : u.initproc = s.initproc := hw.rest.2.1
  have hpc : v.pc = s.pc := by
    rw [ha.frame, hf]
    rfl
  have hchan : ∀ q, (u.proc q).chan = (s.proc q).chan := by
    intro q
    rw [hwp q]
    split <;> rfl
  have hphase : ∀ q, phase (v.proc q).state = phase (s.proc q).state := by
    intro q
    refine Eq.trans ?_ (hw.phase q)
    rcases ha.state q with h | ⟨h1,h2⟩
    · rw [h]
    · rw [h1, h2]
      rfl
  have hrest : ∀ q, q ≠ p → (retired v p).proc q = v.proc q ∧ (retired v p).pc q = s.pc q := by
    intro q hq
    simp [retired, forget, released, hq, hpc]
  refine ⟨fun q => ?_,fun q => ?_,fun q => ?_,⟨?_,?_,?_⟩,fun q np hq => ?_,fun q np hq => ?_,
    fun q hq => ?_⟩
  · rw [hk.phase q]
    by_cases hq : q = p
    · simp [hq, retired, phase]
    · rw [(hrest q hq).1, if_neg hq]
      exact hphase q
  · rw [hk.pid q]
    have hpid : (v.proc q).pid = (s.proc q).pid := by
      rw [ha.proc q]
      exact hw.pid q
    by_cases hq : q = p
    · subst hq
      simpa [retired, forget, released] using hpid
    · rw [(hrest q hq).1]
      exact hpid
  · rw [hk.parent q]
    have hpar : (v.proc q).parent =
        if (s.proc q).parent = some p then s.initproc else (s.proc q).parent := by
      have hq : (u.proc q).parent = (s.proc q).parent := hw.parent q
      rw [ha.proc q]
      simp only [List.mem_finRange, true_and, hq, hinit]
    by_cases hq : q = p
    · subst hq
      simpa [retired, forget, released] using hpar
    · rw [(hrest q hq).1]
      exact hpar
  · refine hk.rest.1.trans ?_
    change v.nextpid = s.nextpid
    rw [ha.frame]
    exact hw.rest.1
  · refine hk.rest.2.1.trans ?_
    change v.initproc = s.initproc
    rw [ha.frame]
    exact hw.rest.2.1
  · refine hk.rest.2.2.trans ?_
    change v.stage = s.stage
    rw [ha.frame]
    exact hw.rest.2.2
  · have hq := hk.alloc q np hq
    by_cases h : q = p
    · simp [h, retired] at hq
    · rwa [(hrest q h).2] at hq
  · have hq := hk.ready q np hq
    by_cases h : q = p
    · simp [h, retired] at hq
    · rwa [(hrest q h).2] at hq
  · have hne : q ≠ p := by
      rintro rfl
      have h := hk.phase q
      simp [hq.2, retired, phase] at h
    obtain ⟨hq,hc⟩ := hk.asleep q hq
    rw [Asleep, (hrest q hne).1, (hrest q hne).2] at hq
    rw [(hrest q hne).1] at hc
    have hvu : (v.proc q).chan = (u.proc q).chan := by rw [ha.proc q]
    have hz : (u.proc q).state = .sleeping := by
      rcases ha.state q with h | h
      · exact h ▸ hq.2
      · simp [hq.2] at h
    have hsl : (s.proc q).state = .sleeping ∧ (s.proc q).chan ≠ (s.proc p).parent.map .proc := by
      rw [hwp q] at hz
      split at hz
      · simp at hz
      · rename_i hn
        exact ⟨hz,fun hc => hn ⟨hz,hc⟩⟩
    refine ⟨⟨hq.1,hsl.1⟩,(hc.trans hvu).trans (hchan q),hne,hsl.2,fun hi x hx he => ?_⟩
    have hn := ha.woken q x hq.2 (by rw [hchan q, hinit]; exact hi) (List.mem_finRange x)
      ((hw.parent x).trans hx)
    have hp := hw.phase x
    rw [phase_zombie.mpr (show ((s.setLock (some p)).proc x).state = .zombie from he)] at hp
    exact hn (phase_zombie.mp hp)

end Xv6.Kinship
