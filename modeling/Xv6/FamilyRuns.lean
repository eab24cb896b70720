import Xv6.Kinship

/-!
# The process calls keep the family

The table of processes, seen as a family with its books, moves as the family
does: every section of the process calls and of `userinit` leaves the family as
it is or takes one of its steps.
-/

set_option autoImplicit false

namespace Xv6.FamilyRuns
open KernelState NullQueue ReadyQueue ProcessCalls MutexCalls
open Machine ProcessFrames ProcessEffects TransitionRun
open ReadyInvariant Coherence CoherentRuns Kinship FamilyTree Function

variable {C : Type} [DecidableEq C] {s t u : Kernel C} {c : C} {p q np : Slot}

def isFamilyCall : Act C → Bool
  | .userinitAlloc | .userinitPublish | .userinitMutexes | .resume _ _ => true
  | a => isProcessCall a

structure Ledger where
  origin : ℤ → Option ℤ
  exited : List ℤ
  reaped : List (ℤ × ℤ)

def noEntries : Ledger := { origin := fun _ => none, exited := [], reaped := [] }

def recordWait (s t : Kernel C) (c : C) (l : Ledger) : Ledger :=
  match s.cpu c with
  | none => l
  | some p => if t.pc p = .user ∧ (t.proc p).eax ≠ -1 then
      { l with reaped := ((t.proc p).eax,(s.proc p).pid)::l.reaped } else l

def recordPublish (s : Kernel C) (c : C) (l : Ledger) : Ledger :=
  match s.cpu c with
  | none => l
  | some p => match s.pc p with
    | .forkReady np => { l with
        origin := update l.origin (s.proc np).pid (some (s.proc p).pid) }
    | _ => l

def recordExit (s : Kernel C) (c : C) (l : Ledger) : Ledger :=
  match s.cpu c with
  | none => l
  | some p => { l with exited := (s.proc p).pid::l.exited }

def record (s : Kernel C) (a : Act C) (t : Kernel C) (l : Ledger) : Ledger :=
  match a with
  | .wait c | .waitScan c => recordWait s t c l
  | .forkPublish c => recordPublish s c l
  | .exit c => recordExit s c l
  | _ => l

def booked (x : Kernel C × Ledger) (a : Act C) : Except Stop (Kernel C × Ledger) :=
  (step x.1 a).map (fun t => (t,record x.1 a t x.2))

def view (s : Kernel C) (l : Ledger) : Family Slot :=
  { phase := fun q => phase (s.proc q).state
    pid := fun q => (s.proc q).pid
    parent := fun q => (s.proc q).parent
    next := s.nextpid
    root := s.initproc
    origin := l.origin
    exited := l.exited
    reaped := l.reaped }

variable {l : Ledger} {a : Act C}

section
omit [DecidableEq C]

theorem view_setProc (r : Proc) : view (s.setProc q r) l = { view s l with
    phase := update (view s l).phase q (phase r.state)
    pid := update (view s l).pid q r.pid
    parent := update (view s l).parent q r.parent } := by
  refine Family.ext (funext fun x => ?_) (funext fun x => ?_) (funext fun x => ?_) rfl rfl
    rfl rfl rfl
  all_goals by_cases h : x = q <;> simp [view, h]

theorem view_still (h : Still s t) : view t l = view s l := by
  unfold view
  rw [funext h.phase, funext h.pid, funext h.parent, h.rest.1, h.rest.2.1]

end

/-- The process calls put nobody into a queue. -/
theorem waker_later {k j : Pc} (h : Later k j) (hj : waker j = some q) : waker k = some q := by
  rcases h with rfl | h | h
  · exact hj
  · cases k <;> simp only [resumePc, Option.some.injEq, reduceCtorEq] at h <;>
      rw [← h] at hj <;> simp [waker] at hj
  · cases j <;> simp [isProcessPc, waker] at h hj

theorem waits_process (ha : isProcessCall a = true) (h : step s a = .ok t) (hq : Waits t q) :
    Waits s q := by
  by_cases hx : ∃ c, a = .exit c
  · obtain ⟨c,rfl⟩ := hx
    obtain ⟨p,-,-,h⟩ := call_ok h
    obtain ⟨hm,hw,-⟩ := exit_muxes h
    have hcv : ∀ m, (t.muxes m).cv = (s.muxes m).cv := by
      intro m
      rw [hm m]
      split <;> rfl
    rw [Waits, hw] at hq
    simp only [hcv] at hq
    refine Or.imp_right (Or.imp_right ?_) hq
    rintro ⟨x,hx⟩
    have hk := waker_later (exit_procs h x).2.2 hx
    refine ⟨x,?_⟩
    split at hk
    · simp [waker] at hk
    · exact hk
  · have hf := frame_step ha (fun c hc => hx ⟨c,hc⟩) h
    have hw : t.wqueue = s.wqueue := by rw [hf.rest]
    have hm : t.muxes = s.muxes := by rw [hf.rest]
    rw [Waits, hw, hm] at hq
    refine Or.imp_right (Or.imp_right ?_) hq
    rintro ⟨x,hx⟩
    refine ⟨x,?_⟩
    rcases hf.pc x with h | ⟨np,pid,h | h | h | h⟩
    · exact waker_later h hx
    all_goals simp [h, waker] at hx

structure Linked (s : Kernel C) : Prop where
  alloc : ∀ p np, s.pc p = .forkAlloc np → phase (s.proc p).state = .live ∧
    (s.proc np).parent = none ∧ (s.proc p).pid < (s.proc np).pid
  ready : ∀ p np, s.pc p = .forkReady np → (s.proc np).parent = some p
  restful : ∀ q, Asleep s q → Restful s q
  start : s.stage = .start → s.initproc = none
  allocated : ∀ i, s.stage = .allocated i →
    s.initproc = some i ∧ phase (s.proc i).state = .embryo

omit [DecidableEq C] in
theorem linked_still (hs : Linked s) (h : Still s t) : Linked t := by
  refine ⟨fun p np hp => ?_,fun p np hp => ?_,fun q hq => ?_,fun hg => ?_,fun i hg => ?_⟩
  · rw [h.phase, h.parent, h.pid, h.pid]
    exact hs.alloc p np (h.alloc p np hp)
  · rw [h.parent]
    exact hs.ready p np (h.ready p np hp)
  · obtain ⟨hq,hc⟩ := h.asleep q hq
    exact restful_congr (hs.restful q hq) hc h.phase h.parent
  · rw [h.rest.2.1]
    exact hs.start (h.rest.2.2.symm.trans hg)
  · rw [h.rest.2.1, h.phase]
    exact hs.allocated i (h.rest.2.2.symm.trans hg)

section
variable (hs : Linked s) (hf : Forest (view s l))
include hs hf

section
omit [DecidableEq C]

theorem forking_live (h : Forking s p np) : phase (s.proc p).state = .live := by
  rcases h with h | h
  · exact (hs.alloc p np h).1
  · exact (hf.parents np p (hs.ready p np h)).1

/-- Once a process is live `userinit` has published the first one. -/
theorem staged (hp : phase (s.proc p).state = .live) :
    s.stage ≠ .start ∧ ∀ i, s.stage ≠ .allocated i := by
  obtain ⟨i,hi,hl⟩ := root_live hf (p := p) hp
  have hi : s.initproc = some i := hi
  refine ⟨fun h => ?_,fun j h => ?_⟩
  · simp [hs.start h] at hi
  · obtain ⟨hj,he⟩ := hs.allocated j h
    obtain rfl : i = j := Option.some.inj (hi.symm.trans hj)
    have hl : phase (s.proc i).state = .live := hl
    simp [hl] at he

/-- A section of a live process keeps the links when its forks do, nobody
falls asleep and nobody becomes a zombie child. -/
theorem linked_section (hp : phase (s.proc p).state = .live) (hg : t.stage = s.stage)
    (hlink : ∀ x y, t.pc x = .forkAlloc y → phase (t.proc x).state = .live ∧
      (t.proc y).parent = none ∧ (t.proc x).pid < (t.proc y).pid)
    (hready : ∀ x y, t.pc x = .forkReady y → (t.proc y).parent = some x)
    (hasleep : ∀ q, Asleep t q → Asleep s q ∧ (t.proc q).chan = (s.proc q).chan)
    (hchild : ∀ x q, Asleep t q → (t.proc x).parent = some q → phase (t.proc x).state = .zombie →
      (s.proc x).parent = some q ∧ phase (s.proc x).state = .zombie) :
    Linked t := by
  obtain ⟨h1,h2⟩ := staged hs hf hp
  refine ⟨hlink,hready,fun q hq => ?_,fun h => absurd (hg.symm.trans h) h1,
    fun i h => absurd (hg.symm.trans h) (h2 i)⟩
  obtain ⟨hq',hc⟩ := hasleep q hq
  obtain ⟨hch,hno⟩ := hs.restful q hq'
  refine ⟨hc.trans hch,fun x hx hz => ?_⟩
  obtain ⟨hx,hz⟩ := hchild x q hq hx hz
  exact hno x hx hz

end

end

def Follows (x y : Family Slot) : Prop := y = x ∨ Step x y

theorem follows_step {x y z : Family Slot} (h : Step x z) (e : y = z) : Follows x y := .inr (e ▸ h)

section
variable (hs : Linked s)
include hs

section
omit [DecidableEq C]

theorem exit_kept (hf : Forest (view s l)) (hp : phase (s.proc p).state = .live)
    (hu : s.pc p = .user) (ho : s.initproc ≠ some p) (h : Exits s t p) : Linked t ∧
    Follows (view s l) (view t { l with exited := (s.proc p).pid::l.exited }) := by
  refine ⟨linked_section hs hf hp h.rest.2.2 (fun x y hx => ?_) (fun x y hx => ?_)
    (fun q hq => ⟨(h.asleep q hq).1,(h.asleep q hq).2.1⟩) (fun x q hq hx hz => ?_),?_⟩
  · have hx := h.alloc x y hx
    obtain ⟨hl,hn,hlt⟩ := hs.alloc x y hx
    have hxp : x ≠ p := by
      rintro rfl
      simp [hu] at hx
    rw [h.phase, h.parent, h.pid, h.pid]
    simp [hl, hn, hlt, hxp]
  · have hy := hs.ready x y (h.ready x y hx)
    have hxp : x ≠ p := by
      rintro rfl
      have hx := h.ready x y hx
      simp [hu] at hx
    rw [h.parent, if_neg]
    · exact hy
    · rw [hy]
      exact fun h => hxp (Option.some.inj h)
  · obtain ⟨hqs,-,hqp,hpar,hadopt⟩ := h.asleep q hq
    have hch := (hs.restful q hqs).1
    rw [h.parent x] at hx
    rw [h.phase x] at hz
    split at hx
    · rename_i hxp
      have hne : x ≠ p := by
        rintro rfl
        have hlt := (hf.parents x x hxp).2
        simp at hlt
      rw [if_neg hne] at hz
      exact absurd (phase_zombie.mp hz) (hadopt (by rw [hch, hx]; rfl) x hxp)
    · have hne : x ≠ p := by
        rintro rfl
        exact hpar (by rw [hch, hx]; rfl)
      rw [if_neg hne] at hz
      exact ⟨hx,hz⟩
  · refine follows_step (Step.exit p hp ho) (Family.ext (funext fun q => ?_) (funext h.pid)
      (funext h.parent) h.rest.1 h.rest.2.1 rfl rfl rfl)
    by_cases hq : q = p
    · simp [view, h.phase, hq]
    · simp [view, h.phase, hq]

theorem linked_edit {y : Slot} (hf : Forest (view s l)) (hp : phase (s.proc p).state = .live)
    (hy : phase (s.proc y).state ≠ .live) (hg : t.stage = s.stage)
    (hproc : ∀ x, x ≠ y → t.proc x = s.proc x)
    (hpc : ∀ x, x ≠ p → t.pc x = s.pc x ∨ x = y ∧ ∀ z, ¬Forking t y z)
    (hstate : phase (t.proc y).state ≠ .zombie ∧ (t.proc y).state ≠ .sleeping)
    (hown : ∀ x, x ≠ p → ¬Forking s x y) (hwait : t.pc p ≠ .waiting)
    (halloc : ∀ z, t.pc p = .forkAlloc z → (t.proc z).parent = none ∧
      (s.proc p).pid < (t.proc z).pid)
    (hready : ∀ z, t.pc p = .forkReady z → (t.proc z).parent = some p) : Linked t := by
  have hpy : p ≠ y := by
    rintro rfl
    exact hy hp
  have hother : ∀ x z, x ≠ p → Forking t x z →
      t.pc x = s.pc x ∧ t.proc x = s.proc x ∧ t.proc z = s.proc z := by
    intro x z hx hz
    rcases hpc x hx with h | ⟨rfl,h⟩
    · have hz : Forking s x z := by rwa [Forking, h] at hz
      have hxy : x ≠ y := by
        rintro rfl
        exact hy (forking_live hs hf hz)
      have hzy : z ≠ y := by
        rintro rfl
        exact hown x hx hz
      exact ⟨h,hproc x hxy,hproc z hzy⟩
    · exact absurd hz (h z)
  refine linked_section hs hf hp hg (fun x z hx => ?_) (fun x z hx => ?_) (fun q hq => ?_)
    (fun x q _ hx hz => ?_)
  · by_cases hxp : x = p
    · subst hxp
      rw [hproc x hpy]
      exact ⟨hp,halloc z hx⟩
    · obtain ⟨h,hx',hz⟩ := hother x z hxp (.inl hx)
      rw [hx', hz]
      exact hs.alloc x z (h.symm.trans hx)
  · by_cases hxp : x = p
    · subst hxp
      exact hready z hx
    · obtain ⟨h,-,hz⟩ := hother x z hxp (.inr hx)
      rw [hz]
      exact hs.ready x z (h.symm.trans hx)
  · have hqy : q ≠ y := by
      rintro rfl
      exact hstate.2 hq.2
    have hqp : q ≠ p := by
      rintro rfl
      exact hwait hq.1
    have h := (hpc q hqp).resolve_right (fun h => hqy h.1)
    refine ⟨⟨h.symm.trans hq.1,?_⟩,by rw [hproc q hqy]⟩
    rw [← hproc q hqy]
    exact hq.2
  · have hxy : x ≠ y := by
      rintro rfl
      exact hstate.1 hz
    rw [hproc x hxy] at hx hz
    exact ⟨hx,hz⟩

end

section
omit [DecidableEq C]

theorem reap_kept (hc : Coherent s) (hf : Forest (view s l)) (hp : phase (s.proc p).state = .live)
    (hu : s.pc p ≠ .waiting) (hfork : ∀ z, ¬Forking s p z) (hz : (s.proc q).state = .zombie)
    (hq : (s.proc q).parent = some p) : Linked (freeSlot s q) ∧
    Follows (view s l) (view (freeSlot s q)
      { l with reaped := ((s.proc q).pid,(s.proc p).pid)::l.reaped }) := by
  have hpq : p ≠ q := by
    rintro rfl
    simp [hz, phase] at hp
  refine ⟨linked_edit (p := p) (y := q) hs hf hp (by simp [hz, phase]) rfl (fun x hx => ?_)
    (fun x _ => ?_) ?_ (fun x _ hx => ?_) ?_ (fun z h => ?_) (fun z h => ?_),.inr ?_⟩
  · simp [freeSlot, hx]
  · by_cases hx : x = q
    · exact .inr ⟨hx,fun z hz => by simp [Forking, freeSlot] at hz⟩
    · exact .inl (by simp [freeSlot, hx])
  · simp [freeSlot, phase]
  · have he := hc.embryo x q hx
    simp [hz] at he
  · simpa [freeSlot, hpq] using hu
  · exact absurd (.inl (by simpa [freeSlot, hpq] using h)) (hfork z)
  · exact absurd (.inr (by simpa [freeSlot, hpq] using h)) (hfork z)
  · change Step (view s l) (view (s.setProc q _) _)
    rw [view_setProc]
    exact Step.reap p q (phase_zombie.mpr hz) hq

theorem alloc_kept (hc : Coherent s) (hf : Forest (view s l)) (hp : phase (s.proc p).state = .live)
    (hun : (s.proc np).state = .unused) {k : Option Slot} :
    Linked (({ (s.setLock k).setProc np { s.proc np with state := .embryo, pid := s.nextpid } with
      nextpid := s.nextpid+1 }.setPc p (.forkAlloc np)).setLock none) ∧
    Follows (view s l) (view (({ (s.setLock k).setProc np
      { s.proc np with state := .embryo, pid := s.nextpid } with
      nextpid := s.nextpid+1 }.setPc p (.forkAlloc np)).setLock none) l) := by
  have hpu : (s.proc p).state ≠ .unused := by
    intro h
    simp [h, phase] at hp
  refine ⟨linked_edit (p := p) (y := np) hs hf hp (by simp [hun, phase]) rfl (fun x hx => ?_)
    (fun x hx => .inl ?_) ?_ (fun x _ hx => ?_) ?_ (fun z h => ?_) (fun z h => ?_),?_⟩
  · simp [hx]
  · simp [hx]
  · simp [phase]
  · have he := hc.embryo x np hx
    simp [hun] at he
  · simp
  · obtain rfl : np = z := by simpa using h
    have hlt := (hf.pids p (by simpa [view, phase_unused] using hpu)).2
    have hn := hf.orphan np (phase_unused.mpr hun)
    simp only [Kernel.setLock_proc, Kernel.setPc_proc, Kernel.setProc_proc, if_true]
    exact ⟨hn,hlt⟩
  · simp at h
  · refine follows_step (Step.alloc p np hp (phase_unused.mpr hun)) (Family.ext (funext fun x => ?_)
      (funext fun x => ?_) (funext fun x => ?_) rfl rfl rfl rfl rfl)
    all_goals by_cases h : x = np <;> simp [view, h, phase]

theorem forked_slot (hc : Coherent s) (hf : Forest (view s l)) (h : Forking s p np) :
    phase (s.proc p).state = .live ∧ phase (s.proc np).state = .embryo ∧
    p ≠ np ∧ ∀ x, x ≠ p → ¬Forking s x np := by
  have hp := forking_live hs hf h
  have he : phase (s.proc np).state = .embryo := by
    rw [hc.embryo p np h]
    rfl
  refine ⟨hp,he,?_,fun x hx hx' => hx (hc.owner x p np hx' h)⟩
  rintro rfl
  simp [hp] at he

theorem fail_kept (hc : Coherent s) (hf : Forest (view s l)) (h : s.pc p = .forkAlloc np) {r : Proc}
    (hr : r.state = .unused) (hid : r.pid = (s.proc np).pid) (hpar : r.parent = (s.proc np).parent)
    (v : ℤ) : Linked (ret (s.setProc np r) p v) ∧
    Follows (view s l) (view (ret (s.setProc np r) p v) l) := by
  obtain ⟨hp,he,hne,hown⟩ := forked_slot hs hc hf (.inl h)
  have hn := (hs.alloc p np h).2.1
  have hedit : Linked ((s.setProc np r).setPc p .user) :=
    linked_edit (p := p) (y := np) hs hf hp (by simp [he]) rfl (fun x hx => by simp [hx])
      (fun x hx => .inl (by simp [hx])) (by simp [hr, phase]) hown (by simp) (by simp) (by simp)
  refine ⟨?_,.inr ?_⟩
  · exact linked_still hedit (still_setProc (q := p)
      (r := { (s.setProc np r).proc p with eax := v }) rfl rfl rfl (fun h => .inl ⟨h,rfl⟩))
  · rw [view_still (still_ret v), view_setProc, hid, hpar, hr]
    have h1 : update (view s l).pid np (s.proc np).pid = (view s l).pid := update_eq_self _ _
    have h2 : update (view s l).parent np (s.proc np).parent = (view s l).parent :=
      update_eq_self _ _
    rw [h1, h2]
    exact Step.fail p np hp he hn

theorem link_kept (hc : Coherent s) (hf : Forest (view s l)) (h : s.pc p = .forkAlloc np) {r : Proc}
    (hr : r.state = (s.proc np).state) (hid : r.pid = (s.proc np).pid) (hpar : r.parent = some p) :
    Linked ((s.setProc np r).setPc p (.forkReady np)) ∧
    Follows (view s l) (view ((s.setProc np r).setPc p (.forkReady np)) l) := by
  obtain ⟨hp,he,hne,hown⟩ := forked_slot hs hc hf (.inl h)
  have hlt := (hs.alloc p np h).2.2
  have hre : r.state = .embryo := hr.trans (hc.embryo p np (.inl h))
  refine ⟨linked_edit (p := p) (y := np) hs hf hp (by simp [he]) rfl (fun x hx => by simp [hx])
    (fun x hx => .inl (by simp [hx])) (by simp [hre, phase]) hown (by simp) (by simp)
    (fun z hz => ?_),.inr ?_⟩
  · obtain rfl : np = z := by simpa using hz
    simpa using hpar
  · have hv := view_setProc (s := s) (q := np) (l := l) r
    rw [hid, hpar, hr] at hv
    have h1 : update (view s l).pid np (s.proc np).pid = (view s l).pid := update_eq_self _ _
    have h2 : update (view s l).phase np (phase (s.proc np).state) = (view s l).phase :=
      update_eq_self _ _
    rw [h1, h2] at hv
    exact hv ▸ Step.link p np hp he hlt

theorem publish_kept (hc : Coherent s) (hf : Forest (view s l)) (h : s.pc p = .forkReady np)
    (hm : forkPublish s p np = .ok t) : Linked t ∧
    Follows (view s l) (view t { l with
      origin := update l.origin (s.proc np).pid (some (s.proc p).pid) }) := by
  obtain ⟨hp,he,hne,hown⟩ := forked_slot hs hc hf (.inr h)
  obtain ⟨-,u,hu,rfl⟩ := forkPublish_ok hm
  obtain ⟨k,-,-,rfl⟩ := makeRunnable_ok hu
  refine ⟨linked_edit (p := p) (y := np) hs hf hp (by simp [he]) rfl (fun x hx => ?_)
    (fun x hx => ?_) (by simp) hown (by simp) (by simp) (by simp),?_⟩
  · simp [hx]
  · by_cases hxn : x = np
    · exact .inr ⟨hxn,fun z hz => by simp [Forking, hne.symm] at hz⟩
    · exact .inl (by simp [hx, hxn])
  · refine follows_step (Step.publish p np he (hs.ready p np h)) (Family.ext (funext fun x => ?_)
      (funext fun x => ?_) (funext fun x => ?_) rfl rfl rfl rfl rfl)
    all_goals by_cases h : x = np <;> simp [view, h]

theorem doze_kept (hf : Forest (view s l)) (hp : phase (s.proc p).state = .live)
    (hno : ∀ x, (s.proc x).parent = some p → (s.proc x).state ≠ .zombie)
      (h : Dozes s t p (.proc p)) :
    Linked t ∧ Follows (view s l) (view t l) := by
  obtain ⟨h1,h2⟩ := staged hs hf hp
  refine ⟨⟨fun x y hx => ?_,fun x y hx => ?_,fun q hq => ?_,
    fun hg => absurd (h.rest.2.2.symm.trans hg) h1,
    fun i hg => absurd (h.rest.2.2.symm.trans hg) (h2 i)⟩,.inl ?_⟩
  · rw [h.phase, h.parent, h.pid, h.pid]
    exact hs.alloc x y (h.alloc x y hx)
  · rw [h.parent]
    exact hs.ready x y (h.ready x y hx)
  · rcases h.asleep q hq with ⟨hq,hc⟩ | ⟨rfl,hc⟩
    · exact restful_congr (hs.restful q hq) hc h.phase h.parent
    · refine ⟨hc,fun x hx hz => ?_⟩
      rw [h.phase x] at hz
      exact hno x ((h.parent x).symm.trans hx) (phase_zombie.mp hz)
  · unfold view
    rw [funext h.phase, funext h.pid, funext h.parent, h.rest.1, h.rest.2.1]

end

end

theorem sleepOn_pc {ch : Chan} (h : sleepOn s c p ch .waiting = .ok t) : t.pc p = .waiting := by
  obtain ⟨-,-,-,⟨-,rfl⟩ | ⟨i,-,hi⟩⟩ := sched_ok h
  · simp
  · rcases scanFrom_ok hi with rfl | ⟨q,hq,hd⟩
    · simp
    · obtain ⟨ch,k,j,rfl,-⟩ := dispatch_ok hd
      have hne : p ≠ q := by
        rintro rfl
        simp at hq
      simp [switchTo, hne]

section
variable (hs : Linked s) (hc : Coherent s) (hf : Forest (view s l))
include hs hc hf

theorem wait_kept {k : Option Slot} (hcpu : s.cpu c = some p)
    (hpc : s.pc p = .user ∨ s.pc p = .waitScan) (h : waitScan (s.setLock k) c p = .ok t) :
    Linked t ∧ Follows (view s l) (view t (recordWait s t c l)) := by
  have hp := phase_live (hc.live c p hcpu)
  have hl := linked_still hs (still_lock k)
  rcases waitScan_ok h with ⟨q,hz,hq,rfl⟩ | ⟨rfl,-⟩ | ⟨hd,hno⟩
  · simp only [Kernel.setLock_proc] at hz hq ⊢
    have hpos : 0 < (s.proc q).pid := (hf.pids q (by simp [view, hz, phase])).1
    obtain ⟨h1,h2⟩ := reap_kept hl (coherent_setLock hc k) hf hp
      (by rcases hpc with h | h <;> simp [h]) (fun z hz => by
        rcases hpc with h | h <;> simp [Forking, h] at hz) hz hq
    have hback := still_trans (still_ret (s := freeSlot (s.setLock k) q) (p := p) (s.proc q).pid)
      (still_lock none)
    refine ⟨linked_still h1 hback,?_⟩
    have hr : recordWait s ((ret (freeSlot (s.setLock k) q) p (s.proc q).pid).setLock none) c l =
        { l with reaped := ((s.proc q).pid,(s.proc p).pid)::l.reaped } := by
      have hne1 : (s.proc q).pid ≠ -1 := by omega
      simp [recordWait, hcpu, ret, hne1]
    rw [hr, view_still hback]
    exact h2
  · have hback := still_trans (still_lock (s := s) k)
      (still_trans (still_ret (p := p) (-1)) (still_lock none))
    refine ⟨linked_still hs hback,.inl ?_⟩
    have hr : recordWait s ((ret (s.setLock k) p (-1)).setLock none) c l = l := by
      simp [recordWait, hcpu, ret]
    rw [hr, view_still hback]
  · have hr : recordWait s t c l = l := by
      simp [recordWait, hcpu, sleepOn_pc hd]
    rw [hr]
    exact doze_kept (s := s.setLock k) (l := l) hl hf hp hno (sleepOn_dozes hp (.inr rfl) hd)

theorem fork_kept (ha : isProcessCall a = true) (hr : isRoutine a = false) (hx : ∀ c, a ≠ .exit c)
    (h : step s a = .ok t) : Linked t ∧ Follows (view s l) (view t (record s a t l)) := by
  have hstill : ∀ {t : Kernel C}, Still s t → Linked t ∧ Follows (view s l) (view t l) :=
    fun hk => ⟨linked_still hs hk,.inl (view_still hk)⟩
  cases a <;> simp only [isProcessCall, isRoutine, Bool.false_eq_true, Bool.true_eq_false] at ha hr
  case exit c => exact absurd rfl (hx c)
  case fork c =>
    obtain ⟨p,hcpu,-,h⟩ := call_ok h
    have hp := phase_live (hc.live c p hcpu)
    rcases (fork_ok h).2 with rfl | ⟨np,hun,rfl⟩
    · exact hstill (still_trans (still_lock (some p))
        (still_trans (still_ret (-1)) (still_lock none)))
    · exact alloc_kept hs hc hf hp hun
  case forkPublish c =>
    obtain ⟨p,hcpu,h⟩ := onCpu_ok h
    split at h
    case h_2 => simp at h
    rename_i np hpc
    simpa [record, recordPublish, hcpu, hpc] using publish_kept hs hc hf hpc h
  all_goals
    obtain ⟨p,-,h⟩ := onCpu_ok h
    split at h
    case h_2 => simp at h
    rename_i hpc
    obtain rfl := Except.ok.inj h
  · rename_i np _
    exact fail_kept (r := { s.proc np with state := .unused }) hs hc hf hpc rfl rfl rfl _
  · rename_i np _
    exact fail_kept (r := { s.proc np with muxPtrs := fun _ => false, state := .unused })
      hs hc hf hpc rfl rfl rfl _
  · exact link_kept hs hc hf hpc rfl rfl rfl
  · rename_i np pid _
    refine hstill (still_trans (still_setProc (q := np) (r := { s.proc np with
      muxPtrs := (s.proc p).muxPtrs }) rfl rfl rfl (fun h => Or.inl ⟨h,rfl⟩))
        (still_setPc ?_ ?_ ?_))
    all_goals simp
  · rename_i np pid _
    exact hstill (still_trans (still_setProc (q := np) (r := { s.proc np with
      priority := (s.proc p).priority }) rfl rfl rfl (fun h => .inl ⟨h,rfl⟩)) (still_ret pid))

theorem routine_kept (hr : isRoutine a = true) (h : step s a = .ok t) :
    Linked t ∧ Follows (view s l) (view t (record s a t l)) := by
  have hstill : Still s t → Linked t ∧ Follows (view s l) (view t l) :=
    fun hk => ⟨linked_still hs hk,.inl (view_still hk)⟩
  cases a <;> simp only [isRoutine, Bool.false_eq_true] at hr
  case schedule c => exact hstill (still_scheduler hc h)
  case wakeup ch => exact hstill (still_wakeup h)
  case yield c =>
    obtain ⟨p,hcpu,h⟩ := onCpu_ok h
    exact hstill (still_yield hc hcpu h)
  case sleep c ch =>
    obtain ⟨p,hcpu,-,h⟩ := call_ok h
    exact hstill (still_trans (still_lock (some p))
      (still_sleep (phase_live (hc.live c p hcpu)) (acquire_then h).2))
  case kill c pid =>
    obtain ⟨p,-,-,h⟩ := call_ok h
    exact hstill (still_kill h)
  case wait c =>
    obtain ⟨p,hcpu,hu,h⟩ := call_ok h
    exact wait_kept hs hc hf hcpu (.inl hu) (acquire_then h).2
  case waitScan c =>
    obtain ⟨p,hcpu,h⟩ := onCpu_ok h
    split at h
    case h_2 => simp at h
    rename_i hpc
    exact wait_kept (k := s.lock) hs hc hf hcpu (.inr hpc) h

end

structure Kept (s : Kernel C) (l : Ledger) : Prop where
  coherent : Coherent s
  clear : ∀ q, ¬Waits s q
  linked : Linked s
  forest : Forest (view s l)
  booked : Booked (view s l)

omit [DecidableEq C] in
theorem kept_follows {l' : Ledger} (hs : Kept s l) (hc : Coherent t) (hw : ∀ q, ¬Waits t q)
    (hk : Linked t ∧ Follows (view s l) (view t l')) : Kept t l' := by
  obtain ⟨hl,h | h⟩ := hk
  · exact ⟨hc,hw,hl,h ▸ hs.forest,h ▸ hs.booked⟩
  · exact ⟨hc,hw,hl,forest_step hs.forest h,booked_step hs.forest hs.booked h⟩

theorem process_follows (hs : Kept s l) (ha : isProcessCall a = true) (h : step s a = .ok t) :
    Linked t ∧ Follows (view s l) (view t (record s a t l)) := by
  cases hr : isRoutine a with
  | true => exact routine_kept hs.linked hs.coherent hs.forest hr h
  | false =>
    by_cases hx : ∃ c, a = .exit c
    · obtain ⟨c,rfl⟩ := hx
      obtain ⟨p,hcpu,hu,h⟩ := call_ok h
      have hp := phase_live (hs.coherent.live c p hcpu)
      have hk := exit_kept hs.linked hs.forest hp hu (exit_ok h).1 (exit_exits h)
      simpa [record, recordExit, hcpu] using hk
    · exact fork_kept hs.linked hs.coherent hs.forest ha hr (fun c hc => hx ⟨c,hc⟩) h

theorem kept_process (hs : Kept s l) (ha : isProcessCall a = true) (h : step s a = .ok t) :
    Kept t (record s a t l) := by
  have hc := coherent_process hs.coherent ha (fun c p _ _ => hs.clear p) h
  have hw : ∀ q, ¬Waits t q := fun q hq => hs.clear q (waits_process ha h hq)
  exact kept_follows hs hc hw (process_follows hs ha h)

theorem kept_resume (hs : Kept s l) (h : resume s c p = .ok t) : Kept t l := by
  unfold resume at h
  split at h
  case isFalse => simp at h
  rename_i hb
  have hl : ¬Dead (s.proc p).state := fun hd => hs.coherent.idle p hd hb.2.2
  have hk := still_dispatch (phase_live hl) h
  refine kept_follows hs (coherent_dispatch hs.coherent h) (fun q hq => hs.clear q ?_)
    ⟨linked_still hs.linked hk,.inl (view_still hk)⟩
  obtain ⟨ch,k,j,rfl,hkk⟩ := dispatch_ok h
  rcases hq with hq | hq | ⟨x,hx⟩
  · exact .inl hq
  · exact .inr (.inl hq)
  · refine .inr (.inr ⟨x,?_⟩)
    by_cases hxp : x = p
    · subst hxp
      have hx : waker k = some q := by simpa [switchTo] using hx
      refine waker_later ?_ hx
      rcases hkk with ⟨-,rfl,-⟩ | ⟨-,hr,-⟩
      · exact .inl rfl
      · exact .inr (.inl hr)
    · simpa [switchTo, hxp] using hx

section
omit [DecidableEq C]

/-- Before the first process is published nobody runs, forks or sleeps. -/
theorem linked_quiet {i : Slot} (hs : Linked s) (hf : Forest (view s l))
    (hq : ∀ x, x ≠ i → phase (s.proc x).state = .unused) (hi : phase (s.proc i).state ≠ .live)
    (hproc : ∀ x, x ≠ i → t.proc x = s.proc x) (hpc : ∀ x, x ≠ i → t.pc x = s.pc x)
    (hown : ∀ z, ¬Forking t i z) (hsleep : (t.proc i).state ≠ .sleeping)
    (hstart : t.stage ≠ .start) (halloc : ∀ j, t.stage = .allocated j →
      t.initproc = some j ∧ phase (t.proc j).state = .embryo) : Linked t := by
  have hdead : ∀ x, phase (s.proc x).state ≠ .live := by
    intro x
    by_cases hx : x = i
    · exact hx ▸ hi
    · simp [hq x hx]
  have hno : ∀ x z, ¬Forking t x z := by
    intro x z h
    by_cases hx : x = i
    · exact hown z (hx ▸ h)
    · rw [Forking, hpc x hx] at h
      exact hdead x (forking_live hs hf h)
  refine ⟨fun x z h => absurd (.inl h) (hno x z),fun x z h => absurd (.inr h) (hno x z),
    fun x h => ?_,fun h => absurd h hstart,halloc⟩
  by_cases hx : x = i
  · exact absurd (hx ▸ h.2) hsleep
  · have hz := h.2
    rw [hproc x hx] at hz
    exact absurd (show phase (s.proc x).state = .live by rw [hz]; rfl) (hdead x)

theorem kept_alloc (hs : Kept s l) (h : userinitAlloc s = .ok t) : Kept t l := by
  obtain ⟨hn,p,u,hu,rfl⟩ := userinitAlloc_ok h
  obtain ⟨hun,rfl⟩ := allocproc_some hu
  have hroot := hs.linked.start hn
  have hall := (hs.forest.empty hroot).2
  refine kept_follows hs ?_ (fun q hq => hs.clear q hq) ⟨linked_quiet (i := p) hs.linked hs.forest
    (fun x _ => hall x) (by simp [hun, phase]) (fun x hx => ?_) (fun x _ => rfl) (fun z hz => ?_) ?_
    (by simp) (fun j hj => ?_),?_⟩
  · have h1 := coherent_dead hs.coherent (.inl hun)
      { s.proc p with state := .embryo, pid := s.nextpid } (dead_embryo rfl) (fun _ _ => rfl)
    have h2 := coherent_setProc (q := p) h1 { (s.setProc p
      { s.proc p with state := .embryo, pid := s.nextpid }).proc p with
      muxPtrs := fun _ => false
      sz := PGSIZE
      name := safestrcpy (s.proc p).name initcodeName } (.inl rfl)
    exact coherent_mono h2 rfl rfl rfl (fun q => .inl (by simp)) (fun _ => .inl)
  · simp [hx]
  · have hz : Forking s p z := hz
    have hl := forking_live hs.linked hs.forest hz
    simp [hun, phase] at hl
  · simp
  · obtain rfl := Stage.allocated.inj hj
    simp [phase]
  · refine follows_step (Step.found p hroot) (Family.ext (funext fun x => ?_) (funext fun x => ?_)
      (funext fun x => ?_) rfl rfl rfl rfl rfl)
    all_goals by_cases h : x = p <;> simp [view, h, phase]

theorem kept_publish (hs : Kept s l) (h : userinitPublish s = .ok t) : Kept t l := by
  obtain ⟨p,u,hg,hu,rfl⟩ := userinitPublish_ok h
  obtain ⟨k,-,-,rfl⟩ := makeRunnable_ok hu
  obtain ⟨hi,he⟩ := hs.linked.allocated p hg
  have hother : ∀ x, x ≠ p → phase (s.proc x).state = .unused := by
    rcases hs.forest.alone p hi with h | h
    · have h : phase (s.proc p).state = .live := h
      simp [he] at h
    · exact h.2
  have hfork : ∀ x z, ¬Forking s x z := by
    intro x z hx
    have hl := forking_live hs.linked hs.forest hx
    by_cases h : x = p
    · rw [h, he] at hl
      simp at hl
    · simp [hother x h] at hl
  have hdead : Dead (s.proc p).state := by
    by_contra hd
    simp [phase_live hd] at he
  refine kept_follows hs ?_ (fun q hq => hs.clear q ?_) ⟨linked_quiet (i := p) hs.linked hs.forest
    hother (by simp [he]) (fun x hx => ?_) (fun x hx => ?_) (fun z hz => ?_) ?_ (by simp)
    (by simp),?_⟩
  · have h1 := coherent_setProc hs.coherent { s.proc p with priority := 0 } (.inl rfl)
    have h2 := coherent_publish h1 (q := p) (by simpa using hdead) (fun x hx => hfork x p hx)
    exact coherent_mono h2 rfl rfl rfl (fun q => .inl rfl) (fun _ => .inl)
  · rcases hq with hq | hq | ⟨x,hx⟩
    · exact .inl hq
    · exact .inr (.inl hq)
    · refine .inr (.inr ⟨x,?_⟩)
      by_cases hxp : x = p
      · simp [hxp, waker] at hx
      · simpa [hxp] using hx
  · simp [hx]
  · simp [hx]
  · simp [Forking] at hz
  · simp
  · refine follows_step (Step.start p hi he) (Family.ext (funext fun x => ?_) (funext fun x => ?_)
      (funext fun x => ?_) rfl rfl rfl rfl rfl)
    all_goals by_cases h : x = p <;> simp [view, h]

theorem kept_mutexes (hs : Kept s l) (h : userinitMutexes s = .ok t) : Kept t l := by
  obtain ⟨-,rfl⟩ := userinitMutexes_ok h
  have hw : ∀ q, Waits { s with
      muxes := fun _ => { name := 0, state := -1, cv := empty }, wqueue := empty,
      muxLock := none, stage := .done } q → Waits s q := by
    rintro q (hq | ⟨m,hq⟩ | hq)
    · simp [list_empty] at hq
    · simp [list_empty] at hq
    · exact .inr (.inr hq)
  refine kept_follows hs (coherent_mono hs.coherent rfl rfl rfl (fun _ => .inl rfl)
    (fun q hq => .inl (hw q hq))) (fun q hq => hs.clear q (hw q hq)) ⟨?_,.inl rfl⟩
  exact ⟨hs.linked.alloc,hs.linked.ready,hs.linked.restful,by simp,by simp⟩

theorem kept_boot (c : C) : Kept (boot c) noEntries := by
  have hpc : ∀ q, (boot c).pc q = .absent := fun _ => rfl
  have hfork : ∀ p np, ¬Forking (boot c) p np := by
    intro p np h
    simp [Forking, hpc] at h
  have hclear : ∀ q, ¬Waits (boot c) q := by
    rintro q (hq | ⟨m,hq⟩ | ⟨x,hx⟩)
    · simp [boot, list_empty] at hq
    · simp [boot, list_empty] at hq
    · simp [hpc, waker] at hx
  have hst : ∀ q, phase ((boot c).proc q).state = .unused := fun _ => rfl
  refine ⟨⟨by simp [boot],by simp [boot],by simp [boot],by simp [boot],?_,?_,?_,fun q _ =>
    hclear q⟩,
    hclear,⟨by simp [boot],by simp [boot],?_,fun _ => rfl,by simp [boot]⟩,?_,?_⟩
  · rintro q - (h | h)
    · simp [boot] at h
    · simp [boot, resumePc] at h
  · exact fun p np h => absurd h (hfork p np)
  · exact fun p q np h => absurd h (hfork p np)
  · rintro q ⟨h,-⟩
    simp [hpc] at h
  · refine ⟨fun q h => absurd (hst q) h,fun q r h => absurd (hst q) h,fun _ _ => rfl,?_,?_,?_,?_,
      fun _ => ⟨rfl,hst⟩,?_,by simp [view, boot]⟩
    all_goals simp [view, boot, zeroProc, phase]
  · refine ⟨?_,?_,?_,?_,?_,?_⟩
    all_goals simp [view, boot, zeroProc, noEntries, phase]

end

theorem kept_step (hs : Kept s l) (ha : isFamilyCall a = true) (h : step s a = .ok t) :
    Kept t (record s a t l) := by
  cases hp : isProcessCall a with
  | true => exact kept_process hs hp h
  | false =>
    cases a <;> simp only [isFamilyCall, isProcessCall, Bool.false_eq_true,
      Bool.true_eq_false] at ha hp
    case userinitAlloc => exact kept_alloc hs h
    case userinitPublish => exact kept_publish hs h
    case userinitMutexes => exact kept_mutexes hs h
    case resume c p => exact kept_resume hs h

theorem kept_reaches
    (h : Reaches booked (fun _ a => isFamilyCall a = true) (boot c,noEntries) (s,l)) :
    Kept s l := by
  refine reaches_invariant (fun x : Kernel C × Ledger => Kept x.1 x.2) ?_ (kept_boot c) h
  rintro ⟨s,l⟩ a ⟨t,l'⟩ hs ha h
  unfold booked at h
  cases ht : step s a with
  | error e => simp [ht, Except.map] at h
  | ok u =>
    simp only [ht, Except.map, Except.ok.injEq, Prod.mk.injEq] at h
    obtain ⟨rfl,rfl⟩ := h
    exact kept_step hs ha ht

end Xv6.FamilyRuns
