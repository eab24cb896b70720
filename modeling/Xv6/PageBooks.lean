import Xv6.PageFiles
import Xv6.SpaceLedger

/-!
# Accounts of the whole machine

For one page, the tally counts the free list, the pipes, the kernel's directory
and every process's kernel stack and address space. Each system call other than
the two on shared memory moves pages between these places or loses them, so it
never makes a tally larger.
-/

set_option autoImplicit false

namespace Xv6.PageBooks
open Function Inventory PageTables PageLedger PageCalls PageFiles
open TransitionRun
open KernelState (NPROC Slot Stop)

def coreUses (sh : Bool) (x : Page) (c : Core) : ℕ :=
  if c.state = .live ∨ c.state = .zombie then hit x c.kstack+c.pgdir.elim 0 (uses sh x) else 0

def tally (sh : Bool) (x : Page) (s : System) : ℕ :=
  freeCount x s.mem+pipeUses x s+uses sh x s.kpgdir+
    total Finset.univ (coreUses sh x) fun q => core (s.task q)

def Fitted (s : System) : Prop :=
  ∀ q, (s.task q).state = .live → ∃ d, (s.task q).pgdir = some d ∧ Fit d (s.task q).sz

def tag (e : ShmPg) : ℕ × Option Page := (e.name,e.pa)

structure Sound (s : System) : Prop where
  piped : Piped s
  fitted : Fitted s
  apart : Apart s

structure Books (spares : Page → Prop) (s t : System) : Prop where
  piped : Piped t
  fitted : Fitted t
  kpgdir : t.kpgdir = s.kpgdir
  tags : ∀ i, tag (t.shm i) = tag (s.shm i)
  ready : t.shmReady = s.shmReady
  tally : ∀ sh x, (sh = true → freeCount x s.mem = 0 ∧ spares x) → tally sh x t ≤ tally sh x s

variable {s t u : System} {sh : Bool} {x : Page} {L : Layout} {p : Slot} {spares : Page → Prop}
  {v : Task}

theorem Fitted.fit {d : Pgdir} (hf : Fitted s) (hl : (s.task p).state = .live)
    (hd : (s.task p).pgdir = some d) : Fit d (s.task p).sz := by
  obtain ⟨d',hd',hfit⟩ := hf p hl
  exact Option.some.inj (hd.symm.trans hd') ▸ hfit

theorem fitted_quiet (h : Quiet s t) (hf : Fitted s) : Fitted t := by
  intro q hl
  obtain ⟨hstate,hsz,-,hpg⟩ := Core.mk.inj (h.core q)
  obtain ⟨d,hd,hfit⟩ := hf q (hstate ▸ hl)
  exact ⟨d,hpg.trans hd,hsz ▸ hfit⟩

theorem tally_quiet (h : Quiet s t) (sh : Bool) (x : Page) : tally sh x t ≤ tally sh x s := by
  have hp := h.pages x
  have hc : total Finset.univ (coreUses sh x) (fun q => core (t.task q)) =
      total Finset.univ (coreUses sh x) (fun q => core (s.task q)) :=
    total_congr fun q _ => h.core q
  rw [tally, tally, h.kpgdir, hc]
  omega

theorem Quiet.books (h : Quiet s t) (hp : Piped t) (hf : Fitted s) : Books spares s t :=
  ⟨hp,fitted_quiet h hf,h.kpgdir,fun i => by rw [h.shm],h.ready,
    fun sh x _ => tally_quiet h sh x⟩

theorem Books.quiet (h : Books spares s t) (hq : Quiet t u) (hp : Piped u) : Books spares s u :=
  ⟨hp,fitted_quiet hq h.fitted,hq.kpgdir.trans h.kpgdir,fun i => by rw [hq.shm, h.tags],
    hq.ready.trans h.ready,fun sh x hs => (tally_quiet hq sh x).trans (h.tally sh x hs)⟩

/-- The exchange rule for one process: its new stack and address space are
paid for by the free list and its old ones. -/
theorem tally_setTask {m : Mem}
    (h : freeCount x m+coreUses sh x (core v) ≤ freeCount x s.mem+coreUses sh x (core (s.task p))) :
    tally sh x ({ s with mem := m }.setTask p v) ≤ tally sh x s := by
  have he : (fun q => core (({ s with mem := m }.setTask p v).task q)) =
      update (fun q => core (s.task q)) p (core v) := by
    funext q
    by_cases hq : q = p
    · subst hq
      simp [System.setTask]
    · simp [System.setTask, hq]
  have hx := total_update (Finset.mem_univ p) (coreUses sh x) (fun q => core (s.task q)) (core v)
  have hm : ({ s with mem := m }.setTask p v).mem = m := rfl
  have hk : ({ s with mem := m }.setTask p v).kpgdir = s.kpgdir := rfl
  have hu : pipeUses x ({ s with mem := m }.setTask p v) = pipeUses x s := rfl
  rw [tally, tally, he, hm, hk, hu]
  omega

theorem piped_setTask (h : Piped s) (m : Mem) (v : Task) :
    Piped ({ s with mem := m }.setTask p v) :=
  ⟨h.isOpen,h.single,h.idle⟩

theorem fitted_setTask (h : Fitted s) (m : Mem)
    (hv : v.state = .live → ∃ d, v.pgdir = some d ∧ Fit d v.sz) :
    Fitted ({ s with mem := m }.setTask p v) := by
  intro q hl
  by_cases hq : q = p
  · subst hq
    simp only [System.setTask, update_self] at hl ⊢
    exact hv hl
  · simp only [System.setTask, update_of_ne hq] at hl ⊢
    exact h q hl

theorem books_setTask {m : Mem} (hs : Sound s)
    (hv : v.state = .live → ∃ d, v.pgdir = some d ∧ Fit d v.sz)
    (ht : ∀ sh x, (sh = true → freeCount x s.mem = 0 ∧ spares x) →
      freeCount x m+coreUses sh x (core v) ≤ freeCount x s.mem+coreUses sh x (core (s.task p))) :
    Books spares s ({ s with mem := m }.setTask p v) :=
  ⟨piped_setTask hs.piped m v,fitted_setTask hs.fitted m hv,rfl,fun _ => rfl,rfl,
    fun sh x hx => tally_setTask (ht sh x hx)⟩

theorem coreUses_live {c : Core} {k : Page} {d : Pgdir} (hl : c.state = .live ∨ c.state = .zombie)
    (hk : c.kstack = some k) (hd : c.pgdir = some d) :
    coreUses sh x c = hit x (some k)+uses sh x d := by
  rw [coreUses, if_pos hl, hk, hd]
  rfl

theorem coreUses_unused {c : Core} (h : c.state = .unused) : coreUses sh x c = 0 := by
  simp [coreUses, h]

theorem coreUses_pgdir {c : Core} {d : Pgdir} (hl : c.state = .live) (hd : c.pgdir = some d) :
    coreUses sh x c = hit x c.kstack+uses sh x d := by
  rw [coreUses, if_pos (.inl hl), hd]
  rfl

theorem raise_ok {α : Type} {r : Except String α} {a : α} (h : raise r = .ok a) : r = .ok a := by
  cases r with
  | error e => cases h
  | ok b => exact congrArg Except.ok (Except.ok.inj h)

section Fork

theorem freeSlot_unused {np : Slot} (h : freeSlot s = some np) : (s.task np).state = .unused := by
  simpa using List.find?_some h

theorem fork_books (hs : Sound s) (hl : (s.task p).state = .live) (h : fork L p s = .ok t) :
    Books spares s t := by
  unfold fork at h
  split at h
  · cases h
    exact Quiet.books (quiet_refl s) hs.piped hs.fitted
  · rename_i np hnp
    have hun := freeSlot_unused hnp
    have hold : ∀ sh x, coreUses sh x (core (s.task np)) = 0 := fun sh x => coreUses_unused hun
    split at h
    · rename_i m hk
      cases h
      refine books_setTask hs (fun hlive => absurd (hun.symm.trans hlive) (by simp))
        fun sh x _ => ?_
      have hc := kalloc_count hk x
      rw [hold, coreUses_unused hun]
      exact hc.le
    · rename_i k m hk
      split at h
      · cases h
      · rename_i d hd
        obtain ⟨⟨o,m1⟩,hcopy,h⟩ := bind_ok h
        have hcopy := raise_ok hcopy
        have hb := (hs.fitted.fit hl hd).bound
        split at h
        · rename_i m2 heq
          obtain ⟨rfl,rfl⟩ := Prod.mk.inj heq
          cases h
          refine books_setTask hs (fun hlive => absurd (hun.symm.trans hlive) (by simp))
            fun sh x _ => ?_
          have hc := kalloc_count hk x
          have hn := copyuvm_none hb hcopy x
          rw [hold, coreUses_unused hun, kfree_count]
          omega
        · rename_i d1 m2 heq
          obtain ⟨rfl,rfl⟩ := Prod.mk.inj heq
          obtain ⟨hc1,hfit⟩ := copyuvm_some hb hcopy
          have hbooks : Books spares s ({ s with mem := m1 }.setTask np
              { s.task np with
                state := .live
                parent := some p
                sz := (s.task p).sz
                kstack := some k
                pgdir := some d1 }) := by
            refine books_setTask hs (fun _ => ⟨d1,rfl,hfit⟩) fun sh x _ => ?_
            have hc := kalloc_count hk x
            have hn := hc1 x
            have hu := uses_le sh x d1
            rw [hold, coreUses_live (.inl rfl) rfl rfl]
            omega
          obtain ⟨hq,hpt⟩ := fileLoop_keeps (fun s i t hp h => forkFile_keeps h hp) h hbooks.piped
          exact hbooks.quiet hq hpt

end Fork

section Exec

variable {d d' : Pgdir} {m m' : Mem} {o : Option ℕ} {sz : ℕ}

theorem fit_bare (hu : ∀ v, v < kernPage → d.pte v = none) (hk : (d.pte kernPage).isSome) :
    Fit d 0 :=
  ⟨Nat.zero_le _,fun v _ hv => hu v hv,hk⟩

theorem fit_rounded (h : Fit d sz) : Fit d (pages sz*PGSIZE) := by
  have hb := pages_le_kernPage h.bound
  have hp : pages (pages sz*PGSIZE) = pages sz := by
    unfold pages PGSIZE
    omega
  refine ⟨?_,fun v h1 h2 => h.above v (hp ▸ h1) h2,h.kernel⟩
  unfold KERNBASE PGSIZE
  unfold kernPage at hb
  omega

theorem loadSegments_spec {gs : List Segment} (hf : Fit d sz)
    (h : loadSegments gs sz d m = .ok (o,d',m')) :
    (∀ x, freeCount x m'+uses false x d' ≤ freeCount x m+uses false x d) ∧
      ∀ r, o = some r → Fit d' r := by
  induction gs generalizing sz d m with
  | nil =>
    cases h
    exact ⟨fun _ => le_rfl,fun r hr => Option.some.inj hr ▸ hf⟩
  | cons g gs ih =>
    have hbad : ∀ {d1 : Pgdir} {m1 : Mem},
        (∀ x, freeCount x m1+uses false x d1 ≤ freeCount x m+uses false x d) →
        (Except.ok (none,d1,m1) : Except String (Option ℕ × Pgdir × Mem)) = .ok (o,d',m') →
        (∀ x, freeCount x m'+uses false x d' ≤ freeCount x m+uses false x d) ∧
          ∀ r, o = some r → Fit d' r := by
      intro d1 m1 hc he
      cases he
      exact ⟨hc,by simp⟩
    rw [loadSegments] at h
    split at h
    · exact hbad (fun _ => le_rfl) h
    split at h
    · exact ih hf h
    split at h
    · exact hbad (fun _ => le_rfl) h
    split at h
    · exact hbad (fun _ => le_rfl) h
    obtain ⟨⟨r,d1,m1⟩,ha,h⟩ := bind_ok h
    have hc : ∀ x, freeCount x m1+uses false x d1 ≤ freeCount x m+uses false x d :=
      fun x => allocuvm_uses (by simp) ha
    have hfit := allocuvm_fit hf ha
    simp only at h
    split at h
    · exact hbad hc h
    rename_i hr
    rw [if_neg hr] at hfit
    split at h
    · exact hbad hc h
    obtain ⟨b,-,h⟩ := bind_ok h
    cases b with
    | false => exact hbad hc h
    | true =>
      obtain ⟨hi,hfit'⟩ := ih hfit h
      exact ⟨fun x => (hi x).trans (hc x),hfit'⟩

theorem loadStack_spec {args : Bool} (hf : Fit d sz) (h : loadStack args sz d m = .ok (o,d',m')) :
    (∀ x, freeCount x m'+uses false x d' ≤ freeCount x m+uses false x d) ∧
      ∀ r, o = some r → Fit d' r := by
  unfold loadStack at h
  obtain ⟨⟨r,d1,m1⟩,ha,h⟩ := bind_ok h
  have hc : ∀ x, freeCount x m1+uses false x d1 ≤ freeCount x m+uses false x d :=
    fun x => allocuvm_uses (by simp) ha
  have hfit := allocuvm_fit hf ha
  simp only at h
  split at h
  · cases h
    exact ⟨hc,by simp⟩
  · rename_i hr
    rw [if_neg hr] at hfit
    obtain ⟨d2,hcl,he⟩ := map_ok h
    obtain ⟨rfl,hr'⟩ := Prod.mk.inj he
    obtain ⟨rfl,rfl⟩ := Prod.mk.inj hr'
    obtain ⟨hu,hpte⟩ := clearpteu_spec hcl
    refine ⟨fun x => by rw [hu]; exact hc x,fun r' hr' => ?_⟩
    split at hr'
    · cases hr'
      refine ⟨hfit.bound,fun v h1 h2 => ?_,by rw [hpte]; exact hfit.kernel⟩
      have hz := hpte v
      rw [hfit.above v h1 h2] at hz
      simpa using hz
    · cases hr'

theorem loadImage_spec {img : Image} (hf : Fit d 0) (h : loadImage img d m = .ok (o,d',m')) :
    (∀ x, freeCount x m'+uses false x d' ≤ freeCount x m+uses false x d) ∧
      ∀ r, o = some r → Fit d' r := by
  unfold loadImage at h
  obtain ⟨⟨o1,d1,m1⟩,hseg,h⟩ := bind_ok h
  obtain ⟨hc,hfit⟩ := loadSegments_spec hf hseg
  cases o1 with
  | none =>
    cases h
    exact ⟨hc,by simp⟩
  | some sz =>
    obtain ⟨hc',hfit'⟩ := loadStack_spec (fit_rounded (hfit sz rfl)) h
    exact ⟨fun x => (hc' x).trans (hc x),hfit'⟩

theorem books_mem {m : Mem} (hs : Sound s) (h : ∀ x, freeCount x m ≤ freeCount x s.mem) :
    Books spares s { s with mem := m } :=
  Quiet.books ⟨fun _ => rfl,rfl,rfl,rfl,fun x => Nat.add_le_add_right (h x) _⟩
    ⟨hs.piped.isOpen,hs.piped.single,hs.piped.idle⟩ hs.fitted

theorem Books.after_quiet (h : Books spares t u) (hq : Quiet s t)
    (hfree : ∀ x, freeCount x t.mem = freeCount x s.mem) : Books spares s u :=
  ⟨h.piped,h.fitted,h.kpgdir.trans hq.kpgdir,fun i => by rw [h.tags, hq.shm],
    h.ready.trans hq.ready,fun sh x hx =>
    (h.tally sh x (fun e => ⟨(hfree x).trans (hx e).1,(hx e).2⟩)).trans (tally_quiet hq sh x)⟩

theorem exec_books {img : Image} (hs : Sound s) (hl : (s.task p).state = .live)
    (hspare : ∀ x d, spares x → (s.task p).pgdir = some d → Clear x d 0 kernPage)
    (h : exec L p img s = .ok t) : Books spares s t := by
  have hq : Quiet s (s.setTask p { s.task p with shmpgs := fun _ => false }) :=
    ⟨core_update p rfl,rfl,rfl,rfl,fun _ => le_rfl⟩
  have hp : Piped (s.setTask p { s.task p with shmpgs := fun _ => false }) :=
    ⟨hs.piped.isOpen,hs.piped.single,hs.piped.idle⟩
  unfold exec at h
  generalize hs1 : s.setTask p { s.task p with shmpgs := fun _ => false } = s1 at h hq hp
  have hsound : Sound s1 := ⟨hp,fitted_quiet hq hs.fitted,hq.apart hs.apart⟩
  have hmem : s1.mem = s.mem := by rw [← hs1]; rfl
  have hpg : (s1.task p).pgdir = (s.task p).pgdir := (Core.mk.inj (hq.core p)).2.2.2
  have hl1 : (s1.task p).state = .live := ((Core.mk.inj (hq.core p)).1).trans hl
  refine Books.after_quiet ?_ hq (fun x => by rw [hmem])
  simp only at h
  split at h
  · cases h
    exact Quiet.books (quiet_refl _) hp hsound.fitted
  · obtain ⟨⟨o,m1⟩,hset,h⟩ := bind_ok h
    have hset := raise_ok hset
    cases o with
    | none =>
      cases h
      exact books_mem hsound (setupkvm_none hset)
    | some d =>
      obtain ⟨hc1,hu1,hk1⟩ := setupkvm_some hset
      have hbare : ∀ x, uses false x d = frames x d := fun x => by simp [uses, mapped_eq_zero hu1]
      obtain ⟨⟨o2,d2,m2⟩,hload,h⟩ := bind_ok h
      obtain ⟨hc2,hfit2⟩ := loadImage_spec (fit_bare hu1 hk1) (raise_ok hload)
      cases o2 with
      | none =>
        obtain ⟨m3,hfree,rfl⟩ := map_ok h
        refine books_mem hsound fun x => ?_
        have h1 := hc1 x
        have h2 := hc2 x
        have h3 := freevm_count false x (by simp) (raise_ok hfree)
        rw [hbare] at h2
        omega
      | some sz =>
        simp only at h
        split at h
        · cases h
        · rename_i old hold
          obtain ⟨m3,hfree,rfl⟩ := map_ok h
          refine books_setTask hsound (fun _ => ⟨d2,rfl,hfit2 sz rfl⟩) fun sh x hx => ?_
          have h1 := hc1 x
          have h2 := hc2 x
          have h3 := freevm_count sh x
            (fun e => hspare x old (hx e).2 (hpg ▸ hold)) (raise_ok hfree)
          have h4 := uses_le sh x d2
          rw [hbare] at h2
          rw [coreUses_pgdir (c := core (s1.task p)) hl1 hold, coreUses_pgdir hl1 rfl]
          show freeCount x m3+(hit x (s1.task p).kstack+uses sh x d2) ≤
            freeCount x s1.mem+(hit x (s1.task p).kstack+uses sh x old)
          omega

end Exec

section Resize

theorem growproc_books {n : ℤ} (hs : Sound s) (hl : (s.task p).state = .live)
    (hspare : ∀ x d, spares x → n < 0 → (s.task p).pgdir = some d →
      Clear x d (pages (((s.task p).sz+n)%2^32).toNat) (pages (s.task p).sz))
    (h : growproc p n s = .ok t) : Books spares s t := by
  unfold growproc at h
  simp only at h
  split at h
  · cases h
  · rename_i d hd
    have hfit := hs.fitted.fit hl hd
    have hbooks : ∀ (r : ℕ) (d' : Pgdir) (m : Mem), Fit d' (if r = 0 then (s.task p).sz else r) →
        (∀ sh x, (sh = true → freeCount x s.mem = 0 ∧ spares x) →
          freeCount x m+uses sh x d' ≤ freeCount x s.mem+uses sh x d) →
        Books spares s (resize r d' m p s) := by
      intro r d' m hfit' hc
      refine books_setTask hs (fun _ => ⟨d',rfl,hfit'⟩) fun sh x hx => ?_
      have hu := hc sh x hx
      rw [coreUses_pgdir (c := core (s.task p)) hl hd, coreUses_pgdir hl rfl]
      show freeCount x m+(hit x (s.task p).kstack+uses sh x d') ≤
        freeCount x s.mem+(hit x (s.task p).kstack+uses sh x d)
      omega
    split at h
    · obtain ⟨⟨r,d1,m1⟩,ha,h⟩ := bind_ok h
      have ha := raise_ok ha
      cases h
      refine hbooks r d1 m1 (allocuvm_fit hfit ha) fun sh x hx => allocuvm_uses (fun e => ?_) ha
      refine ⟨(hx e).1,fun v h1 h2 e' hv => ?_⟩
      rw [hfit.above v h1 h2] at hv
      cases hv
    · split at h
      · rename_i hneg
        obtain ⟨⟨r,d1,m1⟩,ha,h⟩ := bind_ok h
        have ha := raise_ok ha
        cases h
        obtain ⟨hf₀,hf1⟩ := deallocuvm_fit hfit ha
        refine hbooks r d1 m1 ?_ fun sh x hx =>
          (deallocuvm_uses hfit.bound (fun e => hspare x d (hx e).2 hneg hd) ha).le
        split
        · exact hf₀
        · exact hf1
      · cases h
        exact Quiet.books (quiet_refl s) hs.piped hs.fitted

end Resize

section ExitWait

theorem exitTasks_core (p q : Slot) (s : System) : core ((exitTasks p s).task q) =
    if q = p then { core (s.task q) with state := .zombie } else core (s.task q) := by
  simp only [exitTasks]
  split <;> split <;> rfl

theorem exitTasks_tally (hl : (s.task p).state = .live) (sh : Bool) (x : Page) :
    tally sh x (exitTasks p (exitShm p s)) = tally sh x s := by
  have htotal : total Finset.univ (coreUses sh x)
      (fun q => core ((exitTasks p (exitShm p s)).task q)) =
      total Finset.univ (coreUses sh x) (fun q => core (s.task q)) := by
    refine Finset.sum_congr rfl fun q _ => ?_
    simp only [exitTasks_core]
    split
    · rename_i hq
      subst hq
      rw [coreUses, coreUses, if_pos (.inr rfl), if_pos (.inl hl)]
      rfl
    · rfl
  exact congrArg (freeCount x s.mem+pipeUses x s+uses sh x s.kpgdir+·) htotal

theorem exitTasks_fitted (hf : Fitted s) : Fitted (exitTasks p (exitShm p s)) := by
  intro q hlive
  have hc := exitTasks_core p q (exitShm p s)
  split at hc
  · exact absurd ((Core.mk.inj hc).1.symm.trans hlive) (by simp)
  · obtain ⟨hstate,hsz,-,hpg⟩ := Core.mk.inj hc
    obtain ⟨d,hd,hfit⟩ := hf q (hstate ▸ hlive)
    exact ⟨d,hpg.trans hd,hsz ▸ hfit⟩

theorem exitShm_tag (i : ShmId) : tag ((exitShm p s).shm i) = tag (s.shm i) := by
  unfold tag exitShm
  by_cases hi : (s.task p).shmpgs i
  · simp only [hi, if_true]
  · simp only [hi, Bool.false_eq_true, if_false]

theorem exit_books (hs : Sound s) (hl : (s.task p).state = .live) (h : exit p s = .ok t) :
    Books spares s t := by
  unfold exit at h
  split at h
  · cases h
  · obtain ⟨u,hu,rfl⟩ := map_ok h
    obtain ⟨hq,hpu⟩ := fileLoop_keeps (fun s i t hp h => exitFile_keeps h hp) hu hs.piped
    have hlu : (u.task p).state = .live := ((Core.mk.inj (hq.core p)).1).trans hl
    refine ⟨⟨hpu.isOpen,hpu.single,hpu.idle⟩,exitTasks_fitted (fitted_quiet hq hs.fitted),
      hq.kpgdir,fun i => (exitShm_tag i).trans (by rw [hq.shm]),hq.ready,fun sh x _ => ?_⟩
    rw [exitTasks_tally hlu]
    exact tally_quiet hq sh x

theorem reap_books {q : Slot} (hs : Sound s) (hz : (s.task q).state = .zombie)
    (hspare : ∀ x d, spares x → (s.task q).pgdir = some d → Clear x d 0 kernPage)
    (h : reap q s = .ok t) : Books spares s t := by
  unfold reap at h
  split at h
  · cases h
  · rename_i k hk
    split at h
    · cases h
    · rename_i d hd
      obtain ⟨m,hm,rfl⟩ := map_ok h
      refine books_setTask hs (fun hlive => absurd hlive (by simp)) fun sh x hx => ?_
      have hc := freevm_count sh x (fun e => hspare x d (hx e).2 hd) (raise_ok hm)
      rw [kfree_count] at hc
      rw [coreUses_unused rfl, coreUses_live (.inr hz) hk hd]
      omega

theorem zombieChild_zombie {q : Slot} (h : zombieChild p s = some q) :
    (s.task q).state = .zombie := by
  have := List.find?_some h
  simp only [Bool.decide_and, Bool.and_eq_true, decide_eq_true_eq] at this
  exact this.2

theorem wait_books (hs : Sound s)
    (hspare : ∀ x q d, spares x → zombieChild p s = some q → (s.task q).pgdir = some d →
      Clear x d 0 kernPage)
    (h : wait p s = .ok t) : Books spares s t := by
  unfold wait at h
  split at h
  · rename_i q hq
    exact reap_books hs (zombieChild_zombie hq) (fun x d hx hd => hspare x q d hx hq hd) h
  · split at h
    · cases h
    · cases h
      exact Quiet.books (quiet_refl s) hs.piped hs.fitted

end ExitWait

section Calls

def Spares (s : System) (p : Slot) (c : Call) (x : Page) : Prop :=
  match c with
  | .exec _ => ∀ d, (s.task p).pgdir = some d → Clear x d 0 kernPage
  | .sbrk n => n < 0 → ∀ d, (s.task p).pgdir = some d →
      Clear x d (pages (((s.task p).sz+n)%2^32).toNat) (pages (s.task p).sz)
  | .wait => ∀ q d, zombieChild p s = some q → (s.task q).pgdir = some d → Clear x d 0 kernPage
  | _ => True

def sharedCall : Call → Bool
  | .shmget _ => true
  | .shmrem _ => true
  | _ => false

theorem call_books {c : Call} (hc : sharedCall c = false) (hs : Sound s)
    (hl : (s.task p).state = .live) (h : perform L s p c = .ok t) : Books (Spares s p c) s t := by
  cases c with
  | fork => exact fork_books hs hl h
  | exec img => exact exec_books hs hl (fun x d hx => hx d) h
  | sbrk n => exact growproc_books hs hl (fun x d hx hn => hx hn d) h
  | exit => exact exit_books hs hl h
  | wait => exact wait_books hs (fun x q d hx => hx q d) h
  | pipe arg =>
    obtain ⟨hq,hp⟩ := sysPipe_keeps h hs.piped hs.apart
    exact Quiet.books hq hp hs.fitted
  | close i =>
    obtain ⟨hq,hp⟩ := sysClose_keeps h hs.piped
    exact Quiet.books hq hp hs.fitted
  | dup i =>
    obtain ⟨hq,hp⟩ := sysDup_keeps h hs.piped
    exact Quiet.books hq hp hs.fitted
  | shmget name => cases hc
  | shmrem name => cases hc

end Calls

section Boot

end Boot

end Xv6.PageBooks
