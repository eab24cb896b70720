import Xv6.PageCalls
import Xv6.PageLedger

/-!
# Pages held by pipes

A pipe is in use while an open file refers to its page. The two open flags in
the pipe follow its open files, each end having at most one, so the page is
freed exactly when the last of the two files is closed.
-/

set_option autoImplicit false

namespace Xv6.PageFiles
open Function Inventory PageTables PageLedger PageCalls TransitionRun
open KernelState (NPROC Slot Stop)

def Opens (s : System) (f : FileId) (p : Page) (w : Bool) : Prop :=
  0 < (s.files f).ref ∧ (s.files f).kind = .pipe p w

instance (s : System) (f : FileId) (p : Page) (w : Bool) : Decidable (Opens s f p w) :=
  inferInstanceAs (Decidable (_ ∧ _))

def pipeUses (x : Page) (s : System) : ℕ := if ∃ f w, Opens s f x w then 1 else 0

def endOpen (e : Ends) (w : Bool) : Bool := if w then e.writeopen else e.readopen

structure Piped (s : System) : Prop where
  isOpen : ∀ f p w, Opens s f p w → endOpen (s.pipes p) w = true
  single : ∀ f g p w, Opens s f p w → Opens s g p w → f = g
  idle : ∀ f, (s.files f).ref = 0 → (s.files f).kind = .none

structure Core where
  state : Life
  sz : ℕ
  kstack : Option Page
  pgdir : Option Pgdir

def core (t : Task) : Core := ⟨t.state,t.sz,t.kstack,t.pgdir⟩

structure Quiet (s t : System) : Prop where
  core : ∀ q, core (t.task q) = core (s.task q)
  kpgdir : t.kpgdir = s.kpgdir
  shm : t.shm = s.shm
  ready : t.shmReady = s.shmReady
  pages : ∀ x, freeCount x t.mem+pipeUses x t ≤ freeCount x s.mem+pipeUses x s

variable {s t u : System} {f : FileId} {x : Page} {w : Bool}

theorem quiet_refl (s : System) : Quiet s s := ⟨fun _ => rfl,rfl,rfl,rfl,fun _ => le_rfl⟩

theorem Quiet.trans (h : Quiet s t) (h' : Quiet t u) : Quiet s u :=
  ⟨fun q => (h'.core q).trans (h.core q),h'.kpgdir.trans h.kpgdir,
    h'.shm.trans h.shm,h'.ready.trans h.ready,fun x => (h'.pages x).trans (h.pages x)⟩

theorem pipeUses_pos (h : Opens s f x w) : pipeUses x s = 1 :=
  if_pos ⟨f,w,h⟩

theorem pipeUses_zero (h : ∀ f w, ¬Opens s f x w) : pipeUses x s = 0 :=
  if_neg fun ⟨f,w,ho⟩ => h f w ho

theorem pipeUses_le (h : ∀ f w, Opens t f x w → ∃ g w', Opens s g x w') :
    pipeUses x t ≤ pipeUses x s := by
  by_cases ht : ∃ f w, Opens t f x w
  · obtain ⟨f,w,ho⟩ := ht
    obtain ⟨g,w',hs⟩ := h f w ho
    rw [pipeUses_pos ho, pipeUses_pos hs]
  · rw [pipeUses, if_neg ht]
    exact Nat.zero_le _

section Descriptors

theorem core_update (p : Slot) {v : Task} (hv : core v = core (s.task p)) (q : Slot) :
    core (update s.task p v q) = core (s.task q) := by
  by_cases hq : q = p
  · subst hq
    rw [update_self, hv]
  · rw [update_of_ne hq]

theorem quiet_setFd (s : System) (p : Slot) (i : Fin NOFILE) (fd : Option Fd) :
    Quiet s (setFd s p i fd) :=
  ⟨core_update p rfl,rfl,rfl,rfl,fun _ => le_rfl⟩

theorem piped_setFd (h : Piped s) (p : Slot) (i : Fin NOFILE) (fd : Option Fd) :
    Piped (setFd s p i fd) :=
  ⟨h.isOpen,h.single,h.idle⟩

theorem fdalloc_quiet {p : Slot} {fd : Fd} {i : Fin NOFILE} (h : fdalloc p fd s = some (i,t))
    (hp : Piped s) : Quiet s t ∧ Piped t := by
  obtain ⟨j,-,he⟩ := Option.map_eq_some_iff.mp h
  obtain ⟨rfl,rfl⟩ := Prod.mk.inj he
  exact ⟨quiet_setFd s p j (some fd),piped_setFd hp p j (some fd)⟩

end Descriptors

section FileTable

/-- Replacing a file by one that is open in the same way. -/
theorem setFile_keeps {v : File} (hp : Piped s)
    (hopen : ∀ p w, (0 < v.ref ∧ v.kind = .pipe p w) → Opens s f p w)
    (hidle : v.ref = 0 → v.kind = .none) : Quiet s (s.setFile f v) ∧ Piped (s.setFile f v) := by
  have hsub : ∀ g p w, Opens (s.setFile f v) g p w → Opens s g p w := by
    intro g p w ho
    by_cases hg : g = f
    · subst hg
      refine hopen p w ?_
      simpa [Opens, System.setFile] using ho
    · simpa [Opens, System.setFile, hg] using ho
  refine ⟨⟨fun _ => rfl,rfl,rfl,rfl,fun x => ?_⟩,?_,?_,?_⟩
  · exact Nat.add_le_add_left (pipeUses_le fun g w ho => ⟨g,w,hsub g x w ho⟩) _
  · exact fun g p w ho => hp.isOpen g p w (hsub g p w ho)
  · exact fun g g' p w h h' => hp.single g g' p w (hsub g p w h) (hsub g' p w h')
  · intro g hg
    by_cases hgf : g = f
    · subst hgf
      have hz : v.ref = 0 := by simpa [System.setFile] using hg
      simpa [System.setFile] using hidle hz
    · have hz : (s.files g).ref = 0 := by simpa [System.setFile, hgf] using hg
      simpa [System.setFile, hgf] using hp.idle g hz

theorem filealloc_spec (h : filealloc s = some (f,t)) (hp : Piped s) :
    Quiet s t ∧ Piped t ∧ (s.files f).ref = 0 ∧ t = s.setFile f ⟨1,.none⟩ := by
  obtain ⟨g,hg,he⟩ := Option.map_eq_some_iff.mp h
  obtain ⟨rfl,ht⟩ := Prod.mk.inj he
  have hz : (s.files g).ref = 0 := by simpa using List.find?_some hg
  obtain rfl : t = s.setFile g ⟨1,.none⟩ := by
    rw [← ht]
    exact congrArg (fun k => s.setFile g ⟨1,k⟩) (hp.idle g hz)
  obtain ⟨hq,hp'⟩ := setFile_keeps (f := g) (v := ⟨1,.none⟩) hp
    (fun p w ho => absurd ho.2 (by simp)) (by simp)
  exact ⟨hq,hp',hz,rfl⟩

theorem filedup_keeps (h : filedup f s = .ok t) (hp : Piped s) : Quiet s t ∧ Piped t := by
  unfold filedup at h
  split at h
  · cases h
  · cases h
    exact setFile_keeps hp (fun p w ho => ⟨by omega,ho.2⟩) (by simp)

theorem endOpen_closeEnd (e : Ends) (w w' : Bool) (h : w' ≠ w) :
    endOpen (closeEnd e w) w' = endOpen e w' := by
  cases w <;> cases w' <;> first | exact absurd rfl h | rfl

theorem closed_both {e : Ends} (h : (!e.readopen && !e.writeopen) = true) (w : Bool) :
    endOpen e w = false := by
  rw [Bool.and_eq_true, Bool.not_eq_true', Bool.not_eq_true'] at h
  cases w
  · exact h.1
  · exact h.2

theorem pipeclose_keeps {p : Page} (hp : Piped s) (ho : Opens s f p w) :
    Quiet s (pipeclose p w (s.setFile f ⟨0,.none⟩)) ∧
      Piped (pipeclose p w (s.setFile f ⟨0,.none⟩)) := by
  have hsub : ∀ g p' w', Opens (pipeclose p w (s.setFile f ⟨0,.none⟩)) g p' w' →
      Opens s g p' w' ∧ g ≠ f := by
    intro g p' w' h
    have hg : g ≠ f := by
      rintro rfl
      simp [Opens, pipeclose, System.setFile] at h
    refine ⟨?_,hg⟩
    simpa [Opens, pipeclose, System.setFile, hg] using h
  have hother : ∀ g w', Opens (pipeclose p w (s.setFile f ⟨0,.none⟩)) g p w' → w' ≠ w := by
    rintro g w' h rfl
    obtain ⟨hs,hg⟩ := hsub g p w' h
    exact hg (hp.single g f p w' hs ho)
  have hends : ∀ g p' w', Opens (pipeclose p w (s.setFile f ⟨0,.none⟩)) g p' w' →
      endOpen ((pipeclose p w (s.setFile f ⟨0,.none⟩)).pipes p') w' = true := by
    intro g p' w' h
    have hs := hp.isOpen g p' w' (hsub g p' w' h).1
    by_cases hpp : p' = p
    · subst hpp
      have hw := hother g w' h
      simpa [pipeclose, System.setFile, endOpen_closeEnd _ _ _ hw] using hs
    · simpa [pipeclose, System.setFile, hpp] using hs
  refine ⟨⟨fun _ => rfl,rfl,rfl,rfl,fun x => ?_⟩,hends,?_,?_⟩
  · have hle : pipeUses x (pipeclose p w (s.setFile f ⟨0,.none⟩)) ≤ pipeUses x s :=
      pipeUses_le fun g w' h => ⟨g,w',(hsub g x w' h).1⟩
    by_cases hfree : (!(closeEnd (s.pipes p) w).readopen && !(closeEnd (s.pipes p) w).writeopen)
        = true
    · have hmem : (pipeclose p w (s.setFile f ⟨0,.none⟩)).mem = kfree p s.mem := if_pos hfree
      rw [hmem, kfree_count]
      by_cases hx : x = p
      · subst hx
        have hnone : pipeUses x (pipeclose x w (s.setFile f ⟨0,.none⟩)) = 0 := by
          refine pipeUses_zero fun g w' h => ?_
          have he := hends g x w' h
          have hc := closed_both hfree w'
          simp only [pipeclose, System.setFile, update_self] at he
          rw [he] at hc
          exact absurd hc (by simp)
        rw [hnone, pipeUses_pos ho, hit_self]
      · rw [hit_of_ne (by simpa using Ne.symm hx)]
        exact Nat.add_le_add_left hle _
    · have hmem : (pipeclose p w (s.setFile f ⟨0,.none⟩)).mem = s.mem := if_neg hfree
      rw [hmem]
      exact Nat.add_le_add_left hle _
  · exact fun g g' p' w' h h' => hp.single g g' p' w' (hsub g p' w' h).1 (hsub g' p' w' h').1
  · intro g hg
    by_cases hgf : g = f
    · subst hgf
      simp [pipeclose, System.setFile]
    · have hz : (s.files g).ref = 0 := by simpa [pipeclose, System.setFile, hgf] using hg
      simpa [pipeclose, System.setFile, hgf] using hp.idle g hz

theorem fileclose_keeps (h : fileclose f s = .ok t) (hp : Piped s) : Quiet s t ∧ Piped t := by
  unfold fileclose at h
  split at h
  · cases h
  · rename_i href
    split at h
    · cases h
      exact setFile_keeps hp (fun p w ho => ⟨by omega,ho.2⟩) (by
        intro hz
        simp only at hz
        omega)
    · split at h
      · cases h
        exact setFile_keeps hp (by simp) (by simp)
      · rename_i p w hk
        cases h
        exact pipeclose_keeps hp ⟨by omega,hk⟩

theorem fdClose_keeps {fd : Fd} (h : fdClose fd s = .ok t) (hp : Piped s) :
    Quiet s t ∧ Piped t := by
  cases fd with
  | file f => exact fileclose_keeps h hp
  | junk => cases h

theorem fileclose_both {g : FileId} (h : fileclose f s >>= fileclose g = .ok t) (hp : Piped s) :
    Quiet s t ∧ Piped t := by
  obtain ⟨u,hu,h⟩ := bind_ok h
  obtain ⟨hq,hp1⟩ := fileclose_keeps hu hp
  obtain ⟨hq',hp2⟩ := fileclose_keeps h hp1
  exact ⟨hq.trans hq',hp2⟩

end FileTable

section Calls

def Apart (s : System) : Prop := ∀ x, freeCount x s.mem+pipeUses x s ≤ 1

variable {m : Mem}

theorem quiet_kalloc (h : kalloc s.mem = (none,m)) (hp : Piped s) :
    Quiet s { s with mem := m } ∧ Piped { s with mem := m } :=
  ⟨⟨fun _ => rfl,rfl,rfl,rfl,fun x => Nat.add_le_add_right (kalloc_count h x).le _⟩,
    hp.isOpen,hp.single,hp.idle⟩

def newPipe (s : System) (m : Mem) (f0 f1 : FileId) (p : Page) : System :=
  let s := { s with mem := m, pipes := update s.pipes p ⟨true,true⟩ }
  let s := s.setFile f0 { s.files f0 with kind := .pipe p false }
  s.setFile f1 { s.files f1 with kind := .pipe p true }

theorem newPipe_opens {f0 f1 g : FileId} {p : Page} (hne : f0 ≠ f1)
    (h : Opens (newPipe s m f0 f1 p) g x w) :
    Opens s g x w ∧ g ≠ f0 ∧ g ≠ f1 ∨ x = p ∧ (g = f0 ∧ w = false ∨ g = f1 ∧ w = true) := by
  by_cases h1 : g = f1
  · subst h1
    obtain ⟨-,hk⟩ := h
    simp only [newPipe, System.setFile, update_self, FileKind.pipe.injEq] at hk
    exact .inr ⟨hk.1.symm,.inr ⟨rfl,hk.2.symm⟩⟩
  · by_cases h0 : g = f0
    · subst h0
      obtain ⟨-,hk⟩ := h
      simp only [newPipe, System.setFile, update_of_ne hne, update_self,
        FileKind.pipe.injEq] at hk
      exact .inr ⟨hk.1.symm,.inl ⟨rfl,hk.2.symm⟩⟩
    · left
      refine ⟨?_,h0,h1⟩
      simpa [Opens, newPipe, System.setFile, h0, h1] using h

theorem newPipe_keeps {f0 f1 : FileId} {p : Page} (hp : Piped s) (ha : Apart s) (hne : f0 ≠ f1)
    (h0 : 0 < (s.files f0).ref) (h1 : 0 < (s.files f1).ref) (hk : kalloc s.mem = (some p,m)) :
    Quiet s (newPipe s m f0 f1 p) ∧ Piped (newPipe s m f0 f1 p) := by
  have hfresh : ∀ g w, ¬Opens s g p w := by
    intro g w ho
    have hc := kalloc_count hk p
    have hap := ha p
    rw [pipeUses_pos ho] at hap
    rw [hit_self] at hc
    omega
  refine ⟨⟨fun _ => rfl,rfl,rfl,rfl,fun x => ?_⟩,?_,?_,?_⟩
  · have hc := kalloc_count hk x
    have hm : (newPipe s m f0 f1 p).mem = m := rfl
    rw [hm]
    by_cases hx : x = p
    · subst hx
      rw [hit_self] at hc
      have hle : pipeUses x (newPipe s m f0 f1 x) ≤ 1 := by
        unfold pipeUses
        split <;> omega
      omega
    · have hle : pipeUses x (newPipe s m f0 f1 p) ≤ pipeUses x s := by
        refine pipeUses_le fun g w ho => ?_
        rcases newPipe_opens hne ho with ⟨ho,-⟩ | ⟨he,-⟩
        · exact ⟨g,w,ho⟩
        · exact absurd he hx
      omega
  · intro g x w ho
    rcases newPipe_opens hne ho with ⟨ho,-⟩ | ⟨rfl,-⟩
    · have hx : x ≠ p := fun e => hfresh g w (e ▸ ho)
      simpa [newPipe, System.setFile, hx] using hp.isOpen g x w ho
    · cases w <;> simp [newPipe, System.setFile, endOpen]
  · intro g g' x w ho ho'
    rcases newPipe_opens hne ho with ⟨hs,-⟩ | ⟨rfl,hg⟩
    · rcases newPipe_opens hne ho' with ⟨hs',-⟩ | ⟨rfl,-⟩
      · exact hp.single g g' x w hs hs'
      · exact absurd hs (hfresh g w)
    · rcases newPipe_opens hne ho' with ⟨ho',-⟩ | ⟨-,hg'⟩
      · exact absurd ho' (hfresh g' w)
      · rcases hg with ⟨rfl,rfl⟩ | ⟨rfl,rfl⟩ <;> rcases hg' with ⟨rfl,hw⟩ | ⟨rfl,hw⟩
        · rfl
        · exact absurd hw (by simp)
        · exact absurd hw (by simp)
        · rfl
  · intro g hg
    by_cases hg1 : g = f1
    · subst hg1
      simp [newPipe, System.setFile, Ne.symm hne] at hg
      omega
    · by_cases hg0 : g = f0
      · subst hg0
        simp [newPipe, System.setFile, hne] at hg
        omega
      · have hz : (s.files g).ref = 0 := by simpa [newPipe, System.setFile, hg0, hg1] using hg
        simpa [newPipe, System.setFile, hg0, hg1] using hp.idle g hz

theorem Quiet.apart (h : Quiet s t) (ha : Apart s) : Apart t := fun x => (h.pages x).trans (ha x)

theorem pipealloc_keeps {o : Option (FileId × FileId)} (h : pipealloc s = .ok (o,t))
    (hp : Piped s) (ha : Apart s) : Quiet s t ∧ Piped t := by
  unfold pipealloc at h
  split at h
  · cases h
    exact ⟨quiet_refl s,hp⟩
  · rename_i f0 s1 h0
    obtain ⟨hq1,hp1,hz₀,he1⟩ := filealloc_spec h0 hp
    split at h
    · obtain ⟨u,hu,he⟩ := map_ok h
      obtain ⟨-,rfl⟩ := Prod.mk.inj he
      obtain ⟨hq,hpt⟩ := fileclose_keeps hu hp1
      exact ⟨hq1.trans hq,hpt⟩
    · rename_i f1 s2 h1
      obtain ⟨hq2,hp2,hz1,he2⟩ := filealloc_spec h1 hp1
      have hq := hq1.trans hq2
      split at h
      · rename_i m hk
        obtain ⟨u,hu,he⟩ := map_ok h
        obtain ⟨-,rfl⟩ := Prod.mk.inj he
        obtain ⟨hqk,hpk⟩ := quiet_kalloc hk hp2
        obtain ⟨hqc,hpc⟩ := fileclose_both hu hpk
        exact ⟨(hq.trans hqk).trans hqc,hpc⟩
      · rename_i p m hk
        cases h
        have hne : f0 ≠ f1 := by
          rintro rfl
          rw [he1] at hz1
          simp [System.setFile] at hz1
        obtain ⟨hqn,hpn⟩ := newPipe_keeps hp2 (hq.apart ha) hne
          (by rw [he2, he1]; simp [System.setFile, hne])
          (by rw [he2]; simp [System.setFile]) hk
        exact ⟨hq.trans hqn,hpn⟩

theorem sysPipe_keeps {p : Slot} {arg : Bool} (h : sysPipe p arg s = .ok t) (hp : Piped s)
    (ha : Apart s) : Quiet s t ∧ Piped t := by
  unfold sysPipe at h
  split at h
  · cases h
    exact ⟨quiet_refl s,hp⟩
  · obtain ⟨⟨o,s1⟩,hpa,h⟩ := bind_ok h
    obtain ⟨hq1,hp1⟩ := pipealloc_keeps hpa hp ha
    split at h
    · rename_i u heq
      obtain ⟨-,rfl⟩ := Prod.mk.inj heq
      cases h
      exact ⟨hq1,hp1⟩
    · rename_i rf wf u heq
      obtain ⟨-,rfl⟩ := Prod.mk.inj heq
      split at h
      · obtain ⟨hq2,hp2⟩ := fileclose_both h hp1
        exact ⟨hq1.trans hq2,hp2⟩
      · rename_i fd0 s2 hf0
        obtain ⟨hq2,hp2⟩ := fdalloc_quiet hf0 hp1
        split at h
        · obtain ⟨hq3,hp3⟩ := fileclose_both h (piped_setFd hp2 p fd0 none)
          exact ⟨((hq1.trans hq2).trans (quiet_setFd s2 p fd0 none)).trans hq3,hp3⟩
        · rename_i fd1 s3 hf1
          cases h
          obtain ⟨hq3,hp3⟩ := fdalloc_quiet hf1 hp2
          exact ⟨(hq1.trans hq2).trans hq3,hp3⟩

theorem sysClose_keeps {p : Slot} {i : Fin NOFILE} (h : sysClose p i s = .ok t) (hp : Piped s) :
    Quiet s t ∧ Piped t := by
  unfold sysClose at h
  split at h
  · cases h
    exact ⟨quiet_refl s,hp⟩
  · obtain ⟨hq,hpt⟩ := fdClose_keeps h (piped_setFd hp p i none)
    exact ⟨(quiet_setFd s p i none).trans hq,hpt⟩

theorem sysDup_keeps {p : Slot} {i : Fin NOFILE} (h : sysDup p i s = .ok t) (hp : Piped s) :
    Quiet s t ∧ Piped t := by
  unfold sysDup at h
  split at h
  · cases h
    exact ⟨quiet_refl s,hp⟩
  · split at h
    · cases h
      exact ⟨quiet_refl s,hp⟩
    · rename_i j s1 hf
      obtain ⟨hq1,hp1⟩ := fdalloc_quiet hf hp
      split at h
      · obtain ⟨hq2,hp2⟩ := filedup_keeps h hp1
        exact ⟨hq1.trans hq2,hp2⟩
      · cases h

/-- One round of the loops over descriptors in `fork` and `exit`. -/
theorem forkFile_keeps {p np : Slot} {i : Fin NOFILE} (h : forkFile p np s i = .ok t)
    (hp : Piped s) : Quiet s t ∧ Piped t := by
  unfold forkFile at h
  split at h
  · cases h
    exact ⟨quiet_refl s,hp⟩
  · cases h
  · rename_i f hf
    obtain ⟨u,hu,rfl⟩ := map_ok h
    obtain ⟨hq,hpu⟩ := filedup_keeps hu hp
    exact ⟨hq.trans (quiet_setFd u np i _),piped_setFd hpu np i _⟩

theorem exitFile_keeps {p : Slot} {i : Fin NOFILE} (h : exitFile p s i = .ok t) (hp : Piped s) :
    Quiet s t ∧ Piped t := by
  unfold exitFile at h
  split at h
  · cases h
    exact ⟨quiet_refl s,hp⟩
  · rename_i fd hf
    obtain ⟨u,hu,rfl⟩ := map_ok h
    obtain ⟨hq,hpu⟩ := fdClose_keeps hu hp
    exact ⟨hq.trans (quiet_setFd u p i none),piped_setFd hpu p i none⟩

theorem fileLoop_keeps {body : System → Fin NOFILE → Except Stop System}
    (hbody : ∀ s i t, Piped s → body s i = .ok t → Quiet s t ∧ Piped t) {l : List (Fin NOFILE)}
    (h : l.foldlM body s = .ok t) (hp : Piped s) : Quiet s t ∧ Piped t := by
  refine foldlM_invariant (fun u => Quiet s u ∧ Piped u) l ?_ ⟨quiet_refl s,hp⟩ h
  rintro u i v - ⟨hq,hpu⟩ hv
  obtain ⟨hq',hpv⟩ := hbody u i v hpu hv
  exact ⟨hq.trans hq',hpv⟩

end Calls

end Xv6.PageFiles
