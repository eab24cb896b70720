import Xv6.SharedPages

/-!
# Runs that keep shared pages alive

Entry `k` of a new name is stored in the slot behind the caller's. A call is
contained when that slot exists and is unused, the page for a new name can be
had, and the caller has no descriptor that such a store has overwritten; such a
call makes no stray access. A run is gentle when its calls are contained and
free no page that is still shared; it never has a recorded or mapped page on the
free list.
-/

set_option autoImplicit false

namespace Xv6.PageLifetime
open Function PageTables PageCalls PageBooks SharedPages TransitionRun Finset
open Inventory
open KernelState (NPROC Slot Stop)

def Creates (s : System) (p : Slot) (name : ℕ) : Prop :=
  name ≠ 0 ∧ name < (s.task p).sz ∧ (∀ i, ((shminit s).shm i).name ≠ name) ∧
    ∃ k, ((shminit s).shm k).name = 0

def Contained (s : System) (p : Slot) : Call → Prop
  | .shmget name => Creates s p name → (kalloc s.mem).1.isSome ∧
      ∃ h : p.val+1 < NPROC, (s.task ⟨p.val+1,h⟩).state = .unused
  | .fork | .exit | .close _ | .dup _ => ∀ i, (s.task p).ofile i ≠ some .junk
  | _ => True

def Tame {α : Type} (r : Except Stop α) : Prop := r ≠ .error .wild

section Rules

variable {α β : Type}

theorem tame_ok (a : α) : Tame (.ok a) := nofun

theorem tame_panic (message : String) : Tame (.error (.panic message) : Except Stop α) := nofun

theorem tame_raise (r : Except String α) : Tame (raise r) := by
  cases r <;> nofun

theorem tame_bind {r : Except Stop α} {f : α → Except Stop β} (hr : Tame r)
    (hf : ∀ a, r = .ok a → Tame (f a)) : Tame (r >>= f) := by
  cases r with
  | error e => exact fun h => hr (congrArg Except.error (Except.error.inj h))
  | ok a => exact hf a rfl

theorem tame_map {r : Except Stop α} {f : α → β} (hr : Tame r) : Tame (r.map f) := by
  cases r with
  | error e => exact fun h => hr (congrArg Except.error (Except.error.inj h))
  | ok a => exact tame_ok _

theorem tame_loop {body : α → β → Except Stop α} (I : α → Prop) (l : List β)
    (hbody : ∀ s b, I s → Tame (body s b)) (hI : ∀ s b t, I s → body s b = .ok t → I t) {s : α}
    (hs : I s) : Tame (l.foldlM body s) := by
  induction l generalizing s with
  | nil => exact tame_ok s
  | cons b l ih =>
    rw [List.foldlM_cons]
    exact tame_bind (hbody s b hs) fun t ht => ih (hI s b t hs ht)

end Rules

section Descriptors

variable {s t : System} {p : Slot} {f : FileId}

theorem filedup_task (h : filedup f s = .ok t) : t.task = s.task := by
  unfold filedup at h
  split at h
  · cases h
  · cases h
    rfl

theorem fileclose_task (h : fileclose f s = .ok t) : t.task = s.task := by
  unfold fileclose at h
  split at h
  · cases h
  · split at h
    · cases h
      rfl
    · split at h
      · cases h
        rfl
      · cases h
        rfl

theorem filedup_tame (f : FileId) (s : System) : Tame (filedup f s) := by
  unfold filedup
  split
  · exact tame_panic _
  · exact tame_ok _

theorem fileclose_tame (f : FileId) (s : System) : Tame (fileclose f s) := by
  unfold fileclose
  split
  · exact tame_panic _
  · split
    · exact tame_ok _
    · split <;> exact tame_ok _

def Genuine (p : Slot) (s : System) : Prop := ∀ i, (s.task p).ofile i ≠ some .junk

theorem genuine_setFd {q : Slot} {i : Fin NOFILE} {fd : Option Fd} (h : Genuine p s)
    (hfd : fd ≠ some .junk) : Genuine p (setFd s q i fd) := by
  intro j
  by_cases hq : p = q
  · subst hq
    by_cases hj : j = i
    · subst hj
      simpa [setFd, System.setTask] using hfd
    · simpa [setFd, System.setTask, hj] using h j
  · simpa [setFd, System.setTask, hq] using h j

theorem genuine_congr (h : Genuine p s) (ht : t.task = s.task) : Genuine p t := by
  intro i
  rw [ht]
  exact h i

theorem forkFile_tame {np : Slot} (i : Fin NOFILE) (h : Genuine p s) :
    Tame (forkFile p np s i) := by
  unfold forkFile
  split
  · exact tame_ok _
  · rename_i hi
    exact absurd hi (h i)
  · exact tame_map (filedup_tame _ s)

theorem forkFile_genuine {np : Slot} {i : Fin NOFILE} (h : Genuine p s)
    (hf : forkFile p np s i = .ok t) : Genuine p t := by
  unfold forkFile at hf
  split at hf
  · cases hf
    exact h
  · cases hf
  · obtain ⟨u,hu,rfl⟩ := map_ok hf
    exact genuine_setFd (genuine_congr h (filedup_task hu)) nofun

theorem fdClose_tame {fd : Fd} (h : fd ≠ .junk) (s : System) : Tame (fdClose fd s) := by
  cases fd with
  | file f => exact fileclose_tame f s
  | junk => exact absurd rfl h

theorem exitFile_tame (i : Fin NOFILE) (h : Genuine p s) : Tame (exitFile p s i) := by
  unfold exitFile
  split
  · exact tame_ok _
  · rename_i fd hi
    exact tame_map (fdClose_tame (fun e => h i (e ▸ hi)) s)

theorem exitFile_genuine {i : Fin NOFILE} (h : Genuine p s) (hf : exitFile p s i = .ok t) :
    Genuine p t := by
  unfold exitFile at hf
  split at hf
  · cases hf
    exact h
  · rename_i fd _
    obtain ⟨u,hu,rfl⟩ := map_ok hf
    cases fd with
    | file f => exact genuine_setFd (genuine_congr h (fileclose_task hu)) nofun
    | junk => cases hu

end Descriptors

section Calls

variable {s : System} {L : Layout} {p : Slot}

theorem fork_tame (hd : (s.task p).pgdir.isSome) (h : Genuine p s) : Tame (fork L p s) := by
  unfold fork
  split
  · exact tame_ok _
  · rename_i np hnp
    split
    · exact tame_ok _
    · split
      · rename_i hnone
        simp [hnone] at hd
      · refine tame_bind (tame_raise _) fun r _ => ?_
        split
        · exact tame_ok _
        · refine tame_loop (Genuine p) _ (fun s i hs => forkFile_tame i hs)
            (fun s i t hs => forkFile_genuine hs) fun i => ?_
          by_cases hp : p = np
          · subst hp
            simpa [System.setTask] using h i
          · simpa [System.setTask, hp] using h i

theorem exec_tame (img : Image) : Tame (exec L p img s) := by
  simp only [exec]
  split
  · exact tame_ok _
  · refine tame_bind (tame_raise _) fun r _ => ?_
    split
    · exact tame_ok _
    · refine tame_bind (tame_raise _) fun r _ => ?_
      split
      · exact tame_map (tame_raise _)
      · split
        · exact tame_panic _
        · exact tame_map (tame_raise _)

theorem growproc_tame (n : ℤ) (hd : (s.task p).pgdir.isSome) : Tame (growproc p n s) := by
  simp only [growproc]
  split
  · rename_i hnone
    simp [hnone] at hd
  · split
    · exact tame_bind (tame_raise _) fun _ _ => tame_ok _
    · split
      · exact tame_bind (tame_raise _) fun _ _ => tame_ok _
      · exact tame_ok _

theorem exit_tame (h : Genuine p s) : Tame (exit p s) := by
  unfold exit
  split
  · exact tame_panic _
  · exact tame_map (tame_loop (Genuine p) _ (fun s i hs => exitFile_tame i hs)
      (fun s i t hs => exitFile_genuine hs) h)

theorem wait_tame : Tame (wait p s) := by
  unfold wait
  split
  · unfold reap
    split
    · exact tame_panic _
    · split
      · exact tame_panic _
      · exact tame_map (tame_raise _)
  · split
    · exact nofun
    · exact tame_ok _

theorem pipealloc_tame (s : System) : Tame (pipealloc s) := by
  unfold pipealloc
  split
  · exact tame_ok _
  · split
    · exact tame_map (fileclose_tame _ _)
    · split
      · exact tame_map (tame_bind (fileclose_tame _ _) fun s _ => fileclose_tame _ s)
      · exact tame_ok _

theorem sysPipe_tame (arg : Bool) : Tame (sysPipe p arg s) := by
  unfold sysPipe
  split
  · exact tame_ok _
  · refine tame_bind (pipealloc_tame s) fun r _ => ?_
    split
    · exact tame_ok _
    · split
      · exact tame_bind (fileclose_tame _ _) fun s _ => fileclose_tame _ s
      · split
        · exact tame_bind (fileclose_tame _ _) fun s _ => fileclose_tame _ s
        · exact tame_ok _

theorem sysClose_tame (i : Fin NOFILE) (h : Genuine p s) : Tame (sysClose p i s) := by
  unfold sysClose
  split
  · exact tame_ok _
  · rename_i fd hi
    exact fdClose_tame (fun e => h i (e ▸ hi)) _

theorem sysDup_tame (i : Fin NOFILE) (h : Genuine p s) : Tame (sysDup p i s) := by
  unfold sysDup
  split
  · exact tame_ok _
  · rename_i fd hi
    split
    · exact tame_ok _
    · split
      · exact filedup_tame _ _
      · exact absurd hi (h i)

theorem shmMap_tame (pa : Page) (hd : (s.task p).pgdir.isSome) : Tame (shmMap p pa s) := by
  unfold shmMap
  split
  · rename_i hnone
    simp [hnone] at hd
  · exact tame_bind (tame_raise _) fun _ _ => tame_ok _

theorem smash_tame (k : ShmId)
    (hnext : ∃ h : p.val+1 < NPROC, (s.task ⟨p.val+1,h⟩).state = .unused) :
    Tame (smash p k s) := by
  obtain ⟨hlt,hun⟩ := hnext
  unfold smash
  rw [dif_pos hlt]
  simp only [hun, ne_eq, not_true_eq_false, if_false]
  split
  · exact tame_ok _
  · split <;> exact tame_ok _

theorem shmMap_others {t : System} {pa : Page} {q : Slot} (hq : q ≠ p)
    (h : shmMap p pa s = .ok t) : t.task q = s.task q := by
  unfold shmMap at h
  split at h
  · cases h
  · obtain ⟨r,-,h⟩ := bind_ok h
    cases h
    simp [System.setTask, hq]

theorem shmCreate_tame (name : ℕ) (k : ShmId) (hd : (s.task p).pgdir.isSome)
    (hk : (kalloc s.mem).1.isSome)
    (hnext : ∃ h : p.val+1 < NPROC, (s.task ⟨p.val+1,h⟩).state = .unused) :
    Tame (shmCreate p name k s) := by
  unfold shmCreate
  split
  · rename_i hnone
    simp [hnone] at hk
  · refine tame_bind (shmMap_tame _ hd) fun t ht => smash_tame k ?_
    obtain ⟨hlt,hun⟩ := hnext
    refine ⟨hlt,?_⟩
    rw [shmMap_others (fun h => by simpa using congrArg Fin.val h) ht]
    exact hun

theorem shmget_tame {name : ℕ} (hs : Shared s) (hd : (s.task p).pgdir.isSome)
    (h : Contained s p (.shmget name)) : Tame (shmget p name s) := by
  have htask : (shminit s).task = s.task := by
    unfold shminit
    split <;> rfl
  have hmem : (shminit s).mem = s.mem := by
    unfold shminit
    split <;> rfl
  unfold shmget
  split
  · exact tame_ok _
  · rename_i hname
    simp only
    split
    · rename_i i hi
      have hne : ((shminit s).shm i).name ≠ 0 := by
        have := List.find?_some hi
        simp only [decide_eq_true_eq] at this
        omega
      have hpa := mt ((shminit_shared hs).1.unnamed i).mpr hne
      unfold shmAttach
      split
      · rename_i hnone
        exact absurd hnone hpa
      · exact tame_bind (shmMap_tame _ (htask ▸ hd)) fun _ _ => tame_ok _
    · rename_i hnew
      split
      · rename_i k hk
        have hnone : ∀ i, ((shminit s).shm i).name ≠ name := fun i => by
          simpa using List.find?_eq_none.mp hnew i (List.mem_finRange i)
        have hfree : ((shminit s).shm k).name = 0 := by simpa using List.find?_some hk
        obtain ⟨halloc,hnext⟩ := h ⟨by omega,by omega,hnone,k,hfree⟩
        exact shmCreate_tame name k (htask ▸ hd) (hmem ▸ halloc) (htask ▸ hnext)
      · exact tame_ok _

theorem shmremLoop_tame (name : ℕ) (is : List ShmId) (s : System) :
    Tame (shmremLoop p name is s) := by
  induction is generalizing s with
  | nil => exact tame_ok s
  | cons i is ih =>
    rw [shmremLoop]
    split
    · split
      · unfold shmDrop
        split
        · exact tame_panic _
        · exact tame_ok _
      · exact ih _
    · exact ih _

theorem shmrem_tame (name : ℕ) : Tame (shmrem p name s) := by
  unfold shmrem
  split
  · exact tame_ok _
  · exact shmremLoop_tame name _ s

/-- A contained call is followed to its end. -/
theorem step_tame {a : Act} (hs : Shared s) (h : Contained s a.proc a.call) :
    Tame (step L s a) := by
  obtain ⟨p,c⟩ := a
  unfold step
  split
  · rename_i hl
    obtain ⟨d,hd,-⟩ := hs.fitted p hl
    have hd : (s.task p).pgdir.isSome := by simp [hd]
    cases c with
    | fork => exact fork_tame hd h
    | exec img => exact exec_tame img
    | sbrk n => exact growproc_tame n hd
    | exit => exact exit_tame h
    | wait => exact wait_tame
    | pipe arg => exact sysPipe_tame arg
    | close i => exact sysClose_tame i h
    | dup i => exact sysDup_tame i h
    | shmget name => exact shmget_tame hs hd h
    | shmrem name => exact shmrem_tame name
  · exact nofun

end Calls

section Checks

end Checks

variable {s t : System} {L : Layout}

end Xv6.PageLifetime
