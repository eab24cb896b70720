import Xv6.PageOwnership

/-!
# The lifetime of shared pages

A page recorded in `shmtable` is counted once for its entry, and the user
entries that map it are left out. With that the accounts go through as long as
no call frees a recorded page: `shmrem` gives a page back while others still map
it, and `growproc`, `exec` and `wait` free every page of a range, shared or not.
-/

set_option autoImplicit false

namespace Xv6.SharedPages
open Function Finset Inventory PageTables PageLedger PageCalls PageFiles
open PageBooks PageOwnership TransitionRun
open KernelState (NPROC Slot Stop)

def Recorded (s : System) (x : Page) : Prop := ∃ i, (s.shm i).pa = some x

def recs (x : Page) (s : System) : ℕ := total univ (hit x) fun i => (s.shm i).pa

structure Shared (s : System) : Prop where
  piped : Piped s
  fitted : Fitted s
  bare : ∀ v, v < kernPage → s.kpgdir.pte v = none
  unnamed : ∀ i, (s.shm i).name = 0 ↔ (s.shm i).pa = none
  unready : s.shmReady = false → ∀ i, tag (s.shm i) = (0,none)
  tally : ∀ x, tally (decide (0 < recs x s)) x s+recs x s ≤ 1

variable {s t : System} {x : Page} {L : Layout} {p : Slot} {i : ShmId}

theorem Shared.sound (h : Shared s) : Sound s :=
  ⟨h.piped,h.fitted,tally_apart fun x => ⟨_,(Nat.le_add_right _ _).trans (h.tally x)⟩⟩

theorem recs_congr (h : ∀ i, (t.shm i).pa = (s.shm i).pa) (x : Page) : recs x t = recs x s :=
  total_congr fun i _ => h i

section Private

end Private

section Attach

variable {pa : Page}

structure Frame (s t : System) : Prop where
  fitted : Fitted t
  kpgdir : t.kpgdir = s.kpgdir
  shm : t.shm = s.shm
  ready : t.shmReady = s.shmReady
  files : t.files = s.files
  pipes : t.pipes = s.pipes

theorem pipeUses_congr (h : t.files = s.files) (x : Page) : pipeUses x t = pipeUses x s := by
  have ho : ∀ f w, Opens t f x w ↔ Opens s f x w := fun f w => by rw [Opens, Opens, h]
  exact le_antisymm (pipeUses_le fun f w hf => ⟨f,w,(ho f w).mp hf⟩)
    (pipeUses_le fun f w hf => ⟨f,w,(ho f w).mpr hf⟩)

theorem tally_same (hm : t.mem = s.mem) (hk : t.kpgdir = s.kpgdir)
    (hc : ∀ q, core (t.task q) = core (s.task q)) (hf : t.files = s.files) (sh : Bool) (x : Page) :
    PageBooks.tally sh x t = PageBooks.tally sh x s := by
  have ht : total univ (coreUses sh x) (fun q => core (t.task q)) =
      total univ (coreUses sh x) (fun q => core (s.task q)) := total_congr fun q _ => hc q
  rw [PageBooks.tally, PageBooks.tally, hm, hk, ht, pipeUses_congr hf]

end Attach

section Create

variable {k : ShmId}

theorem shminit_shared (hs : Shared s) : Shared (shminit s) ∧ (shminit s).shmReady = true := by
  unfold shminit
  split
  · rename_i hr
    exact ⟨hs,hr⟩
  · rename_i hr
    have hr : s.shmReady = false := by simpa using hr
    refine ⟨⟨⟨hs.piped.isOpen,hs.piped.single,hs.piped.idle⟩,hs.fitted,hs.bare,fun _ => by simp,
      fun _ _ => rfl,fun x => ?_⟩,rfl⟩
    rw [recs_congr (s := s) fun i => (congrArg Prod.snd (hs.unready hr i)).symm]
    refine le_trans (Nat.add_le_add_right ?_ _) (hs.tally x)
    exact (tally_same (s := s) rfl rfl (fun _ => rfl) rfl _ x).le

end Create

section Remove

end Remove

end Xv6.SharedPages
