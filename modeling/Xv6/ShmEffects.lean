import Xv6.PageLifetime

/-!
# Effects of the calls on shared memory

What `shmget`, `shmrem`, `fork`, `exec` and `exit` do to the table of shared
pages and to the address spaces and `shmpgs` flags of processes, stated once
for the properties that follow.
-/

set_option autoImplicit false

namespace Xv6.ShmEffects
open Function Finset PageTables PageLedger PageCalls Inventory PageFiles
open PageBooks SharedPages PageLifetime TransitionRun
open KernelState (NPROC Slot Stop)

variable {s t u : System} {L : Layout} {p q : Slot} {x : Page} {name : ℕ} {k : ShmId}

def liveDir (s : System) (q : Slot) : Option Pgdir :=
  if (s.task q).state = .live then (s.task q).pgdir else none

section Flags

def Kept (s t : System) (q : Slot) : Prop :=
  liveDir t q = liveDir s q ∧ (t.task q).shmpgs = (s.task q).shmpgs

theorem Kept.trans (h : Kept s t q) (h' : Kept t u q) : Kept s u q :=
  ⟨h'.1.trans h.1,h'.2.trans h.2⟩

end Flags

section Calls

end Calls

end Xv6.ShmEffects
