import Xv6.ShmEffects

/-!
# Reference counts of shared pages

`shm.h` says that `ref_count` tracks how many processes have the page mapped. It
does as long as no process asks twice for one page, removes an entry, executes a
program or exits with a mapping that its `shmpgs` does not show, as the creator
of a page always does.
-/

set_option autoImplicit false

namespace Xv6.ShmCounts
open Function Finset PageTables PageLedger PageCalls Inventory PageBooks
open PageOwnership SharedPages PageLifetime ShmEffects TransitionRun
open KernelState (NPROC Slot Stop)
open scoped Classical

variable {s t u : System} {L : Layout} {p q : Slot} {x : Page} {d : Pgdir}

def Maps (s : System) (q : Slot) (x : Page) : Prop :=
  ∃ d v, liveDir s q = some d ∧ v < kernPage ∧ d.ptePage v = some x

noncomputable def mappers (x : Page) (s : System) : ℕ := (univ.filter fun q => Maps s q x).card

section Balance

def Room (s : System) (p : Slot) : Prop :=
  ∀ d, liveDir s p = some d → (d.tables (pages (s.task p).sz/NPTENTRIES)).isSome ∨
    (kalloc s.mem).1.isSome ∧ (kalloc (kalloc s.mem).2).1.isSome

structure Balance (s : System) : Prop where
  shared : Shared s
  marked : ∀ i, (s.shm i).allocated = true → (s.shm i).pa.isSome
  named : ∀ i x, (s.shm i).pa = some x → (s.shm i).allocated = true
  flagged : ∀ q i, (s.task q).shmpgs i = true → (s.shm i).pa.isSome
  count : ∀ i x, (s.shm i).pa = some x → (s.shm i).refCount = mappers x s
  creator : ∀ i x, (s.shm i).pa = some x → ∃ q, Maps s q x ∧ (s.task q).shmpgs i = false

theorem Balance.positive {i : ShmId} (h : Balance s) (hx : (s.shm i).pa = some x) :
    0 < (s.shm i).refCount := by
  obtain ⟨q,hq,-⟩ := h.creator i x hx
  rw [h.count i x hx, mappers, card_pos]
  exact ⟨q,mem_filter.mpr ⟨mem_univ q,hq⟩⟩

end Balance

section Get

variable {pa : Page}

end Get

section Runs

variable {a : Act}

end Runs

end Xv6.ShmCounts
