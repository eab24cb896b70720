import Xv6.PageBooks
import Mathlib.Data.Fintype.BigOperators

/-!
# Every page has at most one owner

Without shared memory no tally ever exceeds one: the free list holds each page
at most once, and a page in use has exactly one owner and is not free. Pages can
get lost, as when `copyuvm` cannot map the page it has just allocated.
-/

set_option autoImplicit false

namespace Xv6.PageOwnership
open Function Finset Inventory PageTables PageLedger PageCalls PageFiles
open PageBooks TransitionRun
open KernelState (NPROC Slot Stop)

inductive Part where
  | directory
  | table (i : ℕ)
  | entry (vpn : ℕ)
  deriving DecidableEq, Repr

inductive Owner where
  | pipe
  | kernel (a : Part)
  | stack (p : Slot)
  | space (p : Slot) (a : Part)
  deriving DecidableEq, Repr

def Holds (d : Pgdir) : Part → Page → Prop
  | .directory, x => d.page = x
  | .table i, x => i < NPDENTRIES ∧ d.tablePage i = some x
  | .entry vpn, x => vpn < kernPage ∧ d.ptePage vpn = some x

def Alive (s : System) (p : Slot) : Prop :=
  (s.task p).state = .live ∨ (s.task p).state = .zombie

def Owns (s : System) : Owner → Page → Prop
  | .pipe, x => ∃ f w, Opens s f x w
  | .kernel a, x => Holds s.kpgdir a x
  | .stack p, x => Alive s p ∧ (s.task p).kstack = some x
  | .space p a, x => Alive s p ∧ ∃ d, (s.task p).pgdir = some d ∧ Holds d a x

structure Exclusive (s : System) : Prop where
  nodup : s.mem.freelist.Nodup
  notFree : ∀ o x, Owns s o x → x ∉ s.mem.freelist
  unique : ∀ o o' x, Owns s o x → Owns s o' x → o = o'
  ends : ∀ f g x w, Opens s f x w → Opens s g x w → f = g

variable {s t : System} {x : Page} {d : Pgdir} {p : Slot}

def place : Owner → Option (Option Slot)
  | .pipe => none
  | .kernel _ => some none
  | .stack p => some (some p)
  | .space p _ => some (some p)

section Runs

variable {L : Layout}

def Owned (s : System) : Prop := Piped s ∧ Fitted s ∧ ∀ x, tally false x s ≤ 1

theorem tally_apart (h : ∀ x, ∃ sh, tally sh x s ≤ 1) : Apart s := by
  intro x
  obtain ⟨sh,hx⟩ := h x
  unfold tally at hx
  omega

theorem owned_step {a : Act} (hc : sharedCall a.call = false) (hs : Owned s)
    (h : step L s a = .ok t) : Owned t := by
  obtain ⟨hp,hf,ht⟩ := hs
  unfold step at h
  split at h
  · rename_i hl
    have hb := call_books hc ⟨hp,hf,tally_apart fun x => ⟨false,ht x⟩⟩ hl h
    exact ⟨hb.piped,hb.fitted,fun x => (hb.tally false x (by simp)).trans (ht x)⟩
  · cases h

end Runs

end Xv6.PageOwnership
