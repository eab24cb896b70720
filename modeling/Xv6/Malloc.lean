import Xv6.NodePath
import Xv6.BlockTiling

/-!
# The user-level allocator

A free block starts with a header of eight bytes: the address of the next free
block and the size in units of the header. Memory is modelled by the two fields
of the header at each address, an access to a header that is not in memory ends
the process, and the loops are given a number of rounds.
-/

set_option autoImplicit false

namespace Xv6.Malloc
open Function NodePath

structure Heap where
  ptr : ℕ → ℕ
  size : ℕ → ℕ
  freep : ℕ

def Heap.setPtr (h : Heap) (p q : ℕ) : Heap := { h with ptr := update h.ptr p q }

def Heap.setSize (h : Heap) (p n : ℕ) : Heap := { h with size := update h.size p n }

inductive Stop where
  | rounds
  | trap
  | halt (msg : String)
  deriving DecidableEq, Repr

def plus (p n : ℕ) : ℕ := (p+8*n)%2^32

def minus (p : ℕ) : ℕ := (p+(2^32-8))%2^32

def Slot (h : Heap) (bp p : ℕ) : Prop :=
  p < bp ∧ bp < h.ptr p ∨ h.ptr p ≤ p ∧ (p < bp ∨ bp < h.ptr p)

instance (h : Heap) (bp p : ℕ) : Decidable (Slot h bp p) := inferInstanceAs (Decidable (_ ∨ _))

def joinUp (bp p : ℕ) (h : Heap) : Heap :=
  if plus bp (h.size bp) = h.ptr p then
    (h.setSize bp ((h.size bp+h.size (h.ptr p))%2^32)).setPtr bp (h.ptr (h.ptr p))
  else h.setPtr bp (h.ptr p)

def joinDown (bp p : ℕ) (h : Heap) : Heap :=
  if plus p (h.size p) = bp then
    (h.setSize p ((h.size p+h.size bp)%2^32)).setPtr p (h.ptr bp)
  else h.setPtr p bp

def free (ok : ℕ → Bool) (k ap : ℕ) (h : Heap) : Except Stop Heap :=
  match walk h.ptr (fun p => ok p = false ∨ Slot h (minus ap) p) k h.freep with
  | none => .error .rounds
  | some p =>
    if ok p ∧ ok (minus ap) ∧ (plus (minus ap) (h.size (minus ap)) = h.ptr p → ok (h.ptr p)) then
      .ok { joinDown (minus ap) p (joinUp (minus ap) p h) with freep := p }
    else .error .trap

structure Sys (σ : Type) where
  sbrk : ℕ → σ → Except Stop (Option ℕ × σ)
  present : σ → ℕ → Bool

structure State (σ : Type) where
  heap : Heap
  os : σ

variable {σ : Type}

def request (nu : ℕ) : ℕ := if nu < 4096 then 4096 else nu

def morecore (sys : Sys σ) (k nu : ℕ) (st : State σ) : Except Stop (ℕ × State σ) :=
  match sys.sbrk (request nu*8%2^32) st.os with
  | .error e => .error e
  | .ok (none,s) => .ok (0,⟨st.heap,s⟩)
  | .ok (some p,s) =>
    if sys.present s p then
      (free (sys.present s) k (plus p 1) (st.heap.setSize p (request nu))).map
        fun h => (h.freep,⟨h,s⟩)
    else .error .trap

def carve (nunits prevp p : ℕ) (h : Heap) : ℕ × Heap :=
  if h.size p = nunits then (p,{ h.setPtr prevp (h.ptr p) with freep := prevp })
  else (plus p (h.size p-nunits),{ (h.setSize p (h.size p-nunits)).setSize
    (plus p (h.size p-nunits)) nunits with freep := prevp })

def take (sys : Sys σ) (nunits prevp p : ℕ) (st : State σ) : Except Stop (ℕ × State σ) :=
  if sys.present st.os (carve nunits prevp p st.heap).1 then
    .ok (plus (carve nunits prevp p st.heap).1 1,⟨(carve nunits prevp p st.heap).2,st.os⟩)
  else .error .trap

def search (sys : Sys σ) (N nunits : ℕ) : ℕ → ℕ → ℕ → State σ → Except Stop (ℕ × State σ)
  | 0, _, _, _ => .error .rounds
  | k+1, prevp, p, st =>
    if sys.present st.os p then
      if nunits ≤ st.heap.size p then take sys nunits prevp p st
      else if p = st.heap.freep then
        (morecore sys N nunits st).bind fun r =>
          if r.1 = 0 then .ok (0,r.2) else search sys N nunits k r.1 (r.2.heap.ptr r.1) r.2
      else search sys N nunits k p (st.heap.ptr p) st
    else .error .trap

def nunits (nbytes : ℕ) : ℕ := (nbytes+7)%2^32/8+1

def start (base : ℕ) (h : Heap) : Heap :=
  if h.freep = 0 then { (h.setPtr base base).setSize base 0 with freep := base } else h

def malloc (sys : Sys σ) (base k nbytes : ℕ) (st : State σ) : Except Stop (ℕ × State σ) :=
  if sys.present st.os (start base st.heap).freep then
    search sys k (nunits nbytes) k (start base st.heap).freep
      ((start base st.heap).ptr (start base st.heap).freep) ⟨start base st.heap,st.os⟩
  else .error .trap

section Fields

variable (h : Heap) (p q n : ℕ)

@[simp] theorem setPtr_ptr : (h.setPtr p q).ptr = update h.ptr p q := rfl

@[simp] theorem setPtr_size : (h.setPtr p q).size = h.size := rfl

@[simp] theorem setPtr_freep : (h.setPtr p q).freep = h.freep := rfl

@[simp] theorem setSize_ptr : (h.setSize p n).ptr = h.ptr := rfl

@[simp] theorem setSize_size : (h.setSize p n).size = update h.size p n := rfl

@[simp] theorem setSize_freep : (h.setSize p n).freep = h.freep := rfl

end Fields

theorem plus_small {p n : ℕ} (h : p+8*n < 2^32) : plus p n = p+8*n := Nat.mod_eq_of_lt h

theorem minus_plus {p : ℕ} (h : p < 2^32) : minus (plus p 1) = p := by
  simp only [minus, plus]
  omega

end Xv6.Malloc
