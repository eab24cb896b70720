import Xv6.CircularList
import Xv6.KernelState
import Xv6.TransitionRun

/-!
# The buffer cache

`bio.c` over the memory disk of `memide.c`, with the part of `log.c` that pins
buffers. A reference to a buffer is born in `bget`, waits for the lock of the
buffer, holds it and leaves in `brelse`; each section under `bcache.lock` and
each use of a locked buffer is a step. The history of what was read and stored
is the view from above. At most 64 processes wait for a buffer, so `refcnt` is
far from a wrap.
-/

set_option autoImplicit false

namespace Xv6.BufferCache
open Function CircularList
open KernelState (Stop)

abbrev NBUF : ℕ := 30
abbrev LOGSIZE : ℕ := 30
abbrev ROOTDEV : ℕ := 1

structure Buf (D : Type) where
  valid : Bool
  dirty : Bool
  dev : ℕ
  blockno : ℕ
  locked : Bool
  refcnt : ℕ
  data : D

abbrev Node := Option (Fin NBUF)

inductive Stage where
  | waiting
  | holding
  | leaving
  deriving DecidableEq, Repr

structure Ref (P : Type) where
  proc : P
  block : ℕ
  buf : Fin NBUF
  stage : Stage
  deriving DecidableEq, Repr

inductive Event (D : Type) where
  | read (b : ℕ) (d : D)
  | write (b : ℕ) (d : D)
  deriving DecidableEq, Repr

structure Cache (P D : Type) where
  buf : Fin NBUF → Buf D
  links : Links Node
  disk : ℕ → D
  block : List ℕ
  outstanding : ℕ
  refs : List (Ref P)
  history : List (Event D)

structure Geometry where
  disksize : ℕ
  logstart : ℕ
  logsize : ℤ

variable {P D : Type} [DecidableEq P]

namespace Cache

@[simps links disk refs history]
def setBuf (s : Cache P D) (i : Fin NBUF) (b : Buf D) : Cache P D :=
  { s with buf := update s.buf i b }

def record (s : Cache P D) (e : Event D) : Cache P D := { s with history := e::s.history }

def addRef (s : Cache P D) (r : Ref P) : Cache P D := { s with refs := r::s.refs }

def dropRef (s : Cache P D) (r : Ref P) : Cache P D := { s with refs := s.refs.erase r }

def moveRef (s : Cache P D) (r : Ref P) (k : Stage) : Cache P D :=
  (s.dropRef r).addRef { r with stage := k }

section
omit [DecidableEq P]

@[simp] theorem setBuf_self (s : Cache P D) (i : Fin NBUF) (b : Buf D) :
    (s.setBuf i b).buf i = b := by
  simp [setBuf]

@[simp] theorem setBuf_of_ne (s : Cache P D) {i j : Fin NBUF} (h : j ≠ i) (b : Buf D) :
    (s.setBuf i b).buf j = s.buf j := by
  simp [setBuf, h]

@[simp] theorem setBuf_setBuf (s : Cache P D) (i : Fin NBUF) (a b : Buf D) :
    (s.setBuf i a).setBuf i b = s.setBuf i b := by
  simp [setBuf]

end

end Cache

def carries (b : Buf D) (n : ℕ) : Bool := b.dev = ROOTDEV && b.blockno = n

def recyclable (b : Buf D) : Bool := b.refcnt = 0 && !b.dirty

def bget (s : Cache P D) (p : P) (n : ℕ) : Except Stop (Cache P D × Ref P) :=
  match search s.links.next none (fun x => x.any fun i => carries (s.buf i) n) (NBUF+1)
      (s.links.next none) with
  | none => .error .hang
  | some (some (some i)) =>
    .ok ((s.setBuf i { s.buf i with refcnt := (s.buf i).refcnt+1 }).addRef ⟨p,n,i,.waiting⟩,
      ⟨p,n,i,.waiting⟩)
  | some _ =>
    match search s.links.prev none (fun x => x.any fun i => recyclable (s.buf i)) (NBUF+1)
        (s.links.prev none) with
    | none => .error .hang
    | some (some (some i)) =>
      .ok ((s.setBuf i { s.buf i with
          dev := ROOTDEV, blockno := n, valid := false, dirty := false, refcnt := 1 }).addRef
        ⟨p,n,i,.waiting⟩,⟨p,n,i,.waiting⟩)
    | some _ => .error (.panic "bget: no buffers")

def iderw (g : Geometry) (s : Cache P D) (i : Fin NBUF) : Except Stop (Cache P D) :=
  if ¬(s.buf i).locked then .error (.panic "iderw: buf not locked")
  else if (s.buf i).valid ∧ ¬(s.buf i).dirty then .error (.panic "iderw: nothing to do")
  else if (s.buf i).dev ≠ 1 then .error (.panic "iderw: request not for disk 1")
  else if g.disksize ≤ (s.buf i).blockno then .error (.panic "iderw: block out of range")
  else if (s.buf i).dirty then
    .ok { s.setBuf i { s.buf i with dirty := false, valid := true } with
      disk := update s.disk (s.buf i).blockno (s.buf i).data }
  else .ok (s.setBuf i { s.buf i with data := s.disk (s.buf i).blockno, valid := true })

def acquiresleep (s : Cache P D) (i : Fin NBUF) : Except Stop (Cache P D) :=
  if (s.buf i).locked then .error .disabled else .ok (s.setBuf i { s.buf i with locked := true })

def load (g : Geometry) (s : Cache P D) (i : Fin NBUF) : Except Stop (Cache P D) :=
  if (s.buf i).valid then .ok s else iderw g s i

def lockBuf (g : Geometry) (s : Cache P D) (r : Ref P) : Except Stop (Cache P D) :=
  if r ∈ s.refs ∧ r.stage = .waiting then do
    let s ← acquiresleep s r.buf
    let s ← load g s r.buf
    .ok ((s.moveRef r .holding).record (.read r.block (s.buf r.buf).data))
  else .error .disabled

def logWrite (g : Geometry) (s : Cache P D) (r : Ref P) (d : D) : Except Stop (Cache P D) :=
  if r ∈ s.refs ∧ r.stage = .holding then
    if LOGSIZE ≤ s.block.length ∨ g.logsize-1 ≤ s.block.length then
      .error (.panic "too big a transaction")
    else if s.outstanding < 1 then .error (.panic "log_write outside of trans")
    else .ok ({ s.setBuf r.buf { s.buf r.buf with data := d, dirty := true } with
      block := if (s.buf r.buf).blockno ∈ s.block then s.block
        else s.block ++ [(s.buf r.buf).blockno] }.record (.write (s.buf r.buf).blockno d))
  else .error .disabled

def bwrite (g : Geometry) (s : Cache P D) (r : Ref P) (d : D) : Except Stop (Cache P D) :=
  if r ∈ s.refs ∧ r.stage = .holding then
    if ¬(s.buf r.buf).locked then .error (.panic "bwrite")
    else (iderw g (s.setBuf r.buf { s.buf r.buf with data := d, dirty := true }) r.buf).map
      (fun t => t.record (.write (s.buf r.buf).blockno d))
  else .error .disabled

def unlockBuf (s : Cache P D) (r : Ref P) : Except Stop (Cache P D) :=
  if r ∈ s.refs ∧ r.stage = .holding then
    if ¬(s.buf r.buf).locked then .error (.panic "brelse")
    else .ok ((s.setBuf r.buf { s.buf r.buf with locked := false }).moveRef r .leaving)
  else .error .disabled

def putBuf (s : Cache P D) (r : Ref P) : Except Stop (Cache P D) :=
  if r ∈ s.refs ∧ r.stage = .leaving then
    .ok { (s.setBuf r.buf { s.buf r.buf with refcnt := (s.buf r.buf).refcnt-1 }).dropRef r with
      links := if (s.buf r.buf).refcnt-1 = 0 then
          pushFront (unlink s.links (some r.buf)) none (some r.buf)
        else s.links }
  else .error .disabled

inductive Act (P D : Type) where
  | bget (p : P) (n : ℕ)
  | lockBuf (r : Ref P)
  | logWrite (r : Ref P) (d : D)
  | bwrite (r : Ref P) (d : D)
  | unlockBuf (r : Ref P)
  | putBuf (r : Ref P)
  | beginOp
  | endOp
  | clearLog

def step (g : Geometry) (s : Cache P D) : Act P D → Except Stop (Cache P D)
  | .bget p n => (bget s p n).map Prod.fst
  | .lockBuf r => lockBuf g s r
  | .logWrite r d => logWrite g s r d
  | .bwrite r d => bwrite g s r d
  | .unlockBuf r => unlockBuf s r
  | .putBuf r => putBuf s r
  | .beginOp => .ok { s with outstanding := s.outstanding+1 }
  | .endOp => .ok { s with outstanding := s.outstanding-1 }
  | .clearLog => .ok { s with block := [] }

def binitLinks : Links Node :=
  (List.finRange NBUF).foldl (fun r i => pushFront r none (some i))
    (close ⟨fun _ => none,fun _ => none⟩ none)

def binit (disk : ℕ → D) (junk : D) : Cache P D :=
  { buf := fun _ => ⟨false,false,0,0,false,0,junk⟩
    links := binitLinks
    disk := disk
    block := []
    outstanding := 0
    refs := []
    history := [] }

section Commit
variable (g : Geometry)

def bread (s : Cache P D) (p : P) (n : ℕ) : Except Stop (Cache P D × Ref P) := do
  let (s,r) ← bget s p n
  let s ← lockBuf g s r
  .ok (s,{ r with stage := .holding })

def brelse (s : Cache P D) (r : Ref P) : Except Stop (Cache P D) := do
  let s ← unlockBuf s r
  putBuf s { r with stage := .leaving }

def writeLogOne (s : Cache P D) (p : P) (tail n : ℕ) : Except Stop (Cache P D) := do
  let (s,target) ← bread g s p (g.logstart+tail+1)
  let (s,source) ← bread g s p n
  let s ← bwrite g s target (s.buf source.buf).data
  let s ← brelse s source
  brelse s target

def installOne (s : Cache P D) (p : P) (tail n : ℕ) : Except Stop (Cache P D) := do
  let (s,lbuf) ← bread g s p (g.logstart+tail+1)
  let (s,dbuf) ← bread g s p n
  let s ← bwrite g s dbuf (s.buf lbuf.buf).data
  let s ← brelse s lbuf
  brelse s dbuf

def writeHead (head : List ℕ → D → D) (s : Cache P D) (p : P) : Except Stop (Cache P D) := do
  let (s,hb) ← bread g s p g.logstart
  let s ← bwrite g s hb (head s.block (s.buf hb.buf).data)
  brelse s hb

def commit (head : List ℕ → D → D) (s : Cache P D) (p : P) : Except Stop (Cache P D) :=
  if s.block = [] then .ok s
  else do
    let l := s.block.zipIdx
    let s ← l.foldlM (fun s x => writeLogOne g s p x.2 x.1) s
    let s ← writeHead g head s p
    let s ← l.foldlM (fun s x => installOne g s p x.2 x.1) s
    writeHead g head { s with block := [] } p

end Commit

def contents (m : ℕ → D) : List (Event D) → ℕ → D
  | [] => m
  | .read _ _::es => contents m es
  | .write b d::es => update (contents m es) b d

def Faithful (m : ℕ → D) : List (Event D) → Prop
  | [] => True
  | .read b d::es => d = contents m es b ∧ Faithful m es
  | .write _ _::es => Faithful m es

end Xv6.BufferCache
