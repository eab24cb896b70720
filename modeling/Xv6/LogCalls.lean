import Xv6.RedoLog
import Xv6.TransitionRun
import Mathlib.Data.Finset.Card

/-!
# The log of the file system

`log.c` with the buffer cache below it. `cache` gives what `bread` returns: a
modified buffer stays until it is written, a clean one reads as the disk does.
The cache has `NBUF` buffers: those of the logged blocks are dirty, an operation
has those of the blocks it has modified or is logging, and `bget` panics when
all of them are in use for other blocks. Each disk write and each section under
`log.lock` is a step; `log_write` looks at the log before it takes the lock. A
crash loses everything but the disk.

The fields from `groups` on are histories: the writes of each commit and of the
operations since, how many commits are on disk, how many have returned, who is
inside an operation and which blocks have been logged.
-/

set_option autoImplicit false

namespace Xv6.LogCalls
open Function

abbrev MAXOPBLOCKS : ℕ := 10
abbrev LOGSIZE : ℕ := MAXOPBLOCKS*3
abbrev NBUF : ℕ := MAXOPBLOCKS*3
abbrev WORDS : ℕ := 128

abbrev Block := Fin WORDS → ℕ
abbrev Disk := ℕ → Block

structure Superblock where
  logstart : ℕ
  nlog : ℕ
  header : 0 < nlog

def mkfs : Superblock := { logstart := 2, nlog := LOGSIZE, header := by decide }

inductive Stop where
  | disabled
  | panic (message : String)
  | wild
  deriving DecidableEq, Repr

inductive Pc where
  | idle
  | inOp (used dirty : List ℕ)
  | checked (used dirty : List ℕ) (b : ℕ)
  | writeLog (tail : ℕ)
  | writeHead
  | install (tail : ℕ)
  | clearHead
  | finish
  deriving DecidableEq, Repr

inductive Mode where
  | up
  | down
  | recovering (block : List ℕ) (tail : ℕ)
  deriving DecidableEq, Repr

structure Log (P : Type) where
  disk : Disk
  cache : Disk
  block : List ℕ
  outstanding : ℤ
  committing : Bool
  pc : P → Pc
  mode : Mode
  groups : List (List (ℕ × Block))
  pending : List (ℕ × Block)
  durable : ℕ
  acked : ℕ
  ops : List P
  logged : List ℕ

def readHead (w : Block) : List ℕ := (List.ofFn (fun i : Fin (WORDS-1) => w i.succ)).take (w 0)

def headWith (l : List ℕ) (w : Block) : Block := fun j =>
  if j = 0 then l.length else (l[j.val-1]?).getD (w j)

variable {P : Type} [DecidableEq P]

namespace Log

def setPc (s : Log P) (p : P) (k : Pc) : Log P := { s with pc := update s.pc p k }

def bwrite (s : Log P) (b : ℕ) (v : Block) : Log P :=
  { s with cache := update s.cache b v, disk := update s.disk b v }

end Log

def heldBy : Pc → List ℕ
  | .inOp _ dirty => dirty
  | .checked _ dirty b => b::dirty
  | _ => []

def pinned (s : Log P) : Finset ℕ :=
  (s.block ++ s.ops.flatMap (fun p => heldBy (s.pc p))).toFinset

def bget (inUse : Finset ℕ) (b : ℕ) : Except Stop Unit :=
  if b ∈ inUse ∨ inUse.card < NBUF then .ok () else .error (.panic "bget: no buffers")

def writeHead (sb : Superblock) (s : Log P) (l : List ℕ) : Log P :=
  s.bwrite sb.logstart (headWith l (s.cache sb.logstart))

def writeLogOne (sb : Superblock) (s : Log P) (tail b : ℕ) : Log P :=
  s.bwrite (sb.logstart+tail+1) (s.cache b)

def installOne (sb : Superblock) (s : Log P) (tail b : ℕ) : Log P :=
  s.bwrite b (s.cache (sb.logstart+tail+1))

def beginOp (s : Log P) (p : P) : Except Stop (Log P) :=
  if s.pc p ≠ .idle then .error .disabled
  else if s.committing then .error .disabled
  else if (s.block.length:ℤ) + (s.outstanding+1)*MAXOPBLOCKS > LOGSIZE then .error .disabled
  else .ok { s.setPc p (.inOp [] []) with outstanding := s.outstanding+1, ops := p::s.ops }

def modifyBuf (s : Log P) (p : P) (b : ℕ) (v : Block) : Except Stop (Log P) :=
  match s.pc p with
  | .inOp used dirty => do
    bget (pinned s) b
    .ok { s.setPc p (.inOp used (b::dirty)) with
      cache := update s.cache b v, pending := s.pending ++ [(b,v)] }
  | _ => .error .disabled

def logCheck (sb : Superblock) (s : Log P) (p : P) (b : ℕ) : Except Stop (Log P) :=
  match s.pc p with
  | .inOp used dirty =>
    if s.block.length ≥ LOGSIZE ∨ (s.block.length:ℤ) ≥ (sb.nlog:ℤ)-1 then
      .error (.panic "too big a transaction")
    else if s.outstanding < 1 then .error (.panic "log_write outside of trans")
    else do
      bget (pinned s) b
      .ok (s.setPc p (.checked used dirty b))
  | _ => .error .disabled

def logAppend (s : Log P) (p : P) : Except Stop (Log P) :=
  match s.pc p with
  | .checked used dirty b =>
    let t : Log P := { s.setPc p (.inOp (if b ∈ used then used else b::used)
      (dirty.filter (· ≠ b))) with
      logged := b::s.logged }
    if b ∈ s.block then .ok t
    else if s.block.length < LOGSIZE then .ok { t with block := s.block ++ [b] }
    else .error .wild
  | _ => .error .disabled

def endOp (s : Log P) (p : P) : Except Stop (Log P) :=
  match s.pc p with
  | .inOp _ [] =>
    if s.committing then .error (.panic "log.committing")
    else
      let t : Log P := { s with outstanding := s.outstanding-1, ops := s.ops.erase p }
      if t.outstanding = 0 then .ok { t.setPc p (if s.block = [] then .finish else .writeLog 0) with
        committing := true
        groups := s.groups ++ [s.pending]
        pending := []
        durable := if s.block = [] then s.groups.length+1 else s.durable }
      else .ok (t.setPc p .idle)
  | _ => .error .disabled

def commit (sb : Superblock) (s : Log P) (p : P) : Except Stop (Log P) :=
  match s.pc p with
  | .writeLog tail => match s.block[tail]? with
    | some b => do
      bget (pinned s) (sb.logstart+tail+1)
      .ok ((writeLogOne sb s tail b).setPc p
        (if tail+1 < s.block.length then .writeLog (tail+1) else .writeHead))
    | none => .error .wild
  | .writeHead => do
    bget (pinned s) sb.logstart
    .ok { (writeHead sb s s.block).setPc p (.install 0) with durable := s.groups.length }
  | .install tail => match s.block[tail]? with
    | some b => do
      bget (s.block.drop tail).toFinset (sb.logstart+tail+1)
      .ok ((installOne sb s tail b).setPc p
        (if tail+1 < s.block.length then .install (tail+1) else .clearHead))
    | none => .error .wild
  | .clearHead => .ok { (writeHead sb s []).setPc p .finish with block := [], logged := [] }
  | .finish => .ok { s.setPc p .idle with committing := false, acked := s.groups.length }
  | _ => .error .disabled

def crash (s : Log P) : Log P :=
  { s with mode := .down, groups := s.groups.take s.durable, pending := [] }

def initlog (sb : Superblock) (s : Log P) : Except Stop (Log P) :=
  if s.disk sb.logstart 0 ≤ LOGSIZE then
    .ok { s with cache := s.disk, mode := .recovering (readHead (s.disk sb.logstart)) 0 }
  else .error .wild

def recoverFromLog (sb : Superblock) (s : Log P) (block : List ℕ) (tail : ℕ) : Log P :=
  match block[tail]? with
  | some b => { installOne sb s tail b with mode := .recovering block (tail+1) }
  | none => { writeHead sb s [] with
      block := [], outstanding := 0, committing := false, pc := fun _ => .idle, mode := .up,
      ops := [], logged := [] }

inductive Act (P : Type) where
  | beginOp (p : P)
  | modify (p : P) (b : ℕ) (v : Block)
  | logCheck (p : P) (b : ℕ)
  | logAppend (p : P)
  | endOp (p : P)
  | commit (p : P)
  | crash
  | initlog
  | recover

def whenUp (s : Log P) (f : Except Stop (Log P)) : Except Stop (Log P) :=
  if s.mode = .up then f else .error .disabled

def step (sb : Superblock) (s : Log P) : Act P → Except Stop (Log P)
  | .beginOp p => whenUp s (beginOp s p)
  | .modify p b v => whenUp s (modifyBuf s p b v)
  | .logCheck p b => whenUp s (logCheck sb s p b)
  | .logAppend p => whenUp s (logAppend s p)
  | .endOp p => whenUp s (endOp s p)
  | .commit p => whenUp s (commit sb s p)
  | .crash => .ok (crash s)
  | .initlog => if s.mode = .down then initlog sb s else .error .disabled
  | .recover => match s.mode with
    | .recovering block tail => .ok (recoverFromLog sb s block tail)
    | _ => .error .disabled

def powerOff (d : Disk) : Log P :=
  { disk := d, cache := d, block := [], outstanding := 0, committing := false
    pc := fun _ => .idle, mode := .down, groups := [], pending := [], durable := 0, acked := 0
    ops := [], logged := [] }

def installRound (sb : Superblock) (block : List ℕ) (e : Disk) (tail : ℕ) : Disk :=
  match block[tail]? with
  | some b => update e b (e (sb.logstart+tail+1))
  | none => e

def recoverDisk (sb : Superblock) (d : Disk) : Disk :=
  let block := readHead (d sb.logstart)
  let e := (List.range block.length).foldl (installRound sb block) d
  update e sb.logstart (headWith [] (e sb.logstart))

end Xv6.LogCalls
