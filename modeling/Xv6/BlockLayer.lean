import Xv6.ByteStore
import Xv6.StateRuns

/-!
# Blocks and the contents of inodes

The lower half of `fs.c` over the disk as the buffer cache shows it, with its
inodes and its bitmap in decoded form. The functions work on the copy of an
inode in memory, which `iupdate` writes back.
-/

set_option autoImplicit false

namespace Xv6.BlockLayer
open Function ByteStore StateRuns

abbrev BSIZE : ℕ := 512
abbrev NDIRECT : ℕ := 12
abbrev NINDIRECT : ℕ := BSIZE/4
abbrev MAXFILE : ℕ := NDIRECT+NINDIRECT

inductive Kind where
  | free
  | dir
  | file
  | dev
  deriving DecidableEq, Repr

structure Dinode where
  type : Kind
  major : ℤ
  nlink : ℤ
  size : ℕ
  addrs : ℕ → ℕ

structure Disk where
  size : ℕ
  ninodes : ℕ
  dinode : ℕ → Dinode
  bitmap : ℕ → Bool
  content : ℕ → Bytes

structure Work where
  disk : Disk
  inum : ℕ
  copy : Dinode

abbrev DiskM (α : Type) := Run Work String α

def halt {α : Type} (m : String) : DiskM α := fun _ => .error m

section Blocks

def Disk.setContent (d : Disk) (b : ℕ) (v : Bytes) : Disk :=
  { d with content := update d.content b v }

def Disk.setBit (d : Disk) (b : ℕ) (v : Bool) : Disk :=
  { d with bitmap := update d.bitmap b v }

def Disk.setDinode (d : Disk) (n : ℕ) (c : Dinode) : Disk :=
  { d with dinode := update d.dinode n c }

def Dinode.setAddr (c : Dinode) (k b : ℕ) : Dinode := { c with addrs := update c.addrs k b }

def setAddr (k b : ℕ) : DiskM Unit := fun w => .ok ((),{ w with copy := w.copy.setAddr k b })

def balloc : DiskM ℕ := fun w =>
  match (List.range w.disk.size).find? (fun b => ! w.disk.bitmap b) with
  | some b => .ok (b,{ w with disk := (w.disk.setBit b true).setContent b (fun _ => 0) })
  | none => .error "balloc: out of blocks"

def bfree (b : ℕ) : DiskM Unit := fun w =>
  if w.disk.bitmap b then .ok ((),{ w with disk := w.disk.setBit b false })
  else .error "freeing free block"

def iupdate : DiskM Unit := fun w =>
  .ok ((),{ w with disk := w.disk.setDinode w.inum w.copy })

def mapAddr (k : ℕ) : DiskM ℕ := fun w =>
  if w.copy.addrs k = 0 then (do
    let b ← balloc
    setAddr k b
    pure b) w
  else .ok (w.copy.addrs k,w)

def setEntry (a j v : ℕ) : DiskM Unit := fun w =>
  .ok ((),{ w with disk := w.disk.setContent a (setWord (w.disk.content a) j v) })

def mapEntry (a j : ℕ) : DiskM ℕ := fun w =>
  if word (w.disk.content a) j = 0 then (do
    let b ← balloc
    setEntry a j b
    pure b) w
  else .ok (word (w.disk.content a) j,w)

def bmap (bn : ℕ) : DiskM ℕ :=
  if bn < NDIRECT then mapAddr bn
  else if bn-NDIRECT < NINDIRECT then do
    let a ← mapAddr NDIRECT
    mapEntry a (bn-NDIRECT)
  else halt "bmap: out of range"

end Blocks

section Truncation

def freeAddr (k : ℕ) : DiskM Unit := fun w =>
  if w.copy.addrs k ≠ 0 then (do
    bfree (w.copy.addrs k)
    setAddr k 0) w
  else .ok ((),w)

def freeEntry (a j : ℕ) : DiskM Unit := fun w =>
  if word (w.disk.content a) j ≠ 0 then bfree (word (w.disk.content a) j) w
  else .ok ((),w)

def freeIndirect : DiskM Unit := fun w =>
  if w.copy.addrs NDIRECT ≠ 0 then (do
    (List.range NINDIRECT).forM (freeEntry (w.copy.addrs NDIRECT))
    bfree (w.copy.addrs NDIRECT)
    setAddr NDIRECT 0) w
  else .ok ((),w)

def setSize (v : ℕ) : DiskM Unit := fun w => .ok ((),{ w with copy := { w.copy with size := v } })

def itrunc : DiskM Unit := do
  (List.range NDIRECT).forM freeAddr
  freeIndirect
  setSize 0
  iupdate

def setType (t : Kind) : DiskM Unit := fun w =>
  .ok ((),{ w with copy := { w.copy with type := t } })

def ifree : DiskM Unit := do
  itrunc
  setType .free
  iupdate

end Truncation

section Bytes

def chunk (off n : ℕ) : ℕ := min n (BSIZE-off%BSIZE)

def loadBlock (b o n : ℕ) : DiskM (List UInt8) := fun w => .ok (slice (w.disk.content b) o n,w)

def storeBlock (b o : ℕ) (src : List UInt8) : DiskM Unit := fun w =>
  .ok ((),{ w with disk := w.disk.setContent b (paste (w.disk.content b) o src) })

def readChunk (off n : ℕ) : DiskM (List UInt8) := do
  let b ← bmap (off/BSIZE)
  loadBlock b (off%BSIZE) n

def readLoop : ℕ → ℕ → ℕ → DiskM (List UInt8)
  | 0, _, _ => pure []
  | k+1, off, n => if n = 0 then pure [] else do
    let l ← readChunk off (chunk off n)
    let rest ← readLoop k (off+chunk off n) (n-chunk off n)
    pure (l++rest)

/-- `device` is what the read function of a device returns, by its major
number; `none` stands for -1. -/
def readi (device : ℤ → Option (List UInt8)) (off n : ℕ) : DiskM (Option (List UInt8)) := fun w =>
  if w.copy.type = .dev then .ok (device w.copy.major,w)
  else if w.copy.size < off ∨ (off+n)%2^32 < off then .ok (none,w)
  else (some <$> readLoop n off (min n (w.copy.size-off))) w

def writeChunk (off : ℕ) (src : List UInt8) : DiskM Unit := do
  let b ← bmap (off/BSIZE)
  storeBlock b (off%BSIZE) src

def writeLoop : ℕ → ℕ → List UInt8 → DiskM ℕ
  | 0, off, _ => pure off
  | k+1, off, src => if src = [] then pure off else do
    writeChunk off (src.take (chunk off src.length))
    writeLoop k (off+chunk off src.length) (src.drop (chunk off src.length))

def growTo (off n : ℕ) : DiskM Unit := fun w =>
  if 0 < n ∧ w.copy.size < off then (do
    setSize off
    iupdate) w
  else .ok ((),w)

def writei (device : ℤ → Option ℕ) (off : ℕ) (src : List UInt8) : DiskM (Option ℕ) := fun w =>
  if w.copy.type = .dev then .ok (device w.copy.major,w)
  else if w.copy.size < off ∨ (off+src.length)%2^32 < off then .ok (none,w)
  else if MAXFILE*BSIZE < off+src.length then .ok (none,w)
  else (do
    let last ← writeLoop src.length off src
    growTo last src.length
    pure (some src.length)) w

end Bytes

end Xv6.BlockLayer
