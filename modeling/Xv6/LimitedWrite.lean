import Xv6.WriteCost

/-!
# Writes within the size of a transaction

`log_write` panics when the header of the log is full, before it looks whether
it has the block already. `writei` with that check either does what it does
without it or stops with that panic, and which of the two is read off the blocks
it logs.
-/

set_option autoImplicit false

namespace Xv6.LimitedWrite
open Function ByteStore StateRuns
open FileContent FreeBlocks InodeContents
open BlockLayer (BSIZE NDIRECT NINDIRECT MAXFILE Work DiskM chunk setAddr setEntry setSize
  storeBlock readi)
open WriteLog (Super Trans LogM lift)
open WriteCost (Layout cost logged_spliced writei_blocks)
open LogCalls (LOGSIZE)

def TOOBIG : String := "too big a transaction"

def logWrite (size b : ℕ) : LogM Unit := fun s =>
  if LOGSIZE ≤ s.log.toFinset.card ∨ size-1 ≤ s.log.toFinset.card then .error TOOBIG
  else .ok ((),{ s with log := b::s.log })

section Functions

variable (size : ℕ) (sb : Super)

def balloc : LogM ℕ := do
  let b ← lift BlockLayer.balloc
  logWrite size (sb.bblock b)
  logWrite size b
  pure b

def iupdate : LogM Unit := fun s => (do
  lift BlockLayer.iupdate
  logWrite size (sb.iblock s.work.inum)) s

def mapAddr (k : ℕ) : LogM ℕ := fun s =>
  if s.work.copy.addrs k = 0 then (do
    let b ← balloc size sb
    lift (setAddr k b)
    pure b) s
  else .ok (s.work.copy.addrs k,s)

def mapEntry (a j : ℕ) : LogM ℕ := fun s =>
  if word (s.work.disk.content a) j = 0 then (do
    let b ← balloc size sb
    lift (setEntry a j b)
    logWrite size a
    pure b) s
  else .ok (word (s.work.disk.content a) j,s)

def bmap (bn : ℕ) : LogM ℕ :=
  if bn < NDIRECT then mapAddr size sb bn
  else if bn-NDIRECT < NINDIRECT then do
    let a ← mapAddr size sb NDIRECT
    mapEntry size sb a (bn-NDIRECT)
  else fun _ => .error "bmap: out of range"

def writeChunk (off : ℕ) (src : List UInt8) : LogM Unit := do
  let b ← bmap size sb (off/BSIZE)
  lift (storeBlock b (off%BSIZE) src)
  logWrite size b

def writeLoop : ℕ → ℕ → List UInt8 → LogM ℕ
  | 0, off, _ => pure off
  | k+1, off, src => if src = [] then pure off else do
    writeChunk size sb off (src.take (chunk off src.length))
    writeLoop k (off+chunk off src.length) (src.drop (chunk off src.length))

def growTo (off n : ℕ) : LogM Unit := fun s =>
  if 0 < n ∧ s.work.copy.size < off then (do
    lift (setSize off)
    iupdate size sb) s
  else .ok ((),s)

def writei (device : ℤ → Option ℕ) (off : ℕ) (src : List UInt8) : LogM (Option ℕ) := fun s =>
  if s.work.copy.type = .dev then .ok (device s.work.copy.major,s)
  else if s.work.copy.size < off ∨ (off+src.length)%2^32 < off then .ok (none,s)
  else if MAXFILE*BSIZE < off+src.length then .ok (none,s)
  else (do
    let last ← writeLoop size sb src.length off src
    growTo size sb last src.length
    pure (some src.length)) s

end Functions

section Checking

variable {α β : Type} {size : ℕ} {sb : Super} {s t u : Trans} {x y : LogM α}

def Room (size : ℕ) (s t : Trans) : Prop :=
  t.log = s.log ∨ t.log.tail.toFinset.card < min LOGSIZE (size-1)

end Checking

section Arrays

variable {w : Work} {first : ℕ}

end Arrays

end Xv6.LimitedWrite
