import Xv6.KernelState
import Xv6.BlockLayer
import Mathlib.Data.List.FinRange

/-!
# Inodes, directories and paths

The upper half of `fs.c`: the cache of inodes with its reference counts and
sleep locks, directories as files of entries, and path lookup; and the calls of
`file.c` on them. A system call runs alone, so a lock that is found taken is one
that the caller holds.
-/

set_option autoImplicit false

namespace Xv6.FsState
open Function ByteStore StateRuns BlockLayer
open KernelState (NPROC Slot)

abbrev NINODE : ℕ := 50
abbrev NFILE : ℕ := 100
abbrev NOFILE : ℕ := 16
abbrev DIRSIZ : ℕ := 14
abbrev ROOTDEV : ℕ := 1
abbrev ROOTINO : ℕ := 1

abbrev Ip := Fin NINODE
abbrev FileId := Fin NFILE

-- Named for the reason given at `KernelState.nproc_neZero`.
instance ninode_neZero : NeZero NINODE := ⟨by decide⟩

structure Entry where
  dev : ℕ
  inum : ℕ
  ref : ℕ
  valid : Bool
  locked : Bool
  copy : Dinode

/-- What a `struct file` stands for: `FD_NONE`, an end of a pipe, or an inode
with the offset and the modes of the file. -/
inductive FileKind where
  | none
  | pipe (page : ℕ) (writable : Bool)
  | inode (ip : Ip) (off : ℕ) (readable writable : Bool)
  deriving DecidableEq, Repr

structure File where
  ref : ℕ
  kind : FileKind
  deriving DecidableEq, Repr

structure Ends where
  readopen : Bool
  writeopen : Bool
  deriving DecidableEq, Repr

inductive Life where
  | unused
  | live
  | zombie
  deriving DecidableEq, Repr

structure Proc where
  state : Life
  ofile : Fin NOFILE → Option FileId
  cwd : Option Ip

structure Fs where
  disk : Disk
  icache : Ip → Entry
  files : FileId → File
  procs : Slot → Proc
  initproc : Slot
  pipes : ℕ → Option Ends
  free : List ℕ
  others : List ℕ

inductive Halt where
  | panic (message : String)
  | deadlock
  | wild
  deriving DecidableEq, Repr

abbrev FsM (α : Type) := Run Fs Halt α

def stop {α : Type} (e : Halt) : FsM α := fun _ => .error e

def Fs.setEntry (s : Fs) (i : Ip) (e : Entry) : Fs := { s with icache := update s.icache i e }

def onInode {α : Type} (i : Ip) (x : DiskM α) : FsM α := fun s =>
  match x ⟨s.disk,(s.icache i).inum,(s.icache i).copy⟩ with
  | .ok (a,w) => .ok (a,{ s with disk := w.disk }.setEntry i { s.icache i with copy := w.copy })
  | .error m => .error (.panic m)

section Cache

def iget (dev inum : ℕ) : FsM Ip := fun s =>
  match (List.finRange NINODE).find? (fun i =>
      0 < (s.icache i).ref ∧ (s.icache i).dev = dev ∧ (s.icache i).inum = inum) with
  | some i => .ok (i,s.setEntry i { s.icache i with ref := (s.icache i).ref+1 })
  | none => match (List.finRange NINODE).find? (fun i => (s.icache i).ref = 0) with
    | some i => .ok (i,s.setEntry i
        { s.icache i with dev := dev, inum := inum, ref := 1, valid := false })
    | none => .error (.panic "iget: no inodes")

def idup (i : Ip) : FsM Unit := fun s =>
  .ok ((),s.setEntry i { s.icache i with ref := (s.icache i).ref+1 })

def loaded (s : Fs) (i : Ip) : Dinode :=
  if (s.icache i).valid then (s.icache i).copy else s.disk.dinode (s.icache i).inum

def ilock (i : Ip) : FsM Unit := fun s =>
  if (s.icache i).ref < 1 then .error (.panic "ilock")
  else if (s.icache i).locked then .error .deadlock
  else if (s.icache i).valid = false ∧ (loaded s i).type = .free then
    .error (.panic "ilock: no type")
  else .ok ((),s.setEntry i
    { s.icache i with locked := true, valid := true, copy := loaded s i })

def iunlock (i : Ip) : FsM Unit := fun s =>
  if (s.icache i).locked = false ∨ (s.icache i).ref < 1 then .error (.panic "iunlock")
  else .ok ((),s.setEntry i { s.icache i with locked := false })

def invalidate (i : Ip) : FsM Unit := fun s =>
  .ok ((),s.setEntry i { s.icache i with valid := false })

def dropRef (i : Ip) : FsM Unit := fun s =>
  .ok ((),s.setEntry i { s.icache i with ref := (s.icache i).ref-1 })

def iput (i : Ip) : FsM Unit := fun s =>
  if (s.icache i).locked then .error .deadlock
  else if (s.icache i).valid ∧ (s.icache i).copy.nlink = 0 ∧ (s.icache i).ref = 1 then (do
    onInode i ifree
    invalidate i
    dropRef i) s
  else dropRef i s

def iunlockput (i : Ip) : FsM Unit := do
  iunlock i
  iput i

def typeOf (i : Ip) : FsM Kind := fun s => .ok ((s.icache i).copy.type,s)

end Cache

section Directories

abbrev Name := List UInt8

def dot : Name := [46]
def dotdot : Name := [46,46]

structure Dirent where
  inum : ℕ
  name : Name
  deriving DecidableEq, Repr

abbrev DIRENT : ℕ := 2+DIRSIZ

def Dirent.encode (e : Dirent) : List UInt8 :=
  leBytes 2 e.inum++(e.name++List.replicate DIRSIZ 0).take DIRSIZ

def Dirent.decode (l : List UInt8) : Dirent :=
  ⟨leNumber (l.take 2),(l.drop 2).takeWhile (· ≠ 0)⟩

def readDirent (message : String) (dp : Ip) (off : ℕ) : FsM Dirent := do
  match ← onInode dp (readi (fun _ => none) off DIRENT) with
  | some l => if l.length = DIRENT then pure (Dirent.decode l) else stop (.panic message)
  | none => stop (.panic message)

def writeDirent (message : String) (dp : Ip) (off : ℕ) (e : Dirent) : FsM Unit := do
  if (← onInode dp (writei (fun _ => none) off e.encode)) = some DIRENT then pure ()
  else stop (.panic message)

def offsets (s : Fs) (dp : Ip) : List ℕ :=
  (List.range (((s.icache dp).copy.size+DIRENT-1)/DIRENT)).map (DIRENT*·)

def scan (message : String) (dp : Ip) (test : Dirent → Bool) : List ℕ → FsM (Option (ℕ × Dirent))
  | [] => pure none
  | off::rest => do
    let de ← readDirent message dp off
    if test de then pure (some (off,de)) else scan message dp test rest

def named (name : Name) (de : Dirent) : Bool := de.inum ≠ 0 ∧ de.name = name

def dirlookup (dp : Ip) (name : Name) : FsM (Option (ℕ × Ip)) := fun s =>
  if (s.icache dp).copy.type ≠ .dir then .error (.panic "dirlookup not DIR")
  else (do
    match ← scan "dirlookup read" dp (named name) (offsets s dp) with
    | none => pure none
    | some (off,de) =>
      let ip ← iget (s.icache dp).dev de.inum
      pure (some (off,ip))) s

def addEntry (dp : Ip) (name : Name) (inum : ℕ) : FsM Unit := fun s => (do
  let empty ← scan "dirlink read" dp (fun de => de.inum = 0) (offsets s dp)
  writeDirent "dirlink" dp ((empty.map Prod.fst).getD (DIRENT*(offsets s dp).length))
    ⟨inum,name⟩) s

def dirlink (dp : Ip) (name : Name) (inum : ℕ) : FsM Bool := do
  match ← dirlookup dp name with
  | some (_,ip) =>
    iput ip
    pure false
  | none =>
    addEntry dp name inum
    pure true

end Directories

section Paths

def slash : UInt8 := 47

def skipelem (path : List UInt8) : Option (Name × List UInt8) :=
  match path.dropWhile (· = slash) with
  | [] => none
  | c::l => some (((c::l).takeWhile (· ≠ slash)).take DIRSIZ,
      ((c::l).dropWhile (· ≠ slash)).dropWhile (· = slash))

def elements : ℕ → List UInt8 → List Name
  | 0, _ => []
  | k+1, path => match skipelem path with
    | none => []
    | some (name,rest) => name::elements k rest

def walk (parent : Bool) : List Name → Ip → FsM (Option (Ip × Name))
  | [], ip => if parent then do
      iput ip
      pure none
    else pure (some (ip,[]))
  | name::rest, ip => do
    ilock ip
    if (← typeOf ip) ≠ .dir then do
      iunlockput ip
      pure none
    else if parent ∧ rest = [] then do
      iunlock ip
      pure (some (ip,name))
    else do
      match ← dirlookup ip name with
      | none =>
        iunlockput ip
        pure none
      | some (_,next) =>
        iunlockput ip
        walk parent rest next

def pathStart (p : Slot) (path : List UInt8) : FsM Ip := fun s =>
  if path.head? = some slash then iget ROOTDEV ROOTINO s
  else match (s.procs p).cwd with
    | none => .error .wild
    | some i => (do
      idup i
      pure i) s

def namex (p : Slot) (parent : Bool) (path : List UInt8) : FsM (Option (Ip × Name)) := do
  let ip ← pathStart p path
  walk parent (elements path.length path) ip

def namei (p : Slot) (path : List UInt8) : FsM (Option Ip) := do
  pure ((← namex p false path).map Prod.fst)

end Paths

def setFile (f : FileId) (v : File) : FsM Unit := fun s =>
  .ok ((),{ s with files := update s.files f v })

abbrev WRITEMAX : ℕ := (30-1-1-2)/2*512

def offsetOf (f : FileId) : FsM ℕ := fun s =>
  match (s.files f).kind with
  | .inode _ off _ _ => .ok (off,s)
  | _ => .ok (0,s)

def advance (f : FileId) (r : ℕ) : FsM Unit := fun s =>
  match (s.files f).kind with
  | .inode ip off readable writable =>
    setFile f { s.files f with kind := .inode ip ((off+r)%2^32) readable writable } s
  | _ => .ok ((),s)

def writeRounds (device : ℤ → Option ℕ) (f : FileId) (ip : Ip) : ℕ → List UInt8 → FsM Bool
  | 0, src => pure (src = [])
  | k+1, src => if src = [] then pure true else do
    ilock ip
    let r ← onInode ip (writei device (← offsetOf f) (src.take WRITEMAX))
    advance f (r.getD 0)
    iunlock ip
    match r with
    | none => pure false
    | some r =>
      if r ≠ (src.take WRITEMAX).length then stop (.panic "short filewrite")
      else writeRounds device f ip k (src.drop WRITEMAX)

def filewrite (device : ℤ → Option ℕ) (piped : ℤ) (f : FileId) (src : List UInt8) :
    FsM ℤ := fun s =>
  match (s.files f).kind with
  | .none => .error (.panic "filewrite")
  | .pipe _ writable => .ok (if writable then piped else -1,s)
  | .inode ip _ _ writable => if writable = false then .ok (-1,s) else (do
      if ← writeRounds device f ip src.length src then pure (src.length : ℤ)
      else pure (-1)) s

end Xv6.FsState
