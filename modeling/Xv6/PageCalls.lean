import Xv6.KernelState
import Xv6.PageTables
import Mathlib.Data.List.FinRange

/-!
# System calls that move pages

Processes with their kernel stacks and page directories, the file table with its
pipes and the table of shared pages, and the system calls that allocate, map or
free pages, each run as a whole. An entry `shmpgs[i]` inside the array is null
or the address of `shmtable.pages[i]`, so it is kept as a flag.
-/

set_option autoImplicit false

namespace Xv6.PageCalls
open Function PageTables
open KernelState (NPROC Slot Stop)

abbrev NOFILE : ℕ := 16
abbrev NFILE : ℕ := 100
abbrev SHM_MAXNUM : ℕ := 32

abbrev FileId := Fin NFILE
abbrev ShmId := Fin SHM_MAXNUM

inductive Life where
  | unused
  | live
  | zombie
  | junk
  deriving DecidableEq, Repr

inductive Fd where
  | file (f : FileId)
  | junk
  deriving DecidableEq, Repr

structure Task where
  state : Life
  parent : Option Slot
  sz : ℕ
  kstack : Option Page
  pgdir : Option Pgdir
  ofile : Fin NOFILE → Option Fd
  shmpgs : ShmId → Bool

inductive FileKind where
  | none
  | pipe (p : Page) (writable : Bool)
  deriving DecidableEq, Repr

structure File where
  ref : ℕ
  kind : FileKind
  deriving DecidableEq, Repr

structure Ends where
  readopen : Bool
  writeopen : Bool
  deriving DecidableEq, Repr

structure ShmPg where
  allocated : Bool
  name : ℕ
  pa : Option Page
  refCount : ℕ
  deriving DecidableEq, Repr

structure System where
  mem : Mem
  kpgdir : Pgdir
  task : Slot → Task
  initproc : Slot
  files : FileId → File
  pipes : Page → Ends
  shmReady : Bool
  shm : ShmId → ShmPg

namespace System

def setTask (s : System) (p : Slot) (t : Task) : System := { s with task := update s.task p t }

def setFile (s : System) (f : FileId) (v : File) : System := { s with files := update s.files f v }

end System

def raise {α : Type} : Except String α → Except Stop α
  | .ok a => .ok a
  | .error message => .error (.panic message)

section Files

def filealloc (s : System) : Option (FileId × System) :=
  ((List.finRange NFILE).find? fun f => (s.files f).ref = 0).map fun f =>
    (f,s.setFile f { s.files f with ref := 1 })

def filedup (f : FileId) (s : System) : Except Stop System :=
  if (s.files f).ref < 1 then .error (.panic "filedup")
  else .ok (s.setFile f { s.files f with ref := (s.files f).ref+1 })

def closeEnd (e : Ends) (writable : Bool) : Ends :=
  if writable then { e with writeopen := false } else { e with readopen := false }

def pipeclose (p : Page) (writable : Bool) (s : System) : System :=
  let e := closeEnd (s.pipes p) writable
  { s with
    pipes := update s.pipes p e
    mem := if !e.readopen && !e.writeopen then kfree p s.mem else s.mem }

def fileclose (f : FileId) (s : System) : Except Stop System :=
  if (s.files f).ref < 1 then .error (.panic "fileclose")
  else if 1 < (s.files f).ref then
    .ok (s.setFile f { s.files f with ref := (s.files f).ref-1 })
  else match (s.files f).kind with
    | .none => .ok (s.setFile f ⟨0,.none⟩)
    | .pipe p writable => .ok (pipeclose p writable (s.setFile f ⟨0,.none⟩))

def fdClose (fd : Fd) (s : System) : Except Stop System :=
  match fd with
  | .file f => fileclose f s
  | .junk => .error .wild

def setFd (s : System) (p : Slot) (i : Fin NOFILE) (fd : Option Fd) : System :=
  s.setTask p { s.task p with ofile := update (s.task p).ofile i fd }

def fdalloc (p : Slot) (fd : Fd) (s : System) : Option (Fin NOFILE × System) :=
  ((List.finRange NOFILE).find? fun i => (s.task p).ofile i = none).map fun i =>
    (i,setFd s p i (some fd))

def pipealloc (s : System) : Except Stop (Option (FileId × FileId) × System) :=
  match filealloc s with
  | none => .ok (none,s)
  | some (f0,s) => match filealloc s with
    | none => (fileclose f0 s).map fun s => (none,s)
    | some (f1,s) => match kalloc s.mem with
      | (none,m) => (fileclose f0 { s with mem := m } >>= fileclose f1).map fun s => (none,s)
      | (some p,m) =>
        let s := { s with mem := m, pipes := update s.pipes p ⟨true,true⟩ }
        let s := s.setFile f0 { s.files f0 with kind := .pipe p false }
        .ok (some (f0,f1),s.setFile f1 { s.files f1 with kind := .pipe p true })

def sysPipe (p : Slot) (arg : Bool) (s : System) : Except Stop System :=
  if !arg then .ok s else do
    match ← pipealloc s with
    | (none,s) => .ok s
    | (some (rf,wf),s) => match fdalloc p (.file rf) s with
      | none => fileclose rf s >>= fileclose wf
      | some (fd0,s) => match fdalloc p (.file wf) s with
        | none => fileclose rf (setFd s p fd0 none) >>= fileclose wf
        | some (_,s) => .ok s

def sysClose (p : Slot) (i : Fin NOFILE) (s : System) : Except Stop System :=
  match (s.task p).ofile i with
  | none => .ok s
  | some fd => fdClose fd (setFd s p i none)

def sysDup (p : Slot) (i : Fin NOFILE) (s : System) : Except Stop System :=
  match (s.task p).ofile i with
  | none => .ok s
  | some fd => match fdalloc p fd s with
    | none => .ok s
    | some (_,s) => match fd with
      | .file f => filedup f s
      | .junk => .error .wild

end Files

section Processes

def forkFile (p np : Slot) (s : System) (i : Fin NOFILE) : Except Stop System :=
  match (s.task p).ofile i with
  | none => .ok s
  | some .junk => .error .wild
  | some (.file f) => (filedup f s).map fun s => setFd s np i (some (.file f))

def freeSlot (s : System) : Option Slot :=
  (List.finRange NPROC).find? fun q => (s.task q).state = .unused

def fork (L : Layout) (p : Slot) (s : System) : Except Stop System :=
  match freeSlot s with
  | none => .ok s
  | some np => match kalloc s.mem with
    | (none,m) => .ok ({ s with mem := m }.setTask np { s.task np with kstack := none })
    | (some kstack,m) => match (s.task p).pgdir with
      | none => .error .wild
      | some d => do
        match ← raise (copyuvm L d (s.task p).sz m) with
        | (none,m) => .ok ({ s with mem := kfree kstack m }.setTask np
            { s.task np with kstack := none, pgdir := none })
        | (some d,m) =>
          let s := { s with mem := m }.setTask np
            { s.task np with
              state := .live
              parent := some p
              sz := (s.task p).sz
              kstack := some kstack
              pgdir := some d }
          (List.finRange NOFILE).foldlM (forkFile p np) s

structure Segment where
  read : Bool
  load : Bool
  vaddr : BitVec 32
  memsz : BitVec 32
  filesz : BitVec 32
  short : Option ℕ
  deriving DecidableEq, Repr

structure Image where
  found : Bool
  header : Bool
  segments : List Segment
  args : Bool
  deriving DecidableEq, Repr

def loadSegments : List Segment → ℕ → Pgdir → Mem → Except String (Option ℕ × Pgdir × Mem)
  | [], sz, d, m => .ok (some sz,d,m)
  | g::gs, sz, d, m =>
    if !g.read then .ok (none,d,m)
    else if !g.load then loadSegments gs sz d m
    else if g.memsz < g.filesz then .ok (none,d,m)
    else if g.vaddr+g.memsz < g.vaddr then .ok (none,d,m)
    else do
      let (r,d,m) ← allocuvm d sz (g.vaddr+g.memsz).toNat m
      if r = 0 then .ok (none,d,m)
      else if g.vaddr.toNat%PGSIZE ≠ 0 then .ok (none,d,m)
      else do
        if ← loaduvm d g.short (g.vaddr.toNat/PGSIZE) (pages g.filesz.toNat) then
          loadSegments gs r d m
        else .ok (none,d,m)

def loadStack (args : Bool) (sz : ℕ) (d : Pgdir) (m : Mem) :
    Except String (Option ℕ × Pgdir × Mem) := do
  let (r,d,m) ← allocuvm d sz (sz+2*PGSIZE) m
  if r = 0 then .ok (none,d,m)
  else (clearpteu d (pages r-2)).map fun d => (if args then some r else none,d,m)

def loadImage (img : Image) (d : Pgdir) (m : Mem) : Except String (Option ℕ × Pgdir × Mem) := do
  match ← loadSegments img.segments 0 d m with
  | (none,d,m) => .ok (none,d,m)
  | (some sz,d,m) => loadStack img.args (pages sz*PGSIZE) d m

def exec (L : Layout) (p : Slot) (img : Image) (s : System) : Except Stop System :=
  let s := s.setTask p { s.task p with shmpgs := fun _ => false }
  if !img.found || !img.header then .ok s else do
    match ← raise (setupkvm L s.mem) with
    | (none,m) => .ok { s with mem := m }
    | (some d,m) => match ← raise (loadImage img d m) with
      | (none,d,m) => (raise (freevm d m)).map fun m => { s with mem := m }
      | (some sz,d,m) => match (s.task p).pgdir with
        | none => .error (.panic "freevm: no pgdir")
        | some old => (raise (freevm old m)).map fun m =>
            { s with mem := m }.setTask p { s.task p with sz := sz, pgdir := some d }

def resize (r : ℕ) (d : Pgdir) (m : Mem) (p : Slot) (s : System) : System :=
  { s with mem := m }.setTask p
    { s.task p with pgdir := some d, sz := if r = 0 then (s.task p).sz else r }

def growproc (p : Slot) (n : ℤ) (s : System) : Except Stop System :=
  let sz := (s.task p).sz
  let newsz := ((sz+n)%2^32).toNat
  match (s.task p).pgdir with
  | none => .error .wild
  | some d =>
    if 0 < n then do
      let (r,d,m) ← raise (allocuvm d sz newsz s.mem)
      .ok (resize r d m p s)
    else if n < 0 then do
      let (r,d,m) ← raise (deallocuvm d sz newsz s.mem)
      .ok (resize r d m p s)
    else .ok s

def exitFile (p : Slot) (s : System) (i : Fin NOFILE) : Except Stop System :=
  match (s.task p).ofile i with
  | none => .ok s
  | some fd => (fdClose fd s).map fun s => setFd s p i none

def decr (n : ℕ) : ℕ := (n+(2^32-1))%2^32

def exitShm (p : Slot) (s : System) : System :=
  { s with
    shm := fun i => if (s.task p).shmpgs i then
      { s.shm i with refCount := decr (s.shm i).refCount } else s.shm i }

def exitTasks (p : Slot) (s : System) : System :=
  { s with
    task := fun q =>
      let t := if (s.task q).parent = some p then { s.task q with parent := some s.initproc }
        else s.task q
      if q = p then { t with state := .zombie } else t }

def exit (p : Slot) (s : System) : Except Stop System :=
  if p = s.initproc then .error (.panic "init exiting")
  else ((List.finRange NOFILE).foldlM (exitFile p) s).map fun s => exitTasks p (exitShm p s)

def zombieChild (p : Slot) (s : System) : Option Slot :=
  (List.finRange NPROC).find? fun q => (s.task q).parent = some p ∧ (s.task q).state = .zombie

def reap (q : Slot) (s : System) : Except Stop System :=
  match (s.task q).kstack with
  | none => .error (.panic "kfree")
  | some k => match (s.task q).pgdir with
    | none => .error (.panic "freevm: no pgdir")
    | some d => (raise (freevm d (kfree k s.mem))).map fun m =>
        { s with mem := m }.setTask q
          { s.task q with kstack := none, parent := none, state := .unused }

def wait (p : Slot) (s : System) : Except Stop System :=
  match zombieChild p s with
  | some q => reap q s
  | none =>
    if (List.finRange NPROC).any fun q => (s.task q).parent = some p then .error .disabled
    else .ok s

end Processes

section SharedMemory

def shminit (s : System) : System :=
  if s.shmReady then s else { s with shmReady := true, shm := fun _ => ⟨false,0,none,0⟩ }

def smash (p : Slot) (k : ShmId) (s : System) : Except Stop System :=
  if h : p.val+1 < NPROC then
    let q : Slot := ⟨p.val+1,h⟩
    if (s.task q).state ≠ .unused then .error .wild
    else if k.val = 3 then .ok (s.setTask q { s.task q with state := .junk })
    else if h : 10 ≤ k.val ∧ k.val < 26 then
      .ok (setFd s q ⟨k.val-10,show k.val-10 < 16 by omega⟩ (some .junk))
    else .ok s
  else .error .wild

def shmMap (p : Slot) (pa : Page) (s : System) : Except Stop System :=
  match (s.task p).pgdir with
  | none => .error .wild
  | some d => do
    let (_,d,m) ← raise (mappages true true 1 (pages (s.task p).sz) pa d s.mem)
    .ok ({ s with mem := m }.setTask p
      { s.task p with pgdir := some d, sz := (s.task p).sz+PGSIZE })

def setShm (s : System) (i : ShmId) (v : ShmPg) : System := { s with shm := update s.shm i v }

def shmAttach (p : Slot) (i : ShmId) (s : System) : Except Stop System :=
  match (s.shm i).pa with
  | none => .error .wild
  | some pa => do
    let s ← shmMap p pa s
    let s := setShm s i { s.shm i with refCount := ((s.shm i).refCount+1)%2^32 }
    .ok (s.setTask p { s.task p with shmpgs := update (s.task p).shmpgs i true })

def shmCreate (p : Slot) (name : ℕ) (k : ShmId) (s : System) : Except Stop System :=
  match kalloc s.mem with
  | (none,_) => .error .wild
  | (some pa,m) => shmMap p pa (setShm { s with mem := m } k ⟨true,name,some pa,1⟩) >>= smash p k

def shmget (p : Slot) (name : ℕ) (s : System) : Except Stop System :=
  if (s.task p).sz ≤ name ∨ name = 0 then .ok s
  else
    let s := shminit s
    match (List.finRange SHM_MAXNUM).find? fun i => (s.shm i).name = name with
    | some i => shmAttach p i s
    | none => match (List.finRange SHM_MAXNUM).find? fun i => (s.shm i).name = 0 with
      | some k => shmCreate p name k s
      | none => .ok s

def shmDrop (p : Slot) (i : ShmId) (s : System) : Except Stop System :=
  match (s.shm i).pa with
  | none => .error (.panic "kfree")
  | some pa => .ok ((setShm { s with mem := kfree pa s.mem } i ⟨false,0,none,0⟩).setTask p
      { s.task p with shmpgs := update (s.task p).shmpgs i false })

def shmremLoop (p : Slot) (name : ℕ) : List ShmId → System → Except Stop System
  | [], s => .ok s
  | i::is, s =>
    if (s.shm i).name = name then
      if decr (s.shm i).refCount = 0 then shmDrop p i s
      else shmremLoop p name is
        (setShm s i { s.shm i with refCount := decr (s.shm i).refCount })
    else shmremLoop p name is s

def shmrem (p : Slot) (name : ℕ) (s : System) : Except Stop System :=
  if (s.task p).sz ≤ name ∨ name = 0 then .ok s
  else shmremLoop p name (List.finRange SHM_MAXNUM) s

end SharedMemory

section Runs

inductive Call where
  | fork
  | exec (img : Image)
  | sbrk (n : ℤ)
  | exit
  | wait
  | pipe (arg : Bool)
  | close (i : Fin NOFILE)
  | dup (i : Fin NOFILE)
  | shmget (name : ℕ)
  | shmrem (name : ℕ)
  deriving DecidableEq, Repr

structure Act where
  proc : Slot
  call : Call
  deriving DecidableEq, Repr

def perform (L : Layout) (s : System) (p : Slot) : Call → Except Stop System
  | .fork => fork L p s
  | .exec img => exec L p img s
  | .sbrk n => growproc p n s
  | .exit => exit p s
  | .wait => wait p s
  | .pipe arg => sysPipe p arg s
  | .close i => sysClose p i s
  | .dup i => sysDup p i s
  | .shmget name => shmget p name s
  | .shmrem name => shmrem p name s

def step (L : Layout) (s : System) (a : Act) : Except Stop System :=
  if (s.task a.proc).state = .live then perform L s a.proc a.call else .error .disabled

def blankTask : Task :=
  { state := .unused
    parent := none
    sz := 0
    kstack := none
    pgdir := none
    ofile := fun _ => none
    shmpgs := fun _ => false }

def startothers : ℕ → Mem → Except Stop Mem
  | 0, m => .ok m
  | n+1, m => match kalloc m with
    | (none,_) => .error .wild
    | (some _,m) => startothers n m

def userinit (L : Layout) (kpgdir : Pgdir) (m : Mem) : Except Stop System :=
  match kalloc m with
  | (none,_) => .error .wild
  | (some kstack,m) => do
    match ← raise (setupkvm L m) with
    | (none,_) => .error (.panic "userinit: out of memory?")
    | (some d,m) => match kalloc m with
      | (none,_) => .error .wild
      | (some mem,m) =>
        let (_,d,m) ← raise (mappages true true 1 0 mem d m)
        .ok
          { mem := m
            kpgdir := kpgdir
            task := update (fun _ => blankTask) 0
              { blankTask with
                state := .live, sz := PGSIZE, kstack := some kstack, pgdir := some d }
            initproc := 0
            files := fun _ => ⟨0,.none⟩
            pipes := fun _ => ⟨false,false⟩
            shmReady := false
            shm := fun _ => ⟨false,0,none,0⟩ }

def boot (L : Layout) (refuse : ℕ → Bool) (first mid last : Page) (others : ℕ) :
    Except Stop System := do
  let m := freerange first mid ⟨[],refuse,0⟩
  match ← raise (setupkvm L m) with
  | (none,_) => .error .wild
  | (some kpgdir,m) =>
    let m ← startothers others m
    userinit L kpgdir (freerange mid last m)

end Runs

end Xv6.PageCalls
