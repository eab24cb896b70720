import Xv6.NullQueue
import Xv6.RingBuffer

/-!
# The kernel state of the process subsystem

The process table with its priority rings, the CPUs, the mutex table and the
global wait queue. Each slot has a kernel thread whose control point names the
section it runs next. A pointer to a process is its slot; `mux_ptrs[i]` is only
ever null or the address of mutex `i`, so it is kept as a flag. The last four
fields are histories; no section branches on them.
-/

set_option autoImplicit false

namespace Xv6.KernelState
open NullQueue RingBuffer

abbrev NPROC : ℕ := 64
abbrev PRIO_MAX : ℕ := 20
abbrev QSIZE : ℕ := 100
abbrev MUX_MAXNUM : ℕ := 20
abbrev WAITERS : ℕ := 1000
abbrev PGSIZE : BitVec 32 := 4096

abbrev Slot := Fin NPROC
abbrev MuxId := Fin MUX_MAXNUM
abbrev Prio := Fin PRIO_MAX

-- Named, so that a literal of these types is the same term in every module.
instance nproc_neZero : NeZero NPROC := ⟨by decide⟩
instance qsize_neZero : NeZero QSIZE := ⟨by decide⟩

inductive ProcState where
  | unused
  | embryo
  | sleeping
  | runnable
  | running
  | zombie
  deriving DecidableEq, Repr

inductive Chan where
  | proc (p : Slot)
  | addr (a : ℕ)
  deriving DecidableEq, Repr

structure Proc where
  sz : BitVec 32
  state : ProcState
  pid : ℤ
  parent : Option Slot
  chan : Option Chan
  killed : Bool
  eax : ℤ
  name : Fin 16 → UInt8
  muxPtrs : MuxId → Bool
  priority : BitVec 32

structure Mutex where
  name : BitVec 32
  state : ℤ
  cv : Queue Slot WAITERS

inductive Via where
  | mlock
  | waitcv
  deriving DecidableEq, Repr

inductive Pc where
  | absent
  | newborn
  | user
  | asleep
  | waitScan
  | waiting
  | exited
  | forkAlloc (np : Slot)
  | forkReady (np : Slot)
  | forkShare (np : Slot) (pid : ℤ)
  | forkPriority (np : Slot) (pid : ℤ)
  | mdeleteFree (m : MuxId)
  | mdeleteDrop (m : MuxId)
  | mlockTry (via : Via) (m : MuxId)
  | mlockSleep (via : Via) (m : MuxId)
  | mlockAsleep (via : Via) (m : MuxId)
  | munlockClear (m : MuxId)
  | munlockDequeue (m : MuxId)
  | munlockWake (m : MuxId) (q : Slot)
  | waitcvSleep (m : MuxId)
  | waitcvCheck (m : MuxId)
  | waitcvClear (m : MuxId)
  | waitcvDequeue (m : MuxId)
  | waitcvSched (m : MuxId)
  | waitcvAsleep (m : MuxId)
  | waitcvRelock (m : MuxId)
  | signalDequeue (m : MuxId)
  | signalWake (m : MuxId) (q : Slot)
  | testpqdqLoop (q : Option Slot) (count : ℕ)
  deriving DecidableEq, Repr

inductive Stage where
  | start
  | allocated (p : Slot)
  | published
  | done
  deriving DecidableEq, Repr

inductive Stop where
  | disabled
  | panic (message : String)
  | hang
  | wild
  deriving DecidableEq, Repr

structure Kernel (C : Type) where
  proc : Slot → Proc
  ring : Prio → Ring (Option Slot) QSIZE
  nextpid : ℤ
  initproc : Option Slot
  firstTime : Bool
  muxes : MuxId → Mutex
  wqueue : Queue Slot WAITERS
  cpu : C → Option Slot
  scan : C → Option ℕ
  bootCpu : C
  stage : Stage
  lock : Option Slot
  muxLock : Option Slot
  pc : Slot → Pc
  preempted : Slot → Bool
  holds : Slot → MuxId → Bool
  granted : Slot → MuxId → Bool
  joins : MuxId → List Slot
  signals : MuxId → List Slot

namespace Kernel
variable {C : Type} [DecidableEq C]

@[simps]
def setProc (s : Kernel C) (p : Slot) (r : Proc) : Kernel C :=
  { s with proc := fun q => if q = p then r else s.proc q }

@[simps]
def setRing (s : Kernel C) (k : Prio) (r : Ring (Option Slot) QSIZE) : Kernel C :=
  { s with ring := fun j => if j = k then r else s.ring j }

@[simps]
def setCpu (s : Kernel C) (c : C) (p : Option Slot) : Kernel C :=
  { s with cpu := fun d => if d = c then p else s.cpu d }

@[simps]
def setScan (s : Kernel C) (c : C) (i : Option ℕ) : Kernel C :=
  { s with scan := fun d => if d = c then i else s.scan d }

@[simps]
def setMux (s : Kernel C) (m : MuxId) (x : Mutex) : Kernel C :=
  { s with muxes := fun i => if i = m then x else s.muxes i }

@[simps]
def setWqueue (s : Kernel C) (q : Queue Slot WAITERS) : Kernel C := { s with wqueue := q }

@[simps]
def setLock (s : Kernel C) (l : Option Slot) : Kernel C := { s with lock := l }

@[simps]
def setMuxLock (s : Kernel C) (l : Option Slot) : Kernel C := { s with muxLock := l }

@[simps]
def setPc (s : Kernel C) (p : Slot) (k : Pc) : Kernel C :=
  { s with pc := fun q => if q = p then k else s.pc q }

@[simps]
def setPreempted (s : Kernel C) (p : Slot) (b : Bool) : Kernel C :=
  { s with preempted := fun q => if q = p then b else s.preempted q }

end Kernel
end Xv6.KernelState
