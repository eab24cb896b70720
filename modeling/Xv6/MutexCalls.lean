import Xv6.ProcessCalls

/-!
# Sections of the mutex and condition variable calls

The synchronisation calls of `sysproc.c`, cut at their critical sections. A
mutex id is the unchecked `int` argument: outside the table it indexes past
`mux_ptrs`. `sys_waitcv` keeps `ptable.lock` across the nested `sys_munlock`.
-/

set_option autoImplicit false

namespace Xv6.MutexCalls
open KernelState NullQueue ReadyQueue ProcessCalls

variable {C : Type} [DecidableEq C]

def muxIndex (id : ℤ) : Option MuxId :=
  if h : 0 ≤ id ∧ id < MUX_MAXNUM then some ⟨id.toNat,by omega⟩ else none

def argptrOk (sz addr : BitVec 32) : Bool := !decide (sz ≤ addr) && !decide (sz < addr+1)

def createMux (s : Kernel C) (p : Slot) (m : MuxId) (addr : BitVec 32) : Kernel C :=
  { (s.setMux m { s.muxes m with name := addr, state := 0 }).setProc p
      { s.proc p with muxPtrs := fun i => if i = m then true else (s.proc p).muxPtrs i } with
    holds := fun q i => if i = m then false else s.holds q i }

def mcreateName (s : Kernel C) (p : Slot) (name junk : BitVec 32) : BitVec 32 :=
  if argptrOk (s.proc p).sz name then name else junk

def sysMcreate (s : Kernel C) (p : Slot) (name junk : BitVec 32) : Except Stop (Kernel C) := do
  acquire s.muxLock p
  match (List.finRange MUX_MAXNUM).find? (fun m => decide ((s.muxes m).name = 0)) with
  | none => .ok (ret s p (-1))
  | some m => .ok (ret (createMux s p m (mcreateName s p name junk)) p m.val)

def sysMdelete (s : Kernel C) (p : Slot) (id : ℤ) : Except Stop (Kernel C) :=
  match muxIndex id with
  | none => .error .wild
  | some m =>
    if !(s.proc p).muxPtrs m then .ok (ret s p 0)
    else match findSlot (fun q => decide (q ≠ p) && (s.proc q).muxPtrs m) with
      | some _ => .ok (s.setPc p (.mdeleteDrop m))
      | none => .ok (s.setPc p (.mdeleteFree m))

def freeMux (s : Kernel C) (m : MuxId) : Kernel C :=
  { s.setMux m { s.muxes m with name := 0, state := -1 } with
    holds := fun q i => if i = m then false else s.holds q i }

def mdeleteFree (s : Kernel C) (p : Slot) (m : MuxId) : Except Stop (Kernel C) := do
  acquire s.muxLock p
  if !(s.proc p).muxPtrs m then .error .wild
  else .ok ((freeMux s m).setPc p (.mdeleteDrop m))

def mdeleteDrop (s : Kernel C) (p : Slot) (m : MuxId) : Except Stop (Kernel C) :=
  .ok (ret (s.setProc p { s.proc p with
    muxPtrs := fun i => if i = m then false else (s.proc p).muxPtrs i }) p 1)

def sysMlock (s : Kernel C) (p : Slot) (via : Via) (m : MuxId) : Except Stop (Kernel C) :=
  if (s.proc p).muxPtrs m then .ok (s.setPc p (.mlockTry via m)) else .ok (ret s p 0)

def take (s : Kernel C) (p : Slot) (m : MuxId) : Kernel C :=
  { s.setMux m { s.muxes m with state := 1 } with
    holds := fun q i => if q = p ∧ i = m then true else s.holds q i
    granted := fun q i => if q = p ∧ i = m then true else s.granted q i }

def mlockTry (s : Kernel C) (p : Slot) (via : Via) (m : MuxId) : Except Stop (Kernel C) := do
  acquire s.muxLock p
  if !(s.proc p).muxPtrs m then .error .wild
  else if (s.muxes m).state = 1 then
    match enroll s.wqueue p with
    | none => .ok ((ret s p 0).setMuxLock (some p))
    | some q => .ok ((s.setWqueue q).setPc p (.mlockSleep via m))
  else .ok (ret (take s p m) p 1)

def mlockSleep (s : Kernel C) (c : C) (p : Slot) (via : Via) (m : MuxId) :
    Except Stop (Kernel C) := do
  let s ← acquirePtable s p
  sched ((setState s p .sleeping).setPc p (.mlockAsleep via m)) c p

def sysMunlock (s : Kernel C) (p : Slot) (m : MuxId) (k : Pc) : Except Stop (Kernel C) :=
  if !(s.proc p).muxPtrs m ∨ (s.muxes m).state ≠ 1 then .ok (ret s p 0)
  else .ok (s.setPc p k)

def clear (s : Kernel C) (p : Slot) (m : MuxId) : Kernel C :=
  { s.setMux m { s.muxes m with state := 0 } with
    holds := fun q i => if i = m then false else s.holds q i
    granted := fun q i => if q = p ∧ i = m then false else s.granted q i }

def munlockClear (s : Kernel C) (p : Slot) (m : MuxId) (k : Pc) : Except Stop (Kernel C) := do
  acquire s.muxLock p
  if !(s.proc p).muxPtrs m then .error .wild
  else .ok ((clear s p m).setPc p k)

def munlockDequeue (s : Kernel C) (p : Slot) (m : MuxId) : Except Stop (Kernel C) :=
  match front s.wqueue with
  | none => .ok (ret s p 1)
  | some q => .ok ((s.setWqueue (shift s.wqueue)).setPc p (.munlockWake m q))

def wakeSleeper (s : Kernel C) (p q : Slot) : Except Stop (Kernel C) := do
  let s ← acquirePtable s p
  let s ← makeRunnable s q
  .ok ((ret s p 1).setLock none)

def joinCv (s : Kernel C) (p : Slot) (m : MuxId) (q : Queue Slot WAITERS) : Kernel C :=
  { s.setMux m { s.muxes m with cv := q } with
    joins := fun i => if i = m then s.joins i ++ entrant (s.muxes m).cv p else s.joins i }

def sysWaitcv (s : Kernel C) (p : Slot) (m : MuxId) : Except Stop (Kernel C) := do
  acquire s.muxLock p
  if !(s.proc p).muxPtrs m then .error .wild
  else match enroll (s.muxes m).cv p with
    | none => .ok (ret s p 0)
    | some q => .ok ((joinCv s p m q).setPc p (.waitcvSleep m))

def waitcvSleep (s : Kernel C) (p : Slot) (m : MuxId) : Except Stop (Kernel C) := do
  let s ← acquirePtable s p
  .ok ((setState s p .sleeping).setPc p (.waitcvCheck m))

def waitcvDequeue (s : Kernel C) (p : Slot) (m : MuxId) : Except Stop (Kernel C) :=
  match front s.wqueue with
  | none => .ok (s.setPc p (.waitcvSched m))
  | some _ => .error (.panic "acquire")

def waitcvSched (s : Kernel C) (c : C) (p : Slot) (m : MuxId) : Except Stop (Kernel C) :=
  sched (s.setPc p (.waitcvAsleep m)) c p

def sysSignalcv (s : Kernel C) (p : Slot) (m : MuxId) : Except Stop (Kernel C) :=
  if !(s.proc p).muxPtrs m ∨ (s.muxes m).state ≠ 1 then .ok (ret s p 0)
  else .ok (s.setPc p (.signalDequeue m))

def leaveCv (s : Kernel C) (m : MuxId) (q : Slot) : Kernel C :=
  { s.setMux m { s.muxes m with cv := shift (s.muxes m).cv } with
    signals := fun i => if i = m then s.signals i ++ [q] else s.signals i }

def signalDequeue (s : Kernel C) (p : Slot) (m : MuxId) : Except Stop (Kernel C) := do
  acquire s.muxLock p
  if !(s.proc p).muxPtrs m then .error .wild
  else match front (s.muxes m).cv with
    | none => .ok (ret s p 0)
    | some q => .ok ((leaveCv s m q).setPc p (.signalWake m q))

def priorityName (r : Proc) : Fin 16 → UInt8 := fun i =>
  if i = 0 then UInt8.ofNat (r.priority+47).toNat else if i = 1 then 0 else r.name i

def sysTestpqeq (s : Kernel C) (p : Slot) : Except Stop (Kernel C) := do
  let s ← acquirePtable s p
  let (s,_) ← pqEnqueue (s.setProc p { s.proc p with name := priorityName (s.proc p) }) p
  .ok ((ret s p (s.proc p).eax).setLock none)

def testpqdqTake (s : Kernel C) (p : Slot) (count : ℕ) : Except Stop (Kernel C) :=
  match pqDequeue s with
  | (t,some e) => .ok (t.setPc p (.testpqdqLoop e count))
  | (t,none) => .ok (t.setPc p (.testpqdqLoop none count))

def testpqdqNext (s : Kernel C) (p : Slot) (e : Option Slot) (count : ℕ) :
    Except Stop (Kernel C) :=
  if 3 ≤ count then .ok (ret s p (s.proc p).eax)
  else match e with
    | none => .error .wild
    | some q =>
      let n := (s.proc q).name 0
      testpqdqTake s p (if n = 49 ∨ n = 50 ∨ n = 51 then count+1 else count)

end Xv6.MutexCalls
