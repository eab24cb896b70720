import Xv6.MutexCalls

/-!
# The kernel as a state machine

One action for each section that runs without another CPU in between, enabled
when the thread on its CPU stands at that section. `resume` is no section of the
kernel: it is the environment waking a blocked thread for no reason, and only
some results allow it.
-/

set_option autoImplicit false

namespace Xv6.Machine
open KernelState NullQueue ProcessCalls MutexCalls

inductive Act (C : Type) where
  | userinitAlloc
  | userinitPublish
  | userinitMutexes
  | schedule (c : C)
  | resume (c : C) (p : Slot)
  | wakeup (ch : Chan)
  | yield (c : C)
  | sleep (c : C) (ch : Chan)
  | kill (c : C) (pid : ℤ)
  | exit (c : C)
  | wait (c : C)
  | waitScan (c : C)
  | fork (c : C)
  | forkNoStack (c : C)
  | forkNoMem (c : C)
  | forkCopy (c : C)
  | forkPublish (c : C)
  | forkShare (c : C)
  | forkPriority (c : C)
  | prioSet (c : C) (pid : ℤ) (priority : BitVec 32)
  | mcreate (c : C) (name junk : BitVec 32)
  | mdelete (c : C) (id : ℤ)
  | mdeleteFree (c : C)
  | mdeleteDrop (c : C)
  | mlock (c : C) (id : ℤ)
  | mlockTry (c : C)
  | mlockSleep (c : C)
  | munlock (c : C) (id : ℤ)
  | munlockClear (c : C)
  | munlockDequeue (c : C)
  | munlockWake (c : C)
  | waitcv (c : C) (id : ℤ)
  | waitcvSleep (c : C)
  | waitcvCheck (c : C)
  | waitcvClear (c : C)
  | waitcvDequeue (c : C)
  | waitcvSched (c : C)
  | waitcvRelock (c : C)
  | signalcv (c : C) (id : ℤ)
  | signalDequeue (c : C)
  | signalWake (c : C)
  | testpqeq (c : C)
  | testpqdq (c : C)
  | testpqdqNext (c : C)
  deriving DecidableEq, Repr

variable {C : Type} [DecidableEq C]

def onCpu (s : Kernel C) (c : C) (f : Slot → Except Stop (Kernel C)) : Except Stop (Kernel C) :=
  match s.cpu c with
  | none => .error .disabled
  | some p => f p

def call (s : Kernel C) (c : C) (f : Slot → Except Stop (Kernel C)) : Except Stop (Kernel C) :=
  onCpu s c (fun p => if s.pc p = .user then f p else .error .disabled)

def muxCall (s : Kernel C) (c : C) (id : ℤ) (f : Slot → MuxId → Except Stop (Kernel C)) :
    Except Stop (Kernel C) :=
  call s c (fun p => match muxIndex id with
    | none => .error .wild
    | some m => f p m)

def blocked (s : Kernel C) (p : Slot) : Prop :=
  s.preempted p = true ∨ resumePc (s.pc p) ≠ none

instance (s : Kernel C) (p : Slot) : Decidable (blocked s p) :=
  inferInstanceAs (Decidable (_ ∨ _))

def resume (s : Kernel C) (c : C) (p : Slot) : Except Stop (Kernel C) :=
  if s.lock = none ∧ s.cpu c = none ∧ blocked s p then dispatch s c p else .error .disabled

def step (s : Kernel C) : Act C → Except Stop (Kernel C)
  | .userinitAlloc => userinitAlloc s
  | .userinitPublish => userinitPublish s
  | .userinitMutexes => userinitMutexes s
  | .schedule c => scheduler s c
  | .resume c p => resume s c p
  | .wakeup ch => wakeup s ch
  | .yield c => onCpu s c (fun p => yield s c p)
  | .sleep c ch => call s c (fun p => sleep s c p ch)
  | .kill c pid => call s c (fun p => kill s p pid)
  | .exit c => call s c (fun p => exit s c p)
  | .wait c => call s c (fun p => wait s c p)
  | .waitScan c => onCpu s c (fun p => match s.pc p with
      | .waitScan => waitScan s c p
      | _ => .error .disabled)
  | .fork c => call s c (fun p => fork s p)
  | .forkNoStack c => onCpu s c (fun p => match s.pc p with
      | .forkAlloc np => forkNoStack s p np
      | _ => .error .disabled)
  | .forkNoMem c => onCpu s c (fun p => match s.pc p with
      | .forkAlloc np => forkNoMem s p np
      | _ => .error .disabled)
  | .forkCopy c => onCpu s c (fun p => match s.pc p with
      | .forkAlloc np => forkCopy s p np
      | _ => .error .disabled)
  | .forkPublish c => onCpu s c (fun p => match s.pc p with
      | .forkReady np => forkPublish s p np
      | _ => .error .disabled)
  | .forkShare c => onCpu s c (fun p => match s.pc p with
      | .forkShare np pid => forkShare s p np pid
      | _ => .error .disabled)
  | .forkPriority c => onCpu s c (fun p => match s.pc p with
      | .forkPriority np pid => forkPriority s p np pid
      | _ => .error .disabled)
  | .prioSet c pid priority => call s c (fun p => sysPrioSet s p pid priority)
  | .mcreate c name junk => call s c (fun p => sysMcreate s p name junk)
  | .mdelete c id => call s c (fun p => sysMdelete s p id)
  | .mdeleteFree c => onCpu s c (fun p => match s.pc p with
      | .mdeleteFree m => mdeleteFree s p m
      | _ => .error .disabled)
  | .mdeleteDrop c => onCpu s c (fun p => match s.pc p with
      | .mdeleteDrop m => mdeleteDrop s p m
      | _ => .error .disabled)
  | .mlock c id => muxCall s c id (fun p m => sysMlock s p .mlock m)
  | .mlockTry c => onCpu s c (fun p => match s.pc p with
      | .mlockTry via m => mlockTry s p via m
      | _ => .error .disabled)
  | .mlockSleep c => onCpu s c (fun p => match s.pc p with
      | .mlockSleep via m => mlockSleep s c p via m
      | _ => .error .disabled)
  | .munlock c id => muxCall s c id (fun p m => sysMunlock s p m (.munlockClear m))
  | .munlockClear c => onCpu s c (fun p => match s.pc p with
      | .munlockClear m => munlockClear s p m (.munlockDequeue m)
      | _ => .error .disabled)
  | .munlockDequeue c => onCpu s c (fun p => match s.pc p with
      | .munlockDequeue m => munlockDequeue s p m
      | _ => .error .disabled)
  | .munlockWake c => onCpu s c (fun p => match s.pc p with
      | .munlockWake _ q => wakeSleeper s p q
      | _ => .error .disabled)
  | .waitcv c id => muxCall s c id (fun p m => sysWaitcv s p m)
  | .waitcvSleep c => onCpu s c (fun p => match s.pc p with
      | .waitcvSleep m => waitcvSleep s p m
      | _ => .error .disabled)
  | .waitcvCheck c => onCpu s c (fun p => match s.pc p with
      | .waitcvCheck m => sysMunlock s p m (.waitcvClear m)
      | _ => .error .disabled)
  | .waitcvClear c => onCpu s c (fun p => match s.pc p with
      | .waitcvClear m => munlockClear s p m (.waitcvDequeue m)
      | _ => .error .disabled)
  | .waitcvDequeue c => onCpu s c (fun p => match s.pc p with
      | .waitcvDequeue m => waitcvDequeue s p m
      | _ => .error .disabled)
  | .waitcvSched c => onCpu s c (fun p => match s.pc p with
      | .waitcvSched m => waitcvSched s c p m
      | _ => .error .disabled)
  | .waitcvRelock c => onCpu s c (fun p => match s.pc p with
      | .waitcvRelock m => sysMlock s p .waitcv m
      | _ => .error .disabled)
  | .signalcv c id => muxCall s c id (fun p m => sysSignalcv s p m)
  | .signalDequeue c => onCpu s c (fun p => match s.pc p with
      | .signalDequeue m => signalDequeue s p m
      | _ => .error .disabled)
  | .signalWake c => onCpu s c (fun p => match s.pc p with
      | .signalWake _ q => wakeSleeper s p q
      | _ => .error .disabled)
  | .testpqeq c => call s c (fun p => sysTestpqeq s p)
  | .testpqdq c => call s c (fun p => testpqdqTake s p 0)
  | .testpqdqNext c => onCpu s c (fun p => match s.pc p with
      | .testpqdqLoop e count => testpqdqNext s p e count
      | _ => .error .disabled)

def isProcessCall : Act C → Bool
  | .schedule _ | .wakeup _ | .yield _ | .sleep _ _ | .kill _ _ | .exit _ | .wait _ | .waitScan _
  | .fork _ | .forkNoStack _ | .forkNoMem _ | .forkCopy _ | .forkPublish _ | .forkShare _
  | .forkPriority _ => true
  | _ => false

def isKernelCall : Act C → Bool
  | .userinitAlloc | .userinitPublish | .userinitMutexes => false
  | _ => true

def zeroProc : Proc :=
  { sz := 0, state := .unused, pid := 0, parent := none, chan := none, killed := false,
    eax := 0, name := fun _ => 0, muxPtrs := fun _ => false, priority := 0 }

def boot (c : C) : Kernel C :=
  { proc := fun _ => zeroProc
    ring := fun _ => { head := 0, tail := 0, buf := fun _ => none }
    nextpid := 1
    initproc := none
    firstTime := true
    muxes := fun _ => { name := 0, state := 0, cv := empty }
    wqueue := empty
    cpu := fun _ => none
    scan := fun _ => none
    bootCpu := c
    stage := .start
    lock := none
    muxLock := none
    pc := fun _ => .absent
    preempted := fun _ => false
    holds := fun _ _ => false
    granted := fun _ _ => false
    joins := fun _ => []
    signals := fun _ => [] }

def solo (c : C) : Kernel C :=
  { boot c with
    proc := fun p => if p = 0 then
      { zeroProc with state := .running, pid := 1, sz := PGSIZE, name := initcodeName }
        else zeroProc
    nextpid := 2
    initproc := some 0
    firstTime := false
    stage := .done
    cpu := fun d => if d = c then some 0 else none
    pc := fun p => if p = 0 then .user else .absent }

def crew : Kernel (Fin 3) :=
  { boot 0 with
    proc := fun p => if p.val < 3 then
      { zeroProc with state := .running, pid := p.val+1, muxPtrs := fun _ => true } else zeroProc
    nextpid := 4
    initproc := some 0
    firstTime := false
    stage := .done
    cpu := fun c => some (Fin.castLE (by decide) c)
    pc := fun p => if p.val < 3 then .user else .absent }

def startup : List (Act (Fin 2)) :=
  [.schedule 1, .userinitAlloc, .userinitPublish, .userinitMutexes, .schedule 0]

def forkOn (c : C) : List (Act C) :=
  [.fork c, .forkCopy c, .forkPublish c, .forkShare c, .forkPriority c]

end Xv6.Machine
