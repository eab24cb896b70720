import Xv6.ReadyQueue

/-!
# Sections of the process calls

The `ptable.lock` sections of `proc.c`, with the unlocked assignments between
them. A section that ends in `sched` hands its CPU back to the scheduler.
`dispatch` is the second half of a switch: it resumes a thread where it left
off, and is wild for a thread that never switched away.
-/

set_option autoImplicit false

namespace Xv6.ProcessCalls
open KernelState NullQueue ReadyQueue

variable {C : Type} [DecidableEq C]

def acquire (l : Option Slot) (p : Slot) : Except Stop Unit :=
  match l with
  | none => .ok ()
  | some q => if q = p then .error (.panic "acquire") else .error .disabled

def acquirePtable (s : Kernel C) (p : Slot) : Except Stop (Kernel C) := do
  acquire s.lock p
  .ok (s.setLock (some p))

def ret (s : Kernel C) (p : Slot) (v : ℤ) : Kernel C :=
  (s.setProc p { s.proc p with eax := v }).setPc p .user

def findSlot (f : Slot → Bool) : Option Slot := (List.finRange NPROC).find? f

def resumePc : Pc → Option Pc
  | .newborn => some .user
  | .asleep => some .user
  | .waiting => some .waitScan
  | .mlockAsleep via m => some (.mlockTry via m)
  | .waitcvAsleep m => some (.waitcvRelock m)
  | _ => none

def noContext (s : Kernel C) (p : Slot) : Stop :=
  if s.pc p = .exited then .panic "zombie exit"
  else if s.pc p = .absent ∧ (s.proc p).state = .unused then .panic "switchuvm: no kstack"
  else .wild

def switchTo (s : Kernel C) (c : C) (p : Slot) (ch : Option Chan) (k : Pc) (l : Option Slot) :
    Kernel C :=
  ((((s.setCpu c (some p)).setProc p { s.proc p with chan := ch, state := .running }).setPc p
    k).setPreempted p false).setLock l

def dispatch (s : Kernel C) (c : C) (p : Slot) : Except Stop (Kernel C) :=
  if s.preempted p then .ok (switchTo s c p (s.proc p).chan (s.pc p) none)
  else match resumePc (s.pc p) with
    | none => .error (noContext s p)
    | some k => .ok (switchTo s c p
        (if s.pc p = .asleep ∨ s.pc p = .waiting then none else (s.proc p).chan) k
        (if k = .waitScan then some p else none))

def scanFrom (s : Kernel C) (c : C) (i : ℕ) : Except Stop (Kernel C) :=
  match findSlot (fun q => decide (i ≤ q.val) && decide ((s.proc q).state = .runnable)) with
  | none => .ok ((s.setScan c none).setLock none)
  | some q => dispatch (s.setScan c (some (q.val+1))) c q

def sched (s : Kernel C) (c : C) (p : Slot) : Except Stop (Kernel C) :=
  if s.lock ≠ some p then .error (.panic "sched ptable.lock")
  else if s.muxLock = some p then .error (.panic "sched locks")
  else if (s.proc p).state = .running then .error (.panic "sched running")
  else match s.scan c with
    | none => .ok ((s.setCpu c none).setLock none)
    | some i => scanFrom (s.setCpu c none) c i

def scheduler (s : Kernel C) (c : C) : Except Stop (Kernel C) :=
  if s.lock ≠ none ∨ s.cpu c ≠ none ∨ (c = s.bootCpu ∧ s.stage ≠ .done) then .error .disabled
  else if s.firstTime then scanFrom { s with firstTime := false } c 0
  else match pqDequeue s with
    | (t,none) => .ok t
    | (_,some none) => .error (.panic "switchuvm: no process")
    | (t,some (some p)) => dispatch t c p

def yield (s : Kernel C) (c : C) (p : Slot) : Except Stop (Kernel C) :=
  if (s.proc p).state ≠ .running ∨ s.lock = some p then .error .disabled
  else do
    let s ← acquirePtable s p
    let s ← makeRunnable s p
    sched (s.setPreempted p true) c p

def sleepOn (s : Kernel C) (c : C) (p : Slot) (ch : Chan) (k : Pc) : Except Stop (Kernel C) :=
  sched ((s.setProc p { s.proc p with chan := some ch, state := .sleeping }).setPc p k) c p

def sleep (s : Kernel C) (c : C) (p : Slot) (ch : Chan) : Except Stop (Kernel C) := do
  let s ← acquirePtable s p
  sleepOn s c p ch .asleep

def wakeOne (ch : Option Chan) (s : Kernel C) (q : Slot) : Except Stop (Kernel C) :=
  if (s.proc q).state = .sleeping ∧ (s.proc q).chan = ch then makeRunnable s q else .ok s

def wakeup1 (s : Kernel C) (ch : Option Chan) : Except Stop (Kernel C) :=
  (List.finRange NPROC).foldlM (wakeOne ch) s

def wakeup (s : Kernel C) (ch : Chan) : Except Stop (Kernel C) :=
  if s.lock ≠ none then .error .disabled else wakeup1 s (some ch)

def markKilled (s : Kernel C) (q : Slot) : Except Stop (Kernel C) :=
  let t := s.setProc q { s.proc q with killed := true }
  if (s.proc q).state = .sleeping then makeRunnable t q else .ok t

def kill (s : Kernel C) (p : Slot) (pid : ℤ) : Except Stop (Kernel C) := do
  let s ← acquirePtable s p
  match findSlot (fun q => decide ((s.proc q).pid = pid)) with
  | none => .ok ((ret s p (-1)).setLock none)
  | some q => do
    let s ← markKilled s q
    .ok ((ret s p 0).setLock none)

def allocproc (s : Kernel C) : Option (Slot × Kernel C) :=
  (findSlot (fun q => decide ((s.proc q).state = .unused))).map (fun np =>
    (np,{ s.setProc np { s.proc np with state := .embryo, pid := s.nextpid } with
      nextpid := s.nextpid+1 }))

def fork (s : Kernel C) (p : Slot) : Except Stop (Kernel C) := do
  let s ← acquirePtable s p
  match allocproc s with
  | none => .ok ((ret s p (-1)).setLock none)
  | some (np,t) => .ok ((t.setPc p (.forkAlloc np)).setLock none)

def forkNoStack (s : Kernel C) (p np : Slot) : Except Stop (Kernel C) :=
  .ok (ret (setState s np .unused) p (-1))

def forkNoMem (s : Kernel C) (p np : Slot) : Except Stop (Kernel C) :=
  .ok (ret (s.setProc np
    { s.proc np with muxPtrs := fun _ => false, state := .unused }) p (-1))

def safestrcpy (dst src : Fin 16 → UInt8) : Fin 16 → UInt8 := fun i =>
  if i.val < 15 ∧ ∀ j < i, src j ≠ 0 then src i
  else if ∀ j : Fin 16, j.val+1 < i.val → src j ≠ 0 then 0
  else dst i

def forkCopy (s : Kernel C) (p np : Slot) : Except Stop (Kernel C) :=
  .ok ((s.setProc np { s.proc np with
    muxPtrs := fun _ => false
    sz := (s.proc p).sz
    parent := some p
    eax := 0
    name := safestrcpy (s.proc np).name (s.proc p).name }).setPc p (.forkReady np))

def forkPublish (s : Kernel C) (p np : Slot) : Except Stop (Kernel C) := do
  let s ← acquirePtable s p
  let s ← makeRunnable s np
  .ok (((s.setPc np .newborn).setPc p (.forkShare np (s.proc np).pid)).setLock none)

def forkShare (s : Kernel C) (p np : Slot) (pid : ℤ) : Except Stop (Kernel C) :=
  .ok ((s.setProc np { s.proc np with muxPtrs := (s.proc p).muxPtrs }).setPc p
    (.forkPriority np pid))

def forkPriority (s : Kernel C) (p np : Slot) (pid : ℤ) : Except Stop (Kernel C) :=
  .ok (ret (s.setProc np { s.proc np with priority := (s.proc p).priority }) p pid)

def reparentOne (p : Slot) (s : Kernel C) (q : Slot) : Except Stop (Kernel C) :=
  if (s.proc q).parent = some p then
    let t := s.setProc q { s.proc q with parent := s.initproc }
    if (t.proc q).state = .zombie then wakeup1 t (s.initproc.map .proc) else .ok t
  else .ok s

def dropMutex (p : Slot) (s : Kernel C) (m : MuxId) : Except Stop (Kernel C) :=
  if (s.proc p).muxPtrs m then
    if p ∈ list (s.muxes m).cv then .error .wild
    else .ok ((s.setMux m { s.muxes m with name := 0, state := 0 }).setProc p
      { s.proc p with muxPtrs := fun i => if i = m then false else (s.proc p).muxPtrs i })
  else .ok s

def forget (s : Kernel C) (p : Slot) : Kernel C :=
  { s with
    holds := fun q m => if q = p then false else s.holds q m
    granted := fun q m => if q = p then false else s.granted q m }

def exit (s : Kernel C) (c : C) (p : Slot) : Except Stop (Kernel C) :=
  if s.initproc = some p then .error (.panic "init exiting")
  else do
    let s ← acquirePtable s p
    let s ← wakeup1 s ((s.proc p).parent.map .proc)
    let s ← (List.finRange NPROC).foldlM (reparentOne p) s
    let s ← (List.finRange MUX_MAXNUM).foldlM (dropMutex p) s
    sched ((setState (forget s p) p .zombie).setPc p .exited) c p

def freeSlot (s : Kernel C) (q : Slot) : Kernel C :=
  (s.setProc q { s.proc q with
    pid := 0
    parent := none
    name := fun i => if i.val = 0 then 0 else (s.proc q).name i
    killed := false
    state := .unused }).setPc q .absent

def waitScan (s : Kernel C) (c : C) (p : Slot) : Except Stop (Kernel C) :=
  match findSlot (fun q => decide ((s.proc q).parent = some p) &&
      decide ((s.proc q).state = .zombie)) with
  | some q => .ok ((ret (freeSlot s q) p (s.proc q).pid).setLock none)
  | none =>
    if (findSlot (fun q => decide ((s.proc q).parent = some p))) = none ∨ (s.proc p).killed then
      .ok ((ret s p (-1)).setLock none)
    else sleepOn s c p (.proc p) .waiting

def wait (s : Kernel C) (c : C) (p : Slot) : Except Stop (Kernel C) := do
  let s ← acquirePtable s p
  waitScan s c p

def isAncestor (s : Kernel C) (p : Slot) : ℕ → Option Slot → Except Stop Bool
  | _, none => .error .wild
  | 0, some _ => .error .hang
  | n+1, some i =>
    if 1 < (s.proc i).pid then
      if i = p then .ok true else isAncestor s p n (s.proc i).parent
    else .ok false

def sysPrioSet (s : Kernel C) (p : Slot) (pid : ℤ) (priority : BitVec 32) :
    Except Stop (Kernel C) :=
  if (PRIO_MAX : ℤ) ≤ priority.toInt then .ok (ret s p (-1))
  else if priority < (s.proc p).priority then .ok (ret s p (-1))
  else if (s.proc p).pid = pid then
    .ok (ret (s.setProc p { s.proc p with priority := priority }) p 1)
  else do
    let s ← acquirePtable s p
    match findSlot (fun q => decide (q ≠ p) && decide ((s.proc q).pid = pid)) with
    | none => .ok ((ret s p (-1)).setLock none)
    | some q =>
      let found ← isAncestor s p (NPROC+1) (s.proc q).parent
      if found then
        .ok ((ret (s.setProc q { s.proc q with priority := priority }) p 1).setLock none)
      else .ok ((ret s p (-1)).setLock none)

def initcodeName : Fin 16 → UInt8 := fun i =>
  ([105, 110, 105, 116, 99, 111, 100, 101] : List UInt8).getD i.val 0

def userinitAlloc (s : Kernel C) : Except Stop (Kernel C) :=
  if s.stage ≠ .start ∨ s.lock ≠ none then .error .disabled
  else match allocproc s with
    | none => .error .wild
    | some (p,t) => .ok { t.setProc p { t.proc p with
          muxPtrs := fun _ => false
          sz := PGSIZE
          name := safestrcpy (t.proc p).name initcodeName } with
        initproc := some p
        stage := .allocated p }

def userinitPublish (s : Kernel C) : Except Stop (Kernel C) :=
  match s.stage with
  | .allocated p =>
    if s.lock ≠ none then .error .disabled
    else do
      let s := s.setProc p { s.proc p with priority := 0 }
      let s ← makeRunnable { s with ring := fun k => { s.ring k with head := 0, tail := 0 } } p
      .ok { s.setPc p .newborn with stage := .published }
  | _ => .error .disabled

def userinitMutexes (s : Kernel C) : Except Stop (Kernel C) :=
  if s.stage = .published then .ok { s with
    muxes := fun _ => { name := 0, state := -1, cv := empty }
    wqueue := empty
    muxLock := none
    stage := .done }
  else .error .disabled

end Xv6.ProcessCalls
