import Xv6.CounterQueue
import Xv6.TransitionRun
import Xv6.KernelState

/-!
# Pipes as byte streams

Any number of threads inside `pipewrite` and `piperead` of one pipe. Each of
their sections runs from an `acquire` of the pipe's lock to the next `release`
or `sleep`. The buffer is a queue between two 32-bit counters, so what is read
is what was written, in order, however often the counters wrap.
-/

set_option autoImplicit false

namespace Xv6.PipeStream
open Function CounterQueue TransitionRun
open KernelState (Stop)

abbrev PIPESIZE : ℕ := 512

structure Pipe where
  data : Fin PIPESIZE → UInt8
  nread : BitVec 32
  nwrite : BitVec 32
  readopen : Bool
  writeopen : Bool

namespace Pipe

def full (p : Pipe) : Bool := p.nwrite = p.nread+BitVec.ofNat 32 PIPESIZE

def put (p : Pipe) (b : UInt8) : Pipe :=
  { p with data := update p.data (place p.nwrite.toNat) b, nwrite := p.nwrite+1 }

def next (p : Pipe) : UInt8 := p.data (place p.nread.toNat)

def skip (p : Pipe) : Pipe := { p with nread := p.nread+1 }

end Pipe

def fill (addr : ℕ → UInt8) : ℕ → ℕ → Pipe → Pipe × List UInt8
  | 0, _, p => (p,[])
  | k+1, i, p =>
    if p.full then (p,[])
    else
      let (q,bs) := fill addr k (i+1) (p.put (addr i))
      (q,addr i::bs)

def drain : ℕ → Pipe → Pipe × List UInt8
  | 0, p => (p,[])
  | k+1, p =>
    if p.nread = p.nwrite then (p,[])
    else
      let (q,bs) := drain k p.skip
      (q,p.next::bs)

inductive Ending where
  | returned (v : ℤ)
  | asleep
  deriving DecidableEq, Repr

def pipewrite (addr : ℕ → UInt8) (killed : Bool) (n : ℤ) (i : ℕ) (p : Pipe) :
    Pipe × List UInt8 × Ending :=
  let (q,bs) := fill addr (n.toNat-i) i p
  if i+bs.length < n.toNat then
    (q,bs,if !q.readopen || killed then .returned (-1) else .asleep)
  else (q,bs,.returned n)

def piperead (killed : Bool) (n : ℤ) (p : Pipe) : Pipe × List UInt8 × Ending :=
  if p.nread = p.nwrite ∧ p.writeopen then (p,[],if killed then .returned (-1) else .asleep)
  else
    let (q,bs) := drain n.toNat p
    (q,bs,.returned bs.length)

section Buffer

end Buffer

section Stream
variable {T : Type} [DecidableEq T]

inductive Pc where
  | outside
  | writing (n : ℤ) (i : ℕ)
  | reading (n : ℤ)
  deriving DecidableEq, Repr

structure Stream (T : Type) where
  pipe : Pipe
  pc : T → Pc
  stored : List UInt8
  returned : List UInt8

inductive Act (T : Type) where
  | write (t : T) (n : ℤ) (addr : ℕ → UInt8) (killed : Bool)
  | rewrite (t : T) (addr : ℕ → UInt8) (killed : Bool)
  | read (t : T) (n : ℤ) (killed : Bool)
  | reread (t : T) (killed : Bool)
  | close (writable : Bool)

def writing (s : Stream T) (t : T) (n : ℤ) (i : ℕ) (addr : ℕ → UInt8) (killed : Bool) : Stream T :=
  let (p,bs,e) := pipewrite addr killed n i s.pipe
  { s with
    pipe := p
    stored := s.stored ++ bs
    pc := update s.pc t (if e = .asleep then .writing n (i+bs.length) else .outside) }

def reading (s : Stream T) (t : T) (n : ℤ) (killed : Bool) : Stream T :=
  let (p,bs,e) := piperead killed n s.pipe
  { s with
    pipe := p
    returned := s.returned ++ bs
    pc := update s.pc t (if e = .asleep then .reading n else .outside) }

def closeEnd (p : Pipe) (writable : Bool) : Pipe :=
  if writable then { p with writeopen := false } else { p with readopen := false }

def step (s : Stream T) : Act T → Except Stop (Stream T)
  | .write t n addr killed =>
    if s.pc t = .outside then .ok (writing s t n 0 addr killed) else .error .disabled
  | .rewrite t addr killed => match s.pc t with
    | .writing n i => .ok (writing s t n i addr killed)
    | _ => .error .disabled
  | .read t n killed =>
    if s.pc t = .outside then .ok (reading s t n killed) else .error .disabled
  | .reread t killed => match s.pc t with
    | .reading n => .ok (reading s t n killed)
    | _ => .error .disabled
  | .close writable => .ok { s with pipe := closeEnd s.pipe writable }

def pipealloc (data : Fin PIPESIZE → UInt8) : Stream T :=
  { pipe := ⟨data,0,0,true,true⟩, pc := fun _ => .outside, stored := [], returned := [] }

variable {s s' : Stream T}

end Stream

end Xv6.PipeStream
