import Xv6.Kernel
import Xv6.Lib.Monitor

namespace Xv6.Pipe

abbrev PIPESIZE : Nat := 512

/-- &pi->nread and &pi->nwrite as channels. -/
inductive Chan where
  | nread | nwrite
  deriving DecidableEq

/-- struct pipe. The last four fields are ghost: the bytes put into the ring and those taken out
of it since pipealloc(), those of the latter that reached the reader's memory, and whether a
pipewrite() ever gave up with bytes in the ring that it had not announced by wakeup(). -/
structure Pipe where
  data : Nat → UInt8
  nread : UInt32
  nwrite : UInt32
  readopen : Bool
  writeopen : Bool
  accepted : List UInt8
  taken : List UInt8
  delivered : List UInt8
  missed : Bool

/-- pipealloc(); the page that kalloc() gave it has any content. -/
def pipealloc (junk : Nat → UInt8) : Pipe := ⟨junk, 0, 0, true, true, [], [], [], false⟩

namespace Pipe

def empty (d : Pipe) : Bool := d.nread == d.nwrite
def full (d : Pipe) : Bool := d.nwrite == d.nread + UInt32.ofNat PIPESIZE

/-- pi->data[pi->nwrite++ % PIPESIZE] = ch. -/
def put (ch : UInt8) (d : Pipe) : Pipe :=
  { d with
    data := setAt d.data (d.nwrite.toNat % PIPESIZE) ch
    nwrite := d.nwrite + 1
    accepted := d.accepted ++ [ch] }

/-- ch = pi->data[pi->nread++ % PIPESIZE] and copyout(), which succeeds or not. -/
def take (ok : Bool) (d : Pipe) : Pipe :=
  let ch := d.data (d.nread.toNat % PIPESIZE)
  { d with
    nread := d.nread + 1
    taken := d.taken ++ [ch]
    delivered := if ok then d.delivered ++ [ch] else d.delivered }

def close (writable : Bool) (d : Pipe) : Pipe :=
  if writable then { d with writeopen := false } else { d with readopen := false }

end Pipe

abbrev State := Monitor Pid Chan Pipe
abbrev PipeM := Prog Panic State

/-- What a process does next: it has returned, or it is at the head of one of the loops, with
pi->lock held. `src i` is the byte at addr + i, if copyin() can read it, and `dst i` says that
copyout() can write there; `unsaid` is ghost: bytes were put since the last wakeup(). -/
inductive Next where
  | user (result : Int)
  | writing (src : Nat → Option UInt8) (n : Int) (i : Nat) (unsaid : Bool)
  | waiting (dst : Nat → Bool) (n : Int)
  | reading (dst : Nat → Bool) (n : Int) (i : Nat)

def acquire (pr : Pid) : PipeM Unit := Monitor.acquire .acquire pr
def release (pr : Pid) : PipeM Unit := Monitor.release .release pr
def sleep (pr : Pid) (ch : Chan) : PipeM Unit := Monitor.sleep .release .acquire pr ch

/-- After pipewrite()'s loop. -/
def writeEnd (pr : Pid) (i : Nat) : PipeM Next := do
  Monitor.wakeup .nread
  release pr
  return .user i

/-- pipewrite() returns -1. -/
def writeFail (pr : Pid) (unsaid : Bool) : PipeM Next := do
  Monitor.releaseWith .release pr (fun d => { d with missed := d.missed || unsaid })
  return .user (-1)

/-- pi->readopen == 0 || killed(pr). -/
def writeStops (pr : Pid) : PipeM Bool := do
  if !(← Monitor.read Pipe.readopen) then return true
  else Monitor.killedOf pr

/-- One round of pipewrite()'s loop. -/
def writeRound (pr : Pid) (src : Nat → Option UInt8) (n : Int) (i : Nat) (unsaid : Bool) :
    PipeM Next := do
  if (i : Int) < n then
    if ← writeStops pr then writeFail pr unsaid
    else if ← Monitor.read Pipe.full then
      Monitor.wakeup .nread
      sleep pr .nwrite
      return .writing src n i false
    else
      match src i with
      | none => writeEnd pr i
      | some ch =>
        Monitor.write (Pipe.put ch)
        return .writing src n (i + 1) true
  else writeEnd pr i

def pipewrite (pr : Pid) (src : Nat → Option UInt8) (n : Int) : PipeM Next := do
  acquire pr
  return .writing src n 0 false

/-- After piperead()'s loops. -/
def readEnd (pr : Pid) (i : Nat) : PipeM Next := do
  Monitor.wakeup .nwrite
  release pr
  return .user i

/-- One round of piperead()'s first loop. -/
def waitRound (pr : Pid) (dst : Nat → Bool) (n : Int) : PipeM Next := do
  if ← Monitor.read (fun d => d.empty && d.writeopen) then
    if ← Monitor.killedOf pr then
      release pr
      return .user (-1)
    else
      sleep pr .nread
      return .waiting dst n
  else return .reading dst n 0

/-- One round of its second loop. -/
def readRound (pr : Pid) (dst : Nat → Bool) (n : Int) (i : Nat) : PipeM Next := do
  if (i : Int) < n then
    if ← Monitor.read Pipe.empty then readEnd pr i
    else
      Monitor.write (Pipe.take (dst i))
      if dst i then return .reading dst n (i + 1)
      else readEnd pr i
  else readEnd pr i

def piperead (pr : Pid) (dst : Nat → Bool) (n : Int) : PipeM Next := do
  acquire pr
  return .waiting dst n

/-- pipeclose(). With both ends closed the page is freed: nobody has the pipe any more. -/
def pipeclose (pr : Pid) (writable : Bool) : PipeM Next := do
  acquire pr
  Monitor.write (Pipe.close writable)
  Monitor.wakeup (if writable then .nread else .nwrite)
  release pr
  return .user 0

inductive Call where
  | write (src : Nat → Option UInt8) (n : Int)
  | read (dst : Nat → Bool) (n : Int)
  | close (writable : Bool)
  | kill (j : Pid)

/-- A process uses an end of the pipe only while it is open. -/
def calls : Calls Panic State Pid Next Call where
  prog pr
    | .write src n => pipewrite pr src n
    | .read dst n => piperead pr dst n
    | .close writable => pipeclose pr writable
    | .kill j => do
      Monitor.kill j
      return .user 0
  onward pr
    | .user _ => none
    | .writing src n i unsaid => some (writeRound pr src n i unsaid)
    | .waiting dst n => some (waitRound pr dst n)
    | .reading dst n i => some (readRound pr dst n i)
  may _ _ c s :=
    match c with
    | .write _ _ => s.data.writeopen
    | .read _ _ => s.data.readopen
    | .close writable => if writable then s.data.writeopen else s.data.readopen
    | .kill _ => true

abbrev Machine := Pool Panic State Pid Next
abbrev Action := PoolAction Pid Call

def step : Machine → Action → Option Machine := Pool.step calls

def boot (junk : Nat → UInt8) : Machine := .start (.start (pipealloc junk)) (.user 0)

end Xv6.Pipe
