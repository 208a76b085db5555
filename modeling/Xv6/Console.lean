import Xv6.Kernel
import Xv6.Lib.Monitor

namespace Xv6.Console

abbrev INPUT_BUF_SIZE : Nat := 128

/-- `C(x)`: Control-x. -/
def ctrl (x : Char) : UInt8 := x.toUInt8 - '@'.toUInt8

def newline : UInt8 := '\n'.toUInt8
def eof : UInt8 := ctrl 'D'

/-- How a consoleread() ended: with all it asked for, after a newline, at a ^D that it consumed or
left for the next one, because its process was killed, or because copyout() failed. -/
inductive Ending where
  | full | newline | eof | kept | killed | fault
  deriving DecidableEq, Repr

/-- A consoleread() of `n` bytes that is over: what it delivered, and how many bytes all reads
had consumed by then. -/
structure Read where
  n : Int
  bytes : List UInt8
  how : Ending
  pos : Nat
  deriving DecidableEq, Repr

/-- What happened to the input: a key was handled, or a byte consumed. -/
inductive Event where
  | key (c : UInt8)
  | take
  deriving DecidableEq, Repr

/-- struct cons. The last four fields are ghost: what happened, the bytes delivered by all
reads, the number of bytes they consumed, and the reads that are over, the newest first. -/
structure Cons where
  buf : Nat → UInt8
  r : UInt32
  w : UInt32
  e : UInt32
  hist : List Event
  delivered : List UInt8
  taken : Nat
  reads : List Read

namespace Cons

/-- cons is zero at boot. -/
def init : Cons := ⟨fun _ => 0, 0, 0, 0, [], [], 0, []⟩

/-- The loop of ^U. It ends after at most e - w rounds, with e = w. -/
def killLine : Nat → Cons → Cons
  | 0, d => d
  | k + 1, d =>
    if d.e ≠ d.w ∧ d.buf ((d.e - 1).toNat % INPUT_BUF_SIZE) ≠ newline then
      killLine k { d with e := d.e - 1 }
    else d

/-- The default case: store the character, and commit the line if it is complete; then
wakeup(&cons.r) follows. -/
def store (c : UInt8) (d : Cons) : Bool × Cons :=
  if c ≠ 0 ∧ (d.e - d.r).toNat < INPUT_BUF_SIZE then
    let c := if c = '\r'.toUInt8 then newline else c
    let d := { d with buf := setAt d.buf (d.e.toNat % INPUT_BUF_SIZE) c, e := d.e + 1 }
    if c = newline ∨ c = eof ∨ (d.e - d.r).toNat = INPUT_BUF_SIZE then (true, { d with w := d.e })
    else (false, d)
  else (false, d)

/-- consoleintr()'s switch. Echoing to the uart and procdump() do not touch the buffer. -/
def edit (c : UInt8) (d : Cons) : Bool × Cons :=
  if c = ctrl 'P' then (false, d)
  else if c = ctrl 'U' then (false, killLine (d.e - d.w).toNat d)
  else if c = ctrl 'H' ∨ c = 0x7f then
    if d.e ≠ d.w then (false, { d with e := d.e - 1 }) else (false, d)
  else store c d

def intr (c : UInt8) (d : Cons) : Bool × Cons :=
  ((d.edit c).1, { (d.edit c).2 with hist := d.hist ++ [.key c] })

def logged (n : Int) (bytes : List UInt8) (how : Ending) (d : Cons) : Cons :=
  { d with reads := ⟨n, bytes, how, d.taken⟩ :: d.reads }

/-- consoleread() from `c = cons.buf[cons.r++ % INPUT_BUF_SIZE]` to the copyout(), which
succeeds or not; `bytes` have been delivered to the call before. -/
def next (ok : Bool) (n : Int) (bytes : List UInt8) (d : Cons) : UInt8 × Cons :=
  let c := d.buf (d.r.toNat % INPUT_BUF_SIZE)
  let d' := { d with r := d.r + 1 }
  if c = eof then
    if bytes.length > 0 then (c, logged n bytes .kept { d' with r := d'.r - 1 })
    else (c, logged n bytes .eof { d' with hist := d.hist ++ [.take], taken := d.taken + 1 })
  else
    (c, { d' with
      hist := d.hist ++ [.take]
      taken := d.taken + 1
      delivered := if ok then d.delivered ++ [c] else d.delivered })

end Cons

/-- The only channel: &cons.r. -/
abbrev State := Monitor Pid Unit Cons
abbrev ConsM := Prog Panic State

/-- A thread has returned, or it is at the head of consoleread()'s loops with cons.lock held.
`dst i` says that copyout() can write to dst + i; `bytes` are those it has delivered. -/
inductive Next where
  | user (result : Int)
  | reading (dst : Nat → Bool) (n : Int) (bytes : List UInt8)

/-- The end of consoleread(). -/
def readEnd (pr : Pid) (n : Int) (bytes : List UInt8) (how : Ending) (result : Int) :
    ConsM Next := do
  Monitor.releaseWith .release pr (Cons.logged n bytes how)
  return .user result

/-- One round of consoleread()'s loops. -/
def readRound (pr : Pid) (dst : Nat → Bool) (n : Int) (bytes : List UInt8) : ConsM Next := do
  if (bytes.length : Int) < n then
    if ← Monitor.read (fun d => d.r == d.w) then
      if ← Monitor.killedOf pr then readEnd pr n bytes .killed (-1)
      else
        Monitor.sleep .release .acquire pr ()
        return .reading dst n bytes
    else
      let c ← Monitor.onData (Cons.next (dst bytes.length) n bytes)
      if c = eof then
        Monitor.release .release pr
        return .user bytes.length
      else if dst bytes.length = false then readEnd pr n bytes .fault bytes.length
      else if c = newline then
        readEnd pr n (bytes ++ [c]) .newline (bytes.length + 1 : Nat)
      else return .reading dst n (bytes ++ [c])
  else readEnd pr n bytes .full bytes.length

def consoleread (pr : Pid) (dst : Nat → Bool) (n : Int) : ConsM Next := do
  Monitor.acquire .acquire pr
  return .reading dst n []

def consoleintr (pr : Pid) (c : UInt8) : ConsM Next := do
  Monitor.acquire .acquire pr
  let woke ← Monitor.onData (Cons.intr c)
  if woke then
    Monitor.wakeup ()
    Monitor.release .release pr
    return .user 0
  else
    Monitor.release .release pr
    return .user 0

/-- Handlers are threads of their own: they run with interrupts off and never sleep. -/
inductive Call where
  | read (dst : Nat → Bool) (n : Int)
  | intr (c : UInt8)
  | kill (j : Pid)

def calls : Calls Panic State Pid Next Call where
  prog pr
    | .read dst n => consoleread pr dst n
    | .intr c => consoleintr pr c
    | .kill j => do
      Monitor.kill j
      return .user 0
  onward pr
    | .user _ => none
    | .reading dst n bytes => some (readRound pr dst n bytes)
  may _ _ _ _ := true

abbrev Machine := Pool Panic State Pid Next
abbrev Action := PoolAction Pid Call

def step : Machine → Action → Option Machine := Pool.step calls

def boot : Machine := .start (.start .init) (.user 0)

/-- The line discipline as a user sees it: the bytes that reads have consumed, those that they
can still get, and the line that is being typed. -/
structure Editor where
  out : List UInt8
  committed : List UInt8
  line : List UInt8
  deriving DecidableEq, Repr

namespace Editor

def start : Editor := ⟨[], [], []⟩

/-- All that was ever committed. -/
def stream (ed : Editor) : List UInt8 := ed.out ++ ed.committed

/-- A character is appended to the line; a complete line is committed, and so is what fills the
buffer. -/
def append (c : UInt8) (ed : Editor) : Editor :=
  let line := ed.line ++ [c]
  if c = newline ∨ c = eof ∨ ed.committed.length + line.length = INPUT_BUF_SIZE then
    { ed with committed := ed.committed ++ line, line := [] }
  else { ed with line := line }

def key (c : UInt8) (ed : Editor) : Editor :=
  if c = ctrl 'P' ∨ c = 0 then ed
  else if c = ctrl 'U' then { ed with line := [] }
  else if c = ctrl 'H' ∨ c = 0x7f then { ed with line := ed.line.dropLast }
  else if ed.committed.length + ed.line.length < INPUT_BUF_SIZE then
    ed.append (if c = '\r'.toUInt8 then newline else c)
  else ed

def take (ed : Editor) : Editor :=
  { ed with out := ed.out ++ ed.committed.take 1, committed := ed.committed.drop 1 }

def on (ed : Editor) : Event → Editor
  | .key c => ed.key c
  | .take => ed.take

def replay (hist : List Event) : Editor := hist.foldl on start

end Editor
end Xv6.Console
