import Xv6.UserSpace
import Xv6.Store
import Xv6.Sched
import Xv6.Pipe
import Xv6.Console

namespace Xv6.UserCalls
open Sched (ProcState)

/- The system calls that hand results to the caller's memory: fstat, getprocs, wait, pipe and
read. -/

/-- A row of the process table, as far as these calls read it. -/
structure Row where
  state : ProcState
  pid : Int32
  parent : Option ProcId
  killed : Bool
  xstate : Int32
  sz : UInt64
  name : ByteArr 16

/-- Kernel memory apart from the stacks. `pipeOf` is f->pipe, `pages` the number of free pages
and `junk` what the next one holds. -/
structure Kernel where
  fs : Fs
  row : ProcId → Row
  ticks : UInt32
  pipeOf : FilePtr → Nat
  pipe : Nat → Pipe.Pipe
  pages : Nat
  junk : Nat → UInt8
  cons : Console.Cons

/-- The local variables that the calls copy out without having set all of their bytes. -/
inductive Local where
  | st | localStats | test
  deriving DecidableEq

/-- What the stack holds where a local variable comes to be. -/
abbrev Stack := Local → Nat → UInt8

/-- The kernel, the caller's memory and its kernel stack; `others` is what the other processes
and the interrupt handlers do each time the caller sleeps. -/
structure World where
  kernel : Kernel
  user : UserSpace
  stack : Stack
  others : List (Kernel → Kernel)

/-- Kernel code of the caller. -/
def CallM (α : Type) := World → Out Panic World α

namespace CallM

def bind (m : CallM α) (f : α → CallM β) : CallM β := fun w =>
  match m w with
  | .ok a w => f a w
  | .wait => .wait
  | .fail e => .fail e

instance : Monad CallM where
  pure a := fun w => .ok a w
  bind := CallM.bind

end CallM

def onKernel (f : Kernel → α × Kernel) : CallM α := fun w =>
  .ok (f w.kernel).1 { w with kernel := (f w.kernel).2 }

def get (f : Kernel → α) : CallM α := onKernel fun k => (f k, k)
def update (f : Kernel → Kernel) : CallM Unit := onKernel fun k => ((), f k)

/-- The file system's code, on behalf of `p`. -/
def onFs (p : ProcId) (m : KernM α) : CallM α := fun w =>
  match m.exec (Fs.run p) w.kernel.fs with
  | .ok a fs => .ok a { w with kernel := { w.kernel with fs := fs } }
  | .wait => .wait
  | .fail e => .fail e

def copyout (dstva : Nat) (src : List UInt8) : CallM Bool := fun w =>
  let r := w.user.copyout (dstva % 2 ^ 64) src
  .ok r.2 { w with user := r.1 }

/-- A local variable of `n` bytes that has not been set. -/
def uninit (l : Local) (n : Nat) : CallM (List UInt8) := fun w =>
  .ok ((List.range n).map (w.stack l)) w

def sleep : CallM Unit := fun w =>
  match w.others with
  | [] => .wait
  | f :: rest => .ok () { w with kernel := f w.kernel, others := rest }

/-- A loop around sleep(), which ends when a round has an answer. -/
def sleepLoop (round : CallM (Option α)) : Nat → CallM α
  | 0 => fun _ => .wait
  | fuel + 1 => do
    match ← round with
    | some a => return a
    | none =>
      sleep
      sleepLoop round fuel

/-- The caller sleeps no more often than `others` wake it. -/
def untilSome (round : CallM (Option α)) : CallM α := fun w =>
  sleepLoop round (w.others.length + 1) w

/- fstat -/

/-- struct stat: dev, ino, type, nlink, four bytes of padding, size, mode and four bytes of
padding. stati() does not set mode. -/
def stati (i : Inode) (st : List UInt8) : List UInt8 :=
  Bytes.le 4 i.dev ++ Bytes.le 4 i.inum ++ Bytes.le 2 (toUshort i.copy.type) ++
    Bytes.le 2 (toUshort i.copy.nlink) ++ (st.drop 12).take 4 ++ Bytes.le 8 i.copy.size ++ st.drop 24

def filestat (p : ProcId) (f : FilePtr) (addr : Nat) : CallM Int := do
  let ff ← onFs p (Kern.fileOf f)
  if ff.type = .inode ∨ ff.type = .device then
    let st ← uninit .st 32
    onFs p (Kern.ilock ff.ip)
    let i ← onFs p (Kern.inodeOf ff.ip)
    onFs p (Kern.iunlock ff.ip)
    let ok ← copyout addr (stati i st)
    return if ok then 0 else -1
  else return -1

def sysFstat (p : ProcId) (fd : Int) (addr : Nat) : CallM Int := do
  match ← onFs p (Kern.argfd fd) with
  | none => return -1
  | some (_, f) => filestat p f addr

/- getprocs -/

/-- enum procstate. -/
def stateCode : ProcState → Nat
  | .unused => 0
  | .used => 1
  | .sleeping => 2
  | .runnable => 3
  | .running => 4
  | .zombie => 5

/-- What safestrcpy(s, t, n + 1) writes to s: `*s = 0` stands after the loop, also when the
loop has copied the NUL. -/
def safestrcpyBytes : Nat → List UInt8 → List UInt8
  | 0, _ => [0]
  | _ + 1, [] => [0]
  | n + 1, c :: t => if c = 0 then [0, 0] else c :: safestrcpyBytes n t

def safestrcpy (s t : List UInt8) (n : Nat) : List UInt8 :=
  let written := safestrcpyBytes (n - 1) t
  written ++ s.drop written.length

/-- struct proc_stat. -/
def procStat (ticks : UInt32) (r : Row) (old : List UInt8) : List UInt8 :=
  Bytes.le 4 r.pid.toUInt32.toNat ++ Bytes.le 4 (stateCode r.state) ++ Bytes.le 4 ticks.toNat ++
    Bytes.le 4 (r.sz.toNat % 2 ^ 32) ++ safestrcpy (old.drop 16) (r.name.get 0 16) 16

/-- The loop of getprocs(): local_stats up to `n`, as it is copied out. -/
def getprocsLoop (k : Kernel) (stats : List UInt8) (max : Int) : List ProcId → Nat → List UInt8 × Nat
  | [], n => ([], n)
  | p :: ps, n =>
    if (n : Int) < max then
      if (k.row p).state = .unused then getprocsLoop k stats max ps n
      else
        let rest := getprocsLoop k stats max ps (n + 1)
        (procStat k.ticks (k.row p) ((stats.drop (32 * n)).take 32) ++ rest.1, rest.2)
    else ([], n)

def getprocs (ps : Nat) (max : Int) : CallM Int := do
  if max ≤ 0 ∨ max > NPROC then return -1
  else
    let stats ← uninit .localStats (32 * NPROC)
    let (bytes, n) ← get (fun k => getprocsLoop k stats max (List.finRange NPROC) 0)
    let ok ← copyout ps bytes
    return if ok then n else -1

def sysGetprocs (addr : Nat) (max : Int) : CallM Int := do
  if max ≤ 0 ∨ max > NPROC then return -1
  else
    let test ← uninit .test 1
    let ok ← copyout addr test
    if ok then getprocs addr max else return -1

/- wait -/

/-- The process table's part of freeproc(), and the row that the file system has. -/
def freeproc (k : Kernel) (pp : ProcId) : Kernel :=
  { k with
    row := setAt k.row pp { k.row pp with
      state := .unused
      pid := 0
      parent := none
      killed := false
      xstate := 0
      sz := 0
      name := (k.row pp).name.put 0 [0] }
    fs := { k.fs with mem := { k.fs.mem with proc := setAt k.fs.mem.proc pp none } } }

/-- The copyout() of pp->xstate, if the caller asks for it: does it succeed? -/
def copyStatus (addr : Nat) (xstate : Int32) : CallM Bool :=
  if addr ≠ 0 then copyout addr (Bytes.le 4 xstate.toUInt32.toNat) else return true

/-- The scan of wait(): its answer, or whether there are children. -/
def waitScan (p : ProcId) (addr : Nat) : List ProcId → Bool → CallM (Int ⊕ Bool)
  | [], havekids => return .inr havekids
  | pp :: pps, havekids => do
    let r ← get (fun k => k.row pp)
    if r.parent = some p then
      if r.state = .zombie then
        if ← copyStatus addr r.xstate then
          update (fun k => freeproc k pp)
          return .inl r.pid.toInt
        else return .inl (-1)
      else waitScan p addr pps true
    else waitScan p addr pps havekids

def wait (p : ProcId) (addr : Nat) : CallM Int :=
  untilSome do
    match ← waitScan p addr (List.finRange NPROC) false with
    | .inl r => return some r
    | .inr havekids =>
      if havekids = false ∨ (← get (fun k => (k.row p).killed)) then return some (-1)
      else return none

/- pipe -/

/-- kalloc(), for a pipe. -/
def pipealloc (p : ProcId) : CallM (Option (FilePtr × FilePtr)) := do
  let pages ← get Kernel.pages
  match ← onFs p (Kern.pipealloc (decide (pages > 0))) with
  | none => return none
  | some (f0, f1) =>
    update (fun k => { k with
      pages := k.pages - 1
      pipe := setAt k.pipe k.pages (Pipe.pipealloc k.junk)
      pipeOf := setAt (setAt k.pipeOf f0 k.pages) f1 k.pages })
    return some (f0, f1)

/-- fileclose() of both ends of a new pipe, which frees its page. -/
def closeBoth (p : ProcId) (rf wf : FilePtr) : CallM Unit := do
  onFs p (Kern.fileclose rf)
  onFs p (Kern.fileclose wf)
  update (fun k => { k with pages := k.pages + 1 })

/-- The two copyout()s of sys_pipe(): do both succeed? -/
def copyFds (fdarray fd0 fd1 : Nat) : CallM Bool := do
  if ← copyout fdarray (Bytes.le 4 fd0) then copyout (fdarray + 4) (Bytes.le 4 fd1)
  else return false

def sysPipe (p : ProcId) (fdarray : Nat) : CallM Int := do
  match ← pipealloc p with
  | none => return -1
  | some (rf, wf) =>
    match ← onFs p (Kern.fdalloc rf) with
    | none =>
      closeBoth p rf wf
      return -1
    | some fd0 =>
      match ← onFs p (Kern.fdalloc wf) with
      | none =>
        onFs p (Kern.setOfile fd0 none)
        closeBoth p rf wf
        return -1
      | some fd1 =>
        if ← copyFds fdarray fd0.val fd1.val then return 0
        else
          onFs p (Kern.setOfile fd0 none)
          onFs p (Kern.setOfile fd1 none)
          closeBoth p rf wf
          return -1

/- read -/

/-- The loop of readi() with user_dst = 1. -/
def readiLoop (p : ProcId) (ip : InodePtr) (dst n : Nat) : Nat → Nat → Nat → CallM Int
  | 0, tot, _ => return tot
  | fuel + 1, tot, off =>
    if tot < n then do
      let addr ← onFs p (Kern.bmap ip (off / BSIZE))
      if addr = 0 then return tot
      else
        let bp ← onFs p (Kern.bread addr)
        let d ← onFs p (Kern.bdata bp)
        let m := min (n - tot) (BSIZE - off % BSIZE)
        let ok ← copyout (dst + tot) (d.get (off % BSIZE) m)
        onFs p (Kern.brelse bp)
        if ok then readiLoop p ip dst n fuel (tot + m) (off + m) else return -1
    else return tot

def readi (p : ProcId) (ip : InodePtr) (dst off n : Nat) : CallM Int := do
  let i ← onFs p (Kern.inodeOf ip)
  if off > i.copy.size ∨ (off + n) % 2 ^ 32 < off then return 0
  else
    let n := if off + n > i.copy.size then i.copy.size - off else n
    readiLoop p ip dst n n 0 off

/-- The first loop of piperead(): is there to be a read? -/
def pipeWait (p : ProcId) (pi : Nat) : CallM Bool :=
  untilSome do
    if ← get (fun k => (k.pipe pi).empty && (k.pipe pi).writeopen) then
      if ← get (fun k => (k.row p).killed) then return some false else return none
    else return some true

/-- The second loop of piperead(), from byte `i` on. -/
def pipeCopy (pi addr : Nat) : Nat → Nat → CallM Int
  | 0, i => return i
  | fuel + 1, i => do
    if ← get (fun k => (k.pipe pi).empty) then return i
    else
      let ch ← get (fun k => (k.pipe pi).data ((k.pipe pi).nread.toNat % Pipe.PIPESIZE))
      let ok ← copyout (addr + i) [ch]
      update (fun k => { k with pipe := setAt k.pipe pi ((k.pipe pi).take ok) })
      if ok then pipeCopy pi addr fuel (i + 1) else return i

def piperead (p : ProcId) (pi addr : Nat) (n : Int) : CallM Int := do
  if ← pipeWait p pi then pipeCopy pi addr n.toNat 0 else return -1

/-- consoleread()'s inner loop: is there to be a byte? -/
def consoleWait (p : ProcId) : CallM Bool :=
  untilSome do
    if ← get (fun k => k.cons.r == k.cons.w) then
      if ← get (fun k => (k.row p).killed) then return some false else return none
    else return some true

/-- Its outer loop, after it has delivered `bytes`. -/
def consoleLoop (p : ProcId) (dst : Nat) (n : Int) : Nat → List UInt8 → CallM Int
  | 0, bytes => return bytes.length
  | fuel + 1, bytes => do
    if ← consoleWait p then
      let c ← get (fun k => k.cons.buf (k.cons.r.toNat % Console.INPUT_BUF_SIZE))
      if c = Console.eof then
        update (fun k => { k with cons := (k.cons.next true n bytes).2 })
        return bytes.length
      else
        let ok ← copyout (dst + bytes.length) [c]
        update (fun k => { k with cons := (k.cons.next ok n bytes).2 })
        if ok = false then return bytes.length
        else if c = Console.newline then return (bytes.length + 1 : Nat)
        else consoleLoop p dst n fuel (bytes ++ [c])
    else return -1

def consoleread (p : ProcId) (dst : Nat) (n : Int) : CallM Int := consoleLoop p dst n n.toNat []

/-- devsw[CONSOLE] is the only device with a read function. -/
def CONSOLE : Int := 1

def fileread (p : ProcId) (f : FilePtr) (addr : Nat) (n : Int) : CallM Int := do
  let ff ← onFs p (Kern.fileOf f)
  if ff.readable = false then return -1
  else
    match ff.type with
    | .pipe =>
      let pi ← get (fun k => k.pipeOf f)
      piperead p pi addr n
    | .device => if ff.major = CONSOLE then consoleread p addr n else return -1
    | .inode =>
      onFs p (Kern.ilock ff.ip)
      let ff ← onFs p (Kern.fileOf f)
      let r ← readi p ff.ip addr ff.off (toUint n)
      onFs p (Kern.when (r > 0)
        (Kern.setFile f (fun f => { f with off := (f.off + toUint r) % 2 ^ 32 })))
      onFs p (Kern.iunlock ff.ip)
      return r
    | .none => fun _ => .fail .fileread

def sysRead (p : ProcId) (fd : Int) (addr : Nat) (n : Int) : CallM Int := do
  match ← onFs p (Kern.argfd fd) with
  | none => return -1
  | some (_, f) => fileread p f addr n

inductive Call where
  | fstat (fd : Int) (st : Nat)
  | getprocs (addr : Nat) (max : Int)
  | wait (addr : Nat)
  | pipe (fdarray : Nat)
  | read (fd : Int) (addr : Nat) (n : Int)

def Call.prog (p : ProcId) : Call → CallM Int
  | .fstat fd st => sysFstat p fd st
  | .getprocs addr max => sysGetprocs addr max
  | .wait addr => UserCalls.wait p addr
  | .pipe fdarray => sysPipe p fdarray
  | .read fd addr n => sysRead p fd addr n

end Xv6.UserCalls
