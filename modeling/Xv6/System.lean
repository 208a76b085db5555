import Xv6.LogMachine
import Xv6.Store

namespace Xv6

/-- The kernel with the whole block layer under the file system. -/
structure Sys : Type 1 where
  mem : Mem
  mach : Machine

namespace Machine

/-- Actions one after the other, up to a panic. -/
def does (m : Machine) (as : List Action) : Out Panic Machine Unit :=
  match runAll step m as with
  | none => .wait
  | some m' =>
    match m'.panicked with
    | none => .ok () m'
    | some e => .fail e

/-- The buffer of a block that a process has locked. -/
def bufOf (m : Machine) (n : Nat) : Option BufId := m.blk.cached ROOTDEV (n % 2 ^ 32)

/-- The actions that follow on a buffer. -/
def onBuf (m : Machine) (n : Nat) (as : BufId → List Action) : Out Panic Machine Unit :=
  match m.bufOf n with
  | none => .wait
  | some i => m.does (as i)

/-- The log's thread until it is done; a commit takes fewer than `fuel` steps. -/
def finishThread : Nat → Machine → Out Panic Machine Unit
  | 0, _ => .wait
  | fuel + 1, m =>
    match m.thread with
    | .idle => .ok () m
    | _ =>
      match m.does [.thread] with
      | .ok _ m' => finishThread fuel m'
      | .wait => .wait
      | .fail e => .fail e

def andThen (o : Out Panic Machine Unit) (k : Machine → Out Panic Machine Unit) :
    Out Panic Machine Unit :=
  match o with
  | .ok _ m => k m
  | .wait => .wait
  | .fail e => .fail e

/-- bread(): bget(), acquiresleep() and the read from disk. -/
def bread (m : Machine) (p : Pid) (n : Nat) : Out Panic Machine Unit :=
  andThen (m.does [.bget p (UInt32.ofNat n)]) (fun m =>
    m.onBuf n (fun i => [.acquire p i, .fill p i]))

/-- brelse(); a buffer that was changed and not logged is given up. -/
def brelse (m : Machine) (p : Pid) (n : Nat) : Out Panic Machine Unit :=
  m.onBuf n (fun i =>
    if i ∈ m.dirty then [.abandon p i, .release p i, .put p i] else [.release p i, .put p i])

/-- end_op() with the commit it may have to do. -/
def endOp (m : Machine) (p : Pid) : Out Panic Machine Unit :=
  andThen (m.does [.endOp p]) (finishThread 4096)

end Machine

namespace Sys

def after (s : Sys) (o : Out Panic Machine Unit) : Out Panic Sys Unit :=
  match o with
  | .ok _ m => .ok () { s with mach := m }
  | .wait => .wait
  | .fail e => .fail e

/-- The commands as process `p` carries them out. -/
def run (p : ProcId) : Handler Cmd Panic Sys
  | _, .bread n, s => s.after (s.mach.bread p n)
  | _, .data n, s =>
    match s.mach.bufOf n with
    | none => .wait
    | some i => .ok (s.mach.blk.bc.buf i).data s
  | _, .modify n d, s => s.after (s.mach.onBuf n (fun i => [.modify p i d]))
  | _, .logWrite n, s => s.after (s.mach.onBuf n (fun i => [.logWrite p i]))
  | _, .brelse n, s => s.after (s.mach.brelse p n)
  | _, .beginOp, s => s.after (s.mach.does [.beginOp p])
  | _, .endOp, s => s.after (s.mach.endOp p)
  | _, .mem f, s =>
    match f p s.mem with
    | .ok a m => .ok a { s with mem := m }
    | .wait => .wait
    | .fail e => .fail e

/-- A whole system call by a process. -/
def step (s : Sys) (e : ProcId × Call) : Option Sys :=
  if s.mem.alive e.1 then
    match e.2.prog.exec (run e.1) s with
    | .ok _ t => some t
    | _ => none
  else none

/-- The kernel when fsinit() is done, on a disk whose log is empty. -/
def boot (sb : Superblock) (disk : Disk) : Out Panic Machine Unit :=
  Machine.finishThread 4096 (Machine.boot sb.logstart sb.nlog disk disk)

end Sys
end Xv6
