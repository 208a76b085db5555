import Xv6.SysFile
import Xv6.Lib.Run

namespace Xv6

/-- The block layer as one process after the other sees it. `cur` is the newest content
of each block and `logged` what the next commit or the disk has of it: they differ in a
buffer that is being changed, or that was changed and released without log_write().
Such a buffer can be recycled unnoticed; `evict` tells which of the coming calls of
bread() find that to have happened to their block. -/
structure Store where
  cur : Disk
  logged : Disk
  held : List Nat
  lh : List Nat
  outstanding : Int
  nlog : Nat
  evict : List Bool

namespace Store

/-- What a new buffer for block `n` is filled with; blocks in the log are pinned. -/
def refill (s : Store) (n : Nat) : Disk :=
  if s.evict.head? = some true ∧ n ∉ s.lh then setAt s.cur n (s.logged n) else s.cur

def bread (s : Store) (n : Nat) : Out Panic Store Unit :=
  if n ∈ s.held then .wait
  else .ok () { s with cur := s.refill n, held := n :: s.held, evict := s.evict.tail }

def modify (s : Store) (n : Nat) (d : Block) : Store := { s with cur := setAt s.cur n d }

def logWrite (s : Store) (n : Nat) : Out Panic Store Unit :=
  if s.lh.length ≥ LOGSIZE ∨ (s.lh.length : Int) ≥ (s.nlog : Int) - 1 then .fail .tooBigTransaction
  else if s.outstanding < 1 then .fail .logWriteOutside
  else .ok () { s with
    logged := setAt s.logged n (s.cur n)
    lh := if n ∈ s.lh then s.lh else s.lh ++ [n] }

/-- A buffer in the log is committed with the content it has then. -/
def brelse (s : Store) (n : Nat) : Store :=
  { s with
    logged := if n ∈ s.lh then setAt s.logged n (s.cur n) else s.logged
    held := s.held.erase n }

def beginOp (s : Store) : Out Panic Store Unit :=
  if s.lh.length + (s.outstanding + 1) * MAXOPBLOCKS > (LOGSIZE : Int) then .wait
  else .ok () { s with outstanding := s.outstanding + 1 }

def endOp (s : Store) : Store :=
  { s with
    outstanding := s.outstanding - 1
    lh := if s.outstanding - 1 = 0 then [] else s.lh }

end Store

/-- The file system between system calls: kernel memory and the blocks. -/
structure Fs where
  mem : Mem
  st : Store

/-- The answer of the block layer, with kernel memory unchanged. -/
def Fs.after (fs : Fs) (o : Out Panic Store α) : Out Panic Fs α :=
  match o with
  | .ok a s => .ok a { fs with st := s }
  | .wait => .wait
  | .fail e => .fail e

/-- The commands as process `p` carries them out. -/
def Fs.run (p : ProcId) : Handler Cmd Panic Fs
  | _, .bread n, fs => fs.after (fs.st.bread n)
  | _, .data n, fs => .ok (fs.st.cur n) fs
  | _, .modify n d, fs => .ok () { fs with st := fs.st.modify n d }
  | _, .logWrite n, fs => fs.after (fs.st.logWrite n)
  | _, .brelse n, fs => .ok () { fs with st := fs.st.brelse n }
  | _, .beginOp, fs => fs.after fs.st.beginOp
  | _, .endOp, fs => .ok () { fs with st := fs.st.endOp }
  | _, .mem f, fs =>
    match f p fs.mem with
    | .ok a m => .ok a { fs with mem := m }
    | .wait => .wait
    | .fail e => .fail e

/-- The system calls that reach the file system, with what they get from user memory and
from the rest of the kernel. -/
inductive Call where
  | openFile (path : StrArg) (omode : Nat)
  | mkdir (path : StrArg)
  | mknod (path : StrArg) (major minor : Int)
  | chdir (path : StrArg)
  | link (old new : StrArg)
  | unlink (path : StrArg)
  | read (fd : Int) (dst : Dst) (n other : Int)
  | write (fd : Int) (um : UserMem) (addr : Nat) (n other : Int)
  | close (fd : Int)
  | dup (fd : Int)
  | fstat (fd : Int) (copied : Bool)
  | lseek (fd offset whence : Int)
  | chmod (path : StrArg) (mode : Int)
  | exec (path : StrArg) (reads : List (Nat × Nat)) (result : Int)
  | pipe (page copied : Bool)
  | fork (copied : Bool)
  | exit
  | wait (child : ProcId)

def Call.prog : Call → KernM Int
  | .openFile path omode => Kern.sysOpen path omode
  | .mkdir path => Kern.sysMkdir path
  | .mknod path major minor => Kern.sysMknod path major minor
  | .chdir path => Kern.sysChdir path
  | .link old new => Kern.sysLink old new
  | .unlink path => Kern.sysUnlink path
  | .read fd dst n other => Kern.sysRead fd dst n other
  | .write fd um addr n other => Kern.sysWrite fd um addr n other
  | .close fd => Kern.sysClose fd
  | .dup fd => Kern.sysDup fd
  | .fstat fd copied => Kern.sysFstat fd copied
  | .lseek fd offset whence => Kern.sysLseek fd offset whence
  | .chmod path mode => Kern.sysChmod path mode
  | .exec path reads result => Kern.sysExec path reads result
  | .pipe page copied => Kern.sysPipe page copied
  | .fork copied => Kern.fork copied
  | .exit => Kern.exit
  | .wait child => Kern.wait child

/-- A process makes a system call; `evict` is the fate of the buffers it reads. -/
structure Event where
  p : ProcId
  call : Call
  evict : List Bool

/-- The process exists and has not exited. -/
def Mem.alive (m : Mem) (p : ProcId) : Bool := ((m.proc p).bind Proc.cwd).isSome

namespace Fs

def exec (fs : Fs) (e : Event) : Out Panic Fs Int :=
  e.call.prog.exec (Fs.run e.p) { fs with st := { fs.st with evict := e.evict } }

/-- A whole system call. A call that panics or never returns leads nowhere. -/
def step (fs : Fs) (e : Event) : Option Fs :=
  if fs.mem.alive e.p then
    match fs.exec e with
    | .ok _ fs' => some fs'
    | _ => none
  else none

/-- The file system on `disk` after fsinit(), when the only process is initproc, with
the working directory that userinit() gave it. -/
def boot (sb : Superblock) (disk : Disk) : Fs where
  mem :=
    { sb := sb
      inode := setAt (fun _ => ⟨0, 0, 0, none, false, ⟨0, 0, 0, 0, 0, .replicate (NDIRECT + 1) 0⟩⟩) 0
        ⟨ROOTDEV, ROOTINO, 1, none, false, ⟨0, 0, 0, 0, 0, .replicate (NDIRECT + 1) 0⟩⟩
      file := fun _ => ⟨.none, 0, false, false, 0, 0, 0⟩
      proc := setAt (fun _ => none) Kern.initproc (some ⟨fun _ => none, some 0⟩) }
  st := ⟨disk, disk, [], [], 0, sb.nlog, []⟩

end Fs
end Xv6
