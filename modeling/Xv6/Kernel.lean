import Xv6.Log
import Xv6.Lib.Free
import Xv6.Lib.Table

namespace Xv6

/-- The rows of the process, inode and file tables. -/
abbrev ProcId := Fin NPROC
abbrev InodePtr := Fin NINODE
abbrev FilePtr := Fin NFILE

/-- struct superblock, without the magic number. -/
structure Superblock where
  size : Nat
  nblocks : Nat
  ninodes : Nat
  nlog : Nat
  logstart : Nat
  inodestart : Nat
  bmapstart : Nat

/-- The fields of struct dinode that struct inode has a copy of. -/
@[ext] structure Dinode where
  type : Int
  major : Int
  minor : Int
  nlink : Int
  size : Nat
  addrs : List Nat
  deriving DecidableEq, Repr

/-- struct inode. The sleep-lock is its holder. -/
structure Inode where
  dev : Nat
  inum : Nat
  ref : Int
  lock : Option ProcId
  valid : Bool
  copy : Dinode

inductive FileType where
  | none | pipe | inode | device
  deriving DecidableEq, Repr

/-- struct file, without the pipe. -/
structure File where
  type : FileType
  ref : Int
  readable : Bool
  writable : Bool
  ip : InodePtr
  off : Nat
  major : Int

/-- What struct proc has for the file system; `cwd` is 0 after exit(). -/
structure Proc where
  ofile : Fin NOFILE → Option FilePtr
  cwd : Option InodePtr

/-- The file system's part of kernel memory. -/
structure Mem where
  sb : Superblock
  inode : InodePtr → Inode
  file : FilePtr → File
  proc : ProcId → Option Proc

namespace Mem

def setInode (m : Mem) (ip : InodePtr) (f : Inode → Inode) : Mem :=
  { m with inode := setAt m.inode ip (f (m.inode ip)) }

def setFile (m : Mem) (fp : FilePtr) (f : File → File) : Mem :=
  { m with file := setAt m.file fp (f (m.file fp)) }

def setProc (m : Mem) (p : ProcId) (f : Proc → Proc) : Mem :=
  { m with proc := setAt m.proc p ((m.proc p).map f) }

end Mem

/-- What kernel code above the buffer cache does. A locked buffer is named by its
block, there being one device. A `mem` command is one critical section on kernel
memory; its first argument is myproc(). -/
inductive Cmd : Type → Type 1 where
  | bread (blockno : Nat) : Cmd Unit
  | data (blockno : Nat) : Cmd Block
  | modify (blockno : Nat) (data : Block) : Cmd Unit
  | logWrite (blockno : Nat) : Cmd Unit
  | brelse (blockno : Nat) : Cmd Unit
  | beginOp : Cmd Unit
  | endOp : Cmd Unit
  | mem {β : Type} (f : ProcId → Mem → Out Panic Mem β) : Cmd β

abbrev KernM := Free Cmd

namespace Kern

def bread (blockno : Nat) : KernM Nat := do
  Free.call (.bread blockno)
  return blockno

def bdata (bp : Nat) : KernM Block := Free.call (.data bp)
def bmodify (bp : Nat) (d : Block) : KernM Unit := Free.call (.modify bp d)
def logWrite (bp : Nat) : KernM Unit := Free.call (.logWrite bp)
def brelse (bp : Nat) : KernM Unit := Free.call (.brelse bp)
def beginOp : KernM Unit := Free.call .beginOp
def endOp : KernM Unit := Free.call .endOp

def panic (e : Panic) : KernM α := Free.call (.mem fun _ _ => .fail e)
def get (f : Mem → α) : KernM α := Free.call (.mem fun _ m => .ok (f m) m)
def update (f : Mem → Mem) : KernM Unit := Free.call (.mem fun _ m => .ok () (f m))

def when (c : Prop) [Decidable c] (m : KernM Unit) : KernM Unit := if c then m else return ()

end Kern
end Xv6
