import Xv6.Lib.Prog
import Xv6.Lib.Bytes

namespace Xv6

/- Sizes from param.h, fs.h and riscv.h. -/

abbrev MAXOPBLOCKS : Nat := 10
abbrev LOGSIZE : Nat := MAXOPBLOCKS * 3
abbrev NBUF : Nat := MAXOPBLOCKS * 3
abbrev ROOTDEV : Nat := 1
abbrev BSIZE : Nat := 1024
abbrev NPROC : Nat := 64
abbrev NOFILE : Nat := 16
abbrev NFILE : Nat := 100
abbrev NINODE : Nat := 50
abbrev NDEV : Nat := 10
abbrev ROOTINO : Nat := 1
abbrev NDIRECT : Nat := 10
abbrev NINDIRECT : Nat := BSIZE / 4
abbrev MAXFILE : Nat := NDIRECT + NINDIRECT
abbrev IPB : Nat := BSIZE / 64
abbrev BPB : Nat := BSIZE * 8
abbrev DIRSIZ : Nat := 14
abbrev PGSIZE : Nat := 4096
abbrev MAXVA : Nat := 2 ^ 38

instance : NeZero NBUF := ⟨by decide⟩
instance : NeZero NPROC := ⟨by decide⟩
instance : NeZero NOFILE := ⟨by decide⟩
instance : NeZero NFILE := ⟨by decide⟩
instance : NeZero NINODE := ⟨by decide⟩

/- The file types of stat.h and the open modes of fcntl.h. -/

abbrev T_DIR : Int := 1
abbrev T_FILE : Int := 2
abbrev T_DEVICE : Int := 3

abbrev O_RDONLY : Nat := 0x000
abbrev O_WRONLY : Nat := 0x001
abbrev O_RDWR : Nat := 0x002
abbrev O_CREATE : Nat := 0x200
abbrev O_TRUNC : Nat := 0x400

abbrev Pid := Nat
abbrev Block := ByteArr BSIZE
abbrev Disk := Nat → Block

/-- The calls of panic() in the modelled functions. -/
inductive Panic where
  | bgetNoBuffers | bwrite | brelse
  | tooBigTransaction | logWriteOutside | logCommitting
  | freeingFreeBlock | igetNoInodes | ilock | ilockNoType | iunlock | bmapOutOfRange
  | dirlookupNotDir | dirlookupRead | dirlinkRead | isdiremptyReadi
  | unlinkNlink | unlinkWritei | filedup | fileclose | fileread | filewrite
  | initExiting | kerneltrap
  | acquire | release | popOff | schedLock | schedLocks | schedRunning | zombieExit
  | kfree | walk | mappagesVa | mappagesSizeAligned | mappagesSize | mappagesRemap
  | uvmunmapAligned | uvmunmapWalk | uvmunmapNotMapped | uvmunmapNotLeaf
  | freewalkLeaf | uvmcopyPte | uvmcopyPage | uvmclear | loadsegAddress
  | freeDesc1 | freeDesc2 | virtioDiskIntrStatus
  deriving DecidableEq, Repr

/- C's conversions to short, unsigned short and unsigned int. -/

def toShort (x : Int) : Int := (x + 32768) % 65536 - 32768
def toUshort (x : Int) : Nat := (x % 65536).toNat
def toUint (x : Int) : Nat := (x % 2 ^ 32).toNat

end Xv6
