import Xv6.Store

namespace Xv6

/-- The blocks before the data: boot, super, log, inode and bitmap blocks. -/
def Superblock.nmeta (sb : Superblock) : Nat := sb.bmapstart + (sb.size / BPB + 1)

/-- The areas of the disk follow each other as mkfs lays them out. -/
structure Superblock.Ok (sb : Superblock) : Prop where
  logstart : sb.logstart = 2
  inodestart : sb.inodestart = sb.logstart + sb.nlog
  bmapstart : sb.bmapstart = sb.inodestart + (sb.ninodes / IPB + 1)
  room : sb.nmeta ≤ sb.size
  size : sb.size < 2 ^ 32
  ninodes : sb.ninodes ≤ 2 ^ 16
  root : ROOTINO < sb.ninodes

/-- The bit of block `b` is set. -/
def used (sb : Superblock) (cur : Disk) (b : Nat) : Prop :=
  bitClear (cur (sb.bblock b)) (b % BPB) = false

/-- The block pointers of an inode, by position: the direct addresses, the indirect
address at position NDIRECT, and the words of the indirect block after it. -/
def Dinode.ptr (d : Dinode) (cur : Disk) (k : Nat) : Nat :=
  if k ≤ NDIRECT then d.addrs.getD k 0
  else if d.addrs.getD NDIRECT 0 ≠ 0 ∧ k - (NDIRECT + 1) < NINDIRECT then
    wordAt (cur (d.addrs.getD NDIRECT 0)) (k - (NDIRECT + 1))
  else 0

/-- The position of the pointer to block `bn` of a file. -/
def posOf (bn : Nat) : Nat := if bn < NDIRECT then bn else bn + 1

def Dinode.block (d : Dinode) (cur : Disk) (bn : Nat) : Nat := d.ptr cur (posOf bn)

/-- The pointers of all allocated inodes. -/
def ptrs (ino : Nat → Dinode) (cur : Disk) (o : Nat × Nat) : Nat :=
  if (ino o.1).type = 0 then 0 else (ino o.1).ptr cur o.2

/-- What a file or directory is to its users. A directory has entries, and anything else
has bytes. -/
structure Node where
  type : Int
  major : Int
  minor : Int
  nlink : Int
  size : Nat
  entry : Nat → Dirent
  data : Nat → UInt8

def Dirent.empty : Dirent := ⟨0, []⟩

/-- What a free inode is. -/
def Node.free : Node := ⟨0, 0, 0, 0, 0, fun _ => .empty, fun _ => 0⟩

/-- The entry in slot `s`. -/
def Dinode.dirent (d : Dinode) (cur : Disk) (s : Nat) : Dirent :=
  direntOf ((cur (d.block cur (16 * s / BSIZE))).get (16 * s % BSIZE) 16)

/-- The byte at offset `o`. -/
def Dinode.byte (d : Dinode) (cur : Disk) (o : Nat) : UInt8 :=
  (cur (d.block cur (o / BSIZE))).byteAt (o % BSIZE)

def Dinode.node (d : Dinode) (cur : Disk) : Node :=
  if d.type = 0 then .free
  else
    { type := d.type
      major := d.major
      minor := d.minor
      nlink := d.nlink
      size := d.size
      entry := fun s => if d.type = T_DIR ∧ 16 * s < d.size then d.dirent cur s else .empty
      data := fun o => if d.type ≠ T_DIR ∧ o < d.size then d.byte cur o else 0 }

/- Names. -/

/-- The entry is in use and its name is `name`. -/
def Dirent.named (de : Dirent) (name : List UInt8) : Prop :=
  de.inum ≠ 0 ∧ namecmp name de.name = true

instance (de : Dirent) (name : List UInt8) : Decidable (de.named name) :=
  inferInstanceAs (Decidable (_ ∧ _))

/-- The first slot of a directory that has the name. -/
def Node.find (n : Node) (name : List UInt8) : Option Nat :=
  firstFrom (fun s => decide ((n.entry s).named name)) (n.size / 16) 0

/-- What a path from file `i` on leads to, or with `parent` the directory its last element is
looked up in; the second part of the answer is the last element met. -/
def walk (N : Nat → Node) (parent : Bool) : Nat → Nat → List UInt8 → List UInt8 →
    Option (Nat × List UInt8)
  | 0, _, _, _ => none
  | fuel + 1, i, path, name =>
    match skipelem path with
    | none => if parent then none else some (i, name)
    | some (name, path) =>
      if (N i).type ≠ T_DIR then none
      else if parent ∧ path = [] then some (i, name)
      else
        match (N i).find name with
        | none => none
        | some s => walk N parent fuel ((N i).entry s).inum path name

/-- The file that a path leads a process to whose working directory is `cwd`. -/
def resolve (N : Nat → Node) (cwd : Nat) (path : List UInt8) : Option Nat :=
  (walk N false (path.length + 1) (if path.head? = some slash then ROOTINO else cwd) path []).map
    Prod.fst

/-- The entry of the file table refers to the in-memory inode `ip`. -/
def File.opens (f : File) (ip : InodePtr) : Bool :=
  decide ((f.type = .inode ∨ f.type = .device) ∧ f.ip = ip)

/-- The process has `ip` as its working directory. -/
def cwdIs (pr : Option Proc) (ip : InodePtr) : Bool := decide (pr.bind Proc.cwd = some ip)

/-- The open files and working directories that hold `ip`. -/
def held (file : FilePtr → File) (proc : ProcId → Option Proc) (ip : InodePtr) : Nat :=
  countRows (fun f => (file f).opens ip) + countRows (fun q => cwdIs (proc q) ip)

/-- The inodes that the blocks hold. -/
def dinodes (sb : Superblock) (cur : Disk) (i : Nat) : Dinode :=
  if i < sb.ninodes then dinodeAt (cur (sb.iblock i)) i else .fresh 0

/-- The files that the blocks hold. -/
def nodes (sb : Superblock) (cur : Disk) (i : Nat) : Node := (dinodes sb cur i).node cur

/-- The files as they are on disk, seen through the cache. -/
def Fs.node (fs : Fs) : Nat → Node := nodes fs.mem.sb fs.st.cur
end Xv6
