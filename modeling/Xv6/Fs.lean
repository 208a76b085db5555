import Xv6.Kernel

namespace Xv6

def Superblock.iblock (sb : Superblock) (inum : Nat) : Nat := inum / IPB + sb.inodestart
def Superblock.bblock (sb : Superblock) (b : Nat) : Nat := b / BPB + sb.bmapstart

/- The bitmap: bit `bi` of a block. -/

def bitMask (bi : Nat) : UInt8 := 1 <<< UInt8.ofNat (bi % 8)
def bitClear (d : Block) (bi : Nat) : Bool := d.byteAt (bi / 8) &&& bitMask bi == 0
def setBit (d : Block) (bi : Nat) : Block := d.put (bi / 8) [d.byteAt (bi / 8) ||| bitMask bi]
def clearBit (d : Block) (bi : Nat) : Block :=
  d.put (bi / 8) [d.byteAt (bi / 8) &&& ~~~ bitMask bi]

/- An indirect block is an array of uint. -/

def wordAt (d : Block) (j : Nat) : Nat := Bytes.ofLe (d.get (4 * j) 4)
def setWord (d : Block) (j a : Nat) : Block := d.put (4 * j) (Bytes.le 4 a)

/- struct dinode takes 64 bytes; mode and padding are the last eight. -/

def Dinode.encode (d : Dinode) : List UInt8 :=
  [d.type, d.major, d.minor, d.nlink].flatMap (fun x => Bytes.le 2 (toUshort x)) ++
    (d.size :: d.addrs).flatMap (Bytes.le 4)

def dinodeAt (d : Block) (inum : Nat) : Dinode :=
  let off := inum % IPB * 64
  let short (o : Nat) : Int := toShort (Bytes.ofLe (d.get (off + o) 2))
  { type := short 0
    major := short 2
    minor := short 4
    nlink := short 6
    size := Bytes.ofLe (d.get (off + 8) 4)
    addrs := (List.range (NDIRECT + 1)).map (fun k => Bytes.ofLe (d.get (off + 12 + 4 * k) 4)) }

def putDinode (d : Block) (inum : Nat) (ino : Dinode) : Block := d.put (inum % IPB * 64) ino.encode

/-- What ialloc() makes of an inode. -/
def Dinode.fresh (type : Int) : Dinode := ⟨toShort type, 0, 0, 0, 0, List.replicate (NDIRECT + 1) 0⟩

/-- memset(dip, 0, sizeof(*dip)) and dip->type = type. -/
def freshDinode (d : Block) (inum : Nat) (type : Int) : Block :=
  d.put (inum % IPB * 64) (Bytes.le 2 (toUshort type) ++ List.replicate 62 0)

/-- struct dirent as it is read: the name with all its DIRSIZ bytes. -/
structure Dirent where
  inum : Nat
  name : List UInt8
  deriving DecidableEq, Repr

def Dirent.encode (de : Dirent) : List UInt8 := Bytes.le 2 de.inum ++ de.name
def direntOf (bs : List UInt8) : Dirent := ⟨Bytes.ofLe (bs.take 2), bs.drop 2⟩

/-- The string in a buffer of DIRSIZ bytes, and the buffer strncpy() makes of it. -/
def cstr (s : List UInt8) : List UInt8 := (s.take DIRSIZ).takeWhile (fun c => c != 0)
def strncpy (s : List UInt8) : List UInt8 := cstr s ++ List.replicate (DIRSIZ - (cstr s).length) 0

/-- namecmp() == 0. -/
def namecmp (s t : List UInt8) : Bool := cstr s == cstr t

def slash : UInt8 := 47
def dot : List UInt8 := [46]
def dotdot : List UInt8 := [46, 46]

/-- skipelem(): the element, cut to DIRSIZ bytes, and the path after it. -/
def skipelem (path : List UInt8) : Option (List UInt8 × List UInt8) :=
  match path.dropWhile (fun c => c == slash) with
  | [] => none
  | s =>
    let elem := s.takeWhile (fun c => c != slash)
    some (elem.take DIRSIZ, (s.drop elem.length).dropWhile (fun c => c == slash))

/-- The user pages of a process, as walkaddr() finds them. -/
abbrev UserMem := Nat → Option (ByteArr PGSIZE)

def walkaddr (um : UserMem) (va : Nat) : Option (ByteArr PGSIZE) :=
  if va < MAXVA then um (va / PGSIZE) else none

/-- copyin(): the bytes copied before it ended, and whether it returned 0. Each turn
of the loop copies what one page holds; `fuel` bounds the turns. -/
def copyin (um : UserMem) : Nat → Nat → Nat → List UInt8 × Bool
  | 0, _, _ => ([], true)
  | fuel + 1, srcva, len =>
    if len = 0 then ([], true)
    else
      let va0 := srcva / PGSIZE * PGSIZE
      match walkaddr um va0 with
      | none => ([], false)
      | some page =>
        let n := min (PGSIZE - (srcva - va0)) len
        let rest := copyin um fuel (va0 + PGSIZE) (len - n)
        (page.get (srcva - va0) n ++ rest.1, rest.2)

/-- copyout(), of which the file system only sees the answer; `writable` tells which
pages are mapped with V, U and W. -/
def copyout (writable : Nat → Bool) : Nat → Nat → Nat → Bool
  | 0, _, _ => true
  | fuel + 1, dstva, len =>
    if len = 0 then true
    else
      let va0 := dstva / PGSIZE * PGSIZE
      if va0 < MAXVA ∧ writable (va0 / PGSIZE) then
        copyout writable fuel (va0 + PGSIZE) (len - min (PGSIZE - (dstva - va0)) len)
      else false

/-- The source of writei(), with user_src. -/
inductive Src where
  | kernel (bytes : List UInt8)
  | user (um : UserMem) (va : Nat)

/-- either_copyin() of `m` bytes at src + tot. -/
def Src.copyin (src : Src) (tot m : Nat) : List UInt8 × Bool :=
  match src with
  | .kernel bytes => ((bytes.drop tot).take m, true)
  | .user um va => Xv6.copyin um m ((va + tot) % 2 ^ 64) m

/-- The destination of readi(), with user_dst. -/
inductive Dst where
  | kernel
  | user (writable : Nat → Bool) (va : Nat)

/-- either_copyout() of `m` bytes to dst + tot. -/
def Dst.copyout (dst : Dst) (tot m : Nat) : Bool :=
  match dst with
  | .kernel => true
  | .user writable va => Xv6.copyout writable m ((va + tot) % 2 ^ 64) m

namespace Kern

def getSb : KernM Superblock := get (fun m => m.sb)
def inodeOf (ip : InodePtr) : KernM Inode := get (fun m => m.inode ip)
def setInode (ip : InodePtr) (f : Inode → Inode) : KernM Unit := update (fun m => m.setInode ip f)

/-- A change of the copy of the disk inode. -/
def setCopy (ip : InodePtr) (f : Dinode → Dinode) : KernM Unit :=
  setInode ip (fun i => { i with copy := f i.copy })

/- Blocks. -/

def bzero (bno : Nat) : KernM Unit := do
  let bp ← bread bno
  bmodify bp .zero
  logWrite bp
  brelse bp

/-- The outer loop of balloc(), from block `b` on. -/
def ballocFrom (sb : Superblock) : Nat → Nat → KernM Nat
  | 0, _ => return 0
  | fuel + 1, b =>
    if b < sb.size then do
      let bp ← bread (sb.bblock b)
      let d ← bdata bp
      match firstFrom (fun bi => decide (b + bi < sb.size) && bitClear d bi) BPB 0 with
      | some bi =>
        bmodify bp (setBit d bi)
        logWrite bp
        brelse bp
        bzero (b + bi)
        return b + bi
      | none =>
        brelse bp
        ballocFrom sb fuel (b + BPB)
    else return 0

def balloc : KernM Nat := do
  let sb ← getSb
  ballocFrom sb (sb.size / BPB + 1) 0

def bfree (b : Nat) : KernM Unit := do
  let sb ← getSb
  let bp ← bread (sb.bblock b)
  let d ← bdata bp
  if bitClear d (b % BPB) then panic .freeingFreeBlock
  else
    bmodify bp (clearBit d (b % BPB))
    logWrite bp
    brelse bp

/- Inodes. -/

/-- iget(), all of it under itable.lock. -/
def iget (dev inum : Nat) : KernM InodePtr :=
  Free.call (.mem fun _ m =>
    match (List.finRange NINODE).find? (fun ip =>
      decide ((m.inode ip).ref > 0 ∧ (m.inode ip).dev = dev ∧ (m.inode ip).inum = inum)) with
    | some ip => .ok ip (m.setInode ip (fun i => { i with ref := i.ref + 1 }))
    | none =>
      match (List.finRange NINODE).find? (fun ip => decide ((m.inode ip).ref = 0)) with
      | some ip => .ok ip (m.setInode ip (fun i =>
          { i with dev := dev, inum := inum, ref := 1, valid := false }))
      | none => .fail .igetNoInodes)

/-- The loop of ialloc(), from `inum` on. -/
def iallocFrom (dev : Nat) (type : Int) (sb : Superblock) : Nat → Nat → KernM (Option InodePtr)
  | 0, _ => return none
  | fuel + 1, inum => do
    let bp ← bread (sb.iblock inum)
    let d ← bdata bp
    if (dinodeAt d inum).type = 0 then
      bmodify bp (freshDinode d inum type)
      logWrite bp
      brelse bp
      let ip ← iget dev inum
      return some ip
    else
      brelse bp
      iallocFrom dev type sb fuel (inum + 1)

def ialloc (dev : Nat) (type : Int) : KernM (Option InodePtr) := do
  let sb ← getSb
  iallocFrom dev type sb (sb.ninodes - 1) 1

def iupdate (ip : InodePtr) : KernM Unit := do
  let sb ← getSb
  let i ← inodeOf ip
  let bp ← bread (sb.iblock i.inum)
  let d ← bdata bp
  bmodify bp (putDinode d i.inum i.copy)
  logWrite bp
  brelse bp

def idup (ip : InodePtr) : KernM InodePtr := do
  setInode ip (fun i => { i with ref := i.ref + 1 })
  return ip

/-- acquiresleep(&ip->lock). -/
def acquiresleep (ip : InodePtr) : KernM Unit :=
  Free.call (.mem fun p m =>
    match (m.inode ip).lock with
    | none => .ok () (m.setInode ip (fun i => { i with lock := some p }))
    | some _ => .wait)

/-- releasesleep(&ip->lock). -/
def releasesleep (ip : InodePtr) : KernM Unit := setInode ip (fun i => { i with lock := none })

/-- The part of ilock() that reads the inode from disk. -/
def ilockRead (ip : InodePtr) (inum : Nat) : KernM Unit := do
  let sb ← getSb
  let bp ← bread (sb.iblock inum)
  let d ← bdata bp
  setCopy ip (fun _ => dinodeAt d inum)
  brelse bp
  setInode ip (fun i => { i with valid := true })
  when ((dinodeAt d inum).type = 0) (panic .ilockNoType)

def ilock (ip : InodePtr) : KernM Unit := do
  let i ← inodeOf ip
  if i.ref < 1 then panic .ilock
  else
    acquiresleep ip
    let i ← inodeOf ip
    when (i.valid = false) (ilockRead ip i.inum)

def iunlock (ip : InodePtr) : KernM Unit :=
  Free.call (.mem fun p m =>
    if (m.inode ip).lock ≠ some p ∨ (m.inode ip).ref < 1 then .fail .iunlock
    else .ok () (m.setInode ip (fun i => { i with lock := none })))

/- Inode content. -/

def addrOf (ip : InodePtr) (k : Nat) : KernM Nat := get (fun m => (m.inode ip).copy.addrs.getD k 0)

def setAddr (ip : InodePtr) (k a : Nat) : KernM Unit :=
  setCopy ip (fun c => { c with addrs := c.addrs.set k a })

/-- The part of bmap() that looks into the indirect block `addr`. -/
def bmapIndirect (addr bn : Nat) : KernM Nat := do
  let bp ← bread addr
  let d ← bdata bp
  if wordAt d bn = 0 then
    let b ← balloc
    when (b ≠ 0) do
      bmodify bp (setWord d bn b)
      logWrite bp
    brelse bp
    return b
  else
    brelse bp
    return wordAt d bn

def bmap (ip : InodePtr) (bn : Nat) : KernM Nat :=
  if bn < NDIRECT then do
    let addr ← addrOf ip bn
    if addr = 0 then
      let b ← balloc
      when (b ≠ 0) (setAddr ip bn b)
      return b
    else return addr
  else if bn - NDIRECT < NINDIRECT then do
    let addr ← addrOf ip NDIRECT
    if addr = 0 then
      let b ← balloc
      if b = 0 then return 0
      else
        setAddr ip NDIRECT b
        bmapIndirect b (bn - NDIRECT)
    else bmapIndirect addr (bn - NDIRECT)
  else panic .bmapOutOfRange

/-- One turn of the first loop of itrunc(). -/
def itruncDirect (ip : InodePtr) (k : Nat) : KernM Unit := do
  let addr ← addrOf ip k
  when (addr ≠ 0) do
    bfree addr
    setAddr ip k 0

/-- One turn of the second loop, over the words of the indirect block. -/
def itruncWord (d : Block) (j : Nat) : KernM Unit := when (wordAt d j ≠ 0) (bfree (wordAt d j))

def itruncIndirect (ip : InodePtr) : KernM Unit := do
  let addr ← addrOf ip NDIRECT
  when (addr ≠ 0) do
    let bp ← bread addr
    let d ← bdata bp
    Free.forUp (itruncWord d) NINDIRECT 0
    brelse bp
    bfree addr
    setAddr ip NDIRECT 0

def itrunc (ip : InodePtr) : KernM Unit := do
  Free.forUp (itruncDirect ip) NDIRECT 0
  itruncIndirect ip
  setCopy ip (fun c => { c with size := 0 })
  iupdate ip

/-- iput() under itable.lock: if this is the last reference to an inode without links,
lock it to free it, and otherwise drop the reference. -/
def iputEnter (ip : InodePtr) : KernM Bool :=
  Free.call (.mem fun p m =>
    let i := m.inode ip
    if i.ref = 1 ∧ i.valid = true ∧ i.copy.nlink = 0 then
      match i.lock with
      | none => .ok true (m.setInode ip (fun i => { i with lock := some p }))
      | some _ => .wait
    else .ok false (m.setInode ip (fun i => { i with ref := i.ref - 1 })))

/-- The end of iput() for an inode whose content is gone. -/
def iputFree (ip : InodePtr) : KernM Unit := do
  setCopy ip (fun c => { c with type := 0 })
  iupdate ip
  setInode ip (fun i => { i with valid := false })
  releasesleep ip
  setInode ip (fun i => { i with ref := i.ref - 1 })

def iput (ip : InodePtr) : KernM Unit := do
  let free ← iputEnter ip
  when (free = true) do
    itrunc ip
    iputFree ip

def iunlockput (ip : InodePtr) : KernM Unit := do
  iunlock ip
  iput ip

/-- The loop of readi(): the answer is tot as an int, with the bytes read. -/
def readiLoop (ip : InodePtr) (dst : Dst) (n : Nat) :
    Nat → Nat → Nat → List UInt8 → KernM (Int × List UInt8)
  | 0, tot, _, acc => return (tot, acc)
  | fuel + 1, tot, off, acc =>
    if tot < n then do
      let addr ← bmap ip (off / BSIZE)
      if addr = 0 then return (tot, acc)
      else
        let bp ← bread addr
        let d ← bdata bp
        let m := min (n - tot) (BSIZE - off % BSIZE)
        if dst.copyout tot m then
          brelse bp
          readiLoop ip dst n fuel (tot + m) (off + m) (acc ++ d.get (off % BSIZE) m)
        else
          brelse bp
          return (-1, acc)
    else return (tot, acc)

def readi (ip : InodePtr) (dst : Dst) (off n : Nat) : KernM (Int × List UInt8) := do
  let i ← inodeOf ip
  if off > i.copy.size ∨ (off + n) % 2 ^ 32 < off then return (0, [])
  else
    let n := if off + n > i.copy.size then i.copy.size - off else n
    readiLoop ip dst n n 0 off []

/-- The loop of writei(): the answer is tot and off. A copy that fails has already
changed the buffer, which is released without log_write(). -/
def writeiLoop (ip : InodePtr) (src : Src) (n : Nat) : Nat → Nat → Nat → KernM (Nat × Nat)
  | 0, tot, off => return (tot, off)
  | fuel + 1, tot, off =>
    if tot < n then do
      let addr ← bmap ip (off / BSIZE)
      if addr = 0 then return (tot, off)
      else
        let bp ← bread addr
        let d ← bdata bp
        let m := min (n - tot) (BSIZE - off % BSIZE)
        let copied := src.copyin tot m
        bmodify bp (d.put (off % BSIZE) copied.1)
        if copied.2 then
          logWrite bp
          brelse bp
          writeiLoop ip src n fuel (tot + m) (off + m)
        else
          brelse bp
          return (tot, off)
    else return (tot, off)

def writei (ip : InodePtr) (src : Src) (off n : Nat) : KernM Int := do
  let i ← inodeOf ip
  if off > i.copy.size ∨ (off + n) % 2 ^ 32 < off then return -1
  else if off + n > MAXFILE * BSIZE then return -1
  else
    let (tot, off) ← writeiLoop ip src n n 0 off
    setCopy ip (fun c => { c with size := if off > c.size then off else c.size })
    iupdate ip
    return tot

/- Directories. -/

/-- readi(dp, 0, (uint64)&de, off, sizeof(de)), which has to succeed. -/
def readDirent (dp : InodePtr) (off : Nat) (e : Panic) : KernM Dirent := do
  let (n, bs) ← readi dp .kernel off 16
  if n ≠ 16 then panic e else return direntOf bs

/-- The loop of dirlookup(): the inode number and the offset of the entry. -/
def dirlookupFrom (dp : InodePtr) (name : List UInt8) (size : Nat) :
    Nat → Nat → KernM (Option (Nat × Nat))
  | 0, _ => return none
  | fuel + 1, off =>
    if off < size then do
      let de ← readDirent dp off .dirlookupRead
      if de.inum ≠ 0 ∧ namecmp name de.name then return some (de.inum, off)
      else dirlookupFrom dp name size fuel (off + 16)
    else return none

def dirlookup (dp : InodePtr) (name : List UInt8) : KernM (Option (InodePtr × Nat)) := do
  let i ← inodeOf dp
  if i.copy.type ≠ T_DIR then panic .dirlookupNotDir
  else
    match ← dirlookupFrom dp name i.copy.size (i.copy.size / 16 + 1) 0 with
    | none => return none
    | some (inum, off) =>
      let ip ← iget i.dev inum
      return some (ip, off)

/-- The loop of dirlink(): the offset of the first empty entry, or the size. -/
def emptyDirent (dp : InodePtr) (size : Nat) : Nat → Nat → KernM Nat
  | 0, off => return off
  | fuel + 1, off =>
    if off < size then do
      let de ← readDirent dp off .dirlinkRead
      if de.inum = 0 then return off else emptyDirent dp size fuel (off + 16)
    else return off

/-- dirlink(); the answer is whether it returned 0. -/
def dirlink (dp : InodePtr) (name : List UInt8) (inum : Nat) : KernM Bool := do
  match ← dirlookup dp name with
  | some (ip, _) =>
    iput ip
    return false
  | none =>
    let i ← inodeOf dp
    let off ← emptyDirent dp i.copy.size (i.copy.size / 16 + 1) 0
    let n ← writei dp (.kernel (Dirent.encode ⟨inum, strncpy name⟩)) off 16
    return n == 16

/- Paths. -/

/-- The loop of namex(), from inode `ip` on; `name` is the last element met. -/
def namexFrom (parent : Bool) : Nat → InodePtr → List UInt8 → List UInt8 →
    KernM (Option (InodePtr × List UInt8))
  | 0, _, _, _ => return none
  | fuel + 1, ip, path, name =>
    match skipelem path with
    | none =>
      if parent then do
        iput ip
        return none
      else return some (ip, name)
    | some (name, path) => do
      ilock ip
      let i ← inodeOf ip
      if i.copy.type ≠ T_DIR then
        iunlockput ip
        return none
      else if parent ∧ path = [] then
        iunlock ip
        return some (ip, name)
      else
        match ← dirlookup ip name with
        | none =>
          iunlockput ip
          return none
        | some (next, _) =>
          iunlockput ip
          namexFrom parent fuel next path name

/-- The inode a path starts from. -/
def namexStart (path : List UInt8) : KernM InodePtr :=
  if path.head? = some slash then iget ROOTDEV ROOTINO
  else Free.call (.mem fun p m =>
    match (m.proc p).bind Proc.cwd with
    | some ip => .ok ip (m.setInode ip (fun i => { i with ref := i.ref + 1 }))
    | none => .fail .kerneltrap)

/-- Each element takes at least one byte off the path, so the fuel is enough. -/
def namex (path : List UInt8) (parent : Bool) : KernM (Option (InodePtr × List UInt8)) := do
  let ip ← namexStart path
  namexFrom parent (path.length + 1) ip path []

def namei (path : List UInt8) : KernM (Option InodePtr) := do
  let r ← namex path false
  return r.map Prod.fst

def nameiparent (path : List UInt8) : KernM (Option (InodePtr × List UInt8)) := namex path true

end Kern
end Xv6
