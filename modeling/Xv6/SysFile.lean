import Xv6.Fs

namespace Xv6

/-- What argstr() leaves: the string, or -1 and what the buffer on the stack held. -/
inductive StrArg where
  | str (s : List UInt8)
  | bad (residue : List UInt8)

abbrev Fd := Fin NOFILE

namespace Kern

def fileOf (f : FilePtr) : KernM File := get (fun m => m.file f)
def setFile (f : FilePtr) (g : File → File) : KernM Unit := update (fun m => m.setFile f g)

/- file.c -/

def filealloc : KernM (Option FilePtr) :=
  Free.call (.mem fun _ m =>
    match (List.finRange NFILE).find? (fun f => decide ((m.file f).ref = 0)) with
    | some f => .ok (some f) (m.setFile f (fun f => { f with ref := 1 }))
    | none => .ok none m)

def filedup (f : FilePtr) : KernM FilePtr :=
  Free.call (.mem fun _ m =>
    if (m.file f).ref < 1 then .fail .filedup
    else .ok f (m.setFile f (fun f => { f with ref := f.ref + 1 })))

/-- fileclose() under ftable.lock: the file, if this was its last reference. -/
def filecloseEnter (f : FilePtr) : KernM (Option File) :=
  Free.call (.mem fun _ m =>
    let ff := m.file f
    if ff.ref < 1 then .fail .fileclose
    else if ff.ref - 1 > 0 then .ok none (m.setFile f (fun f => { f with ref := f.ref - 1 }))
    else .ok (some ff) (m.setFile f (fun f => { f with ref := 0, type := .none })))

/-- pipeclose() does not touch the file system. -/
def fileclose (f : FilePtr) : KernM Unit := do
  match ← filecloseEnter f with
  | none => return ()
  | some ff =>
    when (ff.type = .inode ∨ ff.type = .device) do
      beginOp
      iput ff.ip
      endOp

/-- filestat(), up to the answer of copyout(). -/
def filestat (f : FilePtr) (copied : Bool) : KernM Int := do
  let ff ← fileOf f
  if ff.type = .inode ∨ ff.type = .device then
    ilock ff.ip
    iunlock ff.ip
    return if copied then 0 else -1
  else return -1

/-- fileread(); `other` is what piperead() or the device answers. -/
def fileread (f : FilePtr) (dst : Dst) (n other : Int) : KernM Int := do
  let ff ← fileOf f
  if ff.readable = false then return -1
  else
    match ff.type with
    | .pipe => return other
    | .device => return if ff.major < 0 ∨ ff.major ≥ NDEV then -1 else other
    | .inode =>
      ilock ff.ip
      let ff ← fileOf f
      let (r, _) ← readi ff.ip dst ff.off (toUint n)
      when (r > 0) (setFile f (fun f => { f with off := (f.off + toUint r) % 2 ^ 32 }))
      iunlock ff.ip
      return r
    | .none => panic .fileread

/-- At most this many bytes go into one transaction. -/
def maxWrite : Int := ((MAXOPBLOCKS - 1 - 1 - 2) / 2 * BSIZE : Nat)

/-- The loop of filewrite(); the answer is `i`. -/
def filewriteLoop (f : FilePtr) (ip : InodePtr) (um : UserMem) (addr : Nat) (n : Int) :
    Nat → Int → KernM Int
  | 0, i => return i
  | fuel + 1, i =>
    if i < n then do
      let n1 := if n - i > maxWrite then maxWrite else n - i
      beginOp
      ilock ip
      let ff ← fileOf f
      let r ← writei ip (.user um ((addr + i.toNat) % 2 ^ 64)) ff.off (toUint n1)
      when (r > 0) (setFile f (fun f => { f with off := (f.off + toUint r) % 2 ^ 32 }))
      iunlock ip
      endOp
      if r ≠ n1 then return i else filewriteLoop f ip um addr n fuel (i + r)
    else return i

def filewrite (f : FilePtr) (um : UserMem) (addr : Nat) (n other : Int) : KernM Int := do
  let ff ← fileOf f
  if ff.writable = false then return -1
  else
    match ff.type with
    | .pipe => return other
    | .device => return if ff.major < 0 ∨ ff.major ≥ NDEV then -1 else other
    | .inode =>
      let i ← filewriteLoop f ff.ip um addr n n.toNat 0
      return if i = n then n else -1
    | .none => panic .filewrite

/- sysfile.c -/

/-- argfd(): the descriptor, if it is in range, and its file. -/
def argfd (fd : Int) : KernM (Option (Fd × FilePtr)) :=
  Free.call (.mem fun p m =>
    if h : 0 ≤ fd ∧ fd.toNat < NOFILE then
      .ok ((((m.proc p).bind (fun pr => pr.ofile ⟨fd.toNat, h.2⟩))).map (Prod.mk ⟨fd.toNat, h.2⟩)) m
    else .ok none m)

/-- An assignment to an element of myproc()->ofile. -/
def setOfile (fd : Fd) (f : Option FilePtr) : KernM Unit :=
  Free.call (.mem fun p m =>
    .ok () (m.setProc p (fun pr => { pr with ofile := setAt pr.ofile fd f })))

def fdalloc (f : FilePtr) : KernM (Option Fd) :=
  Free.call (.mem fun p m =>
    match m.proc p with
    | none => .ok none m
    | some pr =>
      match (List.finRange NOFILE).find? (fun fd => (pr.ofile fd).isNone) with
      | some fd => .ok (some fd)
          (m.setProc p (fun pr => { pr with ofile := setAt pr.ofile fd (some f) }))
      | none => .ok none m)

def sysDup (fd : Int) : KernM Int := do
  match ← argfd fd with
  | none => return -1
  | some (_, f) =>
    match ← fdalloc f with
    | none => return -1
    | some fd =>
      let _ ← filedup f
      return fd.val

def sysRead (fd : Int) (dst : Dst) (n other : Int) : KernM Int := do
  match ← argfd fd with
  | none => return -1
  | some (_, f) => fileread f dst n other

def sysWrite (fd : Int) (um : UserMem) (addr : Nat) (n other : Int) : KernM Int := do
  match ← argfd fd with
  | none => return -1
  | some (_, f) => filewrite f um addr n other

def sysClose (fd : Int) : KernM Int := do
  match ← argfd fd with
  | none => return -1
  | some (fd, f) =>
    setOfile fd none
    fileclose f
    return 0

def sysFstat (fd : Int) (copied : Bool) : KernM Int := do
  match ← argfd fd with
  | none => return -1
  | some (_, f) => filestat f copied

/-- An end of a system call inside its operation. -/
def finish (r : Int) : KernM Int := do
  endOp
  return r

/-- The label bad of sys_link(). -/
def linkBad (ip : InodePtr) : KernM Int := do
  ilock ip
  setCopy ip (fun c => { c with nlink := toShort (c.nlink - 1) })
  iupdate ip
  iunlockput ip
  finish (-1)

/-- sys_link() once the link count of `ip` is raised. -/
def linkName (ip : InodePtr) (new : List UInt8) : KernM Int := do
  match ← nameiparent new with
  | none => linkBad ip
  | some (dp, name) =>
    ilock dp
    let d ← inodeOf dp
    let i ← inodeOf ip
    if d.dev ≠ i.dev then
      iunlockput dp
      linkBad ip
    else
      let linked ← dirlink dp name i.inum
      if linked then
        iunlockput dp
        iput ip
        finish 0
      else
        iunlockput dp
        linkBad ip

def sysLink (old new : StrArg) : KernM Int :=
  match old, new with
  | .str old, .str new => do
    beginOp
    match ← namei old with
    | none => finish (-1)
    | some ip =>
      ilock ip
      let i ← inodeOf ip
      if i.copy.type = T_DIR then
        iunlockput ip
        finish (-1)
      else
        setCopy ip (fun c => { c with nlink := toShort (c.nlink + 1) })
        iupdate ip
        iunlock ip
        linkName ip new
  | _, _ => return -1

/-- The loop of isdirempty(). -/
def isdiremptyFrom (dp : InodePtr) (size : Nat) : Nat → Nat → KernM Bool
  | 0, _ => return true
  | fuel + 1, off =>
    if off < size then do
      let de ← readDirent dp off .isdiremptyReadi
      if de.inum ≠ 0 then return false else isdiremptyFrom dp size fuel (off + 16)
    else return true

def isdirempty (dp : InodePtr) : KernM Bool := do
  let i ← inodeOf dp
  isdiremptyFrom dp i.copy.size (i.copy.size / 16 + 1) 32

/-- The end of sys_unlink(): the entry at `off` of `dp` names `ip`, both locked. -/
def unlinkEntry (dp ip : InodePtr) (off : Nat) : KernM Int := do
  let n ← writei dp (.kernel (List.replicate 16 0)) off 16
  if n ≠ 16 then panic .unlinkWritei
  else
    let i ← inodeOf ip
    when (i.copy.type = T_DIR) do
      setCopy dp (fun c => { c with nlink := toShort (c.nlink - 1) })
      iupdate dp
    iunlockput dp
    setCopy ip (fun c => { c with nlink := toShort (c.nlink - 1) })
    iupdate ip
    iunlockput ip
    finish 0

/-- The label bad of sys_unlink(). -/
def unlinkBad (dp : InodePtr) : KernM Int := do
  iunlockput dp
  finish (-1)

def unlinkName (dp : InodePtr) (name : List UInt8) : KernM Int := do
  match ← dirlookup dp name with
  | none => unlinkBad dp
  | some (ip, off) =>
    ilock ip
    let i ← inodeOf ip
    if i.copy.nlink < 1 then panic .unlinkNlink
    else if i.copy.type = T_DIR then
      let empty ← isdirempty ip
      if empty then unlinkEntry dp ip off
      else
        iunlockput ip
        unlinkBad dp
    else unlinkEntry dp ip off

def sysUnlink (path : StrArg) : KernM Int :=
  match path with
  | .bad _ => return -1
  | .str path => do
    beginOp
    match ← nameiparent path with
    | none => finish (-1)
    | some (dp, name) =>
      ilock dp
      if namecmp name dot ∨ namecmp name dotdot then unlinkBad dp else unlinkName dp name

/-- The label fail of create(). -/
def createFail (dp ip : InodePtr) : KernM (Option InodePtr) := do
  setCopy ip (fun c => { c with nlink := 0 })
  iupdate ip
  iunlockput ip
  iunlockput dp
  return none

/-- The entries . and .. of a new directory. -/
def createDots (dp ip : InodePtr) : KernM Bool := do
  let i ← inodeOf ip
  let d ← inodeOf dp
  let ok ← dirlink ip dot i.inum
  if ok then dirlink ip dotdot d.inum else return false

/-- create() from the entry in the parent on. -/
def createEntry (dp ip : InodePtr) (name : List UInt8) (type : Int) : KernM (Option InodePtr) := do
  let i ← inodeOf ip
  let linked ← dirlink dp name i.inum
  if linked then
    when (type = T_DIR) do
      setCopy dp (fun c => { c with nlink := toShort (c.nlink + 1) })
      iupdate dp
    iunlockput dp
    return some ip
  else createFail dp ip

/-- create() once the name is known to be new. -/
def createNew (dp : InodePtr) (name : List UInt8) (type major minor : Int) :
    KernM (Option InodePtr) := do
  let d ← inodeOf dp
  match ← ialloc d.dev type with
  | none =>
    iunlockput dp
    return none
  | some ip =>
    ilock ip
    setCopy ip (fun c => { c with major := major, minor := minor, nlink := 1 })
    iupdate ip
    if type = T_DIR then
      let ok ← createDots dp ip
      if ok then createEntry dp ip name type else createFail dp ip
    else createEntry dp ip name type

def create (path : List UInt8) (type major minor : Int) : KernM (Option InodePtr) := do
  match ← nameiparent path with
  | none => return none
  | some (dp, name) =>
    ilock dp
    match ← dirlookup dp name with
    | some (ip, _) =>
      iunlockput dp
      ilock ip
      let i ← inodeOf ip
      if type = T_FILE ∧ (i.copy.type = T_FILE ∨ i.copy.type = T_DEVICE) then return some ip
      else
        iunlockput ip
        return none
    | none => createNew dp name type (toShort major) (toShort minor)

/-- sys_open() once the inode is there and locked. -/
def openFile (ip : InodePtr) (omode : Nat) : KernM Int := do
  let i ← inodeOf ip
  if i.copy.type = T_DEVICE ∧ (i.copy.major < 0 ∨ i.copy.major ≥ NDEV) then
    iunlockput ip
    finish (-1)
  else
    match ← filealloc with
    | none =>
      iunlockput ip
      finish (-1)
    | some f =>
      match ← fdalloc f with
      | none =>
        fileclose f
        iunlockput ip
        finish (-1)
      | some fd =>
        setFile f (fun f =>
          { f with
            type := if i.copy.type = T_DEVICE then .device else .inode
            major := if i.copy.type = T_DEVICE then i.copy.major else f.major
            off := if i.copy.type = T_DEVICE then f.off else 0
            ip := ip
            readable := decide (omode &&& O_WRONLY = 0)
            writable := decide (omode &&& O_WRONLY ≠ 0 ∨ omode &&& O_RDWR ≠ 0) })
        when (omode &&& O_TRUNC ≠ 0 ∧ i.copy.type = T_FILE) (itrunc ip)
        iunlock ip
        finish fd.val

def sysOpen (path : StrArg) (omode : Nat) : KernM Int :=
  match path with
  | .bad _ => return -1
  | .str path => do
    beginOp
    if omode &&& O_CREATE ≠ 0 then
      match ← create path T_FILE 0 0 with
      | none => finish (-1)
      | some ip => openFile ip omode
    else
      match ← namei path with
      | none => finish (-1)
      | some ip =>
        ilock ip
        let i ← inodeOf ip
        if i.copy.type = T_DIR ∧ omode ≠ O_RDONLY then
          iunlockput ip
          finish (-1)
        else openFile ip omode

/-- sys_mkdir() and sys_mknod() after argstr(). -/
def makeNode (path : StrArg) (type major minor : Int) : KernM Int := do
  beginOp
  match path with
  | .bad _ => finish (-1)
  | .str path =>
    match ← create path type major minor with
    | none => finish (-1)
    | some ip =>
      iunlockput ip
      finish 0

def sysMkdir (path : StrArg) : KernM Int := makeNode path T_DIR 0 0
def sysMknod (path : StrArg) (major minor : Int) : KernM Int := makeNode path T_DEVICE major minor

/-- An assignment to myproc()->cwd. -/
def setCwd (ip : Option InodePtr) : KernM Unit :=
  Free.call (.mem fun p m => .ok () (m.setProc p (fun pr => { pr with cwd := ip })))

/-- iput(myproc()->cwd). -/
def iputCwd : KernM Unit := do
  let cwd ← Free.call (.mem fun p m => .ok ((m.proc p).bind Proc.cwd) m)
  match cwd with
  | some ip => iput ip
  | none => panic .kerneltrap

def sysChdir (path : StrArg) : KernM Int := do
  beginOp
  match path with
  | .bad _ => finish (-1)
  | .str path =>
    match ← namei path with
    | none => finish (-1)
    | some ip =>
      ilock ip
      let i ← inodeOf ip
      if i.copy.type ≠ T_DIR then
        iunlockput ip
        finish (-1)
      else
        iunlock ip
        iputCwd
        endOp
        setCwd (some ip)
        return 0

def sysLseek (fd offset whence : Int) : KernM Int := do
  match ← argfd fd with
  | none => return -1
  | some (_, f) =>
    let ff ← fileOf f
    if ff.type ≠ .inode ∨ ff.writable = false ∨ ff.readable = false then return -1
    else
      let i ← inodeOf ff.ip
      let base : Option Int :=
        if whence = 0 then some 0
        else if whence = 1 then some ff.off
        else if whence = 2 then some i.copy.size
        else none
      match base with
      | none => return -1
      | some base =>
        setFile f (fun f => { f with off := toUint (base + offset) })
        return toUint (base + offset)

/-- sys_chmod(). It goes on when argstr() fails. -/
def sysChmod (path : StrArg) (mode : Int) : KernM Int :=
  let path' := match path with
    | .str s => s
    | .bad residue => residue
  match path with
  | .str [] => return -1
  | _ => do
    beginOp
    match ← namei path' with
    | none => finish (-1)
    | some ip =>
      ilock ip
      setCopy ip (fun c => { c with
        type := toShort (((toUshort c.type &&& (0xFFFF ^^^ 0o777)) |||
          (toUint mode &&& 0o777) : Nat)) })
      iupdate ip
      iunlock ip
      finish 0

/-- The file system's part of exec(): `reads` are the ranges that reading the headers
and loading the segments ask for. -/
def execReads (ip : InodePtr) : List (Nat × Nat) → KernM Unit
  | [] => return ()
  | (off, n) :: rest => do
    let _ ← readi ip .kernel off n
    execReads ip rest

def sysExec (path : StrArg) (reads : List (Nat × Nat)) (result : Int) : KernM Int :=
  match path with
  | .bad _ => return -1
  | .str path => do
    beginOp
    match ← namei path with
    | none => finish (-1)
    | some ip =>
      ilock ip
      execReads ip reads
      iunlockput ip
      finish result

/-- pipealloc(); `page` is whether kalloc() finds one. -/
def pipealloc (page : Bool) : KernM (Option (FilePtr × FilePtr)) := do
  match ← filealloc with
  | none => return none
  | some f0 =>
    match ← filealloc with
    | none =>
      fileclose f0
      return none
    | some f1 =>
      if page then
        setFile f0 (fun f => { f with type := .pipe, readable := true, writable := false })
        setFile f1 (fun f => { f with type := .pipe, readable := false, writable := true })
        return some (f0, f1)
      else
        fileclose f0
        fileclose f1
        return none

def sysPipe (page copied : Bool) : KernM Int := do
  match ← pipealloc page with
  | none => return -1
  | some (rf, wf) =>
    match ← fdalloc rf with
    | none =>
      fileclose rf
      fileclose wf
      return -1
    | some fd0 =>
      match ← fdalloc wf with
      | none =>
        setOfile fd0 none
        fileclose rf
        fileclose wf
        return -1
      | some fd1 =>
        if copied then return 0
        else
          setOfile fd0 none
          setOfile fd1 none
          fileclose rf
          fileclose wf
          return -1

/- The file system's part of fork(), exit() and wait(). -/

/-- allocproc(): the first unused row. -/
def allocproc : KernM (Option ProcId) :=
  Free.call (.mem fun _ m =>
    match (List.finRange NPROC).find? (fun p => (m.proc p).isNone) with
    | some np => .ok (some np) { m with proc := setAt m.proc np (some ⟨fun _ => none, none⟩) }
    | none => .ok none m)

def ofileOf (fd : Nat) : KernM (Option (Fd × FilePtr)) := argfd fd

/-- One turn of the loop of fork() over the descriptors. -/
def forkFile (np : ProcId) (fd : Nat) : KernM Unit := do
  match ← ofileOf fd with
  | none => return ()
  | some (fd, f) =>
    let f ← filedup f
    update (fun m => m.setProc np (fun pr => { pr with ofile := setAt pr.ofile fd (some f) }))

/-- fork(); `copied` is the answer of uvmcopy(). -/
def fork (copied : Bool) : KernM Int := do
  match ← allocproc with
  | none => return -1
  | some np =>
    if copied then
      Free.forUp (forkFile np) NOFILE 0
      let cwd ← Free.call (.mem fun p m => .ok ((m.proc p).bind Proc.cwd) m)
      match cwd with
      | none => panic .kerneltrap
      | some ip =>
        let ip ← idup ip
        update (fun m => m.setProc np (fun pr => { pr with cwd := some ip }))
        return np.val
    else
      update (fun m => { m with proc := setAt m.proc np none })
      return -1

/-- One turn of the loop of exit() over the descriptors. -/
def exitFile (fd : Nat) : KernM Unit := do
  match ← ofileOf fd with
  | none => return ()
  | some (fd, f) =>
    fileclose f
    setOfile fd none

/-- initproc. -/
def initproc : ProcId := 0

def exit : KernM Int := do
  let isInit ← Free.call (.mem fun p m => .ok (decide (p = initproc)) m)
  if isInit then panic .initExiting
  else
    Free.forUp exitFile NOFILE 0
    beginOp
    iputCwd
    endOp
    setCwd none
    return 0

/-- wait() giving back the row of a process that has exited. -/
def wait (child : ProcId) : KernM Int :=
  Free.call (.mem fun p m =>
    match m.proc child with
    | some ⟨_, none⟩ => if p = child then .ok (-1) m
        else .ok child.val { m with proc := setAt m.proc child none }
    | _ => .ok (-1) m)

end Kern
end Xv6
