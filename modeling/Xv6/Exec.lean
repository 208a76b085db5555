import Xv6.Vm

namespace Xv6.Vm

abbrev MAXARG : Nat := 32
abbrev USERSTACK : Nat := 1

/- elf.h -/

abbrev ELF_MAGIC : Nat := 0x464C457F
abbrev ELF_PROG_LOAD : Nat := 1

structure Elfhdr where
  magic : Nat
  entry : Nat
  phoff : Nat
  phnum : Nat

structure Proghdr where
  type : Nat
  flags : Nat
  off : Nat
  vaddr : Nat
  filesz : Nat
  memsz : Nat

/-- The field of `len` bytes at `off`. -/
def fieldAt (bs : List UInt8) (off len : Nat) : Nat := Bytes.ofLe ((bs.drop off).take len)

def Elfhdr.size : Nat := 64
def Elfhdr.ofBytes (bs : List UInt8) : Elfhdr := ⟨fieldAt bs 0 4, fieldAt bs 24 8, fieldAt bs 32 8, fieldAt bs 56 2⟩

def Proghdr.size : Nat := 56
def Proghdr.ofBytes (bs : List UInt8) : Proghdr :=
  ⟨fieldAt bs 0 4, fieldAt bs 4 4, fieldAt bs 8 8, fieldAt bs 16 8, fieldAt bs 32 8, fieldAt bs 40 8⟩

/- What exec() uses of the file system. -/

/-- `file off n` is what readi() of `n` bytes at `off` gets, which can be less, and `found` is whether namei() finds the
path. `ops` counts the calls of begin_op() without their end_op(), and `refs` the references to the inode. -/
structure Exe where
  file : Nat → Nat → List UInt8
  found : Bool
  ops : Nat
  refs : Nat
  locked : Bool

abbrev ExecM := StateT Exe VmM

def beginOp : ExecM Unit := modify (fun e => { e with ops := e.ops + 1 })
def endOp : ExecM Unit := modify (fun e => { e with ops := e.ops - 1 })

def namei : ExecM Bool := do
  let e ← get
  if e.found then set { e with refs := e.refs + 1 }
  return e.found

def ilock : ExecM Unit := modify (fun e => { e with locked := true })
def iunlockput : ExecM Unit := modify (fun e => { e with locked := false, refs := e.refs - 1 })

def readi (off n : Nat) : ExecM (List UInt8) := do
  let e ← get
  return (e.file off n).take n

/- exec.c -/

def flags2perm (flags : Nat) : Nat :=
  (if has flags 1 then PTE_X else 0) ||| (if has flags 2 then PTE_W else 0)

/-- The loop of loadseg(), from byte `i` of the segment on. -/
def loadsegLoop (pt va offset sz : Nat) : Nat → Nat → ExecM Int
  | 0, _ => forever
  | fuel + 1, i => do
    if i < sz then
      let pa ← walkaddr pt ((va + i) % 2 ^ 64)
      if pa = 0 then panic .loadseg
      else
        let n := min (sz - i) PGSIZE
        let bs ← readi ((offset + i) % 2 ^ 32) n
        let d ← getPage (pa / PGSIZE)
        setPage (pa / PGSIZE) (d.put 0 bs)
        if bs.length ≠ n then return -1
        else loadsegLoop pt va offset sz fuel ((i + PGSIZE) % 2 ^ 32)
    else return 0

/-- loadseg(); its `uint offset` and `uint sz` are the low halves of what it is given. -/
def loadseg (pt va offset sz : Nat) : ExecM Int :=
  loadsegLoop pt va (offset % 2 ^ 32) (sz % 2 ^ 32) (sz % 2 ^ 32 / PGSIZE + 2) 0

/-- The program headers from `off` on. The answer is the size, and whether all is well. -/
def loadSegs (pt : Nat) : Nat → Nat → Nat → ExecM (Bool × Nat)
  | 0, _, sz => return (true, sz)
  | n + 1, off, sz => do
    let bs ← readi off Proghdr.size
    if bs.length ≠ Proghdr.size then return (false, sz)
    else
      let ph := Proghdr.ofBytes bs
      if ph.type ≠ ELF_PROG_LOAD then loadSegs pt n ((off + Proghdr.size) % 2 ^ 32) sz
      else if ph.memsz < ph.filesz then return (false, sz)
      else if (ph.vaddr + ph.memsz) % 2 ^ 64 < ph.vaddr then return (false, sz)
      else if ph.vaddr % PGSIZE ≠ 0 then return (false, sz)
      else
        let sz1 ← uvmalloc pt sz ((ph.vaddr + ph.memsz) % 2 ^ 64) (flags2perm ph.flags)
        if sz1 = 0 then return (false, sz)
        else if (← loadseg pt ph.vaddr ph.off ph.filesz) < 0 then return (false, sz1)
        else loadSegs pt n ((off + Proghdr.size) % 2 ^ 32) sz1

/-- Down by `n` bytes, then to a multiple of 16. -/
def pushDown (sp n : Nat) : Nat :=
  let sp := (sp + 2 ^ 64 - n) % 2 ^ 64
  sp - sp % 16

/-- The argument strings: the stack pointer and the strings' addresses, unless they do not fit. -/
def pushStrings (pt stackbase : Nat) : List (List UInt8) → Nat → Nat → VmM (Option (Nat × List Nat))
  | [], _, sp => return some (sp, [])
  | arg :: rest, argc, sp => do
    if argc ≥ MAXARG then return none
    else
      let sp := pushDown sp (arg.length + 1)
      if sp < stackbase then return none
      else if (← copyout pt sp (arg ++ [0])) < 0 then return none
      else
        match ← pushStrings pt stackbase rest (argc + 1) sp with
        | none => return none
        | some (sp', ustack) => return some (sp', sp :: ustack)

/-- The argument strings, then the array of their addresses: the stack pointer. -/
def pushArgs (pt stackbase sp : Nat) (argv : List (List UInt8)) : VmM (Option Nat) := do
  match ← pushStrings pt stackbase argv 0 sp with
  | none => return none
  | some (sp, ustack) =>
    let sp := pushDown sp ((argv.length + 1) * 8)
    if sp < stackbase then return none
    else if (← copyout pt sp ((ustack ++ [0]).flatMap (Bytes.le 8))) < 0 then return none
    else return some sp

/-- The user stack: the size with it, and the stack pointer unless something is wrong. -/
def execStack (pt sz : Nat) (argv : List (List UInt8)) : VmM (Option Nat × Nat) := do
  let sz := pgroundup sz
  let sz1 ← uvmalloc pt sz ((sz + (USERSTACK + 1) * PGSIZE) % 2 ^ 64) PTE_W
  if sz1 = 0 then return (none, sz)
  else
    uvmclear pt (sz1 - (USERSTACK + 1) * PGSIZE)
    let sp ← pushArgs pt (sz1 - USERSTACK * PGSIZE) sz1 argv
    return (sp, sz1)

/-- What exec() changes of a process. -/
structure Image where
  proc : Proc
  epc : Nat
  sp : Nat
  a1 : Nat
  name : List UInt8

/-- What follows the last slash of a path. -/
def lastElem : List UInt8 → List UInt8 → List UInt8
  | last, [] => last
  | last, c :: s => lastElem (if c = 47 then s else last) s

/-- The label `bad`: `pt` is the new page table, if there is one, and `ip` whether the inode is still held. -/
def bad (pt : Option Nat) (sz : Nat) (ip : Bool) : ExecM Unit := do
  match pt with
  | some pt => procFreepagetable pt sz
  | none => pure ()
  if ip then
    iunlockput
    endOp

/-- exec(); `tramp` is the address of the trampoline. -/
def exec (tramp : Nat) (p : Image) (path : List UInt8) (argv : List (List UInt8)) : ExecM (Int × Image) := do
  beginOp
  if (← namei) = false then
    endOp
    return (-1, p)
  else
    ilock
    let bs ← readi 0 Elfhdr.size
    let elf := Elfhdr.ofBytes bs
    if bs.length ≠ Elfhdr.size ∨ elf.magic ≠ ELF_MAGIC then
      bad none 0 true
      return (-1, p)
    else
      match ← procPagetable tramp p.proc.trapframe with
      | none =>
        bad none 0 true
        return (-1, p)
      | some pt =>
        let (loaded, sz) ← loadSegs pt elf.phnum (elf.phoff % 2 ^ 32) 0
        if loaded = false then
          bad (some pt) sz true
          return (-1, p)
        else
          iunlockput
          endOp
          match ← execStack pt sz argv with
          | (none, sz) =>
            bad (some pt) sz false
            return (-1, p)
          | (some sp, sz) =>
            procFreepagetable p.proc.pagetable p.proc.sz
            return (argv.length, ⟨{ p.proc with pagetable := pt, sz := sz }, elf.entry, sp, sp, (lastElem path path).take 15⟩)

end Xv6.Vm
