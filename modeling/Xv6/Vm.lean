import Xv6.UserSpace

namespace Xv6.Vm

/- riscv.h, memlayout.h -/

abbrev PTE_V : Nat := 1 <<< 0
abbrev PTE_R : Nat := 1 <<< 1
abbrev PTE_W : Nat := 1 <<< 2
abbrev PTE_X : Nat := 1 <<< 3
abbrev PTE_U : Nat := 1 <<< 4

abbrev PHYSTOP : Nat := 0x88000000
abbrev TRAMPOLINE : Nat := MAXVA - PGSIZE
abbrev TRAPFRAME : Nat := TRAMPOLINE - PGSIZE

/-- `pte & flag`, as a condition. -/
def has (pte flag : Nat) : Bool := pte &&& flag != 0

def pgroundup (sz : Nat) : Nat := (sz + PGSIZE - 1) % 2 ^ 64 / PGSIZE * PGSIZE
def pgrounddown (a : Nat) : Nat := a / PGSIZE * PGSIZE
def pa2pte (pa : Nat) : Nat := pa / 2 ^ 12 * 2 ^ 10
def pte2pa (pte : Nat) : Nat := pte / 2 ^ 10 * 2 ^ 12 % 2 ^ 64
def pteFlags (pte : Nat) : Nat := pte % 2 ^ 10
def px (level va : Nat) : Nat := va / 2 ^ (12 + 9 * level) % 2 ^ 9

/-- The panics of vm.c, kalloc.c and exec.c. -/
inductive Panic where
  | kfree | walk | mappagesVa | mappagesSize | mappagesNothing | remap
  | unmapAligned | unmapWalk | unmapNotMapped | unmapNotLeaf | freewalkLeaf
  | uvmcopyPte | uvmcopyPage | uvmclear | loadseg
  deriving DecidableEq

/-- Physical memory by page number, and the free pages. `kend` is the address `end`. The calls of kalloc() that `deny`
has as true find the list empty, for other processes have taken the pages. -/
structure Ram where
  page : Nat → ByteArr PGSIZE
  freelist : List Nat
  deny : List Bool
  kend : Nat

/-- Entry `i` of the page-table page `pt`. -/
def Ram.pte (s : Ram) (pt i : Nat) : Nat := Bytes.ofLe ((s.page pt).get (8 * i) 8)

def Ram.setPage (s : Ram) (n : Nat) (d : ByteArr PGSIZE) : Ram := { s with page := setAt s.page n d }

/-- Kernel code that works on physical memory. A run that waits does not come to its end. -/
def VmM (α : Type) := Ram → Out Panic Ram α

namespace VmM

def bind (m : VmM α) (f : α → VmM β) : VmM β := fun s =>
  match m s with
  | .ok a s => f a s
  | .wait => .wait
  | .fail e => .fail e

instance : Monad VmM where
  pure a := fun s => .ok a s
  bind := VmM.bind

end VmM

def panic (e : Panic) : VmM α := fun _ => .fail e
def forever : VmM α := fun _ => .wait

def getPage (n : Nat) : VmM (ByteArr PGSIZE) := fun s => .ok (s.page n) s
def setPage (n : Nat) (d : ByteArr PGSIZE) : VmM Unit := fun s => .ok () (s.setPage n d)

/-- memset() of a page. -/
def memset (n : Nat) (c : UInt8) : VmM Unit := setPage n (fun _ => c)

def getPte (pt i : Nat) : VmM Nat := fun s => .ok (s.pte pt i) s
def setPte (pt i x : Nat) : VmM Unit := do
  let d ← getPage pt
  setPage pt (d.put (8 * i) (Bytes.le 8 x))

/- kalloc.c. A page is named by its number, which is its address divided by PGSIZE. -/

def kfree (pa : Nat) : VmM Unit := fun s =>
  if pa % PGSIZE ≠ 0 ∨ pa < s.kend ∨ pa ≥ PHYSTOP then .fail .kfree
  else .ok () { s.setPage (pa / PGSIZE) (fun _ => 1) with freelist := pa / PGSIZE :: s.freelist }

def kalloc : VmM (Option Nat) := fun s =>
  match s.freelist, s.deny.headD false with
  | n :: rest, false => .ok (some n) { s.setPage n (fun _ => 5) with freelist := rest, deny := s.deny.tail }
  | _, _ => .ok none { s with deny := s.deny.tail }

/- vm.c -/

/-- The page-table page that entry `i` of `pt` leads to; with `alloc` it is made if need be. -/
def walkEntry (alloc : Bool) (pt i : Nat) : VmM (Option Nat) := do
  let pte ← getPte pt i
  if has pte PTE_V then return some (pte2pa pte / PGSIZE)
  else if alloc = false then return none
  else
    match ← kalloc with
    | none => return none
    | some n =>
      memset n 0
      setPte pt i (pa2pte (n * PGSIZE) ||| PTE_V)
      return some n

/-- The loop of walk(), from `level` down to 1: the page and the index of the PTE. -/
def walkFrom (va : Nat) (alloc : Bool) : Nat → Nat → VmM (Option (Nat × Nat))
  | 0, pt => return some (pt, px 0 va)
  | level + 1, pt => do
    match ← walkEntry alloc pt (px (level + 1) va) with
    | none => return none
    | some next => walkFrom va alloc level next

def walk (pt va : Nat) (alloc : Bool) : VmM (Option (Nat × Nat)) :=
  if va ≥ MAXVA then panic .walk else walkFrom va alloc 2 pt

def walkaddr (pt va : Nat) : VmM Nat := do
  if va ≥ MAXVA then return 0
  else
    match ← walk pt va false with
    | none => return 0
    | some (a, i) =>
      let pte ← getPte a i
      if has pte PTE_V = false ∨ has pte PTE_U = false then return 0
      else return pte2pa pte

/-- The loop of mappages(); `fuel` is the number of pages. -/
def mappagesLoop (pt last perm : Nat) : Nat → Nat → Nat → VmM Int
  | 0, _, _ => forever
  | fuel + 1, a, pa => do
    match ← walk pt a true with
    | none => return -1
    | some (t, i) =>
      let pte ← getPte t i
      if has pte PTE_V then panic .remap
      else
        setPte t i (pa2pte pa ||| perm ||| PTE_V)
        if a = last then return 0
        else mappagesLoop pt last perm fuel ((a + PGSIZE) % 2 ^ 64) ((pa + PGSIZE) % 2 ^ 64)

def mappages (pt va size pa perm : Nat) : VmM Int :=
  if va % PGSIZE ≠ 0 then panic .mappagesVa
  else if size % PGSIZE ≠ 0 then panic .mappagesSize
  else if size = 0 then panic .mappagesNothing
  else mappagesLoop pt ((va + size - PGSIZE) % 2 ^ 64) perm (size / PGSIZE) va pa

/-- What uvmunmap() does with one page. -/
def unmapPage (pt : Nat) (doFree : Bool) (a : Nat) : VmM Unit := do
  match ← walk pt a false with
  | none => panic .unmapWalk
  | some (t, i) =>
    let pte ← getPte t i
    if has pte PTE_V = false then panic .unmapNotMapped
    else if pteFlags pte = PTE_V then panic .unmapNotLeaf
    else
      if doFree then kfree (pte2pa pte)
      setPte t i 0

def uvmunmapLoop (pt last : Nat) (doFree : Bool) : Nat → Nat → VmM Unit
  | 0, _ => forever
  | fuel + 1, a => do
    if a < last then
      unmapPage pt doFree a
      uvmunmapLoop pt last doFree fuel ((a + PGSIZE) % 2 ^ 64)
    else return ()

def uvmunmap (pt va npages : Nat) (doFree : Bool) : VmM Unit :=
  if va % PGSIZE ≠ 0 then panic .unmapAligned
  else uvmunmapLoop pt ((va + npages * PGSIZE) % 2 ^ 64) doFree (npages + 1) va

def uvmcreate : VmM (Option Nat) := do
  match ← kalloc with
  | none => return none
  | some n =>
    memset n 0
    return some n

def uvmdealloc (pt oldsz newsz : Nat) : VmM Nat := do
  if newsz ≥ oldsz then return oldsz
  else
    if pgroundup newsz < pgroundup oldsz then
      uvmunmap pt (pgroundup newsz) ((pgroundup oldsz - pgroundup newsz) / PGSIZE) true
    return newsz

/-- The loop of uvmalloc(), from `a` on. -/
def uvmallocLoop (pt oldsz newsz xperm : Nat) : Nat → Nat → VmM Nat
  | 0, _ => forever
  | fuel + 1, a => do
    if a < newsz then
      match ← kalloc with
      | none =>
        let _ ← uvmdealloc pt a oldsz
        return 0
      | some mem =>
        memset mem 0
        let r ← mappages pt a PGSIZE (mem * PGSIZE) (PTE_R ||| PTE_U ||| xperm)
        if r ≠ 0 then
          kfree (mem * PGSIZE)
          let _ ← uvmdealloc pt a oldsz
          return 0
        else uvmallocLoop pt oldsz newsz xperm fuel ((a + PGSIZE) % 2 ^ 64)
    else return newsz

def uvmalloc (pt oldsz newsz xperm : Nat) : VmM Nat :=
  if newsz < oldsz then return oldsz
  else uvmallocLoop pt (pgroundup oldsz) newsz xperm (newsz / PGSIZE + 2) (pgroundup oldsz)

/-- The loop of freewalk() over the entries from `i` on. -/
def freewalkLoop (freeChild : Nat → VmM Unit) (pt : Nat) : Nat → Nat → VmM Unit
  | 0, _ => return ()
  | n + 1, i => do
    let pte ← getPte pt i
    if has pte PTE_V ∧ has pte (PTE_R ||| PTE_W ||| PTE_X) = false then
      freeChild (pte2pa pte / PGSIZE)
      setPte pt i 0
      freewalkLoop freeChild pt n (i + 1)
    else if has pte PTE_V then panic .freewalkLeaf
    else freewalkLoop freeChild pt n (i + 1)

/-- freewalk() of a table of at most so many levels. -/
def freewalkFrom : Nat → Nat → VmM Unit
  | 0, _ => forever
  | levels + 1, pt => do
    freewalkLoop (freewalkFrom levels) pt 512 0
    kfree (pt * PGSIZE)

def freewalk (pt : Nat) : VmM Unit := freewalkFrom 3 pt

def uvmfree (pt sz : Nat) : VmM Unit := do
  if sz > 0 then uvmunmap pt 0 (pgroundup sz / PGSIZE) true
  freewalk pt

def uvmcopyLoop (old new sz : Nat) : Nat → Nat → VmM Int
  | 0, _ => forever
  | fuel + 1, i => do
    if i < sz then
      match ← walk old i false with
      | none => panic .uvmcopyPte
      | some (t, k) =>
        let pte ← getPte t k
        if has pte PTE_V = false then panic .uvmcopyPage
        else
          match ← kalloc with
          | none =>
            uvmunmap new 0 (i / PGSIZE) true
            return -1
          | some mem =>
            let d ← getPage (pte2pa pte / PGSIZE)
            setPage mem d
            let r ← mappages new i PGSIZE (mem * PGSIZE) (pteFlags pte)
            if r ≠ 0 then
              kfree (mem * PGSIZE)
              uvmunmap new 0 (i / PGSIZE) true
              return -1
            else uvmcopyLoop old new sz fuel ((i + PGSIZE) % 2 ^ 64)
    else return 0

def uvmcopy (old new sz : Nat) : VmM Int := uvmcopyLoop old new sz (sz / PGSIZE + 2) 0

def uvmclear (pt va : Nat) : VmM Unit := do
  match ← walk pt va false with
  | none => panic .uvmclear
  | some (a, i) =>
    let pte ← getPte a i
    setPte a i (if has pte PTE_U then pte - PTE_U else pte)

/-- copyout() of the bytes `src`. -/
def copyoutLoop (pt : Nat) : Nat → Nat → List UInt8 → VmM Int
  | 0, _, _ => forever
  | fuel + 1, dstva, src => do
    if src.length > 0 then
      let va0 := pgrounddown dstva
      if va0 ≥ MAXVA then return -1
      else
        match ← walk pt va0 false with
        | none => return -1
        | some (a, i) =>
          let pte ← getPte a i
          if has pte PTE_V = false ∨ has pte PTE_U = false ∨ has pte PTE_W = false then return -1
          else
            let n := min (PGSIZE - (dstva - va0)) src.length
            let d ← getPage (pte2pa pte / PGSIZE)
            setPage (pte2pa pte / PGSIZE) (d.put (dstva - va0) (src.take n))
            copyoutLoop pt fuel ((va0 + PGSIZE) % 2 ^ 64) (src.drop n)
    else return 0

def copyout (pt dstva : Nat) (src : List UInt8) : VmM Int := copyoutLoop pt (src.length + 1) dstva src

/-- copyin(): the bytes written to dst, and the answer. -/
def copyinLoop (pt : Nat) : Nat → Nat → Nat → VmM (List UInt8 × Int)
  | 0, _, _ => forever
  | fuel + 1, srcva, len => do
    if len > 0 then
      let va0 := pgrounddown srcva
      let pa0 ← walkaddr pt va0
      if pa0 = 0 then return ([], -1)
      else
        let n := min (PGSIZE - (srcva - va0)) len
        let d ← getPage (pa0 / PGSIZE)
        let (rest, r) ← copyinLoop pt fuel ((va0 + PGSIZE) % 2 ^ 64) (len - n)
        return (d.get (srcva - va0) n ++ rest, r)
    else return ([], 0)

def copyin (pt srcva len : Nat) : VmM (List UInt8 × Int) := copyinLoop pt (len + 1) srcva len

/-- copyinstr(): the bytes written to dst, and the answer. -/
def copyinstrLoop (pt : Nat) : Nat → Nat → Nat → VmM (List UInt8 × Int)
  | 0, _, _ => forever
  | fuel + 1, srcva, max => do
    if max > 0 then
      let va0 := pgrounddown srcva
      let pa0 ← walkaddr pt va0
      if pa0 = 0 then return ([], -1)
      else
        let n := min (PGSIZE - (srcva - va0)) max
        let d ← getPage (pa0 / PGSIZE)
        let copied := copyUntilNul (d.get (srcva - va0) n)
        if copied.2 then return (copied.1, 0)
        else
          let (rest, r) ← copyinstrLoop pt fuel ((va0 + PGSIZE) % 2 ^ 64) (max - n)
          return (copied.1 ++ rest, r)
    else return ([], -1)

def copyinstr (pt srcva max : Nat) : VmM (List UInt8 × Int) := copyinstrLoop pt (max + 1) srcva max

/- proc.c -/

/-- proc_pagetable(); `trampoline` and `trapframe` are addresses. -/
def procPagetable (trampoline trapframe : Nat) : VmM (Option Nat) := do
  match ← uvmcreate with
  | none => return none
  | some pt =>
    let r ← mappages pt TRAMPOLINE PGSIZE trampoline (PTE_R ||| PTE_X)
    if r < 0 then
      uvmfree pt 0
      return none
    else
      let r ← mappages pt TRAPFRAME PGSIZE trapframe (PTE_R ||| PTE_W)
      if r < 0 then
        uvmunmap pt TRAMPOLINE 1 false
        uvmfree pt 0
        return none
      else return some pt

def procFreepagetable (pt sz : Nat) : VmM Unit := do
  uvmunmap pt TRAMPOLINE 1 false
  uvmunmap pt TRAPFRAME 1 false
  uvmfree pt sz

/-- What struct proc has for user memory; 0 is no trapframe and no page table. -/
structure Proc where
  sz : Nat
  pagetable : Nat
  trapframe : Nat

def freeproc (p : Proc) : VmM Proc := do
  if p.trapframe ≠ 0 then kfree p.trapframe
  if p.pagetable ≠ 0 then procFreepagetable p.pagetable p.sz
  return ⟨0, 0, 0⟩

/-- growproc(): the answer, and the process after it. -/
def growproc (p : Proc) (n : Int) : VmM (Int × Proc) := do
  if n > 0 then
    let sz ← uvmalloc p.pagetable p.sz (((p.sz + n) % 2 ^ 64).toNat) PTE_W
    if sz = 0 then return (-1, p) else return (0, { p with sz := sz })
  else if n < 0 then
    let sz ← uvmdealloc p.pagetable p.sz (((p.sz + n) % 2 ^ 64).toNat)
    return (0, { p with sz := sz })
  else return (0, p)

end Xv6.Vm
