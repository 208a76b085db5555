import Xv6.SysFile

namespace Xv6

/- User memory as the copy functions of vm.c see it. -/

/-- A page with PTE_V: the flags PTE_U and PTE_W, and the content of its frame, which no
other page of the process has. -/
structure UserPage where
  user : Bool
  writable : Bool
  data : ByteArr PGSIZE

/-- The address space of a process, by page number. -/
abbrev UserSpace := Nat → Option UserPage

namespace UserSpace

/-- The byte at `va`, and the `len` bytes from there, as the process reads them; 0 where nothing
is mapped. -/
def byte (us : UserSpace) (va : Nat) : UInt8 :=
  match us (va / PGSIZE) with
  | some u => u.data.byteAt (va % PGSIZE)
  | none => 0

def bytes (us : UserSpace) (va len : Nat) : List UInt8 :=
  (List.range len).map (fun i => us.byte (va + i))

/-- The test of copyout() on a page. -/
def mayWrite (us : UserSpace) (pg : Nat) : Bool :=
  match us pg with
  | some u => u.user && u.writable
  | none => false

/-- memmove() into a page. -/
def store (us : UserSpace) (pg off : Nat) (bs : List UInt8) : UserSpace :=
  setAt us pg ((us pg).map (fun u => { u with data := u.data.put off bs }))

/-- The loop of copyout(): the memory after it, and whether it returned 0. -/
def copyoutLoop : Nat → UserSpace → Nat → List UInt8 → UserSpace × Bool
  | 0, us, _, _ => (us, true)
  | fuel + 1, us, dstva, src =>
    if src.length = 0 then (us, true)
    else
      let va0 := dstva / PGSIZE * PGSIZE
      if va0 < MAXVA ∧ us.mayWrite (va0 / PGSIZE) then
        let n := min (PGSIZE - (dstva - va0)) src.length
        copyoutLoop fuel (us.store (va0 / PGSIZE) (dstva - va0) (src.take n)) (va0 + PGSIZE) (src.drop n)
      else (us, false)

/-- Every turn copies a byte or more. -/
def copyout (us : UserSpace) (dstva : Nat) (src : List UInt8) : UserSpace × Bool :=
  copyoutLoop src.length us dstva src

end UserSpace

/-- The inner loop of copyinstr() over what is left of a page: the bytes written to dst, and
got_null. -/
def copyUntilNul : List UInt8 → List UInt8 × Bool
  | [] => ([], false)
  | c :: cs =>
    if c = 0 then ([0], true)
    else
      let rest := copyUntilNul cs
      (c :: rest.1, rest.2)

/-- copyinstr(): the bytes written to dst, and whether it returned 0. -/
def copyinstrLoop (um : UserMem) : Nat → Nat → Nat → List UInt8 × Bool
  | 0, _, _ => ([], false)
  | fuel + 1, srcva, max =>
    if max = 0 then ([], false)
    else
      let va0 := srcva / PGSIZE * PGSIZE
      match walkaddr um va0 with
      | none => ([], false)
      | some page =>
        let n := min (PGSIZE - (srcva - va0)) max
        let copied := copyUntilNul (page.get (srcva - va0) n)
        if copied.2 then copied
        else
          let rest := copyinstrLoop um fuel (va0 + PGSIZE) (max - n)
          (copied.1 ++ rest.1, rest.2)

def copyinstr (um : UserMem) (srcva max : Nat) : List UInt8 × Bool := copyinstrLoop um max srcva max

def MAXPATH : Nat := 128

/-- The string that a buffer starts with. -/
def strOf (bs : List UInt8) : List UInt8 := bs.takeWhile (fun c => c != 0)

/-- argstr() of the pointer `addr` into a buffer on a stack that holds `stack` from the buffer on,
and what the caller then has in it. -/
def argstr (um : UserMem) (addr max : Nat) (stack : List UInt8) : StrArg :=
  let copied := copyinstr um addr max
  let buf := copied.1 ++ stack.drop copied.1.length
  if copied.2 then .str (strOf buf) else .bad (strOf buf)

end Xv6
