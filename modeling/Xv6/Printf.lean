import Xv6.Lib.Buffer

namespace Xv6

/- What both versions of printint() do. An index outside an array gives `none`. -/

namespace Printf

abbrev MINUS : UInt8 := 45
abbrev PERCENT : UInt8 := 37

/-- `do { buf[i++] = digits[x % base]; } while((x /= base) != 0);` -/
def digitLoop (digits : List UInt8) (base : Nat) : Nat → Nat → List UInt8 → Nat → Option (List UInt8 × Nat)
  | 0, _, _, _ => none
  | fuel + 1, x, buf, i => do
    let c ← digits[x % base]?
    let buf ← Buffer.write buf i c
    if x / base ≠ 0 then digitLoop digits base fuel (x / base) buf (i + 1)
    else return (buf, i + 1)

/-- `while(--i >= 0) putc(buf[i]);` -/
def putBack (buf : List UInt8) : Nat → Option (List UInt8)
  | 0 => some []
  | i + 1 => do
    let c ← buf[i]?
    let out ← putBack buf i
    return c :: out

/-- printint() once it has the sign and x. A number of 64 bits has no more than 64 digits. -/
def putNumber (digits : List UInt8) (base : Nat) (neg : Bool) (x : Nat) (buf : List UInt8) : Option (List UInt8) := do
  let (buf, i) ← digitLoop digits base 65 x buf 0
  if neg then
    let buf ← Buffer.write buf i MINUS
    putBack buf (i + 1)
  else putBack buf i

end Printf

/- user/printf.c -/

namespace UserPrintf
open Printf

/-- "0123456789ABCDEF" -/
def digits : List UInt8 := [48, 49, 50, 51, 52, 53, 54, 55, 56, 57, 65, 66, 67, 68, 69, 70]

/-- printint(): what it writes; `buf` is what its local array holds at first. -/
def printint (buf : List UInt8) (xx : BitVec 32) (base : Nat) (sgn : Bool) : Option (List UInt8) :=
  if sgn = true ∧ xx.toInt < 0 then putNumber digits base true (-xx).toNat buf
  else putNumber digits base false xx.toNat buf

/-- The loop of printptr(). -/
def printptrLoop : Nat → BitVec 64 → Option (List UInt8)
  | 0, _ => some []
  | n + 1, x => do
    let c ← digits[(x >>> 60).toNat]?
    let out ← printptrLoop n (x <<< 4)
    return c :: out

def printptr (x : BitVec 64) : Option (List UInt8) := do
  let out ← printptrLoop 16 x
  return 48 :: 120 :: out

/-- An argument that va_arg() takes: a register, or a pointer to a string. -/
inductive Arg where
  | val (v : BitVec 64)
  | str (s : Option (List UInt8))

/-- What follows a `%`. -/
inductive Directive where
  | int (base : Nat) (sgn : Bool)
  | long (base : Nat) (sgn : Bool) (skip : Nat)
  | ptr | str | percent | unknown

/-- The tests of vprintf() on c0, c1 and c2. -/
def directive (c0 c1 c2 : UInt8) : Directive :=
  if c0 = 100 then .int 10 true
  else if c0 = 108 ∧ c1 = 100 then .long 10 true 1
  else if c0 = 108 ∧ c1 = 108 ∧ c2 = 100 then .long 10 true 2
  else if c0 = 117 then .int 10 false
  else if c0 = 108 ∧ c1 = 117 then .long 10 false 1
  else if c0 = 108 ∧ c1 = 108 ∧ c2 = 117 then .long 10 false 2
  else if c0 = 120 then .int 16 false
  else if c0 = 108 ∧ c1 = 120 then .long 16 false 1
  else if c0 = 108 ∧ c1 = 108 ∧ c2 = 120 then .long 16 false 2
  else if c0 = 112 then .ptr
  else if c0 = 115 then .str
  else if c0 = PERCENT then .percent
  else .unknown

/-- What is written for a directive, the arguments that are left, and how many more bytes of fmt are skipped. printint() takes an int,
so a uint64 is cut to 32 bits. -/
def convert (buf : List UInt8) (c0 : UInt8) : Directive → List Arg → Option (List UInt8 × List Arg × Nat)
  | .int base sgn, .val v :: ap => (printint buf (v.setWidth 32) base sgn).map (·, ap, 0)
  | .long base sgn skip, .val v :: ap => (printint buf (v.setWidth 32) base sgn).map (·, ap, skip)
  | .ptr, .val v :: ap => (printptr v).map (·, ap, 0)
  | .str, .str (some s) :: ap => some (s, ap, 0)
  | .str, .str none :: ap => some ([40, 110, 117, 108, 108, 41], ap, 0)
  | .percent, ap => some ([PERCENT], ap, 0)
  | .unknown, ap => some ([PERCENT, c0], ap, 0)
  | _, _ => none

/-- The loop of vprintf(), with what it has written. -/
def vprintfLoop (buf : List UInt8) : Nat → List UInt8 → Bool → List Arg → List UInt8 → Option (List UInt8)
  | 0, _, _, _, _ => none
  | _ + 1, [], _, _, out => some out
  | fuel + 1, c0 :: fmt, false, ap, out =>
    if c0 = PERCENT then vprintfLoop buf fuel fmt true ap out
    else vprintfLoop buf fuel fmt false ap (out ++ [c0])
  | fuel + 1, c0 :: fmt, true, ap, out => do
    let c1 := fmt.headD 0
    let c2 := if c1 ≠ 0 then fmt.tail.headD 0 else 0
    let (text, ap, skip) ← convert buf c0 (directive c0 c1 c2) ap
    vprintfLoop buf fuel (fmt.drop skip) false ap (out ++ text)

/-- vprintf(): what it writes to fd. `fmt` is the string without its NUL. -/
def vprintf (buf fmt : List UInt8) (ap : List Arg) : Option (List UInt8) := vprintfLoop buf (fmt.length + 1) fmt false ap []

end UserPrintf

/- kernel/printf.c -/

namespace KernelPrintf
open Printf

/-- "0123456789abcdef" -/
def digits : List UInt8 := [48, 49, 50, 51, 52, 53, 54, 55, 56, 57, 97, 98, 99, 100, 101, 102]

/-- printint(): what it gives to consputc(); `buf` is what its local array holds at first. -/
def printint (buf : List UInt8) (xx : BitVec 64) (base : Nat) (sign : Bool) : Option (List UInt8) :=
  if sign = true ∧ xx.toInt < 0 then putNumber digits base true (-xx).toNat buf
  else putNumber digits base false xx.toNat buf

end KernelPrintf

end Xv6
