import Xv6.Ulib

namespace Xv6.KString

/- string.c of the kernel. Its loops are those of ulib.c. -/

/-- memmove() of the kernel: it copies from the end only if dst begins inside src. -/
def memmove (a : List UInt8) (dst src n : Nat) : Option (List UInt8) :=
  if n = 0 then some a
  else if src < dst ∧ src + n > dst then Ulib.copyDown a dst src n
  else Ulib.copyUp a dst src n

end Xv6.KString
