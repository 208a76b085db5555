import Xv6.Lib.Buffer

namespace Xv6.Ulib

/- ulib.c. Where a string is in an array, it may end outside: reading it then gives `none`. -/

/-- strcmp() of two strings. -/
def strcmp : List UInt8 → List UInt8 → Int
  | [], [] => 0
  | [], q :: _ => 0 - (q.toNat : Int)
  | p :: _, [] => (p.toNat : Int) - 0
  | p :: ps, q :: qs => if p = q then strcmp ps qs else (p.toNat : Int) - (q.toNat : Int)

/-- The string that the array begins with. -/
def cstr : List UInt8 → Option (List UInt8)
  | [] => none
  | x :: xs => if x = 0 then some [] else (cstr xs).map (x :: ·)

def strlen (a : List UInt8) (s : Nat) : Option Nat := (cstr (a.drop s)).map List.length

/-- The loop of strchr(): `s` is the index of the first element. -/
def strchrLoop (c : UInt8) : List UInt8 → Nat → Option (Option Nat)
  | [], _ => none
  | x :: xs, s => if x = 0 then some none else if x = c then some (some s) else strchrLoop c xs (s + 1)

def strchr (a : List UInt8) (s : Nat) (c : UInt8) : Option (Option Nat) := strchrLoop c (a.drop s) s

/-- The two loops of memmove(). -/
def copyUp (a : List UInt8) (dst src : Nat) : Nat → Option (List UInt8)
  | 0 => some a
  | n + 1 => do
    let x ← a[src]?
    let a ← Buffer.write a dst x
    copyUp a (dst + 1) (src + 1) n

def copyDown (a : List UInt8) (dst src : Nat) : Nat → Option (List UInt8)
  | 0 => some a
  | n + 1 => do
    let x ← a[src + n]?
    let a ← Buffer.write a (dst + n) x
    copyDown a dst src n

def memmove (a : List UInt8) (dst src n : Nat) : Option (List UInt8) :=
  if src > dst then copyUp a dst src n else copyDown a dst src n

end Xv6.Ulib
