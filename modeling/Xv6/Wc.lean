import Xv6.Printf
import Xv6.Ulib

namespace Xv6

/- wc.c. The program is given what the calls of read() answer. -/

/-- What a read() answers. Where a list of answers ends, every further read() answers 0. -/
inductive ReadAnswer where
  | bytes (bs : List UInt8)
  | error

/-- What a program wrote to descriptor 1, and whether it exits with status 1. -/
structure Ended where
  out : List UInt8
  failed : Bool

def Ended.after (e : Ended) (out : List UInt8) : Ended := { e with out := out ++ e.out }

namespace Wc
open UserPrintf (vprintf)

abbrev NEWLINE : UInt8 := 10

/-- " \r\t\n\v", with its NUL. -/
def blanks : List UInt8 := [32, 13, 9, 10, 11, 0]

structure Counts where
  l : BitVec 32
  w : BitVec 32
  c : BitVec 32
  inword : Bool

/-- The body of the loop over the bytes in buf. -/
def count (s : Counts) (b : UInt8) : Option Counts := do
  let s := { s with c := s.c + 1 }
  let s := if b = NEWLINE then { s with l := s.l + 1 } else s
  match ← Ulib.strchr blanks 0 b with
  | some _ => return { s with inword := false }
  | none => return if s.inword then s else { s with w := s.w + 1, inword := true }

/-- The loop of wc(); no counts if a read() answers -1. -/
def countLoop : List ReadAnswer → Counts → Option (Option Counts)
  | [], s => some (some s)
  | .error :: _, _ => some none
  | .bytes [] :: _, s => some (some s)
  | .bytes bs :: answers, s => do countLoop answers (← bs.foldlM count s)

/-- "wc: read error\n" -/
def readError : List UInt8 := [119, 99, 58, 32, 114, 101, 97, 100, 32, 101, 114, 114, 111, 114, 10]

/-- "%d %d %d %s\n" -/
def lineFormat : List UInt8 := [37, 100, 32, 37, 100, 32, 37, 100, 32, 37, 115, 10]

/-- wc(). `buf` is the array of printint(). -/
def wc (buf name : List UInt8) (answers : List ReadAnswer) : Option Ended := do
  match ← countLoop answers ⟨0, 0, 0, false⟩ with
  | none => return ⟨← vprintf buf readError [], true⟩
  | some s =>
    let line ← vprintf buf lineFormat
      [.val (s.l.signExtend 64), .val (s.w.signExtend 64), .val (s.c.signExtend 64), .str (some name)]
    return ⟨line, false⟩

/-- "wc: cannot open %s\n" -/
def cannotOpen : List UInt8 := [119, 99, 58, 32, 99, 97, 110, 110, 111, 116, 32, 111, 112, 101, 110, 32, 37, 115, 10]

/-- The loop of main() over the arguments; `file` is what open() finds. -/
def mainLoop (buf : List UInt8) (file : List UInt8 → Option (List ReadAnswer)) : List (List UInt8) → Option Ended
  | [] => some ⟨[], false⟩
  | name :: names =>
    match file name with
    | none => do return ⟨← vprintf buf cannotOpen [.str (some name)], true⟩
    | some answers => do
      let e ← wc buf name answers
      if e.failed then return e
      return (← mainLoop buf file names).after e.out

/-- main(), with what read() answers for descriptor 0. -/
def main (buf : List UInt8) (file : List UInt8 → Option (List ReadAnswer)) (stdin : List ReadAnswer) (args : List (List UInt8)) :
    Option Ended :=
  if args = [] then wc buf [] stdin else mainLoop buf file args

end Wc

end Xv6
