import Xv6.LineReader
import Xv6.Ulib

namespace Xv6.SortCmd
open LineReader (Content MAXLINES)

/- sort.c. `P` is the type of the pointers in lines. -/

section Lines

variable {P : Type}

def lineAt (lines : List P) (i : Int) : Option P := i.toNat?.bind (lines[·]?)

def setLine (lines : List P) (i : Int) (p : P) : Option (List P) := i.toNat?.bind (Buffer.write lines · p)

def swap (lines : List P) (i j : Int) : Option (List P) := do
  let temp ← lineAt lines i
  let q ← lineAt lines j
  let lines ← setLine lines i q
  setLine lines j temp

/-- A string as strcmp() reads it: up to the NUL. -/
abbrev CStr := { s : List UInt8 // 0 ∉ s }

variable (str : P → CStr)

def strcmp (p q : P) : Int := Ulib.strcmp (str p).val (str q).val

/-- The loop of qsort(), for the `n` lines from `i` on. -/
def partLoop (left : Int) : Nat → List P → Int → Int → Option (List P × Int)
  | 0, lines, _, last => some (lines, last)
  | n + 1, lines, i, last => do
    let p ← lineAt lines i
    let q ← lineAt lines left
    if strcmp str p q < 0 then
      let lines ← swap lines (last + 1) i
      partLoop left n lines (i + 1) (last + 1)
    else partLoop left n lines (i + 1) last

/-- qsort(), to a depth of `fuel` calls. The indices are below MAXLINES, so no sum of two overflows. -/
def qsort : Nat → List P → Int → Int → Option (List P)
  | 0, _, _, _ => none
  | fuel + 1, lines, left, right =>
    if left ≥ right then some lines
    else do
      let lines ← swap lines left ((left + right).tdiv 2)
      let (lines, last) ← partLoop str left (right - left).toNat lines (left + 1) left
      let lines ← swap lines left last
      let lines ← qsort fuel lines left (last - 1)
      qsort fuel lines (last + 1) right

end Lines

/-- The reading loop of main(). A pointer is the row of content that it points to; it is null before it is set. -/
def readlines (content : Content) (lines : List (Option Nat)) (input : List UInt8) :
    Option (Content × Nat × List (Option Nat)) := do
  let lines ← Buffer.write lines 0 (some 0)
  LineReader.readInput (fun i lines => Buffer.write lines i (some i)) content lines input

/-- The string that a pointer points to. -/
def textOf (content : Content) (p : Option Nat) : CStr :=
  ⟨LineReader.text ((p.bind (content[·]?)).getD []), fun h => by simpa using List.all_eq_true.mp List.all_takeWhile _ h⟩

/-- `lines[i]`, as printf() takes it. -/
def lineRow (content : Content) (lines : List (Option Nat)) (i : Int) : Option (List UInt8) :=
  (lineAt lines i).bind fun p => p.bind (content[·]?)

/-- main() after the file was opened. -/
def main (buf : List UInt8) (content : Content) (lines : List (Option Nat)) (input : List UInt8) : Option (List UInt8) := do
  let (content, nlines, lines) ← readlines content lines input
  let lines ← qsort (textOf content) (nlines + 1) lines 0 (nlines - 1)
  LineReader.printRows buf (lineRow content lines) nlines 0

end Xv6.SortCmd
