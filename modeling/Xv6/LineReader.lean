import Xv6.Lib.Buffer
import Xv6.Printf

namespace Xv6

/- head.c and tail.c: readlines(). sort.c has its own copy of the loop, which also fills in `lines`. -/

namespace LineReader

abbrev MAXLINES : Nat := 1000
abbrev MAXLEN : Nat := 100

abbrev NEWLINE : UInt8 := 10

/-- `char content[MAXLINES][MAXLEN]` -/
abbrev Content := List (List UInt8)

/-- `content[i][j] = c` -/
def store (content : Content) (i j : Nat) (c : UInt8) : Option Content := do
  let row ← content[i]?
  let row ← Buffer.write row j c
  Buffer.write content i row

variable {σ : Type}

/-- The loop over the bytes that read() gives, one at a time. `next i` is what is done for line `i` before it is read, besides
setting j. The answer is where the loop leaves content, i and j. -/
def readLoop (next : Nat → σ → Option σ) : List UInt8 → Content → Nat → Nat → σ → Option (Content × Nat × Nat × σ)
  | [], content, i, j, s => some (content, i, j, s)
  | buf :: input, content, i, j, s =>
    if buf = NEWLINE then do
      let content ← store content i j 0
      -- The break leaves j as it is.
      if i + 1 ≥ MAXLINES then return (content, i + 1, j, s)
      let s ← next (i + 1) s
      readLoop next input content (i + 1) 0 s
    else if j < MAXLEN - 1 then do
      let content ← store content i j buf
      readLoop next input content i (j + 1) s
    else readLoop next input content i j s

/-- The loop, and what is done about a last line without a newline. The number is nlines. -/
def readInput (next : Nat → σ → Option σ) (content : Content) (s : σ) (input : List UInt8) : Option (Content × Nat × σ) := do
  let (content, i, j, s) ← readLoop next input content 0 0 s
  if j > 0 then
    let content ← store content i j 0
    return (content, i + 1, s)
  return (content, i, s)

/-- The string that a row holds: up to the NUL. -/
def text (row : List UInt8) : List UInt8 := row.takeWhile (· != 0)

/-- The loop `printf("%s\n", ...)` over `n` rows from `i` on. -/
def printRows (buf : List UInt8) (row : Int → Option (List UInt8)) : Nat → Int → Option (List UInt8)
  | 0, _ => some []
  | n + 1, i => do
    let s ← row i
    let out ← UserPrintf.vprintf buf [37, 115, NEWLINE] [.str (some (text s))]
    return out ++ (← printRows buf row n (i + 1))

/-- `content[i]` -/
def rowAt (content : Content) (i : Int) : Option (List UInt8) := i.toNat?.bind (content[·]?)

end LineReader

namespace Head
open LineReader

def readlines (content : Content) (input : List UInt8) : Option (Content × Nat) := do
  let (content, nlines, _) ← readInput (fun _ s => some s) content () input
  return (content, nlines)

def printhead (buf : List UInt8) (content : Content) (nlines : Nat) (n : Int) : Option (List UInt8) :=
  let limit := if n < nlines then n else nlines
  printRows buf (rowAt content) limit.toNat 0

/-- main() from the call of readlines() on; `n` is what atoi() gave, or 10. -/
def main (buf : List UInt8) (content : Content) (n : Int) (input : List UInt8) : Option (List UInt8) := do
  let (content, nlines) ← readlines content input
  printhead buf content nlines n

end Head

namespace Tail
open LineReader

def readlines (content : Content) (input : List UInt8) : Option (Content × Nat) := do
  let (content, nlines, _) ← readInput (fun _ s => some s) content () input
  return (content, nlines)

def printtail (buf : List UInt8) (content : Content) (nlines : Nat) (n : Int) : Option (List UInt8) :=
  let start := if n > nlines then 0 else ((nlines : Int) - n).bmod 4294967296
  printRows buf (rowAt content) (nlines - start).toNat start

def main (buf : List UInt8) (content : Content) (n : Int) (input : List UInt8) : Option (List UInt8) := do
  let (content, nlines) ← readlines content input
  printtail buf content nlines n

end Tail

end Xv6
