import Xv6.Ulib

namespace Xv6.Grep

/- grep.c. A string is the list of its characters; the end of the list is its NUL. -/

abbrev STAR : UInt8 := 42
abbrev DOLLAR : UInt8 := 36
abbrev CARET : UInt8 := 94
abbrev DOT : UInt8 := 46
abbrev NEWLINE : UInt8 := 10

/-- matchstar(), where `here` is matchhere() of what follows the star. -/
def matchstar (here : List UInt8 → Bool) (c : UInt8) : List UInt8 → Bool
  | [] => here []
  | t :: text => here (t :: text) || ((t == c || c == DOT) && matchstar here c text)

/-- One character of the text, where `here` is matchhere() of what follows. -/
def matchchar (here : List UInt8 → Bool) (c : UInt8) : List UInt8 → Bool
  | [] => false
  | t :: text => (c == DOT || c == t) && here text

def matchhere : List UInt8 → List UInt8 → Bool
  | [], _ => true
  | [c], text => if c = DOLLAR then text.isEmpty else matchchar (matchhere []) c text
  | c :: d :: re, text =>
    if d = STAR then matchstar (matchhere re) c text
    else matchchar (matchhere (d :: re)) c text

/-- The loop of match() over the ends of the text. -/
def matchLoop (re : List UInt8) : List UInt8 → Bool
  | [] => matchhere re []
  | t :: text => matchhere re (t :: text) || matchLoop re text

/-- match() -/
def matchText (re text : List UInt8) : Bool :=
  if re.head? = some CARET then matchhere re.tail text else matchLoop re text

/- grep() -/

/-- The size of buf. -/
abbrev BUFSIZE : Nat := 1024

/-- What read() has yet to give: it gives as many bytes as `sizes` says, but no more than are asked for, and at least one
unless there are none. -/
structure Input where
  rest : List UInt8
  sizes : List Nat

def Input.read (inp : Input) (n : Nat) : List UInt8 × Input :=
  let k := min n (max 1 (inp.sizes.headD n))
  (inp.rest.take k, ⟨inp.rest.drop k, inp.sizes.tail⟩)

/-- The loop over the lines in buf from `p` on, with what has been written so far. -/
def grepLines (pattern : List UInt8) : Nat → List UInt8 → Nat → List (List UInt8) → Option (List UInt8 × Nat × List (List UInt8))
  | 0, _, _, _ => none
  | fuel + 1, buf, p, out => do
    match ← Ulib.strchr buf p NEWLINE with
    | none => return (buf, p, out)
    | some q =>
      let buf ← Buffer.write buf q 0
      let text ← Ulib.cstr (buf.drop p)
      if matchText pattern text then
        let buf ← Buffer.write buf q NEWLINE
        let line ← Buffer.slice buf p (q + 1 - p)
        grepLines pattern fuel buf (q + 1) (out ++ [line])
      else grepLines pattern fuel buf (q + 1) out

/-- The loop of grep(): `m` bytes of buf are in use. -/
def grepLoop (pattern : List UInt8) : Nat → List UInt8 → Nat → Input → List (List UInt8) → Option (List (List UInt8))
  | 0, _, _, _, _ => none
  | fuel + 1, buf, m, inp, out => do
    let (bs, inp) := inp.read (BUFSIZE - m - 1)
    if bs.length > 0 then
      let buf ← Buffer.blit buf m bs
      let m := m + bs.length
      let buf ← Buffer.write buf m 0
      let (buf, p, out) ← grepLines pattern (m + 1) buf 0 out
      if m > 0 then
        let m := m - p
        let buf ← Ulib.memmove buf 0 p m
        grepLoop pattern fuel buf m inp out
      else grepLoop pattern fuel buf m inp out
    else return out

/-- grep(); buf is static. The answer is what it writes, one item for each write(). -/
def grep (pattern : List UInt8) (buf : List UInt8) (inp : Input) : Option (List (List UInt8)) :=
  grepLoop pattern (inp.rest.length + 1) buf 0 inp []

end Xv6.Grep
