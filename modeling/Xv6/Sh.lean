import Xv6.Lib.Free
import Xv6.Param
import Xv6.Ulib

namespace Xv6.Sh

/- sh.c. A line is in an array of bytes, and the pointers into it are indices. malloc() does not fail here. -/

abbrev MAXARGS : Nat := 10
abbrev MAXSCRIPT : Nat := 1024

abbrev NEWLINE : UInt8 := 10
abbrev BAR : UInt8 := 124
abbrev LPAR : UInt8 := 40
abbrev RPAR : UInt8 := 41
abbrev SEMI : UInt8 := 59
abbrev AMP : UInt8 := 38
abbrev LESS : UInt8 := 60
abbrev GREATER : UInt8 := 62
/-- What gettoken() answers for `>>`. -/
abbrev PLUS : UInt8 := 43
/-- What it answers for a word. -/
abbrev WORD : UInt8 := 97

/-- A word is the index of its first byte and that of the byte after its last. No code makes a SCRIPT node. -/
inductive Cmd where
  | exec (args : List (Nat × Nat))
  | redir (cmd : Cmd) (file efile mode fd : Nat)
  | pipe (left right : Cmd)
  | list (left right : Cmd)
  | back (cmd : Cmd)
  deriving DecidableEq

def whitespace : List UInt8 := [32, 9, 13, 10, 11]
def symbols : List UInt8 := [LESS, BAR, GREATER, AMP, SEMI, LPAR, RPAR]

/-- How the parser stops without a command. The source looks for the first two. The others are an access outside the array, an `s`
past `es`, and a loop that is not done when `fuel` is used up. -/
inductive Failure where
  | panic (s : String)
  | leftovers (s : Nat)
  | outside
  | pastEnd
  | fuel
  deriving DecidableEq

/-- The shell prints a message and exits. -/
def Failure.reported : Failure → Bool
  | .panic _ | .leftovers _ => true
  | .outside | .pastEnd | .fuel => false

section Parser

variable (a : List UInt8) (es : Nat)

/-- `*s` -/
def load (s : Nat) : Except Failure UInt8 :=
  match a[s]? with
  | some c => .ok c
  | none => .error .outside

/-- `s++` -/
def next (s : Nat) : Except Failure Nat := if s < es then .ok (s + 1) else .error .pastEnd

/-- `while(s < es && p(*s)) s++;` -/
def advanceWhile (p : UInt8 → Bool) : Nat → Nat → Except Failure Nat
  | 0, _ => .error .fuel
  | fuel + 1, s => do
    if s < es then
      let c ← load a s
      if p c then
        let s ← next es s
        advanceWhile p fuel s
      else return s
    else return s

def isSpace (c : UInt8) : Bool := whitespace.contains c

/-- A byte of a word. -/
def isOrdinary (c : UInt8) : Bool := !whitespace.contains c && !symbols.contains c

def skipSpace (s : Nat) : Except Failure Nat := advanceWhile a es isSpace (es + 1 - s) s

/-- The switch of gettoken(): what it answers and where the token ends. -/
def scanToken (s : Nat) : Except Failure (UInt8 × Nat) := do
  let c ← load a s
  if c = 0 then return (c, s)
  else if c = BAR ∨ c = LPAR ∨ c = RPAR ∨ c = SEMI ∨ c = AMP ∨ c = LESS then
    let s ← next es s
    return (c, s)
  else if c = GREATER then
    let s ← next es s
    let c' ← load a s
    if c' = GREATER then
      let s ← next es s
      return (PLUS, s)
    else return (c, s)
  else
    let s ← advanceWhile a es isOrdinary (es + 1 - s) s
    return (WORD, s)

/-- gettoken(): what it answers, q, eq and s. -/
def gettoken (s : Nat) : Except Failure (UInt8 × Nat × Nat × Nat) := do
  let q ← skipSpace a es s
  let (ret, eq) ← scanToken a es q
  let s ← skipSpace a es eq
  return (ret, q, eq, s)

def peek (s : Nat) (toks : List UInt8) : Except Failure (Bool × Nat) := do
  let s ← skipSpace a es s
  let c ← load a s
  return (c != 0 && toks.contains c, s)

/-- The switch of parseredirs(). -/
def redirect (tok : UInt8) (cmd : Cmd) (q eq : Nat) : Cmd :=
  if tok = LESS then .redir cmd q eq O_RDONLY 0
  else if tok = GREATER then .redir cmd q eq (O_WRONLY ||| O_CREATE ||| O_TRUNC) 1
  else if tok = PLUS then .redir cmd q eq (O_WRONLY ||| O_CREATE) 1
  else cmd

def parseredirs : Nat → Cmd → Nat → Except Failure (Cmd × Nat)
  | 0, _, _ => .error .fuel
  | fuel + 1, cmd, s => do
    let (more, s) ← peek a es s [LESS, GREATER]
    if more then
      let (tok, _, _, s) ← gettoken a es s
      let (file, q, eq, s) ← gettoken a es s
      if file ≠ WORD then .error (.panic "missing file for redirection")
      else parseredirs fuel (redirect tok cmd q eq) s
    else return (cmd, s)

/-- `cmd->argv[argc] = q; cmd->eargv[argc] = eq`, where cmd is the EXEC node inside ret. -/
def addArg (w : Nat × Nat) : Cmd → Cmd
  | .exec args => .exec (args ++ [w])
  | .redir cmd file efile mode fd => .redir (addArg w cmd) file efile mode fd
  | cmd => cmd

/-- The loop of parseexec(). -/
def argLoop : Nat → Nat → Cmd → Nat → Except Failure (Cmd × Nat)
  | 0, _, _, _ => .error .fuel
  | fuel + 1, argc, ret, s => do
    let (stop, s) ← peek a es s [BAR, RPAR, AMP, SEMI]
    if stop then return (ret, s)
    else
      let (tok, q, eq, s) ← gettoken a es s
      if tok = 0 then return (ret, s)
      else if tok ≠ WORD then .error (.panic "syntax")
      else if argc + 1 ≥ MAXARGS then .error (.panic "too many args")
      else
        let (ret, s) ← parseredirs a es (es + 1) (addArg (q, eq) ret) s
        argLoop fuel (argc + 1) ret s

/-- `while(peek(ps, es, "&")) { gettoken(ps, es, 0, 0); cmd = backcmd(cmd); }` -/
def backLoop : Nat → Cmd → Nat → Except Failure (Cmd × Nat)
  | 0, _, _ => .error .fuel
  | fuel + 1, cmd, s => do
    let (more, s) ← peek a es s [AMP]
    if more then
      let (_, _, _, s) ← gettoken a es s
      backLoop fuel (.back cmd) s
    else return (cmd, s)

mutual

def parseline : Nat → Nat → Except Failure (Cmd × Nat)
  | 0, _ => .error .fuel
  | fuel + 1, s => do
    let (cmd, s) ← parsepipe fuel s
    let (cmd, s) ← backLoop a es (es + 1) cmd s
    let (more, s) ← peek a es s [SEMI]
    if more then
      let (_, _, _, s) ← gettoken a es s
      let (right, s) ← parseline fuel s
      return (.list cmd right, s)
    else return (cmd, s)
termination_by structural fuel => fuel

def parsepipe : Nat → Nat → Except Failure (Cmd × Nat)
  | 0, _ => .error .fuel
  | fuel + 1, s => do
    let (cmd, s) ← parseexec fuel s
    let (more, s) ← peek a es s [BAR]
    if more then
      let (_, _, _, s) ← gettoken a es s
      let (right, s) ← parsepipe fuel s
      return (.pipe cmd right, s)
    else return (cmd, s)
termination_by structural fuel => fuel

def parseblock : Nat → Nat → Except Failure (Cmd × Nat)
  | 0, _ => .error .fuel
  | fuel + 1, s => do
    let (opened, s) ← peek a es s [LPAR]
    if !opened then .error (.panic "parseblock")
    else
      let (_, _, _, s) ← gettoken a es s
      let (cmd, s) ← parseline fuel s
      let (closed, s) ← peek a es s [RPAR]
      if !closed then .error (.panic "syntax - missing )")
      else
        let (_, _, _, s) ← gettoken a es s
        parseredirs a es (es + 1) cmd s
termination_by structural fuel => fuel

def parseexec : Nat → Nat → Except Failure (Cmd × Nat)
  | 0, _ => .error .fuel
  | fuel + 1, s => do
    let (block, s) ← peek a es s [LPAR]
    if block then parseblock fuel s
    else
      let (ret, s) ← parseredirs a es (es + 1) (.exec []) s
      argLoop a es (es + 1) 0 ret s
termination_by structural fuel => fuel

end

end Parser

/-- `*p = 0` -/
def terminate (a : List UInt8) (p : Nat) : Except Failure (List UInt8) :=
  match Buffer.write a p 0 with
  | some a => .ok a
  | none => .error .outside

def nulterminate : Cmd → List UInt8 → Except Failure (List UInt8)
  | .exec args, a => args.foldlM (fun a w => terminate a w.2) a
  | .redir cmd _ efile _ _, a => do
    let a ← nulterminate cmd a
    terminate a efile
  | .pipe left right, a | .list left right, a => do
    let a ← nulterminate left a
    nulterminate right a
  | .back cmd, a => nulterminate cmd a

/-- parsecmd(): the command, and what is then in the array. -/
def parsecmd (a : List UInt8) : Except Failure (Cmd × List UInt8) :=
  match Ulib.strlen a 0 with
  | none => .error .outside
  | some es => do
    let (cmd, s) ← parseline a es (4 * es + 4) 0
    let (_, s) ← peek a es s []
    if s ≠ es then .error (.leftovers s)
    else
      let a ← nulterminate cmd a
      return (cmd, a)

/- execscript() -/

inductive ScriptEnd where
  | closed | tooLong
  deriving DecidableEq

/-- The loop of execscript() over the bytes that read() gives. `ran` are the lines that a child has been given to parse and run, each
waited for before the next. An access outside buf gives `none`. -/
def scriptLoop : List UInt8 → List UInt8 → Nat → List (List UInt8) → Option (ScriptEnd × List (List UInt8))
  | [], _, _, ran => some (.closed, ran)
  | c :: input, buf, p, ran => do
    let buf ← Buffer.write buf p c
    if c = NEWLINE then
      let buf ← Buffer.write buf p 0
      let line ← Ulib.cstr buf
      scriptLoop input buf 0 (if line.length > 0 then ran ++ [line] else ran)
    else if p + 1 ≥ MAXSCRIPT - 1 then return (.tooLong, ran)
    else scriptLoop input buf (p + 1) ran

/-- execscript() of a file that can be opened; fork() does not fail. -/
def execscript (buf script : List UInt8) : Option (ScriptEnd × List (List UInt8)) := scriptLoop script buf 0 []

/- runcmd() -/

/-- The system calls of runcmd(). exit() does not return; exec() does if it fails. -/
inductive Sys : Type → Type 1 where
  | openFile (path : List UInt8) (mode : Nat) : Sys Int
  | close (fd : Int) : Sys Unit
  | dup (fd : Int) : Sys Unit
  | pipe : Sys (Option (Int × Int))
  | fork : Sys Int
  | wait : Sys Unit
  | exec (path : List UInt8) (argv : List (List UInt8)) : Sys Unit
  | print (text : List UInt8) : Sys Unit
  | exit (status : Int) : Sys Empty

abbrev ShM := Free Sys

def exit {α : Type} (status : Int) : ShM α := .cmd (.exit status) Empty.elim

def bytes (s : String) : List UInt8 := s.toUTF8.toList

def panic {α : Type} (s : String) : ShM α := do
  Free.call (.print (bytes s ++ [NEWLINE]))
  exit 1

def fork1 : ShM Int := do
  let pid ← Free.call .fork
  if pid = -1 then panic "fork" else return pid

/-- The string at `q`. nulterminate() has ended it. -/
def str (a : List UInt8) (q : Nat) : List UInt8 := (Ulib.cstr (a.drop q)).getD []

def runcmd (a : List UInt8) : Cmd → ShM Empty
  | .exec [] => exit 1
  | .exec (w :: args) => do
    Free.call (.exec (str a w.1) ((w :: args).map fun w => str a w.1))
    Free.call (.print (bytes "exec " ++ str a w.1 ++ bytes " failed\n"))
    exit 0
  | .redir cmd file _ mode fd => do
    Free.call (.close fd)
    let r ← Free.call (.openFile (str a file) mode)
    if r < 0 then
      Free.call (.print (bytes "open " ++ str a file ++ bytes " failed\n"))
      exit 1
    else runcmd a cmd
  | .list left right => do
    let pid ← fork1
    if pid = 0 then runcmd a left
    else
      Free.call .wait
      runcmd a right
  | .pipe left right => do
    match ← Free.call .pipe with
    | none => panic "pipe"
    | some (p0, p1) =>
      let pid ← fork1
      if pid = 0 then
        Free.call (.close 1)
        Free.call (.dup p1)
        Free.call (.close p0)
        Free.call (.close p1)
        runcmd a left
      else
        let pid ← fork1
        if pid = 0 then
          Free.call (.close 0)
          Free.call (.dup p0)
          Free.call (.close p0)
          Free.call (.close p1)
          runcmd a right
        else
          Free.call (.close p0)
          Free.call (.close p1)
          Free.call .wait
          Free.call .wait
          exit 0
  | .back cmd => do
    let pid ← fork1
    if pid = 0 then runcmd a cmd else exit 0

/- A process that runs alone, as far as its descriptors go. -/

inductive Desc where
  | inherited (fd : Nat)
  | file (path : List UInt8) (mode : Nat)
  deriving DecidableEq

/-- The open files by descriptor, and what has been opened so far. -/
structure Process where
  fds : Fin NOFILE → Option Desc
  opens : List (List UInt8 × Nat)

/-- How the shell's code comes to its end: the process runs the program, or exits. -/
inductive Ending where
  | exec (path : List UInt8) (argv : List (List UInt8)) (p : Process)
  | exit (status : Int) (p : Process)

def Process.set (p : Process) (fd : Fin NOFILE) (d : Option Desc) : Process :=
  { p with fds := fun i => if i = fd then d else p.fds i }

/-- fdalloc(): the lowest descriptor that is free. -/
def Process.fdalloc (p : Process) : Option (Fin NOFILE) := (List.finRange NOFILE).find? fun fd => (p.fds fd).isNone

/-- The calls of EXEC and REDIR nodes; `openable` says which files can be opened. The process waits at the others. -/
def alone (openable : List UInt8 → Nat → Bool) : Handler Sys Ending Process
  | _, .openFile path mode, p =>
    if openable path mode then
      match p.fdalloc with
      | some fd => .ok fd.val { p.set fd (some (.file path mode)) with opens := p.opens ++ [(path, mode)] }
      | none => .ok (-1) p
    else .ok (-1) p
  | _, .close fd, p =>
    match fd.toNat? with
    | some n => if h : n < NOFILE then .ok () (p.set ⟨n, h⟩ none) else .ok () p
    | none => .ok () p
  | _, .exec path argv, p => .fail (.exec path argv p)
  | _, .print _, p => .ok () p
  | _, .exit status, p => .fail (.exit status p)
  | _, .dup _, _ | _, .pipe, _ | _, .fork, _ | _, .wait, _ => .wait

end Xv6.Sh
