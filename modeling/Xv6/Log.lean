import Xv6.Bio

namespace Xv6

/-- struct logheader stored over the first bytes of a block; what lies behind the
last entry keeps its old content. -/
def encodeHead (d : Block) (lh : List Nat) : Block :=
  d.put 0 ((lh.length :: lh).flatMap (Bytes.le 4))

/-- The entries of the header in a block; `n` is a signed int. -/
@[irreducible] def decodeHead (d : Block) : List Nat :=
  let n := Bytes.ofLe (d.get 0 4)
  if n < 2 ^ 31 then (List.range n).map (fun i => Bytes.ofLe (d.get (4 + 4 * i) 4)) else []

/-- An update of log.lh. -/
def setHead (lh : List Nat) (s : Blk) : Blk := { s with log := { s.log with lh := lh } }

/-- `for (tail = 0; tail < log.lh.n; tail++)`; the fuel is the size of log.lh.block. -/
def forTail (body : Nat → BlkM Unit) : Nat → Nat → BlkM Unit
  | 0, _ => return ()
  | fuel + 1, tail => do
    let n ← Prog.atomic (fun s => .ok s.log.lh.length s)
    if tail < n then
      body tail
      forTail body fuel (tail + 1)

/-- The body of the loop of install_trans(). -/
def installBody (p : Pid) (recovering : Bool) (tail : Nat) : BlkM Unit := do
  let lbuf ← breadOf p (fun l => l.start + tail + 1)
  let dbuf ← breadOf p (fun l => l.lh.getD tail 0)
  Prog.atomic (fun s => .ok () (memmoveBuf dbuf lbuf s))
  Prog.atomic (bwrite p dbuf)
  if recovering then pure () else Prog.atomic (fun s => .ok () (bunpin dbuf s))
  brelse p lbuf
  brelse p dbuf

def installTrans (p : Pid) (recovering : Bool) : BlkM Unit :=
  forTail (installBody p recovering) LOGSIZE 0

def readHead (p : Pid) : BlkM Unit := do
  let buf ← breadOf p (fun l => l.start)
  Prog.atomic (fun s => .ok () (setHead (decodeHead (s.bc.buf buf).data) s))
  brelse p buf

def writeHead (p : Pid) : BlkM Unit := do
  let buf ← breadOf p (fun l => l.start)
  Prog.atomic (fun s => .ok () (s.setBuf buf (fun b => { b with data := encodeHead b.data s.log.lh })))
  Prog.atomic (bwrite p buf)
  brelse p buf

def recoverFromLog (p : Pid) : BlkM Unit := do
  readHead p
  installTrans p true
  Prog.atomic (fun s => .ok () (setHead [] s))
  writeHead p

/-- One turn of the loop of begin_op(); both sleeps are a wait. -/
def beginOpTry (s : Blk) : Out Panic Blk Unit :=
  if s.log.committing then .wait
  else if s.log.lh.length + (s.log.outstanding + 1) * MAXOPBLOCKS > (LOGSIZE : Int) then .wait
  else .ok () { s with log := { s.log with outstanding := s.log.outstanding + 1 } }

def beginOp : BlkM Unit := Prog.atomic beginOpTry

/-- end_op() up to the first release(&log.lock); the answer is do_commit. -/
def endOpEnter (s : Blk) : Out Panic Blk Bool :=
  let out := s.log.outstanding - 1
  if s.log.committing then .fail .logCommitting
  else if out = 0 then .ok true { s with log := { s.log with outstanding := out, committing := true } }
  else .ok false { s with log := { s.log with outstanding := out } }

/-- end_op() after commit(). -/
def endOpLeave (s : Blk) : Out Panic Blk Unit :=
  .ok () { s with log := { s.log with committing := false } }

/-- The body of the loop of write_log(). -/
def writeLogBody (p : Pid) (tail : Nat) : BlkM Unit := do
  let dst ← breadOf p (fun l => l.start + tail + 1)
  let src ← breadOf p (fun l => l.lh.getD tail 0)
  Prog.atomic (fun s => .ok () (memmoveBuf dst src s))
  Prog.atomic (bwrite p dst)
  brelse p src
  brelse p dst

def writeLog (p : Pid) : BlkM Unit := forTail (writeLogBody p) LOGSIZE 0

def commit (p : Pid) : BlkM Unit := do
  let n ← Prog.atomic (fun s => .ok s.log.lh.length s)
  if n > 0 then
    writeLog p
    writeHead p
    installTrans p false
    Prog.atomic (fun s => .ok () (setHead [] s))
    writeHead p

/-- What end_op() does after it has set log.committing. -/
def endOpCommit (p : Pid) : BlkM Unit := do
  commit p
  Prog.atomic endOpLeave

def endOp (p : Pid) : BlkM Unit := do
  let doCommit ← Prog.atomic endOpEnter
  if doCommit then endOpCommit p

/-- log_write(), all of it under log.lock. -/
def logWrite (i : BufId) (s : Blk) : Out Panic Blk Unit :=
  let b := s.bc.buf i
  if s.log.lh.length ≥ LOGSIZE ∨ (s.log.lh.length : Int) ≥ (s.log.size : Int) - 1 then
    .fail .tooBigTransaction
  else if s.log.outstanding < 1 then .fail .logWriteOutside
  else if b.blockno ∈ s.log.lh then .ok () s
  else .ok () (setHead (s.log.lh ++ [b.blockno]) (bpin i s))

end Xv6
