import Xv6.Log
import Xv6.Lib.Run

namespace Xv6

/-- The one thread that is inside the log's own code: nobody, the boot process in
recover_from_log(), or a process in the second half of end_op(). -/
inductive Thread : Type 1 where
  | idle
  | recovering (rest : BlkM Unit)
  | committing (p : Pid) (rest : BlkM Unit)

/-- A log_write() as the history keeps it: the operation, the transaction it fell
into and the block. -/
structure LogRec where
  op : Nat
  epoch : Nat
  block : Nat
  deriving DecidableEq

/-- The block layer with any number of processes using it; `start` and `size` are
sb.logstart and sb.nlog. The fields below `panicked` are ghost: the logical disk (what
log_write() was last called with), its value at the last commit that reached the disk,
the blocks whose buffers were changed and given up without log_write(), and the history
of transactions (each is committed or lost in a crash). -/
structure Machine : Type 1 where
  start : Nat
  size : Nat
  blk : Blk
  inOp : List (Pid × Nat)
  nextOp : Nat
  dirty : List BufId
  thread : Thread
  panicked : Option Panic
  logical : Disk
  committed : Disk
  torn : List Nat
  epoch : Nat
  logs : List LogRec
  commits : List (Nat × List Nat)
  lost : List Nat

/-- What a process or the hardware can do next. A block number is a uint. -/
inductive Action where
  | beginOp (p : Pid)
  | endOp (p : Pid)
  | bget (p : Pid) (blockno : UInt32)
  | acquire (p : Pid) (i : BufId)
  | fill (p : Pid) (i : BufId)
  | modify (p : Pid) (i : BufId) (data : Block)
  | logWrite (p : Pid) (i : BufId)
  | abandon (p : Pid) (i : BufId)
  | release (p : Pid) (i : BufId)
  | put (p : Pid) (i : BufId)
  | thread
  | crash

/-- The blocks from the header to the end of the log. -/
def Log.InLog (l : Log) (n : Nat) : Prop := l.start ≤ n ∧ n < l.start + l.size

instance (l : Log) (n : Nat) : Decidable (l.InLog n) := inferInstanceAs (Decidable (_ ∧ _))

/-- The process that runs fsinit(). -/
abbrev initPid : Pid := 1

namespace Machine

/-- Power on: an empty cache, the log of initlog(), and recovery about to run. -/
def boot (start size : Nat) (disk committed : Disk) : Machine where
  start := start
  size := size
  blk := ⟨disk, binit, ⟨start, size, ROOTDEV, 0, false, []⟩⟩
  inOp := []
  nextOp := 0
  dirty := []
  thread := .recovering (recoverFromLog initPid)
  panicked := none
  logical := committed
  committed := committed
  torn := []
  epoch := 0
  logs := []
  commits := []
  lost := []

def header (m : Machine) : List Nat := decodeHead (m.blk.disk m.blk.log.start)

/-- The process inside the log's code makes no other calls; before recovery is over
nobody does. -/
def busy (m : Machine) (p : Pid) : Bool :=
  match m.thread with
  | .idle => false
  | .recovering _ => true
  | .committing q _ => p == q

def opOf (m : Machine) (p : Pid) : Option Nat := (m.inOp.find? (fun x => x.1 == p)).map Prod.snd

/-- The effect of an action that may have to wait or may panic. -/
def after (m : Machine) (o : Out Panic Blk β) (k : β → Blk → Machine) : Option Machine :=
  match o with
  | .ok b s => some (k b s)
  | .wait => none
  | .fail e => some { m with panicked := some e }

/-- A move of the log's thread. When the header on disk turns from empty to nonempty
the transaction is committed: this is write_head() with n > 0 reaching the disk. -/
def record (m : Machine) (s : Blk) : Machine :=
  if m.header = [] ∧ decodeHead (s.disk s.log.start) ≠ [] then
    { m with
      blk := s
      committed := m.logical
      epoch := m.epoch + 1
      commits := (m.epoch, decodeHead (s.disk s.log.start)) :: m.commits }
  else { m with blk := s }

def resume (m : Machine) (rest : BlkM Unit) (busy : BlkM Unit → Thread) : Option Machine :=
  match rest with
  | .ret _ => none
  | .act g k => m.after (g m.blk) (fun b s =>
      { m.record s with thread := match k b with
        | .ret _ => .idle
        | .act g' k' => busy (.act g' k') })

/-- Power off and on: what was in memory is lost. -/
def crash (m : Machine) : Machine :=
  { boot m.start m.size m.blk.disk m.committed with
    nextOp := m.nextOp
    epoch := m.epoch + 1
    logs := m.logs
    commits := m.commits
    lost := m.epoch :: m.lost }

/-- Every critical section is one step. Processes change a buffer only inside an
operation, outside the log's blocks, and hold no buffer when they call end_op(). Before
they release a buffer they changed they call log_write(), or they do not (`abandon`): then
the change is part of the transaction if the block is in log.lh anyway, and otherwise
neither the log nor the disk knows of it. -/
def act (m : Machine) : Action → Option Machine
  | .crash => some m.crash
  | .thread =>
    match m.thread with
    | .idle => none
    | .recovering rest => m.resume rest .recovering
    | .committing p rest => m.resume rest (.committing p)
  | .beginOp p =>
    if m.busy p ∨ (m.opOf p).isSome then none
    else m.after (beginOpTry m.blk) (fun _ s =>
      { m with blk := s, inOp := (p, m.nextOp) :: m.inOp, nextOp := m.nextOp + 1 })
  | .endOp p =>
    if m.busy p ∨ m.opOf p = none ∨ ∃ x ∈ m.blk.bc.users, x.1 = p then none
    else m.after (endOpEnter m.blk) (fun doCommit s =>
      { m with
        blk := s
        inOp := m.inOp.filter (fun x => x.1 != p)
        thread := if doCommit then .committing p (endOpCommit p) else m.thread })
  | .bget p n =>
    if m.busy p then none
    else m.after (bgetScan p m.blk.log.dev n.toNat m.blk) (fun _ s => { m with blk := s })
  | .acquire p i =>
    if m.busy p ∨ (p, i) ∉ m.blk.bc.users then none
    else m.after (acquiresleep p i m.blk) (fun _ s => { m with blk := s })
  | .fill p i =>
    if m.busy p ∨ (m.blk.bc.buf i).lock ≠ some p then none
    else m.after (breadFill i m.blk) (fun _ s => { m with blk := s })
  | .modify p i d =>
    let b := m.blk.bc.buf i
    if m.busy p ∨ b.lock ≠ some p ∨ b.valid = false ∨ m.opOf p = none ∨
      m.blk.log.InLog b.blockno then none
    else some { m with
      blk := m.blk.setBuf i (fun b => { b with data := d })
      dirty := i :: m.dirty }
  | .logWrite p i =>
    let b := m.blk.bc.buf i
    if m.busy p ∨ b.lock ≠ some p ∨ b.valid = false ∨ m.blk.log.InLog b.blockno then none
    else
      match m.opOf p with
      | none => none
      | some op => m.after (Xv6.logWrite i m.blk) (fun _ s =>
        { m with
          blk := s
          dirty := m.dirty.filter (fun j => j != i)
          logical := fun n => if n = b.blockno then b.data else m.logical n
          torn := m.torn.filter (fun n => n != b.blockno)
          logs := ⟨op, m.epoch, b.blockno⟩ :: m.logs })
  | .abandon p i =>
    let b := m.blk.bc.buf i
    if m.busy p ∨ b.lock ≠ some p ∨ i ∉ m.dirty ∨ m.blk.log.InLog b.blockno then none
    else some { m with
      dirty := m.dirty.filter (fun j => j != i)
      logical := if b.blockno ∈ m.blk.log.lh then
          (fun n => if n = b.blockno then b.data else m.logical n)
        else m.logical
      torn := if b.blockno ∈ m.blk.log.lh ∨ b.data = m.logical b.blockno then m.torn
        else b.blockno :: m.torn }
  | .release p i =>
    if m.busy p ∨ (m.blk.bc.buf i).lock ≠ some p ∨ i ∈ m.dirty then none
    else m.after (releasesleep p i m.blk) (fun _ s => { m with blk := s })
  | .put p i =>
    if m.busy p ∨ (p, i) ∉ m.blk.bc.users ∨ (m.blk.bc.buf i).lock = some p then none
    else m.after (brelsePut p i m.blk) (fun _ s => { m with blk := s })

/-- After a panic the machine can only be switched off. -/
def step (m : Machine) (a : Action) : Option Machine :=
  match m.panicked, a with
  | none, a => m.act a
  | some _, .crash => some m.crash
  | some _, _ => none

end Machine
end Xv6
