import Xv6.Bio
import Xv6.Lib.Pool
import Xv6.Lib.LinkRing

namespace Xv6.BufList

/-- The block layer with the buffer list as it is in memory: b->next and b->prev, and those of
bcache.head. `blk.bc.lru`, `clock` and `freed` are ghost and read by nothing here: the order the
list should have, and when each buffer's last reference was dropped (0: never). -/
structure State where
  blk : Blk
  list : LinkRing BufId
  clock : Nat
  freed : BufId → Nat

abbrev BufM := Prog Panic State

def binit (blk : Blk) : State where
  blk := { blk with bc := Xv6.binit }
  list := (List.finRange NBUF).foldl LinkRing.pushFront .empty
  clock := 0
  freed := fun _ => 0

/-- The first loop of bget, along next. No answer: it does not end. -/
def cached (s : State) (dev blockno : Nat) : Option (Option BufId) :=
  LinkRing.find s.list.next
    (fun i => (s.blk.bc.buf i).dev == dev && (s.blk.bc.buf i).blockno == blockno)
    (NBUF + 1) (s.list.next none)

/-- The second loop, along prev. -/
def unused (s : State) : Option (Option BufId) :=
  LinkRing.find s.list.prev (fun i => (s.blk.bc.buf i).refcnt == 0) (NBUF + 1) (s.list.prev none)

/-- bget() under bcache.lock. -/
def bgetScan (p : Pid) (dev blockno : Nat) (s : State) : Out Panic State BufId :=
  let take (c : Bcache) (i : BufId) : State :=
    { s with blk := { s.blk with bc := { c with users := (p, i) :: c.users } } }
  match cached s dev blockno with
  | none => .wait
  | some (some i) => .ok i (take (s.blk.bc.set i Buf.ref) i)
  | some none =>
    match unused s with
    | none => .wait
    | some (some i) => .ok i (take (s.blk.bc.set i (fun b =>
        { b with dev := dev, blockno := blockno, valid := false, refcnt := 1 })) i)
    | some none => .fail .bgetNoBuffers

/-- brelse() under bcache.lock. -/
def brelsePut (p : Pid) (i : BufId) (s : State) : Out Panic State Unit :=
  let c := s.blk.bc.set i Buf.unref
  let c := { c with users := c.users.erase (p, i) }
  if (c.buf i).refcnt = 0 then
    .ok () {
      blk := { s.blk with bc := { c with lru := i :: c.lru.erase i } }
      list := (s.list.unlink i).pushFront i
      clock := s.clock + 1
      freed := setAt s.freed i (s.clock + 1) }
  else .ok () { s with blk := { s.blk with bc := c } }

/-- What does not touch the list. -/
def onBlk (f : Blk → Out Panic Blk β) (s : State) : Out Panic State β :=
  match f s.blk with
  | .ok b t => .ok b { s with blk := t }
  | .wait => .wait
  | .fail e => .fail e

def bread (p : Pid) (dev blockno : Nat) : BufM Unit := do
  let i ← Prog.atomic (bgetScan p dev blockno)
  Prog.atomic (onBlk (acquiresleep p i))
  Prog.atomic (onBlk (breadFill i))

def brelse (p : Pid) (i : BufId) : BufM Unit := do
  Prog.atomic (onBlk (releasesleep p i))
  Prog.atomic (brelsePut p i)

def bpin (i : BufId) : BufM Unit := Prog.atomic (onBlk fun s => .ok () (Xv6.bpin i s))
def bunpin (i : BufId) : BufM Unit := Prog.atomic (onBlk fun s => .ok () (Xv6.bunpin i s))

inductive Call where
  | bread (dev blockno : Nat)
  | brelse (i : BufId)
  | bpin (i : BufId)
  | bunpin (i : BufId)

/-- As the kernel issues them: dev is never 0, brelse() is the holder's, and bunpin() is of a
pinned buffer that the caller holds. -/
def calls : Calls Panic State Pid Unit Call where
  prog p
    | .bread dev blockno => BufList.bread p dev blockno
    | .brelse i => BufList.brelse p i
    | .bpin i => BufList.bpin i
    | .bunpin i => BufList.bunpin i
  onward _ _ := none
  may p _ c s :=
    match c with
    | .bread dev _ => dev ≠ 0
    | .brelse i => (s.blk.bc.buf i).lock = some p
    | .bpin _ => true
    | .bunpin i => (s.blk.bc.buf i).lock = some p ∧ i ∈ s.blk.bc.pins

abbrev Machine := Pool Panic State Pid Unit

def step : Machine → PoolAction Pid Call → Option Machine := Pool.step calls

end Xv6.BufList
