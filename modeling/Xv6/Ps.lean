import Xv6.UserCalls

namespace Xv6.Ps
open Sched (ProcState)

/- user/ps.c -/

/-- struct proc_stat, without ticks, which ps does not print. -/
structure ProcStat where
  pid : Int32
  state : Int32
  memory : UInt32
  name : List UInt8
  deriving DecidableEq, Repr

/-- A record in memory. -/
def procStatOf (bs : List UInt8) : ProcStat where
  pid := Int32.ofNat (Bytes.ofLe (bs.take 4))
  state := Int32.ofNat (Bytes.ofLe ((bs.drop 4).take 4))
  memory := UInt32.ofNat (Bytes.ofLe ((bs.drop 12).take 4))
  name := (bs.drop 16).take 16

/-- The switch on stats[i].state. -/
def stateWord (state : Int32) : String :=
  if state = 0 then "UNUSED  "
  else if state = 1 then "SLEEPING"
  else if state = 2 then "RUNNABLE"
  else if state = 3 then "RUNNING "
  else if state = 4 then "ZOMBIE  "
  else "UNKNOWN "

/-- What the printf() in the loop prints. -/
structure Line where
  pid : Int32
  state : String
  kilobytes : UInt32
  name : List UInt8
  deriving DecidableEq, Repr

def lineOf (st : ProcStat) : Line := ⟨st.pid, stateWord st.state, st.memory / 1024, strOf st.name⟩

/-- The lines after the heading, for `count` records at `stats`. -/
def lines (us : UserSpace) (stats count : Nat) : List Line :=
  (List.range count).map (fun i => lineOf (procStatOf (us.bytes (stats + 32 * i) 32)))

/-- The enumerators of enum procstate. -/
def stateName : ProcState → String
  | .unused => "UNUSED"
  | .used => "USED"
  | .sleeping => "SLEEPING"
  | .runnable => "RUNNABLE"
  | .running => "RUNNING"
  | .zombie => "ZOMBIE"

/-- A name filled up with blanks to the width of the column. -/
def column (s : String) : String := s ++ String.ofList (List.replicate (8 - s.length) ' ')

example (s : ProcState) : stateWord (Int32.ofNat (UserCalls.stateCode s)) = column (stateName s) ↔ s = .unused := by
  cases s <;> decide

end Xv6.Ps
