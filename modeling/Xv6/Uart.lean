import Xv6.Kernel
import Xv6.Lib.Monitor

namespace Xv6.Uart

abbrev UART_TX_BUF_SIZE : Nat := 32

/-- Who runs the driver: processes, and interrupts on some hart. -/
inductive Thread where
  | proc (p : Pid)
  | intr (hart : Nat)
  deriving DecidableEq

/-- &uart_tx_r, the only channel. -/
inductive Chan where
  | txr
  deriving DecidableEq

/-- The transmit buffer under uart_tx_lock, and printf()'s `panicked`. The last three fields are
ghost: the characters put into the buffer, those taken out of it, and those written to THR by
uartstart(). -/
structure TxQueue where
  buf : Nat → UInt8
  w : UInt64
  r : UInt64
  panicked : Bool
  queued : List UInt8
  taken : List UInt8
  sent : List UInt8

/-- uartinit(); the buffer has any content. -/
def uartinit (junk : Nat → UInt8) : TxQueue := ⟨junk, 0, 0, false, [], [], []⟩

namespace TxQueue

def empty (d : TxQueue) : Bool := d.w == d.r
def full (d : TxQueue) : Bool := d.w == d.r + UInt64.ofNat UART_TX_BUF_SIZE

/-- uart_tx_buf[uart_tx_w % UART_TX_BUF_SIZE] = c; uart_tx_w += 1. -/
def put (c : UInt8) (d : TxQueue) : TxQueue :=
  { d with
    buf := setAt d.buf (d.w.toNat % UART_TX_BUF_SIZE) c
    w := d.w + 1
    queued := d.queued ++ [c] }

/-- c = uart_tx_buf[uart_tx_r % UART_TX_BUF_SIZE]; uart_tx_r += 1. -/
def take (d : TxQueue) : UInt8 × TxQueue :=
  let c := d.buf (d.r.toNat % UART_TX_BUF_SIZE)
  (c, { d with r := d.r + 1, taken := d.taken ++ [c] })

/-- WriteReg(THR, c). -/
def transmit (c : UInt8) (d : TxQueue) : TxQueue := { d with sent := d.sent ++ [c] }

end TxQueue

abbrev State := Monitor Thread Chan TxQueue
abbrev UartM := Prog Panic State

/-- What a thread does next: it is done with its call, spins because of a panic, or is at the head
of one of the loops, with uart_tx_lock held. `ready k` is LSR_TX_IDLE as the call's k-th poll of
LSR finds it. -/
inductive Next where
  | done
  | spinning
  | putting (c : UInt8) (ready : Nat → Bool)
  | starting (ready : Nat → Bool) (k : Nat)

def acquire (t : Thread) : UartM Unit := Monitor.acquire .acquire t
def release (t : Thread) : UartM Unit := Monitor.release .release t

/-- The end of uartputc() and uartintr(). -/
def leave (t : Thread) : UartM Next := do
  release t
  return .done

/-- One round of uartstart()'s loop, and what its callers do after it. -/
def startRound (t : Thread) (ready : Nat → Bool) (k : Nat) : UartM Next := do
  if ← Monitor.read TxQueue.empty then leave t
  else if ready k then
    let c ← Monitor.onData TxQueue.take
    Monitor.wakeup .txr
    Monitor.write (TxQueue.transmit c)
    return .starting ready (k + 1)
  else leave t

/-- One round of uartputc()'s loop, and what comes after it. -/
def putRound (t : Thread) (c : UInt8) (ready : Nat → Bool) : UartM Next := do
  if ← Monitor.read TxQueue.full then
    Monitor.sleep .release .acquire t .txr
    return .putting c ready
  else
    Monitor.write (TxQueue.put c)
    return .starting ready 0

def uartputc (t : Thread) (c : UInt8) (ready : Nat → Bool) : UartM Next := do
  acquire t
  if ← Monitor.read TxQueue.panicked then return .spinning
  else return .putting c ready

/-- uartintr() after it has read the input. -/
def uartintr (t : Thread) (ready : Nat → Bool) : UartM Next := do
  acquire t
  return .starting ready 0

/-- panic() stops all output; it takes no lock for that. -/
def panic : UartM Next := do
  Monitor.onProg (.atomic fun d => .ok () { d with panicked := true })
  return .done

inductive Call where
  | putc (c : UInt8) (ready : Nat → Bool)
  | intr (ready : Nat → Bool)
  | kill (j : Pid)
  | panic

/-- Interrupt handlers cannot call uartputc(), which may sleep. -/
def calls : Calls Panic State Thread Next Call where
  prog t
    | .putc c ready => uartputc t c ready
    | .intr ready => uartintr t ready
    | .kill j => do
      Monitor.kill (.proc j)
      return .done
    | .panic => Uart.panic
  onward t
    | .done => none
    | .spinning => some (return .spinning)
    | .putting c ready => some (putRound t c ready)
    | .starting ready k => some (startRound t ready k)
  may t _ c _ :=
    match t, c with
    | .intr _, .putc _ _ => false
    | _, _ => true

abbrev Machine := Pool Panic State Thread Next
abbrev Action := PoolAction Thread Call

def step : Machine → Action → Option Machine := Pool.step calls

def boot (junk : Nat → UInt8) : Machine := .start (.start (uartinit junk)) .done

end Xv6.Uart
