import Xv6.Kernel

namespace Xv6.Sched

/-- A hart. There is no bound on their number. -/
abbrev CpuId := Nat

/-- enum procstate. -/
inductive ProcState where
  | unused | used | sleeping | runnable | running | zombie
  deriving DecidableEq, Repr

/-- What sleep() and wakeup() name: a process, on which its own wait() sleeps, or any
other kernel object. -/
inductive Chan where
  | proc (p : ProcId)
  | object (n : Nat)
  deriving DecidableEq, Repr

/-- The spinlocks: p->lock, wait_lock and all others. -/
inductive Lock where
  | proc (p : ProcId)
  | wait
  | object (n : Nat)
  deriving DecidableEq, Repr

/-- Where swtch() to a process continues: at forkret(), or where it was saved. -/
inductive Context where
  | forkret | saved
  deriving DecidableEq, Repr

/-- Who set p->killed. -/
inductive Blame where
  | kill (pid : Int32)
  | setkilled
  deriving DecidableEq, Repr

/-- struct proc as the scheduler's code uses it. The last three fields are ghost: the number
of this life of the slot, the process whose fork() is still setting it up, and who set
p->killed last in this life. -/
structure Proc where
  state : ProcState
  chan : Option Chan
  killed : Bool
  xstate : Int32
  pid : Int32
  parent : Option ProcId
  context : Context
  life : Nat
  maker : Option ProcId
  blame : Option Blame

/-- struct cpu; `stack` is the process whose kernel stack the hart is on, if it is not on
the scheduler's own. -/
structure Cpu where
  proc : Option ProcId
  noff : Nat
  stack : Option ProcId

/-- A process came to be, exited, or was returned by wait() (to `caller`, when the child's
parent field was `parent`). -/
inductive Event where
  | forked (p : ProcId) (life : Nat) (pid : Int32)
  | exited (p : ProcId) (life : Nat) (pid status : Int32)
  | waited (caller : ProcId) (parent : Option ProcId) (p : ProcId) (life : Nat) (pid status : Int32)
  deriving DecidableEq, Repr

/-- The process table, the harts and the spinlocks with their holders. The last two fields
are ghost: how many lives have begun, and what happened, the newest first. -/
structure Kern where
  lock : Lock → Option CpuId
  proc : ProcId → Proc
  cpu : CpuId → Cpu
  nextpid : Int32
  lives : Nat
  events : List Event

/-- userinit() runs first and takes the first slot. -/
def initproc : ProcId := 0

namespace Kern

def setProc (s : Kern) (p : ProcId) (f : Proc → Proc) : Kern :=
  { s with proc := setAt s.proc p (f (s.proc p)) }

def setCpu (s : Kern) (c : CpuId) (f : Cpu → Cpu) : Kern :=
  { s with cpu := setAt s.cpu c (f (s.cpu c)) }

def setLock (s : Kern) (lk : Lock) (h : Option CpuId) : Kern :=
  { s with lock := setAt s.lock lk h }

/-- acquire() of a free lock, with push_off(). -/
def acquire (s : Kern) (c : CpuId) (lk : Lock) : Kern :=
  (s.setLock lk (some c)).setCpu c (fun x => { x with noff := x.noff + 1 })

/-- release() of a lock the hart holds, with pop_off(). -/
def release (s : Kern) (c : CpuId) (lk : Lock) : Kern :=
  (s.setLock lk none).setCpu c (fun x => { x with noff := x.noff - 1 })

def record (s : Kern) (e : Event) : Kern := { s with events := e :: s.events }

/-- The process table part of freeproc(). -/
def freeproc (s : Kern) (p : ProcId) : Kern :=
  s.setProc p (fun x => { x with
    pid := 0
    parent := none
    chan := none
    killed := false
    xstate := 0
    state := .unused
    maker := none })

end Kern

/-- Kernel code on the hart that runs it. -/
abbrev SchedM := Prog Panic (CpuId × Kern)

def onCpu (f : CpuId → Kern → Out Panic Kern β) : SchedM β :=
  .atomic fun x =>
    match f x.1 x.2 with
    | .ok b s => .ok b (x.1, s)
    | .wait => .wait
    | .fail e => .fail e

def panic (e : Panic) : SchedM α := onCpu fun _ _ => .fail e

/-- myproc() where the result is used as a pointer: a null one traps in the kernel. -/
def myproc : SchedM ProcId :=
  onCpu fun c s =>
    match (s.cpu c).proc with
    | some p => .ok p s
    | none => .fail .kerneltrap

def acquire (lk : Lock) : SchedM Unit :=
  onCpu fun c s =>
    match s.lock lk with
    | none => .ok () (s.acquire c lk)
    | some h => if h = c then .fail .acquire else .wait

def release (lk : Lock) : SchedM Unit :=
  onCpu fun c s =>
    if s.lock lk ≠ some c then .fail .release
    else if (s.cpu c).noff < 1 then .fail .popOff
    else .ok () (s.release c lk)

/-- A critical section under p->lock is one step. -/
def withLock (p : ProcId) (f : CpuId → Kern → β × Kern) : SchedM β :=
  onCpu fun c s =>
    match s.lock (.proc p) with
    | none => .ok (f c s).1 (f c s).2
    | some h => if h = c then .fail .acquire else .wait

/-- The same up to sched(), which the process enters with p->lock held; before that it may
give up another lock. -/
def lockInto (p : ProcId) (give : Option Lock) (f : Kern → Kern) : SchedM Unit :=
  onCpu fun c s =>
    match s.lock (.proc p) with
    | none =>
      match give with
      | none => .ok () ((f s).acquire c (.proc p))
      | some lk =>
        if s.lock lk ≠ some c then .fail .release
        else .ok () (((f s).acquire c (.proc p)).release c lk)
    | some h => if h = c then .fail .acquire else .wait

/-- The end of a section under p->lock that began before swtch(). -/
def unlockFrom (p : ProcId) (f : Proc → Proc) : SchedM Unit :=
  onCpu fun c s =>
    if s.lock (.proc p) ≠ some c then .fail .release
    else if (s.cpu c).noff < 1 then .fail .popOff
    else .ok () ((s.setProc p f).release c (.proc p))

/-- sched(). Interrupts are off while noff is positive, so its fourth check cannot fail. -/
def sched : SchedM Unit :=
  onCpu fun c s =>
    match (s.cpu c).proc with
    | none => .fail .kerneltrap
    | some p =>
      if s.lock (.proc p) ≠ some c then .fail .schedLock
      else if (s.cpu c).noff ≠ 1 then .fail .schedLocks
      else if (s.proc p).state = .running then .fail .schedRunning
      else .ok () ((s.setProc p (fun x => { x with context := .saved })).setCpu c
        (fun x => { x with stack := none }))

def yield : SchedM Unit := do
  let p ← myproc
  lockInto p none (fun s => s.setProc p (fun x => { x with state := .runnable }))
  sched
  unlockFrom p id

def sleep (chan : Chan) (lk : Lock) : SchedM Unit := do
  let p ← myproc
  lockInto p (some lk) (fun s =>
    s.setProc p (fun x => { x with chan := some chan, state := .sleeping }))
  sched
  unlockFrom p (fun x => { x with chan := none })
  acquire lk

/-- The table's slots in the order of the loops over it. -/
def slots : List ProcId := List.finRange NPROC

/-- One round of wakeup()'s loop. -/
def wakeupOne (chan : Option Chan) (p : ProcId) : SchedM Unit :=
  onCpu fun c s =>
    if (s.cpu c).proc = some p then .ok () s
    else
      match s.lock (.proc p) with
      | none =>
        if (s.proc p).state = .sleeping ∧ (s.proc p).chan = chan then
          .ok () (s.setProc p (fun x => { x with state := .runnable }))
        else .ok () s
      | some h => if h = c then .fail .acquire else .wait

def wakeupFrom (chan : Option Chan) : List ProcId → SchedM Unit
  | [] => return ()
  | p :: ps => do
    wakeupOne chan p
    wakeupFrom chan ps

def wakeup (chan : Option Chan) : SchedM Unit := wakeupFrom chan slots

/-- One round of kill()'s loop: was it the one? -/
def killOne (pid : Int32) (p : ProcId) : SchedM Bool :=
  withLock p fun _ s =>
    if (s.proc p).pid = pid then
      (true, s.setProc p (fun x => { x with
        killed := true
        state := if x.state = .sleeping then .runnable else x.state
        blame := some (.kill pid) }))
    else (false, s)

def killFrom (pid : Int32) : List ProcId → SchedM Int32
  | [] => return -1
  | p :: ps => do
    if ← killOne pid p then return 0
    else killFrom pid ps

def kill (pid : Int32) : SchedM Int32 := killFrom pid slots

def setkilled (p : ProcId) : SchedM Unit :=
  withLock p fun _ s =>
    ((), s.setProc p (fun x => { x with killed := true, blame := some .setkilled }))

def killed (p : ProcId) : SchedM Bool := withLock p fun _ s => ((s.proc p).killed, s)

/-- Which of the allocations in fork() succeed: the trapframe, the page table, uvmcopy(). -/
structure Memory where
  trapframe : Bool
  pagetable : Bool
  copy : Bool

inductive Found where
  | inUse
  | failed
  | child (pid : Int32)

/-- A round of allocproc()'s loop and, if the slot is free, the rest of the section under
np->lock in allocproc() and fork(). -/
def Kern.forkAt (s : Kern) (mem : Memory) (p np : ProcId) : Found × Kern :=
  if (s.proc np).state = .unused then
    let pid := s.nextpid
    let s := { s with nextpid := pid + 1 }
    let s := s.setProc np (fun x => { x with pid := pid, state := .used })
    if mem.trapframe = false then (.failed, s.freeproc np)
    else if mem.pagetable = false then (.failed, s.freeproc np)
    else
      let s := s.setProc np (fun x => { x with context := .forkret })
      if mem.copy = false then (.failed, s.freeproc np)
      else
        let s := s.setProc np (fun x => { x with
          life := s.lives, maker := some p, blame := none })
        (.child pid, { s with lives := s.lives + 1 }.record (.forked np s.lives pid))
  else (.inUse, s)

def allocproc (mem : Memory) (p : ProcId) : List ProcId → SchedM (Option (ProcId × Int32))
  | [] => return none
  | np :: nps => do
    match ← withLock np (fun _ s => s.forkAt mem p np) with
    | .inUse => allocproc mem p nps
    | .failed => return none
    | .child pid => return some (np, pid)

def setParent (np p : ProcId) : SchedM Unit :=
  onCpu fun _ s => .ok () (s.setProc np (fun x => { x with parent := some p }))

def fork (mem : Memory) : SchedM Int32 := do
  let p ← myproc
  match ← allocproc mem p slots with
  | none => return -1
  | some (np, pid) =>
    acquire .wait
    setParent np p
    release .wait
    withLock np fun _ s =>
      ((), s.setProc np (fun x => { x with state := .runnable, maker := none }))
    return pid

/-- reparent()'s test and assignment for one slot. -/
def reparentOne (p pp : ProcId) : SchedM Bool :=
  onCpu fun _ s =>
    if (s.proc pp).parent = some p then
      .ok true (s.setProc pp (fun x => { x with parent := some initproc }))
    else .ok false s

def reparentFrom (p : ProcId) : List ProcId → SchedM Unit
  | [] => return ()
  | pp :: pps => do
    if ← reparentOne p pp then
      wakeup (some (.proc initproc))
      reparentFrom p pps
    else reparentFrom p pps

def reparent (p : ProcId) : SchedM Unit := reparentFrom p slots

/-- A sleep as in the rest of the kernel: some lock is taken, and given back after it. -/
def sleepOn (n m : Nat) : SchedM Unit := do
  acquire (.object m)
  sleep (.object n) (.object m)
  release (.object m)

def sleeps : List (Nat × Nat) → SchedM Unit
  | [] => return ()
  | x :: xs => do
    sleepOn x.1 x.2
    sleeps xs

def parentOf (p : ProcId) : SchedM (Option ProcId) := onCpu fun _ s => .ok (s.proc p).parent s

/-- exit(); `xs` are the sleeps of fileclose(), begin_op(), iput() and end_op(). -/
def exit (status : Int32) (xs : List (Nat × Nat)) : SchedM α := do
  let p ← myproc
  if p = initproc then panic .initExiting
  else
    sleeps xs
    acquire .wait
    reparent p
    wakeup ((← parentOf p).map Chan.proc)
    lockInto p (some .wait) (fun s =>
      (s.setProc p (fun x => { x with xstate := status, state := .zombie })).record
        (.exited p (s.proc p).life (s.proc p).pid status))
    sched
    panic .zombieExit

inductive Scan where
  | notChild
  | alive
  | badAddress
  | reaped (pid : Int32)

/-- One round of wait()'s scan; `bad` says that copyout() of the status fails. -/
def waitOne (bad : Bool) (p pp : ProcId) : SchedM Scan :=
  onCpu fun c s =>
    if (s.proc pp).parent = some p then
      match s.lock (.proc pp) with
      | some h => if h = c then .fail .acquire else .wait
      | none =>
        if (s.proc pp).state = .zombie then
          if bad then .ok .badAddress s
          else
            let x := s.proc pp
            .ok (.reaped x.pid) ((s.freeproc pp).record
              (.waited p x.parent pp x.life x.pid x.xstate))
        else .ok .alive s
    else .ok .notChild s

/-- The scan: what wait() returns, or whether it has children. -/
def waitFrom (bad : Bool) (p : ProcId) : List ProcId → Bool → SchedM (Int32 ⊕ Bool)
  | [], havekids => return .inr havekids
  | pp :: pps, havekids => do
    match ← waitOne bad p pp with
    | .notChild => waitFrom bad p pps havekids
    | .alive => waitFrom bad p pps true
    | .badAddress => return .inl (-1)
    | .reaped pid => return .inl pid

/-- What a process does after a piece of kernel code: it is back in user space with a result,
or goes round the loop of wait() once more. -/
inductive Next where
  | user (result : Int32)
  | again (bad : Bool)

/-- One round of wait()'s outer loop, entered with wait_lock held. -/
def waitLoop (bad : Bool) : SchedM Next := do
  let p ← myproc
  match ← waitFrom bad p slots false with
  | .inl r =>
    release .wait
    return .user r
  | .inr havekids =>
    if !havekids then
      release .wait
      return .user (-1)
    else if ← killed p then
      release .wait
      return .user (-1)
    else
      sleep (.proc p) .wait
      return .again bad

def wait (bad : Bool) : SchedM Next := do
  acquire .wait
  waitLoop bad

/-- scheduler() at one slot: does it switch to the process? -/
def pick (p : ProcId) : SchedM Bool :=
  onCpu fun c s =>
    match s.lock (.proc p) with
    | some h => if h = c then .fail .acquire else .wait
    | none =>
      if (s.proc p).state = .runnable then
        .ok true (((s.setProc p (fun x => { x with state := .running })).setCpu c
          (fun x => { x with proc := some p })).acquire c (.proc p))
      else .ok false s

/-- swtch(&c->context, &p->context). -/
def swtch (p : ProcId) : SchedM Unit :=
  onCpu fun c s => .ok () (s.setCpu c (fun x => { x with stack := some p }))

/-- c->proc = 0 and release(&p->lock). -/
def putBack (p : ProcId) : SchedM Unit :=
  onCpu fun c s =>
    if s.lock (.proc p) ≠ some c then .fail .release
    else if (s.cpu c).noff < 1 then .fail .popOff
    else .ok () ((s.setCpu c (fun x => { x with proc := none })).release c (.proc p))

/-- One pass of scheduler() over the table. -/
def schedulerFrom : List ProcId → SchedM Unit
  | [] => return ()
  | p :: ps => do
    if ← pick p then
      swtch p
      putBack p
      schedulerFrom ps
    else schedulerFrom ps

def scheduler : SchedM Next := do
  schedulerFrom slots
  return .user 0

def forkret : SchedM Next := do
  let p ← myproc
  unlockFrom p id
  return .user 0

/-- A device interrupt: its handler takes a lock and wakes a channel. -/
def devintr (n m : Nat) : SchedM Unit := do
  acquire (.object m)
  wakeup (some (.object n))
  release (.object m)

/-- What user code can ask for, or bring about. -/
inductive Call where
  | fork (mem : Memory)
  | exit (status : Int32) (sleeps : List (Nat × Nat))
  | wait (bad : Bool)
  | kill (pid : Int32)
  | setkilled
  | sleep (n m : Nat)
  | wakeup (n m : Nat)

def Call.prog : Call → SchedM Next
  | .fork mem => return .user (← Sched.fork mem)
  | .exit status xs => Sched.exit status xs
  | .wait bad => Sched.wait bad
  | .kill pid => return .user (← Sched.kill pid)
  | .setkilled => do
    Sched.setkilled (← myproc)
    return .user 0
  | .sleep n m => do
    sleepOn n m
    return .user 0
  | .wakeup n m => do
    devintr n m
    return .user 0

/-- The kernel's threads: every hart's scheduler and every process. -/
inductive Tid where
  | sched (c : CpuId)
  | proc (p : ProcId)
  deriving DecidableEq

/-- The thread a hart executes. -/
def Kern.thread (s : Kern) (c : CpuId) : Tid :=
  match (s.cpu c).stack with
  | none => .sched c
  | some p => .proc p

/-- The kernel with what every thread has yet to do. -/
structure Machine : Type 1 where
  kern : Kern
  rest : Tid → SchedM Next
  panicked : Option Panic

inductive Action where
  | run (c : CpuId)
  | call (c : CpuId) (call : Call)
  | timer (c : CpuId)
  | device (c : CpuId) (n m : Nat)

namespace Machine

/-- swtch() to a context that allocproc() made starts at forkret(). -/
def load (rest : Tid → SchedM Next) (s t : Kern) (c : CpuId) : Tid → SchedM Next :=
  match (s.cpu c).stack, (t.cpu c).stack with
  | none, some p =>
    if (t.proc p).context = .forkret then setAt rest (.proc p) forkret else rest
  | _, _ => rest

/-- A thread whose program has ended: the scheduler starts its next pass, a process in
wait() its next round, and a process in user space has nothing to do in the kernel. -/
def onward : Tid → Next → Option (SchedM Next)
  | .sched _, _ => some scheduler
  | .proc _, .again bad => some (waitLoop bad)
  | .proc _, .user _ => none

def run (m : Machine) (c : CpuId) : Option Machine :=
  let t := m.kern.thread c
  match m.rest t with
  | .ret a => (onward t a).map (fun r => { m with rest := setAt m.rest t r })
  | .act g k =>
    match g (c, m.kern) with
    | .ok b s => some { m with
        kern := s.2
        rest := load (setAt m.rest t (k b)) m.kern s.2 c }
    | .wait => none
    | .fail e => some { m with panicked := some e }

/-- A process in user space makes a call. -/
def call (m : Machine) (c : CpuId) (x : Call) : Option Machine :=
  match m.kern.thread c with
  | .sched _ => none
  | .proc p =>
    match m.rest (.proc p) with
    | .ret (.user _) => some { m with rest := setAt m.rest (.proc p) x.prog }
    | _ => none

/-- A handler runs on top of the thread, if interrupts are on. -/
def interrupt (m : Machine) (c : CpuId) (handler : SchedM Unit) : Option Machine :=
  let t := m.kern.thread c
  if (m.kern.cpu c).noff = 0 then
    some { m with rest := setAt m.rest t (handler >>= fun _ => m.rest t) }
  else none

/-- usertrap() and kerneltrap() yield on a timer interrupt if there is a process. -/
def act (m : Machine) : Action → Option Machine
  | .run c => m.run c
  | .call c x => m.call c x
  | .timer c => if (m.kern.cpu c).proc = none then none else m.interrupt c yield
  | .device c n k => m.interrupt c (devintr n k)

def step (m : Machine) (a : Action) : Option Machine :=
  if m.panicked = none then m.act a else none

/-- Every hart is about to enter scheduler(), and userinit() has made the first process. -/
def boot : Machine where
  kern :=
    { lock := fun _ => none
      proc := fun p =>
        { state := if p = initproc then .runnable else .unused
          chan := none
          killed := false
          xstate := 0
          pid := if p = initproc then 1 else 0
          parent := none
          context := if p = initproc then .forkret else .saved
          life := 0
          maker := none
          blame := none }
      cpu := fun _ => ⟨none, 0, none⟩
      nextpid := 2
      lives := 1
      events := [.forked initproc 0 1] }
  rest := fun t =>
    match t with
    | .sched _ => scheduler
    | .proc _ => .ret (.user 0)
  panicked := none

end Machine
end Xv6.Sched
