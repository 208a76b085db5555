import Xv6.Sched

namespace Xv6.Sched

/-- Asleep in wait(): on its own channel. -/
def Kern.Waits (s : Kern) (p : ProcId) : Prop :=
  (s.proc p).state = .sleeping ∧ (s.proc p).chan = some (.proc p)

/-- Nobody asleep in wait() has a child it should collect. -/
def Kern.Rested (s : Kern) : Prop :=
  ∀ p q, s.Waits p → (s.proc q).parent = some p → (s.proc q).state ≠ .zombie

/-- kill(), setkilled() or wakeup() on one process. -/
def Poked (s u : Kern) : Prop :=
  ∃ q x, s.lock (.proc q) = none ∧
    x = { s.proc q with killed := x.killed, state := x.state, blame := x.blame } ∧
    (x.state = (s.proc q).state ∨ (s.proc q).state = .sleeping ∧ x.state = .runnable) ∧
    u = s.setProc q (fun _ => x)

/-- What a thread may do to the process table, without regard to the code: each rule has the
locks that are held and what has to be known for the step to be a good one. -/
inductive Move : Tid → Kern → Kern → Prop where
  | acquire {s : Kern} {t : Tid} (c : CpuId) (lk : Lock) (hc : s.thread c = t)
      (hp : ∀ p, lk ≠ .proc p) (hl : s.lock lk = none) (hn : (s.cpu c).noff = 0) :
      Move t s (s.acquire c lk)
  | release {s : Kern} {t : Tid} (c : CpuId) (lk : Lock) (hc : s.thread c = t)
      (hp : ∀ p, lk ≠ .proc p) (hl : s.lock lk = some c) (hr : lk = .wait → s.Rested) :
      Move t s (s.release c lk)
  | poke {s u : Kern} {t : Tid} (h : Poked s u) : Move t s u
  /-- allocproc() that runs out of memory. -/
  | allocFail {s : Kern} {t : Tid} (q : ProcId) (x : Proc) (n : Int32)
      (hl : s.lock (.proc q) = none) (hu : (s.proc q).state = .unused)
      (hx : x.state = .unused ∧ x.parent = none ∧ x.maker = none) :
      Move t s { s.setProc q (fun _ => x) with nextpid := n }
  | alloc {s : Kern} (p q : ProcId) (n : Int32) (hl : s.lock (.proc q) = none)
      (hu : (s.proc q).state = .unused) (hs : (s.proc p).state = .running) :
      Move (.proc p) s ({ s.setProc q (fun x => { x with
          pid := s.nextpid
          state := .used
          context := .forkret
          life := s.lives
          maker := some p
          blame := none }) with
        nextpid := n
        lives := s.lives + 1 }.record (.forked q s.lives s.nextpid))
  | adopt {s : Kern} (c : CpuId) (p q : ProcId) (hc : (s.cpu c).stack = some p)
      (hl : s.lock .wait = some c) (hm : (s.proc q).maker = some p) :
      Move (.proc p) s (s.setProc q (fun x => { x with parent := some p }))
  | launch {s : Kern} (p q : ProcId) (hl : s.lock (.proc q) = none)
      (hm : (s.proc q).maker = some p) (hp : (s.proc q).parent = some p) :
      Move (.proc p) s (s.setProc q (fun x => { x with state := .runnable, maker := none }))
  | orphan {s : Kern} (c : CpuId) (p q : ProcId) (hc : (s.cpu c).stack = some p)
      (hl : s.lock .wait = some c) (hp : (s.proc q).parent = some p)
      (hm : (s.proc q).maker ≠ some p) :
      Move (.proc p) s (s.setProc q (fun x => { x with parent := some initproc }))
  /-- The last section of exit(). -/
  | die {s : Kern} (c : CpuId) (p : ProcId) (status : Int32) (hc : (s.cpu c).stack = some p)
      (hl : s.lock .wait = some c) (hi : p ≠ initproc) (hr : s.Rested)
      (hk : ∀ q, (s.proc q).parent ≠ some p) (hm : ∀ q, (s.proc q).maker ≠ some p)
      (hw : ∀ r, (s.proc p).parent = some r → ¬ s.Waits r) :
      Move (.proc p) s ((((s.setProc p (fun x => { x with xstate := status, state := .zombie })).record
        (.exited p (s.proc p).life (s.proc p).pid status)).acquire c (.proc p)).release c .wait)
  | pause {s : Kern} (c : CpuId) (p : ProcId) (hc : (s.cpu c).stack = some p)
      (hn : (s.cpu c).noff = 0) :
      Move (.proc p) s ((s.setProc p (fun x => { x with state := .runnable })).acquire c (.proc p))
  | doze {s : Kern} (c : CpuId) (p : ProcId) (chan : Chan) (lk : Lock)
      (hc : (s.cpu c).stack = some p) (hp : ∀ q, lk ≠ .proc q) (hl : s.lock lk = some c)
      (hch : chan = .proc p ∧ lk = .wait ∧ s.Rested ∧
          (∀ q, (s.proc q).parent = some p → (s.proc q).state ≠ .zombie) ∨
        (∃ n, chan = .object n) ∧ lk ≠ .wait) :
      Move (.proc p) s (((s.setProc p (fun x => { x with
        chan := some chan, state := .sleeping })).acquire c (.proc p)).release c lk)
  /-- swtch() in sched(). -/
  | leave {s : Kern} (c : CpuId) (p : ProcId) (hc : (s.cpu c).stack = some p)
      (hl : s.lock (.proc p) = some c) (hs : (s.proc p).state ≠ .running) :
      Move (.proc p) s ((s.setProc p (fun x => { x with context := .saved })).setCpu c
        (fun x => { x with stack := none }))
  /-- The process is back from swtch() and releases its lock. -/
  | resume {s : Kern} (c : CpuId) (p : ProcId) (chan : Option Chan)
      (hc : (s.cpu c).stack = some p) (hl : s.lock (.proc p) = some c)
      (hs : (s.proc p).state = .running) :
      Move (.proc p) s ((s.setProc p (fun x => { x with chan := chan })).release c (.proc p))
  | reap {s : Kern} (c : CpuId) (p q : ProcId) (hc : (s.cpu c).stack = some p)
      (hw : s.lock .wait = some c) (hl : s.lock (.proc q) = none)
      (hp : (s.proc q).parent = some p) (hz : (s.proc q).state = .zombie) :
      Move (.proc p) s ((s.freeproc q).record
        (.waited p (s.proc q).parent q (s.proc q).life (s.proc q).pid (s.proc q).xstate))
  | pick {s : Kern} (c : CpuId) (q : ProcId) (hc : (s.cpu c).proc = none)
      (hn : (s.cpu c).noff = 0) (hl : s.lock (.proc q) = none)
      (hs : (s.proc q).state = .runnable) :
      Move (.sched c) s (((s.setProc q (fun x => { x with state := .running })).setCpu c
        (fun x => { x with proc := some q })).acquire c (.proc q))
  | enter {s : Kern} (c : CpuId) (q : ProcId) (hc : (s.cpu c).stack = none)
      (hp : (s.cpu c).proc = some q) (hl : s.lock (.proc q) = some c)
      (hs : (s.proc q).state = .running) :
      Move (.sched c) s (s.setCpu c (fun x => { x with stack := some q }))
  | putBack {s : Kern} (c : CpuId) (q : ProcId) (hc : (s.cpu c).stack = none)
      (hl : s.lock (.proc q) = some c) (hs : (s.proc q).state ≠ .running) :
      Move (.sched c) s ((s.setCpu c (fun x => { x with proc := none })).release c (.proc q))

/-- What the locks and the harts say about each other. -/
structure Placed (s : Kern) : Prop where
  one : ∀ lk c, s.lock lk = some c → (s.cpu c).noff = 1
  only : ∀ lk lk' c, s.lock lk = some c → s.lock lk' = some c → lk = lk'
  owner : ∀ q c, s.lock (.proc q) = some c → (s.cpu c).proc = some q
  stack : ∀ c q, (s.cpu c).stack = some q → (s.cpu c).proc = some q
  alone : ∀ c c' q, (s.cpu c).proc = some q → (s.cpu c').proc = some q → c = c'
  on : ∀ q c, s.lock (.proc q) = none → (s.cpu c).proc = some q →
    (s.proc q).state = .running ∧ (s.cpu c).stack = some q
  runs : ∀ q, s.lock (.proc q) = none → (s.proc q).state = .running → ∃ c, (s.cpu c).proc = some q

/-- Parents, and who may be asleep in wait(). -/
structure Related (s : Kern) : Prop where
  parent : ∀ q r, (s.proc q).parent = some r →
    (s.proc r).state ≠ .unused ∧ (s.proc r).state ≠ .zombie
  orphan : ∀ q, q ≠ initproc → (s.proc q).state ≠ .unused → (s.proc q).state ≠ .used →
    (s.proc q).parent ≠ none
  unused : ∀ q, (s.proc q).state = .unused → (s.proc q).parent = none
  made : ∀ q p, (s.proc q).maker = some p →
    (s.proc q).state = .used ∧ ((s.proc q).parent = none ∨ (s.proc q).parent = some p)
  maker : ∀ q p, (s.proc q).maker = some p →
    (s.proc p).state ≠ .unused ∧ (s.proc p).state ≠ .zombie
  init : (s.proc initproc).state ≠ .unused ∧ (s.proc initproc).state ≠ .used ∧
    (s.proc initproc).state ≠ .zombie
  chan : ∀ q r, (s.proc q).state = .sleeping → (s.proc q).chan = some (.proc r) → r = q
  rested : s.lock .wait = none → s.Rested

/-- The life an event is about. -/
def Event.life : Event → Nat
  | .forked _ l _ => l
  | .exited _ l _ _ => l
  | .waited _ _ _ l _ _ => l

/-- Life `l` has ended, or has been returned by wait(). -/
def Exited (es : List Event) (l : Nat) : Prop := ∃ p pid st, Event.exited p l pid st ∈ es
def Waited (es : List Event) (l : Nat) : Prop := ∃ c r p pid st, Event.waited c r p l pid st ∈ es

/-- What an event needs of those before it: a new life is new, and its slot has no exited
process that was not waited for; a process exits once, under the pid it was given; wait()
returns an exited process once, to its parent, with its pid and status. -/
def Event.Due (es : List Event) : Event → Prop
  | .forked p l _ => (∀ e ∈ es, e.life < l) ∧
      ∀ l' pid st, .exited p l' pid st ∈ es → Waited es l'
  | .exited p l pid _ => .forked p l pid ∈ es ∧ ¬ Exited es l
  | .waited c r p l pid st => .exited p l pid st ∈ es ∧ ¬ Waited es l ∧ r = some c

/-- Every event was due when it happened. -/
def Orderly : List Event → Prop
  | [] => True
  | e :: es => e.Due es ∧ Orderly es

structure Chronicle (s : Kern) : Prop where
  orderly : Orderly s.events
  fresh : ∀ e ∈ s.events, e.life < s.lives
  begun : ∀ q, (s.proc q).state ≠ .unused →
    .forked q (s.proc q).life (s.proc q).pid ∈ s.events ∧ ¬ Waited s.events (s.proc q).life
  alive : ∀ q, (s.proc q).state ≠ .unused → (s.proc q).state ≠ .zombie →
    ¬ Exited s.events (s.proc q).life
  dead : ∀ q, (s.proc q).state = .zombie →
    .exited q (s.proc q).life (s.proc q).pid (s.proc q).xstate ∈ s.events
  apart : ∀ q q', (s.proc q).state ≠ .unused → (s.proc q').state ≠ .unused →
    (s.proc q).life = (s.proc q').life → q = q'
  ended : ∀ q l pid st, .exited q l pid st ∈ s.events →
    Waited s.events l ∨ (s.proc q).state = .zombie ∧ (s.proc q).life = l

/-- The protocol's invariant. -/
structure Inv (s : Kern) : Prop where
  placed : Placed s
  related : Related s
  chronicle : Chronicle s

end Xv6.Sched
