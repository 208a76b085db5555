import Xv6.Lib.RingQueue
import Xv6.Uart

namespace Xv6.Uart

/-- The buffer holds what was queued and not yet taken; the counters are the lengths, modulo
2^64. -/
structure Fifo (d : TxQueue) (q : List UInt8) : Prop where
  r : d.r.toNat = d.taken.length % 2 ^ 64
  w : d.w.toNat = d.queued.length % 2 ^ 64
  queued : d.queued = d.taken ++ q
  ring : InRing UART_TX_BUF_SIZE d.buf d.taken.length q

namespace Fifo
variable {d : TxQueue} {q : List UInt8}

theorem length (h : Fifo d q) : d.queued.length = d.taken.length + q.length := by
  rw [h.queued, List.length_append]

theorem empty_iff (h : Fifo d q) : d.empty = true ↔ q = [] := by
  have h1 := h.r
  have h2 := h.w
  have h3 := h.length
  have h4 : q.length ≤ 32 := h.ring.room
  simp only [TxQueue.empty, beq_iff_eq, ← UInt64.toNat_inj, ← List.length_eq_zero_iff]
  omega

theorem full_iff (h : Fifo d q) : d.full = true ↔ q.length = UART_TX_BUF_SIZE := by
  have h1 := h.r
  have h2 := h.w
  have h3 := h.length
  have h4 : q.length ≤ 32 := h.ring.room
  have h5 : (UInt64.ofNat UART_TX_BUF_SIZE).toNat = 32 := rfl
  simp only [TxQueue.full, beq_iff_eq, ← UInt64.toNat_inj, UInt64.toNat_add, h5]
  show _ ↔ q.length = 32
  omega

theorem init (junk : Nat → UInt8) : Fifo (uartinit junk) [] :=
  ⟨rfl, rfl, rfl, .nil _ _ _⟩

theorem put (h : Fifo d q) (hf : d.full = false) (c : UInt8) : Fifo (d.put c) (q ++ [c]) := by
  have hw := h.w
  have hlen := h.length
  have hlt : q.length < UART_TX_BUF_SIZE := by
    refine Nat.lt_of_le_of_ne h.ring.room fun he => ?_
    rw [h.full_iff.mpr he] at hf
    cases hf
  have hslot : d.w.toNat % UART_TX_BUF_SIZE = (d.taken.length + q.length) % UART_TX_BUF_SIZE := by
    show _ % 32 = _ % 32
    omega
  refine ⟨h.r, ?_, ?_, ?_⟩
  · have h1 : (1 : UInt64).toNat = 1 := rfl
    simp only [TxQueue.put, UInt64.toNat_add, List.length_append, List.length_singleton]
    omega
  · simp only [TxQueue.put, h.queued, List.append_assoc]
  · simp only [TxQueue.put, hslot]
    exact h.ring.push hlt c

/-- The first of the queue is taken. -/
theorem take {c : UInt8} (h : Fifo d (c :: q)) : d.take.1 = c ∧ Fifo d.take.2 q := by
  have hr := h.r
  have hslot : d.r.toNat % UART_TX_BUF_SIZE = d.taken.length % UART_TX_BUF_SIZE := by
    show _ % 32 = _ % 32
    omega
  have hc : d.buf (d.r.toNat % UART_TX_BUF_SIZE) = c := by rw [hslot, h.ring.head]
  refine ⟨hc, ?_, h.w, ?_, ?_⟩
  · have h1 : (1 : UInt64).toNat = 1 := rfl
    simp only [TxQueue.take, UInt64.toNat_add, List.length_append, List.length_singleton]
    omega
  · simp only [TxQueue.take, hc, h.queued, List.append_assoc, List.singleton_append]
  · simp only [TxQueue.take, List.length_append, List.length_singleton]
    exact h.ring.pop

end Fifo

/-- Nobody sleeps but on a full buffer, and what was taken has been sent. -/
structure Settled (a : Thread → Option Chan) (d : TxQueue) : Prop where
  full : ∀ t ch, a t = some ch → d.full = true
  sent : d.sent = d.taken

def rules : Rules Thread Chan TxQueue where
  always d := (∃ q, Fifo d q) ∧ d.sent <+: d.taken
  free := Settled
  guar _ _ _ := True
  env _ d d' := d' = { d with panicked := true }
  wakes h := by
    refine ⟨fun t ch ht => ?_, h.sent⟩
    rw [setAt_apply] at ht
    split at ht
    · cases ht
    · exact h.full t ch ht
  env_always h he := by
    subst he
    obtain ⟨⟨q, hq⟩, hsent⟩ := h
    exact ⟨⟨q, hq.r, hq.w, hq.queued, hq.ring⟩, hsent⟩
  env_free _ h he := by
    subst he
    exact ⟨h.full, h.sent⟩

def conduct : Conduct Panic State Thread := rules.conduct (fun _ => False)

variable {t : Thread} {s : State}

/-- Others only wake processes, and may panic. -/
theorem firm {p : (Thread → Option Chan) → TxQueue → Prop}
    (hkill : ∀ {a d} j, p a d → p (setAt a j none) d)
    (hpanic : ∀ {a d}, p a d → p a { d with panicked := true }) : rules.Firm t p where
  kill j hp := hkill j hp
  env _ _ hp he := by
    subst he
    exact hpanic hp

theorem firm_settled : rules.Firm t Settled :=
  firm (fun _ h => rules.wakes h) fun h => ⟨h.full, h.sent⟩

abbrev Outside (t : Thread) : State → Prop := Rules.Outside t (fun _ => True)

/-- What a thread knows between two programs. -/
def Knows (t : Thread) : Next → State → Prop
  | .done, s => Outside t s
  | .spinning, s | .putting _ _, s | .starting _ _, s => Rules.Inside t Settled s

theorem knows_stable (t : Thread) (a : Next) : conduct.team.Stable t (Knows t a) := by
  cases a with
  | done => exact Rules.Outside.stable Rules.lasting_true
  | spinning | putting c ready | starting ready k => exact Rules.Inside.stable firm_settled

theorem safe_acquire (h : Outside t s) :
    conduct.team.Safe t (acquire t) (fun _ => Rules.Inside t Settled) s :=
  (Rules.safe_acquire Rules.lasting_true h).mono fun _ _ hu => ⟨hu.lock, hu.awake, hu.holds.1⟩

theorem safe_leave {p : (Thread → Option Chan) → TxQueue → Prop} (hp : rules.Firm t p)
    (hset : ∀ {a d}, p a d → Settled a d) (h : Rules.Inside t p s) :
    conduct.team.Safe t (leave t) (Knows t) s :=
  (Rules.safe_release hp h fun _ _ _ hd => ⟨hset hd, trivial⟩).seq fun _ _ hu => hu

/-- The sleepers and what was sent are as before, and a test of the counters gave `b`. -/
theorem firm_tested {f : TxQueue → Bool} (hf : ∀ d, f { d with panicked := true } = f d) (b : Bool) :
    rules.Firm t (fun a d => Settled a d ∧ f d = b) :=
  firm (fun _ h => ⟨rules.wakes h.1, h.2⟩) fun h => ⟨⟨h.1.full, h.1.sent⟩, (hf _).trans h.2⟩

/-- Everybody is awake, and the character taken last has yet to be sent. -/
def Owed (c : UInt8) (a : Thread → Option Chan) (d : TxQueue) : Prop := (∀ j, a j = none) ∧ d.taken = d.sent ++ [c]

theorem firm_owed (c : UInt8) : rules.Firm t (Owed c) := by
  refine firm (fun j h => ⟨fun k => ?_, h.2⟩) fun h => h
  rw [setAt_apply]
  split
  · rfl
  · exact h.1 k

theorem wake_none (a : Thread → Option Chan) (j : Thread) : wake .txr a j = none := by
  simp only [wake]
  split
  · rfl
  · next hj =>
    cases haj : a j with
    | none => rfl
    | some ch => exact (hj haj).elim

/-- A character is taken, everybody is woken, and it is sent. -/
theorem safe_transmit (h : Rules.Inside t (fun a d => Settled a d ∧ d.empty = false) s) (next : Next)
    (hnext : ∀ u, Rules.Inside t Settled u → Knows t next u) :
    conduct.team.Safe t (do
      let c ← Monitor.onData TxQueue.take
      Monitor.wakeup .txr
      Monitor.write (TxQueue.transmit c)
      return next) (Knows t) s := by
  have htake : conduct.team.Safe t (Monitor.onData TxQueue.take)
      (fun c => Rules.Inside t fun _ d => d.taken = d.sent ++ [c]) s := by
    refine Rules.safe_onData (firm_tested (fun _ => rfl) false) h ?_
    intro a d hd hp
    obtain ⟨⟨q, hq⟩, -⟩ := hd
    cases q with
    | nil =>
      have hempty := hq.empty_iff.mpr rfl
      rw [hp.2] at hempty
      cases hempty
    | cons c q =>
      refine ⟨⟨⟨q, hq.take.2⟩, ?_⟩, .inr trivial, ?_⟩
      · simp [TxQueue.take, hp.1.sent]
      · simp [TxQueue.take, hp.1.sent]
  refine htake.seq fun c u hu => ?_
  have hwake : conduct.team.Safe t (Monitor.wakeup .txr)
      (fun _ => Rules.Inside t (Owed c)) u :=
    Rules.safe_wakeup (firm (fun _ h => h) fun h => h) hu fun a d _ hp => ⟨wake_none a, hp⟩
  refine hwake.seq fun _ v hv => ?_
  have hsend : conduct.team.Safe t (Monitor.write (TxQueue.transmit c)) (fun _ => Rules.Inside t Settled) v := by
    refine Rules.safe_write (firm_owed c) hv ?_
    intro a d hd hp
    obtain ⟨⟨q, hq⟩, -⟩ := hd
    refine ⟨⟨⟨q, hq.r, hq.w, hq.queued, hq.ring⟩, ?_⟩, .inr trivial, ?_, hp.2.symm⟩
    · have htaken : (d.transmit c).taken = (d.transmit c).sent := hp.2
      exact htaken ▸ List.prefix_rfl
    · intro j ch hj
      rw [hp.1 j] at hj
      cases hj
  exact hsend.seq fun _ u hu => hnext u hu

theorem safe_startRound {ready : Nat → Bool} {k : Nat} (h : Rules.Inside t Settled s) :
    conduct.team.Safe t (startRound t ready k) (Knows t) s := by
  refine (Rules.safe_read firm_settled h).seq fun b u hu => ?_
  cases b with
  | true => exact safe_leave (firm_tested (fun _ => rfl) true) (fun h => h.1) hu
  | false =>
    cases hready : ready k with
    | false => exact safe_leave (firm_tested (fun _ => rfl) false) (fun h => h.1) hu
    | true => exact safe_transmit hu (.starting ready (k + 1)) fun _ hv => hv

theorem safe_putRound {c : UInt8} {ready : Nat → Bool} (h : Rules.Inside t Settled s) :
    conduct.team.Safe t (putRound t c ready) (Knows t) s := by
  refine (Rules.safe_read firm_settled h).seq fun b u hu => ?_
  cases b with
  | true =>
    have hsleep : conduct.team.Safe t (Monitor.sleep .release .acquire t .txr)
        (fun _ => Rules.Inside t fun a d => rules.free a d ∧ True) u := by
      refine Rules.safe_sleep (firm_tested (fun _ => rfl) true) Rules.lasting_true hu ?_
      intro a d _ hp
      refine ⟨⟨fun j ch hj => hp.2, hp.1.sent⟩, trivial⟩
    exact hsleep.seq fun _ _ hv => ⟨hv.lock, hv.awake, hv.holds.1⟩
  | false =>
    -- the buffer is not full, so nobody sleeps
    have hput : conduct.team.Safe t (Monitor.write (TxQueue.put c)) (fun _ => Rules.Inside t Settled) u := by
      refine Rules.safe_write (firm_tested (fun _ => rfl) false) hu ?_
      intro a d hd hp
      obtain ⟨⟨q, hq⟩, hsent⟩ := hd
      refine ⟨⟨⟨q ++ [c], hq.put hp.2 c⟩, hsent⟩, .inr trivial, ?_, hp.1.sent⟩
      intro j ch hj
      rw [hp.1.full j ch hj] at hp
      cases hp.2
    exact hput.seq fun _ _ hv => hv

theorem safe_uartputc {c : UInt8} {ready : Nat → Bool} (h : Outside t s) :
    conduct.team.Safe t (uartputc t c ready) (Knows t) s := by
  refine (safe_acquire h).seq fun _ u hu => ?_
  refine (Rules.safe_read firm_settled hu).seq fun b v hv => ?_
  cases b with
  | true => exact ⟨hv.lock, hv.awake, hv.holds.1⟩
  | false => exact ⟨hv.lock, hv.awake, hv.holds.1⟩

theorem safe_panic (h : Outside t s) : conduct.team.Safe t panic (Knows t) s := by
  have hset : conduct.team.Safe t (Monitor.onProg (.atomic fun d => .ok () { d with panicked := true }))
      (fun _ => Outside t) s := by
    refine Rules.safe_env Rules.lasting_true h ?_
    intro d _ _
    exact ⟨.inr rfl, trivial⟩
  exact hset.seq fun _ _ hu => hu

theorem safe_kill (h : Outside t s) (j : Pid) :
    conduct.team.Safe t (Monitor.kill (.proc j)) (fun _ => Outside t) s :=
  Rules.safe_kill (w := rules) (.proc j) h Rules.lasting_true

theorem obey : Pool.Obey conduct calls Knows (fun _ => True) where
  stable := knows_stable
  onward t a r s hr _ h := by
    cases a with
    | done => cases hr
    | spinning =>
      cases hr
      exact h
    | putting c ready =>
      cases hr
      exact safe_putRound h
    | starting ready k =>
      cases hr
      exact safe_startRound h
  call t a c s _ ha _ h _ := by
    cases a with
    | done =>
      cases c with
      | putc c ready => exact safe_uartputc h
      | intr ready => exact (safe_acquire h).seq fun _ _ hu => hu
      | kill j => exact (safe_kill h j).seq fun _ _ hu => hu
      | panic => exact safe_panic h
    | spinning => cases ha
    | putting c ready => cases ha
    | starting ready k => cases ha

theorem boot_ok (junk : Nat → UInt8) {m : Machine} (h : Reaches step (boot junk) m) : Pool.Ok conduct Knows m := by
  refine .of_reaches obey ⟨⟨⟨[], Fifo.init junk⟩, List.prefix_rfl⟩, fun _ => ⟨fun t ch ht => ?_, rfl⟩⟩ (fun t => ?_) h
  · cases ht
  · exact ⟨by simp [Monitor.start], rfl, trivial⟩

/-- For any writers, interrupts and polls of the device: the counters are the numbers of characters
taken and queued, modulo 2^64, and at most UART_TX_BUF_SIZE apart, so as numbers r ≤ w ≤ r +
UART_TX_BUF_SIZE until 2^64 characters have been queued; the device got a prefix of what was queued,
all that was taken while the lock is free; and then a process sleeps only on a full buffer. -/
theorem uart_output_queue {junk : Nat → UInt8} {m : Machine} (h : Reaches step (boot junk) m) :
    let d := m.state.data
    (d.w - d.r).toNat ≤ UART_TX_BUF_SIZE ∧
    (d.queued.length < 2 ^ 64 → d.r.toNat ≤ d.w.toNat ∧ d.w.toNat ≤ d.r.toNat + UART_TX_BUF_SIZE) ∧
    (d.r.toNat = d.taken.length % 2 ^ 64 ∧ d.w.toNat = d.queued.length % 2 ^ 64) ∧
    (d.taken <+: d.queued ∧ d.queued.length ≤ d.taken.length + UART_TX_BUF_SIZE) ∧
    (d.sent <+: d.queued ∧ (m.state.lock = none → d.sent = d.taken)) ∧
    ∀ p, m.state.lock = none → m.state.asleep (.proc p) = some .txr → d.w = d.r + UInt64.ofNat UART_TX_BUF_SIZE := by
  intro d
  have hok := boot_ok junk h
  obtain ⟨⟨q, hq⟩, hsent⟩ := hok.inv.always
  have hr : d.r.toNat = d.taken.length % 2 ^ 64 := hq.r
  have hw : d.w.toNat = d.queued.length % 2 ^ 64 := hq.w
  have hlen : d.queued.length = d.taken.length + q.length := hq.length
  have hroom : q.length ≤ 32 := hq.ring.room
  have htaken : d.taken <+: d.queued := ⟨q, hq.queued.symm⟩
  refine ⟨?_, fun hlt => ⟨by omega, Nat.le_trans (show d.w.toNat ≤ d.r.toNat + 32 by omega) (Nat.le_refl _)⟩, ⟨hr, hw⟩, ⟨htaken, ?_⟩,
    ⟨hsent.trans htaken, fun hl => (hok.inv.free hl).sent⟩, fun p hl hp => ?_⟩
  · show _ ≤ 32
    rw [UInt64.toNat_sub]
    omega
  · show _ ≤ _ + 32
    omega
  · simpa [TxQueue.full] using (hok.inv.free hl).full _ _ hp

/-- Process 1 sends one character and queues another. -/
def sendOne : List Action :=
  [.call (.proc 1) (.putc 65 fun _ => true)] ++ List.replicate 13 (.run (.proc 1)) ++
    [.call (.proc 1) (.putc 66 fun _ => false)] ++ List.replicate 8 (.run (.proc 1))

theorem uart_output_queue_sent : ∃ m, Reaches step (boot fun _ => 0) m ∧ m.state.data.sent = [65] ∧
    m.state.data.queued = [65, 66] ∧ m.state.data.sent <+: m.state.data.queued := by
  have hrun : (runAll step (boot fun _ => 0) sendOne).any (fun m =>
      decide (m.state.lock = none ∧ m.state.data.sent = [65] ∧ m.state.data.queued = [65, 66])) = true := by
    decide +kernel
  obtain ⟨m, hm, hp⟩ := Reaches.of_any hrun
  obtain ⟨-, h2, h3⟩ := of_decide_eq_true hp
  exact ⟨m, hm, h2, h3, (uart_output_queue hm).2.2.2.2.1.1⟩

/-- Process 1 is in no call, and all it has queued is sent: `x` characters, modulo 2^64. -/
structure Drained (x : UInt64) (m : Machine) : Prop where
  failed : m.failed = none
  rest : m.rest (.proc 1) = .ret .done
  lock : m.state.lock = none
  panicked : m.state.data.panicked = false
  r : m.state.data.r = x
  w : m.state.data.w = x

section
variable {x : UInt64} {m : Machine} {c : UInt8} {ready : Nat → Bool}

theorem uartputc_alone (hl : s.lock = none) (hp : s.data.panicked = false) :
    (uartputc t c ready).exec s = .ok (.putting c ready) { s with lock := some t } := by
  simp [uartputc, acquire, Monitor.acquire, Monitor.read, Monitor.onData, Prog.exec, Prog.atomic, hl, hp]

theorem putRound_alone (hf : s.data.full = false) :
    (putRound t c ready).exec s = .ok (.starting ready 0) { s with data := s.data.put c } := by
  simp [putRound, Monitor.write, Monitor.read, Monitor.onData, Prog.exec, Prog.atomic, hf]

/-- A round of uartstart() that sends. -/
theorem startRound_sends {k : Nat} (he : s.data.empty = false) (hready : ready k = true) :
    (startRound t ready k).exec s = .ok (.starting ready (k + 1))
      { s with asleep := wake .txr s.asleep, data := s.data.take.2.transmit s.data.take.1 } := by
  simp [startRound, Monitor.write, Monitor.wakeup, Monitor.read, Monitor.onData, Prog.exec, Prog.atomic, he, hready]

/-- Its last round. -/
theorem startRound_ends {k : Nat} (hl : s.lock = some t) (he : s.data.empty = true ∨ ready k = false) :
    (startRound t ready k).exec s = .ok .done { s with lock := none } := by
  by_cases hempty : s.data.empty = true
  · simp [startRound, leave, release, Monitor.release, Monitor.releaseWith, Monitor.read, Monitor.onData, Prog.exec, Prog.atomic, hl, hempty]
  · have hready := he.resolve_left hempty
    simp [startRound, leave, release, Monitor.release, Monitor.releaseWith, Monitor.read, Monitor.onData, Prog.exec, Prog.atomic, hl, hready]

/-- uartputc() up to uartstart(), with nothing in the buffer. -/
theorem reaches_queued (h : Drained x m) (c : UInt8) (ready : Nat → Bool) :
    ∃ m', Reaches step m m' ∧ m'.failed = none ∧ m'.rest (.proc 1) = .ret (.starting ready 0) ∧
      m'.state = { m.state with lock := some (.proc 1), data := m.state.data.put c } := by
  have hcall : Reaches step m _ := Pool.reaches_call (c := Call.putc c ready) h.failed h.rest rfl rfl (uartputc_alone h.lock h.panicked)
  have hsize : UInt64.ofNat UART_TX_BUF_SIZE ≠ 0 := by decide
  have hfull : m.state.data.full = false := by simp [TxQueue.full, h.r, h.w, hsize]
  have hput := hcall.trans (Pool.reaches_round h.failed (setAt_same _ _ _) rfl (putRound_alone hfull))
  exact ⟨_, hput, h.failed, by simp, rfl⟩

/-- A device that is ready gets the character at once. -/
theorem reaches_drained (h : Drained x m) : ∃ m', Reaches step m m' ∧ Drained (x + 1) m' := by
  obtain ⟨m₁, h₁, hf, hr, hs⟩ := reaches_queued h 65 fun _ => true
  have he : m₁.state.data.empty = false := by simp [hs, TxQueue.empty, TxQueue.put, h.r, h.w]
  have h₂ := h₁.trans (Pool.reaches_round hf hr rfl (startRound_sends he rfl))
  refine ⟨_, h₂.trans (Pool.reaches_round hf (setAt_same _ _ _) rfl (startRound_ends (by rw [hs]) (.inl ?_))), hf, by simp, rfl, ?_,
    ?_, ?_⟩
  · simp [hs, TxQueue.empty, TxQueue.put, TxQueue.take, TxQueue.transmit, h.r, h.w]
  · simp [hs, TxQueue.put, TxQueue.take, TxQueue.transmit, h.panicked]
  · simp [hs, TxQueue.put, TxQueue.take, TxQueue.transmit, h.r]
  · simp [hs, TxQueue.put, TxQueue.take, TxQueue.transmit, h.w]

end

theorem reaches_count (n : Nat) : ∃ m, Reaches step (boot fun _ => 0) m ∧ Drained (UInt64.ofNat n) m := by
  induction n with
  | zero => exact ⟨_, .start, rfl, rfl, rfl, rfl, rfl, rfl⟩
  | succ n ih =>
    obtain ⟨m, hm, hd⟩ := ih
    obtain ⟨m', hm', hd'⟩ := reaches_drained hd
    refine ⟨m', hm.trans hm', ?_⟩
    rw [UInt64.ofNat_add]
    exact hd'

/-- After 2^64 characters the last of which waits for the device, uart_tx_w is 0 and uart_tx_r is
not. -/
theorem uart_counters_wrap : ∃ m, Reaches step (boot fun _ => 0) m ∧ m.state.lock = none ∧
    m.state.data.w < m.state.data.r := by
  obtain ⟨m, hm, hd⟩ := reaches_count (2 ^ 64 - 1)
  obtain ⟨m₁, h₁, hf, hr, hs⟩ := reaches_queued hd 65 fun _ => false
  have h₂ := h₁.trans (Pool.reaches_round hf hr rfl (startRound_ends (by rw [hs]) (.inr rfl)))
  refine ⟨_, hm.trans h₂, rfl, ?_⟩
  simp only [hs, TxQueue.put, hd.r, hd.w]
  decide

end Xv6.Uart
