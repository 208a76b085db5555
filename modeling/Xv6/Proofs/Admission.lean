import Mathlib.Algebra.Order.BigOperators.Group.List
import Mathlib.Algebra.Order.Group.Nat
import Mathlib.Data.List.Dedup
import Xv6.Proofs.Atomicity

namespace Xv6
variable {start : Nat} {d : Disk} {m m' : Machine} {p : Pid}

namespace Machine

/-- The distinct blocks logged since the last commit. -/
def loggedNow (m : Machine) : List Nat :=
  ((m.logs.filter (fun r => r.epoch == m.epoch)).map LogRec.block).dedup

/-- The distinct blocks an operation has logged so far. -/
def opBlocks (m : Machine) (op : Nat) : List Nat :=
  ((m.logs.filter (fun r => r.op == op)).map LogRec.block).dedup

end Machine

/-- log.lh lists each block of the open transaction once. -/
theorem loggedNow_length (h : Inv m) (hm : m.mode = none) :
    m.loggedNow.length = m.blk.log.lh.length := by
  have hcore := h.coherent.core
  obtain ⟨hhead, _⟩ := hcore.idle hm
  apply List.Perm.length_eq
  refine (List.perm_ext_iff_of_nodup (List.nodup_dedup _) hcore.nodup).mpr ?_
  intro n
  rw [List.mem_dedup, List.mem_map]
  constructor
  · intro hn
    obtain ⟨r, hr, rfl⟩ := hn
    obtain ⟨hr, he⟩ := List.mem_filter.mp hr
    exact (hcore.traced.now r hr (eq_of_beq he)).2
  · intro hn
    obtain ⟨r, hr, he, rfl⟩ := hcore.traced.listed n hn hhead
    exact ⟨r, List.mem_filter.mpr ⟨hr, beq_iff_eq.mpr he⟩, rfl⟩

/-- What every action but begin_op(), log_write() and end_op() leaves alone. -/
structure Keeps (m m' : Machine) : Prop where
  logs : m'.logs = m.logs
  ops : m'.inOp = m.inOp
  size : m'.size = m.size
  calm : m'.panicked ≠ some .tooBigTransaction

theorem resume_keeps (h : Inv m) (hn : m.panicked = none) {rest : BlkM Unit}
    {busy : BlkM Unit → Thread} (hr : m.thread.running = some (p, rest))
    (hs : m.resume rest busy = some m') : Keeps m m' := by
  obtain ⟨⟨β, g, k, rfl⟩, hsafe⟩ := h.thread hn p rest hr
  have hacc := hsafe.2 m ⟨rfl, Apart.refl p m.blk, h.coherent⟩
  change (among p).Accepts m _ (g m.blk) at hacc
  cases after_some hs with
  | inl hok =>
    obtain ⟨b, s, _, rfl⟩ := hok
    have hrec : (m.record s).logs = m.logs ∧ (m.record s).inOp = m.inOp ∧
        (m.record s).size = m.size ∧ (m.record s).panicked = none := by
      unfold Machine.record
      split <;> exact ⟨rfl, rfl, rfl, hn⟩
    obtain ⟨hl, ho, hs, hp⟩ := hrec
    exact ⟨hl, ho, hs, fun hx => by cases hp.symm.trans hx⟩
  | inr hfail =>
    obtain ⟨e, he, rfl⟩ := hfail
    rw [he] at hacc
    refine ⟨rfl, rfl, rfl, fun hx => ?_⟩
    cases (show e = .bgetNoBuffers from hacc).symm.trans (Option.some.inj hx)

/-- A step of a reader of the cache. -/
theorem reader_keeps {β : Type} {o : Out Panic Blk β} (hn : m.panicked = none)
    (h : m.after o (fun _ s => { m with blk := s }) = some m')
    (hl : ∀ b s, o = .ok b s → s.log = m.blk.log) (hf : ∀ e, o = .fail e → e ≠ .tooBigTransaction) :
    Keeps m m' ∧ m'.blk.log = m.blk.log ∧ m'.mode = m.mode := by
  cases after_some h with
  | inl hok =>
    obtain ⟨b, s, ho, rfl⟩ := hok
    exact ⟨⟨rfl, rfl, rfl, fun hx => by cases hn.symm.trans hx⟩, hl b s ho, rfl⟩
  | inr hfail =>
    obtain ⟨e, he, rfl⟩ := hfail
    exact ⟨⟨rfl, rfl, rfl, fun hx => hf e he (Option.some.inj hx)⟩, rfl, rfl⟩

/-- What the running operations may still log if each keeps to MAXOPBLOCKS - 1 blocks. -/
def Machine.credit (m : Machine) : Nat :=
  (m.inOp.map (fun x => MAXOPBLOCKS - 1 - (m.opBlocks x.2).length)).sum

/-- begin_op() has left room for everything the running operations may still log. -/
def Admitted (m : Machine) : Prop :=
  m.mode = none → m.blk.log.lh.length + m.credit ≤ LOGSIZE - 2

theorem credit_le (m : Machine) : m.credit ≤ (MAXOPBLOCKS - 1) * m.inOp.length := by
  have h := List.sum_le_card_nsmul
    (m.inOp.map (fun x => MAXOPBLOCKS - 1 - (m.opBlocks x.2).length)) (MAXOPBLOCKS - 1) ?_
  · simpa [Machine.credit, Nat.mul_comm] using h
  · intro n hn
    obtain ⟨x, _, rfl⟩ := List.mem_map.mp hn
    exact Nat.sub_le _ _

theorem beginOp_admitted (h : Inv m) (hm : m.mode = none) {t : Blk}
    (ht : beginOpTry m.blk = .ok () t) :
    Admitted { m with blk := t, inOp := (p, m.nextOp) :: m.inOp, nextOp := m.nextOp + 1 } := by
  have hcore := h.coherent.core
  have hcount : m.blk.log.outstanding = m.inOp.length := hcore.count
  have hcredit := credit_le m
  unfold beginOpTry at ht
  split at ht
  · cases ht
  split at ht
  · cases ht
  rename_i hroom
  cases ht
  intro _
  change m.blk.log.lh.length + (MAXOPBLOCKS - 1 - (m.opBlocks m.nextOp).length + m.credit) ≤ _
  simp only [MAXOPBLOCKS, LOGSIZE] at hroom hcredit ⊢
  by_cases hz : m.inOp = []
  · have hlh : m.blk.log.lh = [] := (hcore.idle hm).2 hz
    simp only [hlh, hz, List.length_nil] at hcredit ⊢
    omega
  · have := List.length_pos_iff.mpr hz
    omega

theorem endOp_admitted (h : Admitted m) {t : Blk} {doCommit : Bool}
    (ht : endOpEnter m.blk = .ok doCommit t) :
    Admitted { m with
      blk := t
      inOp := m.inOp.filter (fun x => x.1 != p)
      thread := if doCommit then .committing p (endOpCommit p) else m.thread } := by
  have hlh : t.log.lh = m.blk.log.lh := by
    unfold endOpEnter at ht
    dsimp only at ht
    split at ht
    · cases ht
    split at ht <;> (cases ht; rfl)
  intro hm
  have hm' : m.mode = none := by
    cases doCommit with
    | true => cases hm
    | false => exact hm
  have hsub : ((m.inOp.filter (fun x => x.1 != p)).map
      (fun x => MAXOPBLOCKS - 1 - (m.opBlocks x.2).length)).sum ≤ m.credit :=
    (List.filter_sublist.map _).sum_le_sum (fun _ _ => Nat.zero_le _)
  have := h hm'
  change t.log.lh.length + ((m.inOp.filter (fun x => x.1 != p)).map
    (fun x => MAXOPBLOCKS - 1 - (m.opBlocks x.2).length)).sum ≤ _
  rw [hlh]
  omega

theorem opBlocks_cons (m : Machine) (r : LogRec) (op : Nat) :
    ((((r :: m.logs).filter (fun r => r.op == op)).map LogRec.block).dedup).length =
      if r.op = op ∧ r.block ∉ m.opBlocks op then (m.opBlocks op).length + 1
      else (m.opBlocks op).length := by
  by_cases ho : r.op = op
  · rw [List.filter_cons_of_pos (by simpa using ho), List.map_cons]
    by_cases hb : r.block ∈ (m.logs.filter (fun r => r.op == op)).map LogRec.block
    · rw [List.dedup_cons_of_mem hb, if_neg]
      · rfl
      · exact fun hx => hx.2 (List.mem_dedup.mpr hb)
    · rw [List.dedup_cons_of_notMem hb, if_pos ⟨ho, fun hx => hb (List.mem_dedup.mp hx)⟩]
      rfl
  · rw [List.filter_cons_of_neg (by simpa using ho), if_neg (fun hx => ho hx.1)]
    rfl

/-- The blocks of a running operation are in log.lh. -/
theorem opBlocks_listed (h : Inv m) {op : Nat} (ho : (p, op) ∈ m.inOp) :
    ∀ n ∈ m.opBlocks op, n ∈ m.blk.log.lh := by
  intro n hn
  obtain ⟨r, hr, rfl⟩ := List.mem_map.mp (List.mem_dedup.mp hn)
  obtain ⟨hr, he⟩ := List.mem_filter.mp hr
  have ht := h.coherent.core.traced
  exact (ht.now r hr ((ht.running _ ho).2 r hr (eq_of_beq he))).2

theorem logWrite_admitted (h : Inv m) (ha : Admitted m) (hm : m.mode = none) {i : BufId} {op : Nat}
    (ho : (p, op) ∈ m.inOp) {t : Blk} (ht : Logged m.blk i t)
    (hm' : m' = { m with
      blk := t
      dirty := m.dirty.filter (fun j => j != i)
      logical := fun n => if n = (m.blk.bc.buf i).blockno then (m.blk.bc.buf i).data
        else m.logical n
      torn := m.torn.filter (fun n => n != (m.blk.bc.buf i).blockno)
      logs := ⟨op, m.epoch, (m.blk.bc.buf i).blockno⟩ :: m.logs })
    (hfew : ∀ op, (m'.opBlocks op).length ≤ MAXOPBLOCKS - 1) : Admitted m' := by
  intro _
  have hlen : ∀ o, (m'.opBlocks o).length = if op = o ∧ (m.blk.bc.buf i).blockno ∉ m.opBlocks o
      then (m.opBlocks o).length + 1 else (m.opBlocks o).length := by
    intro o
    rw [hm']
    exact opBlocks_cons m ⟨op, m.epoch, (m.blk.bc.buf i).blockno⟩ o
  have hgrow : ∀ o, (m.opBlocks o).length ≤ (m'.opBlocks o).length := by
    intro o
    rw [hlen o]
    split <;> omega
  have hops : m'.inOp = m.inOp := by rw [hm']
  have hlh : m'.blk.log.lh = t.log.lh := by rw [hm']
  have hcredit : m'.credit ≤ m.credit := by
    unfold Machine.credit
    rw [hops]
    exact List.sum_le_sum (fun x _ => Nat.sub_le_sub_left (hgrow x.2) _)
  have hold := ha hm
  rw [hlh]
  cases ht.grows with
  | inl hg =>
    rw [hg.2.1]
    omega
  | inr hg =>
    -- A block new to the log is new to the operation, whose credit shrinks by one.
    have hnew : (m.blk.bc.buf i).blockno ∉ m.opBlocks op :=
      fun hx => hg.1 (opBlocks_listed h ho _ hx)
    have hone := hlen op
    rw [if_pos ⟨rfl, hnew⟩] at hone
    have hlt : m'.credit < m.credit := by
      unfold Machine.credit
      rw [hops]
      refine List.sum_lt_sum _ _ (fun x _ => Nat.sub_le_sub_left (hgrow x.2) _) ⟨_, ho, ?_⟩
      have := hfew op
      change MAXOPBLOCKS - 1 - (m'.opBlocks op).length < MAXOPBLOCKS - 1 - (m.opBlocks op).length
      omega
    rw [hg.2.1, List.length_append, List.length_singleton]
    omega

theorem reader_admitted (ha : Admitted m)
    (h : Keeps m m' ∧ m'.blk.log = m.blk.log ∧ m'.mode = m.mode) : Admitted m' := by
  obtain ⟨hk, hlog, hmode⟩ := h
  have hcredit : m'.credit = m.credit := by
    unfold Machine.credit Machine.opBlocks
    rw [hk.logs, hk.ops]
  intro hm
  rw [hlog, hcredit]
  exact ha (hmode.symm.trans hm)

theorem logWrite_tooBig {i : BufId} {s : Blk} (hz : s.log.size = LOGSIZE) :
    logWrite i s = .fail .tooBigTransaction ↔ LOGSIZE - 1 ≤ s.log.lh.length := by
  unfold logWrite
  dsimp only
  rw [hz]
  by_cases hbig : s.log.lh.length ≥ LOGSIZE ∨ (s.log.lh.length : Int) ≥ (LOGSIZE : Int) - 1
  · rw [if_pos hbig]
    simp only [true_iff]
    omega
  · rw [if_neg hbig]
    constructor
    · intro hx
      split at hx
      · cases hx
      · split at hx <;> cases hx
    · intro hx
      omega

/-- Every step keeps the log's room, and no step but log_write() can find it too small. -/
theorem Admitted.act (ha : Admitted m) (h : Inv m) (hz : m.size = LOGSIZE)
    (hp : m.panicked = none) {a : Action} (hs : m.act a = some m')
    (hfew : ∀ op, (m'.opBlocks op).length ≤ MAXOPBLOCKS - 1) :
    Admitted m' ∧ m'.panicked ≠ some .tooBigTransaction := by
  have hinv' : Inv m' := h.act hp hs
  cases act_cases hs with
  | crash => exact ⟨fun hm => (by cases hm), fun hx => (by cases hx)⟩
  | thread hr _ _ hs =>
    have hk := resume_keeps h hp hr hs
    refine ⟨fun hm => ?_, hk.calm⟩
    have hops : m'.inOp = [] := by
      rw [hk.ops]
      refine h.coherent.core.alone (fun hx => ?_)
      cases hr.symm.trans (congrArg Thread.running (thread_idle_of_mode hx))
    have hlh : m'.blk.log.lh = [] := (hinv'.coherent.core.idle hm).2 hops
    simp [Machine.credit, hops, hlh]
  | beginOp hb ho ht =>
    exact ⟨beginOp_admitted h (beginOp_coherent h.coherent hb ho ht).1 ht,
      fun hx => by cases hp.symm.trans hx⟩
  | endOp _ _ hs =>
    cases after_some hs with
    | inl hok =>
      obtain ⟨doCommit, t, ht, rfl⟩ := hok
      exact ⟨endOp_admitted ha ht, fun hx => by cases hp.symm.trans hx⟩
    | inr hfail =>
      obtain ⟨e, he, rfl⟩ := hfail
      refine ⟨ha, fun hx => ?_⟩
      cases hx
      unfold endOpEnter at he
      dsimp only at he
      split at he
      · cases he
      · split at he <;> cases he
  | modify hl ho => exact ⟨ha, fun hx => by cases hp.symm.trans hx⟩
  | abandon hl hi hin => exact ⟨ha, fun hx => by cases hp.symm.trans hx⟩
  | logWrite hl hv hin ho hs =>
    have hm := h.coherent.idle_of_op (p := _) (by rw [ho]; simp)
    cases after_some hs with
    | inl hok =>
      obtain ⟨_, t, ht, rfl⟩ := hok
      exact ⟨logWrite_admitted h ha hm (opOf_some ho) (logWrite_logged ht) rfl hfew,
        fun hx => by cases hp.symm.trans hx⟩
    | inr hfail =>
      obtain ⟨e, he, rfl⟩ := hfail
      refine ⟨ha, fun hx => ?_⟩
      cases hx
      have hlen := ha hm
      have hsize : m.blk.log.size = LOGSIZE := h.coherent.core.sb.2.2.trans hz
      have := (logWrite_tooBig hsize).mp he
      simp only [LOGSIZE, MAXOPBLOCKS] at this hlen
      omega
  | bget _ hs =>
    have hk := reader_keeps hp hs (fun _ _ ho => (bgetScan_got ho).log) (fun e he hx => by
      cases (bgetScan_fail he).1.symm.trans hx)
    exact ⟨reader_admitted ha hk, hk.1.calm⟩
  | acquire _ _ hs =>
    have hk := reader_keeps hp hs (fun _ _ ho => by
      unfold acquiresleep at ho
      split at ho <;> cases ho
      rfl) (fun e he => by
      unfold acquiresleep at he
      split at he <;> cases he)
    exact ⟨reader_admitted ha hk, hk.1.calm⟩
  | fill _ _ hs =>
    have hk := reader_keeps hp hs (fun _ _ ho => by
      unfold breadFill at ho
      split at ho <;> (cases ho; rfl)) (fun e he => by
      unfold breadFill at he
      split at he <;> cases he)
    exact ⟨reader_admitted ha hk, hk.1.calm⟩
  | release _ hl _ hs =>
    have hk := reader_keeps hp hs (fun _ _ ho => by
      unfold releasesleep at ho
      rw [if_pos hl] at ho
      cases ho
      rfl) (fun e he => by
      unfold releasesleep at he
      rw [if_pos hl] at he
      cases he)
    exact ⟨reader_admitted ha hk, hk.1.calm⟩
  | put _ _ _ hs =>
    have hk := reader_keeps hp hs (fun _ _ ho => (put_frame ho).2.1) (fun e he => by
      simp [brelsePut] at he)
    exact ⟨reader_admitted ha hk, hk.1.calm⟩

theorem after_frame {β : Type} {o : Out Panic Blk β} {k : β → Blk → Machine}
    (h : m.after o k = some m')
    (hk : ∀ b s, (k b s).size = m.size ∧ ((k b s).logs = m.logs ∨ ∃ r, (k b s).logs = r :: m.logs)) :
    m'.size = m.size ∧ (m'.logs = m.logs ∨ ∃ r, m'.logs = r :: m.logs) := by
  cases after_some h with
  | inl hok =>
    obtain ⟨b, s, _, rfl⟩ := hok
    exact hk b s
  | inr hfail =>
    obtain ⟨e, _, rfl⟩ := hfail
    exact ⟨rfl, .inl rfl⟩

/-- The superblock does not change and the history only grows. -/
theorem step_frame (h : Inv m) {a : Action} (hs : m.step a = some m') :
    m'.size = m.size ∧ (m'.logs = m.logs ∨ ∃ r, m'.logs = r :: m.logs) := by
  unfold Machine.step at hs
  split at hs
  · rename_i hp
    cases act_cases hs with
    | crash => exact ⟨rfl, .inl rfl⟩
    | thread hr _ _ hs =>
      have hk := resume_keeps h hp hr hs
      exact ⟨hk.size, .inl hk.logs⟩
    | beginOp _ _ _ => exact ⟨rfl, .inl rfl⟩
    | modify _ _ => exact ⟨rfl, .inl rfl⟩
    | abandon _ _ _ => exact ⟨rfl, .inl rfl⟩
    | endOp _ _ hs => exact after_frame hs (fun _ _ => ⟨rfl, .inl rfl⟩)
    | logWrite _ _ _ _ hs => exact after_frame hs (fun _ _ => ⟨rfl, .inr ⟨_, rfl⟩⟩)
    | bget _ hs => exact after_frame hs (fun _ _ => ⟨rfl, .inl rfl⟩)
    | acquire _ _ hs => exact after_frame hs (fun _ _ => ⟨rfl, .inl rfl⟩)
    | fill _ _ hs => exact after_frame hs (fun _ _ => ⟨rfl, .inl rfl⟩)
    | release _ _ _ hs => exact after_frame hs (fun _ _ => ⟨rfl, .inl rfl⟩)
    | put _ _ _ hs => exact after_frame hs (fun _ _ => ⟨rfl, .inl rfl⟩)
  · cases hs
    exact ⟨rfl, .inl rfl⟩
  · cases hs

theorem opBlocks_grow (h : m'.logs = m.logs ∨ ∃ r, m'.logs = r :: m.logs) (op : Nat) :
    (m.opBlocks op).length ≤ (m'.opBlocks op).length := by
  cases h with
  | inl h => exact Nat.le_of_eq (by rw [Machine.opBlocks, Machine.opBlocks, h])
  | inr h =>
    obtain ⟨r, h⟩ := h
    have hlen := opBlocks_cons m r op
    rw [← h] at hlen
    change (m'.opBlocks op).length = _ at hlen
    rw [hlen]
    split <;> omega

/-- A run in which every operation keeps to MAXOPBLOCKS - 1 distinct blocks. -/
theorem reaches_admitted (hd : decodeHead (d start) = [])
    (hr : Reaches Machine.step (Machine.boot start LOGSIZE d d) m) :
    m.size = LOGSIZE ∧ ((∀ op, (m.opBlocks op).length ≤ MAXOPBLOCKS - 1) →
      Admitted m ∧ m.panicked ≠ some .tooBigTransaction) := by
  induction hr with
  | start => exact ⟨rfl, fun _ => ⟨fun hm => (by cases hm), fun hx => (by cases hx)⟩⟩
  | next a hreach hs ih =>
    rename_i m m'
    have hinv : Inv m := reaches_inv (by decide) hd hreach
    obtain ⟨hsize, hgrow⟩ := step_frame hinv hs
    refine ⟨hsize.trans ih.1, fun hfew => ?_⟩
    obtain ⟨ha, _⟩ := ih.2 (fun op => Nat.le_trans (opBlocks_grow hgrow op) (hfew op))
    unfold Machine.step at hs
    split at hs
    · rename_i hp
      exact ha.act hinv ih.1 hp hs hfew
    · cases hs
      exact ⟨fun hm => (by cases hm), fun hx => (by cases hx)⟩
    · cases hs

/-- On a disk laid out by mkfs, log_write() panics exactly when the open transaction
already has LOGSIZE - 1 distinct blocks, and it never comes to that while every
operation keeps to MAXOPBLOCKS - 1 of them. -/
theorem log_write_room (hd : decodeHead (d start) = [])
    (hr : Reaches Machine.step (Machine.boot start LOGSIZE d d) m) :
    (∀ p i m', m.step (.logWrite p i) = some m' →
      (m'.panicked = some .tooBigTransaction ↔ LOGSIZE - 1 ≤ m.loggedNow.length)) ∧
    ((∀ op, (m.opBlocks op).length ≤ MAXOPBLOCKS - 1) →
      m.panicked ≠ some .tooBigTransaction) := by
  have hinv : Inv m := reaches_inv (by decide) hd hr
  obtain ⟨hsize, hfew⟩ := reaches_admitted hd hr
  refine ⟨?_, fun h => (hfew h).2⟩
  intro p i m' hs
  cases hp : m.panicked with
  | some e => simp [Machine.step, hp] at hs
  | none =>
    simp only [Machine.step, hp] at hs
    cases act_cases hs with
    | logWrite hl hv hin ho hs =>
      have hm := hinv.coherent.idle_of_op (p := p) (by rw [ho]; simp)
      have hz : m.blk.log.size = LOGSIZE := hinv.coherent.core.sb.2.2.trans hsize
      rw [loggedNow_length hinv hm, ← logWrite_tooBig (i := i) hz]
      cases after_some hs with
      | inl hok =>
        obtain ⟨_, t, ht, rfl⟩ := hok
        rw [ht]
        simp [hp]
      | inr hfail =>
        obtain ⟨e, he, rfl⟩ := hfail
        rw [he]
        simp

/-- Three operations run at once and log 29 distinct blocks, none of them more than
MAXOPBLOCKS; the third is about to log its tenth. -/
def fullRun : List Action :=
  bootRun ++ [.beginOp 1, .beginOp 2, .beginOp 3] ++
  (List.range 29).flatMap (fun k =>
    let p := k / 10 + 1
    let i := Fin.ofNat NBUF (k + 1)
    [.bget p (UInt32.ofNat (100 + k)), .acquire p i, .fill p i, .logWrite p i, .release p i,
      .put p i]) ++
  [.bget 3 129, .acquire 3 0, .fill 3 0]

set_option maxRecDepth 100000 in
/-- begin_op() admitted all three, yet log_write() finds the log full. -/
theorem log_admission_too_small : ∃ m m',
    runAll Machine.step (Machine.boot 2 LOGSIZE emptyDisk emptyDisk) fullRun = some m ∧
    m.inOp = [(3, 2), (2, 1), (1, 0)] ∧ (m.opBlocks 0).length = MAXOPBLOCKS ∧
    (m.opBlocks 1).length = MAXOPBLOCKS ∧ (m.opBlocks 2).length = MAXOPBLOCKS - 1 ∧
    m.step (.logWrite 3 0) = some m' ∧ m'.panicked = some .tooBigTransaction := by
  have hrun : (runAll Machine.step (Machine.boot 2 LOGSIZE emptyDisk emptyDisk) fullRun).map
      (fun m => (m.inOp, [0, 1, 2].map (fun op => (m.opBlocks op).length),
        (m.step (.logWrite 3 0)).map (fun m' => m'.panicked))) =
      some ([(3, 2), (2, 1), (1, 0)], [10, 10, 9], some (some .tooBigTransaction)) := by
    decide +kernel
  obtain ⟨m, hm, hrun⟩ := Option.map_eq_some_iff.mp hrun
  simp only [Prod.mk.injEq, List.map_cons, List.map_nil, List.cons.injEq] at hrun
  obtain ⟨hops, ⟨h0, h1, h2, _⟩, hnext⟩ := hrun
  obtain ⟨m', hm', hpanic⟩ := Option.map_eq_some_iff.mp hnext
  exact ⟨m, m', hm, hops, h0, h1, h2, hm', hpanic⟩

set_option maxRecDepth 100000 in
/-- The transaction of that run has the 29 blocks that fill the log. -/
theorem log_write_room_full : ∃ m m',
    runAll Machine.step (Machine.boot 2 LOGSIZE emptyDisk emptyDisk) fullRun = some m ∧
    m.step (.logWrite 3 0) = some m' ∧ LOGSIZE - 1 ≤ m.loggedNow.length := by
  have hrun : (runAll Machine.step (Machine.boot 2 LOGSIZE emptyDisk emptyDisk) fullRun).map
      (fun m => (m.step (.logWrite 3 0)).map (fun m' => m'.panicked)) =
      some (some (some .tooBigTransaction)) := by
    decide +kernel
  obtain ⟨m, hm, hnext⟩ := Option.map_eq_some_iff.mp hrun
  obtain ⟨m', hm', hpanic⟩ := Option.map_eq_some_iff.mp hnext
  have hroom := (log_write_room (by decide +kernel) (.of_run hm)).1 3 0 m' hm'
  exact ⟨m, m', hm, hm', hroom.mp hpanic⟩

end Xv6
