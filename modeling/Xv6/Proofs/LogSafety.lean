import Xv6.Proofs.Clients

namespace Xv6
variable {m m' : Machine} {p : Pid}

/-- The process inside the log's code, with what it has left to do. -/
def Thread.running : Thread → Option (Pid × BlkM Unit)
  | .idle => none
  | .recovering rest => some (initPid, rest)
  | .committing p rest => some (p, rest)

/-- The log's thread can go on whatever the readers of the cache do. -/
def ThreadOk (m : Machine) : Prop :=
  ∀ p rest, m.thread.running = some (p, rest) →
    (∃ (β : Type) (g : Blk → Out Panic Blk β) (k : β → BlkM Unit), rest = .act g k) ∧
    (among p).Safe rest (fun _ m => Coherent { m with thread := .idle }) m

/-- The machine's invariant. Two panics are left: no free buffer, and no room in the log. -/
structure Inv (m : Machine) : Prop where
  coherent : Coherent m
  thread : m.panicked = none → ThreadOk m
  panics : ∀ e, m.panicked = some e → e = .bgetNoBuffers ∨ e = .tooBigTransaction

/-- Only the mode of the thread matters to the block layer. -/
theorem Coherent.of_same (h : Coherent m) (hb : m'.blk = m.blk) (hc : m'.core = m.core)
    (hd : m'.dirty = m.dirty) : Coherent m' := by
  have hops : m'.inOp = m.inOp := congrArg Core.inOp hc
  have htorn : m'.torn = m.torn := congrArg Core.torn hc
  refine ⟨hb ▸ h.cache, hc ▸ h.core, hb ▸ h.small, hb ▸ h.pins, ?_, ?_⟩
  · rw [hb, hd, hc, htorn]
    exact h.data
  · rw [hb, hd, hops]
    exact h.dirty

theorem Inv.panic (h : Inv m) {e : Panic} (he : e = .bgetNoBuffers ∨ e = .tooBigTransaction) :
    Inv { m with panicked := some e } := by
  refine ⟨h.coherent.of_same rfl rfl rfl, fun hn => absurd hn (by simp), ?_⟩
  intro e' he'
  cases he'
  exact he

theorem after_some {β : Type} {o : Out Panic Blk β} {k : β → Blk → Machine}
    (h : m.after o k = some m') :
    (∃ b s, o = .ok b s ∧ m' = k b s) ∨ (∃ e, o = .fail e ∧ m' = { m with panicked := some e }) := by
  cases o with
  | ok b s => exact .inl ⟨b, s, rfl, (Option.some.inj h).symm⟩
  | wait => cases h
  | fail e => exact .inr ⟨e, rfl, (Option.some.inj h).symm⟩

/-- What an action does, with the guards under which it happens. -/
inductive Acted (m : Machine) : Action → Machine → Prop
  | crash : Acted m .crash m.crash
  | thread {p : Pid} {rest : BlkM Unit} {busy : BlkM Unit → Thread} {m' : Machine}
      (running : m.thread.running = some (p, rest))
      (goesOn : ∀ r, (busy r).running = some (p, r))
      (mode : ∀ r s, ({ m.record s with thread := busy r } : Machine).mode = m.mode)
      (step : m.resume rest busy = some m') : Acted m .thread m'
  | beginOp {p : Pid} {t : Blk} (free : m.busy p = false) (outside : m.opOf p = none)
      (step : beginOpTry m.blk = .ok () t) : Acted m (.beginOp p)
        { m with blk := t, inOp := (p, m.nextOp) :: m.inOp, nextOp := m.nextOp + 1 }
  | endOp {p : Pid} {m' : Machine} (inside : m.opOf p ≠ none)
      (unused : ¬ ∃ x ∈ m.blk.bc.users, x.1 = p)
      (step : m.after (endOpEnter m.blk) (fun doCommit s =>
        { m with
          blk := s
          inOp := m.inOp.filter (fun x => x.1 != p)
          thread := if doCommit then .committing p (endOpCommit p) else m.thread }) = some m') :
      Acted m (.endOp p) m'
  | bget {p : Pid} {n : UInt32} {m' : Machine} (free : m.busy p = false)
      (step : m.after (bgetScan p m.blk.log.dev n.toNat m.blk) (fun _ s => { m with blk := s }) =
        some m') : Acted m (.bget p n) m'
  | acquire {p : Pid} {i : BufId} {m' : Machine} (free : m.busy p = false)
      (user : (p, i) ∈ m.blk.bc.users)
      (step : m.after (acquiresleep p i m.blk) (fun _ s => { m with blk := s }) = some m') :
      Acted m (.acquire p i) m'
  | fill {p : Pid} {i : BufId} {m' : Machine} (free : m.busy p = false)
      (locked : (m.blk.bc.buf i).lock = some p)
      (step : m.after (breadFill i m.blk) (fun _ s => { m with blk := s }) = some m') :
      Acted m (.fill p i) m'
  | modify {p : Pid} {i : BufId} {d : Block} {op : Nat} (locked : (m.blk.bc.buf i).lock = some p)
      (inside : m.opOf p = some op) : Acted m (.modify p i d)
        { m with
          blk := m.blk.setBuf i (fun b => { b with data := d })
          dirty := i :: m.dirty }
  | logWrite {p : Pid} {i : BufId} {op : Nat} {m' : Machine}
      (locked : (m.blk.bc.buf i).lock = some p) (valid : (m.blk.bc.buf i).valid = true)
      (out : ¬ m.blk.log.InLog (m.blk.bc.buf i).blockno) (inside : m.opOf p = some op)
      (step : m.after (Xv6.logWrite i m.blk) (fun _ s =>
        { m with
          blk := s
          dirty := m.dirty.filter (fun j => j != i)
          logical := fun n => if n = (m.blk.bc.buf i).blockno then (m.blk.bc.buf i).data
            else m.logical n
          torn := m.torn.filter (fun n => n != (m.blk.bc.buf i).blockno)
          logs := ⟨op, m.epoch, (m.blk.bc.buf i).blockno⟩ :: m.logs }) = some m') :
      Acted m (.logWrite p i) m'
  | abandon {p : Pid} {i : BufId} (locked : (m.blk.bc.buf i).lock = some p) (changed : i ∈ m.dirty)
      (out : ¬ m.blk.log.InLog (m.blk.bc.buf i).blockno) : Acted m (.abandon p i)
        { m with
          dirty := m.dirty.filter (fun j => j != i)
          logical := if (m.blk.bc.buf i).blockno ∈ m.blk.log.lh then
              (fun n => if n = (m.blk.bc.buf i).blockno then (m.blk.bc.buf i).data else m.logical n)
            else m.logical
          torn := if (m.blk.bc.buf i).blockno ∈ m.blk.log.lh ∨
              (m.blk.bc.buf i).data = m.logical (m.blk.bc.buf i).blockno then m.torn
            else (m.blk.bc.buf i).blockno :: m.torn }
  | release {p : Pid} {i : BufId} {m' : Machine} (free : m.busy p = false)
      (locked : (m.blk.bc.buf i).lock = some p) (clean : i ∉ m.dirty)
      (step : m.after (releasesleep p i m.blk) (fun _ s => { m with blk := s }) = some m') :
      Acted m (.release p i) m'
  | put {p : Pid} {i : BufId} {m' : Machine} (free : m.busy p = false)
      (user : (p, i) ∈ m.blk.bc.users) (unlocked : (m.blk.bc.buf i).lock ≠ some p)
      (step : m.after (brelsePut p i m.blk) (fun _ s => { m with blk := s }) = some m') :
      Acted m (.put p i) m'

theorem act_cases {a : Action} (hs : m.act a = some m') : Acted m a m' := by
  cases a with
  | crash =>
    cases hs
    exact .crash
  | thread =>
    simp only [Machine.act] at hs
    cases ht : m.thread with
    | idle => simp [ht] at hs
    | recovering rest =>
      simp only [ht] at hs
      refine .thread (p := initPid) (by rw [ht]; rfl) (fun _ => rfl) (fun r s => ?_) hs
      simp [Machine.mode, ht]
    | committing q rest =>
      simp only [ht] at hs
      refine .thread (p := q) (by rw [ht]; rfl) (fun _ => rfl) (fun r s => ?_) hs
      simp [Machine.mode, ht]
  | beginOp p =>
    simp only [Machine.act] at hs
    split at hs
    · cases hs
    rename_i hg
    simp only [not_or, Bool.not_eq_true, Option.isSome_eq_false_iff, Option.isNone_iff_eq_none] at hg
    cases after_some hs with
    | inl hok =>
      obtain ⟨_, t, ht, rfl⟩ := hok
      exact .beginOp hg.1 hg.2 ht
    | inr hfail =>
      obtain ⟨e, he, _⟩ := hfail
      unfold beginOpTry at he
      split at he
      · cases he
      · split at he <;> cases he
  | endOp p =>
    simp only [Machine.act] at hs
    split at hs
    · cases hs
    rename_i hg
    simp only [not_or] at hg
    exact .endOp hg.2.1 hg.2.2 hs
  | bget p n =>
    simp only [Machine.act] at hs
    split at hs
    · cases hs
    rename_i hb
    exact .bget (by simpa using hb) hs
  | acquire p i =>
    simp only [Machine.act] at hs
    split at hs
    · cases hs
    rename_i hg
    simp only [not_or, Bool.not_eq_true, Classical.not_not] at hg
    exact .acquire hg.1 hg.2 hs
  | fill p i =>
    simp only [Machine.act] at hs
    split at hs
    · cases hs
    rename_i hg
    simp only [not_or, Bool.not_eq_true, ne_eq, Classical.not_not] at hg
    exact .fill hg.1 hg.2 hs
  | modify p i d =>
    simp only [Machine.act] at hs
    split at hs
    · cases hs
    rename_i hg
    simp only [not_or, Bool.not_eq_true, ne_eq, Classical.not_not] at hg
    obtain ⟨_, hl, _, ho, _⟩ := hg
    obtain ⟨op, hop⟩ := Option.ne_none_iff_exists'.mp ho
    cases hs
    exact .modify hl hop
  | logWrite p i =>
    simp only [Machine.act] at hs
    split at hs
    · cases hs
    rename_i hg
    simp only [not_or, Bool.not_eq_true, ne_eq, Classical.not_not, Bool.not_eq_false] at hg
    obtain ⟨_, hl, hv, hin⟩ := hg
    split at hs
    · cases hs
    rename_i op ho
    exact .logWrite hl hv hin ho hs
  | abandon p i =>
    simp only [Machine.act] at hs
    split at hs
    · cases hs
    rename_i hg
    simp only [not_or, Bool.not_eq_true, ne_eq, Classical.not_not] at hg
    obtain ⟨_, hl, hi, hin⟩ := hg
    cases hs
    exact .abandon hl hi hin
  | release p i =>
    simp only [Machine.act] at hs
    split at hs
    · cases hs
    rename_i hg
    simp only [not_or, Bool.not_eq_true, ne_eq, Classical.not_not] at hg
    exact .release hg.1 hg.2.1 hg.2.2 hs
  | put p i =>
    simp only [Machine.act] at hs
    split at hs
    · cases hs
    rename_i hg
    simp only [not_or, Bool.not_eq_true, Classical.not_not] at hg
    exact .put hg.1 hg.2.1 hg.2.2 hs

/-- A reader of the cache moves while the log's thread, if any, is another process. -/
theorem Inv.reader (h : Inv m) (hb : m.busy p = false) {t : Blk}
    (hc : Coherent { m with blk := t })
    (hcore : ({ m with blk := t } : Machine).core = m.core)
    (ha : ∀ q, q ≠ p → Apart q m.blk t) : Inv { m with blk := t } := by
  refine ⟨hc, ?_, h.panics⟩
  intro hn q rest hr
  obtain ⟨hact, hsafe⟩ := h.thread hn q rest hr
  refine ⟨hact, ?_⟩
  have hne : q ≠ p := by
    unfold Machine.busy at hb
    change m.thread.running = _ at hr
    cases ht : m.thread with
    | idle => simp [ht, Thread.running] at hr
    | recovering rest => simp [ht] at hb
    | committing r rest =>
      simp only [ht, Thread.running, Option.some.injEq, Prod.mk.injEq] at hr
      simp only [ht, beq_eq_false_iff_ne] at hb
      exact fun he => hb (he.symm.trans hr.1.symm)
  obtain ⟨β, g, k, rfl⟩ := hact
  exact Surroundings.Safe.others _ rely_trans (fun _ _ hx => hx.2.2) hsafe ⟨hcore, ha q hne, hc⟩

/-- An action that nobody can take while a thread is inside the log. -/
theorem Inv.idle (hm : m'.mode = none) (hc : Coherent m') (hp : m'.panicked = none) : Inv m' := by
  refine ⟨hc, ?_, by simp [hp]⟩
  intro _ q rest hr
  cases ht : m'.thread with
  | idle => simp [ht, Thread.running] at hr
  | recovering rest => simp [Machine.mode, ht] at hm
  | committing r rest => simp [Machine.mode, ht] at hm

/-- A move of the log's thread. -/
theorem Inv.resume (h : Inv m) (hn : m.panicked = none) {rest : BlkM Unit}
    {busy : BlkM Unit → Thread} (hr : m.thread.running = some (p, rest))
    (hb : ∀ r, (busy r).running = some (p, r))
    (hmode : ∀ r s, ({ m.record s with thread := busy r } : Machine).mode = m.mode)
    (hs : m.resume rest busy = some m') : Inv m' := by
  obtain ⟨⟨β, g, k, rfl⟩, hsafe⟩ := h.thread hn p rest hr
  have hacc := hsafe.2 m ⟨rfl, Apart.refl p m.blk, h.coherent⟩
  have hpan : ∀ s, (m.record s).panicked = none := by
    intro s
    unfold Machine.record
    split
    · exact hn
    · exact hn
  have hthread : ∀ s, (m.record s).mode = m.mode := by
    intro s
    unfold Machine.record
    split <;> rfl
  cases after_some hs with
  | inr hfail =>
    obtain ⟨e, he, rfl⟩ := hfail
    change (among p).Accepts m _ (g m.blk) at hacc
    rw [he] at hacc
    exact h.panic (.inl hacc)
  | inl hok =>
    obtain ⟨b, s, he, rfl⟩ := hok
    change (among p).Accepts m _ (g m.blk) at hacc
    rw [he] at hacc
    change (among p).Safe (k b) _ (m.record s) at hacc
    cases hk : k b with
    | ret u =>
      rw [hk] at hacc
      exact Inv.idle rfl hacc (hpan s)
    | act g' k' =>
      rw [hk] at hacc
      have hcore : ({ m.record s with thread := busy (.act g' k') } : Machine).core =
          (m.record s).core := by
        unfold Machine.core
        simp only [hmode, hthread]
      have hcoh : Coherent { m.record s with thread := busy (.act g' k') } :=
        Coherent.of_same hacc.1 rfl hcore rfl
      refine ⟨hcoh, ?_, fun e he => by cases (hpan s).symm.trans he⟩
      intro _ q r hq
      have hq := (hb (.act g' k')).symm.trans hq
      simp only [Option.some.injEq, Prod.mk.injEq] at hq
      obtain ⟨rfl, rfl⟩ := hq
      exact ⟨⟨_, g', k', rfl⟩, Surroundings.Safe.others _ rely_trans (fun _ _ hx => hx.2.2) hacc
        ⟨hcore, Apart.refl _ _, hcoh⟩⟩

/-- Power on, with the history of earlier runs. -/
theorem boot_inv (nextOp epoch : Nat) (logs : List LogRec) (commits : List (Nat × List Nat))
    (lost : List Nat) {start size : Nat} {disk committed : Disk}
    (hr : Recoverable ⟨start, size, ROOTDEV, 0, false, []⟩ disk committed)
    (hpast : ∀ r ∈ logs, r.epoch < epoch ∧ r.op < nextOp)
    (htog : ∀ r ∈ logs, ∀ r' ∈ logs, r.op = r'.op → r.epoch = r'.epoch)
    (hcom : ∀ x ∈ commits, x.1 < epoch ∧ ∀ r ∈ logs, r.epoch = x.1 → r.block ∈ x.2)
    (honce : (commits.map Prod.fst).Nodup)
    (hclosed : ∀ e < epoch, e ∈ commits.map Prod.fst ∨ e ∈ lost)
    (hm : m = { Machine.boot start size disk committed with
      nextOp := nextOp, epoch := epoch, logs := logs, commits := commits, lost := lost }) : Inv m := by
  subst hm
  have hsize : 0 < size := Nat.lt_of_le_of_lt (Nat.zero_le _) hr.room.1
  have htraced : Traced (Machine.core { Machine.boot start size disk committed with
      nextOp := nextOp, epoch := epoch, logs := logs, commits := commits, lost := lost }) := by
    refine ⟨fun r hr => ⟨Nat.le_of_lt (hpast r hr).1, (hpast r hr).2⟩, ?_, ?_, ?_, htog, hcom, honce, hclosed⟩
    · intro r hr he
      exact absurd he (Nat.ne_of_lt (hpast r hr).1)
    · intro n hn
      cases hn
    · intro x hx
      cases hx
  have hcoh : Coherent { Machine.boot start size disk committed with
      nextOp := nextOp, epoch := epoch, logs := logs, commits := commits, lost := lost } := by
    refine ⟨binit_cache, ⟨⟨rfl, rfl, rfl⟩, List.nodup_nil, ?_, ⟨hsize, Nat.zero_le _⟩, ⟨0, rfl, fun _ => rfl⟩,
      .inr (.inl rfl), fun _ _ _ => rfl, hr, rfl, List.nodup_nil, ?_, fun _ => rfl, ?_, htraced, fun _ _ => rfl,
      fun _ hn => by cases hn⟩,
      ?_, ?_, ?_, ?_⟩
    · intro n hn
      cases hn
    · constructor
      · intro hx
        cases hx
      · intro hx
        obtain ⟨q, hq⟩ := hx
        cases hq
    · intro hx
      cases hx
    · intro i hd
      cases hd
    · intro i hi
      cases hi
    · intro i hv
      cases hv
    · intro i hi
      cases hi
  refine ⟨hcoh, ?_, fun e he => by cases he⟩
  intro _ q rest hq
  cases hq
  have hat : At initPid _ [] [] _ := ⟨hcoh, rfl, fun _ => rfl, by simp, by simp,
    (fun _ hl => by cases hl), List.nodup_nil⟩
  refine ⟨⟨_, _, _, rfl⟩, recoverFromLog_safe ?_ ?_ ?_ ?_ hat⟩
  · rfl
  · rfl
  · rfl
  · intro _ _
    rfl

theorem Inv.crash (h : Inv m) : Inv m.crash := by
  have ht := h.coherent.core.traced
  have hr := h.coherent.core.recov
  obtain ⟨_, hstart, hsize⟩ := h.coherent.core.sb
  have hr : Recoverable ⟨m.start, m.size, ROOTDEV, 0, false, []⟩ m.blk.disk m.committed := by
    change m.blk.log.start = m.start at hstart
    change m.blk.log.size = m.size at hsize
    rw [← hstart, ← hsize]
    exact ⟨hr.nodup, hr.out, hr.room, hr.rest, hr.copy⟩
  refine boot_inv m.nextOp (m.epoch + 1) m.logs m.commits (m.epoch :: m.lost) hr ?_ ht.together ?_ ht.once ?_ rfl
  · intro r hr
    exact ⟨Nat.lt_succ_of_le (ht.past r hr).1, (ht.past r hr).2⟩
  · intro x hx
    exact ⟨Nat.lt_succ_of_lt (ht.commits x hx).1, (ht.commits x hx).2⟩
  · intro e he
    cases Nat.lt_succ_iff_lt_or_eq.mp he with
    | inl he =>
      cases ht.closed e he with
      | inl hc => exact .inl hc
      | inr hc => exact .inr (List.mem_cons_of_mem _ hc)
    | inr he => exact .inr (he ▸ List.mem_cons_self)

theorem Inv.bget (h : Inv m) (hb : m.busy p = false) {n : UInt32}
    (hs : m.after (bgetScan p m.blk.log.dev n.toNat m.blk) (fun _ s => { m with blk := s }) =
      some m') : Inv m' := by
  rw [show m.blk.log.dev = ROOTDEV from h.coherent.core.sb.1] at hs
  cases after_some hs with
  | inl hok =>
    obtain ⟨i, t, ht, rfl⟩ := hok
    have hg := bgetScan_got ht
    exact h.reader hb (bget_coherent h.coherent hg (fun _ => n.toNat_lt)) (bget_core h.coherent hg)
      (fun q hq => bget_apart h.coherent hg hq)
  | inr hfail =>
    obtain ⟨e, he, rfl⟩ := hfail
    exact h.panic (.inl (bgetScan_fail he).1)

theorem Inv.acquire (h : Inv m) (hb : m.busy p = false) {i : BufId} (hu : (p, i) ∈ m.blk.bc.users)
    (hs : m.after (acquiresleep p i m.blk) (fun _ s => { m with blk := s }) = some m') : Inv m' := by
  unfold acquiresleep at hs
  cases hl : (m.blk.bc.buf i).lock with
  | some q => simp [hl, Machine.after] at hs
  | none =>
    simp only [hl, Machine.after, Option.some.injEq] at hs
    subst hs
    exact h.reader hb (acquire_coherent h.coherent hu hl) (set_core m i _ (fun _ => ⟨rfl, rfl⟩))
      (fun q hq => acquire_apart hl hq)

theorem Inv.fill (h : Inv m) (hb : m.busy p = false) {i : BufId}
    (hl : (m.blk.bc.buf i).lock = some p)
    (hs : m.after (breadFill i m.blk) (fun _ s => { m with blk := s }) = some m') : Inv m' := by
  unfold breadFill at hs
  cases hv : (m.blk.bc.buf i).valid with
  | true =>
    simp only [hv, ↓reduceIte, Machine.after, Option.some.injEq] at hs
    subst hs
    exact h
  | false =>
    simp only [hv, Bool.false_eq_true, ↓reduceIte, Machine.after, Option.some.injEq] at hs
    subst hs
    exact h.reader hb (fill_coherent h.coherent hl hv) (set_core m i _ (fun _ => ⟨rfl, rfl⟩))
      (fun q hq => fill_apart hl hq)

theorem Inv.release (h : Inv m) (hb : m.busy p = false) {i : BufId}
    (hl : (m.blk.bc.buf i).lock = some p) (hd : i ∉ m.dirty)
    (hs : m.after (releasesleep p i m.blk) (fun _ s => { m with blk := s }) = some m') : Inv m' := by
  unfold releasesleep at hs
  simp only [if_pos hl, Machine.after, Option.some.injEq] at hs
  subst hs
  refine h.reader hb (release_coherent h.coherent hd ?_) (set_core m i _ (fun _ => ⟨rfl, rfl⟩))
    (fun q hq => release_apart hl hq)
  intro hv hdev ht
  refine h.coherent.data i hv hdev hd ?_ ht
  -- The log's thread is somebody else, so the buffer is not the thread's.
  intro hw
  obtain ⟨r, q, hq, hlq, _⟩ := hw
  cases hl.symm.trans hlq
  change m.mode = some (r, p) at hq
  unfold Machine.busy at hb
  unfold Machine.mode at hq
  cases ht : m.thread with
  | idle => simp [ht] at hq
  | recovering rest => simp [ht] at hb
  | committing r rest =>
    simp only [ht, Option.some.injEq, Prod.mk.injEq] at hq
    simp [ht, hq.2] at hb

theorem Inv.put (h : Inv m) (hb : m.busy p = false) {i : BufId} (hu : (p, i) ∈ m.blk.bc.users)
    (hl : (m.blk.bc.buf i).lock ≠ some p)
    (hs : m.after (brelsePut p i m.blk) (fun _ s => { m with blk := s }) = some m') : Inv m' := by
  cases after_some hs with
  | inl hok =>
    obtain ⟨_, t, ht, rfl⟩ := hok
    exact h.reader hb (put_coherent h.coherent hu hl ht) (put_core ht) (fun q hq => put_apart ht hq)
  | inr hfail =>
    obtain ⟨e, he, _⟩ := hfail
    simp [brelsePut] at he

theorem Inv.endOp (h : Inv m) (hn : m.panicked = none) (ho : m.opOf p ≠ none)
    (hu : ¬ ∃ x ∈ m.blk.bc.users, x.1 = p)
    (hs : m.after (endOpEnter m.blk) (fun doCommit s =>
      { m with
        blk := s
        inOp := m.inOp.filter (fun x => x.1 != p)
        thread := if doCommit then .committing p (endOpCommit p) else m.thread }) = some m') :
    Inv m' := by
  have hm := h.coherent.idle_of_op ho
  cases after_some hs with
  | inl hok =>
    obtain ⟨doCommit, t, ht, rfl⟩ := hok
    cases doCommit with
    | false => exact Inv.idle hm (endOp_stays h.coherent hm ho hu ht) hn
    | true =>
      obtain ⟨hat, hmode, hhead⟩ := endOp_commits h.coherent hm ho hu ht (endOpCommit p) rfl
      refine ⟨hat.coherent, ?_, fun e he => by cases hn.symm.trans he⟩
      intro _ q rest hq
      cases hq
      exact ⟨⟨_, _, _, rfl⟩, endOpCommit_safe hmode hhead hat⟩
  | inr hfail =>
    -- log.committing is clear while an operation runs.
    obtain ⟨e, he, _⟩ := hfail
    unfold endOpEnter at he
    dsimp only at he
    split at he
    · rename_i hc
      obtain ⟨q, hq⟩ := h.coherent.core.quiet.mp hc
      cases hm.symm.trans hq
    · split at he <;> cases he

theorem Inv.logWrite (h : Inv m) (hn : m.panicked = none) {i : BufId} {op : Nat}
    (hl : (m.blk.bc.buf i).lock = some p) (hv : (m.blk.bc.buf i).valid = true)
    (hin : ¬ m.blk.log.InLog (m.blk.bc.buf i).blockno) (ho : m.opOf p = some op)
    (hs : m.after (Xv6.logWrite i m.blk) (fun _ s =>
      { m with
        blk := s
        dirty := m.dirty.filter (fun j => j != i)
        logical := fun n => if n = (m.blk.bc.buf i).blockno then (m.blk.bc.buf i).data
          else m.logical n
        torn := m.torn.filter (fun n => n != (m.blk.bc.buf i).blockno)
        logs := ⟨op, m.epoch, (m.blk.bc.buf i).blockno⟩ :: m.logs }) = some m') : Inv m' := by
  have hm : m.mode = none := h.coherent.idle_of_op (p := p) (by rw [ho]; simp)
  cases after_some hs with
  | inl hok =>
    obtain ⟨_, t, ht, rfl⟩ := hok
    exact Inv.idle hm (logWrite_coherent h.coherent hl hv hin ho (logWrite_logged ht) rfl) hn
  | inr hfail =>
    obtain ⟨e, he, rfl⟩ := hfail
    refine h.panic (.inr ?_)
    unfold Xv6.logWrite at he
    dsimp only at he
    split at he
    · cases he
      rfl
    split at he
    · rename_i hout
      have hcount : m.blk.log.outstanding = m.inOp.length := h.coherent.core.count
      have hpos := List.length_pos_of_mem (opOf_some ho)
      omega
    · split at he <;> cases he

/-- Every action keeps the invariant. -/
theorem Inv.act (h : Inv m) (hp : m.panicked = none) {a : Action} (hs : m.act a = some m') :
    Inv m' := by
  cases act_cases hs with
  | crash => exact h.crash
  | thread hr hb hmode hs => exact h.resume hp hr hb hmode hs
  | beginOp hb ho ht =>
    obtain ⟨hm, hc⟩ := beginOp_coherent h.coherent hb ho ht
    exact Inv.idle hm hc hp
  | endOp ho hu hs => exact h.endOp hp ho hu hs
  | bget hb hs => exact h.bget hb hs
  | acquire hb hu hs => exact h.acquire hb hu hs
  | fill hb hl hs => exact h.fill hb hl hs
  | modify hl ho =>
    exact Inv.idle (h.coherent.idle_of_op (by rw [ho]; simp)) (modify_coherent h.coherent hl ho _) hp
  | logWrite hl hv hin ho hs => exact h.logWrite hp hl hv hin ho hs
  | abandon hl hi hin =>
    obtain ⟨hm, hc⟩ := abandon_coherent h.coherent hl hi hin rfl
    exact Inv.idle hm hc hp
  | release hb hl hd hs => exact h.release hb hl hd hs
  | put hb hu hl hs => exact h.put hb hu hl hs

theorem Inv.step (h : Inv m) {a : Action} (hs : m.step a = some m') : Inv m' := by
  unfold Machine.step at hs
  split at hs
  · rename_i hp
    exact h.act hp hs
  · cases hs
    exact h.crash
  · cases hs

/-- A disk whose log is empty, as mkfs leaves it. -/
theorem fresh_inv {start size : Nat} {d : Disk} (hs : 0 < size) (hd : decodeHead (d start) = []) :
    Inv (Machine.boot start size d d) :=
  boot_inv 0 0 [] [] [] (.of_empty hs hd (fun _ _ => rfl)) (by simp) (by simp) (by simp) (by simp) (by simp) rfl

theorem reaches_inv {start size : Nat} {d : Disk} (hs : 0 < size) (hd : decodeHead (d start) = [])
    (h : Reaches Machine.step (Machine.boot start size d d) m) : Inv m :=
  h.invariant (fresh_inv hs hd) (fun _ _ _ hi hstep => hi.step hstep)

end Xv6
