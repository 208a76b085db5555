import Xv6.Proofs.LogSafety

namespace Xv6
variable {start size : Nat} {d : Disk} {m m' : Machine}

/-- Once recover_from_log() is over, every block outside the log is on disk as it was
logged when the last commit's header reached the disk. Crashes may have happened
anywhere before, also inside earlier recoveries. -/
theorem recovery_restores_last_commit (hs : 0 < size) (hd : decodeHead (d start) = [])
    (hr : Reaches Machine.step (Machine.boot start size d d) m) {rest : BlkM Unit}
    (ht : m.thread = .recovering rest) (hstep : m.step .thread = some m')
    (hi : m'.thread = .idle) :
    m'.committed = m.committed ∧ ∀ n, ¬ m'.blk.log.InLog n → m'.blk.disk n = m.committed n := by
  have hinv' : Inv m' := (reaches_inv hs hd hr).step hstep
  have hmode : m'.mode = none := by simp [Machine.mode, hi]
  obtain ⟨hempty, _⟩ := hinv'.coherent.core.idle hmode
  have hhome : ∀ n, ¬ m'.blk.log.InLog n → m'.blk.disk n = m'.committed n := by
    intro n hn
    refine hinv'.coherent.core.recov.rest n hn ?_
    rw [show decodeHead _ = [] from hempty]
    simp
  -- The step that ends recovery commits nothing, because the header is empty after it.
  have hsame : m'.committed = m.committed := by
    cases hp : m.panicked with
    | some e => simp [Machine.step, hp] at hstep
    | none =>
      simp only [Machine.step, hp, Machine.act, ht] at hstep
      cases rest with
      | ret u => cases hstep
      | act g k =>
        cases after_some hstep with
        | inr hfail =>
          obtain ⟨e, _, rfl⟩ := hfail
          rfl
        | inl hok =>
          obtain ⟨b, s, _, rfl⟩ := hok
          change (m.record s).committed = m.committed
          change decodeHead ((m.record s).blk.disk (m.record s).blk.log.start) = [] at hempty
          rw [record_blk] at hempty
          unfold Machine.record
          rw [if_neg (fun hx => hx.2 hempty)]
  exact ⟨hsame, fun n hn => hsame ▸ hhome n hn⟩

def emptyDisk : Disk := fun _ => .zero

/-- recover_from_log() on an empty log takes 15 steps. -/
def bootRun : List Action := List.replicate 15 .thread

/-- One operation that fills block 100 with sevens, and `k` steps of its commit. -/
def commitRun (k : Nat) : List Action :=
  bootRun ++ [.beginOp 1, .bget 1 100, .acquire 1 1, .fill 1 1, .modify 1 1 (fun _ => 7),
    .logWrite 1 1, .release 1 1, .put 1 1, .endOp 1] ++ List.replicate k .thread

/-- A crash when the header of the commit is on disk but the block is not home. -/
def crashRun : List Action := commitRun 20 ++ [.crash]

theorem thread_idle_of_mode (h : m.mode = none) : m.thread = .idle := by
  cases ht : m.thread with
  | idle => rfl
  | recovering rest => simp [Machine.mode, ht] at h
  | committing p rest => simp [Machine.mode, ht] at h

theorem thread_recovering_of_mode {p : Pid} (h : m.mode = some (true, p)) :
    ∃ rest, m.thread = .recovering rest := by
  cases ht : m.thread with
  | idle => simp [Machine.mode, ht] at h
  | recovering rest => exact ⟨rest, rfl⟩
  | committing p rest => simp [Machine.mode, ht] at h

set_option maxRecDepth 100000 in
/-- The operation interrupted by the crash is on disk after recovery. -/
theorem recovery_restores_sevens : ∃ m m',
    runAll Machine.step (Machine.boot 2 LOGSIZE emptyDisk emptyDisk)
      (crashRun ++ List.replicate 27 .thread) = some m ∧
    m.step .thread = some m' ∧ m'.thread = .idle ∧ (m'.blk.disk 100).byteAt 0 = 7 := by
  have hrun : (runAll Machine.step (Machine.boot 2 LOGSIZE emptyDisk emptyDisk)
      (crashRun ++ List.replicate 27 .thread)).map (fun m => (m.mode, (m.committed 100).byteAt 0,
        (m.step .thread).map (fun m' => decide (m'.mode = none ∧ ¬ m'.blk.log.InLog 100)))) =
      some (some (true, 1), 7, some true) := by
    decide +kernel
  obtain ⟨m, hm, hrun⟩ := Option.map_eq_some_iff.mp hrun
  simp only [Prod.mk.injEq] at hrun
  obtain ⟨hmode, hseven, hnext⟩ := hrun
  obtain ⟨m', hm', hnext⟩ := Option.map_eq_some_iff.mp hnext
  have hnext := of_decide_eq_true hnext
  obtain ⟨rest, ht⟩ := thread_recovering_of_mode hmode
  have hidle := thread_idle_of_mode hnext.1
  have hhome := (recovery_restores_last_commit (by decide) (by decide +kernel) (.of_run hm) ht hm'
    hidle).2 100 hnext.2
  exact ⟨m, m', hm, hm', hidle, hhome ▸ hseven⟩

/-- Operations are never split between commits, whatever the order of the processes'
steps: nothing starts while a commit runs, a commit starts when nothing is
outstanding, an operation falls into one transaction, and the one commit of a
transaction lists all that its operations logged. -/
theorem group_commit (hs : 0 < size) (hd : decodeHead (d start) = [])
    (hr : Reaches Machine.step (Machine.boot start size d d) m) :
    m.blk.log.outstanding = m.inOp.length ∧
    (m.blk.log.committing = true → ∀ p, m.step (.beginOp p) = none) ∧
    (∀ p rest, m.thread = .committing p rest → m.blk.log.committing = true ∧ m.inOp = []) ∧
    m.panicked ≠ some .logCommitting ∧ m.panicked ≠ some .logWriteOutside ∧
    (∀ r ∈ m.logs, ∀ r' ∈ m.logs, r.op = r'.op → r.epoch = r'.epoch) ∧
    (∀ r ∈ m.logs, ∀ x ∈ m.commits, r.epoch = x.1 → r.block ∈ x.2) ∧
    (m.commits.map Prod.fst).Nodup ∧
    (m.thread = .idle → m.inOp = [] → ∀ r ∈ m.logs,
      (∃ x ∈ m.commits, r.epoch = x.1) ∨ r.epoch ∈ m.lost) := by
  have hinv := reaches_inv hs hd hr
  have hcore := hinv.coherent.core
  refine ⟨hcore.count, ?_, ?_, ?_, ?_, hcore.traced.together, ?_, hcore.traced.once, ?_⟩
  · intro hc p
    cases hp : m.panicked with
    | some e => simp [Machine.step, hp]
    | none =>
      simp only [Machine.step, hp, Machine.act]
      split
      · rfl
      · simp [beginOpTry, hc, Machine.after]
  · intro p rest ht
    have hm : m.core.mode = some (false, p) := by simp [Machine.core, Machine.mode, ht]
    exact ⟨hcore.quiet.mpr ⟨p, hm⟩, hcore.alone (by rw [hm]; simp)⟩
  · intro he
    cases hinv.panics _ he with
    | inl h => cases h
    | inr h => cases h
  · intro he
    cases hinv.panics _ he with
    | inl h => cases h
    | inr h => cases h
  · intro r hr x hx
    exact (hcore.traced.commits x hx).2 r hr
  · intro ht hops r hr
    -- Nothing is pending: log.lh is empty, so the record is not of the open transaction.
    have hlh : m.core.log.lh = [] := (hcore.idle (by simp [Machine.core, Machine.mode, ht])).2 hops
    cases Nat.lt_or_eq_of_le (hcore.traced.past r hr).1 with
    | inl hlt =>
      cases hcore.traced.closed _ hlt with
      | inl hc =>
        obtain ⟨x, hx, he⟩ := List.mem_map.mp hc
        exact .inl ⟨x, hx, he.symm⟩
      | inr hc => exact .inr hc
    | inr he =>
      have hmem := (hcore.traced.now r hr he).2
      simp [hlh] at hmem

set_option maxRecDepth 100000 in
/-- Two operations that overlap are committed together. -/
theorem group_commit_two : ∃ m,
    runAll Machine.step (Machine.boot 2 LOGSIZE emptyDisk emptyDisk)
      (bootRun ++ [.beginOp 1, .beginOp 2, .bget 1 100, .acquire 1 1, .fill 1 1, .logWrite 1 1,
        .release 1 1, .put 1 1, .endOp 1, .bget 2 101, .acquire 2 2, .fill 2 2, .logWrite 2 2,
        .release 2 2, .put 2 2, .endOp 2] ++ List.replicate 40 .thread) = some m ∧
    m.commits.map Prod.snd = [[100, 101]] ∧ m.blk.log.outstanding = m.inOp.length := by
  have hrun : (runAll Machine.step (Machine.boot 2 LOGSIZE emptyDisk emptyDisk)
      (bootRun ++ [.beginOp 1, .beginOp 2, .bget 1 100, .acquire 1 1, .fill 1 1, .logWrite 1 1,
        .release 1 1, .put 1 1, .endOp 1, .bget 2 101, .acquire 2 2, .fill 2 2, .logWrite 2 2,
        .release 2 2, .put 2 2, .endOp 2] ++ List.replicate 40 .thread)).map
        (fun m => m.commits.map Prod.snd) = some [[100, 101]] := by
    decide +kernel
  obtain ⟨m, hm, hrun⟩ := Option.map_eq_some_iff.mp hrun
  exact ⟨m, hm, hrun, (group_commit (by decide) (by decide +kernel) (.of_run hm)).1⟩

end Xv6
