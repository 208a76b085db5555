import Xv6.LogMachine
import Xv6.Proofs.Cache

namespace Xv6

/-- What the log's own thread can count on: readers of the cache never change it.
The mode is the thread's process, and whether it recovers or commits. -/
structure Core where
  start : Nat
  size : Nat
  disk : Disk
  log : Log
  pins : List BufId
  pinned : List Nat
  mode : Option (Bool × Pid)
  inOp : List (Pid × Nat)
  nextOp : Nat
  logical : Disk
  committed : Disk
  torn : List Nat
  epoch : Nat
  logs : List LogRec
  commits : List (Nat × List Nat)
  lost : List Nat

namespace Machine

def mode (m : Machine) : Option (Bool × Pid) :=
  match m.thread with
  | .idle => none
  | .recovering _ => some (true, initPid)
  | .committing p _ => some (false, p)

def core (m : Machine) : Core where
  start := m.start
  size := m.size
  disk := m.blk.disk
  log := m.blk.log
  pins := m.blk.bc.pins
  pinned := m.blk.bc.pins.map (fun i => (m.blk.bc.buf i).blockno)
  mode := m.mode
  inOp := m.inOp
  nextOp := m.nextOp
  logical := m.logical
  committed := m.committed
  torn := m.torn
  epoch := m.epoch
  logs := m.logs
  commits := m.commits
  lost := m.lost

end Machine

namespace Core
variable {p : Pid}

def header (c : Core) : List Nat := decodeHead (c.disk c.log.start)

/-- Where the current content of an uncached block outside the log is. During
recovery nothing is newer than the disk. -/
def view (c : Core) : Disk :=
  match c.mode with
  | some (true, _) => c.disk
  | _ => c.logical

def content (c : Core) (n : Nat) : Block := if c.log.InLog n then c.disk n else c.view n

/-- The log's thread may be changing the buffer: it has it locked, and it recovers or
the block is one of the log's own. -/
def Writes (c : Core) (b : Buf) : Prop :=
  ∃ r p, c.mode = some (r, p) ∧ b.lock = some p ∧ (r = true ∨ c.log.InLog b.blockno)

theorem Writes.of_same {c : Core} {b b' : Buf} (h : c.Writes b) (hl : b'.lock = b.lock)
    (hn : b'.blockno = b.blockno) : c.Writes b' := by
  obtain ⟨r, p, hm, hb, hr⟩ := h
  exact ⟨r, p, hm, hl.trans hb, hn ▸ hr⟩

theorem not_writes {c : Core} {b : Buf} (h : b.lock = none) : ¬ c.Writes b := by
  intro hw
  obtain ⟨_, _, _, hb, _⟩ := hw
  cases h.symm.trans hb

theorem view_committing (c : Core) (hm : c.mode = some (false, p)) : c.view = c.logical := by
  unfold Core.view
  rw [hm]

theorem view_recovering (c : Core) (hm : c.mode = some (true, p)) : c.view = c.disk := by
  unfold Core.view
  rw [hm]

theorem content_inLog (c : Core) {n : Nat} (h : c.log.InLog n) : c.content n = c.disk n :=
  if_pos h

theorem content_recovering (c : Core) (hm : c.mode = some (true, p)) (n : Nat) :
    c.content n = c.disk n := by
  unfold Core.content
  rw [c.view_recovering hm, ite_self]

theorem content_home (c : Core) (hm : c.mode = some (false, p)) {n : Nat}
    (h : ¬ c.log.InLog n) : c.content n = c.logical n := by
  unfold Core.content
  rw [if_neg h, c.view_committing hm]

/-- Everything logged is committed. -/
def Settled (c : Core) : Prop := ∀ n, ¬ c.log.InLog n → c.logical n = c.committed n

end Core

/-- A disk from which recover_from_log() produces `committed`. -/
structure Recoverable (l : Log) (disk committed : Disk) : Prop where
  nodup : (decodeHead (disk l.start)).Nodup
  out : ∀ n ∈ decodeHead (disk l.start), ¬ l.InLog n
  room : (decodeHead (disk l.start)).length < l.size ∧
    (decodeHead (disk l.start)).length ≤ LOGSIZE
  rest : ∀ n, ¬ l.InLog n → n ∉ decodeHead (disk l.start) → disk n = committed n
  copy : ∀ i n, (decodeHead (disk l.start))[i]? = some n → committed n = disk (l.start + i + 1)

/-- The history of transactions: what was logged since the last commit is listed in
log.lh, what was logged before was listed by the commit of its transaction. -/
structure Traced (c : Core) : Prop where
  past : ∀ r ∈ c.logs, r.epoch ≤ c.epoch ∧ r.op < c.nextOp
  now : ∀ r ∈ c.logs, r.epoch = c.epoch → c.header = [] ∧ r.block ∈ c.log.lh
  listed : ∀ n ∈ c.log.lh, c.header = [] → ∃ r ∈ c.logs, r.epoch = c.epoch ∧ r.block = n
  running : ∀ x ∈ c.inOp, x.2 < c.nextOp ∧ ∀ r ∈ c.logs, r.op = x.2 → r.epoch = c.epoch
  together : ∀ r ∈ c.logs, ∀ r' ∈ c.logs, r.op = r'.op → r.epoch = r'.epoch
  commits : ∀ x ∈ c.commits, x.1 < c.epoch ∧ ∀ r ∈ c.logs, r.epoch = x.1 → r.block ∈ x.2
  once : (c.commits.map Prod.fst).Nodup
  closed : ∀ e < c.epoch, e ∈ c.commits.map Prod.fst ∨ e ∈ c.lost

/-- The part of the invariant that no reader of the cache can touch. -/
structure CoreInv (c : Core) : Prop where
  sb : c.log.dev = ROOTDEV ∧ c.log.start = c.start ∧ c.log.size = c.size
  nodup : c.log.lh.Nodup
  out : ∀ n ∈ c.log.lh, ¬ c.log.InLog n ∧ n < 2 ^ 32
  room : c.log.lh.length < c.log.size ∧ c.log.lh.length ≤ LOGSIZE
  pinned : ∃ k, c.pinned = c.log.lh.drop k ∧ (c.header = [] → k = 0)
  head : c.header = [] ∨ c.log.lh = [] ∨ c.header = c.log.lh
  stale : ∀ n, ¬ c.log.InLog n → n ∉ c.pinned → c.disk n = c.view n
  recov : Recoverable c.log c.disk c.committed
  count : c.log.outstanding = c.inOp.length
  ops : (c.inOp.map Prod.fst).Nodup
  quiet : c.log.committing = true ↔ ∃ p, c.mode = some (false, p)
  alone : c.mode ≠ none → c.inOp = []
  idle : c.mode = none → c.header = [] ∧ (c.inOp = [] → c.log.lh = [])
  traced : Traced c
  unpinned : ∀ p, c.mode = some (true, p) → c.pinned = []
  torn : ∀ n ∈ c.torn, n ∉ c.log.lh ∧ n ∉ c.header ∧ ¬ c.log.InLog n ∧ ∀ p, c.mode ≠ some (true, p)

/-- The invariant of the machine while it runs. A buffer's content is current unless
an operation has just changed it, or has changed it and given it up, or the log's thread
holds it. -/
structure Coherent (m : Machine) : Prop where
  cache : CacheInv m.blk.bc
  core : CoreInv m.core
  small : ∀ i, (m.blk.bc.buf i).dev = ROOTDEV → ¬ m.blk.log.InLog (m.blk.bc.buf i).blockno →
    (m.blk.bc.buf i).blockno < 2 ^ 32
  pins : ∀ i ∈ m.blk.bc.pins, (m.blk.bc.buf i).valid = true ∧ (m.blk.bc.buf i).dev = ROOTDEV
  data : ∀ i, (m.blk.bc.buf i).valid = true → (m.blk.bc.buf i).dev = ROOTDEV → i ∉ m.dirty →
    ¬ m.core.Writes (m.blk.bc.buf i) → (m.blk.bc.buf i).blockno ∉ m.torn →
    (m.blk.bc.buf i).data = m.core.content (m.blk.bc.buf i).blockno
  dirty : ∀ i ∈ m.dirty, ∃ p op, (m.blk.bc.buf i).lock = some p ∧ (p, op) ∈ m.inOp

/-- The pinned buffers hold distinct blocks. -/
theorem CoreInv.pinned_nodup {c : Core} (h : CoreInv c) : c.pinned.Nodup := by
  obtain ⟨k, hk, _⟩ := h.pinned
  rw [hk]
  exact h.nodup.sublist (List.drop_sublist k _)

theorem CoreInv.pinned_mem {c : Core} (h : CoreInv c) {n : Nat} (hn : n ∈ c.pinned) :
    n ∈ c.log.lh := by
  obtain ⟨k, hk, _⟩ := h.pinned
  rw [hk] at hn
  exact List.mem_of_mem_drop hn

theorem CoreInv.not_dirty {m : Machine} (h : Coherent m) (hm : m.mode ≠ none) : m.dirty = [] := by
  apply List.eq_nil_iff_forall_not_mem.mpr
  intro i hi
  obtain ⟨p, op, _, hp⟩ := h.dirty i hi
  have hno := h.core.alone hm
  change m.inOp = [] at hno
  simp [hno] at hp

/-- A buffer that is not valid holds no pinned block. -/
theorem Coherent.invalid_unpinned {m : Machine} (h : Coherent m) {i : BufId}
    (hv : (m.blk.bc.buf i).valid = false) (hd : (m.blk.bc.buf i).dev = ROOTDEV) :
    (m.blk.bc.buf i).blockno ∉ m.core.pinned := by
  intro hn
  obtain ⟨j, hj, he⟩ := List.mem_map.mp hn
  obtain ⟨hjv, hjd⟩ := h.pins j hj
  have hij := h.cache.one j i (by rw [hjd]; decide) (hjd.trans hd.symm) he
  rw [hij, hv] at hjv
  cases hjv

/-- Reading a buffer from disk gives the current content of its block. -/
theorem Coherent.disk_content {m : Machine} (h : Coherent m) {i : BufId}
    (hv : (m.blk.bc.buf i).valid = false) (hd : (m.blk.bc.buf i).dev = ROOTDEV) :
    m.blk.disk (m.blk.bc.buf i).blockno = m.core.content (m.blk.bc.buf i).blockno := by
  unfold Core.content
  split
  · rfl
  · rename_i hn
    exact h.core.stale _ hn (h.invalid_unpinned hv hd)

end Xv6
