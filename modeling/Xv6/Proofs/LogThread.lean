import Xv6.Lib.Rely
import Xv6.Proofs.Readers

namespace Xv6

/-- The core with block `n` of the disk changed. -/
def Core.put (c : Core) (n : Nat) (d : Block) : Core :=
  { c with disk := fun k => if k = n then d else c.disk k }

/-- The core with its transaction committed. -/
def Core.commit (c : Core) : Core :=
  { c with committed := c.logical, epoch := c.epoch + 1, commits := (c.epoch, c.header) :: c.commits }

/-- What `Machine.record` makes of a block write: one that turns the empty header into a
nonempty one is the commit. -/
def Core.write (c : Core) (n : Nat) (d : Block) : Core :=
  if c.header = [] ∧ (c.put n d).header ≠ [] then (c.put n d).commit else c.put n d

theorem Core.write_log (c : Core) (n : Nat) (d : Block) : (c.write n d).log = c.log := by
  unfold Core.write
  split <;> rfl

theorem Core.write_mode (c : Core) (n : Nat) (d : Block) : (c.write n d).mode = c.mode := by
  unfold Core.write
  split <;> rfl

theorem Core.write_logical (c : Core) (n : Nat) (d : Block) :
    (c.write n d).logical = c.logical := by
  unfold Core.write
  split <;> rfl

theorem Core.write_same (c : Core) (n : Nat) (d : Block) : (c.write n d).disk n = d := by
  unfold Core.write
  split <;> simp [Core.put, Core.commit]

theorem Core.write_content (c : Core) (n : Nat) (d : Block) {k : Nat} (hk : k ≠ n) :
    (c.write n d).content k = c.content k := by
  have hput : (c.put n d).content k = c.content k := by
    unfold Core.content Core.view
    rcases hm : c.mode with _ | ⟨_ | _, _⟩ <;> simp [Core.put, hk, hm]
  unfold Core.write
  split
  · exact hput
  · exact hput

/-- The log's thread, run by process `p` among readers of the cache. It may only stop
for want of a buffer. -/
def among (p : Pid) : Surroundings Panic Blk Machine where
  get m := m.blk
  put m s := m.record s
  inv := Coherent
  rely m m' := m'.core = m.core ∧ Apart p m.blk m'.blk ∧ Coherent m'
  fails e := e = .bgetNoBuffers

/-- The thread is at a point where the core is `c`; it has references to `ws` and
holds exactly the buffers `hs`, with these blocks and contents. -/
structure At (p : Pid) (c : Core) (ws : List (BufId × Nat)) (hs : List (BufId × Nat × Block))
    (m : Machine) : Prop where
  coherent : Coherent m
  core : m.core = c
  refs : ∀ i, m.blk.bc.users.count (p, i) =
    (ws.map Prod.fst).count i + (hs.map Prod.fst).count i
  waits : ∀ x ∈ ws, (m.blk.bc.buf x.1).dev = ROOTDEV ∧ (m.blk.bc.buf x.1).blockno = x.2
  holds : ∀ x ∈ hs, (m.blk.bc.buf x.1).lock = some p ∧ (m.blk.bc.buf x.1).valid = true ∧
    (m.blk.bc.buf x.1).dev = ROOTDEV ∧ (m.blk.bc.buf x.1).blockno = x.2.1 ∧
    (m.blk.bc.buf x.1).data = x.2.2
  locks : ∀ i, (m.blk.bc.buf i).lock = some p → i ∈ hs.map Prod.fst
  nodup : (hs.map Prod.fst).Nodup

/-- Between acquiresleep() and the end of bread(): buffer `i` is locked for block `n`
but may not have been read. -/
structure Locked (p : Pid) (c : Core) (i : BufId) (n : Nat) (hs : List (BufId × Nat × Block))
    (m : Machine) : Prop where
  coherent : Coherent m
  core : m.core = c
  refs : ∀ j, m.blk.bc.users.count (p, j) = ([i].count j) + (hs.map Prod.fst).count j
  this : (m.blk.bc.buf i).lock = some p ∧ (m.blk.bc.buf i).dev = ROOTDEV ∧
    (m.blk.bc.buf i).blockno = n
  fresh : (m.blk.bc.buf i).valid = true → (m.blk.bc.buf i).data = c.content n
  holds : ∀ x ∈ hs, (m.blk.bc.buf x.1).lock = some p ∧ (m.blk.bc.buf x.1).valid = true ∧
    (m.blk.bc.buf x.1).dev = ROOTDEV ∧ (m.blk.bc.buf x.1).blockno = x.2.1 ∧
    (m.blk.bc.buf x.1).data = x.2.2
  locks : ∀ j, (m.blk.bc.buf j).lock = some p → j = i ∨ j ∈ hs.map Prod.fst
  nodup : (i :: hs.map Prod.fst).Nodup

variable {p : Pid} {c : Core} {ws : List (BufId × Nat)} {hs : List (BufId × Nat × Block)}
  {m : Machine}

/-- The thread's action succeeded: the rest runs in the recorded state. -/
theorem among_ok {β : Type} {x : β} {t : Blk} {rest : β → Machine → Prop}
    (h : rest x (m.record t)) : (among p).Accepts m rest (.ok x t) :=
  h

theorem rely_trans (a b c : Machine) (h : (among p).rely a b) (h' : (among p).rely b c) :
    (among p).rely a c :=
  ⟨h'.1.trans h.1, h.2.1.trans h'.2.1, h'.2.2⟩

/-- Others leave alone what the thread has locked. -/
theorem Apart.holds {s t : Blk} (h : Apart p s t) (hc : CacheInv s.bc) {x : BufId × Nat × Block}
    (hx : (s.bc.buf x.1).lock = some p ∧ (s.bc.buf x.1).valid = true ∧
      (s.bc.buf x.1).dev = ROOTDEV ∧ (s.bc.buf x.1).blockno = x.2.1 ∧ (s.bc.buf x.1).data = x.2.2) :
    (t.bc.buf x.1).lock = some p ∧ (t.bc.buf x.1).valid = true ∧
      (t.bc.buf x.1).dev = ROOTDEV ∧ (t.bc.buf x.1).blockno = x.2.1 ∧
      (t.bc.buf x.1).data = x.2.2 := by
  obtain ⟨hl, hv, hd, hn, hdata⟩ := hx
  obtain ⟨hval, hdat⟩ := h.held x.1 hl
  obtain ⟨hdev, hno⟩ := h.ident x.1 (List.count_pos_iff.mpr (hc.held x.1 p hl))
  exact ⟨(h.lock x.1).mpr hl, hval.trans hv, hdev.trans hd, hno.trans hn, hdat.trans hdata⟩

theorem At.stable (p : Pid) (c : Core) (ws : List (BufId × Nat))
    (hs : List (BufId × Nat × Block)) : (among p).Stable (At p c ws hs) := by
  intro m m' hr h
  obtain ⟨hcore, ha, hcoh⟩ := hr
  refine ⟨hcoh, hcore.trans h.core, ?_, ?_, ?_, ?_, h.nodup⟩
  · intro i
    rw [ha.refs]
    exact h.refs i
  · intro x hx
    obtain ⟨hd, hn⟩ := h.waits x hx
    have hpos : 0 < m.blk.bc.users.count (p, x.1) := by
      have : 0 < (ws.map Prod.fst).count x.1 :=
        List.count_pos_iff.mpr (List.mem_map.mpr ⟨x, hx, rfl⟩)
      have := h.refs x.1
      omega
    obtain ⟨hdev, hno⟩ := ha.ident x.1 hpos
    exact ⟨hdev.trans hd, hno.trans hn⟩
  · intro x hx
    exact ha.holds h.coherent.cache (h.holds x hx)
  · intro i hi
    exact h.locks i ((ha.lock i).mp hi)

theorem Locked.stable (p : Pid) (c : Core) (i : BufId) (n : Nat)
    (hs : List (BufId × Nat × Block)) : (among p).Stable (Locked p c i n hs) := by
  intro m m' hr h
  obtain ⟨hcore, ha, hcoh⟩ := hr
  obtain ⟨hl, hd, hn⟩ := h.this
  obtain ⟨hval, hdat⟩ := ha.held i hl
  obtain ⟨hdev, hno⟩ := ha.ident i (List.count_pos_iff.mpr (h.coherent.cache.held i p hl))
  refine ⟨hcoh, hcore.trans h.core, ?_, ⟨(ha.lock i).mpr hl, hdev.trans hd, hno.trans hn⟩, ?_,
    ?_, ?_, h.nodup⟩
  · intro j
    rw [ha.refs]
    exact h.refs j
  · intro hv
    rw [hdat]
    exact h.fresh (hval.symm.trans hv)
  · intro x hx
    exact ha.holds h.coherent.cache (h.holds x hx)
  · intro j hj
    exact h.locks j ((ha.lock j).mp hj)

/-- A move of the thread that leaves the disk alone commits nothing. -/
theorem record_eq {m : Machine} {t : Blk} (hd : t.disk = m.blk.disk)
    (hl : t.log.start = m.blk.log.start) : m.record t = { m with blk := t } := by
  unfold Machine.record
  rw [if_neg]
  rintro ⟨h, h'⟩
  rw [hd, hl] at h'
  exact h' h

theorem record_set (m : Machine) (i : BufId) (f : Buf → Buf) :
    m.record (m.blk.setBuf i f) = { m with blk := m.blk.setBuf i f } :=
  record_eq rfl rfl

theorem At.bget (h : At p c [] hs m) (n : Nat) (hn : ¬ c.log.InLog n → n < 2 ^ 32) :
    (among p).Accepts m (fun i => At p c [(i, n)] hs) (bgetScan p m.blk.log.dev n m.blk) := by
  have hdev : m.blk.log.dev = ROOTDEV := h.coherent.core.sb.1
  rw [hdev]
  cases ho : bgetScan p ROOTDEV n m.blk with
  | wait => trivial
  | fail e => exact (bgetScan_fail ho).1
  | ok i t =>
    have hg := bgetScan_got ho
    have hlog : m.blk.log = c.log := by
      rw [← h.core]
      rfl
    refine among_ok ?_
    rw [record_eq hg.disk (by rw [hg.log])]
    refine ⟨bget_coherent h.coherent hg (by rw [hlog]; exact hn),
      (bget_core h.coherent hg).trans h.core, ?_, ?_, ?_, ?_, h.nodup⟩
    · intro j
      change t.bc.users.count (p, j) = _
      have hj := h.refs j
      rw [hg.users]
      by_cases he : i = j
      · subst j
        simp at hj ⊢
        omega
      · simp [he] at hj ⊢
        omega
    · intro x hx
      simp only [List.mem_singleton] at hx
      subst x
      exact hg.ident
    · intro x hx
      obtain ⟨hl, hv, hd, hno, hdata⟩ := h.holds x hx
      have hk := hg.keeps x.1 (h.coherent.cache.refcnt_pos (h.coherent.cache.held x.1 p hl))
      exact ⟨(hg.lock x.1).trans hl, hk.2.2.1.trans hv, hk.1.trans hd, hk.2.1.trans hno,
        hk.2.2.2.trans hdata⟩
    · intro j hj
      apply h.locks j
      rw [← hg.lock j]
      exact hj

theorem At.acquire {i : BufId} {n : Nat} (h : At p c [(i, n)] hs m) (ht : n ∉ c.torn) :
    (among p).Accepts m (fun _ => Locked p c i n hs) (acquiresleep p i m.blk) := by
  unfold acquiresleep
  cases hl : (m.blk.bc.buf i).lock with
  | some q => trivial
  | none =>
    have hu : (p, i) ∈ m.blk.bc.users := by
      apply List.count_pos_iff.mp
      have := h.refs i
      simp at this
      omega
    have hni : i ∉ hs.map Prod.fst := by
      intro hi
      obtain ⟨x, hx, rfl⟩ := List.mem_map.mp hi
      have := (h.holds x hx).1
      rw [hl] at this
      cases this
    obtain ⟨hdev, hno⟩ : (m.blk.bc.buf i).dev = ROOTDEV ∧ (m.blk.bc.buf i).blockno = n :=
      h.waits (i, n) (by simp)
    refine among_ok ?_
    rw [record_set]
    refine ⟨acquire_coherent h.coherent hu hl,
      (set_core m i _ (by intro _; exact ⟨rfl, rfl⟩)).trans h.core, ?_, ?_, ?_, ?_, ?_, ?_⟩
    · simpa [Blk.setBuf] using h.refs
    · exact ⟨by simp [Blk.setBuf], by simpa [Blk.setBuf] using hdev, by simpa [Blk.setBuf] using hno⟩
    · intro hv
      simp only [Blk.setBuf, Bcache.set_same] at hv ⊢
      rw [← h.core, ← hno] at ht ⊢
      refine h.coherent.data i hv hdev ?_ (Core.not_writes hl) ht
      intro hi
      obtain ⟨q, op, hq, _⟩ := h.coherent.dirty i hi
      rw [hl] at hq
      cases hq
    · intro x hx
      have hxi : x.1 ≠ i := fun he => hni (List.mem_map.mpr ⟨x, hx, he⟩)
      simpa [Blk.setBuf, Bcache.set_other _ _ _ hxi] using h.holds x hx
    · intro j hj
      by_cases he : j = i
      · exact .inl he
      · exact .inr (h.locks j (by simpa [Blk.setBuf, Bcache.set_other _ _ _ he] using hj))
    · exact List.nodup_cons.mpr ⟨hni, h.nodup⟩

theorem Locked.fill {i : BufId} {n : Nat} (h : Locked p c i n hs m) :
    (among p).Accepts m (fun _ => At p c [] ((i, n, c.content n) :: hs)) (breadFill i m.blk) := by
  obtain ⟨hl, hdev, hno⟩ := h.this
  have hni := (List.nodup_cons.mp h.nodup).1
  have hrefs : ∀ j, m.blk.bc.users.count (p, j) = ((i, n, c.content n) :: hs |>.map Prod.fst).count j := by
    intro j
    rw [h.refs j, List.map_cons, List.count_cons, List.count_cons]
    simp
    omega
  have hlocks : ∀ j, (m.blk.bc.buf j).lock = some p →
      j ∈ ((i, n, c.content n) :: hs).map Prod.fst := by
    intro j hj
    simpa using h.locks j hj
  unfold breadFill
  by_cases hv : (m.blk.bc.buf i).valid = true
  · rw [if_pos hv]
    refine among_ok ?_
    rw [record_eq rfl rfl]
    refine ⟨h.coherent, h.core, by simpa using hrefs, by simp, ?_, hlocks, h.nodup⟩
    intro x hx
    rcases List.mem_cons.mp hx with rfl | hx
    · exact ⟨hl, hv, hdev, hno, h.fresh hv⟩
    · exact h.holds x hx
  · rw [if_neg hv]
    refine among_ok ?_
    rw [record_set]
    have hvf : (m.blk.bc.buf i).valid = false := by simpa using hv
    refine ⟨fill_coherent h.coherent hl hvf,
      (set_core m i _ (by intro _; exact ⟨rfl, rfl⟩)).trans h.core, ?_, by simp, ?_, ?_, h.nodup⟩
    · simpa [Blk.setBuf] using hrefs
    · intro x hx
      rcases List.mem_cons.mp hx with rfl | hx
      · have hdata := h.coherent.disk_content hvf hdev
        rw [h.core, hno] at hdata
        simp [Blk.setBuf, hl, hdev, hno, hdata]
      · have hxi : x.1 ≠ i := fun he => hni (List.mem_map.mpr ⟨x, hx, he⟩)
        simpa [Blk.setBuf, Bcache.set_other _ _ _ hxi] using h.holds x hx
    · intro j hj
      apply hlocks j
      by_cases he : j = i
      · rw [he]
        exact hl
      · simpa [Blk.setBuf, Bcache.set_other _ _ _ he] using hj

/-- bread() gives the thread the current content of the block. -/
theorem At.breadOf (f : Log → Nat) (h : At p c [] hs m)
    (hn : c.log.InLog (f c.log) ∨ f c.log ∈ c.log.lh) :
    (among p).Safe (breadOf p f)
      (fun i => At p c [] ((i, f c.log, c.content (f c.log)) :: hs)) m := by
  have hinv : CoreInv c := h.core ▸ h.coherent.core
  have hsmall : ¬ c.log.InLog (f c.log) → f c.log < 2 ^ 32 :=
    fun hx => (hinv.out _ (hn.resolve_left hx)).2
  have htorn : f c.log ∉ c.torn := by
    intro ht
    obtain ⟨hlh, _, hin, _⟩ := hinv.torn _ ht
    exact hn.elim hin hlh
  apply Surroundings.Safe.bind
  refine Surroundings.Safe.step _ (At.stable p c [] hs) (fun _ h => h.coherent) h ?_
  intro m h
  have hf : f m.blk.log = f c.log := by
    rw [← h.core]
    rfl
  change (among p).Accepts m _ (bgetScan p m.blk.log.dev (f m.blk.log) m.blk)
  rw [hf]
  refine (h.bget (f c.log) hsmall).mono _ ?_
  intro i m h
  apply Surroundings.Safe.bind
  refine Surroundings.Safe.step _ (At.stable p c _ hs) (fun _ h => h.coherent) h ?_
  intro m h
  refine (h.acquire htorn).mono _ ?_
  intro _ m h
  apply Surroundings.Safe.bind
  refine Surroundings.Safe.step _ (Locked.stable p c i _ hs) (fun _ h => h.coherent) h ?_
  intro m h
  exact h.fill

theorem At.swap {x y : BufId × Nat × Block} (h : At p c ws (x :: y :: hs) m) :
    At p c ws (y :: x :: hs) m := by
  refine ⟨h.coherent, h.core, ?_, h.waits, ?_, ?_, ?_⟩
  · intro i
    rw [h.refs i]
    simp only [List.map_cons, List.count_cons]
    omega
  · intro z hz
    apply h.holds z
    simp only [List.mem_cons] at hz ⊢
    rwa [or_left_comm]
  · intro i hi
    have := h.locks i hi
    simp only [List.map_cons, List.mem_cons] at this ⊢
    rwa [or_left_comm]
  · exact (List.Perm.swap x.1 y.1 _).nodup_iff.mpr h.nodup

/-- The thread changes the data of a buffer it holds. -/
theorem At.setData {b : Bool} {i : BufId} {n : Nat} {d : Block}
    (h : At p c [] ((i, n, d) :: hs) m) (hm : c.mode = some (b, p)) (d' : Block) (f : Buf → Buf)
    (hf : f (m.blk.bc.buf i) = { m.blk.bc.buf i with data := d' })
    (hd : b = false → ¬ c.log.InLog n → d' = c.content n) :
    At p c [] ((i, n, d') :: hs) (m.record (m.blk.setBuf i f)) := by
  have hset : m.blk.setBuf i f = m.blk.setBuf i (fun b => { b with data := d' }) := by
    unfold Blk.setBuf Bcache.set
    congr 2
    funext j
    split
    · rename_i hj
      rw [hj, hf]
    · rfl
  obtain ⟨hl, hv, hdev, hno, _⟩ := h.holds (i, n, d) (by simp)
  have hmode : m.mode = some (b, p) := by
    rw [← hm, ← h.core]
    rfl
  have hni := (List.nodup_cons.mp h.nodup).1
  rw [hset, record_set]
  refine ⟨?_, (set_core m i _ (by intro _; exact ⟨rfl, rfl⟩)).trans h.core, ?_, by simp, ?_, ?_,
    h.nodup⟩
  · refine set_coherent h.coherent i _ (fun _ => ⟨rfl, rfl⟩) (fun _ => rfl)
      (fun q hq => h.coherent.cache.held i q hq) (fun hv => hv) ?_ (fun _ => rfl) .inl
    intro _ _ _ hx _
    by_cases hw : b = true ∨ m.core.log.InLog n
    · exact absurd ⟨b, p, hmode, hl, hno.symm ▸ hw⟩ hx
    · have hw' := not_or.mp hw
      rw [hno, h.core]
      exact hd (by simpa using hw'.1) (h.core ▸ hw'.2)
  · simpa [Blk.setBuf] using h.refs
  · intro x hx
    rcases List.mem_cons.mp hx with rfl | hx
    · exact ⟨by simpa [Blk.setBuf] using hl, by simpa [Blk.setBuf] using hv,
        by simpa [Blk.setBuf] using hdev, by simpa [Blk.setBuf] using hno, by simp [Blk.setBuf]⟩
    · have hxi : x.1 ≠ i := fun he => hni (List.mem_map.mpr ⟨x, hx, he⟩)
      simpa [Blk.setBuf, Bcache.set_other _ _ _ hxi] using h.holds x (List.mem_cons_of_mem _ hx)
  · intro j hj
    apply h.locks j
    by_cases he : j = i
    · rw [he]
      exact hl
    · simpa [Blk.setBuf, Bcache.set_other _ _ _ he] using hj

theorem record_core (m : Machine) (n : Nat) (d : Block) :
    (m.record { m.blk with disk := fun k => if k = n then d else m.blk.disk k }).core =
      m.core.write n d := by
  unfold Core.write
  by_cases h : m.header = [] ∧ (m.core.put n d).header ≠ []
  · exact (congrArg Machine.core (if_pos h)).trans (if_pos h).symm
  · exact (congrArg Machine.core (if_neg h)).trans (if_neg h).symm

theorem record_blk (m : Machine) (t : Blk) : (m.record t).blk = t := by
  unfold Machine.record
  split <;> rfl

/-- A block write by the thread: the new core has to satisfy its invariant. -/
theorem At.bwrite {b : Bool} {i : BufId} {n : Nat} {d : Block}
    (h : At p c [] ((i, n, d) :: hs) m) (hm : c.mode = some (b, p)) (hc : CoreInv (c.write n d)) :
    (among p).Accepts m (fun _ => At p (c.write n d) [] ((i, n, d) :: hs)) (bwrite p i m.blk) := by
  obtain ⟨hl, hv, hdev, hno, hd⟩ := h.holds (i, n, d) (by simp)
  dsimp only at hl hv hdev hno hd
  have hmode : m.mode = some (b, p) := by
    rw [← hm, ← h.core]
    rfl
  unfold Xv6.bwrite
  rw [if_pos hl, hno, hd]
  have hcore := record_core m n d
  rw [h.core] at hcore
  have hblk := record_blk m { m.blk with disk := fun k => if k = n then d else m.blk.disk k }
  have hdirty : (m.record { m.blk with disk := fun k => if k = n then d else m.blk.disk k }).dirty
      = m.dirty := by
    unfold Machine.record
    split <;> rfl
  have hinOp : (m.record { m.blk with disk := fun k => if k = n then d else m.blk.disk k }).inOp
      = m.inOp := by
    unfold Machine.record
    split <;> rfl
  have htorn : (m.record { m.blk with disk := fun k => if k = n then d else m.blk.disk k }).torn
      = m.torn := by
    unfold Machine.record
    split <;> rfl
  refine among_ok ?_
  refine ⟨⟨?_, ?_, ?_, ?_, ?_, ?_⟩, hcore, ?_, by simp, ?_, ?_, h.nodup⟩
  · rw [hblk]
    exact h.coherent.cache
  · rw [hcore]
    exact hc
  · rw [hblk]
    exact h.coherent.small
  · rw [hblk]
    exact h.coherent.pins
  · rw [hblk, hdirty, hcore, htorn]
    intro j hjv hjd hjn hjl hjt
    change ¬ (c.write n d).Writes (m.blk.bc.buf j) at hjl
    change (m.blk.bc.buf j).data = (c.write n d).content (m.blk.bc.buf j).blockno
    have hjw : ¬ c.Writes (m.blk.bc.buf j) := by
      intro hw
      obtain ⟨r, q, hq, hjq, hr⟩ := hw
      exact hjl ⟨r, q, (c.write_mode n d).trans hq, hjq, by rw [c.write_log]; exact hr⟩
    have hdata := h.coherent.data j hjv hjd hjn (h.core.symm ▸ hjw) hjt
    rw [h.core] at hdata
    rw [hdata]
    by_cases he : (m.blk.bc.buf j).blockno = n
    · -- The buffer written: a home block of a commit, so its content is the logical one.
      have hji := h.coherent.cache.one j i (by rw [hjd]; decide) (hjd.trans hdev.symm)
        (he.trans hno.symm)
      have hw : ¬ (b = true ∨ c.log.InLog (m.blk.bc.buf j).blockno) := by
        intro hw
        exact hjw ⟨b, p, hm, by rw [hji, hl], hw⟩
      have hw' := not_or.mp hw
      have hb : c.mode = some (false, p) := by
        rw [hm, show b = false by simpa using hw'.1]
      rw [c.content_home hb hw'.2, (c.write n d).content_home ((c.write_mode n d).trans hb)
        (by rw [c.write_log]; exact hw'.2), c.write_logical]
    · rw [c.write_content n d he]
  · rw [hblk, hdirty, hinOp]
    exact h.coherent.dirty
  · rw [hblk]
    exact h.refs
  · rw [hblk]
    exact h.holds
  · rw [hblk]
    exact h.locks

/-- brelse(): the buffer must hold what the next reader is to see. -/
theorem At.brelse {b : Bool} {i : BufId} {n : Nat} {d : Block}
    (h : At p c [] ((i, n, d) :: hs) m) (hm : c.mode = some (b, p)) (hd : d = c.content n) :
    (among p).Safe (brelse p i) (fun _ => At p c [] hs) m := by
  have hnd := List.nodup_cons.mp h.nodup
  apply Surroundings.Safe.bind
  refine Surroundings.Safe.step _ (At.stable p c [] _) (fun _ h => h.coherent) h ?_
  intro m h
  obtain ⟨hl, hv, hdev, hno, hdata⟩ := h.holds (i, n, d) (by simp)
  dsimp only at hl hv hdev hno hdata
  have hdirty : m.dirty = [] := by
    apply CoreInv.not_dirty h.coherent
    change m.core.mode ≠ none
    rw [h.core, hm]
    simp
  change (among p).Accepts m _ (releasesleep p i m.blk)
  unfold releasesleep
  rw [if_pos hl]
  refine among_ok ?_
  rw [record_set]
  have h' : At p c [(i, n)] hs
      { m with blk := m.blk.setBuf i (fun b => { b with lock := none }) } := by
    refine ⟨release_coherent h.coherent (by simp [hdirty]) ?_,
      (set_core m i _ (by intro _; exact ⟨rfl, rfl⟩)).trans h.core, ?_, ?_, ?_, ?_, hnd.2⟩
    · intro _ _ _
      rw [hdata, hd, hno, h.core]
    · intro j
      have hj := h.refs j
      simp only [List.map_cons, List.map_nil, List.count_cons, List.count_nil] at hj ⊢
      change m.blk.bc.users.count (p, j) = _
      omega
    · intro x hx
      simp only [List.mem_singleton] at hx
      subst x
      exact ⟨by simpa [Blk.setBuf] using hdev, by simpa [Blk.setBuf] using hno⟩
    · intro x hx
      have hxi : x.1 ≠ i := fun he => hnd.1 (List.mem_map.mpr ⟨x, hx, he⟩)
      simpa [Blk.setBuf, Bcache.set_other _ _ _ hxi] using h.holds x (List.mem_cons_of_mem _ hx)
    · intro j hj
      by_cases he : j = i
      · subst j
        simp [Blk.setBuf] at hj
      · have := h.locks j (by simpa [Blk.setBuf, Bcache.set_other _ _ _ he] using hj)
        simpa [he] using this
  refine Surroundings.Safe.step _ (At.stable p c _ hs) (fun _ h => h.coherent) h' ?_
  intro m h
  have hu : (p, i) ∈ m.blk.bc.users := by
    apply List.count_pos_iff.mp
    have := h.refs i
    simp at this
    omega
  have hl : (m.blk.bc.buf i).lock ≠ some p := fun hl => hnd.1 (h.locks i hl)
  cases ht : brelsePut p i m.blk with
  | wait => simp [brelsePut] at ht
  | fail e => simp [brelsePut] at ht
  | ok u t =>
    cases u
    obtain ⟨hdisk, hlog, hpins, husers⟩ := put_frame ht
    change (among p).Accepts m _ (brelsePut p i m.blk)
    rw [ht]
    refine among_ok ?_
    rw [record_eq hdisk (by rw [hlog])]
    refine ⟨put_coherent h.coherent hu hl ht, (put_core ht).trans h.core, ?_, by simp, ?_, ?_,
      h.nodup⟩
    · intro j
      have hj := h.refs j
      change t.bc.users.count (p, j) = _
      rw [husers]
      simp only [List.map_cons, List.map_nil, List.count_cons, List.count_nil] at hj ⊢
      by_cases he : i = j
      · subst j
        rw [List.count_erase_self]
        simp at hj ⊢
        omega
      · have hne : (p, i) ≠ (p, j) := by
          rintro ⟨⟩
          exact he rfl
        rw [List.count_erase_of_ne (Ne.symm hne)]
        simp [he] at hj ⊢
        omega
    · intro x hx
      obtain ⟨sdev, sno, sval, sdata, slock⟩ := put_same ht x.1
      obtain ⟨hl, hv, hd, hno, hdata⟩ := h.holds x hx
      exact ⟨slock.trans hl, sval.trans hv, sdev.trans hd, sno.trans hno, sdata.trans hdata⟩
    · intro j hj
      apply h.locks j
      rw [← (put_same ht j).2.2.2.2]
      exact hj

end Xv6
