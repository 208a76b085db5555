import Xv6.Proofs.Recovery

namespace Xv6
variable {m : Machine} {p : Pid} {i : BufId} {op : Nat}

theorem opOf_some (h : m.opOf p = some op) : (p, op) ∈ m.inOp := by
  unfold Machine.opOf at h
  cases hf : m.inOp.find? (fun x => x.1 == p) with
  | none => simp [hf] at h
  | some x =>
    have hp : x.1 = p := by simpa using List.find?_some hf
    have ho : x.2 = op := by simpa [hf] using h
    exact hp ▸ ho ▸ List.mem_of_find?_eq_some hf

theorem opOf_none (h : m.opOf p = none) : p ∉ m.inOp.map Prod.fst := by
  intro hp
  obtain ⟨x, hx, he⟩ := List.mem_map.mp hp
  have hnone : m.inOp.find? (fun x => x.1 == p) = none := by
    simpa [Machine.opOf] using h
  exact List.find?_eq_none.mp hnone x hx (by simpa using he)

/-- A process inside an operation: no thread is inside the log. -/
theorem Coherent.idle_of_op (h : Coherent m) (ho : m.opOf p ≠ none) : m.mode = none := by
  cases hm : m.mode with
  | none => rfl
  | some x =>
    obtain ⟨op, hop⟩ := Option.ne_none_iff_exists'.mp ho
    have halone : m.inOp = [] := h.core.alone (by rw [show m.core.mode = _ from hm]; simp)
    have hmem := opOf_some hop
    simp [halone] at hmem

/-- Once recovery is over and no commit runs, nobody is inside the log. -/
theorem Coherent.idle_of_free (h : Coherent m) (hb : m.busy p = false)
    (hc : m.blk.log.committing = false) : m.mode = none := by
  have hquiet := h.core.quiet
  unfold Machine.busy at hb
  cases ht : m.thread with
  | idle => simp [Machine.mode, ht]
  | recovering rest => simp [ht] at hb
  | committing q rest =>
    have hm : m.core.mode = some (false, q) := by simp [Machine.core, Machine.mode, ht]
    have htrue := hquiet.mpr ⟨q, hm⟩
    rw [show m.core.log.committing = false from hc] at htrue
    cases htrue

theorem beginOp_coherent (h : Coherent m) (hb : m.busy p = false) (ho : m.opOf p = none)
    {t : Blk} (ht : beginOpTry m.blk = .ok () t) :
    m.mode = none ∧
    Coherent { m with blk := t, inOp := (p, m.nextOp) :: m.inOp, nextOp := m.nextOp + 1 } := by
  unfold beginOpTry at ht
  split at ht
  · cases ht
  split at ht
  · cases ht
  cases ht
  rename_i hc _
  have hinv := h.core
  have hmode := h.idle_of_free hb (by simpa using hc)
  refine ⟨hmode, h.cache, ⟨hinv.sb, hinv.nodup, hinv.out, hinv.room, hinv.pinned, hinv.head,
    hinv.stale, ⟨hinv.recov.nodup, hinv.recov.out, hinv.recov.room, hinv.recov.rest,
    hinv.recov.copy⟩, ?_, ?_, hinv.quiet, ?_, ?_, ?_, hinv.unpinned, hinv.torn⟩, h.small, h.pins,
    h.data, ?_⟩
  · have hcount : m.blk.log.outstanding = m.inOp.length := hinv.count
    change m.blk.log.outstanding + 1 = (((p, m.nextOp) :: m.inOp).length : Int)
    rw [hcount]
    simp
  · exact List.nodup_cons.mpr ⟨opOf_none ho, hinv.ops⟩
  · intro hx
    exact absurd hmode hx
  · intro hx
    exact ⟨(hinv.idle hx).1, fun he => by cases he⟩
  · have ht := hinv.traced
    refine ⟨?_, ht.now, ht.listed, ?_, ht.together, ht.commits, ht.once, ht.closed⟩
    · intro r hr
      obtain ⟨he, ho⟩ := ht.past r hr
      exact ⟨he, Nat.lt_succ_of_lt ho⟩
    · intro x hx
      cases hx with
      | head =>
        refine ⟨Nat.lt_succ_self _, fun r hr he => ?_⟩
        have := (ht.past r hr).2
        exact absurd he (Nat.ne_of_lt this)
      | tail _ hx =>
        obtain ⟨hlt, hx'⟩ := ht.running x hx
        exact ⟨Nat.lt_succ_of_lt hlt, hx'⟩
  · intro j hj
    obtain ⟨q, op, hl, hq⟩ := h.dirty j hj
    exact ⟨q, op, hl, List.mem_cons_of_mem _ hq⟩

theorem filter_fst_length {l : List (Pid × Nat)} (hn : (l.map Prod.fst).Nodup)
    (hp : p ∈ l.map Prod.fst) : (l.filter (fun x => x.1 != p)).length + 1 = l.length := by
  induction l with
  | nil => simp at hp
  | cons x l ih =>
    obtain ⟨hx, hn⟩ := List.nodup_cons.mp hn
    by_cases he : x.1 = p
    · have hrest : l.filter (fun x => x.1 != p) = l := by
        apply List.filter_eq_self.mpr
        intro y hy
        simp only [bne_iff_ne, ne_eq]
        intro hyp
        exact hx (List.mem_map.mpr ⟨y, hy, hyp.trans he.symm⟩)
      simp [he, hrest]
    · have hp' : p ∈ l.map Prod.fst := by
        simpa [Ne.symm he] using hp
      have := ih hn hp'
      simp [he]
      omega

/-- The buffers a process has changed are its own, and at end_op() it holds none. -/
theorem dirty_other (h : Coherent m) (hu : ¬ ∃ x ∈ m.blk.bc.users, x.1 = p) :
    ∀ j ∈ m.dirty, ∃ q op, (m.blk.bc.buf j).lock = some q ∧
      (q, op) ∈ m.inOp.filter (fun x => x.1 != p) := by
  intro j hj
  obtain ⟨q, op, hl, hq⟩ := h.dirty j hj
  refine ⟨q, op, hl, List.mem_filter.mpr ⟨hq, ?_⟩⟩
  have hne : q ≠ p := fun he => hu ⟨(q, j), h.cache.held j q hl, he⟩
  simpa using hne

/-- end_op() while other operations run. -/
theorem endOp_stays (h : Coherent m) (hm : m.mode = none) (ho : m.opOf p ≠ none)
    (hu : ¬ ∃ x ∈ m.blk.bc.users, x.1 = p) {t : Blk} (ht : endOpEnter m.blk = .ok false t) :
    Coherent { m with blk := t, inOp := m.inOp.filter (fun x => x.1 != p) } := by
  have hinv := h.core
  obtain ⟨op, hop⟩ := Option.ne_none_iff_exists'.mp ho
  have hlen := filter_fst_length (p := p) (show (m.inOp.map Prod.fst).Nodup from hinv.ops)
    (List.mem_map.mpr ⟨_, opOf_some hop, rfl⟩)
  have hcount : m.blk.log.outstanding = m.inOp.length := hinv.count
  unfold endOpEnter at ht
  dsimp only at ht
  split at ht
  · cases ht
  split at ht
  · cases ht
  rename_i hne
  cases ht
  refine ⟨h.cache, ⟨hinv.sb, hinv.nodup, hinv.out, hinv.room, hinv.pinned, hinv.head,
    hinv.stale, ⟨hinv.recov.nodup, hinv.recov.out, hinv.recov.room, hinv.recov.rest,
    hinv.recov.copy⟩, ?_, ?_, hinv.quiet, ?_, ?_, ?_, hinv.unpinned, hinv.torn⟩, h.small, h.pins,
    h.data, dirty_other h hu⟩
  · change m.blk.log.outstanding - 1 = _
    change _ = ((m.inOp.filter (fun x => x.1 != p)).length : Int)
    omega
  · exact hinv.ops.sublist (List.filter_sublist.map _)
  · intro hx
    exact absurd hm hx
  · intro hx
    refine ⟨(hinv.idle hx).1, fun he => ?_⟩
    change m.inOp.filter (fun x => x.1 != p) = [] at he
    rw [he] at hlen
    simp only [List.length_nil] at hlen
    omega
  · have ht := hinv.traced
    exact ⟨ht.past, ht.now, ht.listed, fun x hx => ht.running x (List.mem_filter.mp hx).1,
      ht.together, ht.commits, ht.once, ht.closed⟩

/-- The last end_op(): the process goes on to commit, and is the only one inside the
log. -/
theorem endOp_commits (h : Coherent m) (hm : m.mode = none) (ho : m.opOf p ≠ none)
    (hu : ¬ ∃ x ∈ m.blk.bc.users, x.1 = p) {t : Blk} (ht : endOpEnter m.blk = .ok true t)
    (rest : BlkM Unit) {m' : Machine}
    (hm' : m' = { m with
      blk := t
      inOp := m.inOp.filter (fun x => x.1 != p)
      thread := .committing p rest }) :
    At p m'.core [] [] m' ∧ m'.core.mode = some (false, p) ∧ m'.core.header = [] := by
  have hinv := h.core
  obtain ⟨op, hop⟩ := Option.ne_none_iff_exists'.mp ho
  have hlen := filter_fst_length (p := p) (show (m.inOp.map Prod.fst).Nodup from hinv.ops)
    (List.mem_map.mpr ⟨_, opOf_some hop, rfl⟩)
  have hcount : m.blk.log.outstanding = m.inOp.length := hinv.count
  unfold endOpEnter at ht
  dsimp only at ht
  split at ht
  · cases ht
  split at ht
  case isFalse => cases ht
  rename_i hzero
  cases ht
  have hnil : m.inOp.filter (fun x => x.1 != p) = [] :=
    List.eq_nil_of_length_eq_zero (by omega)
  have hdirty : m.dirty = [] := by
    apply List.eq_nil_iff_forall_not_mem.mpr
    intro j hj
    obtain ⟨q, op, _, hq⟩ := dirty_other h hu j hj
    simp [hnil] at hq
  have hview : m.core.view = m.logical := by
    unfold Core.view
    rw [show m.core.mode = none from hm]
    rfl
  have hheader := (hinv.idle hm).1
  subst hm'
  refine ⟨⟨⟨h.cache, ⟨hinv.sb, hinv.nodup, hinv.out, hinv.room, hinv.pinned, hinv.head,
    ?_, ⟨hinv.recov.nodup, hinv.recov.out, hinv.recov.room, hinv.recov.rest,
    hinv.recov.copy⟩, ?_, ?_, ?_, ?_, ?_, ?_, fun q hq => (by cases hq), ?_⟩, h.small, h.pins, ?_, ?_⟩,
    rfl, ?_, by simp, by simp, ?_, by simp⟩, rfl, hheader⟩
  · intro n hn hp
    have := hinv.stale n hn hp
    rw [hview] at this
    exact this
  · change m.blk.log.outstanding - 1 = ((m.inOp.filter (fun x => x.1 != p)).length : Int)
    omega
  · exact hinv.ops.sublist (List.filter_sublist.map _)
  · exact ⟨fun _ => ⟨p, rfl⟩, fun _ => rfl⟩
  · intro _
    exact hnil
  · intro hx
    cases hx
  · have ht := hinv.traced
    exact ⟨ht.past, ht.now, ht.listed, fun x hx => ht.running x (List.mem_filter.mp hx).1,
      ht.together, ht.commits, ht.once, ht.closed⟩
  · intro n hn
    obtain ⟨hlh, hhead, hin, _⟩ := hinv.torn n hn
    exact ⟨hlh, hhead, hin, fun q hq => by cases hq⟩
  · intro j hv hd hn _ ht
    have hdata := h.data j hv hd hn (fun hw => by
      obtain ⟨_, _, hq, _⟩ := hw
      cases hm.symm.trans hq) ht
    unfold Core.content at hdata
    rw [hview] at hdata
    exact hdata
  · intro j hj
    simp [hdirty] at hj
  · intro j
    simp only [List.map_nil, List.count_nil, Nat.add_zero]
    apply List.count_eq_zero.mpr
    intro hj
    exact hu ⟨_, hj, rfl⟩
  · intro j hj
    exact absurd ⟨_, h.cache.held j p hj, rfl⟩ hu

theorem dirty_coherent (h : Coherent m) (hl : (m.blk.bc.buf i).lock = some p)
    (ho : m.opOf p = some op) : Coherent { m with dirty := i :: m.dirty } := by
  refine ⟨h.cache, h.core, h.small, h.pins, ?_, ?_⟩
  · intro j hv hd hn
    exact h.data j hv hd (fun hj => hn (List.mem_cons_of_mem _ hj))
  · intro j hj
    cases hj with
    | head => exact ⟨p, op, hl, opOf_some ho⟩
    | tail _ hj => exact h.dirty j hj

theorem modify_coherent (h : Coherent m) (hl : (m.blk.bc.buf i).lock = some p)
    (ho : m.opOf p = some op) (d : Block) :
    Coherent { m with
      blk := m.blk.setBuf i (fun b => { b with data := d })
      dirty := i :: m.dirty } := by
  refine set_coherent (dirty_coherent h hl ho) i (fun b => { b with data := d })
    (fun _ => ⟨rfl, rfl⟩) (fun _ => rfl) (fun q hq => h.cache.held i q hq) (fun hv => hv) ?_
    (fun _ => rfl) .inl
  intro _ _ hn
  exact absurd List.mem_cons_self hn

theorem CoreInv.pinned_idle {c : Core} (h : CoreInv c) (hm : c.mode = none) :
    c.pinned = c.log.lh := by
  obtain ⟨k, hk, hk0⟩ := h.pinned
  rw [hk, hk0 (h.idle hm).1]
  rfl

/-- The core after log_write() of block `n` with content `d`. -/
def Core.logWrite (c : Core) (op n : Nat) (d : Block) (lh : List Nat) (pins : List BufId) : Core :=
  { c with
    log := { c.log with lh := lh }
    pins := pins
    pinned := lh
    logical := fun k => if k = n then d else c.logical k
    torn := c.torn.filter (fun k => k != n)
    logs := ⟨op, c.epoch, n⟩ :: c.logs }

theorem CoreInv.logWrite {c : Core} (h : CoreInv c) (hm : c.mode = none) {n : Nat} (d : Block)
    (ho : (p, op) ∈ c.inOp) {lh : List Nat} (pins : List BufId) (hnd : lh.Nodup)
    (hroom : lh.length < c.log.size ∧ lh.length ≤ LOGSIZE) (hsub : ∀ k ∈ c.log.lh, k ∈ lh)
    (hnew : ∀ k ∈ lh, k ∈ c.log.lh ∨ k = n) (hn : n ∈ lh) (hout : ¬ c.log.InLog n ∧ n < 2 ^ 32) :
    CoreInv (c.logWrite op n d lh pins) := by
  obtain ⟨hhead, _⟩ := h.idle hm
  refine ⟨h.sb, hnd, ?_, hroom, ⟨0, rfl, fun _ => rfl⟩, .inl hhead, ?_,
    ⟨h.recov.nodup, h.recov.out, h.recov.room, h.recov.rest, h.recov.copy⟩, h.count, h.ops,
    h.quiet, h.alone, ?_, ?_, fun q hq => (by cases hm.symm.trans hq), ?_⟩
  · intro k hk
    cases hnew k hk with
    | inl hk => exact h.out k hk
    | inr hk => exact hk ▸ hout
  · intro j hj hp
    have hjn : j ≠ n := fun he => hp (he ▸ hn)
    have hstale := h.stale j hj (fun hx => hp (hsub j (h.pinned_idle hm ▸ hx)))
    unfold Core.view at hstale ⊢
    rw [hm] at hstale
    rw [show (c.logWrite op n d lh pins).mode = none from hm]
    change c.disk j = if j = n then d else c.logical j
    rw [if_neg hjn]
    exact hstale
  · intro _
    refine ⟨hhead, fun he => ?_⟩
    rw [show c.inOp = [] from he] at ho
    simp at ho
  · have ht := h.traced
    have hrun := (ht.running _ ho)
    refine ⟨?_, ?_, ?_, ?_, ?_, ?_, ht.once, ht.closed⟩
    · intro r hr
      cases hr with
      | head => exact ⟨Nat.le_refl _, hrun.1⟩
      | tail _ hr => exact ht.past r hr
    · intro r hr he
      cases hr with
      | head => exact ⟨hhead, hn⟩
      | tail _ hr => exact ⟨hhead, hsub _ (ht.now r hr he).2⟩
    · intro j hj _
      cases hnew j hj with
      | inl hj =>
        obtain ⟨r, hr, hre⟩ := ht.listed j hj hhead
        exact ⟨r, List.mem_cons_of_mem _ hr, hre⟩
      | inr hj => exact ⟨_, List.mem_cons_self, rfl, hj.symm⟩
    · intro x hx
      refine ⟨(ht.running x hx).1, fun r hr he => ?_⟩
      cases hr with
      | head => rfl
      | tail _ hr => exact (ht.running x hx).2 r hr he
    · intro r hr r' hr' he
      cases hr with
      | head =>
        cases hr' with
        | head => rfl
        | tail _ hr' => exact (hrun.2 r' hr' he.symm).symm
      | tail _ hr =>
        cases hr' with
        | head => exact hrun.2 r hr he
        | tail _ hr' => exact ht.together r hr r' hr' he
    · intro x hx
      refine ⟨(ht.commits x hx).1, fun r hr he => ?_⟩
      cases hr with
      | head => exact absurd he.symm (Nat.ne_of_lt (ht.commits x hx).1)
      | tail _ hr => exact (ht.commits x hx).2 r hr he
  · intro k hk
    obtain ⟨hk, hkn⟩ := List.mem_filter.mp hk
    obtain ⟨hlh, hhead, hin, hrec⟩ := h.torn k hk
    refine ⟨fun hx => ?_, hhead, hin, hrec⟩
    cases hnew k hx with
    | inl hx => exact hlh hx
    | inr hx => simp [hx] at hkn

/-- What log_write() does to the state: log.lh and the pins may grow by the block. -/
structure Logged (s : Blk) (i : BufId) (t : Blk) : Prop where
  disk : t.disk = s.disk
  log : t.log = { s.log with lh := t.log.lh }
  same : ∀ j, (t.bc.buf j).dev = (s.bc.buf j).dev ∧ (t.bc.buf j).blockno = (s.bc.buf j).blockno ∧
    (t.bc.buf j).valid = (s.bc.buf j).valid ∧ (t.bc.buf j).lock = (s.bc.buf j).lock ∧
    (t.bc.buf j).data = (s.bc.buf j).data
  users : t.bc.users = s.bc.users
  grows : (s.bc.buf i).blockno ∈ s.log.lh ∧ t.log.lh = s.log.lh ∧ t.bc.pins = s.bc.pins ∨
    (s.bc.buf i).blockno ∉ s.log.lh ∧ t.log.lh = s.log.lh ++ [(s.bc.buf i).blockno] ∧
      t.bc.pins = s.bc.pins ++ [i] ∧ s.log.lh.length < LOGSIZE ∧ s.log.lh.length + 1 < s.log.size
  cache : CacheInv s.bc → CacheInv t.bc

theorem logWrite_logged {s t : Blk} (ht : logWrite i s = .ok () t) : Logged s i t := by
  unfold logWrite at ht
  dsimp only at ht
  split at ht
  · cases ht
  rename_i hroom
  split at ht
  · cases ht
  split at ht
  · rename_i hmem
    cases ht
    exact ⟨rfl, rfl, fun _ => ⟨rfl, rfl, rfl, rfl, rfl⟩, rfl, .inl ⟨hmem, rfl, rfl⟩, fun h => h⟩
  · rename_i hmem
    cases ht
    refine ⟨rfl, rfl, ?_, rfl, .inr ⟨hmem, rfl, rfl, by omega, by omega⟩, fun h => h.pin i⟩
    intro j
    by_cases hj : j = i
    · subst j
      simp [setHead, bpin]
    · simp [setHead, bpin, Bcache.set_other _ _ _ hj]

/-- log_write() of a buffer that its process has locked, inside an operation. -/
theorem logWrite_coherent (h : Coherent m) (hl : (m.blk.bc.buf i).lock = some p)
    (hv : (m.blk.bc.buf i).valid = true) (hin : ¬ m.blk.log.InLog (m.blk.bc.buf i).blockno)
    (ho : m.opOf p = some op) {t : Blk} (ht : Logged m.blk i t) {m' : Machine}
    (hm' : m' = { m with
      blk := t
      dirty := m.dirty.filter (fun j => j != i)
      logical := fun n => if n = (m.blk.bc.buf i).blockno then (m.blk.bc.buf i).data
        else m.logical n
      torn := m.torn.filter (fun n => n != (m.blk.bc.buf i).blockno)
      logs := ⟨op, m.epoch, (m.blk.bc.buf i).blockno⟩ :: m.logs }) : Coherent m' := by
  have hinv := h.core
  have hm : m.mode = none := h.idle_of_op (p := p) (by rw [ho]; simp)
  have hdev : (m.blk.bc.buf i).dev = ROOTDEV := h.cache.root _ (h.cache.held i p hl)
  have hlt := h.small i hdev hin
  have hmap : t.bc.pins.map (fun j => (t.bc.buf j).blockno) =
      t.bc.pins.map (fun j => (m.blk.bc.buf j).blockno) :=
    List.map_congr_left (fun j _ => (ht.same j).2.1)
  have hpinned : m.blk.bc.pins.map (fun j => (m.blk.bc.buf j).blockno) = m.blk.log.lh :=
    hinv.pinned_idle hm
  have hlh : t.bc.pins.map (fun j => (t.bc.buf j).blockno) = t.log.lh := by
    rw [hmap]
    cases ht.grows with
    | inl hg => rw [hg.2.1, hg.2.2, hpinned]
    | inr hg => rw [hg.2.1, hg.2.2.1, List.map_append, hpinned, List.map_singleton]
  have hcore : m'.core = m.core.logWrite op (m.blk.bc.buf i).blockno (m.blk.bc.buf i).data
      t.log.lh t.bc.pins := by
    subst hm'
    unfold Machine.core Core.logWrite
    simp only [Core.mk.injEq, true_and, and_true]
    exact ⟨ht.disk, ht.log, hlh, rfl⟩
  have hcontent : ∀ k, m'.core.content k =
      if k = (m.blk.bc.buf i).blockno then (m.blk.bc.buf i).data else m.core.content k := by
    intro k
    rw [hcore]
    unfold Core.content Core.view
    rw [show m.core.mode = none from hm,
      show (m.core.logWrite op _ _ t.log.lh t.bc.pins).mode = none from hm]
    by_cases hk : k = (m.blk.bc.buf i).blockno
    · subst k
      rw [if_pos rfl]
      exact (if_neg hin).trans (if_pos rfl)
    · rw [if_neg hk]
      by_cases hkin : m.blk.log.InLog k
      · exact (if_pos hkin).trans (if_pos hkin).symm
      · exact (if_neg hkin).trans ((if_neg hk).trans (if_neg hkin).symm)
  have hcoreInv : CoreInv m'.core := by
    rw [hcore]
    cases ht.grows with
    | inl hg =>
      rw [hg.2.1]
      exact hinv.logWrite hm _ (opOf_some ho) _ hinv.nodup hinv.room (fun _ hk => hk)
        (fun _ hk => .inl hk) hg.1 ⟨hin, hlt⟩
    | inr hg =>
      obtain ⟨hnew, hg, _, hroom, hsize⟩ := hg
      rw [hg]
      refine hinv.logWrite hm _ (opOf_some ho) _ ?_ ?_ ?_ ?_ ?_ ⟨hin, hlt⟩
      · exact List.nodup_append.mpr ⟨hinv.nodup, by simp, fun a ha b hb he =>
          hnew (by rw [List.mem_singleton.mp hb] at he; exact he ▸ ha)⟩
      · rw [List.length_append, List.length_singleton]
        exact ⟨hsize, hroom⟩
      · intro k hk
        exact List.mem_append_left _ hk
      · intro k hk
        cases List.mem_append.mp hk with
        | inl hk => exact .inl hk
        | inr hk => exact .inr (List.mem_singleton.mp hk)
      · simp
  have hmode : m'.mode = none := by
    subst hm'
    exact hm
  have hblk : m'.blk = t := by rw [hm']
  have hdirty : m'.dirty = m.dirty.filter (fun j => j != i) := by rw [hm']
  have hinOp : m'.inOp = m.inOp := by rw [hm']
  have htorn : m'.torn = m.torn.filter (fun n => n != (m.blk.bc.buf i).blockno) := by rw [hm']
  refine ⟨?_, hcoreInv, ?_, ?_, ?_, ?_⟩
  · rw [hblk]
    exact ht.cache h.cache
  · rw [hblk]
    intro j hj hout
    obtain ⟨sdev, sno, _⟩ := ht.same j
    rw [sno, ht.log] at hout
    rw [sno]
    exact h.small j (sdev.symm.trans hj) hout
  · rw [hblk]
    intro j hj
    obtain ⟨sdev, _, sval, _⟩ := ht.same j
    rw [sdev, sval]
    cases ht.grows with
    | inl hg => exact h.pins j (hg.2.2 ▸ hj)
    | inr hg =>
      rw [hg.2.2.1] at hj
      cases List.mem_append.mp hj with
      | inl hj => exact h.pins j hj
      | inr hj => rw [List.mem_singleton.mp hj]; exact ⟨hv, hdev⟩
  · rw [hblk, hdirty, htorn]
    intro j hjv hjd hn _ hjt
    obtain ⟨sdev, sno, sval, _, sdata⟩ := ht.same j
    rw [sno] at hjt
    rw [hcontent, sno, sdata]
    by_cases hji : j = i
    · rw [hji, if_pos rfl]
    · have hne : (m.blk.bc.buf j).blockno ≠ (m.blk.bc.buf i).blockno := by
        intro he
        have hjdev := sdev.symm.trans hjd
        exact hji (h.cache.one j i (by rw [hjdev]; decide) (hjdev.trans hdev.symm) he)
      rw [if_neg hne]
      refine h.data j (sval.symm.trans hjv) (sdev.symm.trans hjd) ?_ ?_ ?_
      · intro hj
        exact hn (List.mem_filter.mpr ⟨hj, by simpa using hji⟩)
      · intro hw
        obtain ⟨_, _, hq, _⟩ := hw
        cases hm.symm.trans hq
      · intro hx
        exact hjt (List.mem_filter.mpr ⟨hx, by simpa using hne⟩)
  · rw [hblk, hdirty, hinOp]
    intro j hj
    rw [(ht.same j).2.2.2.1]
    exact h.dirty j (List.mem_filter.mp hj).1

/-- The logical content of listed blocks and the record of torn ones may change while
no thread is inside the log. -/
theorem CoreInv.rework {c : Core} (h : CoreInv c) (hm : c.mode = none) {logical : Disk}
    {torn : List Nat} (hl : ∀ k, k ∉ c.log.lh → logical k = c.logical k)
    (ht : ∀ k ∈ torn, k ∈ c.torn ∨ k ∉ c.log.lh ∧ ¬ c.log.InLog k) :
    CoreInv { c with logical := logical, torn := torn } := by
  have ht' := h.traced
  refine ⟨h.sb, h.nodup, h.out, h.room, h.pinned, h.head, ?_, h.recov, h.count, h.ops, h.quiet,
    h.alone, h.idle, ⟨ht'.past, ht'.now, ht'.listed, ht'.running, ht'.together, ht'.commits, ht'.once,
    ht'.closed⟩, h.unpinned, ?_⟩
  · intro k hk hp
    have hstale := h.stale k hk hp
    unfold Core.view at hstale ⊢
    rw [hm] at hstale ⊢
    exact hstale.trans (hl k (h.pinned_idle hm ▸ hp)).symm
  · intro k hk
    cases ht k hk with
    | inl hk => exact h.torn k hk
    | inr hk =>
      refine ⟨hk.1, ?_, hk.2, fun q hq => by cases hm.symm.trans hq⟩
      change k ∉ c.header
      simp [(h.idle hm).1]

/-- A changed buffer is given up without log_write(). -/
theorem abandon_coherent (h : Coherent m) (hl : (m.blk.bc.buf i).lock = some p)
    (hi : i ∈ m.dirty) (hin : ¬ m.blk.log.InLog (m.blk.bc.buf i).blockno) {m' : Machine}
    (hm' : m' = { m with
      dirty := m.dirty.filter (fun j => j != i)
      logical := if (m.blk.bc.buf i).blockno ∈ m.blk.log.lh then
          (fun n => if n = (m.blk.bc.buf i).blockno then (m.blk.bc.buf i).data else m.logical n)
        else m.logical
      torn := if (m.blk.bc.buf i).blockno ∈ m.blk.log.lh ∨
          (m.blk.bc.buf i).data = m.logical (m.blk.bc.buf i).blockno then m.torn
        else (m.blk.bc.buf i).blockno :: m.torn }) : m'.mode = none ∧ Coherent m' := by
  obtain ⟨q, op, hq, hop⟩ := h.dirty i hi
  have hm : m.mode = none := by
    apply Classical.not_not.mp
    intro hx
    have hno := h.core.alone hx
    change m.inOp = [] at hno
    simp [hno] at hop
  have hdev : (m.blk.bc.buf i).dev = ROOTDEV := h.cache.root _ (h.cache.held i p hl)
  have hmode' : m'.mode = none := by
    rw [hm']
    exact hm
  have hlogical : ∀ k, k ≠ (m.blk.bc.buf i).blockno → m'.logical k = m.logical k := by
    intro k hk
    rw [hm']
    dsimp only
    split
    · exact if_neg hk
    · rfl
  have htorn : ∀ k, k ∈ m.torn → k ∈ m'.torn := by
    intro k hk
    rw [hm']
    dsimp only
    split
    · exact hk
    · exact List.mem_cons_of_mem _ hk
  have hcore : m'.core = { m.core with logical := m'.logical, torn := m'.torn } := by
    rw [hm']
    rfl
  have hcontent : ∀ k, ¬ m.blk.log.InLog k → m'.core.content k = m'.logical k := by
    intro k hk
    rw [hcore]
    unfold Core.content Core.view
    rw [show m.core.mode = none from hm]
    exact if_neg hk
  refine ⟨hmode', ?_⟩
  have hblk : m'.blk = m.blk := by rw [hm']
  have hdirty : m'.dirty = m.dirty.filter (fun j => j != i) := by rw [hm']
  have hinOp : m'.inOp = m.inOp := by rw [hm']
  refine ⟨hblk ▸ h.cache, ?_, hblk ▸ h.small, hblk ▸ h.pins, ?_, ?_⟩
  · rw [hcore]
    refine h.core.rework hm ?_ ?_
    · intro k hk
      by_cases he : k = (m.blk.bc.buf i).blockno
      · rw [hm']
        dsimp only
        rw [if_neg (show (m.blk.bc.buf i).blockno ∉ m.blk.log.lh from he ▸ hk)]
        rfl
      · exact hlogical k he
    · intro k hk
      rw [hm'] at hk
      dsimp only at hk
      split at hk
      · exact .inl hk
      · rename_i hx
        cases hk with
        | head => exact .inr ⟨fun hx' => hx (.inl hx'), hin⟩
        | tail _ hk => exact .inl hk
  · rw [hblk, hdirty]
    intro j hjv hjd hn _ hjt
    by_cases hji : j = i
    · subst j
      rw [hcontent _ hin]
      rw [hm'] at hjt ⊢
      dsimp only at hjt ⊢
      by_cases hlh : (m.blk.bc.buf i).blockno ∈ m.blk.log.lh
      · rw [if_pos hlh, if_pos rfl]
      · rw [if_neg hlh]
        by_cases heq : (m.blk.bc.buf i).data = m.logical (m.blk.bc.buf i).blockno
        · exact heq
        · rw [if_neg (by simp [hlh, heq])] at hjt
          exact absurd List.mem_cons_self hjt
    · have hne : (m.blk.bc.buf j).blockno ≠ (m.blk.bc.buf i).blockno := fun he =>
        hji (h.cache.one j i (by rw [hjd]; decide) (hjd.trans hdev.symm) he)
      have hdata := h.data j hjv hjd (fun hj => hn (List.mem_filter.mpr ⟨hj, by simpa using hji⟩))
        (fun hw => by
          obtain ⟨_, _, hx, _⟩ := hw
          cases hm.symm.trans hx) (fun hx => hjt (htorn _ hx))
      rw [hdata, hcore]
      unfold Core.content Core.view
      rw [show m.core.mode = none from hm]
      split
      · rfl
      · exact (hlogical _ hne).symm
  · rw [hblk, hdirty, hinOp]
    intro j hj
    exact h.dirty j (List.mem_filter.mp hj).1

end Xv6
