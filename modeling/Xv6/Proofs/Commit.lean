import Xv6.Proofs.Phases

namespace Xv6
variable {p : Pid} {c : Core} {b : Bool} {hs : List (BufId × Nat × Block)} {m : Machine}

/-- One action of the thread: others may move first. -/
theorem At.step {ws : List (BufId × Nat)} {β : Type} {g : Blk → Out Panic Blk β}
    {post : β → Machine → Prop} (h : At p c ws hs m)
    (hg : ∀ m, At p c ws hs m → (among p).Accepts m post (g m.blk)) :
    (among p).Safe (Prog.atomic g) post m :=
  Surroundings.Safe.step _ (At.stable p c ws hs) (fun _ h => h.coherent) h hg

theorem At.memmove {i j : BufId} {n k : Nat} {d e : Block}
    (h : At p c [] ((i, n, d) :: (j, k, e) :: hs) m) (hm : c.mode = some (b, p))
    (hd : b = false → ¬ c.log.InLog n → e = c.content n) :
    At p c [] ((i, n, e) :: (j, k, e) :: hs) (m.record (memmoveBuf i j m.blk)) := by
  obtain ⟨_, _, _, _, hj⟩ := h.holds (j, k, e) (by simp)
  exact h.setData hm e _ (congrArg (fun x => { m.blk.bc.buf i with data := x }) hj) hd

/-- The end of both loop bodies: two buffers with current contents are released. -/
theorem At.brelse_two {i j : BufId} {n k : Nat} {d e : Block}
    (h : At p c [] ((i, n, d) :: (j, k, e) :: hs) m) (hm : c.mode = some (b, p))
    (hd : d = c.content n) (he : e = c.content k) :
    (among p).Safe (do Xv6.brelse p j; Xv6.brelse p i) (fun _ => At p c [] hs) m := by
  apply Surroundings.Safe.bind
  refine (h.swap.brelse hm he).mono _ ?_
  intro _ m h
  exact h.brelse hm hd

/-- The core with another log.lh. -/
def Core.setHead (c : Core) (lh : List Nat) : Core := { c with log := { c.log with lh := lh } }

theorem At.setHead (h : At p c [] hs m) (lh : List Nat) (hc : CoreInv (c.setHead lh)) :
    At p (c.setHead lh) [] hs (m.record (setHead lh m.blk)) := by
  have hcore : ({ m with blk := Xv6.setHead lh m.blk } : Machine).core = c.setHead lh := by
    rw [← h.core]
    rfl
  rw [record_eq (t := Xv6.setHead lh m.blk) rfl rfl]
  refine ⟨⟨h.coherent.cache, hcore ▸ hc, h.coherent.small, h.coherent.pins, ?_, h.coherent.dirty⟩,
    hcore, h.refs, by simp, h.holds, h.locks, h.nodup⟩
  exact h.coherent.data

/-- The core after the oldest pin was dropped. -/
def Core.unpin (c : Core) : Core := { c with pins := c.pins.tail, pinned := c.pinned.tail }

/-- bunpin() by install_trans(): the block's pin is the oldest one. -/
theorem At.bunpin {i : BufId} {n : Nat} {d : Block} (h : At p c [] ((i, n, d) :: hs) m)
    {rest : List Nat} (hp : c.pinned = n :: rest) (hc : CoreInv c.unpin) :
    At p c.unpin [] ((i, n, d) :: hs) (m.record (bunpin i m.blk)) := by
  obtain ⟨_, _, hdev, hno, _⟩ := h.holds (i, n, d) (by simp)
  have hmap : m.blk.bc.pins.map (fun i => (m.blk.bc.buf i).blockno) = n :: rest := by
    rw [← hp, ← h.core]
    rfl
  obtain ⟨j, js, hjs, hj, _⟩ := List.map_eq_cons_iff.mp hmap
  have hji : j = i := by
    have hjd := (h.coherent.pins j (by simp [hjs])).2
    exact h.coherent.cache.one j i (by rw [hjd]; decide) (hjd.trans hdev.symm) (hj.trans hno.symm)
  subst j
  have hpins : (Xv6.bunpin i m.blk).bc.pins = m.blk.bc.pins.tail := by
    simp [Xv6.bunpin, hjs]
  have hbuf := m.blk.bc.set_ident i Buf.unref (fun _ => ⟨rfl, rfl⟩)
  have hsame : ∀ k, ((Xv6.bunpin i m.blk).bc.buf k).valid = (m.blk.bc.buf k).valid ∧
      ((Xv6.bunpin i m.blk).bc.buf k).lock = (m.blk.bc.buf k).lock ∧
      ((Xv6.bunpin i m.blk).bc.buf k).data = (m.blk.bc.buf k).data := by
    intro k
    by_cases hk : k = i
    · subst k
      simp [Xv6.bunpin]
    · simp [Xv6.bunpin, Bcache.set_other _ _ _ hk]
  have hcore : ({ m with blk := Xv6.bunpin i m.blk } : Machine).core = c.unpin := by
    rw [← h.core]
    unfold Machine.core Core.unpin
    simp only [Core.mk.injEq, hpins, true_and, and_true]
    refine ⟨rfl, rfl, ?_, rfl⟩
    rw [List.map_tail]
    exact congrArg List.tail (List.map_congr_left (fun k _ => (hbuf k).2))
  rw [record_eq (t := Xv6.bunpin i m.blk) rfl rfl]
  refine ⟨⟨h.coherent.cache.unpin (by simp [hjs]), hcore ▸ hc, ?_, ?_, ?_, ?_⟩, hcore, h.refs,
    by simp, ?_, ?_, h.nodup⟩
  · intro k hk hout
    have hk' := h.coherent.small k ((hbuf k).1.symm.trans hk)
    rw [show ((Xv6.bunpin i m.blk).bc.buf k).blockno = _ from (hbuf k).2] at hout ⊢
    exact hk' hout
  · intro k hk
    rw [hpins] at hk
    obtain ⟨hv, hd⟩ := h.coherent.pins k (List.mem_of_mem_tail hk)
    exact ⟨(hsame k).1.trans hv, (hbuf k).1.trans hd⟩
  · intro k hv hd hn hl ht
    have hl' : ¬ m.core.Writes (m.blk.bc.buf k) := by
      intro hw
      apply hl
      rw [hcore]
      exact (h.core ▸ hw : c.Writes _).of_same (hsame k).2.1 (hbuf k).2
    have := h.coherent.data k ((hsame k).1.symm.trans hv) ((hbuf k).1.symm.trans hd) hn hl'
      ((hbuf k).2 ▸ ht)
    rw [h.core] at this
    rw [hcore]
    change ((Xv6.bunpin i m.blk).bc.buf k).data = c.content ((Xv6.bunpin i m.blk).bc.buf k).blockno
    rw [(hsame k).2.2, show ((Xv6.bunpin i m.blk).bc.buf k).blockno = _ from (hbuf k).2]
    exact this
  · intro k hk
    rw [(hsame k).2.1]
    exact h.coherent.dirty k hk
  · intro x hx
    obtain ⟨hl, hv, hd, hn, hdata⟩ := h.holds x hx
    exact ⟨(hsame x.1).2.1.trans hl, (hsame x.1).1.trans hv, (hbuf x.1).1.trans hd,
      (hbuf x.1).2.trans hn, (hsame x.1).2.2.trans hdata⟩
  · intro k hk
    exact h.locks k ((hsame k).2.1.symm.trans hk)

/-- A loop over the entries of log.lh, with the number of entries done in the
assertion. -/
theorem forTail_safe {body : Nat → BlkM Unit} {phase : Nat → Core → Prop}
    (hbody : ∀ t n c m, phase t c → c.log.lh[t]? = some n → At p c [] [] m →
      (among p).Safe (body t)
        (fun _ m => ∃ c', phase (t + 1) c' ∧ c'.log = c.log ∧ At p c' [] [] m) m)
    {fuel t : Nat} (hp : phase t c) (h : At p c [] [] m) (hf : c.log.lh.length ≤ t + fuel) :
    (among p).Safe (forTail body fuel t)
      (fun _ m => ∃ t' c', phase t' c' ∧ c'.log.lh.length ≤ t' ∧ c'.log = c.log ∧
        At p c' [] [] m) m := by
  induction fuel generalizing t c m with
  | zero => exact ⟨t, c, hp, hf, rfl, h⟩
  | succ fuel ih =>
    apply Surroundings.Safe.bind
    apply h.step
    intro m h
    refine among_ok ?_
    have hlog : m.blk.log = c.log := by
      rw [← h.core]
      rfl
    rw [record_eq rfl rfl, hlog]
    by_cases ht : t < c.log.lh.length
    · rw [if_pos ht]
      apply Surroundings.Safe.bind
      refine (hbody t _ c m hp (List.getElem?_eq_getElem ht) h).mono _ ?_
      rintro _ m ⟨c', hp', hl, h'⟩
      refine (ih hp' h' (by rw [hl]; omega)).mono _ ?_
      rintro _ m ⟨t', c'', hp'', hle, hl', h''⟩
      exact ⟨t', c'', hp'', hle, hl'.trans hl, h''⟩
    · rw [if_neg ht]
      exact ⟨t, c, hp, Nat.le_of_not_lt ht, rfl, h⟩

/-- write_log() has copied the first `t` blocks to the log. -/
structure Writing (p : Pid) (t : Nat) (c : Core) : Prop where
  mode : c.mode = some (false, p)
  header : c.header = []
  copied : ∀ i < t, ∀ n, c.log.lh[i]? = some n → c.disk (c.log.start + i + 1) = c.logical n

theorem writeLogBody_safe (t n : Nat) (c : Core) (m : Machine) (hw : Writing p t c)
    (ht : c.log.lh[t]? = some n) (h : At p c [] [] m) :
    (among p).Safe (writeLogBody p t)
      (fun _ m => ∃ c', Writing p (t + 1) c' ∧ c'.log = c.log ∧ At p c' [] [] m) m := by
  have hinv : CoreInv c := h.core ▸ h.coherent.core
  have hin := hinv.entry_inLog ht
  have hmem : n ∈ c.log.lh := List.mem_of_getElem? ht
  have hout := (hinv.out n hmem).1
  have hget : c.log.lh.getD t 0 = n := by
    rw [List.getD, ht]
    rfl
  have hne : n ≠ c.log.start + t + 1 := by
    rintro rfl
    exact hout hin
  have hstart : c.log.start ≠ c.log.start + t + 1 := by omega
  have hput : c.write (c.log.start + t + 1) (c.logical n) =
      c.put (c.log.start + t + 1) (c.logical n) :=
    c.write_put _ _ (fun he => (c.put_header _ hstart).trans he)
  have hinv' := hinv.put_area hw.mode hw.header hin hstart.symm (c.logical n)
  apply Surroundings.Safe.bind
  refine (h.breadOf (fun l => l.start + t + 1) (.inl hin)).mono _ ?_
  intro dst m h
  apply Surroundings.Safe.bind
  refine (h.breadOf (fun l => l.lh.getD t 0) (.inr (hget ▸ hmem))).mono _ ?_
  intro src m h
  rw [hget, c.content_home hw.mode hout] at h
  apply Surroundings.Safe.bind
  refine h.swap.step (fun m h => among_ok ?_)
  apply Surroundings.Safe.bind
  refine (h.memmove hw.mode (fun _ hx => absurd hin hx)).step (fun m h => ?_)
  refine (h.bwrite hw.mode (hput ▸ hinv')).mono _ ?_
  intro _ m h
  rw [hput] at h
  refine (h.brelse_two hw.mode ?_ ?_).mono _ ?_
  · rw [(c.put _ (c.logical n)).content_inLog hin]
    simp [Core.put]
  · rw [← hput, c.write_content _ _ hne, c.content_home hw.mode hout]
  intro _ m h
  refine ⟨c.put _ _, ⟨hw.mode, (c.put_header _ hstart).trans hw.header, ?_⟩, rfl, h⟩
  intro i hi k hk
  by_cases hit : i = t
  · subst i
    have hkn : k = n := Option.some.inj (hk.symm.trans ht)
    simp [Core.put, hkn]
  · rw [c.put_other]
    · exact hw.copied i (by omega) k hk
    · change c.log.start + i + 1 ≠ _
      omega

/-- write_head(): the header block becomes log.lh. -/
theorem writeHead_safe (h : At p c [] [] m) (hm : c.mode = some (b, p))
    (hc : ∀ d, decodeHead d = c.log.lh → CoreInv (c.write c.log.start d)) :
    (among p).Safe (writeHead p)
      (fun _ m => ∃ d, decodeHead d = c.log.lh ∧ At p (c.write c.log.start d) [] [] m) m := by
  have hinv : CoreInv c := h.core ▸ h.coherent.core
  have hdec : ∀ d, decodeHead (encodeHead d c.log.lh) = c.log.lh :=
    fun d => decodeHead_encodeHead d hinv.room.2 (fun n hn => (hinv.out n hn).2)
  apply Surroundings.Safe.bind
  refine (h.breadOf (fun l => l.start) (.inl hinv.start_inLog)).mono _ ?_
  intro buf m h
  apply Surroundings.Safe.bind
  refine h.step (fun m h => among_ok ?_)
  obtain ⟨_, _, _, _, hdata⟩ := h.holds _ List.mem_cons_self
  have hlog : m.blk.log = c.log := by
    rw [← h.core]
    rfl
  have h' := h.setData hm (encodeHead (c.content c.log.start) c.log.lh)
    (fun b => { b with data := encodeHead b.data m.blk.log.lh }) (by rw [hdata, hlog])
    (fun _ hx => absurd hinv.start_inLog hx)
  apply Surroundings.Safe.bind
  refine h'.step (fun m h => ?_)
  refine (h.bwrite hm (hc _ (hdec _))).mono _ ?_
  intro _ m h
  refine (h.brelse ((c.write_mode _ _).trans hm) ?_).mono _ ?_
  · rw [Core.content_inLog (c.write _ _) (by rw [c.write_log]; exact hinv.start_inLog), c.write_same]
  · intro _ m h
    exact ⟨_, hdec _, h⟩

/-- install_trans() has written the first `t` blocks home; a commit has also dropped
their pins. -/
structure Installing (b : Bool) (p : Pid) (t : Nat) (c : Core) : Prop where
  mode : c.mode = some (b, p)
  header : c.header = c.log.lh
  settled : c.Settled
  pinned : c.pinned = if b then [] else c.log.lh.drop t
  home : ∀ i < t, ∀ n, c.log.lh[i]? = some n → c.disk n = c.committed n

/-- A pin is dropped once its block is home. -/
theorem CoreInv.unpin (h : CoreInv c) (hm : c.mode = some (false, p)) (hh : c.header = c.log.lh)
    (hl : c.Settled) {n t : Nat} (hp : c.pinned = c.log.lh.drop t)
    (ht : c.log.lh[t]? = some n) (hd : c.disk n = c.committed n) : CoreInv c.unpin := by
  have htail : c.pinned.tail = c.log.lh.drop (t + 1) := by
    rw [hp, List.tail_drop]
  refine ⟨h.sb, h.nodup, h.out, h.room, ⟨t + 1, htail, ?_⟩, h.head, ?_, h.recov, h.count, h.ops,
    h.quiet, h.alone, ?_, ?_, fun q hq => (by cases hm.symm.trans hq), h.torn⟩
  · intro he
    rw [show c.log.lh = [] from hh.symm.trans he] at ht
    simp at ht
  · intro k hk hk'
    rw [show c.unpin.view = c.logical from c.unpin.view_committing hm]
    by_cases he : k = n
    · rw [he, hl n (h.out n (List.mem_of_getElem? ht)).1]
      exact hd
    · rw [show c.unpin.disk k = c.disk k from rfl, h.stale k hk, c.view_committing hm]
      intro hmem
      have hcons : c.pinned = n :: c.log.lh.drop (t + 1) := by
        obtain ⟨hlt, rfl⟩ := List.getElem?_eq_some_iff.mp ht
        rw [hp]
        exact List.drop_eq_getElem_cons hlt
      rw [hcons] at hmem
      rcases List.mem_cons.mp hmem with hmem | hmem
      · exact he hmem
      · exact hk' (show k ∈ c.pinned.tail from htail ▸ hmem)
  · intro hn
    rw [show c.mode = none from hn] at hm
    cases hm
  · exact ⟨h.traced.past, h.traced.now, h.traced.listed, h.traced.running, h.traced.together,
      h.traced.commits, h.traced.once, h.traced.closed⟩

theorem installBody_safe (t n : Nat) (c : Core) (m : Machine) (hi : Installing b p t c)
    (ht : c.log.lh[t]? = some n) (h : At p c [] [] m) :
    (among p).Safe (installBody p b t)
      (fun _ m => ∃ c', Installing b p (t + 1) c' ∧ c'.log = c.log ∧ At p c' [] [] m) m := by
  have hinv : CoreInv c := h.core ▸ h.coherent.core
  have hin := hinv.entry_inLog ht
  have hmem := List.mem_of_getElem? ht
  have hout := (hinv.out n hmem).1
  have hget : c.log.lh.getD t 0 = n := by
    rw [List.getD, ht]
    rfl
  have hcopy : c.disk (c.log.start + t + 1) = c.committed n := by
    refine (hinv.recov.copy t n ?_).symm
    rw [show decodeHead _ = c.log.lh from hi.header]
    exact ht
  have hne : c.log.start + t + 1 ≠ n := by
    rintro rfl
    exact hout hin
  have hstart : c.log.start ≠ n := by
    rintro rfl
    exact hout hinv.start_inLog
  have hput : c.write n (c.committed n) = c.put n (c.committed n) :=
    c.write_put _ _ (fun he => (c.put_header _ hstart).trans he)
  have hinv' := hinv.put_home hi.mode hi.header hi.settled hmem
  have hhome : ∀ i < t + 1, ∀ k, c.log.lh[i]? = some k →
      (c.put n (c.committed n)).disk k = c.committed k := by
    intro i hit k hk
    by_cases he : k = n
    · simp [Core.put, he]
    · rw [c.put_other _ he]
      refine hi.home i ?_ k hk
      rcases Nat.lt_succ_iff_lt_or_eq.mp hit with hit | rfl
      · exact hit
      · exact absurd (Option.some.inj (hk.symm.trans ht)) he
  apply Surroundings.Safe.bind
  refine (h.breadOf (fun l => l.start + t + 1) (.inl hin)).mono _ ?_
  intro lbuf m h
  rw [Core.content_inLog _ hin, hcopy] at h
  apply Surroundings.Safe.bind
  refine (h.breadOf (fun l => l.lh.getD t 0) (.inr (hget ▸ hmem))).mono _ ?_
  intro dbuf m h
  rw [hget] at h
  apply Surroundings.Safe.bind
  refine h.step (fun m h => among_ok ?_)
  apply Surroundings.Safe.bind
  refine (h.memmove hi.mode ?_).step (fun m h => ?_)
  · intro hb _
    rw [c.content_home (hb ▸ hi.mode) hout, hi.settled n hout]
  refine (h.bwrite hi.mode (hput ▸ hinv')).mono _ ?_
  intro _ m h
  rw [hput] at h
  cases b with
  | true =>
    refine (h.brelse_two hi.mode ?_ ?_).mono _ ?_
    · rw [(c.put n _).content_recovering hi.mode]
      simp [Core.put]
    · rw [(c.put _ _).content_inLog hin, c.put_other _ hne, hcopy]
    · intro _ m h
      exact ⟨c.put _ _, ⟨hi.mode, (c.put_header _ hstart).trans hi.header, hi.settled, hi.pinned,
        hhome⟩, rfl, h⟩
  | false =>
    have hpin : c.pinned = n :: c.log.lh.drop (t + 1) := by
      obtain ⟨hlen, he⟩ := List.getElem?_eq_some_iff.mp ht
      rw [hi.pinned, ← he]
      exact List.drop_eq_getElem_cons hlen
    have hun : CoreInv (c.put n (c.committed n)).unpin :=
      hinv'.unpin hi.mode ((c.put_header _ hstart).trans hi.header) hi.settled hi.pinned ht
        (by simp [Core.put])
    apply Surroundings.Safe.bind
    refine h.step (fun m h => among_ok ?_)
    refine ((h.bunpin hpin hun).brelse_two hi.mode ?_ ?_).mono _ ?_
    · rw [Core.content_home (c.put n _).unpin hi.mode hout]
      exact (hi.settled n hout).symm
    · rw [(c.put n _).unpin.content_inLog hin]
      exact hcopy.symm.trans (c.put_other _ hne).symm
    · intro _ m h
      refine ⟨(c.put n _).unpin, ⟨hi.mode, (c.put_header _ hstart).trans hi.header, hi.settled, ?_,
        hhome⟩, rfl, h⟩
      change c.pinned.tail = c.log.lh.drop (t + 1)
      rw [hpin]
      rfl

end Xv6
