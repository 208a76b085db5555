import Xv6.Proofs.Admission

namespace Xv6
variable {start size : Nat} {d : Disk} {m m' : Machine}

/-- The buffer of a block the log still pins. -/
structure PinnedBy (m : Machine) (n : Nat) (i : BufId) : Prop where
  dev : (m.blk.bc.buf i).dev = ROOTDEV
  blockno : (m.blk.bc.buf i).blockno = n
  only : ∀ j, (m.blk.bc.buf j).dev = ROOTDEV → (m.blk.bc.buf j).blockno = n → j = i
  valid : (m.blk.bc.buf i).valid = true
  refcnt : (m.blk.bc.buf i).refcnt = m.blk.bc.users.countP (fun x => x.2 == i) + 1
  kept : m.blk.unused ≠ some i
  data : i ∉ m.dirty → (m.blk.bc.buf i).data = m.logical n

/-- The content of a home block while nobody recovers. -/
theorem Core.content_logical (c : Core) (hm : ∀ p, c.mode ≠ some (true, p)) {n : Nat}
    (hn : ¬ c.log.InLog n) : c.content n = c.logical n := by
  unfold Core.content Core.view
  rw [if_neg hn]
  cases hc : c.mode with
  | none => rfl
  | some x =>
    obtain ⟨r, p⟩ := x
    cases r with
    | false => rfl
    | true => exact absurd hc (hm p)

/-- A valid buffer of a home block holds what was logged last, unless an operation is
just changing it. -/
theorem Coherent.data_logical (h : Coherent m) (hm : ∀ p, m.mode ≠ some (true, p)) {i : BufId}
    (hv : (m.blk.bc.buf i).valid = true) (hd : (m.blk.bc.buf i).dev = ROOTDEV)
    (hn : ¬ m.blk.log.InLog (m.blk.bc.buf i).blockno) (hdirty : i ∉ m.dirty)
    (htorn : (m.blk.bc.buf i).blockno ∉ m.torn) :
    (m.blk.bc.buf i).data = m.logical (m.blk.bc.buf i).blockno := by
  rw [h.data i hv hd hdirty ?_ htorn]
  · exact m.core.content_logical hm hn
  · intro hw
    obtain ⟨r, p, hr, _, hin⟩ := hw
    cases hin with
    | inl hr' => exact hm p (hr' ▸ hr)
    | inr hin => exact hn hin

theorem Inv.pinned (h : Inv m) {n : Nat} (hn : n ∈ m.core.pinned) : ∃ i, PinnedBy m n i := by
  have hcoh := h.coherent
  have hcore := hcoh.core
  obtain ⟨i, hi, rfl⟩ := List.mem_map.mp hn
  obtain ⟨hv, hd⟩ := hcoh.pins i hi
  have hone : ∀ j, (m.blk.bc.buf j).dev = ROOTDEV →
      (m.blk.bc.buf j).blockno = (m.blk.bc.buf i).blockno → j = i := by
    intro j hj he
    exact hcoh.cache.one j i (by rw [hj]; decide) (hj.trans hd.symm) he
  have hcount : m.blk.bc.pins.count i = 1 := by
    have hnodup : m.blk.bc.pins.Nodup := hcore.pinned_nodup.of_map
    exact List.count_eq_one_of_mem hnodup hi
  have href := hcoh.cache.count i
  refine ⟨i, hd, rfl, hone, hv, by rw [href, hcount], ?_, ?_⟩
  · intro hu
    have hzero := List.find?_some hu
    simp only [beq_iff_eq] at hzero
    omega
  · intro hdirty
    have hlh := hcore.pinned_mem hn
    refine hcoh.data_logical ?_ hv hd (hcore.out _ hlh).1 hdirty (fun hx => (hcore.torn _ hx).1 hlh)
    intro p hp
    rw [hcore.unpinned p hp] at hn
    simp at hn

/-- The step of a commit that writes the header: the log holds what the buffers hold. -/
theorem Inv.commit_copies (h : Inv m) {p : Pid} {rest : BlkM Unit}
    (ht : m.thread = .committing p rest) (hs : m.step .thread = some m') (hempty : m.header = [])
    {j n : Nat} (hj : m'.header[j]? = some n) :
    m'.blk.disk (m'.blk.log.start + j + 1) = m.logical n ∧
    ∀ i, (m'.blk.bc.buf i).valid = true → (m'.blk.bc.buf i).dev = ROOTDEV →
      (m'.blk.bc.buf i).blockno = n → (m'.blk.bc.buf i).data = m.logical n := by
  have hinv' : Inv m' := h.step hs
  have hmode : m.mode = some (false, p) := by simp [Machine.mode, ht]
  have hdirty := CoreInv.not_dirty h.coherent (by rw [hmode]; simp)
  cases hp : m.panicked with
  | some e => simp [Machine.step, hp] at hs
  | none =>
    simp only [Machine.step, hp, Machine.act, ht] at hs
    cases rest with
    | ret u => cases hs
    | act g k =>
      cases after_some hs with
      | inr hfail =>
        obtain ⟨e, _, rfl⟩ := hfail
        change m.header[j]? = some n at hj
        simp [hempty] at hj
      | inl hok =>
        obtain ⟨b, s, _, hm'⟩ := hok
        have hblk : m'.blk = s := by rw [hm', show _ = (m.record s).blk from rfl, record_blk]
        have hne : decodeHead (s.disk s.log.start) ≠ [] := by
          intro he
          rw [show m'.header = [] by rw [Machine.header, hblk, he]] at hj
          simp at hj
        have hrec : m.record s = { m with
            blk := s
            committed := m.logical
            epoch := m.epoch + 1
            commits := (m.epoch, decodeHead (s.disk s.log.start)) :: m.commits } :=
          if_pos ⟨hempty, hne⟩
        rw [hrec] at hm'
        have hcommitted : m'.committed = m.logical := by rw [hm']
        have hlogical : m'.logical = m.logical := by rw [hm']
        have hdirty' : m'.dirty = [] := by rw [hm', ← hdirty]
        have hmode' : ∀ q, m'.mode ≠ some (true, q) := by
          intro q hq
          rw [hm'] at hq
          cases hk : k b with
          | ret u => simp [Machine.mode, hk] at hq
          | act g' k' => simp [Machine.mode, hk] at hq
        have hr := hinv'.coherent.core.recov
        refine ⟨?_, ?_⟩
        · rw [← hcommitted]
          exact (hr.copy j n hj).symm
        · intro i hv hd hn
          rw [← hlogical, ← hn]
          have hmem : n ∈ m'.header := List.mem_of_getElem? hj
          refine hinv'.coherent.data_logical hmode' hv hd ?_ (by simp [hdirty']) ?_
          · rw [hn]
            exact hr.out n hmem
          · intro hx
            exact (hinv'.coherent.core.torn _ hx).2.1 (hn ▸ hmem)

end Xv6
