import Xv6.Proofs.LogThread

namespace Xv6

theorem decodeHead_lt (d : Block) : ∀ n ∈ decodeHead d, n < 2 ^ 32 := by
  intro n hn
  simp only [decodeHead] at hn
  split at hn
  · obtain ⟨i, _, rfl⟩ := List.mem_map.mp hn
    have := Bytes.ofLe_lt (d.get (4 + 4 * i) 4)
    rwa [ByteArr.length_get] at this
  · simp at hn

/-- A header that was written is read back by read_head(). -/
theorem decodeHead_encodeHead (d : Block) {lh : List Nat} (hl : lh.length ≤ LOGSIZE)
    (hw : ∀ n ∈ lh, n < 2 ^ 32) : decodeHead (encodeHead d lh) = lh := by
  have hsize : 4 * (lh.length :: lh).length ≤ BSIZE := by
    simp only [List.length_cons, LOGSIZE, MAXOPBLOCKS, BSIZE] at hl ⊢
    omega
  have hn : Bytes.ofLe ((encodeHead d lh).get 0 4) = lh.length := by
    have h := Bytes.get_words d 4 (lh.length :: lh) 0 (by simp) hsize
    rw [Nat.mul_zero] at h
    rw [encodeHead, h]
    exact Bytes.ofLe_le_of_lt (by simp only [LOGSIZE, MAXOPBLOCKS] at hl; simp; omega)
  unfold decodeHead
  rw [hn, if_pos (by simp only [LOGSIZE, MAXOPBLOCKS] at hl; omega)]
  apply List.ext_getElem
  · simp
  · intro i _ hi
    have h := Bytes.get_words d 4 (lh.length :: lh) (i + 1) (by simpa using hi) hsize
    have hoff : 4 + 4 * i = 4 * (i + 1) := by omega
    rw [List.getElem_map, List.getElem_range, hoff, encodeHead, h, List.getElem_cons_succ]
    exact Bytes.ofLe_le_of_lt (hw _ (List.getElem_mem hi))

variable {c : Core} {p : Pid} {b : Bool}

theorem Core.put_other (c : Core) {n k : Nat} (d : Block) (h : k ≠ n) :
    (c.put n d).disk k = c.disk k := by
  simp [Core.put, h]

theorem Core.put_header (c : Core) {n : Nat} (d : Block) (h : c.log.start ≠ n) :
    (c.put n d).header = c.header := by
  unfold Core.header
  rw [← c.put_other d h]
  rfl

theorem CoreInv.start_inLog (h : CoreInv c) : c.log.InLog c.log.start :=
  ⟨Nat.le_refl _, by have := h.room.1; omega⟩

/-- The block of the log that keeps the `i`th entry. -/
theorem CoreInv.entry_inLog (h : CoreInv c) {i n : Nat} (hi : c.log.lh[i]? = some n) :
    c.log.InLog (c.log.start + i + 1) := by
  have := (List.getElem?_eq_some_iff.mp hi).1
  have := h.room.1
  exact ⟨by omega, by omega⟩

/-- A write that commits nothing. -/
theorem Core.write_put (c : Core) (n : Nat) (d : Block)
    (h : c.header = [] → (c.put n d).header = []) : c.write n d = c.put n d := by
  unfold Core.write
  rw [if_neg]
  rintro ⟨h₁, h₂⟩
  exact h₂ (h h₁)

theorem Recoverable.of_empty {l : Log} {disk committed : Disk} (hs : 0 < l.size)
    (hh : decodeHead (disk l.start) = []) (hr : ∀ n, ¬ l.InLog n → disk n = committed n) :
    Recoverable l disk committed := by
  refine ⟨?_, ?_, ?_, fun n hn _ => hr n hn, ?_⟩ <;> rw [hh]
  · exact List.nodup_nil
  · simp
  · exact ⟨hs, Nat.zero_le _⟩
  · simp

/-- A block write by the thread that keeps the header, or clears it when log.lh is
empty. -/
theorem CoreInv.put (h : CoreInv c) (hm : c.mode = some (b, p)) {n : Nat} {d : Block}
    (hh : (c.put n d).header = c.header ∨ (c.put n d).header = [] ∧ c.log.lh = [])
    (hs : ∀ k, ¬ c.log.InLog k → k ∉ c.pinned → (c.put n d).disk k = (c.put n d).view k)
    (hr : Recoverable c.log (c.put n d).disk c.committed) : CoreInv (c.put n d) := by
  have hmode : c.mode ≠ none := by
    rw [hm]
    simp
  refine ⟨h.sb, h.nodup, h.out, h.room, ?_, ?_, hs, hr, h.count, h.ops, h.quiet, h.alone,
    fun hn => absurd hn hmode, ⟨h.traced.past, ?_, ?_, h.traced.running, h.traced.together,
    h.traced.commits, h.traced.once, h.traced.closed⟩, h.unpinned, ?_⟩
  · rcases hh with hh | ⟨hh, hlh⟩
    · rw [hh]
      exact h.pinned
    · obtain ⟨k, hk, _⟩ := h.pinned
      refine ⟨0, ?_, fun _ => rfl⟩
      change c.pinned = c.log.lh.drop 0
      rw [hk, hlh]
      simp
  · rcases hh with hh | ⟨hh, _⟩
    · rw [hh]
      exact h.head
    · exact .inl hh
  · intro r hr' he
    obtain ⟨hnow, hmem⟩ := h.traced.now r hr' he
    rcases hh with hh | ⟨hh, hlh⟩
    · exact ⟨hh.trans hnow, hmem⟩
    · simp [hlh] at hmem
  · intro k hk hempty
    rcases hh with hh | ⟨hh, hlh⟩
    · exact h.traced.listed k hk (hh.symm.trans hempty)
    · change k ∈ c.log.lh at hk
      simp [hlh] at hk
  · intro k hk
    obtain ⟨hlh, hhead, hin, hrec⟩ := h.torn k hk
    refine ⟨hlh, ?_, hin, hrec⟩
    rcases hh with hh | ⟨hh, _⟩
    · rwa [hh]
    · simp [hh]

/-- A block of the log is written while the header is empty. -/
theorem CoreInv.put_area (h : CoreInv c) (hm : c.mode = some (false, p)) (hh : c.header = [])
    {n : Nat} (hn : c.log.InLog n) (hs : n ≠ c.log.start) (d : Block) : CoreInv (c.put n d) := by
  have hhead := c.put_header d hs.symm
  have hout : ∀ k, ¬ c.log.InLog k → (c.put n d).disk k = c.disk k := by
    intro k hk
    apply c.put_other
    rintro rfl
    exact hk hn
  refine h.put hm (.inl hhead) ?_ ?_
  · intro k hk hp
    rw [hout k hk, h.stale k hk hp, c.view_committing hm, (c.put n d).view_committing hm]
    rfl
  · refine .of_empty (by have := h.room.1; omega) (hhead.trans hh) ?_
    intro k hk
    rw [hout k hk]
    exact h.recov.rest k hk (by rw [show decodeHead _ = [] from hh]; simp)

/-- install_trans(): a listed block is written home. -/
theorem CoreInv.put_home (h : CoreInv c) (hm : c.mode = some (b, p)) (hh : c.header = c.log.lh)
    (hl : c.Settled) {n : Nat} (hn : n ∈ c.log.lh) :
    CoreInv (c.put n (c.committed n)) := by
  have hout := (h.out n hn).1
  have hhead : (c.put n (c.committed n)).header = c.header := by
    apply c.put_header
    rintro rfl
    exact hout h.start_inLog
  refine h.put hm (.inl hhead) ?_ ?_
  · intro k hk hp
    cases b with
    | true => rw [(c.put n _).view_recovering hm]
    | false =>
      have := h.stale k hk hp
      rw [c.view_committing hm] at this
      rw [(c.put n _).view_committing hm]
      by_cases he : k = n
      · simp [Core.put, he, hl n hout]
      · rw [c.put_other _ he, this]
        rfl
  · have hr := h.recov
    have hd : decodeHead ((c.put n (c.committed n)).disk c.log.start) =
        decodeHead (c.disk c.log.start) := hhead
    refine ⟨by rw [hd]; exact hr.nodup, by rw [hd]; exact hr.out, by rw [hd]; exact hr.room, ?_, ?_⟩
    · intro k hk hk'
      rw [hd] at hk'
      by_cases he : k = n
      · simp [Core.put, he]
      · rw [c.put_other _ he]
        exact hr.rest k hk hk'
    · intro i k hi
      rw [hd] at hi
      rw [hr.copy i k hi, c.put_other]
      rintro rfl
      rw [show decodeHead _ = c.log.lh from hh] at hi
      exact hout (h.entry_inLog hi)

/-- The header is cleared once every block it lists is home. -/
theorem CoreInv.put_clear (h : CoreInv c) (hm : c.mode = some (b, p)) (hlh : c.log.lh = [])
    {d : Block} (hd : decodeHead d = []) (hhome : ∀ n ∈ c.header, c.disk n = c.committed n) :
    CoreInv (c.put c.log.start d) := by
  have hhead : (c.put c.log.start d).header = [] := by
    simpa [Core.header, Core.put] using hd
  have hout : ∀ k, ¬ c.log.InLog k → (c.put c.log.start d).disk k = c.disk k := by
    intro k hk
    apply c.put_other
    rintro rfl
    exact hk h.start_inLog
  refine h.put hm (.inr ⟨hhead, hlh⟩) ?_ ?_
  · intro k hk hp
    cases b with
    | true => rw [(c.put _ d).view_recovering hm]
    | false =>
      rw [hout k hk, h.stale k hk hp, c.view_committing hm, (c.put _ d).view_committing hm]
      rfl
  · refine .of_empty (by have := h.room.1; omega) hhead ?_
    intro k hk
    rw [hout k hk]
    by_cases hmem : k ∈ c.header
    · exact hhome k hmem
    · exact h.recov.rest k hk hmem

/-- The commit point: the header on disk becomes log.lh, whose blocks are all in the
log area. -/
theorem CoreInv.write_commit (h : CoreInv c) (hm : c.mode = some (false, p)) (hh : c.header = [])
    {d : Block} (hd : decodeHead d = c.log.lh) (hne : c.log.lh ≠ [])
    (hcopy : ∀ i n, c.log.lh[i]? = some n → c.disk (c.log.start + i + 1) = c.logical n) :
    CoreInv (c.write c.log.start d) ∧ c.write c.log.start d = (c.put c.log.start d).commit ∧
      (c.put c.log.start d).header = c.log.lh ∧ c.pinned = c.log.lh := by
  have hhead : (c.put c.log.start d).header = c.log.lh := by
    simpa [Core.header, Core.put] using hd
  have hout : ∀ k, ¬ c.log.InLog k → (c.put c.log.start d).disk k = c.disk k := by
    intro k hk
    apply c.put_other
    rintro rfl
    exact hk h.start_inLog
  obtain ⟨k, hk, hk0⟩ := h.pinned
  have hpin : c.pinned = c.log.lh := by
    rw [hk, hk0 hh]
    rfl
  have hw : c.write c.log.start d = (c.put c.log.start d).commit := by
    unfold Core.write
    rw [if_pos ⟨hh, by rw [hhead]; exact hne⟩]
  have hno : ∀ r ∈ c.logs, r.epoch ≠ c.epoch + 1 := by
    intro r hr
    have := (h.traced.past r hr).1
    omega
  have hstale : ∀ k, ¬ c.log.InLog k → k ∉ c.pinned →
      (c.put c.log.start d).disk k = c.logical k := by
    intro k hk hp
    rw [hout k hk, h.stale k hk hp, c.view_committing hm]
  rw [hw]
  refine ⟨⟨h.sb, h.nodup, h.out, h.room, ⟨0, ?_, fun _ => rfl⟩, .inr (.inr hhead), ?_, ?_, h.count,
    h.ops, h.quiet, h.alone, ?_, ?_, h.unpinned, ?_⟩, rfl, hhead, hpin⟩
  · exact hpin
  · intro k hk hp
    rw [(c.put _ d).commit.view_committing hm]
    exact hstale k hk hp
  · have hd' : decodeHead ((c.put c.log.start d).disk c.log.start) = c.log.lh := hhead
    refine ⟨?_, ?_, ?_, ?_, ?_⟩
    · exact hd' ▸ h.nodup
    · intro n hn
      exact (h.out n (hd' ▸ hn)).1
    · exact hd' ▸ h.room
    · intro n hn hn'
      apply hstale n hn
      rw [hpin]
      exact hd' ▸ hn'
    · intro i n hi
      have hi' : c.log.lh[i]? = some n := hd' ▸ hi
      change c.logical n = (c.put c.log.start d).disk (c.log.start + i + 1)
      rw [c.put_other _ (by omega), hcopy i n hi']
  · intro hn
    rw [show c.mode = none from hn] at hm
    cases hm
  · have hops : c.inOp = [] := h.alone (by rw [hm]; simp)
    refine ⟨?_, ?_, ?_, ?_, h.traced.together, ?_, ?_, ?_⟩
    · intro r hr
      obtain ⟨he, ho⟩ := h.traced.past r hr
      exact ⟨Nat.le_succ_of_le he, ho⟩
    · intro r hr he
      exact absurd he (hno r hr)
    · intro n _ hempty
      exact absurd (hhead.symm.trans hempty) hne
    · intro x hx
      change x ∈ c.inOp at hx
      simp [hops] at hx
    · intro x hx
      rcases List.mem_cons.mp hx with rfl | hx
      · refine ⟨Nat.lt_succ_self _, fun r hr he => ?_⟩
        rw [hhead]
        exact (h.traced.now r hr he).2
      · obtain ⟨he, hx'⟩ := h.traced.commits x hx
        exact ⟨Nat.lt_succ_of_lt he, hx'⟩
    · refine List.nodup_cons.mpr ⟨?_, h.traced.once⟩
      intro hmem
      obtain ⟨x, hx, he⟩ := List.mem_map.mp hmem
      have hx' := (h.traced.commits x hx).1
      rw [he] at hx'
      exact Nat.lt_irrefl _ hx'
    · intro e he
      cases Nat.lt_succ_iff_lt_or_eq.mp he with
      | inl he =>
        cases h.traced.closed e he with
        | inl hc => exact .inl (List.mem_cons_of_mem _ hc)
        | inr hc => exact .inr hc
      | inr he => exact .inl (he ▸ List.mem_cons_self)
  · intro k hk
    obtain ⟨hlh, _, hin, hrec⟩ := h.torn k hk
    refine ⟨hlh, ?_, hin, hrec⟩
    rwa [show (c.put c.log.start d).commit.header = c.log.lh from hhead]

end Xv6
