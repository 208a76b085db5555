import Xv6.Proofs.Commit

namespace Xv6
variable {p : Pid} {c : Core} {b : Bool} {m : Machine}

/-- log.lh is replaced while nothing is pinned and nothing was logged since the last
commit: by the header in read_head(), by the empty list after install_trans(). -/
theorem CoreInv.setHead (h : CoreInv c) (hm : c.mode = some (b, p)) {lh : List Nat}
    (hl : lh = [] ∨ lh = c.header) (ht : lh = [] ∨ b = true) (hp : c.pinned = []) (hnow : ∀ r ∈ c.logs, r.epoch ≠ c.epoch) :
    CoreInv (c.setHead lh) := by
  have hsize : 0 < c.log.size := by
    have := h.room.1
    omega
  have hempty : c.header = [] → lh = [] := by
    intro hh
    cases hl with
    | inl hl => exact hl
    | inr hl => exact hl.trans hh
  refine ⟨h.sb, ?_, ?_, ?_, ⟨lh.length, ?_, ?_⟩, ?_, ?_, ?_, h.count, h.ops, h.quiet, h.alone, ?_,
    ?_, h.unpinned, ?_⟩
  · change lh.Nodup
    cases hl with
    | inl hl => simp [hl]
    | inr hl => exact hl ▸ h.recov.nodup
  · intro n hn
    change n ∈ lh at hn
    cases hl with
    | inl hl => simp [hl] at hn
    | inr hl =>
      rw [hl] at hn
      exact ⟨h.recov.out n hn, decodeHead_lt _ n hn⟩
  · change lh.length < c.log.size ∧ lh.length ≤ LOGSIZE
    cases hl with
    | inl hl => simp [hl, hsize]
    | inr hl => exact hl ▸ h.recov.room
  · change c.pinned = lh.drop lh.length
    simp [hp]
  · intro hh
    simp [hempty hh]
  · cases hl with
    | inl hl => exact .inr (.inl hl)
    | inr hl => exact .inr (.inr hl.symm)
  · exact h.stale
  · exact ⟨h.recov.nodup, h.recov.out, h.recov.room, h.recov.rest, h.recov.copy⟩
  · intro hn
    rw [show c.mode = none from hn] at hm
    cases hm
  · refine ⟨h.traced.past, ?_, ?_, h.traced.running, h.traced.together, h.traced.commits,
      h.traced.once, h.traced.closed⟩
    · intro r hr he
      exact absurd he (hnow r hr)
    · intro n hn hh
      change n ∈ lh at hn
      simp [hempty hh] at hn
  · intro n hn
    obtain ⟨_, hhead, hin, hrec⟩ := h.torn n hn
    cases ht with
    | inl ht => exact ⟨by simp [Core.setHead, ht], hhead, hin, hrec⟩
    | inr ht => exact absurd (ht ▸ hm) (hrec p)

/-- The thread is about to leave the log's code. -/
structure Finished (b : Bool) (p : Pid) (c : Core) : Prop where
  mode : c.mode = some (b, p)
  header : c.header = []
  lh : c.log.lh = []
  settled : c.Settled

/-- After install_trans(): forget the list and clear the header on disk. -/
theorem clear_safe {t : Nat} (hi : Installing b p t c) (ht : c.log.lh.length ≤ t)
    (hnow : ∀ r ∈ c.logs, r.epoch ≠ c.epoch) (h : At p c [] [] m) :
    (among p).Safe (do Prog.atomic (fun s => .ok () (setHead [] s)); writeHead p)
      (fun _ m => ∃ c', Finished b p c' ∧ At p c' [] [] m) m := by
  have hinv : CoreInv c := h.core ▸ h.coherent.core
  have hpin : c.pinned = [] := by
    rw [hi.pinned]
    cases b with
    | true => rfl
    | false => exact List.drop_eq_nil_of_le ht
  have hinv' : CoreInv (c.setHead []) := hinv.setHead hi.mode (.inl rfl) (.inl rfl) hpin hnow
  have hhome : ∀ n ∈ c.header, c.disk n = c.committed n := by
    intro n hn
    rw [hi.header] at hn
    obtain ⟨i, hlt, he⟩ := List.getElem_of_mem hn
    exact hi.home i (by omega) n (List.getElem?_eq_some_iff.mpr ⟨hlt, he⟩)
  have hclear : ∀ d, decodeHead d = [] →
      ((c.setHead []).put c.log.start d).header = [] := by
    intro d hd
    simpa [Core.header, Core.put, Core.setHead] using hd
  have hwrite : ∀ d, decodeHead d = [] →
      (c.setHead []).write c.log.start d = (c.setHead []).put c.log.start d :=
    fun d hd => Core.write_put _ _ _ (fun _ => hclear d hd)
  apply Surroundings.Safe.bind
  refine h.step (fun m h => among_ok ?_)
  refine (writeHead_safe (h.setHead [] hinv') hi.mode ?_).mono _ ?_
  · intro d hd
    change CoreInv ((c.setHead []).write c.log.start d)
    rw [hwrite d hd]
    exact hinv'.put_clear hi.mode rfl hd hhome
  · intro _ m hm
    obtain ⟨d, hd, h⟩ := hm
    change At p ((c.setHead []).write c.log.start d) [] [] m at h
    rw [hwrite d hd] at h
    exact ⟨(c.setHead []).put _ d, ⟨hi.mode, hclear d hd, rfl, hi.settled⟩, h⟩

/-- The thread leaves the log's code with log.committing clear. -/
theorem Finished.idle (hf : Finished b p c) (h : At p c [] [] m) :
    Coherent { m with
      thread := .idle
      blk := { m.blk with log := { m.blk.log with committing := false } } } := by
  have hcore := h.core
  subst c
  have hinv := h.coherent.core
  have hhome : ∀ n, ¬ m.blk.log.InLog n → m.blk.disk n = m.logical n := by
    intro n hn
    have hrest := hinv.recov.rest n hn (by rw [show decodeHead _ = [] from hf.header]; simp)
    exact hrest.trans (hf.settled n hn).symm
  have hpin : m.core.pinned = [] := by
    obtain ⟨k, hk, _⟩ := hinv.pinned
    rw [hk, hf.lh]
    simp
  refine ⟨h.coherent.cache, ⟨hinv.sb, hinv.nodup, hinv.out, hinv.room, hinv.pinned, hinv.head, ?_,
    ⟨hinv.recov.nodup, hinv.recov.out, hinv.recov.room, hinv.recov.rest, hinv.recov.copy⟩,
    hinv.count, hinv.ops, ?_, ?_, ?_, ?_, fun q hq => (by cases hq), ?_⟩, h.coherent.small,
    h.coherent.pins, ?_, h.coherent.dirty⟩
  · intro n hn _
    exact hhome n hn
  · constructor
    · intro hx
      cases hx
    · intro hx
      obtain ⟨q, hq⟩ := hx
      cases hq
  · intro hx
    exact absurd rfl hx
  · intro _
    exact ⟨hf.header, fun _ => hf.lh⟩
  · exact ⟨hinv.traced.past, hinv.traced.now, hinv.traced.listed, hinv.traced.running,
      hinv.traced.together, hinv.traced.commits, hinv.traced.once,
      hinv.traced.closed⟩
  · intro n hn
    obtain ⟨hlh, hhead, hin, _⟩ := hinv.torn n hn
    exact ⟨hlh, hhead, hin, fun q hq => by cases hq⟩
  · intro i hv hd hn _ ht
    have hdata := h.coherent.data i hv hd hn ?_ ht
    · refine hdata.trans ?_
      by_cases hin : m.blk.log.InLog (m.blk.bc.buf i).blockno
      · exact (if_pos hin).trans (if_pos hin).symm
      · have hview := hinv.stale _ hin (by rw [hpin]; simp)
        exact (if_neg hin).trans ((hview.symm.trans (hhome _ hin)).trans (if_neg hin).symm)
    · intro hw
      obtain ⟨r, q, hq, hl, _⟩ := hw
      cases hf.mode.symm.trans hq
      exact absurd (h.locks i hl) (by simp)

theorem readHead_safe (hm : c.mode = some (true, p)) (hlh : c.log.lh = []) (hp : c.pinned = [])
    (h : At p c [] [] m) :
    (among p).Safe (readHead p) (fun _ => At p (c.setHead c.header) [] []) m := by
  have hinv : CoreInv c := h.core ▸ h.coherent.core
  have hnow : ∀ r ∈ c.logs, r.epoch ≠ c.epoch := by
    intro r hr he
    have := (hinv.traced.now r hr he).2
    simp [hlh] at this
  have hinv' := hinv.setHead hm (.inr rfl) (.inr rfl) hp hnow
  apply Surroundings.Safe.bind
  refine (h.breadOf (fun l => l.start) (.inl hinv.start_inLog)).mono _ ?_
  intro buf m h
  rw [c.content_recovering hm] at h
  apply Surroundings.Safe.bind
  refine h.step (fun m h => among_ok ?_)
  obtain ⟨_, _, _, _, hdata⟩ := h.holds _ List.mem_cons_self
  have hread : decodeHead (m.blk.bc.buf buf).data = c.header := congrArg decodeHead hdata
  rw [hread]
  refine (h.setHead _ hinv').brelse hm ?_
  exact (Core.content_recovering (c.setHead _) hm _).symm

/-- Recovery: whatever others read meanwhile, it ends with the log empty. -/
theorem recoverFromLog_safe (hm : c.mode = some (true, p)) (hlh : c.log.lh = [])
    (hp : c.pinned = []) (hl : c.Settled) (h : At p c [] [] m) :
    (among p).Safe (recoverFromLog p) (fun _ m => Coherent { m with thread := .idle }) m := by
  have hinv : CoreInv c := h.core ▸ h.coherent.core
  apply Surroundings.Safe.bind
  refine (readHead_safe hm hlh hp h).mono _ ?_
  intro _ m h
  have hi : Installing true p 0 (c.setHead c.header) :=
    ⟨hm, rfl, hl, hp, fun i hi => absurd hi (Nat.not_lt_zero i)⟩
  apply Surroundings.Safe.bind
  refine (forTail_safe installBody_safe hi h ?_).mono _ ?_
  · rw [Nat.zero_add]
    exact hinv.recov.room.2
  intro _ m hx
  obtain ⟨t, c', hi, ht, _, h⟩ := hx
  have hnow : ∀ r ∈ c'.logs, r.epoch ≠ c'.epoch := by
    intro r hr he
    have hinv' : CoreInv c' := h.core ▸ h.coherent.core
    obtain ⟨hempty, hmem⟩ := hinv'.traced.now r hr he
    rw [← hi.header, hempty] at hmem
    simp at hmem
  refine (clear_safe hi ht hnow h).mono _ ?_
  intro _ m hx
  obtain ⟨c', hf, h⟩ := hx
  have hidle := hf.idle h
  have hq : m.blk.log.committing = false := by
    have hquiet := h.coherent.core.quiet
    rw [h.core, hf.mode] at hquiet
    cases hc : m.blk.log.committing with
    | false => rfl
    | true =>
      obtain ⟨q, hq⟩ := hquiet.mp (by rw [← h.core]; exact hc)
      cases hq
  rwa [← hq] at hidle

/-- commit(): the blocks of log.lh go to the log, to the header and home. -/
theorem commit_safe (hm : c.mode = some (false, p)) (hh : c.header = [])
    (h : At p c [] [] m) :
    (among p).Safe (commit p) (fun _ m => ∃ c', Finished false p c' ∧ At p c' [] [] m) m := by
  have hinv : CoreInv c := h.core ▸ h.coherent.core
  apply Surroundings.Safe.bind
  refine h.step (fun m h => among_ok ?_)
  have hlog : m.blk.log = c.log := by
    rw [← h.core]
    rfl
  rw [record_eq rfl rfl, hlog]
  by_cases hn : c.log.lh.length > 0
  · rw [if_pos hn]
    have hne : c.log.lh ≠ [] := List.ne_nil_of_length_pos hn
    have hw : Writing p 0 c := ⟨hm, hh, fun i hi => absurd hi (Nat.not_lt_zero i)⟩
    apply Surroundings.Safe.bind
    refine (forTail_safe writeLogBody_safe hw h ?_).mono _ ?_
    · rw [Nat.zero_add]
      exact hinv.room.2
    intro _ m hx
    obtain ⟨t, c₁, hw, ht, hlog, h⟩ := hx
    have hinv₁ : CoreInv c₁ := h.core ▸ h.coherent.core
    have hcopied : ∀ i n, c₁.log.lh[i]? = some n →
        c₁.disk (c₁.log.start + i + 1) = c₁.logical n := by
      intro i n hi
      have hlt := (List.getElem?_eq_some_iff.mp hi).1
      exact hw.copied i (by omega) n hi
    have hcommit := fun d (hd : decodeHead d = c₁.log.lh) =>
      hinv₁.write_commit hw.mode hw.header hd (by rw [hlog]; exact hne) hcopied
    apply Surroundings.Safe.bind
    refine (writeHead_safe h hw.mode (fun d hd => (hcommit d hd).1)).mono _ ?_
    intro _ m hx
    obtain ⟨d, hd, h⟩ := hx
    obtain ⟨_, hwrite, hhead, hpin⟩ := hcommit d hd
    rw [hwrite] at h
    have hi : Installing false p 0 (c₁.put c₁.log.start d).commit :=
      ⟨hw.mode, hhead, fun _ _ => rfl, hpin, fun i hi => absurd hi (Nat.not_lt_zero i)⟩
    apply Surroundings.Safe.bind
    refine (forTail_safe installBody_safe hi h ?_).mono _ ?_
    · rw [Nat.zero_add]
      exact hinv₁.room.2
    intro _ m hx
    obtain ⟨t, c₂, hi, ht, hlog₂, h⟩ := hx
    refine clear_safe hi ht ?_ h
    intro r hr he
    have hinv₂ : CoreInv c₂ := h.core ▸ h.coherent.core
    have hempty := (hinv₂.traced.now r hr he).1
    rw [hi.header, hlog₂] at hempty
    exact hne (hlog ▸ hempty)
  · rw [if_neg hn]
    have hempty : c.log.lh = [] := List.eq_nil_of_length_eq_zero (by omega)
    refine ⟨c, ⟨hm, hh, hempty, ?_⟩, h⟩
    -- Nothing was logged, so the disk still holds the last commit.
    intro n hn
    obtain ⟨k, hk, _⟩ := hinv.pinned
    have hstale := hinv.stale n hn (by rw [hk, hempty]; simp)
    have hrest := hinv.recov.rest n hn (by rw [show decodeHead _ = [] from hh]; simp)
    rw [c.view_committing hm] at hstale
    exact hstale.symm.trans hrest

/-- end_op() after it has set log.committing. -/
theorem endOpCommit_safe (hm : c.mode = some (false, p)) (hh : c.header = [])
    (h : At p c [] [] m) :
    (among p).Safe (endOpCommit p) (fun _ m => Coherent { m with thread := .idle }) m := by
  apply Surroundings.Safe.bind
  refine (commit_safe hm hh h).mono _ ?_
  intro _ m hx
  obtain ⟨c', hf, h⟩ := hx
  refine h.step (fun m h => among_ok ?_)
  rw [record_eq (t := { m.blk with log := { m.blk.log with committing := false } }) rfl rfl]
  exact hf.idle (m := m) h

end Xv6
