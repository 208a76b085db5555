import Xv6.Proofs.Coherent

namespace Xv6

/-- What process `p` keeps while somebody else uses the cache: its references with
the blocks they stand for, its locks, and the content of what it has locked. -/
structure Apart (p : Pid) (s t : Blk) : Prop where
  refs : ∀ j, t.bc.users.count (p, j) = s.bc.users.count (p, j)
  ident : ∀ j, 0 < s.bc.users.count (p, j) → (t.bc.buf j).dev = (s.bc.buf j).dev ∧
    (t.bc.buf j).blockno = (s.bc.buf j).blockno
  lock : ∀ j, (t.bc.buf j).lock = some p ↔ (s.bc.buf j).lock = some p
  held : ∀ j, (s.bc.buf j).lock = some p → (t.bc.buf j).valid = (s.bc.buf j).valid ∧
    (t.bc.buf j).data = (s.bc.buf j).data

theorem Apart.refl (p : Pid) (s : Blk) : Apart p s s :=
  ⟨fun _ => rfl, fun _ _ => ⟨rfl, rfl⟩, fun _ => Iff.rfl, fun _ _ => ⟨rfl, rfl⟩⟩

theorem Apart.trans {p : Pid} {s t u : Blk} (h : Apart p s t) (h' : Apart p t u) :
    Apart p s u := by
  refine ⟨?_, ?_, ?_, ?_⟩
  · intro j
    rw [h'.refs, h.refs]
  · intro j hj
    have hi := h.ident j hj
    have hi' := h'.ident j (by rw [h.refs]; exact hj)
    exact ⟨hi'.1.trans hi.1, hi'.2.trans hi.2⟩
  · intro j
    exact (h'.lock j).trans (h.lock j)
  · intro j hj
    have hd := h.held j hj
    have hd' := h'.held j ((h.lock j).mpr hj)
    exact ⟨hd'.1.trans hd.1, hd'.2.trans hd.2⟩

theorem core_eq {m : Machine} {t : Blk} (hd : t.disk = m.blk.disk) (hl : t.log = m.blk.log)
    (hp : t.bc.pins = m.blk.bc.pins)
    (hb : ∀ i ∈ m.blk.bc.pins, (t.bc.buf i).blockno = (m.blk.bc.buf i).blockno) :
    ({ m with blk := t } : Machine).core = m.core := by
  unfold Machine.core Machine.mode
  simp only [hd, hl, hp, Core.mk.injEq, true_and, and_true]
  exact List.map_congr_left hb

section Bget
variable {m : Machine} {q : Pid} {n : Nat} {i : BufId} {t : Blk}

theorem bget_core (h : Coherent m) (hg : Got q ROOTDEV n m.blk i t) :
    ({ m with blk := t } : Machine).core = m.core := by
  apply core_eq hg.disk hg.log hg.pins
  intro j hj
  exact (hg.keeps j (h.cache.pinned_pos hj)).2.1

theorem bget_coherent (h : Coherent m) (hg : Got q ROOTDEV n m.blk i t)
    (hn : ¬ m.blk.log.InLog n → n < 2 ^ 32) : Coherent { m with blk := t } := by
  have hcore := bget_core h hg
  refine ⟨hg.cache h.cache, hcore ▸ h.core, ?_, ?_, ?_, ?_⟩
  · intro j hd hout
    change ¬ t.log.InLog (t.bc.buf j).blockno at hout
    rw [hg.log] at hout
    by_cases hj : j = i
    · subst j
      change (t.bc.buf i).blockno < 2 ^ 32
      rw [hg.ident.2] at hout ⊢
      exact hn hout
    · change (t.bc.buf j).dev = ROOTDEV at hd
      change (t.bc.buf j).blockno < 2 ^ 32
      rw [hg.other j hj] at hd hout ⊢
      exact h.small j hd hout
  · intro j hj
    change j ∈ t.bc.pins at hj
    rw [hg.pins] at hj
    obtain ⟨hdev, _, hval, _⟩ := hg.keeps j (h.cache.pinned_pos hj)
    obtain ⟨hv, hd⟩ := h.pins j hj
    exact ⟨hval.trans hv, hdev.trans hd⟩
  · intro j hv hd hj hl htorn
    obtain ⟨hdev, hno, hval, hdata⟩ := hg.was j hv
    change (t.bc.buf j).blockno ∉ m.torn at htorn
    change (t.bc.buf j).data = _
    rw [hcore, hdata]
    change _ = m.core.content (t.bc.buf j).blockno
    rw [hno] at htorn ⊢
    refine h.data j hval (hdev.symm.trans hd) hj ?_ htorn
    intro hw
    exact hl (hcore ▸ hw.of_same (hg.lock j) hno)
  · intro j hj
    obtain ⟨p, op, hl, hp⟩ := h.dirty j hj
    exact ⟨p, op, (hg.lock j).trans hl, hp⟩

theorem bget_apart (h : Coherent m) (hg : Got q ROOTDEV n m.blk i t) {p : Pid} (hp : p ≠ q) :
    Apart p m.blk t := by
  have pos : ∀ j, 0 < m.blk.bc.users.count (p, j) → 0 < (m.blk.bc.buf j).refcnt :=
    fun j hj => h.cache.refcnt_pos (List.count_pos_iff.mp hj)
  refine ⟨?_, ?_, ?_, ?_⟩
  · intro j
    rw [hg.users, List.count_cons_of_ne]
    rintro ⟨⟩
    exact hp rfl
  · intro j hj
    have hk := hg.keeps j (pos j hj)
    exact ⟨hk.1, hk.2.1⟩
  · intro j
    rw [hg.lock j]
  · intro j hl
    exact (hg.keeps j (h.cache.refcnt_pos (h.cache.held j p hl))).2.2

end Bget

/-- An update of one buffer that keeps its block. -/
theorem set_core (m : Machine) (i : BufId) (f : Buf → Buf)
    (hf : ∀ b, (f b).dev = b.dev ∧ (f b).blockno = b.blockno) :
    ({ m with blk := m.blk.setBuf i f } : Machine).core = m.core :=
  core_eq (m := m) (t := m.blk.setBuf i f) rfl rfl rfl
    (fun j _ => (m.blk.bc.set_ident i f hf j).2)

theorem set_apart (s : Blk) (i : BufId) (f : Buf → Buf) {p : Pid}
    (hf : ∀ b, (f b).dev = b.dev ∧ (f b).blockno = b.blockno)
    (hl : (s.bc.buf i).lock ≠ some p) (hl' : (f (s.bc.buf i)).lock ≠ some p) :
    Apart p s (s.setBuf i f) := by
  refine ⟨fun _ => rfl, fun j _ => s.bc.set_ident i f hf j, ?_, ?_⟩
  · intro j
    by_cases hj : j = i
    · subst j
      simp [Blk.setBuf, hl, hl']
    · simp [Blk.setBuf, Bcache.set_other _ _ _ hj]
  · intro j hj
    have hji : j ≠ i := by
      rintro rfl
      exact hl hj
    simp [Blk.setBuf, Bcache.set_other _ _ _ hji]

/-- Updating one buffer keeps the invariant if its content is right afterwards. -/
theorem set_coherent {m : Machine} (h : Coherent m) (i : BufId) (f : Buf → Buf)
    (hf : ∀ b, (f b).dev = b.dev ∧ (f b).blockno = b.blockno)
    (hr : ∀ b, (f b).refcnt = b.refcnt)
    (hk : ∀ p, (f (m.blk.bc.buf i)).lock = some p → (p, i) ∈ m.blk.bc.users)
    (hv : (m.blk.bc.buf i).valid = true → (f (m.blk.bc.buf i)).valid = true)
    (hd : (f (m.blk.bc.buf i)).valid = true → (m.blk.bc.buf i).dev = ROOTDEV → i ∉ m.dirty →
      ¬ m.core.Writes (f (m.blk.bc.buf i)) → (m.blk.bc.buf i).blockno ∉ m.torn →
      (f (m.blk.bc.buf i)).data = m.core.content (m.blk.bc.buf i).blockno)
    (hdirty : i ∈ m.dirty → (f (m.blk.bc.buf i)).lock = (m.blk.bc.buf i).lock)
    (hnew : (f (m.blk.bc.buf i)).valid = true →
      (m.blk.bc.buf i).valid = true ∨ ∃ p, (p, i) ∈ m.blk.bc.users) :
    Coherent { m with blk := m.blk.setBuf i f } := by
  have hcore := set_core m i f hf
  have hid := m.blk.bc.set_ident i f hf
  refine ⟨h.cache.set i f hf hr hk hnew, hcore ▸ h.core, ?_, ?_, ?_, ?_⟩
  · intro j hj hout
    change ((m.blk.bc.set i f).buf j).dev = ROOTDEV at hj
    change ¬ m.blk.log.InLog ((m.blk.bc.set i f).buf j).blockno at hout
    change ((m.blk.bc.set i f).buf j).blockno < 2 ^ 32
    rw [(hid j).1] at hj
    rw [(hid j).2] at hout ⊢
    exact h.small j hj hout
  · intro j hj
    obtain ⟨hjv, hjd⟩ := h.pins j hj
    refine ⟨?_, (hid j).1.trans hjd⟩
    change ((m.blk.bc.set i f).buf j).valid = true
    by_cases he : j = i
    · subst j
      simpa using hv hjv
    · simpa [Bcache.set_other _ _ _ he] using hjv
  · intro j hjv hjd hjn hjl htorn
    rw [hcore]
    change ((m.blk.bc.set i f).buf j).blockno ∉ m.torn at htorn
    change ((m.blk.bc.set i f).buf j).data = m.core.content ((m.blk.bc.set i f).buf j).blockno
    change ((m.blk.bc.set i f).buf j).valid = true at hjv
    change ((m.blk.bc.set i f).buf j).dev = ROOTDEV at hjd
    rw [(hid j).1] at hjd
    rw [(hid j).2] at htorn ⊢
    by_cases he : j = i
    · subst j
      simp only [Bcache.set_same] at hjv ⊢
      refine hd hjv hjd hjn ?_ htorn
      intro hw
      apply hjl
      rw [hcore]
      simpa [Blk.setBuf] using hw
    · rw [Bcache.set_other _ _ _ he] at hjv ⊢
      refine h.data j hjv hjd hjn ?_ htorn
      intro hw
      apply hjl
      rw [hcore]
      simpa [Blk.setBuf, Bcache.set_other _ _ _ he] using hw
  · intro j hj
    obtain ⟨p, op, hl, hp⟩ := h.dirty j hj
    refine ⟨p, op, ?_, hp⟩
    change ((m.blk.bc.set i f).buf j).lock = some p
    by_cases he : j = i
    · subst j
      rw [Bcache.set_same, hdirty hj, hl]
    · rw [Bcache.set_other _ _ _ he, hl]

section Actions
variable {m : Machine} {q : Pid} {i : BufId}

theorem acquire_coherent (h : Coherent m) (hu : (q, i) ∈ m.blk.bc.users)
    (hl : (m.blk.bc.buf i).lock = none) :
    Coherent { m with blk := m.blk.setBuf i (fun b => { b with lock := some q }) } := by
  refine set_coherent h i _ (fun _ => ⟨rfl, rfl⟩) (fun _ => rfl) ?_ (fun hv => hv) ?_ ?_ .inl
  · intro p hp
    cases hp
    exact hu
  · intro hv hd hn _ htorn
    exact h.data i hv hd hn (Core.not_writes hl) htorn
  · intro hn
    obtain ⟨p, op, hp, _⟩ := h.dirty i hn
    rw [hl] at hp
    cases hp

theorem acquire_apart (hl : (m.blk.bc.buf i).lock = none) {p : Pid} (hp : p ≠ q) :
    Apart p m.blk (m.blk.setBuf i (fun b => { b with lock := some q })) := by
  refine set_apart m.blk i _ (fun _ => ⟨rfl, rfl⟩) (by simp [hl]) ?_
  intro he
  cases he
  exact hp rfl

theorem fill_coherent (h : Coherent m) (hl : (m.blk.bc.buf i).lock = some q)
    (hv : (m.blk.bc.buf i).valid = false) :
    Coherent { m with blk := m.blk.setBuf i (fun b =>
      { b with data := m.blk.disk b.blockno, valid := true }) } := by
  refine set_coherent h i _ (fun _ => ⟨rfl, rfl⟩) (fun _ => rfl)
    (fun p hp => h.cache.held i p hp) (fun _ => rfl) ?_ (fun _ => rfl)
    (fun _ => .inr ⟨q, h.cache.held i q hl⟩)
  intro _ hd _ _ _
  exact h.disk_content hv hd

theorem fill_apart (hl : (m.blk.bc.buf i).lock = some q) {p : Pid} (hp : p ≠ q) :
    Apart p m.blk (m.blk.setBuf i (fun b =>
      { b with data := m.blk.disk b.blockno, valid := true })) := by
  have hne : (m.blk.bc.buf i).lock ≠ some p := by
    rw [hl]
    rintro ⟨⟩
    exact hp rfl
  exact set_apart m.blk i _ (fun _ => ⟨rfl, rfl⟩) hne hne

theorem release_coherent (h : Coherent m) (hn : i ∉ m.dirty)
    (hd : (m.blk.bc.buf i).valid = true → (m.blk.bc.buf i).dev = ROOTDEV →
      (m.blk.bc.buf i).blockno ∉ m.torn → (m.blk.bc.buf i).data = m.core.content (m.blk.bc.buf i).blockno) :
    Coherent { m with blk := m.blk.setBuf i (fun b => { b with lock := none }) } := by
  refine set_coherent h i _ (fun _ => ⟨rfl, rfl⟩) (fun _ => rfl) ?_ (fun hv => hv) ?_ ?_ .inl
  · intro p hp
    cases hp
  · intro hv hdev _ _ htorn
    exact hd hv hdev htorn
  · intro hi
    exact absurd hi hn

theorem release_apart (hl : (m.blk.bc.buf i).lock = some q) {p : Pid} (hp : p ≠ q) :
    Apart p m.blk (m.blk.setBuf i (fun b => { b with lock := none })) := by
  refine set_apart m.blk i _ (fun _ => ⟨rfl, rfl⟩) ?_ (by simp)
  rw [hl]
  rintro ⟨⟩
  exact hp rfl

end Actions

section Put
variable {m : Machine} {q : Pid} {i : BufId} {t : Blk}

/-- brelse() at its end changes only the count, the list and the references. -/
theorem put_same (ht : brelsePut q i m.blk = .ok () t) (j : BufId) :
    (t.bc.buf j).dev = (m.blk.bc.buf j).dev ∧ (t.bc.buf j).blockno = (m.blk.bc.buf j).blockno ∧
    (t.bc.buf j).valid = (m.blk.bc.buf j).valid ∧ (t.bc.buf j).data = (m.blk.bc.buf j).data ∧
    (t.bc.buf j).lock = (m.blk.bc.buf j).lock := by
  simp only [brelsePut, Out.ok.injEq, true_and] at ht
  subst t
  by_cases hj : j = i
  · subst j
    simp
  · simp [Bcache.set_other _ _ _ hj]

theorem put_frame (ht : brelsePut q i m.blk = .ok () t) :
    t.disk = m.blk.disk ∧ t.log = m.blk.log ∧ t.bc.pins = m.blk.bc.pins ∧
    t.bc.users = m.blk.bc.users.erase (q, i) := by
  simp only [brelsePut, Out.ok.injEq, true_and] at ht
  subst t
  exact ⟨rfl, rfl, rfl, rfl⟩

theorem put_core (ht : brelsePut q i m.blk = .ok () t) :
    ({ m with blk := t } : Machine).core = m.core := by
  obtain ⟨hd, hl, hp, _⟩ := put_frame ht
  exact core_eq hd hl hp (fun j _ => (put_same ht j).2.1)

theorem put_coherent (h : Coherent m) (hu : (q, i) ∈ m.blk.bc.users)
    (hk : (m.blk.bc.buf i).lock ≠ some q) (ht : brelsePut q i m.blk = .ok () t) :
    Coherent { m with blk := t } := by
  have hcore := put_core ht
  obtain ⟨_, hlog, hpins, _⟩ := put_frame ht
  refine ⟨h.cache.put hu hk ht, hcore ▸ h.core, ?_, ?_, ?_, ?_⟩
  · intro j hj hout
    obtain ⟨hdev, hno, _⟩ := put_same ht j
    change (t.bc.buf j).blockno < 2 ^ 32
    change ¬ t.log.InLog (t.bc.buf j).blockno at hout
    rw [hlog, hno] at hout
    rw [hno]
    exact h.small j (hdev.symm.trans hj) hout
  · intro j hj
    obtain ⟨hdev, _, hval, _⟩ := put_same ht j
    change j ∈ t.bc.pins at hj
    rw [hpins] at hj
    obtain ⟨hv, hd⟩ := h.pins j hj
    exact ⟨hval.trans hv, hdev.trans hd⟩
  · intro j hjv hjd hjn hjl htorn
    obtain ⟨hdev, hno, hval, hdata, hlock⟩ := put_same ht j
    change (t.bc.buf j).blockno ∉ m.torn at htorn
    rw [hcore]
    change (t.bc.buf j).data = m.core.content (t.bc.buf j).blockno
    rw [hno] at htorn
    rw [hdata, hno]
    refine h.data j (hval.symm.trans hjv) (hdev.symm.trans hjd) hjn ?_ htorn
    intro hw
    exact hjl (hcore ▸ hw.of_same hlock hno)
  · intro j hj
    obtain ⟨p, op, hl, hp⟩ := h.dirty j hj
    exact ⟨p, op, (put_same ht j).2.2.2.2.trans hl, hp⟩

theorem put_apart (ht : brelsePut q i m.blk = .ok () t) {p : Pid} (hp : p ≠ q) :
    Apart p m.blk t := by
  refine ⟨?_, ?_, ?_, ?_⟩
  · intro j
    rw [(put_frame ht).2.2.2, List.count_erase_of_ne]
    rintro ⟨⟩
    exact hp rfl
  · intro j _
    obtain ⟨hdev, hno, _⟩ := put_same ht j
    exact ⟨hdev, hno⟩
  · intro j
    rw [(put_same ht j).2.2.2.2]
  · intro j _
    obtain ⟨_, _, hval, hdata, _⟩ := put_same ht j
    exact ⟨hval, hdata⟩

end Put

end Xv6
