import Xv6.Bio

namespace Xv6

theorem countP_erase_add [BEq α] [LawfulBEq α] (f : α → Bool) {l : List α} {a : α} (h : a ∈ l) :
    (l.erase a).countP f + (if f a then 1 else 0) = l.countP f := by
  induction l with
  | nil => simp at h
  | cons b l ih =>
    by_cases hb : b = a
    · subst b
      simp [List.countP_cons]
    · have ht : a ∈ l := by simpa [Ne.symm hb] using h
      rw [List.erase_cons_tail (by simpa using hb)]
      simp only [List.countP_cons]
      have := ih ht
      omega

/-- The cache between its critical sections, whatever the device. Device 0 marks a buffer that
was never used, so it is exempt from uniqueness. -/
structure Tidy (c : Bcache) : Prop where
  every : ∀ i, i ∈ c.lru
  one : ∀ i j, (c.buf i).dev ≠ 0 → (c.buf i).dev = (c.buf j).dev →
    (c.buf i).blockno = (c.buf j).blockno → i = j
  count : ∀ i, (c.buf i).refcnt = c.users.countP (fun x => x.2 == i) + c.pins.count i
  held : ∀ i p, (c.buf i).lock = some p → (p, i) ∈ c.users

/-- The same with the root device as the only one. -/
structure CacheInv (c : Bcache) : Prop where
  every : ∀ i, i ∈ c.lru
  one : ∀ i j, (c.buf i).dev ≠ 0 → (c.buf i).dev = (c.buf j).dev →
    (c.buf i).blockno = (c.buf j).blockno → i = j
  count : ∀ i, (c.buf i).refcnt = c.users.countP (fun x => x.2 == i) + c.pins.count i
  held : ∀ i p, (c.buf i).lock = some p → (p, i) ∈ c.users
  root : ∀ x ∈ c.users, (c.buf x.2).dev = ROOTDEV
  read : ∀ i, (c.buf i).valid = true → (c.buf i).dev = ROOTDEV

theorem binit_cache : CacheInv binit := by
  refine ⟨?_, ?_, ?_, ?_, ?_, ?_⟩
  · intro i
    simp [binit]
  · intro i j hi
    simp [binit] at hi
  · intro i
    simp [binit]
  · intro i p hl
    simp [binit] at hl
  · intro x hx
    simp [binit] at hx
  · intro i hv
    simp [binit] at hv

theorem CacheInv.tidy {c : Bcache} (h : CacheInv c) : Tidy c := ⟨h.every, h.one, h.count, h.held⟩

/-- An update that gives no buffer a new identity keeps the invariant if the counts,
the locks and the list still fit. -/
theorem Tidy.of_ident {c c' : Bcache} (h : Tidy c)
    (hb : ∀ i, (c'.buf i).dev = (c.buf i).dev ∧ (c'.buf i).blockno = (c.buf i).blockno)
    (hl : ∀ i, i ∈ c'.lru)
    (hc : ∀ i, (c'.buf i).refcnt = c'.users.countP (fun x => x.2 == i) + c'.pins.count i)
    (hk : ∀ i p, (c'.buf i).lock = some p → (p, i) ∈ c'.users) : Tidy c' := by
  refine ⟨hl, ?_, hc, hk⟩
  intro i j hi hd hn
  rw [(hb i).1] at hi hd
  rw [(hb j).1] at hd
  rw [(hb i).2, (hb j).2] at hn
  exact h.one i j hi hd hn

theorem CacheInv.of_ident {c c' : Bcache} (h : CacheInv c)
    (hb : ∀ i, (c'.buf i).dev = (c.buf i).dev ∧ (c'.buf i).blockno = (c.buf i).blockno)
    (hl : ∀ i, i ∈ c'.lru) (hu : ∀ x ∈ c'.users, x ∈ c.users)
    (hc : ∀ i, (c'.buf i).refcnt = c'.users.countP (fun x => x.2 == i) + c'.pins.count i)
    (hk : ∀ i p, (c'.buf i).lock = some p → (p, i) ∈ c'.users)
    (hv : ∀ i, (c'.buf i).valid = true → (c.buf i).valid = true ∨ ∃ p, (p, i) ∈ c.users) :
    CacheInv c' := by
  refine ⟨hl, (h.tidy.of_ident hb hl hc hk).one, hc, hk,
    fun x hx => (hb x.2).1.trans (h.root x (hu x hx)), ?_⟩
  intro i hi
  rw [(hb i).1]
  cases hv i hi with
  | inl hi => exact h.read i hi
  | inr hi =>
    obtain ⟨p, hp⟩ := hi
    exact h.root _ hp

theorem Bcache.set_ident (c : Bcache) (i : BufId) (f : Buf → Buf)
    (hf : ∀ b, (f b).dev = b.dev ∧ (f b).blockno = b.blockno) (j : BufId) :
    ((c.set i f).buf j).dev = (c.buf j).dev ∧ ((c.set i f).buf j).blockno = (c.buf j).blockno := by
  by_cases hj : j = i
  · subst j
    simpa using hf (c.buf i)
  · simp [Bcache.set_other c i f hj]

theorem Bcache.set_valid (c : Bcache) (i : BufId) (f : Buf → Buf)
    (hf : ∀ b, (f b).valid = b.valid) (j : BufId) :
    ((c.set i f).buf j).valid = (c.buf j).valid := by
  by_cases hj : j = i
  · subst j
    simpa using hf (c.buf i)
  · simp [Bcache.set_other c i f hj]

/-- Changing the lock or the content of one buffer. -/
theorem Tidy.set {c : Bcache} (h : Tidy c) (i : BufId) (f : Buf → Buf)
    (hf : ∀ b, (f b).dev = b.dev ∧ (f b).blockno = b.blockno) (hr : ∀ b, (f b).refcnt = b.refcnt)
    (hk : ∀ p, (f (c.buf i)).lock = some p → (p, i) ∈ c.users) : Tidy (c.set i f) := by
  apply h.of_ident (c.set_ident i f hf) h.every
  · intro j
    by_cases hj : j = i
    · subst j
      simpa [hr] using h.count i
    · simpa [Bcache.set_other c i f hj] using h.count j
  · intro j p hp
    by_cases hj : j = i
    · subst j
      exact hk p (by simpa using hp)
    · exact h.held j p (by simpa [Bcache.set_other c i f hj] using hp)

theorem CacheInv.set {c : Bcache} (h : CacheInv c) (i : BufId) (f : Buf → Buf)
    (hf : ∀ b, (f b).dev = b.dev ∧ (f b).blockno = b.blockno) (hr : ∀ b, (f b).refcnt = b.refcnt)
    (hk : ∀ p, (f (c.buf i)).lock = some p → (p, i) ∈ c.users)
    (hv : (f (c.buf i)).valid = true → (c.buf i).valid = true ∨ ∃ p, (p, i) ∈ c.users) :
    CacheInv (c.set i f) := by
  have ht := h.tidy.set i f hf hr hk
  refine h.of_ident (c.set_ident i f hf) h.every (fun _ hx => hx) ht.count ht.held ?_
  intro j hj
  by_cases he : j = i
  · subst j
    exact hv (by simpa using hj)
  · exact .inl (by simpa [Bcache.set_other c i f he] using hj)

theorem Tidy.refcnt_pos {c : Bcache} (h : Tidy c) {i : BufId} {p : Pid}
    (hu : (p, i) ∈ c.users) : 0 < (c.buf i).refcnt := by
  have := h.count i
  have : 0 < c.users.countP (fun x => x.2 == i) :=
    List.countP_pos_iff.mpr ⟨(p, i), hu, by simp⟩
  omega

theorem CacheInv.refcnt_pos {c : Bcache} (h : CacheInv c) {i : BufId} {p : Pid}
    (hu : (p, i) ∈ c.users) : 0 < (c.buf i).refcnt := h.tidy.refcnt_pos hu

theorem cached_some {s : Blk} {dev n : Nat} {i : BufId} (h : s.cached dev n = some i) :
    (s.bc.buf i).dev = dev ∧ (s.bc.buf i).blockno = n := by
  simpa using List.find?_some h

theorem cached_none {s : Blk} {dev n : Nat} (h : s.cached dev n = none)
    (hc : Tidy s.bc) (i : BufId) : ¬ ((s.bc.buf i).dev = dev ∧ (s.bc.buf i).blockno = n) := by
  simpa using List.find?_eq_none.mp h i (hc.every i)

/-- All that bget() does before it waits for the buffer's lock. -/
structure Got (p : Pid) (dev n : Nat) (s : Blk) (i : BufId) (t : Blk) : Prop where
  disk : t.disk = s.disk
  log : t.log = s.log
  lru : t.bc.lru = s.bc.lru
  pins : t.bc.pins = s.bc.pins
  users : t.bc.users = (p, i) :: s.bc.users
  other : ∀ j, j ≠ i → t.bc.buf j = s.bc.buf j
  this : (s.cached dev n = some i ∧
      t.bc.buf i = (s.bc.buf i).ref) ∨
    (s.cached dev n = none ∧ (s.bc.buf i).refcnt = 0 ∧
      t.bc.buf i = { s.bc.buf i with dev := dev, blockno := n, valid := false, refcnt := 1 })

theorem bgetScan_got {p : Pid} {dev n : Nat} {s t : Blk} {i : BufId}
    (h : bgetScan p dev n s = .ok i t) : Got p dev n s i t := by
  unfold bgetScan at h
  cases hc : s.cached dev n with
  | some j =>
    simp only [hc, Out.ok.injEq] at h
    obtain ⟨rfl, rfl⟩ := h
    exact ⟨rfl, rfl, rfl, rfl, rfl, fun k hk => by simp [Bcache.set_other _ _ _ hk],
      .inl ⟨hc, by simp⟩⟩
  | none =>
    simp only [hc] at h
    cases hu : s.unused with
    | some j =>
      simp only [hu, Out.ok.injEq] at h
      obtain ⟨rfl, rfl⟩ := h
      have h0 : (s.bc.buf j).refcnt = 0 := by simpa using List.find?_some hu
      exact ⟨rfl, rfl, rfl, rfl, rfl, fun k hk => by simp [Bcache.set_other _ _ _ hk],
        .inr ⟨hc, h0, by simp⟩⟩
    | none => simp [hu] at h

theorem bgetScan_fail {p : Pid} {dev n : Nat} {s : Blk} {e : Panic}
    (h : bgetScan p dev n s = .fail e) : e = .bgetNoBuffers ∧ s.unused = none := by
  unfold bgetScan at h
  cases hc : s.cached dev n with
  | some j => simp [hc] at h
  | none =>
    cases hu : s.unused with
    | some j => simp [hc, hu] at h
    | none => exact ⟨by simpa [hc, hu] using h.symm, rfl⟩

namespace Got
variable {p : Pid} {dev n : Nat} {s t : Blk} {i : BufId}

theorem ident (h : Got p dev n s i t) : (t.bc.buf i).dev = dev ∧ (t.bc.buf i).blockno = n := by
  rcases h.this with ⟨hc, hb⟩ | ⟨_, _, hb⟩
  · rw [hb]
    exact cached_some hc
  · rw [hb]
    exact ⟨rfl, rfl⟩

theorem lock (h : Got p dev n s i t) (j : BufId) : (t.bc.buf j).lock = (s.bc.buf j).lock := by
  by_cases hj : j = i
  · subst j
    rcases h.this with ⟨_, hb⟩ | ⟨_, _, hb⟩ <;> simp [hb]
  · rw [h.other j hj]

/-- A buffer somebody counts on keeps its block and its content. -/
theorem keeps (h : Got p dev n s i t) (j : BufId) (hj : 0 < (s.bc.buf j).refcnt) :
    (t.bc.buf j).dev = (s.bc.buf j).dev ∧ (t.bc.buf j).blockno = (s.bc.buf j).blockno ∧
    (t.bc.buf j).valid = (s.bc.buf j).valid ∧ (t.bc.buf j).data = (s.bc.buf j).data := by
  by_cases he : j = i
  · subst j
    rcases h.this with ⟨_, hb⟩ | ⟨_, h0, _⟩
    · rw [hb]
      exact ⟨rfl, rfl, rfl, rfl⟩
    · omega
  · rw [h.other j he]
    exact ⟨rfl, rfl, rfl, rfl⟩

/-- A buffer that is valid afterwards was so before, for the same block. -/
theorem was (h : Got p dev n s i t) (j : BufId) (hv : (t.bc.buf j).valid = true) :
    (t.bc.buf j).dev = (s.bc.buf j).dev ∧ (t.bc.buf j).blockno = (s.bc.buf j).blockno ∧
    (s.bc.buf j).valid = true ∧ (t.bc.buf j).data = (s.bc.buf j).data := by
  by_cases he : j = i
  · subst j
    rcases h.this with ⟨_, hb⟩ | ⟨_, _, hb⟩
    · rw [hb] at hv ⊢
      exact ⟨rfl, rfl, hv, rfl⟩
    · simp [hb] at hv
  · rw [h.other j he] at hv ⊢
    exact ⟨rfl, rfl, hv, rfl⟩

theorem count (h : Got p dev n s i t) (hc : Tidy s.bc) (j : BufId) :
    (t.bc.buf j).refcnt = t.bc.users.countP (fun x => x.2 == j) + t.bc.pins.count j := by
  have hj := hc.count j
  rw [h.users, h.pins, List.countP_cons]
  by_cases he : j = i
  · subst j
    rcases h.this with ⟨_, hb⟩ | ⟨_, h0, hb⟩ <;> simp only [hb] <;> simp <;> omega
  · have : ¬ i = j := fun h => he h.symm
    rw [h.other j he]
    simp [this]
    omega

theorem tidy (h : Got p dev n s i t) (hc : Tidy s.bc) : Tidy t.bc := by
  refine ⟨?_, ?_, h.count hc, ?_⟩
  · intro j
    rw [h.lru]
    exact hc.every j
  · intro j k hj he hn
    -- Only the buffer just taken can have a new identity, and then nobody had it.
    rcases h.this with ⟨_, hb⟩ | ⟨hnone, _, _⟩
    · have same : ∀ j, (t.bc.buf j).dev = (s.bc.buf j).dev ∧
          (t.bc.buf j).blockno = (s.bc.buf j).blockno := by
        intro j
        by_cases hji : j = i
        · subst j
          rw [hb]
          exact ⟨rfl, rfl⟩
        · rw [h.other j hji]
          exact ⟨rfl, rfl⟩
      rw [(same j).1] at hj he
      rw [(same k).1] at he
      rw [(same j).2, (same k).2] at hn
      exact hc.one j k hj he hn
    · by_cases hji : j = i
      · by_cases hki : k = i
        · rw [hji, hki]
        · subst j
          rw [h.ident.1, h.other k hki] at he
          rw [h.ident.2, h.other k hki] at hn
          exact absurd ⟨he.symm, hn.symm⟩ (cached_none hnone hc k)
      · by_cases hki : k = i
        · subst k
          rw [h.ident.1, h.other j hji] at he
          rw [h.ident.2, h.other j hji] at hn
          exact absurd ⟨he, hn⟩ (cached_none hnone hc j)
        · rw [h.other j hji] at hj he hn
          rw [h.other k hki] at he hn
          exact hc.one j k hj he hn
  · intro j q hl
    rw [h.lock j] at hl
    rw [h.users]
    exact List.mem_cons_of_mem _ (hc.held j q hl)

theorem cache (h : Got p ROOTDEV n s i t) (hc : CacheInv s.bc) : CacheInv t.bc := by
  have ht := h.tidy hc.tidy
  refine ⟨ht.every, ht.one, ht.count, ht.held, ?_, ?_⟩
  · intro x hx
    rw [h.users] at hx
    cases hx with
    | head => exact h.ident.1
    | tail _ hx => exact (h.keeps x.2 (hc.refcnt_pos hx)).1.trans (hc.root x hx)
  · intro j hv
    obtain ⟨hdev, _, hval, _⟩ := h.was j hv
    exact hdev.trans (hc.read j hval)

end Got

theorem CacheInv.pinned_pos {c : Bcache} (h : CacheInv c) {i : BufId} (hp : i ∈ c.pins) :
    0 < (c.buf i).refcnt := by
  have := h.count i
  have : 0 < c.pins.count i := List.count_pos_iff.mpr hp
  omega

theorem Tidy.put {s t : Blk} (h : Tidy s.bc) {i : BufId} {p : Pid}
    (hu : (p, i) ∈ s.bc.users) (hk : (s.bc.buf i).lock ≠ some p)
    (ht : brelsePut p i s = .ok () t) : Tidy t.bc := by
  simp only [brelsePut, Out.ok.injEq, true_and] at ht
  subst t
  refine h.of_ident (s.bc.set_ident i Buf.unref (fun _ => ⟨rfl, rfl⟩)) ?_ ?_ ?_
  · intro j
    dsimp only
    have hj := h.every j
    split
    · by_cases he : j = i
      · simp [he]
      · simpa [he] using hj
    · exact hj
  · intro j
    have hj := h.count j
    have hc := countP_erase_add (fun x => x.2 == j) hu
    simp only [Bcache.set_users, Bcache.set_pins]
    by_cases he : j = i
    · subst j
      simp only [Bcache.set_same, Buf.unref_refcnt]
      simp at hc
      omega
    · have : ¬ i = j := fun h => he h.symm
      rw [Bcache.set_other _ _ _ he]
      simp [this] at hc
      omega
  · intro j q hq
    simp only [Bcache.set_users]
    have hl : (s.bc.buf j).lock = some q := by
      by_cases he : j = i
      · subst j
        simpa using hq
      · simpa [Bcache.set_other _ _ _ he] using hq
    have hne : (q, j) ≠ (p, i) := by
      rintro ⟨rfl, rfl⟩
      exact hk hl
    exact (List.mem_erase_of_ne hne).mpr (h.held j q hl)

theorem CacheInv.put {s t : Blk} (h : CacheInv s.bc) {i : BufId} {p : Pid}
    (hu : (p, i) ∈ s.bc.users) (hk : (s.bc.buf i).lock ≠ some p)
    (ht : brelsePut p i s = .ok () t) : CacheInv t.bc := by
  have htidy := h.tidy.put hu hk ht
  simp only [brelsePut, Out.ok.injEq, true_and] at ht
  subst t
  exact h.of_ident (s.bc.set_ident i Buf.unref (fun _ => ⟨rfl, rfl⟩)) htidy.every
    (fun _ hx => List.mem_of_mem_erase hx) htidy.count htidy.held
    (fun j hv => .inl ((s.bc.set_valid i Buf.unref (fun _ => rfl) j).symm.trans hv))

theorem Tidy.pin {s : Blk} (h : Tidy s.bc) (i : BufId) : Tidy (bpin i s).bc := by
  refine h.of_ident (s.bc.set_ident i Buf.ref (fun _ => ⟨rfl, rfl⟩)) h.every ?_ ?_
  · intro j
    have hj := h.count j
    simp only [bpin, Bcache.set_users, List.count_append]
    by_cases he : j = i
    · subst j
      simp
      omega
    · have : ¬ i = j := fun h => he h.symm
      rw [Bcache.set_other _ _ _ he]
      simp [this]
      omega
  · intro j q hq
    apply h.held j q
    by_cases he : j = i
    · subst j
      simpa [bpin] using hq
    · simpa [bpin, Bcache.set_other _ _ _ he] using hq

theorem CacheInv.pin {s : Blk} (h : CacheInv s.bc) (i : BufId) : CacheInv (bpin i s).bc :=
  h.of_ident (s.bc.set_ident i Buf.ref (fun _ => ⟨rfl, rfl⟩)) h.every (fun _ hx => hx)
    (h.tidy.pin i).count (h.tidy.pin i).held
    (fun j hv => .inl ((s.bc.set_valid i Buf.ref (fun _ => rfl) j).symm.trans hv))

theorem Tidy.unpin {s : Blk} (h : Tidy s.bc) {i : BufId} (hi : i ∈ s.bc.pins) :
    Tidy (bunpin i s).bc := by
  refine h.of_ident (s.bc.set_ident i Buf.unref (fun _ => ⟨rfl, rfl⟩)) h.every ?_ ?_
  · intro j
    have hj := h.count j
    have hp : 0 < s.bc.pins.count i := List.count_pos_iff.mpr hi
    simp only [bunpin, Bcache.set_users]
    by_cases he : j = i
    · subst j
      simp
      omega
    · rw [Bcache.set_other _ _ _ he, List.count_erase_of_ne he]
      exact hj
  · intro j q hq
    apply h.held j q
    by_cases he : j = i
    · subst j
      simpa [bunpin] using hq
    · simpa [bunpin, Bcache.set_other _ _ _ he] using hq

theorem CacheInv.unpin {s : Blk} (h : CacheInv s.bc) {i : BufId} (hi : i ∈ s.bc.pins) :
    CacheInv (bunpin i s).bc :=
  h.of_ident (s.bc.set_ident i Buf.unref (fun _ => ⟨rfl, rfl⟩)) h.every (fun _ hx => hx)
    (h.tidy.unpin hi).count (h.tidy.unpin hi).held
    (fun j hv => .inl ((s.bc.set_valid i Buf.unref (fun _ => rfl) j).symm.trans hv))

end Xv6
