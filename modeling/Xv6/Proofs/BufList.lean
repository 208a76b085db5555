import Mathlib.Data.Fintype.Card
import Xv6.BufList
import Xv6.Proofs.Cache

namespace Xv6.BufList

variable {p q : Pid} {i : BufId} {s t : State}

/-- The pointers are those of the ghost list, which is in the order of the last releases, and
the cache is tidy. -/
structure Listed (s : State) : Prop where
  list : s.list.Is s.blk.bc.lru
  tidy : Tidy s.blk.bc
  order : s.blk.bc.lru.Pairwise (fun i j => s.freed j ≤ s.freed i)
  clock : ∀ i, s.freed i ≤ s.clock

theorem Listed.length (h : Listed s) : s.blk.bc.lru.length < NBUF + 1 := by
  have := h.list.nodup.length_le_card
  simp only [Fintype.card_fin] at this
  omega

theorem Listed.cached (h : Listed s) (dev n : Nat) :
    cached s dev n = some (s.blk.cached dev n) := h.list.seg.find _ h.length

theorem Listed.unused (h : Listed s) : unused s = some s.blk.unused :=
  h.list.seg.flip.find _ (by simpa using h.length)

/-- On a list in order the two loops of bget() are those of the list model. -/
theorem Listed.bgetScan (h : Listed s) (dev n : Nat) :
    bgetScan p dev n s = onBlk (Xv6.bgetScan p dev n) s := by
  simp only [BufList.bgetScan, onBlk, Xv6.bgetScan, h.cached, h.unused]
  cases s.blk.cached dev n with
  | some i => rfl
  | none => cases s.blk.unused <;> rfl

/-- brelse() does to the list what the list model says. -/
theorem brelsePut_blk (h : brelsePut p i s = .ok () t) : Xv6.brelsePut p i s.blk = .ok () t.blk := by
  simp only [brelsePut] at h
  simp only [Xv6.brelsePut]
  split at h
  · rename_i h0
    cases h
    simp only [Bcache.set_same, Buf.unref_refcnt] at h0
    simp [h0]
  · rename_i h0
    cases h
    simp only [Bcache.set_same, Buf.unref_refcnt] at h0
    simp [h0]

/-- All that a process may do to the cache. -/
inductive Move (p : Pid) (s : State) : State → Prop where
  | get {dev n : Nat} {i : BufId} {t : Blk} (h : Xv6.bgetScan p dev n s.blk = .ok i t) :
      Move p s { s with blk := t }
  | lock {i : BufId} (hu : (p, i) ∈ s.blk.bc.users) (hl : (s.blk.bc.buf i).lock = none) :
      Move p s { s with blk := s.blk.setBuf i (fun b => { b with lock := some p }) }
  | fill (i : BufId) : Move p s { s with blk := s.blk.setBuf i (fun b =>
      { b with data := s.blk.disk b.blockno, valid := true }) }
  | unlock {i : BufId} (hl : (s.blk.bc.buf i).lock = some p) :
      Move p s { s with blk := s.blk.setBuf i (fun b => { b with lock := none }) }
  | put {i : BufId} {t : State} (hu : (p, i) ∈ s.blk.bc.users)
      (hl : (s.blk.bc.buf i).lock ≠ some p) (h : brelsePut p i s = .ok () t) : Move p s t
  | pin (i : BufId) : Move p s { s with blk := Xv6.bpin i s.blk }
  | unpin {i : BufId} (hl : (s.blk.bc.buf i).lock = some p) (hi : i ∈ s.blk.bc.pins) :
      Move p s { s with blk := Xv6.bunpin i s.blk }

/-- A change of one buffer that leaves its identity and its count. -/
theorem Listed.setBuf (h : Listed s) {f : Buf → Buf}
    (hf : ∀ b, (f b).dev = b.dev ∧ (f b).blockno = b.blockno) (hr : ∀ b, (f b).refcnt = b.refcnt)
    (hk : ∀ p, (f (s.blk.bc.buf i)).lock = some p → (p, i) ∈ s.blk.bc.users) :
    Listed { s with blk := s.blk.setBuf i f } :=
  ⟨h.list, h.tidy.set i f hf hr hk, h.order, h.clock⟩

theorem Listed.put (h : Listed s) (hu : (p, i) ∈ s.blk.bc.users)
    (hl : (s.blk.bc.buf i).lock ≠ some p) (ht : brelsePut p i s = .ok () t) : Listed t := by
  have htidy := h.tidy.put hu hl (brelsePut_blk ht)
  simp only [brelsePut] at ht
  split at ht
  · cases ht
    have hmem := h.tidy.every i
    have hne : ∀ j ∈ s.blk.bc.lru.erase i, j ≠ i :=
      fun j hj he => h.list.nodup.not_mem_erase (he ▸ hj)
    refine ⟨?_, htidy, ?_, fun j => ?_⟩
    · exact (h.list.unlink hmem).pushFront (fun hm => hne i hm rfl)
    · refine List.pairwise_cons.mpr ⟨fun j hj => ?_, ?_⟩
      · have := h.clock j
        simp only [setAt_same, setAt_other _ _ _ (hne j hj)]
        omega
      · refine (h.order.sublist List.erase_sublist).imp_of_mem ?_
        intro j k hj hk hjk
        simpa only [setAt_other _ _ _ (hne j hj), setAt_other _ _ _ (hne k hk)] using hjk
    · have := h.clock j
      simp only [setAt_apply]
      split <;> omega
  · cases ht
    exact ⟨h.list, htidy, h.order, h.clock⟩

theorem Listed.move (h : Listed s) (hm : Move p s t) : Listed t := by
  cases hm with
  | get hg =>
    have hg := bgetScan_got hg
    exact ⟨hg.lru ▸ h.list, hg.tidy h.tidy, hg.lru ▸ h.order, h.clock⟩
  | lock hu hl =>
    refine h.setBuf (fun _ => ⟨rfl, rfl⟩) (fun _ => rfl) (fun q hq => ?_)
    cases hq
    exact hu
  | fill i => exact h.setBuf (fun _ => ⟨rfl, rfl⟩) (fun _ => rfl) (h.tidy.held i)
  | unlock hl => exact h.setBuf (fun _ => ⟨rfl, rfl⟩) (fun _ => rfl) (fun q hq => by cases hq)
  | put hu hl ht => exact h.put hu hl ht
  | pin i => exact ⟨h.list, h.tidy.pin i, h.order, h.clock⟩
  | unpin hl hi => exact ⟨h.list, h.tidy.unpin hi, h.order, h.clock⟩

def conduct : Conduct Panic State Pid where
  inv := Listed
  move := Move
  fails e := e = .bgetNoBuffers
  keeps := Listed.move

/-- A process's use of a buffer ends by its own brelse() only. -/
theorem Move.users (hm : Move q s t) (hq : q ≠ p) (h : (p, i) ∈ s.blk.bc.users) :
    (p, i) ∈ t.blk.bc.users := by
  cases hm with
  | get hg =>
    have hg := bgetScan_got hg
    show (p, i) ∈ _
    rw [hg.users]
    exact List.mem_cons_of_mem _ h
  | put hu hl ht =>
    have ht := brelsePut_blk ht
    simp only [Xv6.brelsePut, Out.ok.injEq, true_and] at ht
    rw [← ht]
    exact (List.mem_erase_of_ne (fun he => hq (congrArg Prod.fst he).symm)).mpr h
  | _ => exact h

/-- Nobody else takes or gives up a process's lock. -/
theorem Move.locks (hm : Move q s t) (hq : q ≠ p) :
    (t.blk.bc.buf i).lock = some p ↔ (s.blk.bc.buf i).lock = some p := by
  have hset : ∀ (j : BufId) (f : Buf → Buf),
      ((f (s.blk.bc.buf j)).lock = some p ↔ (s.blk.bc.buf j).lock = some p) →
      (((s.blk.bc.set j f).buf i).lock = some p ↔ (s.blk.bc.buf i).lock = some p) := by
    intro j f hf
    by_cases hi : i = j
    · subst hi
      simpa using hf
    · rw [Bcache.set_other _ _ _ hi]
  cases hm with
  | get hg =>
    have hg := bgetScan_got hg
    show ((_ : Blk).bc.buf i).lock = _ ↔ _
    rw [hg.lock]
  | lock hu hl => exact hset _ (fun b => { b with lock := some q }) (by simp [hl, hq])
  | fill j => exact hset j (fun b => { b with data := s.blk.disk b.blockno, valid := true }) Iff.rfl
  | unlock hl => exact hset _ (fun b => { b with lock := none }) (by simp [hl, hq])
  | put hu hl ht =>
    have ht := brelsePut_blk ht
    simp only [Xv6.brelsePut, Out.ok.injEq, true_and] at ht
    rw [← ht]
    exact hset _ Buf.unref Iff.rfl
  | pin j => exact hset j Buf.ref Iff.rfl
  | unpin hl hi => exact hset _ Buf.unref Iff.rfl

/-- A pin on a buffer that a process holds is taken off by that process only. -/
theorem Move.pins (hm : Move q s t) (hq : q ≠ p) (hl : (s.blk.bc.buf i).lock = some p)
    (h : i ∈ s.blk.bc.pins) : i ∈ t.blk.bc.pins := by
  cases hm with
  | get hg =>
    have hg := bgetScan_got hg
    show i ∈ (_ : Blk).bc.pins
    rw [hg.pins]
    exact h
  | put hu hl' ht =>
    have ht := brelsePut_blk ht
    simp only [Xv6.brelsePut, Out.ok.injEq, true_and] at ht
    rw [← ht]
    exact h
  | pin j => exact List.mem_append_left _ h
  | @unpin j hl' hi =>
    have hij : i ≠ j := by
      rintro rfl
      rw [hl] at hl'
      exact hq (Option.some.inj hl').symm
    exact (List.mem_erase_of_ne hij).mpr h
  | _ => exact h

theorem stable_users : conduct.team.Stable p (fun s => (p, i) ∈ s.blk.bc.users) :=
  Conduct.stable fun _ _ _ _ hj hm h => hm.users hj h

theorem stable_lock : conduct.team.Stable p (fun s => (s.blk.bc.buf i).lock = some p) :=
  Conduct.stable fun _ _ _ _ hj hm h => (hm.locks hj).mpr h

theorem stable_unlocked : conduct.team.Stable p (fun s => (s.blk.bc.buf i).lock ≠ some p) :=
  Conduct.stable fun _ _ _ _ hj hm h he => h ((hm.locks hj).mp he)

theorem stable_true : conduct.team.Stable p (fun _ => True) := Conduct.stable fun _ _ _ _ _ _ _ => trivial

theorem safe_bgetScan (dev n : Nat) : conduct.team.Safe p (.atomic (bgetScan p dev n))
    (fun i u => (p, i) ∈ u.blk.bc.users) s := by
  refine Conduct.safe stable_true trivial ?_
  intro s hs _
  have hs : Listed s := hs
  rw [hs.bgetScan]
  unfold onBlk
  cases hg : Xv6.bgetScan p dev n s.blk with
  | ok i t =>
    refine ⟨.inr (.get hg), ?_⟩
    show (p, i) ∈ t.bc.users
    rw [(bgetScan_got hg).users]
    exact List.mem_cons_self
  | wait => trivial
  | fail e => exact (bgetScan_fail hg).1

theorem safe_bread (dev n : Nat) :
    conduct.team.Safe p (bread p dev n) (fun _ _ => True) s := by
  refine (safe_bgetScan dev n).seq fun i u hu => ?_
  have hlock : conduct.team.Safe p (.atomic (onBlk (acquiresleep p i)))
      (fun _ u => (u.blk.bc.buf i).lock = some p) u := by
    refine Conduct.safe stable_users hu ?_
    intro v _ hv
    unfold onBlk acquiresleep
    cases hl : (v.blk.bc.buf i).lock with
    | none =>
      refine ⟨.inr (.lock hv hl), ?_⟩
      show ((v.blk.bc.set i (fun b => { b with lock := some p })).buf i).lock = some p
      simp
    | some r => trivial
  refine hlock.seq fun _ v hv => Conduct.safe stable_lock hv ?_
  intro x _ hx
  unfold onBlk breadFill
  cases hvalid : (x.blk.bc.buf i).valid with
  | true => exact ⟨.inl rfl, trivial⟩
  | false => exact ⟨.inr (.fill i), trivial⟩

theorem safe_brelse (hs : Listed s) (h : (s.blk.bc.buf i).lock = some p) :
    conduct.team.Safe p (brelse p i) (fun _ _ => True) s := by
  have hunlock : conduct.team.Safe p (.atomic (onBlk (releasesleep p i)))
      (fun _ u => (p, i) ∈ u.blk.bc.users ∧ (u.blk.bc.buf i).lock ≠ some p) s := by
    refine Conduct.safe (stable_users.and stable_lock) ⟨hs.tidy.held i p h, h⟩ ?_
    intro u _ hu
    obtain ⟨hu, hl⟩ := hu
    unfold onBlk releasesleep
    simp only [hl, if_true]
    refine ⟨.inr (.unlock hl), hu, ?_⟩
    show ((u.blk.bc.set i (fun b => { b with lock := none })).buf i).lock ≠ some p
    simp
  refine hunlock.seq fun _ u hu => Conduct.safe (stable_users.and stable_unlocked) hu ?_
  intro v _ hv
  cases hput : brelsePut p i v with
  | ok b w => exact ⟨.inr (.put hv.1 hv.2 hput), trivial⟩
  | wait => trivial
  | fail e =>
    simp only [brelsePut] at hput
    split at hput <;> cases hput

theorem safe_call (c : Call) (hs : Listed s) (h : calls.may p () c s = true) :
    conduct.team.Safe p (calls.prog p c) (fun _ _ => True) s := by
  cases c with
  | bread dev n => exact safe_bread dev n
  | brelse i => exact safe_brelse hs (by simpa [calls] using h)
  | bpin i => exact Conduct.safe stable_true trivial fun u _ _ => ⟨.inr (.pin i), trivial⟩
  | bunpin i =>
    have h : (s.blk.bc.buf i).lock = some p ∧ i ∈ s.blk.bc.pins := by simpa [calls] using h
    have hst : conduct.team.Stable p (fun s => (s.blk.bc.buf i).lock = some p ∧ i ∈ s.blk.bc.pins) :=
      Conduct.stable fun _ _ _ _ hj hm h => ⟨(hm.locks hj).mpr h.1, hm.pins hj h.1 h.2⟩
    exact Conduct.safe hst h fun u _ hu => ⟨.inr (.unpin hu.1 hu.2), trivial⟩

theorem binit_listed (b : Blk) : Listed (binit b) where
  list := by
    have := LinkRing.is_empty.pushAll (List.nodup_finRange NBUF) (by simp)
    rwa [List.append_nil] at this
  tidy := binit_cache.tidy
  order := List.pairwise_of_forall (fun _ _ => Nat.le_refl 0)
  clock := fun _ => Nat.le_refl 0

theorem obey : Pool.Obey conduct calls (fun _ _ _ => True) (fun _ => True) where
  stable _ _ := stable_true
  onward _ _ _ _ h := by cases h
  call p _ c s _ _ hi _ hmay := safe_call c hi hmay

theorem listed_of_reaches {b : Blk} {m : Machine} (h : Reaches step (.start (binit b) ()) m) :
    Listed m.state :=
  (Pool.Ok.of_reaches obey (binit_listed b) (fun _ => trivial) h).inv

/-- A buffer nobody uses whose last use ended before that of all others. -/
def Oldest (s : State) (i : BufId) : Prop :=
  (s.blk.bc.buf i).refcnt = 0 ∧ ∀ j, (s.blk.bc.buf j).refcnt = 0 → s.freed i ≤ s.freed j

def Caches (s : State) (dev n : Nat) (i : BufId) : Prop :=
  (s.blk.bc.buf i).dev = dev ∧ (s.blk.bc.buf i).blockno = n

/-- The buffer that bget() should choose: the one with the block, or else the oldest unused. -/
def Chooses (s : State) (dev n : Nat) : Out Panic State BufId → Prop
  | .ok i _ => Caches s dev n i ∨ (∀ j, ¬ Caches s dev n j) ∧ Oldest s i
  | .wait => False
  | .fail e => e = .bgetNoBuffers ∧ (∀ j, ¬ Caches s dev n j) ∧
      ∀ j, (s.blk.bc.buf j).refcnt ≠ 0

/-- The last unused buffer of the list is the oldest. -/
theorem Listed.oldest (h : Listed s) (hi : s.blk.unused = some i) : Oldest s i := by
  obtain ⟨h0, l, k, hl, hbefore⟩ := List.find?_eq_some_iff_append.mp hi
  refine ⟨by simpa using h0, fun j hj => ?_⟩
  have horder := List.pairwise_reverse.mpr h.order
  rw [hl] at horder
  have hmem : j ∈ l ++ i :: k := by
    rw [← hl]
    exact List.mem_reverse.mpr (h.tidy.every j)
  rcases List.mem_append.mp hmem with hm | hm
  · have := hbefore j hm
    simp [hj] at this
  · rcases List.mem_cons.mp hm with rfl | hm
    · exact Nat.le_refl _
    · exact (List.pairwise_cons.mp (List.pairwise_append.mp horder).2.1).1 j hm

theorem Listed.chooses (h : Listed s) (dev n : Nat) : Chooses s dev n (BufList.bgetScan p dev n s) := by
  rw [h.bgetScan]
  unfold onBlk Xv6.bgetScan
  cases hc : s.blk.cached dev n with
  | some i => exact .inl (cached_some hc)
  | none =>
    have hnone := cached_none hc h.tidy
    cases hu : s.blk.unused with
    | some i => exact .inr ⟨hnone, h.oldest hu⟩
    | none =>
      refine ⟨rfl, hnone, fun j => ?_⟩
      have := List.find?_eq_none.mp hu j (List.mem_reverse.mpr (h.tidy.every j))
      simpa using this

/-- The buffer cache after any calls of any processes: next and prev are inverse cycles through
all buffers, no block is cached twice, the counts are right, and bget() finds what is cached and
otherwise recycles the least recently used. -/
theorem buffer_list_structure {b : Blk} {m : Machine} (h : Reaches step (.start (binit b) ()) m) :
    (∀ x, m.state.list.prev (m.state.list.next x) = x ∧
      m.state.list.next (m.state.list.prev x) = x) ∧
    ((LinkRing.follow m.state.list.next (NBUF + 1) none).Nodup ∧
      (∀ i, i ∈ LinkRing.follow m.state.list.next (NBUF + 1) none) ∧
      LinkRing.follow m.state.list.prev (NBUF + 1) none =
        (LinkRing.follow m.state.list.next (NBUF + 1) none).reverse) ∧
    (∀ dev n i j, dev ≠ 0 → Caches m.state dev n i → Caches m.state dev n j → i = j) ∧
    (∀ i, (m.state.blk.bc.buf i).refcnt =
      m.state.blk.bc.users.countP (fun x => x.2 == i) + m.state.blk.bc.pins.count i) ∧
    ∀ p dev n, dev ≠ 0 → Chooses m.state dev n (BufList.bgetScan p dev n m.state) := by
  have hl := listed_of_reaches h
  have hnext : LinkRing.follow m.state.list.next (NBUF + 1) none = m.state.blk.bc.lru :=
    hl.list.seg.follow (Nat.le_of_lt hl.length)
  have hprev : LinkRing.follow m.state.list.prev (NBUF + 1) none = m.state.blk.bc.lru.reverse :=
    hl.list.seg.flip.follow (by simpa using Nat.le_of_lt hl.length)
  rw [hnext, hprev]
  refine ⟨fun x => ?_, ⟨hl.list.nodup, hl.tidy.every, rfl⟩, fun dev n i j hd hi hj => ?_,
    hl.tidy.count, fun p dev n _ => hl.chooses dev n⟩
  · exact ⟨hl.list.prev_next hl.tidy.every x, hl.list.next_prev hl.tidy.every x⟩
  · exact hl.tidy.one i j (hi.1 ▸ hd) (hi.1.trans hj.1.symm) (hi.2.trans hj.2.symm)

/-- Block 5 is read and released, and block 6 is read: buffers 0 and 1 are used first. -/
def readTwo : List (PoolAction Pid Call) :=
  [.call 0 (.bread 1 5), .run 0, .run 0, .run 0, .call 0 (.brelse 0), .run 0, .run 0,
    .call 0 (.bread 1 6), .run 0, .run 0, .run 0]

def emptyBlk : Blk := ⟨fun _ => .zero, Xv6.binit, ⟨0, 0, 0, 0, false, []⟩⟩

set_option maxRecDepth 100000 in
theorem buffer_list_structure_read : ∃ m, Reaches step (.start (binit emptyBlk) ()) m ∧
    m.state.list.next none = some 0 ∧ m.state.freed 0 = 1 ∧ (m.state.blk.bc.buf 1).refcnt = 1 ∧
    Chooses m.state 1 5 (bgetScan 3 1 5 m.state) := by
  have hrun : (runAll step (.start (binit emptyBlk) ()) readTwo).any (fun m =>
      decide (m.state.list.next none = some 0 ∧ m.state.freed 0 = 1 ∧
        (m.state.blk.bc.buf 1).refcnt = 1)) = true := by
    decide +kernel
  obtain ⟨m, hm, hp⟩ := Reaches.of_any hrun
  obtain ⟨h1, h2, h3⟩ := of_decide_eq_true hp
  exact ⟨m, hm, h1, h2, h3, (buffer_list_structure hm).2.2.2.2 3 1 5 (by decide)⟩

end Xv6.BufList
