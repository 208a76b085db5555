import Xv6.Proofs.Inodes

namespace Xv6

/-- The positions of the pointers in the order in which itrunc() frees the blocks. -/
def truncOrder : List Nat :=
  List.range NDIRECT ++ ((List.range NINDIRECT).map (fun j => NDIRECT + 1 + j) ++ [NDIRECT])

/-- The blocks at these positions. -/
def blocksAt (ptr : Nat → Nat) (ks : List Nat) : List Nat := (ks.map ptr).filter (fun b => b != 0)

/-- What itrunc() makes of an inode. -/
def Dinode.truncated (d : Dinode) : Dinode :=
  { d with size := 0, addrs := List.replicate (NDIRECT + 1) 0 }

def Node.truncated (n : Node) : Node :=
  { n with size := 0, entry := fun _ => .empty, data := fun _ => 0 }

theorem nodup_truncOrder : truncOrder.Nodup := by
  unfold truncOrder
  refine List.nodup_append.mpr ⟨List.nodup_range, List.nodup_append.mpr ⟨?_, by simp, ?_⟩, ?_⟩
  · exact List.pairwise_map.mpr (List.nodup_range.imp (fun h => by omega))
  · intro a ha b hb
    obtain ⟨j, _, rfl⟩ := List.mem_map.mp ha
    rw [List.mem_singleton] at hb
    omega
  · intro a ha b hb
    rw [List.mem_range] at ha
    rcases List.mem_append.mp hb with hb | hb
    · obtain ⟨j, _, rfl⟩ := List.mem_map.mp hb
      omega
    · rw [List.mem_singleton] at hb
      omega

/-- No pointer is anywhere else. -/
theorem mem_truncOrder {d : Dinode} {cur : Disk} {k : Nat} (h : d.ptr cur k ≠ 0) : k ∈ truncOrder := by
  have hk : k < NDIRECT + 1 + NINDIRECT := by
    unfold Dinode.ptr at h
    split at h
    · omega
    · split at h
      · rename_i hc
        omega
      · exact absurd rfl h
  unfold truncOrder
  simp only [List.mem_append, List.mem_range, List.mem_map, List.mem_singleton]
  by_cases h₁ : k < NDIRECT
  · exact .inl h₁
  · by_cases h₂ : k = NDIRECT
    · exact .inr (.inr h₂)
    · exact .inr (.inl ⟨k - (NDIRECT + 1), by omega, by omega⟩)

theorem ptr_truncated (d : Dinode) (cur : Disk) (k : Nat) : d.truncated.ptr cur k = 0 :=
  ptr_zero rfl cur k

theorem node_truncated {d : Dinode} (ht : d.type ≠ 0) (cur cur' : Disk) :
    d.truncated.node cur' = (d.node cur).truncated := by
  have ht' : d.truncated.type ≠ 0 := ht
  rw [node_live ht, node_live ht']
  simp [Dinode.truncated, Node.truncated]

section
variable {p : ProcId} {ok : Panic → Prop} {sb : Superblock} {N : Nat → Node} {t : Holders}
  {ino : Nat → Dinode} {loose : List Nat} {fs : Fs} {ip : InodePtr} {i : Nat} {cur logged : Disk}

/-- The inode gives up all its blocks, which are freed one by one. -/
theorem OnDisk.truncate (h : OnDisk sb ino [] loose cur logged) (ht : (ino i).type ≠ 0) :
    OnDisk sb (setAt ino i (ino i).truncated) [i]
      (blocksAt ((ino i).ptr cur) truncOrder ++ loose) cur logged := by
  have hf := h.fields i
  have hptr : ∀ j k, j ≠ i →
      ptrs (setAt ino i (ino i).truncated) cur (j, k) = ptrs ino cur (j, k) := by
    intro j k hj
    simp only [ptrs, setAt_other _ _ _ hj]
  have hzero : ∀ k, ptrs (setAt ino i (ino i).truncated) cur (i, k) = 0 := by
    intro k
    rw [ptrs_live (by rw [setAt_same]; exact ht), setAt_same, ptr_truncated]
  -- the owners of the blocks, in the order of the list
  have hown := h.owned.drop (ptrs (setAt ino i (ino i).truncated) cur)
    ((truncOrder.filter (fun k => (ino i).ptr cur k != 0)).map (fun k => (i, k))) ?_ ?_ ?_
  · refine ⟨?_, ?_, ?_, ?_, ?_, ?_, ?_⟩
    · intro j
      by_cases hj : j = i
      · rw [hj, setAt_same]
        refine ⟨hf.type, hf.major, hf.minor, hf.nlink, by simp [Dinode.truncated],
          by simp [Dinode.truncated], ?_⟩
        exact (fresh_ok 0).addrs
      · rw [setAt_other _ _ _ hj]; exact h.fields j
    · intro j
      by_cases hj : j = i
      · rw [hj]; exact fun _ => h.range i ht
      · rw [setAt_other _ _ _ hj]; exact h.range j
    · intro j hlt ha
      rw [setAt_other _ _ _ (by simpa using ha)]
      exact h.disk j hlt (by simp)
    · have hb : blocksAt ((ino i).ptr cur) truncOrder =
          ((truncOrder.filter (fun k => (ino i).ptr cur k != 0)).map (fun k => (i, k))).map
            (ptrs ino cur) := by
        rw [blocksAt, List.filter_map, List.map_map]
        exact List.map_congr_left (fun k _ => (ptrs_live ht cur k).symm)
      rw [hb]
      exact hown
    · intro j
      by_cases hj : j = i
      · rw [hj, setAt_same]; exact fun _ => Nat.zero_le _
      · rw [setAt_other _ _ _ hj]; exact h.fits j
    · intro j bn
      by_cases hj : j = i
      · rw [hj, setAt_same]
        intro _ hb
        simp [Dinode.truncated] at hb
      · rw [setAt_other _ _ _ hj]; exact h.full j bn
    · intro b hs
      apply h.calm b
      rcases hs with hs | ⟨j, k, hk, hc⟩
      · exact .inl hs
      · by_cases hj : j = i
        · subst hj
          rw [hzero] at hk
          exact .inl (hk ▸ h.owned.pos)
        · rw [hptr j k hj] at hk
          rw [setAt_other _ _ _ hj] at hc
          exact .inr ⟨j, k, hk, hc⟩
  · exact List.pairwise_map.mpr ((nodup_truncOrder.filter _).imp
      (fun hne he => hne (Prod.mk.inj he).2))
  · rintro ⟨j, k⟩
    simp only [List.mem_map, List.mem_filter, Prod.mk.injEq]
    constructor
    · rintro ⟨k', ⟨_, hk'⟩, rfl, rfl⟩
      rw [ptrs_live ht]
      exact ⟨by simpa using hk', hzero k'⟩
    · rintro ⟨h₁, h₂⟩
      by_cases hj : j = i
      · subst hj
        rw [ptrs_live ht] at h₁
        exact ⟨k, ⟨mem_truncOrder h₁, by simpa using h₁⟩, rfl, rfl⟩
      · rw [hptr j k hj] at h₂
        exact absurd h₂ h₁
  · rintro ⟨j, k⟩ hn
    by_cases hj : j = i
    · subst hj
      rw [hzero, ptrs_live ht]
      by_cases hk : (ino j).ptr cur k = 0
      · exact hk.symm
      · exact absurd (List.mem_map.mpr ⟨k, List.mem_filter.mpr
          ⟨mem_truncOrder hk, by simpa using hk⟩, rfl⟩) hn
    · exact hptr j k hj

/-- The copy `d` of an inode `c` while itrunc() works: the first `n` addresses are gone. -/
structure Cleared (c d : Dinode) (n : Nat) : Prop where
  same : d = { c with addrs := d.addrs }
  length : d.addrs.length = NDIRECT + 1
  gone : ∀ k, k < n → d.addrs.getD k 0 = 0
  rest : ∀ k, n ≤ k → d.addrs.getD k 0 = c.addrs.getD k 0

/-- Inside itrunc(), which began in the state `fs₀` with the inodes `ino`, with the blocks `bs`
still to be freed. -/
structure Truncating (p : ProcId) (sb : Superblock) (t : Holders) (ino : Nat → Dinode)
    (ip : InodePtr) (i : Nat) (fs₀ : Fs) (n : Nat) (bs : List Nat) (fs : Fs) : Prop where
  disk : OnDisk sb (setAt ino i (ino i).truncated) [i] bs fs.st.cur fs.st.logged
  mem : InMem p sb (setAt ino i (ino i).truncated) [i] t fs.mem
  cleared : Cleared (ino i) (fs.mem.inode ip).copy n
  keeps : ∀ b, sb.nmeta ≤ b →
    fs.st.cur b = fs₀.st.cur b ∧ fs.st.logged b = fs₀.st.logged b

theorem Cleared.skip {c d : Dinode} {n : Nat} (h : Cleared c d n) (hz : c.addrs.getD n 0 = 0) :
    Cleared c d (n + 1) := by
  refine ⟨h.same, h.length, fun k hk => ?_, fun k hk => h.rest k (by omega)⟩
  by_cases he : k = n
  · rw [he, h.rest n (Nat.le_refl n), hz]
  · exact h.gone k (by omega)

theorem Cleared.clear {c d : Dinode} {n : Nat} (h : Cleared c d n) (hn : n < NDIRECT + 1) :
    Cleared c { d with addrs := d.addrs.set n 0 } (n + 1) := by
  refine ⟨by rw [h.same], by simp [h.length], fun k hk => ?_, fun k hk => ?_⟩
  · by_cases he : n = k
    · subst he
      simp [List.getD, h.length, hn]
    · simp only [List.getD, List.getElem?_set_ne he]
      exact h.gone k (by omega)
  · simp only [List.getD, List.getElem?_set_ne (show n ≠ k by omega)]
    exact h.rest k (by omega)

theorem Cleared.all {c d : Dinode} (h : Cleared c d (NDIRECT + 1)) :
    { d with size := 0 } = c.truncated := by
  have ha : d.addrs = List.replicate (NDIRECT + 1) 0 := by
    refine List.eq_replicate_iff.mpr ⟨h.length, fun a ha => ?_⟩
    obtain ⟨k, hk, rfl⟩ := List.getElem_of_mem ha
    have := h.gone k (by rw [← h.length]; exact hk)
    simpa [List.getD, hk] using this
  rw [h.same, ha]
  rfl

theorem blocksAt_cons (ptr : Nat → Nat) (k : Nat) (ks : List Nat) :
    blocksAt ptr (k :: ks) = if ptr k ≠ 0 then ptr k :: blocksAt ptr ks else blocksAt ptr ks := by
  simp only [blocksAt, List.map_cons, List.filter_cons]
  by_cases h : ptr k = 0
  · simp [h]
  · simp [h]

theorem range'_cons {k n : Nat} (h : k < n) :
    List.range' k (n - k) = k :: List.range' (k + 1) (n - (k + 1)) := by
  rw [show n - k = (n - (k + 1)) + 1 by omega, List.range'_succ]

/-- One of the blocks is freed. -/
theorem Truncating.bfree_spec {fs₀ : Fs} {n b : Nat} {bs : List Nat} (hok : Benign ok)
    (hsb : sb.Ok) (h : Truncating p sb t ino ip i fs₀ n (b :: bs) fs) :
    (Kern.bfree b).Ensures (Fs.run p) ok (fun _ fs' =>
      fs'.mem = fs.mem ∧ Truncating p sb t ino ip i fs₀ n bs fs') fs := by
  refine (Xv6.bfree_spec hok hsb h.mem.super h.disk).mono ?_
  rintro - fs' ⟨hm, hd, hk⟩
  refine ⟨hm, hd, by rw [hm]; exact h.mem, by rw [hm]; exact h.cleared, fun b hb => ?_⟩
  obtain ⟨h₁, h₂⟩ := hk b hb
  rw [h₁, h₂]
  exact h.keeps b hb

/-- An address is set to 0. -/
theorem Truncating.setAddr {fs₀ : Fs} {n : Nat} {bs : List Nat}
    (h : Truncating p sb t ino ip i fs₀ n bs fs) (hn : t.Names ip i) (hlt : n < NDIRECT + 1) :
    (Kern.setAddr ip n 0).Ensures (Fs.run p) ok (fun _ fs' =>
      Truncating p sb t ino ip i fs₀ (n + 1) bs fs') fs := by
  unfold Kern.setAddr Kern.setCopy Kern.setInode
  rw [ensures_update]
  refine ⟨h.disk, h.mem.setAway hn (fun c => { c with addrs := c.addrs.set n 0 }), ?_, h.keeps⟩
  rw [setInode_same]
  exact h.cleared.clear hlt

theorem itruncDirect_spec {fs₀ : Fs} (hok : Benign ok) (hsb : sb.Ok) (hn : t.Names ip i) {k : Nat}
    (hk : k < NDIRECT) {ks : List Nat}
    (h : Truncating p sb t ino ip i fs₀ k (blocksAt ((ino i).ptr fs₀.st.cur) (k :: ks)) fs) :
    (Kern.itruncDirect ip k).Ensures (Fs.run p) ok (fun _ fs' =>
      Truncating p sb t ino ip i fs₀ (k + 1) (blocksAt ((ino i).ptr fs₀.st.cur) ks) fs') fs := by
  have hptr : (ino i).ptr fs₀.st.cur k = (ino i).addrs.getD k 0 := if_pos (by omega)
  rw [blocksAt_cons, hptr] at h
  unfold Kern.itruncDirect Kern.addrOf
  rw [Free.ensures_bind, ensures_get, h.cleared.rest k (Nat.le_refl k)]
  apply ensures_when
  · intro hne
    rw [if_pos hne] at h
    apply Free.Ensures.seq (h.bfree_spec hok hsb)
    rintro - fs₁ ⟨-, h₁⟩
    exact h₁.setAddr hn (by omega)
  · intro hz
    rw [if_neg hz] at h
    exact ⟨h.disk, h.mem, h.cleared.skip (by simpa using hz), h.keeps⟩

theorem itruncWord_spec {fs₀ : Fs} (hok : Benign ok) (hsb : sb.Ok) {j n : Nat} {d : Block}
    {ks : List Nat} {ptr : Nat → Nat} (hptr : ptr (NDIRECT + 1 + j) = wordAt d j)
    (h : Truncating p sb t ino ip i fs₀ n (blocksAt ptr ((NDIRECT + 1 + j) :: ks)) fs) :
    (Kern.itruncWord d j).Ensures (Fs.run p) ok (fun _ fs' =>
      Truncating p sb t ino ip i fs₀ n (blocksAt ptr ks) fs') fs := by
  rw [blocksAt_cons, hptr] at h
  unfold Kern.itruncWord
  apply ensures_when
  · intro hne
    rw [if_pos hne] at h
    exact (h.bfree_spec hok hsb).mono (fun _ _ h' => h'.2)
  · intro hz
    rw [if_neg hz] at h
    exact h

/-- The positions of the words from `j` on, and the indirect block after them. -/
def wordsFrom (j : Nat) : List Nat :=
  (List.range' j (NINDIRECT - j)).map (fun j => NDIRECT + 1 + j) ++ [NDIRECT]

theorem wordsFrom_lt {j : Nat} (h : j < NINDIRECT) :
    wordsFrom j = (NDIRECT + 1 + j) :: wordsFrom (j + 1) := by
  unfold wordsFrom
  rw [range'_cons h]
  rfl

theorem wordsFrom_end : wordsFrom NINDIRECT = [NDIRECT] := by simp [wordsFrom]

theorem itruncIndirect_spec {fs₀ : Fs} (hok : Benign ok) (hsb : sb.Ok) (hn : t.Names ip i)
    (ht : (ino i).type ≠ 0) (hd : OnDisk sb ino [] [] fs₀.st.cur fs₀.st.logged)
    (h : Truncating p sb t ino ip i fs₀ NDIRECT
      (blocksAt ((ino i).ptr fs₀.st.cur) (wordsFrom 0)) fs) :
    (Kern.itruncIndirect ip).Ensures (Fs.run p) ok (fun _ fs' =>
      Truncating p sb t ino ip i fs₀ (NDIRECT + 1) [] fs') fs := by
  have haddr := ptr_indirect (ino i) fs₀.st.cur
  unfold Kern.itruncIndirect Kern.addrOf
  rw [Free.ensures_bind, ensures_get, h.cleared.rest NDIRECT (Nat.le_refl _), ← haddr]
  apply ensures_when
  · intro hne
    have hown : ptrs ino fs₀.st.cur (i, NDIRECT) = (ino i).ptr fs₀.st.cur NDIRECT := ptrs_live ht _ _
    have hge : sb.nmeta ≤ (ino i).ptr fs₀.st.cur NDIRECT := hown ▸ hd.ptr_ge (hown ▸ hne)
    have hcalm : ∀ {n bs fs}, Truncating p sb t ino ip i fs₀ n bs fs →
        fs.st.cur ((ino i).ptr fs₀.st.cur NDIRECT) = fs.st.logged ((ino i).ptr fs₀.st.cur NDIRECT) := by
      intro n bs fs h'
      obtain ⟨h₁, h₂⟩ := h'.keeps _ hge
      rw [h₁, h₂]
      exact hd.calm _ (.inr ⟨i, NDIRECT, hown, .inl rfl⟩)
    rw [Free.ensures_bind]
    apply ensures_bread_calm (hcalm h)
    intro st hs
    rw [Free.ensures_bind, ensures_bdata, Free.ensures_bind]
    have h₁ : Truncating p sb t ino ip i fs₀ NDIRECT
        (blocksAt ((ino i).ptr fs₀.st.cur) (wordsFrom 0)) ⟨fs.mem, st⟩ :=
      ⟨h.disk.same hs, h.mem, h.cleared, by simpa only [hs.cur, hs.logged] using h.keeps⟩
    -- the words are those that the inode had at the start
    have hword : ∀ j, j < NINDIRECT → (ino i).ptr fs₀.st.cur (NDIRECT + 1 + j) =
        wordAt (st.cur ((ino i).ptr fs₀.st.cur NDIRECT)) j := by
      intro j hj
      rw [(h₁.keeps _ hge).1, haddr, Dinode.ptr, if_neg (by omega),
        if_pos ⟨haddr ▸ hne, by omega⟩]
      congr 1
      omega
    refine (Free.Ensures.forUp (fun j => Truncating p sb t ino ip i fs₀ NDIRECT
      (blocksAt ((ino i).ptr fs₀.st.cur) (wordsFrom j))) ?_ h₁).mono ?_
    · intro j fs₂ _ hj h₂
      rw [wordsFrom_lt (by omega)] at h₂
      exact itruncWord_spec hok hsb (hword j (by omega)) h₂
    · rintro - fs₂ h₂
      rw [Nat.zero_add, wordsFrom_end, blocksAt_cons, if_pos hne] at h₂
      rw [Free.ensures_bind]
      apply ensures_brelse_calm (hcalm h₂)
      intro st₃ hs₃
      have h₃ : Truncating p sb t ino ip i fs₀ NDIRECT
          ((ino i).ptr fs₀.st.cur NDIRECT :: blocksAt ((ino i).ptr fs₀.st.cur) [])
          ⟨fs₂.mem, st₃⟩ :=
        ⟨h₂.disk.same hs₃, h₂.mem, h₂.cleared, by simpa only [hs₃.cur, hs₃.logged] using h₂.keeps⟩
      apply Free.Ensures.seq (h₃.bfree_spec hok hsb)
      rintro - fs₄ ⟨-, h₄⟩
      exact h₄.setAddr hn (by omega)
  · intro hz
    have hz : (ino i).ptr fs₀.st.cur NDIRECT = 0 := by simpa using hz
    have hnone : blocksAt ((ino i).ptr fs₀.st.cur) (wordsFrom 0) = [] := by
      refine List.filter_eq_nil_iff.mpr (fun b hb => ?_)
      obtain ⟨k, hk, rfl⟩ := List.mem_map.mp hb
      have hk0 : (ino i).ptr fs₀.st.cur k = 0 := by
        rcases List.mem_append.mp hk with hk | hk
        · obtain ⟨j, _, rfl⟩ := List.mem_map.mp hk
          rw [Dinode.ptr, if_neg (by omega), if_neg (fun hc => hc.1 (haddr ▸ hz))]
        · rw [List.mem_singleton.mp hk, hz]
      simp [hk0]
    rw [hnone] at h
    exact ⟨h.disk, h.mem, h.cleared.skip (haddr ▸ hz), h.keeps⟩

theorem itrunc_spec (hok : Benign ok) (hsb : sb.Ok) (h : Inside p sb N t fs)
    (hl : (ip, i) ∈ t.locked) :
    (Kern.itrunc ip).Ensures (Fs.run p) ok (fun _ fs' => ∃ ino',
      Within p sb (setAt N i (N i).truncated) t ino' [] [] [] fs' ∧
      (ino' i).addrs = List.replicate (NDIRECT + 1) 0) fs := by
  obtain ⟨ino, h⟩ := h
  obtain ⟨hn, hv, ht⟩ := h.locked hl
  have hc := (h.mem.slot ip).copy (h.mem.ref_pos hn) hv (by simp)
  rw [h.mem.inum_eq hn] at hc
  have horder : truncOrder = List.range' 0 (NDIRECT - 0) ++ wordsFrom 0 := by
    rw [truncOrder, wordsFrom, List.range_eq_range', List.range_eq_range']
    rfl
  have h₀ : Truncating p sb t ino ip i fs 0
      (blocksAt ((ino i).ptr fs.st.cur) (List.range' 0 (NDIRECT - 0) ++ wordsFrom 0)) fs := by
    have hd := h.disk.truncate ht
    rw [List.append_nil, horder] at hd
    refine ⟨hd, h.mem.goAway rfl rfl, ?_, fun _ _ => ⟨rfl, rfl⟩⟩
    rw [hc]
    exact ⟨rfl, (h.disk.fields i).length, fun k hk => absurd hk (by omega), fun _ _ => rfl⟩
  unfold Kern.itrunc
  rw [Free.ensures_bind]
  refine (Free.Ensures.forUp (fun k => Truncating p sb t ino ip i fs k
    (blocksAt ((ino i).ptr fs.st.cur) (List.range' k (NDIRECT - k) ++ wordsFrom 0))) ?_ h₀).mono ?_
  · intro k fs₁ _ hk h₁
    rw [range'_cons (by omega)] at h₁
    exact itruncDirect_spec hok hsb hn (by omega) h₁
  · rintro - fs₁ h₁
    rw [Nat.zero_add, Nat.sub_self] at h₁
    apply Free.Ensures.seq (itruncIndirect_spec hok hsb hn ht h.disk h₁)
    rintro - fs₂ h₂
    unfold Kern.setCopy Kern.setInode
    rw [Free.ensures_bind, ensures_update]
    have hm := (h₂.mem.setAway hn (fun c => { c with size := 0 })).comeBack hn
      (by rw [setInode_same, setAt_same]; exact h₂.cleared.all)
    have hw : Within p sb (setAt N i (N i).truncated) t (setAt ino i (ino i).truncated) [i] [] []
        { fs₂ with mem := fs₂.mem.setInode ip (fun x => { x with copy := { x.copy with size := 0 } }) } := by
      refine ⟨h₂.disk, hm, node_setAt ?_ ?_, h.sane.set ?_⟩
      · rw [h.node i]
        exact (node_truncated ht _ _).symm
      · intro j _
        rw [h.node j]
        exact (h.disk.node_meta (fun b hb => (h₂.keeps b hb).1) j).symm
      · exact fun _ => ⟨rfl, fun _ => Nat.zero_lt_of_lt hsb.root⟩
    refine (iupdate_spec hok hsb hw hl).mono (fun _ fs' h' => ⟨_, h', ?_⟩)
    rw [setAt_same]
    rfl

/- iput(). -/

/-- An inode without pointers is marked free. -/
theorem OnDisk.unalloc (h : OnDisk sb ino [] [] cur logged)
    (ha : (ino i).addrs = List.replicate (NDIRECT + 1) 0) :
    OnDisk sb (setAt ino i { ino i with type := 0 }) [i] [] cur logged := by
  have hf := h.fields i
  have hz : ∀ k, ptrs ino cur (i, k) = 0 := by
    intro k
    unfold ptrs
    split
    · rfl
    · exact ptr_zero ha cur k
  refine (h.later i).setIno List.mem_cons_self
    ⟨rfl, hf.major, hf.minor, hf.nlink, hf.size, hf.length, hf.addrs⟩ (fun hne => absurd rfl hne)
    (fun k => ?_) (fun hne => absurd rfl hne) (fun _ hne => absurd rfl hne) (fun _ => .inr hz)
  rw [hz, ptrs_free (by rw [setAt_same])]

theorem iputFree_spec (hok : Benign ok) (hsb : sb.Ok)
    (h : Within p sb N ((t.take ip i).lock ip i) ino [] [] [] fs)
    (hr : (fs.mem.inode ip).ref = 1) (ha : (ino i).addrs = List.replicate (NDIRECT + 1) 0) :
    (Kern.iputFree ip).Ensures (Fs.run p) ok (fun _ fs' => Inside p sb (setAt N i .free) t fs') fs := by
  obtain ⟨hn, hv, ht⟩ := h.locked (show (ip, i) ∈ ((t.take ip i).lock ip i).locked from
    List.mem_cons_self)
  have hi := h.mem.inum_eq hn
  have hc := (h.mem.slot ip).copy (h.mem.ref_pos hn) hv (by simp)
  rw [hi] at hc
  unfold Kern.iputFree Kern.setCopy Kern.setInode Kern.releasesleep
  rw [Free.ensures_bind, ensures_update]
  refine Free.Ensures.seq (iupdate_disk hok hsb ?_ ?_ ?_ (h.mem.lt_ninodes hn).2
    (h.disk.unalloc ha)) ?_
  · exact h.mem.super
  · rw [setInode_same]
    exact hi
  · rw [setInode_same, setAt_same]
    exact congrArg (fun c : Dinode => { c with type := 0 }) hc
  rintro - fs₁ ⟨hm, hd, hk⟩
  unfold Kern.setInode
  simp only [Free.ensures_bind, ensures_update]
  refine ⟨setAt ino i { ino i with type := 0 }, hd, ?_, node_setAt (node_free rfl _).symm ?_,
    h.sane.set (fun ht => absurd ht (by decide))⟩
  · have hfree := h.mem.free hr (c := { ino i with type := 0 }) rfl
    rw [hm]
    simp only [setInode_setInode]
    rwa [setInode_congr (g := fun x => { x with
      ref := x.ref - 1, lock := none, valid := false, copy := { x.copy with type := 0 } })] at hfree
    rw [hc]
  · intro j _
    rw [h.node j]
    exact (h.disk.node_meta hk j).symm

/-- Either the reference was not the last one of an inode without links, or the inode is
freed. -/
theorem iput_spec (hok : Benign ok) (hsb : sb.Ok) (h : Inside p sb N (t.take ip i) fs)
    (hl : t.Locks ip → 0 < t.count ip) :
    (Kern.iput ip).Ensures (Fs.run p) ok (fun _ fs' => Inside p sb N t fs' ∨
      (N i).type ≠ 0 ∧ (N i).nlink = 0 ∧ (∀ jp, ¬ t.Names jp i) ∧
        Inside p sb (setAt N i .free) t fs') fs := by
  obtain ⟨ino, h⟩ := h
  have hn : (t.take ip i).Names ip i := t.names_take.mpr (.inl ⟨rfl, rfl⟩)
  have hr := h.mem.ref_pos hn
  have hi := h.mem.inum_eq hn
  have hcopy := (h.mem.slot ip).copy hr
  unfold Kern.iput Kern.iputEnter
  rw [Free.ensures_bind, ensures_mem]
  dsimp only
  split
  · rename_i hc
    have hl : ¬ t.Locks ip := by
      intro hl'
      have hcount := (h.mem.slot ip).ref
      have := hl hl'
      rw [t.count_take, hc.1] at hcount
      omega
    have hcopy := hcopy hc.2.1 (by simp)
    have ht := (h.mem.slot ip).live hr hc.2.1
    rw [hi] at hcopy ht
    split
    · -- the inode is freed
      rw [Out.sat_ok]
      apply ensures_when
      · intro _
        have hm := h.mem.lock hn hl hcopy ht
        rw [setInode_congr (g := fun x => { x with lock := some p })] at hm
        · apply Free.Ensures.seq (itrunc_spec hok hsb ⟨ino, h.setMem hm⟩ List.mem_cons_self)
          rintro - fs₁ ⟨ino₁, h₁, ha⟩
          have hr₁ : (fs₁.mem.inode ip).ref = 1 := by
            rw [(h₁.mem.slot ip).ref]
            exact (h.mem.slot ip).ref.symm.trans hc.1
          refine (iputFree_spec hok hsb h₁ hr₁ ha).mono (fun _ fs' h' => .inr ⟨?_, ?_, ?_, ?_⟩)
          · rw [h.type_eq]; exact ht
          · rw [h.node i, node_live ht, ← hc.2.2, hcopy]
          · intro jp hj
            have := h.mem.names_inj (t.names_take.mpr (.inr hj)) hn
            subst this
            exact h.mem.last hc.1 hl i hj
          · rwa [setAt_setAt] at h'
        · simp only [← hc.2.1]
      · exact fun hne => absurd rfl hne
    · trivial
  · rename_i hc
    rw [Out.sat_ok]
    apply ensures_when
    · exact fun he => absurd he (by decide)
    · intro _
      refine .inl ⟨ino, h.setMem (h.mem.drop hl ?_)⟩
      by_cases h₁ : (fs.mem.inode ip).ref = 1
      · by_cases h₂ : (fs.mem.inode ip).valid = true
        · have := hcopy h₂ (by simp)
          rw [hi] at this
          exact .inr (.inr (fun hz => hc ⟨h₁, h₂, by rw [this]; exact hz⟩))
        · exact .inr (.inl (by simpa using h₂))
      · exact .inl h₁

/-- A reference to an inode with links or other holders is only dropped. -/
theorem iput_kept (hok : Benign ok) (hsb : sb.Ok) (h : Inside p sb N (t.take ip i) fs)
    (hl : t.Locks ip → 0 < t.count ip) (hk : Kept N t i) :
    (Kern.iput ip).Ensures (Fs.run p) ok (fun _ fs' => Inside p sb N t fs') fs := by
  refine (iput_spec hok hsb h hl).mono ?_
  rintro - fs' (h' | ⟨ht, hz, hno, -⟩)
  · exact h'
  · rcases hk with hk | hk | ⟨jp, hk⟩
    · exact absurd hk ht
    · exact absurd hz hk
    · exact absurd hk (hno jp)

end
end Xv6
