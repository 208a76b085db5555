import Xv6.Proofs.Inodes

namespace Xv6

/- How one new pointer changes the others. -/

theorem posOf_ne (bn : Nat) : posOf bn ≠ NDIRECT := by
  unfold posOf
  split
  · omega
  · omega

theorem posOf_inj {a b : Nat} (h : posOf a = posOf b) : a = b := by
  unfold posOf at h
  split at h <;> split at h <;> omega

theorem ptr_setAddr {d : Dinode} {cur : Disk} {k₀ b : Nat} (hlen : d.addrs.length = NDIRECT + 1)
    (hk : k₀ ≤ NDIRECT) (hz : d.addrs.getD k₀ 0 = 0) (hb : cur b = .zero) (k : Nat) :
    ({ d with addrs := d.addrs.set k₀ b } : Dinode).ptr cur k =
      if k = k₀ then b else d.ptr cur k := by
  have hget : ∀ k, (d.addrs.set k₀ b).getD k 0 = if k = k₀ then b else d.addrs.getD k 0 := by
    intro k
    by_cases he : k = k₀
    · subst he
      rw [if_pos rfl, List.getD, List.getElem?_set_self (by omega)]
      rfl
    · rw [if_neg he, List.getD, List.getElem?_set_ne (Ne.symm he)]
      rfl
  unfold Dinode.ptr
  simp only [hget]
  by_cases h₁ : k ≤ NDIRECT
  · simp only [if_pos h₁]
  · have hne : k ≠ k₀ := by omega
    simp only [if_neg h₁, if_neg hne]
    by_cases h₂ : NDIRECT = k₀
    · -- a new indirect block is empty
      subst h₂
      simp only [if_true, hb, wordAt_zero, hz, ne_eq, not_true_eq_false, false_and, if_false, ite_self]
    · simp only [if_neg h₂]

theorem ptr_setWord {d : Dinode} {cur : Disk} {j b : Nat} (hj : j < NINDIRECT) (hb : b < 2 ^ 32)
    (ha : d.addrs.getD NDIRECT 0 ≠ 0) (k : Nat) :
    d.ptr (setAt cur (d.addrs.getD NDIRECT 0) (setWord (cur (d.addrs.getD NDIRECT 0)) j b)) k =
      if k = NDIRECT + 1 + j then b else d.ptr cur k := by
  unfold Dinode.ptr
  rw [setAt_same]
  by_cases h₁ : k ≤ NDIRECT
  · rw [if_pos h₁, if_pos h₁, if_neg (by omega)]
  · rw [if_neg h₁, if_neg h₁, wordAt_setWord _ hj hb]
    by_cases h₂ : k = NDIRECT + 1 + j
    · have hk : k - (NDIRECT + 1) = j := by omega
      rw [if_pos h₂, hk, if_pos ⟨ha, hj⟩, if_pos rfl]
    · have hk : k - (NDIRECT + 1) ≠ j := by omega
      rw [if_neg h₂, if_neg hk]

section
variable {p : ProcId} {ok : Panic → Prop} {sb : Superblock} {N : Nat → Node} {t : Holders}
  {ino : Nat → Dinode} {ahead loose away : List Nat} {fs : Fs} {ip : InodePtr} {i : Nat}
  {cur logged cur' logged' : Disk} {b : Nat}

/-- A loose block becomes the block at position `k₀` of inode `i`. -/
theorem OnDisk.give (h : OnDisk sb ino ahead (b :: loose) cur logged) (hi : i ∈ ahead)
    {c : Dinode} {k₀ : Nat} (hc : c.Ok) (hs : c = { ino i with addrs := c.addrs })
    (hmeta : ∀ n, n < sb.nmeta → cur' n = cur n) (h₀ : ptrs ino cur (i, k₀) = 0)
    (hb : ptrs (setAt ino i c) cur' (i, k₀) = b)
    (hp : ∀ o, o ≠ (i, k₀) → ptrs (setAt ino i c) cur' o = ptrs ino cur o)
    (hcalm : ∀ n, cur n = logged n → cur' n = logged' n) (hcb : cur' b = logged' b)
    (hsb : sb.Ok) : OnDisk sb (setAt ino i c) ahead loose cur' logged' := by
  have htype : ∀ j, (setAt ino i c j).type = (ino j).type := by
    intro j
    by_cases hj : j = i
    · rw [hj, setAt_same, hs]
    · rw [setAt_other _ _ _ hj]
  have hsize : ∀ j, (setAt ino i c j).size = (ino j).size := by
    intro j
    by_cases hj : j = i
    · rw [hj, setAt_same, hs]
    · rw [setAt_other _ _ _ hj]
  have hpos : b ≠ 0 := by
    have := (h.owned.apart b List.mem_cons_self).1
    have := h.owned.pos
    omega
  refine ⟨?_, ?_, ?_, ?_, ?_, ?_, ?_⟩
  · intro j
    by_cases hj : j = i
    · rw [hj, setAt_same]; exact hc
    · rw [setAt_other _ _ _ hj]; exact h.fields j
  · intro j
    rw [htype]
    exact h.range j
  · intro j hlt ha
    have hj : j ≠ i := fun he => ha (he ▸ hi)
    rw [setAt_other _ _ _ hj, hmeta _ (hsb.iblock_lt_nmeta hlt)]
    exact h.disk j hlt ha
  · refine (h.owned.give h₀ hb hp).congr (fun _ => rfl) (fun x hx => ?_)
    unfold used
    rw [hmeta _ (Superblock.Ok.bblock_lt hx)]
  · intro j
    rw [htype, hsize]
    exact h.fits j
  · intro j bn ht hbn
    rw [htype] at ht
    rw [hsize] at hbn
    have hold := h.full j bn ht hbn
    have hlive := ptrs_live (by rw [htype]; exact ht) cur' (posOf bn)
    unfold Dinode.block at hold ⊢
    rw [← hlive]
    by_cases ho : (j, posOf bn) = (i, k₀)
    · rw [ho, hb]
      exact hpos
    · rw [hp _ ho, ptrs_live ht]
      exact hold
  · intro n hn
    rcases hn with hn | ⟨j, k, hk, hc⟩
    · exact hcalm n (h.calm n (.inl hn))
    · by_cases ho : (j, k) = (i, k₀)
      · rw [ho, hb] at hk
        rw [← hk]
        exact hcb
      · rw [hp _ ho] at hk
        rw [htype] at hc
        exact hcalm n (h.calm n (.inr ⟨j, k, hk, hc⟩))

/-- The new inode and blocks after bmap(): pointers that were there stay. -/
structure Grown (ino ino' : Nat → Dinode) (i : Nat) (cur cur' : Disk) : Prop where
  other : ∀ j, j ≠ i → ino' j = ino j
  fields : ino' i = { ino i with addrs := (ino' i).addrs }
  block : ∀ bn, (ino i).block cur bn ≠ 0 → (ino' i).block cur' bn = (ino i).block cur bn

theorem Grown.refl (ino : Nat → Dinode) (i : Nat) (cur : Disk) : Grown ino ino i cur cur :=
  ⟨fun _ _ => rfl, rfl, fun _ _ => rfl⟩

theorem Grown.trans {ino₁ ino₂ : Nat → Dinode} {c₁ c₂ : Disk} (h : Grown ino ino₁ i cur c₁)
    (h' : Grown ino₁ ino₂ i c₁ c₂) : Grown ino ino₂ i cur c₂ := by
  refine ⟨fun j hj => (h'.other j hj).trans (h.other j hj), ?_, fun bn hb => ?_⟩
  · rw [h'.fields, h.fields]
  · have h₁ := h.block bn hb
    rw [h'.block bn (by rw [h₁]; exact hb), h₁]

/-- In-memory inode `ip` is inode `i`, of which the blocks may have an older version. -/
structure Backed (sb : Superblock) (ino : Nat → Dinode) (ip : InodePtr) (i : Nat) (fs : Fs) : Prop where
  super : fs.mem.sb = sb
  inum : (fs.mem.inode ip).inum = i
  copy : (fs.mem.inode ip).copy = ino i
  live : (ino i).type ≠ 0
  disk : OnDisk sb ino [i] [] fs.st.cur fs.st.logged

theorem Backed.same {m : Mem} {s s' : Store} (h : Backed sb ino ip i ⟨m, s⟩) (hs : s.Same s') :
    Backed sb ino ip i ⟨m, s'⟩ := ⟨h.super, h.inum, h.copy, h.live, h.disk.same hs⟩

/-- The blocks that files had they still have, with the content they had. -/
structure Spared (ino ino' : Nat → Dinode) (s s' : Store) : Prop where
  block : ∀ j bn, (ino j).type ≠ 0 → (ino j).block s.cur bn ≠ 0 →
    (ino' j).block s'.cur bn = (ino j).block s.cur bn
  data : ∀ j bn, (ino j).type ≠ 0 → (ino j).block s.cur bn ≠ 0 →
    s'.cur ((ino j).block s.cur bn) = s.cur ((ino j).block s.cur bn)
  still : ∀ n, s.cur n = s.logged n → s'.cur n = s'.logged n

theorem Spared.same {s s' : Store} (hs : s.Same s') : Spared ino ino s s' where
  block j bn _ _ := by rw [hs.cur]
  data j bn _ _ := by rw [hs.cur]
  still n hn := by rw [hs.cur, hs.logged, hn]

theorem Spared.trans {ino₁ ino₂ : Nat → Dinode} {s s₁ s₂ : Store} (h : Spared ino ino₁ s s₁)
    (h' : Spared ino₁ ino₂ s₁ s₂) (ht : ∀ j, (ino₁ j).type = (ino j).type) : Spared ino ino₂ s s₂ where
  block j bn hj hb := by
    have h₁ := h.block j bn hj hb
    rw [h'.block j bn (by rw [ht]; exact hj) (by rw [h₁]; exact hb), h₁]
  data j bn hj hb := by
    have h₁ := h.block j bn hj hb
    have h₂ := h'.data j bn (by rw [ht]; exact hj) (by rw [h₁]; exact hb)
    rw [h₁] at h₂
    rw [h₂, h.data j bn hj hb]
  still n hn := h'.still n (h.still n hn)

theorem Grown.type {ino' : Nat → Dinode} (h : Grown ino ino' i cur cur') (j : Nat) :
    (ino' j).type = (ino j).type := by
  by_cases hj : j = i
  · rw [hj, h.fields]
  · rw [h.other j hj]

/-- What bmap() for block `bn` has done when it answers `r`. -/
structure Mapped (sb : Superblock) (ip : InodePtr) (i bn : Nat) (ino : Nat → Dinode) (fs : Fs) (r : Nat)
    (ino' : Nat → Dinode) (fs' : Fs) : Prop where
  backed : Backed sb ino' ip i fs'
  mem : fs'.mem = fs.mem.setInode ip (fun x => { x with copy := ino' i })
  grown : Grown ino ino' i fs.st.cur fs'.st.cur
  spared : Spared ino ino' fs.st fs'.st
  block : r ≠ 0 → (ino' i).block fs'.st.cur bn = r
  none : r = 0 → NoneFrom sb fs'.st.cur 0

theorem Backed.setCopy_self (h : Backed sb ino ip i fs) :
    fs.mem.setInode ip (fun x => { x with copy := ino i }) = fs.mem := by
  rw [← h.copy]
  exact congrArg (fun f => ({ fs.mem with inode := f } : Mem)) (setAt_self fs.mem.inode ip)

theorem Backed.mapped (h : Backed sb ino ip i fs) (fs' : Fs) (hm : fs'.mem = fs.mem)
    (hs : fs.st.Same fs'.st) {bn r : Nat} (hr : r ≠ 0 → (ino i).block fs.st.cur bn = r)
    (hz : r = 0 → NoneFrom sb fs.st.cur 0) : Mapped sb ip i bn ino fs r ino fs' := by
  obtain ⟨m', s'⟩ := fs'
  subst hm
  refine ⟨h.same hs, h.setCopy_self.symm, ?_, .same hs, ?_, ?_⟩
  · rw [show s'.cur = fs.st.cur from hs.cur]
    exact .refl _ _ _
  · rw [show s'.cur = fs.st.cur from hs.cur]
    exact hr
  · rw [show s'.cur = fs.st.cur from hs.cur]
    exact hz

/-- The blocks after bmap() has attached the loose block `b` at position `k₀`. -/
theorem Backed.attach (h : Backed sb ino ip i fs) (hsb : sb.Ok) {fs₁ : Fs} {c : Dinode}
    (hb : Balloced sb ino [i] [] fs b fs₁) (st₂ : Store) (k₀ : Nat)
    (hc : c.Ok) (hs : c = { ino i with addrs := c.addrs })
    (hmeta : ∀ n, n < sb.nmeta → st₂.cur n = fs₁.st.cur n)
    (hdata : ∀ j bn, st₂.cur (ptrs ino fs.st.cur (j, posOf bn)) =
      fs₁.st.cur (ptrs ino fs.st.cur (j, posOf bn)))
    (h₀ : ptrs ino fs₁.st.cur (i, k₀) = 0)
    (hp : ∀ k, c.ptr st₂.cur k = if k = k₀ then b else (ino i).ptr fs₁.st.cur k)
    (hp' : ∀ j k, j ≠ i → ptrs ino st₂.cur (j, k) = ptrs ino fs₁.st.cur (j, k))
    (hcalm : ∀ n, fs₁.st.cur n = fs₁.st.logged n → st₂.cur n = st₂.logged n)
    (hcb : st₂.cur b = st₂.logged b) :
    OnDisk sb (setAt ino i c) [i] [] st₂.cur st₂.logged ∧
      Grown ino (setAt ino i c) i fs.st.cur st₂.cur ∧ Spared ino (setAt ino i c) fs.st st₂ := by
  have ht := h.live
  have hlive : (setAt ino i c i).type ≠ 0 := by rw [setAt_same, hs]; exact ht
  have hptrs := hb.ptrs_eq h.disk
  have hnew : ptrs (setAt ino i c) st₂.cur (i, k₀) = b := by
    rw [ptrs_live hlive, setAt_same, hp, if_pos rfl]
  have hold : ∀ o, o ≠ (i, k₀) → ptrs (setAt ino i c) st₂.cur o = ptrs ino fs₁.st.cur o := by
    rintro ⟨j, k⟩ ho
    by_cases hj : j = i
    · subst hj
      rw [ptrs_live hlive, setAt_same, hp, if_neg (fun hk => ho (by rw [hk])), ptrs_live ht]
    · rw [← hp' j k hj]
      simp only [ptrs, setAt_other _ _ _ hj]
  have hblock : ∀ j bn, (ino j).type ≠ 0 → (ino j).block fs.st.cur bn ≠ 0 →
      (setAt ino i c j).block st₂.cur bn = (ino j).block fs.st.cur bn := by
    intro j bn hj hbn
    have hlive' : (setAt ino i c j).type ≠ 0 := by
      by_cases he : j = i
      · rw [he]; exact hlive
      · rw [setAt_other _ _ _ he]; exact hj
    unfold Dinode.block at hbn ⊢
    rw [← ptrs_live hlive', ← ptrs_live hj] at *
    rw [← hptrs] at hbn ⊢
    exact hold _ (fun he => hbn (he ▸ h₀))
  refine ⟨hb.disk.give List.mem_cons_self hc hs hmeta h₀ hnew hold hcalm hcb hsb,
    ⟨fun j hj => setAt_other _ _ _ hj, by rw [setAt_same]; exact hs, fun bn => hblock i bn ht⟩,
    hblock, ?_, fun n hn => hcalm n (hb.still n hn)⟩
  intro j bn hj hne
  have hpt : (ino j).block fs.st.cur bn = ptrs ino fs.st.cur (j, posOf bn) := (ptrs_live hj _ _).symm
  rw [hpt, hdata]
  rw [hpt] at hne
  refine hb.keeps _ (h.disk.ptr_ge hne) (fun he => ?_)
  rw [← hptrs] at he
  exact (hb.disk.owned.apart b List.mem_cons_self).2.2 _ he

/-- A new block becomes a direct block or the indirect block. -/
theorem setAddr_spec (hsb : sb.Ok) (h : Backed sb ino ip i fs) {fs₁ : Fs} {k : Nat}
    (hb : Balloced sb ino [i] [] fs b fs₁) (hk : k ≤ NDIRECT) (hz : (ino i).addrs.getD k 0 = 0) :
    (Kern.setAddr ip k b).Ensures (Fs.run p) ok (fun _ fs₂ => ∃ ino',
      Backed sb ino' ip i fs₂ ∧ fs₂.mem = fs.mem.setInode ip (fun x => { x with copy := ino' i }) ∧
      Grown ino ino' i fs.st.cur fs₂.st.cur ∧ Spared ino ino' fs.st fs₂.st ∧
      (ino' i).ptr fs₂.st.cur k = b) fs₁ := by
  have hf := h.disk.fields i
  have hcopy : (fs₁.mem.inode ip).copy = ino i := by rw [hb.mem]; exact h.copy
  have hlt := (hb.disk.owned.apart b List.mem_cons_self).2.1
  have hsize := hsb.size
  have hc : ({ ino i with addrs := (ino i).addrs.set k b } : Dinode).Ok := by
    refine ⟨hf.type, hf.major, hf.minor, hf.nlink, hf.size, by simp [hf.length], ?_⟩
    intro a ha
    rcases List.mem_or_eq_of_mem_set ha with ha | rfl
    · exact hf.addrs a ha
    · omega
  have hp := ptr_setAddr hf.length hk hz hb.zero
  obtain ⟨hdisk, hg, hsp⟩ := h.attach hsb hb fs₁.st k hc rfl (fun _ _ => rfl) (fun _ _ => rfl)
    (by rw [ptrs_live h.live, Dinode.ptr, if_pos hk, hz]) hp (fun _ _ _ => rfl) (fun _ => id)
    (by rw [hb.zero, hb.calm])
  unfold Kern.setAddr Kern.setCopy Kern.setInode
  rw [ensures_update]
  refine ⟨_, ⟨?_, ?_, ?_, ?_, hdisk⟩, ?_, hg, hsp, by rw [setAt_same, hp, if_pos rfl]⟩
  · rw [setInode_sb, hb.mem, h.super]
  · rw [setInode_same, hb.mem, h.inum]
  · rw [setInode_same, setAt_same]
    simp only [hcopy]
  · rw [setAt_same]
    exact h.live
  · rw [setAt_same, hb.mem]
    rw [hb.mem] at hcopy
    dsimp only
    apply setInode_congr
    rw [hcopy]

theorem block_direct {d : Dinode} {bn : Nat} (hd : bn < NDIRECT) : d.block cur bn = d.addrs.getD bn 0 := by
  rw [Dinode.block, posOf, if_pos hd, Dinode.ptr, if_pos (by omega)]

theorem block_indirect {d : Dinode} {bn : Nat} (hd : ¬ bn < NDIRECT) (hne : d.block cur bn ≠ 0) :
    bn - NDIRECT < NINDIRECT ∧ d.addrs.getD NDIRECT 0 ≠ 0 ∧
      d.block cur bn = wordAt (cur (d.addrs.getD NDIRECT 0)) (bn - NDIRECT) := by
  have hptr : d.block cur bn = if d.addrs.getD NDIRECT 0 ≠ 0 ∧ bn - NDIRECT < NINDIRECT then
      wordAt (cur (d.addrs.getD NDIRECT 0)) (bn - NDIRECT) else 0 := by
    rw [Dinode.block, posOf, if_neg hd, Dinode.ptr, if_neg (by omega),
      show bn + 1 - (NDIRECT + 1) = bn - NDIRECT by omega]
  rw [hptr] at hne ⊢
  split at hne
  · rename_i hc
    exact ⟨hc.2, hc.1, if_pos hc⟩
  · exact absurd rfl hne

theorem bmapIndirect_mapped (hok : Benign ok) (hsb : sb.Ok) (h : Backed sb ino ip i fs) {bn : Nat}
    (hbn : bn < NINDIRECT) (ha : (ino i).addrs.getD NDIRECT 0 ≠ 0) :
    (Kern.bmapIndirect ((ino i).addrs.getD NDIRECT 0) bn).Ensures (Fs.run p) ok
      (fun r fs' => ∃ ino', Mapped sb ip i (NDIRECT + bn) ino fs r ino' fs') fs := by
  have ht := h.live
  generalize haddr : (ino i).addrs.getD NDIRECT 0 = a at *
  have hown : ptrs ino fs.st.cur (i, NDIRECT) = a := by
    rw [ptrs_live ht, ptr_indirect, haddr]
  have hge : sb.nmeta ≤ a := hown ▸ h.disk.ptr_ge (hown ▸ ha)
  have hcalm := h.disk.calm a (.inr ⟨i, NDIRECT, hown, .inl rfl⟩)
  have hword : (ino i).ptr fs.st.cur (NDIRECT + 1 + bn) = wordAt (fs.st.cur a) bn := by
    rw [Dinode.ptr, if_neg (by omega), haddr, if_pos ⟨ha, by omega⟩]
    congr 1
    omega
  have hpos : posOf (NDIRECT + bn) = NDIRECT + 1 + bn := by
    unfold posOf
    rw [if_neg (by omega)]
    omega
  unfold Kern.bmapIndirect
  rw [Free.ensures_bind]
  apply ensures_bread_calm hcalm
  intro st hs
  rw [Free.ensures_bind, ensures_bdata]
  simp only [hs.cur]
  apply ensures_ite
  · intro hz
    have h₁ := h.same hs
    apply Free.Ensures.seq (balloc_spec hok hsb h₁.super h₁.disk)
    rintro b fs₂ (⟨rfl, hm, hs₂, hnone⟩ | ⟨hb₀, hb⟩)
    · -- there was no block
      rw [Free.ensures_bind]
      apply ensures_when (fun hne => absurd rfl hne)
      intro _
      have hs' := hs.trans hs₂
      rw [Free.ensures_bind]
      apply ensures_brelse_calm (by rw [hs'.cur, hs'.logged]; exact hcalm)
      intro st₃ hs₃
      rw [show ({ fs with st := st } : Fs).st.cur = fs.st.cur from hs.cur] at hnone
      exact ⟨ino, h.mapped ⟨fs₂.mem, st₃⟩ hm (hs'.trans hs₃) (fun hne => absurd rfl hne) (fun _ => hnone)⟩
    · obtain ⟨hlo, hhi, hfree⟩ := hb.disk.owned.apart b List.mem_cons_self
      have hsize := hsb.size
      have hptrs := hb.ptrs_eq h₁.disk
      have hab : a ≠ b := by
        intro he
        refine hfree (i, NDIRECT) ?_
        rw [hptrs, ← he]
        simpa only [hs.cur] using hown
      have hcur : fs₂.st.cur a = fs.st.cur a := by rw [hb.keeps a hge hab, hs.cur]
      rw [Free.ensures_bind]
      apply ensures_when
      · intro _
        apply ensures_modify hok
        intro st₃ hc₃ hl₃
        rw [Free.ensures_bind]
        apply ensures_brelse_calm (by simp [hc₃, hl₃])
        intro st₄ hs₄
        have hc₄ : st₄.cur = setAt fs₂.st.cur a (setWord (fs₂.st.cur a) bn b) := by
          rw [hs₄.cur, hc₃, hcur]
        have hl₄ : st₄.logged = setAt fs₂.st.logged a (setWord (fs₂.st.cur a) bn b) := by
          rw [hs₄.logged, hl₃, hcur]
        -- nothing but the indirect address leads to the changed block
        have honly : ∀ o, ptrs ino st.cur o = a → o = (i, NDIRECT) := by
          intro o ho
          rw [hs.cur] at ho
          exact h.disk.owned.inj _ _ (by rw [ho]; exact ha) (ho.trans hown.symm)
        have hatt := h₁.attach hsb hb st₄ (NDIRECT + 1 + bn) (h.disk.fields i) rfl ?_ ?_ ?_ ?_ ?_ ?_ ?_
        · rw [setAt_self] at hatt
          obtain ⟨hdisk, hg, hsp⟩ := hatt
          refine ⟨ino, ⟨?_, ?_, ?_, ht, hdisk⟩, ?_, by simpa only [hs.cur] using hg, ?_, fun _ => ?_,
            fun he => absurd he hb₀⟩
          · rw [hb.mem]
            exact h.super
          · rw [hb.mem]
            exact h.inum
          · rw [hb.mem]
            exact h.copy
          · rw [h.setCopy_self]
            exact hb.mem
          · exact (Spared.same hs).trans hsp (fun _ => rfl)
          · rw [Dinode.block, hpos]
            change (ino i).ptr st₄.cur _ = b
            rw [hc₄, ← haddr, ptr_setWord hbn (by omega) (haddr ▸ ha), if_pos rfl]
        · intro n hn
          rw [hc₄, setAt_other _ _ _ (by omega)]
        · intro j bn'
          rw [hc₄, setAt_other _ _ _]
          intro he
          exact posOf_ne bn' (Prod.mk.inj (honly _ he)).2
        · rw [hptrs, ptrs_live ht]
          simpa only [hs.cur] using hword.trans hz
        · intro k
          rw [hc₄, ← haddr]
          exact ptr_setWord hbn (by omega) (haddr ▸ ha) k
        · intro j k hj
          by_cases htj : (ino j).type = 0
          · rw [ptrs_free htj, ptrs_free htj]
          · rw [ptrs_live htj, ptrs_live htj, hc₄]
            refine ptr_congr (fun _ => setAt_other _ _ _ (fun he => hj ?_)) k
            refine (Prod.mk.inj (honly (j, NDIRECT) ?_)).1
            rw [ptrs_live htj, ptr_indirect, he]
        · intro n hn
          simp only [hc₄, hl₄, setAt_apply, hn]
        · simp only [hc₄, hl₄, setAt_other _ _ _ (Ne.symm hab), hb.zero, hb.calm]
      · exact fun hne => absurd hb₀ hne
  · intro hne
    rw [Free.ensures_bind]
    apply ensures_brelse_calm (by rw [hs.cur, hs.logged]; exact hcalm)
    intro st₁ hs₁
    refine ⟨ino, h.mapped ⟨fs.mem, st₁⟩ rfl (hs.trans hs₁) (fun _ => ?_) (fun hz => absurd hz hne)⟩
    rw [Dinode.block, hpos, hword]

theorem Mapped.after {bn r : Nat} {fs₁ fs₂ : Fs} {ino₁ ino₂ : Nat → Dinode}
    (hm : fs₁.mem = fs.mem.setInode ip (fun x => { x with copy := ino₁ i }))
    (hg : Grown ino ino₁ i fs.st.cur fs₁.st.cur) (hs : Spared ino ino₁ fs.st fs₁.st)
    (h : Mapped sb ip i bn ino₁ fs₁ r ino₂ fs₂) : Mapped sb ip i bn ino fs r ino₂ fs₂ where
  backed := h.backed
  mem := by rw [h.mem, hm, setInode_setInode]
  grown := hg.trans h.grown
  spared := hs.trans h.spared hg.type
  block := h.block
  none := h.none

theorem bmap_mapped (hok : Benign ok) (hsb : sb.Ok) (h : Backed sb ino ip i fs) {bn : Nat}
    (hbn : bn < MAXFILE) : (Kern.bmap ip bn).Ensures (Fs.run p) ok
      (fun r fs' => ∃ ino', Mapped sb ip i bn ino fs r ino' fs') fs := by
  have hcopy := h.copy
  unfold Kern.bmap Kern.addrOf
  apply ensures_ite
  · intro hd
    rw [Free.ensures_bind, ensures_get, hcopy]
    apply ensures_ite
    · intro hz
      apply Free.Ensures.seq (balloc_spec hok hsb h.super h.disk)
      rintro b fs₁ (⟨rfl, hm, hs, hnone⟩ | ⟨hb₀, hb⟩)
      · rw [Free.ensures_bind]
        apply ensures_when (fun hne => absurd rfl hne)
        intro _
        exact ⟨ino, h.mapped fs₁ hm hs (fun hne => absurd rfl hne) (fun _ => hnone)⟩
      · rw [Free.ensures_bind]
        apply ensures_when
        · intro _
          refine (setAddr_spec hsb h hb (by omega) hz).mono ?_
          rintro - fs₂ ⟨ino', h', hm, hg, hs, hk⟩
          refine ⟨ino', h', hm, hg, hs, fun _ => ?_, fun he => absurd he hb₀⟩
          rw [Dinode.block, posOf, if_pos hd, hk]
        · exact fun hne => absurd hb₀ hne
    · intro hne
      exact ⟨ino, h.mapped fs rfl (.refl _) (fun _ => block_direct hd) (fun hz => absurd hz hne)⟩
  · intro hd
    apply ensures_ite
    · intro hn
      have hbn' : NDIRECT + (bn - NDIRECT) = bn := by omega
      rw [Free.ensures_bind, ensures_get, hcopy]
      apply ensures_ite
      · intro hz
        apply Free.Ensures.seq (balloc_spec hok hsb h.super h.disk)
        rintro b fs₁ (⟨rfl, hm, hs, hnone⟩ | ⟨hb₀, hb⟩)
        · apply ensures_ite
          · intro _
            exact ⟨ino, h.mapped fs₁ hm hs (fun hne => absurd rfl hne) (fun _ => hnone)⟩
          · exact fun hne => absurd rfl hne
        · apply ensures_ite
          · exact fun he => absurd he hb₀
          · intro _
            -- the indirect block first, then the block itself
            apply Free.Ensures.seq (setAddr_spec hsb h hb (Nat.le_refl _) hz)
            rintro - fs₂ ⟨ino', h', hm, hg, hs, hk⟩
            rw [ptr_indirect] at hk
            have hi := bmapIndirect_mapped (p := p) hok hsb h' hn (by rw [hk]; exact hb₀)
            rw [hk, hbn'] at hi
            refine hi.mono ?_
            rintro r fs₃ ⟨ino'', h''⟩
            exact ⟨ino'', h''.after hm hg hs⟩
      · intro hne
        have hi := bmapIndirect_mapped (p := p) hok hsb h hn hne
        rwa [hbn'] at hi
    · intro hn
      unfold MAXFILE at hbn
      omega

/-- bmap() only looks up a block that is there. -/
theorem Backed.bmap_there (h : Backed sb ino ip i fs) {bn : Nat} (hne : (ino i).block fs.st.cur bn ≠ 0) :
    (Kern.bmap ip bn).Ensures (Fs.run p) ok (fun r fs' =>
      r = (ino i).block fs.st.cur bn ∧ fs'.mem = fs.mem ∧ fs.st.Same fs'.st) fs := by
  unfold Kern.bmap Kern.addrOf
  apply ensures_ite
  · intro hd
    rw [block_direct hd] at hne ⊢
    rw [Free.ensures_bind, ensures_get, h.copy]
    apply ensures_ite
    · exact fun hz => absurd hz hne
    · exact fun _ => ⟨rfl, rfl, .refl _⟩
  · intro hd
    obtain ⟨hn, ha, hw⟩ := block_indirect hd hne
    rw [hw] at hne ⊢
    have hcalm := h.disk.calm ((ino i).addrs.getD NDIRECT 0)
      (.inr ⟨i, NDIRECT, by rw [ptrs_live h.live, ptr_indirect], .inl rfl⟩)
    rw [if_pos hn, Free.ensures_bind, ensures_get, h.copy, if_neg ha]
    unfold Kern.bmapIndirect
    rw [Free.ensures_bind]
    apply ensures_bread_calm hcalm
    intro st hs
    rw [Free.ensures_bind, ensures_bdata]
    simp only [hs.cur]
    apply ensures_ite
    · exact fun hz => absurd hz hne
    · intro _
      rw [Free.ensures_bind]
      apply ensures_brelse_calm (by rw [hs.cur, hs.logged]; exact hcalm)
      intro st₁ hs₁
      exact ⟨rfl, rfl, hs.trans hs₁⟩

/- The same with the holders of in-memory inodes. -/

theorem copy_eq (h : Within p sb N t ino ahead loose [] fs) (hl : (ip, i) ∈ t.locked) :
    (fs.mem.inode ip).copy = ino i := by
  obtain ⟨hn, hv, -⟩ := h.locked hl
  have hc := (h.mem.slot ip).copy (h.mem.ref_pos hn) hv (by simp)
  rwa [h.mem.inum_eq hn] at hc

theorem Within.backed (h : Within p sb N t ino [i] [] [] fs) (hl : (ip, i) ∈ t.locked) :
    Backed sb ino ip i fs :=
  ⟨h.mem.super, h.mem.inum_eq (h.locked hl).1, copy_eq h hl, (h.locked hl).2.2, h.disk⟩

/-- What bmap() for block `bn` has done when it answers `r`. -/
def Bmapped (p : ProcId) (sb : Superblock) (N : Nat → Node) (t : Holders) (ino : Nat → Dinode)
    (i bn : Nat) (fs : Fs) (r : Nat) (fs' : Fs) : Prop :=
  ∃ ino', Within p sb N t ino' [i] [] [] fs' ∧ Grown ino ino' i fs.st.cur fs'.st.cur ∧
    (r ≠ 0 → (ino' i).block fs'.st.cur bn = r)

theorem Mapped.within {bn r : Nat} {ino' : Nat → Dinode} {fs' : Fs}
    (hm : Mapped sb ip i bn ino fs r ino' fs') (h : Within p sb N t ino [i] [] [] fs)
    (hl : (ip, i) ∈ t.locked) : Within p sb N t ino' [i] [] [] fs' := by
  obtain ⟨hn, hv, -⟩ := h.locked hl
  have hino : setAt ino i (ino' i) = ino' := by
    funext j
    by_cases hj : j = i
    · rw [hj, setAt_same]
    · rw [setAt_other _ _ _ hj, hm.grown.other j hj]
  have hmem := h.mem.setCopy hn hv (hm.grown.type i)
  rw [hino, ← hm.mem] at hmem
  refine ⟨hm.backed.disk, hmem, fun j => ?_, h.sane⟩
  rw [h.node j]
  symm
  apply node_moved
  · by_cases hj : j = i
    · rw [hj]
      exact hm.grown.fields
    · rw [hm.grown.other j hj]
  · intro hj bn' hbn
    have hne := h.disk.full j bn' hj hbn
    rw [hm.spared.block j bn' hj hne, hm.spared.data j bn' hj hne]

theorem bmap_spec (hok : Benign ok) (hsb : sb.Ok) (h : Within p sb N t ino [i] [] [] fs)
    (hl : (ip, i) ∈ t.locked) {bn : Nat} (hbn : bn < MAXFILE) :
    (Kern.bmap ip bn).Ensures (Fs.run p) ok (Bmapped p sb N t ino i bn fs) fs := by
  refine (bmap_mapped hok hsb (h.backed hl) hbn).mono ?_
  rintro r fs' ⟨ino', hm⟩
  exact ⟨ino', hm.within h hl, hm.grown, hm.block⟩

/-- bmap() only looks up a block that is there. -/
theorem bmap_read (h : Within p sb N t ino [] [] [] fs) (hl : (ip, i) ∈ t.locked) {bn : Nat}
    (hne : (ino i).block fs.st.cur bn ≠ 0) :
    (Kern.bmap ip bn).Ensures (Fs.run p) ok (fun r fs' =>
      r = (ino i).block fs.st.cur bn ∧ fs'.mem = fs.mem ∧ fs.st.Same fs'.st) fs := by
  have h' : Within p sb N t ino [i] [] [] fs := ⟨h.disk.later i, h.mem, h.node, h.sane⟩
  exact (h'.backed hl).bmap_there hne

end
end Xv6
