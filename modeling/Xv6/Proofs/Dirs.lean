import Xv6.Proofs.Content

namespace Xv6
variable {p : ProcId} {ok : Panic → Prop} {sb : Superblock} {N : Nat → Node} {t : Holders}
  {ino : Nat → Dinode} {ahead loose away : List Nat} {fs : Fs} {ip : InodePtr} {i : Nat}

/- Reading an entry. -/

/-- The bytes of a directory that lie in one block are read in one turn. -/
theorem readiLoop_once (hsb : sb.Ok) (h : Within p sb N t ino [] [] [] fs)
    (hl : (ip, i) ∈ t.locked) (hd : (ino i).type = T_DIR) {n off fuel : Nat} (hf : 0 < fuel)
    (hn : 0 < n) (hfit : off % BSIZE + n ≤ BSIZE) (hle : off + n ≤ (ino i).size) :
    (Kern.readiLoop ip .kernel n fuel 0 off []).Ensures (Fs.run p) ok (fun r fs' =>
      r = ((n : Int), (fs.st.cur ((ino i).block fs.st.cur (off / BSIZE))).get (off % BSIZE) n) ∧
      fs'.mem = fs.mem ∧ fs.st.Same fs'.st) fs := by
  have ht : (ino i).type ≠ 0 := by rw [hd]; decide
  have ho : off < (ino i).size := by omega
  have hne := h.block_ne ht ho
  obtain ⟨k, rfl⟩ : ∃ k, fuel = k + 1 := ⟨fuel - 1, by omega⟩
  have hm : min (n - 0) (BSIZE - off % BSIZE) = n := by omega
  unfold Kern.readiLoop
  rw [if_pos hn]
  apply Free.Ensures.seq (bmap_read h hl hne)
  rintro addr ⟨m₁, st₁⟩ ⟨rfl, rfl, hs₁⟩
  rw [if_neg hne, Free.ensures_bind]
  have h₁ := h.same hs₁
  have hb : (ino i).block st₁.cur (off / BSIZE) = (ino i).block fs.st.cur (off / BSIZE) := by
    rw [hs₁.cur]
  apply h₁.bread_spec hsb ht hb hne
  intro N₂ st₂ h₂ hs₂
  have hsame := hs₁.trans (hs₂.dir hd).2
  rw [Free.ensures_bind, ensures_bdata]
  dsimp only
  rw [hm, if_pos (show Dst.kernel.copyout 0 n = true from rfl), Free.ensures_bind]
  apply h₂.brelse_spec hsb ht ((block_of_ptrs hs₂.ptrs ht _).trans hb) hne
  intro N₃ st₃ h₃ hs₃
  have hend : ∀ acc, Kern.readiLoop ip .kernel n k (0 + n) (off + n) acc =
      (return ((n : Int), acc) : KernM (Int × List UInt8)) := by
    intro acc
    rw [Nat.zero_add]
    cases k with
    | zero => rfl
    | succ k =>
      unfold Kern.readiLoop
      rw [if_neg (Nat.lt_irrefl n)]
  rw [hend, Free.ensures_pure, List.nil_append, hsame.cur]
  exact ⟨rfl, rfl, hsame.trans (hs₃.dir hd).2⟩

theorem Within.entry_eq (h : Within p sb N t ino ahead loose away fs) (hd : (N i).type = T_DIR)
    {s : Nat} (hs : 16 * s < (N i).size) : (N i).entry s = (ino i).dirent fs.st.cur s := by
  have ht := h.type_eq i
  have hlive : (ino i).type ≠ 0 := by rw [← ht, hd]; decide
  rw [h.node i, node_live hlive] at hs ⊢
  exact if_pos ⟨ht.symm.trans hd, hs⟩

theorem Within.size_eq (h : Within p sb N t ino ahead loose away fs) (ht : (ino i).type ≠ 0) :
    (N i).size = (ino i).size := by rw [h.node i, node_live ht]

/-- One entry of a directory. -/
theorem readDirent_spec (hsb : sb.Ok) (h : Inside p sb N t fs) (hl : (ip, i) ∈ t.locked)
    (hd : (N i).type = T_DIR) {s : Nat} (hs : 16 * s < (N i).size) (e : Panic) :
    (Kern.readDirent ip (16 * s) e).Ensures (Fs.run p) ok (fun de fs' =>
      Inside p sb N t fs' ∧ de = (N i).entry s) fs := by
  obtain ⟨ino, h⟩ := h
  obtain ⟨-, -, ht⟩ := h.locked hl
  have hdir : (ino i).type = T_DIR := by rw [← h.type_eq i]; exact hd
  have hsize := h.size_eq ht
  have hmod := (h.sane i hd).1
  have hfits := h.disk.fits i ht
  have hentry := h.entry_eq hd hs
  rw [hsize] at hs hmod
  rw [MAXFILE_BSIZE] at hfits
  unfold Kern.readDirent Kern.readi Kern.inodeOf
  rw [Free.ensures_bind, Free.ensures_bind, ensures_get, copy_eq h hl, if_neg (by omega)]
  dsimp only
  rw [if_neg (by omega)]
  have hfit : 16 * s % BSIZE + 16 ≤ BSIZE := by rw [BSIZE_eq]; omega
  refine (readiLoop_once hsb h hl hdir (by omega) (by omega) hfit (by omega)).mono ?_
  rintro r ⟨m', st'⟩ ⟨rfl, rfl, hs'⟩
  refine ⟨⟨ino, h.same hs'⟩, ?_⟩
  rw [hentry]
  rfl

/- Writing an entry. -/

theorem dirent_put {d : Dinode} {cur : Disk} {s s' : Nat} {bs : List UInt8} (hlen : bs.length = 16)
    (hinj : d.block cur (16 * s' / BSIZE) = d.block cur (16 * s / BSIZE) →
      16 * s' / BSIZE = 16 * s / BSIZE) {cur' : Disk}
    (hblock : ∀ bn, d.block cur' bn = d.block cur bn)
    (hcur : cur' = setAt cur (d.block cur (16 * s / BSIZE))
      ((cur (d.block cur (16 * s / BSIZE))).put (16 * s % BSIZE) bs)) :
    d.dirent cur' s' = if s' = s then direntOf bs else d.dirent cur s' := by
  unfold Dinode.dirent
  rw [hblock, hcur]
  have hs : 16 * s % BSIZE + bs.length ≤ BSIZE := by
    rw [hlen, BSIZE_eq]
    omega
  split
  · rename_i he
    rw [he, setAt_same]
    have := (cur (d.block cur (16 * s / BSIZE))).get_put (16 * s % BSIZE) bs hs
    rw [hlen] at this
    rw [this]
  · rename_i hne
    rw [setAt_apply]
    split
    · rename_i hb
      have hbn := hinj hb
      rw [ByteArr.get_put_disjoint, hb]
      rw [hlen]
      rw [BSIZE_eq] at hbn ⊢
      omega
    · rfl

/-- What writeiLoop() has done when it wrote the entry `bs` to slot `s`. -/
structure Entered (N N' : Nat → Node) (ino ino' : Nat → Dinode) (i s : Nat) (bs : List UInt8)
    (cur cur' : Disk) : Prop where
  other : ∀ j, j ≠ i → N' j = N j
  fields : ino' i = { ino i with addrs := (ino' i).addrs }
  block : (ino' i).block cur' (16 * s / BSIZE) ≠ 0
  dirent : ∀ s', s' = s ∨ 16 * s' < (ino i).size →
    (ino' i).dirent cur' s' = if s' = s then direntOf bs else (ino i).dirent cur s'

theorem writeiLoop_entry (hok : Benign ok) (hsb : sb.Ok) (h : Within p sb N t ino [i] [] [] fs)
    (hl : (ip, i) ∈ t.locked) (hd : (ino i).type = T_DIR) {s : Nat} {bs : List UInt8}
    (hlen : bs.length = 16) (hbs : (direntOf bs).inum < sb.ninodes)
    (hmax : 16 * s + 16 ≤ MAXFILE * BSIZE) {fuel : Nat} (hf : 0 < fuel) :
    (Kern.writeiLoop ip (.kernel bs) 16 fuel 0 (16 * s)).Ensures (Fs.run p) ok (fun r fs' =>
      (∃ ino', r = (0, 16 * s) ∧ Within p sb N t ino' [i] [] [] fs' ∧
        ino' i = { ino i with addrs := (ino' i).addrs }) ∨
      ∃ N' ino', r = (16, 16 * s + 16) ∧ Within p sb N' t ino' [i] [] [] fs' ∧
        Entered N N' ino ino' i s bs fs.st.cur fs'.st.cur) fs := by
  have hbn : 16 * s / BSIZE < MAXFILE := by
    rw [Nat.div_lt_iff_lt_mul (by decide)]
    omega
  have hm : min (16 - 0) (BSIZE - 16 * s % BSIZE) = 16 := by rw [BSIZE_eq]; omega
  obtain ⟨k, rfl⟩ : ∃ k, fuel = k + 1 := ⟨fuel - 1, by omega⟩
  unfold Kern.writeiLoop
  rw [if_pos (by decide)]
  apply Free.Ensures.seq (bmap_spec hok hsb h hl hbn)
  rintro addr fs₁ ⟨ino₁, h₁, hg, hr⟩
  obtain ⟨-, -, ht⟩ := h₁.locked hl
  have hd₁ : (ino₁ i).type = T_DIR := by rw [hg.fields]; exact hd
  apply ensures_ite
  · intro _
    exact .inl ⟨ino₁, rfl, h₁, hg.fields⟩
  · intro hne
    have hb := hr hne
    have hblk : DataBlock ino₁ fs₁.st.cur i (16 * s / BSIZE) addr := ⟨ht, hb, hne⟩
    rw [Free.ensures_bind]
    apply ensures_bread_calm (h₁.calm_dir hb hd₁)
    intro st₂ hs₂
    rw [Free.ensures_bind, ensures_bdata]
    simp only [hm, hs₂.cur]
    have hcopy : Src.copyin (.kernel bs) 0 16 = (bs, true) := by
      simp [Src.copyin, ← hlen]
    rw [hcopy]
    simp only [if_true]
    apply ensures_put_brelse hok
    intro st₃ hc₃ hl₃
    simp only [hs₂.cur, hs₂.logged] at hc₃ hl₃
    have hend : Kern.writeiLoop ip (.kernel bs) 16 k (0 + 16) (16 * s + 16) =
        (return (16, 16 * s + 16) : KernM (Nat × Nat)) := by
      cases k with
      | zero => rfl
      | succ k =>
        unfold Kern.writeiLoop
        rw [if_neg (by decide)]
    rw [hend, Free.ensures_pure]
    have hap : fs₁.st.Apart addr st₃ :=
      ⟨fun n hn => by rw [hc₃, setAt_other _ _ _ hn], fun n hn => by rw [hl₃, setAt_other _ _ _ hn]⟩
    obtain ⟨hdisk, hptrs⟩ := h₁.disk.touch hsb hblk hap (fun _ => by rw [hc₃, hl₃, setAt_same, setAt_same])
    have hdirent : ∀ s', s' = s ∨ 16 * s' < (ino i).size →
        (ino₁ i).dirent st₃.cur s' = if s' = s then direntOf bs else (ino i).dirent fs.st.cur s' := by
      intro s' hs'
      rw [dirent_put hlen (fun he => ?_) (block_of_ptrs hptrs ht) (by rw [hb]; exact hc₃)]
      · split
        · rfl
        · rename_i hne'
          have hs' := hs'.resolve_left hne'
          have hN : (N i).type = T_DIR := by rw [h.type_eq]; exact hd
          have hlive : (ino i).type ≠ 0 := by rw [hd]; decide
          have hsz : 16 * s' < (N i).size := by rw [h.size_eq hlive]; exact hs'
          rw [← h.entry_eq hN hsz, ← h₁.entry_eq hN hsz]
      · rw [hb] at he
        have := hblk.only h₁.disk (o := (i, posOf (16 * s' / BSIZE))) (by rw [ptrs_live ht]; exact he)
        exact posOf_inj (Prod.mk.inj this).2
    refine .inr ⟨setAt N i ((ino₁ i).node st₃.cur), ino₁, rfl,
      ⟨hdisk, h₁.mem, ?_, h.sane.set ?_⟩, fun j hj => setAt_other _ _ _ hj, hg.fields, ?_, hdirent⟩
    · intro j
      by_cases hj : j = i
      · rw [hj, setAt_same]
      · rw [setAt_other _ _ _ hj]
        exact h₁.node_other hblk hap hj
    · intro _
      have hN : (N i).type = T_DIR := by rw [h.type_eq]; exact hd
      obtain ⟨hmod, hin⟩ := h.sane i hN
      have hlive : (ino i).type ≠ 0 := by rw [hd]; decide
      rw [node_live ht]
      refine ⟨?_, fun s' => ?_⟩
      · rw [h.size_eq hlive] at hmod
        rw [hg.fields]
        exact hmod
      · dsimp only
        split
        · rename_i hc
          have hsz : 16 * s' < (ino i).size := by rw [hg.fields] at hc; exact hc.2
          rw [hdirent s' (.inr hsz)]
          split
          · exact hbs
          · rw [← h.size_eq hlive] at hsz
            rw [← h.entry_eq hN hsz]
            exact hin s'
        · exact Nat.zero_lt_of_lt hbs
    · rw [block_of_ptrs hptrs ht, hb]
      exact hne

/-- The size that writei() sets is the one that Node.enter has. -/
theorem Entered.node {N' : Nat → Node} {ino' : Nat → Dinode} {s : Nat} {bs : List UInt8}
    {cur' : Disk} (he : Entered N N' ino ino' i s bs fs.st.cur cur')
    (h : Within p sb N t ino ahead loose away fs) (hd : (N i).type = T_DIR)
    (hs : 16 * s ≤ (N i).size) :
    ({ ino' i with size := max (N i).size (16 * s + 16) } : Dinode).node cur' =
      (N i).enter s (direntOf bs) := by
  have hdir : (ino i).type = T_DIR := by rw [← h.type_eq i]; exact hd
  have ht : (ino i).type ≠ 0 := by rw [hdir]; decide
  have hdir' : (ino' i).type = T_DIR := by rw [he.fields]; exact hdir
  have ht' : ({ ino' i with size := max (N i).size (16 * s + 16) } : Dinode).type ≠ 0 := by
    change (ino' i).type ≠ 0
    rw [hdir']
    decide
  have hN : N i = (ino i).node fs.st.cur := h.node i
  rw [node_live ht] at hN
  rw [node_live ht', Node.enter, Node.mk.injEq]
  refine ⟨?_, ?_, ?_, ?_, rfl, ?_, ?_⟩
  · rw [hd]; exact hdir'
  · rw [hN, he.fields]
  · rw [hN, he.fields]
  · rw [hN, he.fields]
  · funext s'
    change (if (ino' i).type = T_DIR ∧ 16 * s' < max (N i).size (16 * s + 16) then
      (ino' i).dirent cur' s' else Dirent.empty) = _
    by_cases hs' : s' = s
    · rw [hs', setAt_same, if_pos ⟨hdir', by omega⟩, he.dirent s (.inl rfl), if_pos rfl]
    · rw [setAt_other _ _ _ hs']
      by_cases hsz : 16 * s' < (N i).size
      · have hsz' := hsz
        rw [h.size_eq ht] at hsz'
        rw [if_pos ⟨hdir', by omega⟩, he.dirent s' (.inr hsz'), if_neg hs', h.entry_eq hd hsz]
      · rw [if_neg (by omega), hN]
        rw [h.size_eq ht] at hsz
        exact (if_neg (fun hc => hsz hc.2)).symm
  · rw [hN]
    funext o
    change (if (ino' i).type ≠ T_DIR ∧ _ then _ else (0 : UInt8)) = _
    rw [if_neg (fun hc => hc.1 hdir')]
    exact (if_neg (fun hc => hc.1 hdir)).symm

/-- Writing an entry changes it, or fails and changes nothing. -/
theorem writei_entry_spec (hok : Benign ok) (hsb : sb.Ok) (h : Inside p sb N t fs)
    (hl : (ip, i) ∈ t.locked) (hd : (N i).type = T_DIR) {s : Nat} {bs : List UInt8}
    (hs : 16 * s ≤ (N i).size) (hlen : bs.length = 16) (hbs : (direntOf bs).inum < sb.ninodes) :
    (Kern.writei ip (.kernel bs) (16 * s) 16).Ensures (Fs.run p) ok (fun r fs' =>
      (r ≠ 16 ∧ Inside p sb N t fs') ∨
      (r = 16 ∧ Inside p sb (setAt N i ((N i).enter s (direntOf bs))) t fs')) fs := by
  obtain ⟨ino, h⟩ := h
  obtain ⟨-, -, ht⟩ := h.locked hl
  have hdir : (ino i).type = T_DIR := by rw [← h.type_eq i]; exact hd
  have hsize := h.size_eq ht
  have hmod := (h.sane i hd).1
  have hfits := h.disk.fits i ht
  rw [MAXFILE_BSIZE] at hfits
  unfold Kern.writei Kern.inodeOf
  rw [Free.ensures_bind, ensures_get, copy_eq h hl, if_neg (by omega)]
  apply ensures_ite
  · exact fun _ => .inl ⟨by decide, ino, h⟩
  · intro hmax
    have h₀ : Within p sb N t ino [i] [] [] fs := ⟨h.disk.later i, h.mem, h.node, h.sane⟩
    apply Free.Ensures.seq (writeiLoop_entry hok hsb h₀ hl hdir hlen hbs (by omega) (by decide))
    rintro ⟨tot, off'⟩ fs₁ (⟨ino₁, hr, h₁, hf₁⟩ | ⟨N₁, ino₁, hr, h₁, he⟩)
    · cases hr
      have hsz₁ : (ino₁ i).size = (N i).size := by rw [hf₁]; exact hsize.symm
      have ht₁ : (ino₁ i).type ≠ 0 := by rw [hf₁]; exact ht
      have hw := h₁.resize hl (ino₁ i).size
        (fun c => { c with size := if 16 * s > c.size then 16 * s else c.size })
        (h₁.disk.fits i ht₁) (fun bn hbn => h₁.disk.full i bn ht₁ hbn)
        (fun _ => by
          rw [hsz₁]
          exact ⟨hmod, fun s' hs' => by rw [← h₁.entry_eq hd hs']; exact (h.sane i hd).2 s'⟩)
        (by rw [if_neg (by omega)])
      have hnode : ({ ino₁ i with size := (ino₁ i).size } : Dinode).node fs₁.st.cur = N i :=
        (h₁.node i).symm
      rw [hnode, setAt_self] at hw
      unfold Kern.setCopy Kern.setInode
      rw [Free.ensures_bind, ensures_update]
      apply Free.Ensures.seq (iupdate_spec hok hsb hw hl)
      intro _ fs₂ h₂
      exact .inl ⟨by decide, _, h₂⟩
    · cases hr
      have hsz₁ : (ino₁ i).size = (N i).size := by rw [he.fields]; exact hsize.symm
      have ht₁ : (ino₁ i).type ≠ 0 := by rw [he.fields]; exact ht
      have hw := h₁.resize hl (max (N i).size (16 * s + 16))
        (fun c => { c with size := if 16 * s + 16 > c.size then 16 * s + 16 else c.size })
        (by rw [MAXFILE_BSIZE] at hmax ⊢; omega)
        (fun bn hbn => by
          by_cases hb : bn * BSIZE < (N i).size
          · exact h₁.disk.full i bn ht₁ (by rw [hsz₁]; exact hb)
          · have : bn = 16 * s / BSIZE := by
              rw [BSIZE_eq] at *
              omega
            rw [this]
            exact he.block)
        (fun _ => ⟨by omega, fun s' hs' => by
          have hin : s' = s ∨ 16 * s' < (N i).size := by omega
          rw [he.dirent s' (by rw [← hsize]; exact hin)]
          split
          · exact hbs
          · rename_i hne
            rw [← h.entry_eq hd (hin.resolve_left hne)]
            exact (h.sane i hd).2 s'⟩)
        (by
          have : (if 16 * s + 16 > (ino₁ i).size then 16 * s + 16 else (ino₁ i).size) =
              max (N i).size (16 * s + 16) := by rw [hsz₁]; split <;> omega
          rw [this])
      have hN₁ : setAt N₁ i ((N i).enter s (direntOf bs)) =
          setAt N i ((N i).enter s (direntOf bs)) := by
        funext j
        by_cases hj : j = i
        · rw [hj, setAt_same, setAt_same]
        · rw [setAt_other _ _ _ hj, setAt_other _ _ _ hj, he.other j hj]
      rw [he.node h hd hs, hN₁] at hw
      unfold Kern.setCopy Kern.setInode
      rw [Free.ensures_bind, ensures_update]
      apply Free.Ensures.seq (iupdate_spec hok hsb hw hl)
      intro _ fs₂ h₂
      exact .inr ⟨rfl, _, h₂⟩

end Xv6
