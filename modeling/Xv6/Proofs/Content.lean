import Xv6.Proofs.Bmap

namespace Xv6
variable {p : ProcId} {ok : Panic → Prop} {sb : Superblock} {N : Nat → Node} {t : Holders}
  {ino : Nat → Dinode} {ahead loose away : List Nat} {fs : Fs} {ip : InodePtr} {i bn : Nat}

/- The data blocks of a file are nobody else's business. -/

/-- Block `b` is block number `bn` of file `i`. -/
structure DataBlock (ino : Nat → Dinode) (cur : Disk) (i bn b : Nat) : Prop where
  live : (ino i).type ≠ 0
  block : (ino i).block cur bn = b
  pos : b ≠ 0

theorem DataBlock.ptrs {cur : Disk} {b : Nat} (h : DataBlock ino cur i bn b) :
    ptrs ino cur (i, posOf bn) = b := by
  rw [ptrs_live h.live]
  exact h.block

theorem DataBlock.only {cur logged : Disk} {b : Nat} (h : DataBlock ino cur i bn b)
    (hd : OnDisk sb ino ahead loose cur logged) {o : Nat × Nat} (ho : Xv6.ptrs ino cur o = b) :
    o = (i, posOf bn) :=
  hd.owned.inj _ _ (by rw [ho]; exact h.pos) (ho.trans h.ptrs.symm)

theorem OnDisk.touch {s s' : Store} (h : OnDisk sb ino ahead loose s.cur s.logged) (hsb : sb.Ok)
    {b : Nat} (hb : DataBlock ino s.cur i bn b) (hs : s.Apart b s')
    (hc : (ino i).type = T_DIR → s'.cur b = s'.logged b) :
    OnDisk sb ino ahead loose s'.cur s'.logged ∧ ptrs ino s'.cur = ptrs ino s.cur := by
  have hge : sb.nmeta ≤ b := by
    rw [← hb.ptrs]
    exact h.ptr_ge (by rw [hb.ptrs]; exact hb.pos)
  have hp : ptrs ino s'.cur = ptrs ino s.cur := by
    refine ptrs_congr (fun j _ => hs.cur _ (fun he => ?_))
    exact posOf_ne bn (Prod.mk.inj (hb.only h he)).2.symm
  refine ⟨⟨h.fields, h.range, ?_, ?_, h.fits, ?_, ?_⟩, hp⟩
  · intro j hj ha
    have := hsb.iblock_lt_nmeta hj
    rw [hs.cur _ (by omega)]
    exact h.disk j hj ha
  · refine h.owned.congr (fun o => congrFun hp o) (fun x hx => ?_)
    have := Superblock.Ok.bblock_lt hx
    unfold used
    rw [hs.cur _ (by omega)]
  · intro j bn' ht hbn
    have := congrFun hp (j, posOf bn')
    rw [ptrs_live ht, ptrs_live ht] at this
    unfold Dinode.block
    rw [this]
    exact h.full j bn' ht hbn
  · intro n hn
    by_cases hne : n = b
    · subst hne
      rcases hn with hn | ⟨j, k, hk, hd⟩
      · omega
      · rw [hp] at hk
        obtain ⟨rfl, rfl⟩ := Prod.mk.inj (hb.only h hk)
        exact hc (hd.resolve_left (posOf_ne bn))
    · rw [hs.cur n hne, hs.logged n hne]
      apply h.calm
      unfold Sited at hn ⊢
      rwa [hp] at hn

theorem Within.node_other {m : Mem} {s s' : Store}
    (h : Within p sb N t ino ahead loose away ⟨m, s⟩) {b j : Nat} (hb : DataBlock ino s.cur i bn b)
    (hs : s.Apart b s') (hj : j ≠ i) : N j = (ino j).node s'.cur := by
  rw [h.node j]
  refine (node_congr (h.disk.full j) (fun k _ => hs.cur _ (fun he => ?_))).symm
  exact hj (Prod.mk.inj (hb.only h.disk he)).1

/-- The bytes of file `i` may have changed, and nothing else. -/
def Rewritten (N N' : Nat → Node) (i : Nat) : Prop := ∃ f, N' = setAt N i { N i with data := f }

theorem Rewritten.refl (N : Nat → Node) (i : Nat) : Rewritten N N i :=
  ⟨(N i).data, (setAt_self N i).symm⟩

theorem Rewritten.trans {N₁ N₂ : Nat → Node} (h : Rewritten N N₁ i) (h' : Rewritten N₁ N₂ i) :
    Rewritten N N₂ i := by
  obtain ⟨f, rfl⟩ := h
  obtain ⟨g, rfl⟩ := h'
  exact ⟨g, by rw [setAt_same, setAt_setAt]⟩

theorem Rewritten.type {N' : Nat → Node} (h : Rewritten N N' i) (j : Nat) :
    (N' j).type = (N j).type := by
  obtain ⟨f, rfl⟩ := h
  by_cases hj : j = i
  · rw [hj, setAt_same]
  · rw [setAt_other _ _ _ hj]

theorem node_bytes {d : Dinode} (ht : d.type ≠ 0) (hd : d.type ≠ T_DIR) (cur cur' : Disk) :
    d.node cur' = { d.node cur with data := (d.node cur').data } := by
  rw [node_live ht, node_live ht]
  simp only [hd, false_and, if_false]

theorem Within.touch {m : Mem} {s s' : Store} (h : Within p sb N t ino ahead loose away ⟨m, s⟩)
    (hsb : sb.Ok) {b : Nat} (hb : DataBlock ino s.cur i bn b) (hd : (ino i).type ≠ T_DIR)
    (hs : s.Apart b s') :
    ∃ N', Rewritten N N' i ∧ Within p sb N' t ino ahead loose away ⟨m, s'⟩ := by
  have hnode : ∀ j, setAt N i { N i with data := ((ino i).node s'.cur).data } j =
      (ino j).node s'.cur := by
    intro j
    by_cases hj : j = i
    · rw [hj, setAt_same, h.node i]
      exact (node_bytes hb.live hd _ _).symm
    · rw [setAt_other _ _ _ hj]
      exact h.node_other hb hs hj
  exact ⟨_, ⟨_, rfl⟩, (h.disk.touch hsb hb hs (fun he => absurd he hd)).1, h.mem, hnode,
    h.sane.set (h.sane i)⟩

/-- What the steps on the data block `b` of file `i` can do. -/
structure Settled (N N' : Nat → Node) (ino : Nat → Dinode) (i b : Nat) (s s' : Store) : Prop where
  nodes : Rewritten N N' i
  apart : s.Apart b s'
  ptrs : ptrs ino s'.cur = ptrs ino s.cur
  dir : (ino i).type = T_DIR → N' = N ∧ s.Same s'

theorem block_of_ptrs {cur cur' : Disk} (h : ptrs ino cur' = ptrs ino cur) (ht : (ino i).type ≠ 0)
    (bn : Nat) : (ino i).block cur' bn = (ino i).block cur bn := by
  have := congrFun h (i, posOf bn)
  rwa [ptrs_live ht, ptrs_live ht] at this

theorem Within.settled {m : Mem} {s s' : Store} (h : Within p sb N t ino ahead loose away ⟨m, s⟩)
    (hsb : sb.Ok) {b : Nat} (ht : (ino i).type ≠ 0) (hb : (ino i).block s.cur bn = b) (hne : b ≠ 0)
    (hs : s.Apart b s') (hd : (ino i).type = T_DIR → s.Same s') :
    ∃ N', Within p sb N' t ino ahead loose away ⟨m, s'⟩ ∧ Settled N N' ino i b s s' := by
  by_cases he : (ino i).type = T_DIR
  · exact ⟨N, h.same (hd he), .refl N i, hs, by rw [(hd he).cur], fun _ => ⟨rfl, hd he⟩⟩
  · have hf : DataBlock ino s.cur i bn b := ⟨ht, hb, hne⟩
    obtain ⟨N', hN, h'⟩ := h.touch hsb hf he hs
    exact ⟨N', h', hN, hs, (h.disk.touch hsb hf hs (fun hd => absurd hd he)).2,
      fun hd => absurd hd he⟩

theorem Within.calm_dir (h : Within p sb N t ino ahead loose away fs) {b : Nat}
    (hb : (ino i).block fs.st.cur bn = b) (hd : (ino i).type = T_DIR) :
    fs.st.cur b = fs.st.logged b :=
  h.disk.calm b (.inr ⟨i, posOf bn, by rw [ptrs_live (by rw [hd]; decide)]; exact hb, .inr hd⟩)

theorem Within.bread_spec (hsb : sb.Ok) (h : Within p sb N t ino ahead loose away fs) {b : Nat}
    (ht : (ino i).type ≠ 0) (hb : (ino i).block fs.st.cur bn = b) (hne : b ≠ 0)
    {Q : Nat → Fs → Prop}
    (hq : ∀ N' st, Within p sb N' t ino ahead loose away ⟨fs.mem, st⟩ →
      Settled N N' ino i b fs.st st → Q b ⟨fs.mem, st⟩) :
    (Kern.bread b).Ensures (Fs.run p) ok Q fs := by
  by_cases hd : (ino i).type = T_DIR
  · apply ensures_bread_calm (h.calm_dir hb hd)
    intro st hs
    obtain ⟨N', h₁, h₂⟩ := h.settled hsb ht hb hne (hs.apart b) (fun _ => hs)
    exact hq N' st h₁ h₂
  · apply ensures_bread
    intro st hs
    obtain ⟨N', h₁, h₂⟩ := h.settled hsb ht hb hne hs (fun he => absurd he hd)
    exact hq N' st h₁ h₂

theorem Within.brelse_spec (hsb : sb.Ok) (h : Within p sb N t ino ahead loose away fs) {b : Nat}
    (ht : (ino i).type ≠ 0) (hb : (ino i).block fs.st.cur bn = b) (hne : b ≠ 0)
    {Q : Unit → Fs → Prop}
    (hq : ∀ N' st, Within p sb N' t ino ahead loose away ⟨fs.mem, st⟩ →
      Settled N N' ino i b fs.st st → Q () ⟨fs.mem, st⟩) :
    (Kern.brelse b).Ensures (Fs.run p) ok Q fs := by
  rw [ensures_brelse]
  obtain ⟨N', h₁, h₂⟩ := h.settled hsb ht hb hne (fs.st.brelse_apart b)
    (fun hd => Store.brelse_same (h.calm_dir hb hd))
  exact hq N' _ h₁ h₂

theorem Within.block_ne (h : Within p sb N t ino ahead loose away fs) (ht : (ino i).type ≠ 0)
    {off : Nat} (ho : off < (ino i).size) : (ino i).block fs.st.cur (off / BSIZE) ≠ 0 := by
  apply h.disk.full i _ ht
  have := Nat.div_mul_le_self off BSIZE
  omega

/- readi(). -/

theorem readiLoop_spec (hsb : sb.Ok) (h : Within p sb N t ino [] [] [] fs)
    (hl : (ip, i) ∈ t.locked) (dst : Dst) {n : Nat} (fuel tot off : Nat) (acc : List UInt8)
    (hle : off + (n - tot) ≤ (ino i).size) :
    (Kern.readiLoop ip dst n fuel tot off acc).Ensures (Fs.run p) ok (fun _ fs' => ∃ N',
      Rewritten N N' i ∧ Within p sb N' t ino [] [] [] fs') fs := by
  induction fuel generalizing N tot off acc fs with
  | zero => exact ⟨N, .refl N i, h⟩
  | succ fuel ih =>
    obtain ⟨-, -, ht⟩ := h.locked hl
    unfold Kern.readiLoop
    apply ensures_ite
    · intro hlt
      have ho : off < (ino i).size := by omega
      have hne := h.block_ne ht ho
      apply Free.Ensures.seq (bmap_read h hl hne)
      rintro addr ⟨m₁, st₁⟩ ⟨rfl, rfl, hs₁⟩
      have h₁ := h.same hs₁
      have hb : (ino i).block st₁.cur (off / BSIZE) = (ino i).block fs.st.cur (off / BSIZE) := by
        rw [hs₁.cur]
      apply ensures_ite
      · exact fun hz => absurd hz hne
      · intro _
        rw [Free.ensures_bind]
        apply h₁.bread_spec hsb ht hb hne
        intro N₂ st₂ h₂ hs₂
        rw [Free.ensures_bind, ensures_bdata]
        have hb₂ := (block_of_ptrs hs₂.ptrs ht _).trans hb
        apply ensures_ite
        · intro _
          rw [Free.ensures_bind]
          apply h₂.brelse_spec hsb ht hb₂ hne
          intro N₃ st₃ h₃ hs₃
          refine (ih h₃ _ _ _ (by omega)).mono ?_
          rintro - fs' ⟨N', hN, h'⟩
          exact ⟨N', (hs₂.nodes.trans hs₃.nodes).trans hN, h'⟩
        · intro _
          rw [Free.ensures_bind]
          apply h₂.brelse_spec hsb ht hb₂ hne
          intro N₃ st₃ h₃ hs₃
          exact ⟨N₃, hs₂.nodes.trans hs₃.nodes, h₃⟩
    · exact fun _ => ⟨N, .refl N i, h⟩

theorem MAXFILE_BSIZE : MAXFILE * BSIZE = 272384 := rfl

theorem readi_spec (hsb : sb.Ok) (h : Inside p sb N t fs) (hl : (ip, i) ∈ t.locked) (dst : Dst)
    (off n : Nat) :
    (Kern.readi ip dst off n).Ensures (Fs.run p) ok (fun _ fs' => ∃ N',
      Rewritten N N' i ∧ Inside p sb N' t fs') fs := by
  obtain ⟨ino, h⟩ := h
  unfold Kern.readi Kern.inodeOf
  rw [Free.ensures_bind, ensures_get, copy_eq h hl]
  apply ensures_ite
  · exact fun _ => ⟨N, .refl N i, ino, h⟩
  · intro hc
    refine (readiLoop_spec hsb h hl dst _ 0 off [] ?_).mono ?_
    · split <;> omega
    · rintro - fs' ⟨N', hN, h'⟩
      exact ⟨N', hN, ino, h'⟩

/- writei(). -/

/-- All blocks before offset `off` are there. -/
def Filled (d : Dinode) (cur : Disk) (off : Nat) : Prop := ∀ bn, bn * BSIZE < off → d.block cur bn ≠ 0

theorem Filled.step {d : Dinode} {cur : Disk} {off m : Nat} (h : Filled d cur off)
    (hb : d.block cur (off / BSIZE) ≠ 0) (hm : off % BSIZE + m ≤ BSIZE) :
    Filled d cur (off + m) := by
  intro bn hbn
  by_cases he : bn = off / BSIZE
  · rw [he]
    exact hb
  · apply h
    have := Nat.div_add_mod off BSIZE
    rw [BSIZE_eq] at *
    omega

theorem writeiLoop_spec (hok : Benign ok) (hsb : sb.Ok) (h : Within p sb N t ino [i] [] [] fs)
    (hl : (ip, i) ∈ t.locked) (hd : (ino i).type ≠ T_DIR) (src : Src) {n : Nat}
    (fuel tot off : Nat) (hmax : off + (n - tot) ≤ MAXFILE * BSIZE)
    (hfill : Filled (ino i) fs.st.cur off) :
    (Kern.writeiLoop ip src n fuel tot off).Ensures (Fs.run p) ok (fun r fs' => ∃ N' ino',
      Rewritten N N' i ∧ Within p sb N' t ino' [i] [] [] fs' ∧
      ino' i = { ino i with addrs := (ino' i).addrs } ∧
      Filled (ino' i) fs'.st.cur r.2 ∧ r.2 ≤ MAXFILE * BSIZE) fs := by
  induction fuel generalizing N ino tot off fs with
  | zero => exact ⟨N, ino, .refl N i, h, rfl, hfill, by omega⟩
  | succ fuel ih =>
    unfold Kern.writeiLoop
    apply ensures_ite
    · intro hlt
      have hbn : off / BSIZE < MAXFILE := by
        rw [Nat.div_lt_iff_lt_mul (by decide)]
        omega
      apply Free.Ensures.seq (bmap_spec hok hsb h hl hbn)
      rintro addr fs₁ ⟨ino₁, h₁, hg, hr⟩
      obtain ⟨-, -, ht⟩ := h₁.locked hl
      have hd₁ : (ino₁ i).type ≠ T_DIR := by rw [hg.fields]; exact hd
      have hfill₁ : Filled (ino₁ i) fs₁.st.cur off := by
        intro bn hbn
        rw [hg.block bn (hfill bn hbn)]
        exact hfill bn hbn
      apply ensures_ite
      · intro _
        exact ⟨N, ino₁, .refl N i, h₁, hg.fields, hfill₁, by omega⟩
      · intro hne
        have hb := hr hne
        -- every step on the data block leaves the state as it is for everybody else
        have hstep : ∀ {N₂ : Nat → Node} {m : Mem} {s : Store} (s' : Store), Rewritten N N₂ i →
            Within p sb N₂ t ino₁ [i] [] [] ⟨m, s⟩ →
            ptrs ino₁ s.cur = ptrs ino₁ fs₁.st.cur → s.Apart addr s' →
            ∃ N₃, Rewritten N N₃ i ∧ Within p sb N₃ t ino₁ [i] [] [] ⟨m, s'⟩ ∧
              ptrs ino₁ s'.cur = ptrs ino₁ fs₁.st.cur := by
          intro N₂ m s s' hN hw hp hs
          obtain ⟨N₃, h', hs'⟩ := hw.settled hsb ht ((block_of_ptrs hp ht _).trans hb) hne hs
            (fun he => absurd he hd₁)
          exact ⟨N₃, hN.trans hs'.nodes, h', hs'.ptrs.trans hp⟩
        have hfill₂ : ∀ {cur : Disk}, ptrs ino₁ cur = ptrs ino₁ fs₁.st.cur →
            Filled (ino₁ i) cur off := by
          intro cur hp bn hbn
          rw [block_of_ptrs hp ht]
          exact hfill₁ bn hbn
        rw [Free.ensures_bind]
        apply ensures_bread
        intro st₂ hs₂
        obtain ⟨N₂, hN₂, h₂, hp₂⟩ := hstep st₂ (.refl N i) h₁ rfl hs₂
        rw [Free.ensures_bind, ensures_bdata, Free.ensures_bind, ensures_bmodify]
        obtain ⟨N₃, hN₃, h₃, hp₃⟩ := hstep (st₂.modify addr _) hN₂ h₂ hp₂
          ⟨fun n hn => setAt_other _ _ _ hn, fun _ _ => rfl⟩
        apply ensures_ite
        · intro _
          rw [Free.ensures_bind]
          apply ensures_logWrite hok
          intro st₄ hc₄ hl₄
          obtain ⟨N₄, hN₄, h₄, hp₄⟩ := hstep st₄ hN₃ h₃ hp₃
            ⟨fun n _ => congrFun hc₄ n, fun n hn => by rw [hl₄]; exact setAt_other _ _ _ hn⟩
          rw [Free.ensures_bind, ensures_brelse]
          obtain ⟨N₅, hN₅, h₅, hp₅⟩ := hstep _ hN₄ h₄ hp₄ (st₄.brelse_apart addr)
          refine Free.Ensures.mono (ih h₅ hd₁ _ _ (by omega) ?_) ?_
          · refine (hfill₂ hp₅).step ?_ (by rw [BSIZE_eq]; omega)
            rw [block_of_ptrs hp₅ ht, hb]
            exact hne
          · rintro r fs' ⟨N', ino', hN, h', hf', hrest⟩
            exact ⟨N', ino', hN₅.trans hN, h', by rw [hf', hg.fields], hrest⟩
        · intro _
          rw [Free.ensures_bind, ensures_brelse]
          obtain ⟨N₅, hN₅, h₅, hp₅⟩ := hstep _ hN₃ h₃ hp₃ ((st₂.modify addr _).brelse_apart addr)
          exact ⟨N₅, ino₁, hN₅, h₅, hg.fields, hfill₂ hp₅, by omega⟩
    · exact fun _ => ⟨N, ino, .refl N i, h, rfl, hfill, by omega⟩

theorem OnDisk.resize {cur logged : Disk} (h : OnDisk sb ino [i] [] cur logged) (ht : (ino i).type ≠ 0) {sz : Nat}
    (hmax : sz ≤ MAXFILE * BSIZE) (hfill : Filled (ino i) cur sz) :
    OnDisk sb (setAt ino i { ino i with size := sz }) [i] [] cur logged := by
  have hok := h.fields i
  refine h.setIno List.mem_cons_self
    ⟨hok.type, hok.major, hok.minor, hok.nlink, ?_, hok.length, hok.addrs⟩ (h.range i)
    ?_ (fun _ => hmax) (fun bn _ hbn => hfill bn hbn) .inl
  · rw [MAXFILE_BSIZE] at hmax
    change sz < 2 ^ 32
    omega
  · intro k
    rw [ptrs_live ht, ptrs_live (by rw [setAt_same]; exact ht), setAt_same]
    rfl

/-- The end of writei(): the size goes to `sz`. -/
theorem Within.resize (h : Within p sb N t ino [i] [] [] fs) (hl : (ip, i) ∈ t.locked) (sz : Nat)
    (f : Dinode → Dinode) (hmax : sz ≤ MAXFILE * BSIZE) (hfill : Filled (ino i) fs.st.cur sz)
    (hsane : (ino i).type = T_DIR → sz % 16 = 0 ∧
      ∀ s, 16 * s < sz → ((ino i).dirent fs.st.cur s).inum < sb.ninodes)
    (hf : f (ino i) = { ino i with size := sz }) :
    Within p sb (setAt N i (({ ino i with size := sz } : Dinode).node fs.st.cur)) t
      (setAt ino i { ino i with size := sz }) [i] [] []
      { fs with mem := fs.mem.setInode ip (fun x => { x with copy := f x.copy }) } := by
  obtain ⟨hn, hv, ht⟩ := h.locked hl
  refine ⟨h.disk.resize ht hmax hfill, ?_, node_setAt rfl (fun j _ => h.node j), h.sane.set ?_⟩
  · have hm := h.mem.setCopy hn hv (c := { ino i with size := sz }) rfl
    rwa [setInode_congr (g := fun x => { x with copy := f x.copy })] at hm
    rw [copy_eq h hl, hf]
  · have ht' : ({ ino i with size := sz } : Dinode).type ≠ 0 := ht
    rw [node_live ht']
    intro hd
    obtain ⟨h₁, h₂⟩ := hsane hd
    refine ⟨h₁, fun s => ?_⟩
    dsimp only
    split
    · rename_i hs
      exact h₂ s hs.2
    · exact Nat.zero_lt_of_lt (h.mem.lt_ninodes hn).2

theorem node_resized {d d' : Dinode} (ht : d.type ≠ 0) (hd : d.type ≠ T_DIR)
    (hs : d' = { d with addrs := d'.addrs }) (cur cur' : Disk) (sz : Nat) :
    ({ d' with size := sz } : Dinode).node cur' = { d.node cur with
      size := sz, data := (({ d' with size := sz } : Dinode).node cur').data } := by
  have ht' : ({ d' with size := sz } : Dinode).type ≠ 0 := by rw [hs]; exact ht
  have hd' : ({ d' with size := sz } : Dinode).type ≠ T_DIR := by rw [hs]; exact hd
  rw [node_live ht, node_live ht', Node.mk.injEq]
  simp only [hd, hd', false_and, if_false, and_self, and_true]
  rw [hs]
  exact ⟨rfl, rfl, rfl, rfl⟩

/-- A write to a file that is not a directory changes its bytes and its size. -/
theorem writei_file_spec (hok : Benign ok) (hsb : sb.Ok) (h : Inside p sb N t fs)
    (hl : (ip, i) ∈ t.locked) (hd : (N i).type ≠ T_DIR) (src : Src) (off n : Nat) :
    (Kern.writei ip src off n).Ensures (Fs.run p) ok (fun _ fs' => ∃ sz f,
      Inside p sb (setAt N i { N i with size := sz, data := f }) t fs') fs := by
  obtain ⟨ino, h⟩ := h
  obtain ⟨-, -, ht⟩ := h.locked hl
  rw [h.type_eq] at hd
  have hsame : ∃ sz f, Inside p sb (setAt N i { N i with size := sz, data := f }) t fs :=
    ⟨(N i).size, (N i).data, ino, by rw [setAt_self]; exact h⟩
  unfold Kern.writei Kern.inodeOf
  rw [Free.ensures_bind, ensures_get, copy_eq h hl]
  apply ensures_ite
  · exact fun _ => hsame
  · intro hc
    apply ensures_ite
    · exact fun _ => hsame
    · intro hmax
      have hfill : Filled (ino i) fs.st.cur off :=
        fun bn hbn => h.disk.full i bn ht (by omega)
      have h₀ : Within p sb N t ino [i] [] [] fs := ⟨h.disk.later i, h.mem, h.node, h.sane⟩
      apply Free.Ensures.seq (writeiLoop_spec hok hsb h₀ hl hd src n 0 off (by omega) hfill)
      rintro ⟨tot, off'⟩ fs₁ ⟨N₁, ino₁, ⟨f, rfl⟩, h₁, hf₁, hfill₁, hmax₁⟩
      have ht₁ : (ino₁ i).type ≠ 0 := by rw [hf₁]; exact ht
      have hd₁ : (ino₁ i).type ≠ T_DIR := by rw [hf₁]; exact hd
      have hw := h₁.resize hl (if off' > (ino₁ i).size then off' else (ino₁ i).size)
        (fun c => { c with size := if off' > c.size then off' else c.size })
        (by split
            · exact hmax₁
            · exact h₁.disk.fits i ht₁)
        (by split
            · exact hfill₁
            · exact fun bn hbn => h₁.disk.full i bn ht₁ hbn)
        (fun he => absurd he hd₁) rfl
      unfold Kern.setCopy Kern.setInode
      rw [Free.ensures_bind, ensures_update]
      apply Free.Ensures.seq (iupdate_spec hok hsb hw hl)
      intro _ fs₂ h₂
      rw [setAt_setAt, node_resized ht hd hf₁ fs.st.cur, ← h.node i] at h₂
      exact ⟨_, _, _, h₂⟩

end Xv6
