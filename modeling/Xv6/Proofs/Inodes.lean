import Xv6.Proofs.Alloc
import Xv6.Proofs.InMem

namespace Xv6

/-- Directories consist of whole entries that name inodes of this disk. -/
def Sane (sb : Superblock) (N : Nat → Node) : Prop :=
  ∀ i, (N i).type = T_DIR → (N i).size % 16 = 0 ∧ ∀ s, ((N i).entry s).inum < sb.ninodes

/-- The state inside a system call of process `p`: the files are `N`, held by `t`, and their
inodes are `ino`. -/
structure Within (p : ProcId) (sb : Superblock) (N : Nat → Node) (t : Holders)
    (ino : Nat → Dinode) (ahead loose away : List Nat) (fs : Fs) : Prop where
  disk : OnDisk sb ino ahead loose fs.st.cur fs.st.logged
  mem : InMem p sb ino away t fs.mem
  node : ∀ i, N i = (ino i).node fs.st.cur
  sane : Sane sb N

/-- The same, where memory and disk agree. -/
def Inside (p : ProcId) (sb : Superblock) (N : Nat → Node) (t : Holders) (fs : Fs) : Prop :=
  ∃ ino, Within p sb N t ino [] [] [] fs

/-- What the copy of inode `i` shows of its node. -/
structure Reads (x : Inode) (i : Nat) (n : Node) : Prop where
  inum : x.inum = i
  dev : x.dev = ROOTDEV
  type : x.copy.type = n.type
  major : x.copy.major = n.major
  nlink : x.copy.nlink = n.nlink
  size : x.copy.size = n.size

/-- Dropping a reference does not free inode `i`. -/
def Kept (N : Nat → Node) (t : Holders) (i : Nat) : Prop :=
  (N i).type = 0 ∨ (N i).nlink ≠ 0 ∨ ∃ jp, t.Names jp i

theorem node_type (d : Dinode) (cur : Disk) : (d.node cur).type = d.type := by
  unfold Dinode.node
  split
  · rename_i h; rw [h]; rfl
  · rfl

theorem Sane.set {sb : Superblock} {N : Nat → Node} (h : Sane sb N) {i : Nat} {n : Node}
    (hn : n.type = T_DIR → n.size % 16 = 0 ∧ ∀ s, (n.entry s).inum < sb.ninodes) :
    Sane sb (setAt N i n) := by
  intro j
  by_cases hj : j = i
  · rw [hj, setAt_same]
    exact hn
  · rw [setAt_other _ _ _ hj]
    exact h j

theorem node_setAt {N : Nat → Node} {ino : Nat → Dinode} {cur : Disk} {i : Nat} {n : Node}
    {c : Dinode} (hc : n = c.node cur) (h : ∀ j, j ≠ i → N j = (ino j).node cur) (j : Nat) :
    setAt N i n j = (setAt ino i c j).node cur := by
  by_cases hj : j = i
  · rw [hj, setAt_same, setAt_same, hc]
  · rw [setAt_other _ _ _ hj, setAt_other _ _ _ hj, h j hj]

section
variable {p : ProcId} {ok : Panic → Prop} {sb : Superblock} {N : Nat → Node} {t : Holders}
  {ino : Nat → Dinode} {ahead loose away : List Nat} {fs : Fs} {ip : InodePtr} {i : Nat}

namespace Within

theorem same {m : Mem} {s s' : Store} (h : Within p sb N t ino ahead loose away ⟨m, s⟩)
    (hs : s.Same s') : Within p sb N t ino ahead loose away ⟨m, s'⟩ where
  disk := h.disk.same hs
  mem := h.mem
  node i := by rw [hs.cur]; exact h.node i
  sane := h.sane

theorem setMem {t' : Holders} {m : Mem} (h : Within p sb N t ino ahead loose away fs)
    (hm : InMem p sb ino away t' m) :
    Within p sb N t' ino ahead loose away { fs with mem := m } :=
  ⟨h.disk, hm, h.node, h.sane⟩

theorem type_eq (h : Within p sb N t ino ahead loose away fs) (i : Nat) :
    (N i).type = (ino i).type := by rw [h.node i, node_type]

theorem locked (h : Within p sb N t ino ahead loose away fs) (hl : (ip, i) ∈ t.locked) :
    t.Names ip i ∧ (fs.mem.inode ip).valid = true ∧ (ino i).type ≠ 0 := by
  have hs := h.mem.slot ip
  obtain ⟨-, hr, hv⟩ := hs.locked (List.mem_map.mpr ⟨_, hl, rfl⟩)
  have hn : t.Names ip i := .inr (.inl hl)
  have hlive := hs.live hr hv
  rw [h.mem.inum_eq hn] at hlive
  exact ⟨hn, hv, hlive⟩

theorem reads (h : Within p sb N t ino ahead loose [] fs) (hl : (ip, i) ∈ t.locked) :
    Reads (fs.mem.inode ip) i (N i) := by
  obtain ⟨hn, hv, ht⟩ := h.locked hl
  have hr := h.mem.ref_pos hn
  have hi := h.mem.inum_eq hn
  have hc := (h.mem.slot ip).copy hr hv (by simp)
  rw [hi] at hc
  rw [h.node i, node_live ht]
  exact ⟨hi, ((h.mem.slot ip).entry hr).1, congrArg _ hc, congrArg _ hc, congrArg _ hc,
    congrArg _ hc⟩

/-- An inode without links that nobody holds would have been freed. -/
theorem kept (h : Within p sb N t ino ahead loose away fs) (hf : i ∉ t.fresh) : Kept N t i := by
  by_cases ht : (N i).type = 0
  · exact .inl ht
  · by_cases hz : (N i).nlink = 0
    · rw [h.type_eq] at ht
      rw [h.node i, node_live ht] at hz
      obtain ⟨jp, hr, -, hi⟩ := h.mem.orphan i ht hz hf
      have hs := h.mem.slot jp
      refine .inr (.inr ⟨jp, ?_⟩)
      rw [hs.ref, Holders.count] at hr
      by_cases hh : 0 < t.held jp
      · exact .inr (.inr ⟨hh, (h.mem.inum_eq (.inr (.inr ⟨hh, rfl⟩))).symm.trans hi⟩)
      · have hpos : 0 < t.refs.countP (fun r => r.1 == jp) := by omega
        obtain ⟨⟨kp, k⟩, hk, he⟩ := List.countP_pos_iff.mp hpos
        have he : kp = jp := by simpa using he
        subst he
        have := h.mem.inum_eq (.inl hk)
        exact .inl (by rw [← hi, this]; exact hk)
    · exact .inr (.inl hz)

end Within

theorem Inside.reads (h : Inside p sb N t fs) (hl : (ip, i) ∈ t.locked) :
    Reads (fs.mem.inode ip) i (N i) := by
  obtain ⟨ino, h⟩ := h
  exact h.reads hl

theorem Inside.same {m : Mem} {s s' : Store} (h : Inside p sb N t ⟨m, s⟩) (hs : s.Same s') :
    Inside p sb N t ⟨m, s'⟩ := by
  obtain ⟨ino, h⟩ := h
  exact ⟨ino, h.same hs⟩

theorem Inside.kept (h : Inside p sb N t fs) (hf : i ∉ t.fresh) : Kept N t i := by
  obtain ⟨ino, h⟩ := h
  exact h.kept hf

/- iget(), ilock() and iunlock(). -/

theorem iget_spec (hok : Benign ok) (h : Inside p sb N t fs) (hi : 0 < i ∧ i < sb.ninodes) :
    (Kern.iget ROOTDEV i).Ensures (Fs.run p) ok (fun ip fs' => Inside p sb N (t.take ip i) fs') fs := by
  obtain ⟨ino, h⟩ := h
  unfold Kern.iget
  rw [ensures_mem]
  split
  · rename_i ip hf
    have hp := List.find?_some hf
    rw [decide_eq_true_eq] at hp
    exact ⟨ino, h.setMem (h.mem.take hp.1 hp.2.2)⟩
  · rename_i hnone
    split
    · rename_i ip hf
      have hp := List.find?_some hf
      rw [decide_eq_true_eq] at hp
      refine ⟨ino, h.setMem (h.mem.enter hp ?_ hi)⟩
      intro jp hr he
      have := List.find?_eq_none.mp hnone jp (List.mem_finRange jp)
      rw [decide_eq_true_eq] at this
      exact this ⟨hr, ((h.mem.slot jp).entry hr).1, he⟩
    · exact hok _ (by decide) (by decide) (by decide) (by decide)

theorem ilockRead_spec (hsb : sb.Ok) (h : Within p sb N t ino [] [] [] fs) (hn : t.Names ip i)
    (hl : ¬ t.Locks ip) (ht : ok .ilockNoType ∨ (N i).type ≠ 0) {m : Mem}
    (hm : m = fs.mem.setInode ip (fun x => { x with lock := some p })) :
    (Kern.ilockRead ip i).Ensures (Fs.run p) ok (fun _ fs' => Inside p sb N (t.lock ip i) fs') { fs with mem := m } := by
  have hlt := (h.mem.lt_ninodes hn).2
  have hcalm := h.disk.calm_meta (hsb.iblock_lt_nmeta hlt)
  have hmsb : m.sb = sb := by rw [hm]; exact h.mem.super
  have hdisk := h.disk.disk i hlt (by simp)
  unfold Kern.ilockRead Kern.getSb Kern.setCopy Kern.setInode
  rw [Free.ensures_bind, ensures_get, Free.ensures_bind, hmsb]
  apply ensures_bread_calm
  · exact hcalm
  intro st hs
  rw [Free.ensures_bind, ensures_bdata]
  simp only [hs.cur, hdisk]
  rw [Free.ensures_bind, ensures_update, Free.ensures_bind]
  apply ensures_brelse_calm
  · rw [hs.cur, hs.logged]; exact hcalm
  · intro st₁ hs₁
    rw [Free.ensures_bind, ensures_update]
    apply ensures_when
    · intro hz
      rw [← h.type_eq] at hz
      exact ht.resolve_right (fun hne => hne hz)
    · intro hz
      refine ⟨ino, Within.same (s := fs.st) ?_ (hs.trans hs₁)⟩
      refine h.setMem ?_
      simp only [hm, setInode_setInode]
      exact h.mem.lock hn hl rfl hz

theorem ilock_spec (hok : Benign ok) (hsb : sb.Ok) (h : Inside p sb N t fs) (hn : t.Names ip i)
    (ht : ok .ilockNoType ∨ (N i).type ≠ 0) :
    (Kern.ilock ip).Ensures (Fs.run p) ok (fun _ fs' =>
      Inside p sb N (t.lock ip i) fs' ∧ ¬ t.Locks ip) fs := by
  obtain ⟨ino, h⟩ := h
  have hr := h.mem.ref_pos hn
  unfold Kern.ilock Kern.inodeOf
  rw [Free.ensures_bind, ensures_get]
  apply ensures_ite
  · intro _
    exact hok _ (by decide) (by decide) (by decide) (by decide)
  · intro _
    unfold Kern.acquiresleep
    rw [Free.ensures_bind, ensures_mem]
    split
    · rename_i hlock
      have hl : ¬ t.Locks ip := by
        intro hl
        rw [((h.mem.slot ip).locked hl).1] at hlock
        cases hlock
      rw [Out.sat_ok, Free.ensures_bind, ensures_get]
      simp only [setInode_same]
      apply ensures_when
      · intro _
        rw [h.mem.inum_eq hn]
        exact (ilockRead_spec hsb h hn hl ht rfl).mono (fun _ _ h' => ⟨h', hl⟩)
      · intro hv
        have hv : (fs.mem.inode ip).valid = true := by simpa using hv
        have hi := h.mem.inum_eq hn
        have hc := (h.mem.slot ip).copy hr hv (by simp)
        have hlive := (h.mem.slot ip).live hr hv
        rw [hi] at hc hlive
        refine ⟨⟨ino, h.setMem ?_⟩, hl⟩
        have hm := h.mem.lock hn hl hc hlive
        rwa [setInode_congr (g := fun x => { x with lock := some p })] at hm
        simp only [← hv]
    · trivial

theorem iunlock_spec (hok : Benign ok) (h : Inside p sb N (t.lock ip i) fs) :
    (Kern.iunlock ip).Ensures (Fs.run p) ok (fun _ fs' => Inside p sb N t fs') fs := by
  obtain ⟨ino, h⟩ := h
  unfold Kern.iunlock
  rw [ensures_mem]
  split
  · exact hok _ (by decide) (by decide) (by decide) (by decide)
  · exact ⟨ino, h.setMem h.mem.unlock⟩

/- iupdate() and the changes it ends. -/

/-- iupdate() only depends on the copy it writes. -/
theorem iupdate_disk (hok : Benign ok) (hsb : sb.Ok) (hm : fs.mem.sb = sb)
    (hi : (fs.mem.inode ip).inum = i) (hc : (fs.mem.inode ip).copy = ino i)
    (hlt : i < sb.ninodes) (hd : OnDisk sb ino (i :: ahead) loose fs.st.cur fs.st.logged) :
    (Kern.iupdate ip).Ensures (Fs.run p) ok (fun _ fs' => fs'.mem = fs.mem ∧
      OnDisk sb ino ahead loose fs'.st.cur fs'.st.logged ∧
      ∀ n, sb.nmeta ≤ n → fs'.st.cur n = fs.st.cur n) fs := by
  have hmeta := hsb.iblock_lt_nmeta hlt
  unfold Kern.iupdate Kern.getSb Kern.inodeOf
  rw [Free.ensures_bind, ensures_get, Free.ensures_bind, ensures_get, Free.ensures_bind, hi, hc, hm]
  apply ensures_bread_calm (hd.calm_meta hmeta)
  intro st hs
  rw [Free.ensures_bind, ensures_bdata]
  apply ensures_put hok
  intro st₁ hc₁ hl₁
  apply ensures_brelse_calm (by simp [hc₁, hl₁])
  intro st₂ hs₂
  have hok' := hd.fields i
  have hd₁ := (hd.same hs).writeInode hsb hlt
    (Nat.le_trans (Nat.le_of_eq (length_dinode_encode hok'.length)) (by decide))
    (dinodeAt_putDinode _ i hok')
  refine ⟨rfl, ?_, fun n hn => ?_⟩
  · rw [hs₂.cur, hs₂.logged, hc₁, hl₁]
    exact hd₁
  · rw [hs₂.cur, hc₁, setAt_other _ _ _ (by omega), hs.cur]

theorem iupdate_spec (hok : Benign ok) (hsb : sb.Ok)
    (h : Within p sb N t ino (i :: ahead) loose [] fs) (hl : (ip, i) ∈ t.locked) :
    (Kern.iupdate ip).Ensures (Fs.run p) ok (fun _ fs' =>
      Within p sb N t ino ahead loose [] fs') fs := by
  obtain ⟨hn, hv, -⟩ := h.locked hl
  have hi := h.mem.inum_eq hn
  have hc := (h.mem.slot ip).copy (h.mem.ref_pos hn) hv (by simp)
  rw [hi] at hc
  refine (iupdate_disk hok hsb h.mem.super hi hc (h.mem.lt_ninodes hn).2 h.disk).mono ?_
  rintro - fs' ⟨hm, hd, hk⟩
  refine ⟨hd, by rw [hm]; exact h.mem, fun j => ?_, h.sane⟩
  rw [h.node j]
  exact (h.disk.node_meta hk j).symm

/-- A change of the fields that concern neither type nor content. -/
def Dinode.relink (a b l : Int → Int) (d : Dinode) : Dinode :=
  { d with major := a d.major, minor := b d.minor, nlink := l d.nlink }

def Node.relink (a b l : Int → Int) (n : Node) : Node :=
  { n with major := a n.major, minor := b n.minor, nlink := l n.nlink }

theorem node_relink {d : Dinode} (ht : d.type ≠ 0) (a b l : Int → Int) (cur : Disk) :
    (d.relink a b l).node cur = (d.node cur).relink a b l := by
  have ht' : (d.relink a b l).type ≠ 0 := ht
  rw [node_live ht, node_live ht']
  rfl

/-- The three functions give shorts. -/
structure Relinks (a b l : Int → Int) (n : Node) : Prop where
  major : toShort (a n.major) = a n.major
  minor : toShort (b n.minor) = b n.minor
  nlink : toShort (l n.nlink) = l n.nlink

theorem relink_ok {d : Dinode} (h : d.Ok) {a b l : Int → Int} {cur : Disk} (ht : d.type ≠ 0)
    (hr : Relinks a b l (d.node cur)) : (d.relink a b l).Ok := by
  rw [node_live ht] at hr
  exact ⟨h.type, hr.major, hr.minor, hr.nlink, h.size, h.length, h.addrs⟩

theorem OnDisk.relink (h : OnDisk sb ino ahead loose fs.st.cur fs.st.logged) {a b l : Int → Int}
    (ht : (ino i).type ≠ 0) (hr : Relinks a b l ((ino i).node fs.st.cur)) :
    OnDisk sb (setAt ino i ((ino i).relink a b l)) (i :: ahead) loose fs.st.cur fs.st.logged := by
  refine (h.later i).setIno List.mem_cons_self (relink_ok (h.fields i) ht hr)
    (fun _ => h.range i ht) ?_ (h.fits i) (h.full i) .inl
  intro k
  rw [ptrs_live ht, ptrs_live (by rw [setAt_same]; exact ht), setAt_same]
  rfl

theorem relink_spec (hok : Benign ok) (hsb : sb.Ok) (h : Inside p sb N t fs)
    (hl : (ip, i) ∈ t.locked) {a b l : Int → Int} (hr : Relinks a b l (N i)) :
    (do
      Kern.setCopy ip (Dinode.relink a b l)
      Kern.iupdate ip : KernM Unit).Ensures (Fs.run p) ok (fun _ fs' =>
        Inside p sb (setAt N i ((N i).relink a b l)) t fs') fs := by
  obtain ⟨ino, h⟩ := h
  obtain ⟨hname, hv, ht⟩ := h.locked hl
  have hc := (h.mem.slot ip).copy (h.mem.ref_pos hname) hv (by simp)
  rw [h.mem.inum_eq hname] at hc
  have hmem := h.mem.setCopy hname hv (c := (ino i).relink a b l) rfl
  rw [← hc] at hmem
  have hd := h.disk.relink ht (by rw [← h.node i]; exact hr)
  have hw : Within p sb (setAt N i ((N i).relink a b l)) t (setAt ino i ((ino i).relink a b l))
      [i] [] [] { fs with mem := fs.mem.setInode ip (fun x => { x with copy := x.copy.relink a b l }) } :=
    ⟨hd, hc ▸ hmem, node_setAt (by rw [node_relink ht, ← h.node i]) (fun j _ => h.node j),
      h.sane.set (h.sane i)⟩
  unfold Kern.setCopy Kern.setInode
  rw [Free.ensures_bind, ensures_update]
  exact (iupdate_spec hok hsb hw hl).mono (fun _ _ h' => ⟨_, h'⟩)

/- ialloc(). -/

theorem ptr_zero {d : Dinode} (h : d.addrs = List.replicate (NDIRECT + 1) 0) (cur : Disk) (k : Nat) :
    d.ptr cur k = 0 := by
  have hz : ∀ k, d.addrs.getD k 0 = 0 := by
    intro k
    rw [h, List.getD, List.getElem?_replicate]
    split <;> rfl
  simp only [Dinode.ptr, hz]
  simp

theorem node_fresh {type : Int} (h₀ : type ≠ 0) (h : toShort type = type) (cur : Disk) :
    (Dinode.fresh type).node cur = .fresh type := by
  have ht : (Dinode.fresh type).type ≠ 0 := by simpa [Dinode.fresh, h] using h₀
  rw [node_live ht]
  simp [Dinode.fresh, Node.fresh, h]

theorem fresh_ok (type : Int) : (Dinode.fresh type).Ok where
  type := toShort_toShort type
  major := rfl
  minor := rfl
  nlink := rfl
  size := by simp [Dinode.fresh]
  length := by simp [Dinode.fresh]
  addrs := by
    intro a ha
    rw [(List.mem_replicate.mp ha).2]
    decide

theorem OnDisk.alloc (h : OnDisk sb ino ahead loose fs.st.cur fs.st.logged)
    (hz : (ino i).type = 0) (hi : 0 < i ∧ i < sb.ninodes) (type : Int) :
    OnDisk sb (setAt ino i (.fresh type)) (i :: ahead) loose fs.st.cur fs.st.logged := by
  refine (h.later i).setIno List.mem_cons_self (fresh_ok type) (fun _ => hi) ?_
    (fun _ => Nat.zero_le _) (fun bn _ hb => ?_) (fun _ => .inr (ptrs_free hz _))
  · intro k
    rw [ptrs_free hz]
    unfold ptrs
    split
    · rfl
    · rw [setAt_same, ptr_zero rfl]
  · simp [Dinode.fresh] at hb

/-- What ialloc() has done when it answers an inode. -/
def Ialloced (p : ProcId) (sb : Superblock) (N : Nat → Node) (t : Holders) (type : Int)
    (r : Option InodePtr) (fs' : Fs) : Prop :=
  match r with
  | none => Inside p sb N t fs'
  | some ip => ∃ i, (N i).type = 0 ∧ 0 < i ∧ i < sb.ninodes ∧ Inside p sb (setAt N i (.fresh type))
      (Holders.take { t with fresh := i :: t.fresh } ip i) fs'

theorem iallocFrom_spec (hok : Benign ok) (hsb : sb.Ok) (h : Inside p sb N t fs) {type : Int}
    (h₀ : type ≠ 0) (hshort : toShort type = type) (fuel inum : Nat) (hpos : 0 < inum)
    (hlt : inum + fuel ≤ sb.ninodes) :
    (Kern.iallocFrom ROOTDEV type sb fuel inum).Ensures (Fs.run p) ok
      (Ialloced p sb N t type) fs := by
  induction fuel generalizing inum fs with
  | zero => exact h
  | succ fuel ih =>
    obtain ⟨ino, h⟩ := h
    have hi : 0 < inum ∧ inum < sb.ninodes := ⟨hpos, by omega⟩
    have hmeta := hsb.iblock_lt_nmeta hi.2
    have hdisk := h.disk.disk inum hi.2 (by simp)
    unfold Kern.iallocFrom
    rw [Free.ensures_bind]
    apply ensures_bread_calm (h.disk.calm_meta hmeta)
    intro st hs
    rw [Free.ensures_bind, ensures_bdata]
    simp only [hs.cur, hdisk]
    apply ensures_ite
    · intro hz
      apply ensures_put_brelse hok
      intro st₁ hc hl
      have hw := (h.disk.alloc hz hi type).writeInode hsb hi.2 (by simp)
        ((dinodeAt_freshDinode _ inum type).trans (setAt_same _ _ _).symm)
      have hkeep : ∀ n, sb.nmeta ≤ n → st₁.cur n = fs.st.cur n := by
        intro n hn
        rw [hc, setAt_other _ _ _ (by omega), hs.cur]
      have hin : Inside p sb (setAt N inum (.fresh type)) { t with fresh := inum :: t.fresh }
          { fs with st := st₁ } := by
        refine ⟨setAt ino inum (.fresh type), ?_, h.mem.alloc hz _,
          node_setAt (node_fresh h₀ hshort _).symm ?_, h.sane.set ?_⟩
        · rw [hc, hl, hs.cur, hs.logged]
          exact hw
        · intro j _
          rw [h.node j]
          exact (h.disk.node_meta hkeep j).symm
        · exact fun _ => ⟨rfl, fun _ => Nat.lt_trans hpos hi.2⟩
      apply Free.Ensures.seq (iget_spec hok hin hi)
      intro ip fs' h'
      exact ⟨inum, by rw [h.type_eq]; exact hz, hi.1, hi.2, h'⟩
    · intro _
      rw [Free.ensures_bind]
      apply ensures_brelse_calm
      · rw [hs.cur, hs.logged]
        exact h.disk.calm_meta hmeta
      · intro st₁ hs₁
        exact ih ⟨ino, h.same (hs.trans hs₁)⟩ (inum + 1) (by omega) (by omega)

theorem ialloc_spec (hok : Benign ok) (hsb : sb.Ok) (h : Inside p sb N t fs) {type : Int}
    (h₀ : type ≠ 0) (hshort : toShort type = type) :
    (Kern.ialloc ROOTDEV type).Ensures (Fs.run p) ok (Ialloced p sb N t type) fs := by
  have hsuper : fs.mem.sb = sb := by
    obtain ⟨ino, h⟩ := h
    exact h.mem.super
  have hroot := hsb.root
  unfold Kern.ialloc Kern.getSb
  rw [Free.ensures_bind, ensures_get, hsuper]
  exact iallocFrom_spec hok hsb h h₀ hshort _ 1 (by omega) (by omega)

end
end Xv6
