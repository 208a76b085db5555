import Xv6.Proofs.Paths

namespace Xv6
variable {p : ProcId} {ok : Panic → Prop} {sb : Superblock} {N : Nat → Node} {t : Holders}
  {fs : Fs} {ip dp : InodePtr} {i d : Nat} {α : Type}

/- The steps that most calls end with. -/

theorem finish_spec (h : Inside p sb N t fs) (r : Int) :
    (Kern.finish r).Ensures (Fs.run p) ok (fun r' fs' => r' = r ∧ Inside p sb N t fs') fs := by
  unfold Kern.finish
  rw [Free.ensures_bind]
  apply ensures_endOp
  intro st hs
  exact ⟨rfl, h.same hs⟩

/-- The fields of a locked inode are shorts. -/
structure Node.Short (n : Node) : Prop where
  major : toShort n.major = n.major
  minor : toShort n.minor = n.minor
  nlink : toShort n.nlink = n.nlink

theorem Inside.short (h : Inside p sb N t fs) (hl : (ip, i) ∈ t.locked) : (N i).Short := by
  obtain ⟨ino, h⟩ := h
  obtain ⟨-, -, ht⟩ := h.locked hl
  have hf := h.disk.fields i
  rw [h.node i, node_live ht]
  exact ⟨hf.major, hf.minor, hf.nlink⟩

theorem Inside.live (h : Inside p sb N t fs) (hl : (ip, i) ∈ t.locked) : (N i).type ≠ 0 := by
  obtain ⟨ino, h⟩ := h
  rw [h.type_eq]
  exact (h.locked hl).2.2

theorem relink_seq (hok : Benign ok) (hsb : sb.Ok) (h : Inside p sb N t fs)
    (hl : (ip, i) ∈ t.locked) {a b l : Int → Int} (hr : Relinks a b l (N i)) {f : Dinode → Dinode}
    (hf : f = Dinode.relink a b l) {m : KernM α} {Q : α → Fs → Prop}
    (hq : ∀ fs', Inside p sb (setAt N i ((N i).relink a b l)) t fs' →
      m.Ensures (Fs.run p) ok Q fs') :
    (do Kern.setCopy ip f; Kern.iupdate ip; m : KernM α).Ensures (Fs.run p) ok Q fs := by
  have := relink_spec hok hsb h hl hr
  rw [← hf, Free.ensures_bind] at this
  rw [Free.ensures_bind]
  refine this.mono (fun _ fs₁ h₁ => ?_)
  rw [Free.ensures_bind]
  exact h₁.mono (fun _ fs₂ h₂ => hq fs₂ h₂)

/-- The link count changes by `k`. -/
theorem addLink_seq (hok : Benign ok) (hsb : sb.Ok) (h : Inside p sb N t fs)
    (hl : (ip, i) ∈ t.locked) (k : Int) {m : KernM α} {Q : α → Fs → Prop}
    (hq : ∀ fs', Inside p sb (setAt N i ((N i).addLink k)) t fs' →
      m.Ensures (Fs.run p) ok Q fs') :
    (do Kern.setCopy ip (fun c => { c with nlink := toShort (c.nlink + k) })
        Kern.iupdate ip
        m : KernM α).Ensures (Fs.run p) ok Q fs := by
  have hs := h.short hl
  exact relink_seq hok hsb h hl (a := id) (b := id) (l := fun x => toShort (x + k))
    ⟨hs.major, hs.minor, toShort_toShort _⟩ rfl hq

/-- Dropping a reference to file `i` may free it. -/
def Frees (i : Nat) (N N' : Nat → Node) : Prop :=
  N' = N ∨ ((N i).type ≠ 0 ∧ (N i).nlink = 0 ∧ N' = setAt N i .free)

theorem Frees.fades {N' : Nat → Node} (h : Frees i N N') : Relation.ReflTransGen Fades N N' := by
  rcases h with rfl | ⟨ht, hn, rfl⟩
  · exact .refl
  · exact .single (.free ht hn)

theorem iput_frees (hok : Benign ok) (hsb : sb.Ok) (h : Inside p sb N (t.take ip i) fs)
    (hl : ¬ t.Locks ip) :
    (Kern.iput ip).Ensures (Fs.run p) ok (fun _ fs' => ∃ N', Frees i N N' ∧
      (Kept N t i → N' = N) ∧ Inside p sb N' t fs') fs := by
  refine (iput_spec hok hsb h (fun hl' => absurd hl' hl)).mono ?_
  rintro - fs' (h' | ⟨ht, hn, hno, h'⟩)
  · exact ⟨N, .inl rfl, fun _ => rfl, h'⟩
  · refine ⟨_, .inr ⟨ht, hn, rfl⟩, fun hk => ?_, h'⟩
    rcases hk with hk | hk | ⟨jp, hk⟩
    · exact absurd hk ht
    · exact absurd hn hk
    · exact absurd hk (hno jp)

theorem iunlockput_frees (hok : Benign ok) (hsb : sb.Ok)
    (h : Inside p sb N ((t.take ip i).lock ip i) fs) (hl : ¬ t.Locks ip) :
    (Kern.iunlockput ip).Ensures (Fs.run p) ok (fun _ fs' => ∃ N', Frees i N N' ∧
      (Kept N t i → N' = N) ∧ Inside p sb N' t fs') fs := by
  unfold Kern.iunlockput
  apply Free.Ensures.seq (iunlock_spec hok h)
  intro _ fs₁ h₁
  exact iput_frees hok hsb h₁ hl

theorem Kept.congr {N' : Nat → Node} (h : Kept N t i) (ht : (N' i).type = (N i).type)
    (hn : (N' i).nlink = (N i).nlink) : Kept N' t i := by
  unfold Kept
  rw [ht, hn]
  exact h

theorem Sound.congr {N' : Nat → Node} (h : Sound N) (ht : ∀ i, (N' i).type = (N i).type)
    (he : ∀ i, (N' i).entry = (N i).entry) : Sound N' := by
  refine ⟨by rw [ht]; exact h.root, fun i s hd hne => ?_⟩
  rw [he] at hne ⊢
  rw [ht] at hd ⊢
  exact h.entry i s hd hne

/-- A change of one file that keeps its type and its names. -/
theorem Sound.relink (h : Sound N) {n : Node} (ht : n.type = (N i).type)
    (he : n.entry = (N i).entry) : Sound (setAt N i n) := by
  refine h.congr (fun j => ?_) (fun j => ?_)
  · by_cases hj : j = i
    · rw [hj, setAt_same, ht]
    · rw [setAt_other _ _ _ hj]
  · by_cases hj : j = i
    · rw [hj, setAt_same, he]
    · rw [setAt_other _ _ _ hj]

/- link(). -/

theorem addLink_undo {n : Node} (h : toShort n.nlink = n.nlink) :
    (n.addLink 1).addLink (-1) = n := by
  have : toShort (toShort (n.nlink + 1) + -1) = n.nlink := by
    rw [← h]
    unfold toShort
    omega
  unfold Node.addLink
  simp only [this]

theorem linkBad_spec (hok : Benign ok) (hsb : sb.Ok) (hc : t.Calm)
    (h : Inside p sb (setAt N i ((N i).addLink 1)) (t.take ip i) fs) (hk : Kept N t i)
    (ht : (N i).type ≠ 0) (hs : toShort (N i).nlink = (N i).nlink) :
    (Kern.linkBad ip).Ensures (Fs.run p) ok (fun r fs' => r = -1 ∧ Inside p sb N t fs') fs := by
  have hn : (t.take ip i).Names ip i := t.names_take.mpr (.inl ⟨rfl, rfl⟩)
  unfold Kern.linkBad
  apply Free.Ensures.seq (ilock_spec hok hsb h hn (.inr (by rw [setAt_same]; exact ht)))
  rintro - fs₁ ⟨h₁, -⟩
  refine addLink_seq hok hsb h₁ List.mem_cons_self (-1) (fun fs₂ h₂ => ?_)
  rw [setAt_same, setAt_setAt, addLink_undo hs, setAt_self] at h₂
  apply Free.Ensures.seq (iunlockput_kept hok hsb h₂ (hc.unlocked ip) hk)
  exact fun _ fs₃ h₃ => finish_spec h₃ (-1)

/-- What a locked or referenced inode is in memory. -/
theorem Inside.entry_of (h : Inside p sb N t fs) (hn : t.Names ip i) :
    (fs.mem.inode ip).dev = ROOTDEV ∧ (fs.mem.inode ip).inum = i ∧ 0 < i ∧ i < sb.ninodes := by
  obtain ⟨ino, h⟩ := h
  have hi := h.mem.inum_eq hn
  have he := (h.mem.slot ip).entry (h.mem.ref_pos hn)
  exact ⟨he.1, hi, hi ▸ he.2⟩

/-- What a call that made the name has done. -/
def LinkDone (p : ProcId) (sb : Superblock) (N : Nat → Node) (t : Holders) (r : Int) (fs' : Fs) :
    Prop :=
  (r = -1 ∧ Inside p sb N t fs') ∨ (r = 0 ∧ ∃ d s i name N', Links N d s i name ∧
    Frees i (linkAt N d s i name) N' ∧ Inside p sb N' t fs')

theorem linkName_spec (hok : Benign ok) (hsb : sb.Ok) (hs : ok .ilockNoType ∨ Sound N)
    (hc : t.Calm) (h : Inside p sb (setAt N i ((N i).addLink 1)) (t.take ip i) fs)
    (hk : ∀ j, Kept N t j) (ht : (N i).type ≠ 0) (hd : (N i).type ≠ T_DIR)
    (hshort : toShort (N i).nlink = (N i).nlink) (new : List UInt8) :
    (Kern.linkName ip new).Ensures (Fs.run p) ok (LinkDone p sb N t) fs := by
  have hs₁ : ok .ilockNoType ∨ Sound (setAt N i ((N i).addLink 1)) :=
    hs.imp id (fun hs => hs.relink rfl rfl)
  unfold Kern.linkName
  apply Free.Ensures.seq (nameiparent_spec hok hsb hs₁ h (hc.take ip i) new)
  rintro (_ | ⟨dp, name⟩) fs₁ h₁
  · exact (linkBad_spec hok hsb hc h₁.2 (hk i) ht hshort).mono (fun r fs' h' => .inl h')
  · obtain ⟨d, hpath, hdir, h₁⟩ := h₁
    have hne : d ≠ i := by
      rintro rfl
      rw [setAt_same] at hdir
      exact hd hdir
    rw [setAt_other _ _ _ hne] at hdir
    have hdir₁ : ((setAt N i ((N i).addLink 1)) d).type = T_DIR := by
      rw [setAt_other _ _ _ hne]
      exact hdir
    have hn : ((t.take ip i).take dp d).Names dp d := Holders.names_take _ |>.mpr (.inl ⟨rfl, rfl⟩)
    apply Free.Ensures.seq (ilock_spec hok hsb h₁ hn (.inr (by rw [hdir₁]; decide)))
    rintro - fs₂ ⟨h₂, -⟩
    have hn₂ : (((t.take ip i).take dp d).lock dp d).Names ip i := by simp [Holders.names_lock,
      Holders.names_take]
    obtain ⟨hdev, hinum, -, hlt⟩ := h₂.entry_of hn₂
    have hr := h₂.reads List.mem_cons_self
    unfold Kern.inodeOf
    rw [Free.ensures_bind, ensures_get, Free.ensures_bind, ensures_get, hr.dev, hdev, hinum,
      if_neg (fun hne => hne rfl)]
    apply Free.Ensures.seq (dirlink_spec hok hsb h₂ List.mem_cons_self hdir₁ hc.fresh name hlt)
    rintro (_ | _) fs₃ h₃
    · have hkd : Kept (setAt N i ((N i).addLink 1)) (t.take ip i) d :=
        ((hk d).congr (by rw [setAt_other _ _ _ hne]) (by rw [setAt_other _ _ _ hne])).take
      apply Free.Ensures.seq (iunlockput_kept hok hsb h₃ (hc.unlocked dp) hkd)
      intro _ fs₄ h₄
      exact (linkBad_spec hok hsb hc h₄ (hk i) ht hshort).mono (fun r fs' h' => .inl h')
    · obtain ⟨s, hslot, hempty, hfirst, hnew, h₃⟩ := h₃
      rw [setAt_other _ _ _ hne] at hslot hempty hnew h₃
      simp only [setAt_other _ _ _ hne] at hfirst
      have hlinks : Links N d s i name := 
        ⟨⟨hdir, hslot, hempty, hfirst, hnew, walk_noslash hpath⟩, ht, hd⟩
      have hkd : Kept (linkAt N d s i name) (t.take ip i) d := by
        refine ((hk d).congr ?_ ?_).take
        · rw [linkAt, setAt_same]
          rfl
        · rw [linkAt, setAt_same]
          rfl
      apply Free.Ensures.seq (iunlockput_kept hok hsb h₃ (hc.unlocked dp) hkd)
      intro _ fs₄ h₄
      apply Free.Ensures.seq (iput_frees hok hsb h₄ (hc.unlocked ip))
      rintro - fs₅ ⟨N', hN, -, h₅⟩
      refine (finish_spec h₅ 0).mono ?_
      rintro r fs' ⟨rfl, h'⟩
      exact .inr ⟨rfl, d, s, i, name, N', hlinks, hN, h'⟩

theorem sysLink_spec (hok : Benign ok) (hsb : sb.Ok) (hs : ok .ilockNoType ∨ Sound N)
    (hc : t.Calm) (h : Inside p sb N t fs) (old new : StrArg) :
    (Kern.sysLink old new).Ensures (Fs.run p) ok (LinkDone p sb N t) fs := by
  have hk : ∀ j, Kept N t j := fun j => h.kept (by rw [hc.fresh]; simp)
  unfold Kern.sysLink
  split
  · rename_i old new
    rw [Free.ensures_bind]
    apply ensures_beginOp
    intro st₀ hs₀
    apply Free.Ensures.seq (namei_spec hok hsb hs (h.same hs₀) hc old)
    rintro (_ | ip) fs₁ h₁
    · exact (finish_spec h₁.2 (-1)).mono (fun r fs' h' => .inl h')
    · obtain ⟨i, -, ht, h₁⟩ := h₁
      have hn : (t.take ip i).Names ip i := t.names_take.mpr (.inl ⟨rfl, rfl⟩)
      apply Free.Ensures.seq (ilock_spec hok hsb h₁ hn ht)
      rintro - fs₂ ⟨h₂, -⟩
      have hr := h₂.reads List.mem_cons_self
      unfold Kern.inodeOf
      rw [Free.ensures_bind, ensures_get, hr.type]
      apply ensures_ite
      · intro _
        apply Free.Ensures.seq (iunlockput_kept hok hsb h₂ (hc.unlocked ip) (hk i))
        exact fun _ fs₃ h₃ => (finish_spec h₃ (-1)).mono (fun r fs' h' => .inl h')
      · intro hd
        have hlive := h₂.live List.mem_cons_self
        have hshort := (h₂.short List.mem_cons_self).nlink
        refine addLink_seq hok hsb h₂ List.mem_cons_self 1 (fun fs₃ h₃ => ?_)
        apply Free.Ensures.seq (iunlock_spec hok h₃)
        intro _ fs₄ h₄
        exact linkName_spec hok hsb hs hc h₄ hk hlive hd hshort new
  · exact .inl ⟨rfl, h⟩

/- unlink(). -/

/-- What a call that removed the name has done. -/
def UnlinkDone (p : ProcId) (sb : Superblock) (N : Nat → Node) (t : Holders) (r : Int)
    (fs' : Fs) : Prop :=
  (r = -1 ∧ Inside p sb N t fs') ∨ (r = 0 ∧ ∃ d s i N', Unlinks N d s i ∧
    Relation.ReflTransGen Fades (unlinkAt N d s i) N' ∧ Inside p sb N' t fs')

theorem unlinkBad_spec (hok : Benign ok) (hsb : sb.Ok) (hc : t.Calm)
    (h : Inside p sb N ((t.take dp d).lock dp d) fs) (hk : Kept N t d) :
    (Kern.unlinkBad dp).Ensures (Fs.run p) ok (fun r fs' => r = -1 ∧ Inside p sb N t fs') fs := by
  unfold Kern.unlinkBad
  apply Free.Ensures.seq (iunlockput_kept hok hsb h (hc.unlocked dp) hk)
  exact fun _ fs₁ h₁ => finish_spec h₁ (-1)

/-- The two inodes are dropped, the directory first. -/
theorem unlinkDrop_spec (hok : Benign ok) (hsb : sb.Ok) (hc : t.Calm) {M : Nat → Node}
    (h : Inside p sb M ((((t.take dp d).lock dp d).take ip i).lock ip i) fs) (hne : i ≠ d)
    (hp : ip ≠ dp) :
    (do
      Kern.iunlockput dp
      Kern.setCopy ip (fun c => { c with nlink := toShort (c.nlink - 1) })
      Kern.iupdate ip
      Kern.iunlockput ip
      Kern.finish 0 : KernM Int).Ensures (Fs.run p) ok (fun r fs' => r = 0 ∧ ∃ N',
        Relation.ReflTransGen Fades (setAt M i ((M i).addLink (-1))) N' ∧
        Inside p sb N' t fs') fs := by
  have h' : Inside p sb M ((((t.take ip i).lock ip i).take dp d).lock dp d) fs :=
    h.perm (.swap _ _ _) (.swap _ _ _)
  have hnl : ¬ ((t.take ip i).lock ip i).Locks dp := by
    rw [Holders.locks_lock]
    rintro (he | hl)
    · exact hp he.symm
    · exact hc.unlocked dp hl
  apply Free.Ensures.seq (iunlockput_frees hok hsb h' hnl)
  rintro - fs₁ ⟨M₁, hM₁, -, h₁⟩
  have hi : M₁ i = M i := by
    rcases hM₁ with rfl | ⟨-, -, rfl⟩
    · rfl
    · exact setAt_other _ _ _ hne
  -- freeing the directory commutes with the change of the other inode
  have hfree : Relation.ReflTransGen Fades (setAt M i ((M i).addLink (-1)))
      (setAt M₁ i ((M₁ i).addLink (-1))) := by
    rcases hM₁ with rfl | ⟨ht, hn, rfl⟩
    · exact .refl
    · rw [hi, setAt_comm _ hne.symm]
      refine .single (.free ?_ ?_)
      · rw [setAt_other _ _ _ hne.symm]
        exact ht
      · rw [setAt_other _ _ _ hne.symm]
        exact hn
  refine addLink_seq hok hsb h₁ List.mem_cons_self (-1) (fun fs₂ h₂ => ?_)
  apply Free.Ensures.seq (iunlockput_frees hok hsb h₂ (hc.unlocked ip))
  rintro - fs₃ ⟨M₃, hM₃, -, h₃⟩
  refine (finish_spec h₃ 0).mono ?_
  rintro r fs' ⟨hr, h'⟩
  exact ⟨hr, M₃, hfree.trans hM₃.fades, h'⟩

theorem unlinkEntry_spec (hok : Benign ok) (hsb : sb.Ok) (hc : t.Calm)
    (h : Inside p sb N ((((t.take dp d).lock dp d).take ip i).lock ip i) fs) {s : Nat}
    (hu : Unlinks N d s i) (hp : ip ≠ dp) :
    (Kern.unlinkEntry dp ip (16 * s)).Ensures (Fs.run p) ok (UnlinkDone p sb N t) fs := by
  have hld : (dp, d) ∈ ((((t.take dp d).lock dp d).take ip i).lock ip i).locked :=
    List.mem_cons_of_mem _ List.mem_cons_self
  have hde : direntOf (List.replicate 16 0) = Dirent.erased := by decide
  unfold Kern.unlinkEntry
  refine Free.Ensures.seq (writei_entry_spec hok hsb h hld hu.dir (Nat.le_of_lt hu.slot)
    (by simp) (by rw [hde]; exact Nat.zero_lt_of_lt hsb.root)) ?_
  rintro n fs₁ (⟨hn, -⟩ | ⟨rfl, h₁⟩)
  · rw [if_pos hn]
    exact hok _ (by decide) (by decide) (by decide) (by decide)
  · rw [if_neg (fun hn => hn rfl), hde] at *
    have hr := h₁.reads List.mem_cons_self
    rw [setAt_other _ _ _ hu.other] at hr
    unfold Kern.inodeOf
    rw [Free.ensures_bind, ensures_get, hr.type, Free.ensures_bind]
    have hend : ∀ M fs₂, Inside p sb M ((((t.take dp d).lock dp d).take ip i).lock ip i) fs₂ →
        setAt M i ((M i).addLink (-1)) = unlinkAt N d s i →
        (do
          Kern.iunlockput dp
          Kern.setCopy ip (fun c => { c with nlink := toShort (c.nlink - 1) })
          Kern.iupdate ip
          Kern.iunlockput ip
          Kern.finish 0 : KernM Int).Ensures (Fs.run p) ok (UnlinkDone p sb N t) fs₂ := by
      intro M fs₂ h₂ hM
      refine (unlinkDrop_spec hok hsb hc h₂ hu.other hp).mono ?_
      rintro r fs' ⟨rfl, N', hN, h'⟩
      rw [hM] at hN
      exact .inr ⟨rfl, d, s, i, N', hu, hN, h'⟩
    apply ensures_when
    · intro hdir
      have hs := h₁.short hld
      refine (relink_spec hok hsb h₁ hld (a := id) (b := id) (l := fun x => toShort (x + -1))
        ⟨hs.major, hs.minor, toShort_toShort _⟩).mono (fun _ fs₂ h₂ => hend _ fs₂ h₂ ?_)
      rw [setAt_same, setAt_setAt, setAt_other _ _ _ hu.other, unlinkAt, if_pos hdir]
      rfl
    · intro hdir
      apply hend _ fs₁ h₁
      rw [setAt_other _ _ _ hu.other, unlinkAt, if_neg hdir]

theorem namecmp_trans {a b c : List UInt8} (h : namecmp a c = true) (hn : namecmp a b = false) :
    namecmp b c = false := by
  unfold namecmp at *
  rw [beq_iff_eq] at h
  rw [beq_eq_false_iff_ne] at hn ⊢
  exact fun he => hn (h.trans he.symm)

/-- What a directory names, other than itself and what is above it, has a link. -/
def Counted (N : Nat → Node) : Prop := ∀ d s, (N d).type = T_DIR → ((N d).entry s).inum ≠ 0 →
  namecmp dot ((N d).entry s).name = false → namecmp dotdot ((N d).entry s).name = false →
  1 ≤ (N ((N d).entry s).inum).nlink

theorem unlinkName_spec (hok : Benign ok) (hsb : sb.Ok) (hs : ok .ilockNoType ∨ Sound N)
    (hl : ok .unlinkNlink ∨ Counted N) (hc : t.Calm) (h : Inside p sb N ((t.take dp d).lock dp d) fs) (hk : ∀ j, Kept N t j)
    (hd : (N d).type = T_DIR) {name : List UInt8} (h₁ : namecmp name dot = false)
    (h₂ : namecmp name dotdot = false) :
    (Kern.unlinkName dp name).Ensures (Fs.run p) ok (UnlinkDone p sb N t) fs := by
  unfold Kern.unlinkName
  apply Free.Ensures.seq (dirlookup_spec hok hsb h List.mem_cons_self hd name)
  rintro (_ | ⟨ip, off⟩) fs₁ h₁'
  · exact (unlinkBad_spec hok hsb hc h₁'.2 (hk d)).mono (fun r fs' h' => .inl h')
  · obtain ⟨s, hf, rfl, h₁'⟩ := h₁'
    obtain ⟨hslot, hnamed⟩ := find_some hf
    generalize hi : ((N d).entry s).inum = i at h₁'
    have hi₀ : i ≠ 0 := hi ▸ hnamed.1
    have hn : (((t.take dp d).lock dp d).take ip i).Names ip i :=
      Holders.names_take _ |>.mpr (.inl ⟨rfl, rfl⟩)
    have hnd : (((t.take dp d).lock dp d).take ip i).Names dp d := by
      simp [Holders.names_lock, Holders.names_take]
    have hlive : ok .ilockNoType ∨ (N i).type ≠ 0 :=
      hs.imp id (fun hs => hi ▸ hs.entry d s hd hnamed.1)
    apply Free.Ensures.seq (ilock_spec hok hsb h₁' hn hlive)
    rintro - fs₂ ⟨h₂', hnl⟩
    have hp : ip ≠ dp := by
      rintro rfl
      exact hnl (Holders.locks_lock _ |>.mpr (.inl rfl))
    have hne : i ≠ d := by
      rintro rfl
      obtain ⟨ino, hw⟩ := h₁'
      exact hp (hw.mem.names_inj hn hnd)
    have hr := h₂'.reads List.mem_cons_self
    unfold Kern.inodeOf
    rw [Free.ensures_bind, ensures_get, hr.nlink, hr.type]
    apply ensures_ite
    · intro hnlink
      rcases hl with hl | hl
      · exact hl
      · have := hl d s hd hnamed.1 (namecmp_trans hnamed.2 h₁) (namecmp_trans hnamed.2 h₂)
        rw [hi] at this
        omega
    · intro hnlink
      have hu : ((N i).type = T_DIR → ∀ s, 2 ≤ s → ((N i).entry s).inum = 0) → Unlinks N d s i :=
        fun hv => ⟨hd, hslot, hi, hi₀, h₂'.live List.mem_cons_self, hne,
          namecmp_trans hnamed.2 h₁, namecmp_trans hnamed.2 h₂, by omega, hv⟩
      apply ensures_ite
      · intro hdir
        apply Free.Ensures.seq (isdirempty_spec hsb h₂' List.mem_cons_self hdir)
        rintro empty fs₃ ⟨h₃, he⟩
        apply ensures_ite
        · intro hempty
          exact unlinkEntry_spec hok hsb hc h₃ (hu (fun _ => he hempty)) hp
        · intro _
          have hnl' : ¬ ((t.take dp d).lock dp d).Locks ip := hnl
          apply Free.Ensures.seq (iunlockput_kept hok hsb h₃ hnl' ?_)
          · exact fun _ fs₄ h₄ => (unlinkBad_spec hok hsb hc h₄ (hk d)).mono (fun r fs' h' => .inl h')
          · exact h.kept (by rw [show ((t.take dp d).lock dp d).fresh = [] from hc.fresh]; simp)
      · intro hdir
        exact unlinkEntry_spec hok hsb hc h₂' (hu (fun hd => absurd hd hdir)) hp

theorem sysUnlink_spec (hok : Benign ok) (hsb : sb.Ok) (hs : ok .ilockNoType ∨ Sound N)
    (hl : ok .unlinkNlink ∨ Counted N) (hc : t.Calm) (h : Inside p sb N t fs) (path : StrArg) :
    (Kern.sysUnlink path).Ensures (Fs.run p) ok (UnlinkDone p sb N t) fs := by
  have hk : ∀ j, Kept N t j := fun j => h.kept (by rw [hc.fresh]; simp)
  unfold Kern.sysUnlink
  split
  · exact .inl ⟨rfl, h⟩
  · rename_i path
    rw [Free.ensures_bind]
    apply ensures_beginOp
    intro st₀ hs₀
    apply Free.Ensures.seq (nameiparent_spec hok hsb hs (h.same hs₀) hc path)
    rintro (_ | ⟨dp, name⟩) fs₁ h₁
    · exact (finish_spec h₁.2 (-1)).mono (fun r fs' h' => .inl h')
    · obtain ⟨d, -, hd, h₁⟩ := h₁
      have hn : (t.take dp d).Names dp d := t.names_take.mpr (.inl ⟨rfl, rfl⟩)
      apply Free.Ensures.seq (ilock_spec hok hsb h₁ hn (.inr (by rw [hd]; decide)))
      rintro - fs₂ ⟨h₂, -⟩
      apply ensures_ite
      · intro _
        exact (unlinkBad_spec hok hsb hc h₂ (hk d)).mono (fun r fs' h' => .inl h')
      · intro hdots
        rw [not_or] at hdots
        exact unlinkName_spec hok hsb hs hl hc h₂ hk hd (by simpa using hdots.1)
          (by simpa using hdots.2)

end Xv6
