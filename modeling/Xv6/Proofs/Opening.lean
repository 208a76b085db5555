import Xv6.Proofs.Files

namespace Xv6
variable {p : ProcId} {ok : Panic → Prop} {sb : Superblock} {N : Nat → Node} {t : Holders}
  {fs : Fs} {ip : InodePtr} {i : Nat}

/- open(). -/

/-- The entry of the file table that sys_open() fills in. -/
def File.openedAs (g : File) (n : Node) (ip : InodePtr) (omode : Nat) : File :=
  { g with
    type := if n.type = T_DEVICE then .device else .inode
    major := if n.type = T_DEVICE then n.major else g.major
    off := if n.type = T_DEVICE then g.off else 0
    ip := ip
    readable := decide (omode &&& O_WRONLY = 0)
    writable := decide (omode &&& O_WRONLY ≠ 0 ∨ omode &&& O_RDWR ≠ 0) }

theorem Inside.giveFile {g : File} {f : FilePtr} (h : Inside p sb N (t.take ip i) fs)
    (hlive : (N i).type ≠ 0) (hf : (t.file f).type = .none)
    (hg : g.type = .inode ∨ g.type = .device) (hip : g.ip = ip) (href : 0 < g.ref)
    (hw : g.writable = true → (N i).type ≠ T_DIR) :
    Inside p sb N ((t.setFile f g).setBase ip i)
      { fs with mem := { fs.mem with file := setAt fs.mem.file f g } } := by
  obtain ⟨ino, h⟩ := h
  rw [h.type_eq] at hlive hw
  exact ⟨ino, h.setMem (h.mem.giveFile hlive hf hg hip href hw)⟩

/-- What open() does to a file that is there: O_TRUNC changes no directory. -/
structure Trims (N N' : Nat → Node) : Prop where
  fades : Relation.ReflTransGen Fades N N'
  dirs : ∀ j, (N j).type = T_DIR → N' j = N j

theorem Trims.refl (N : Nat → Node) : Trims N N := ⟨.refl, fun _ _ => rfl⟩

theorem trims_trunc (h : Inside p sb N t fs) (ht : (N i).type = T_FILE) :
    Trims N (setAt N i (N i).truncated) := by
  have hd : (N i).type ≠ T_DIR := by rw [ht]; decide
  have : (N i).truncated = { N i with size := 0, data := fun _ => 0 } := by
    have he := h.entry_file hd
    unfold Node.truncated
    rw [← he]
  rw [this]
  refine ⟨.single (.write (by rw [ht]; decide) hd 0 _), fun j hj => setAt_other _ _ _ ?_⟩
  rintro rfl
  exact hd hj

theorem openFile_spec (hok : Benign ok) (hsb : sb.Ok) (hi : t.Idle)
    (h : Inside p sb N ((t.take ip i).lock ip i) fs) (hk : Kept N t i) {omode : Nat}
    (hdir : (N i).type = T_DIR → omode = O_RDONLY) :
    (Kern.openFile ip omode).Ensures (Fs.run p) ok (fun r fs' =>
      (r = -1 ∧ Inside p sb N t fs') ∨
      (0 ≤ r ∧ ∃ N' t', Trims N N' ∧ t'.Idle ∧ Inside p sb N' t' fs')) fs := by
  have hr := h.reads List.mem_cons_self
  have hlive := h.live List.mem_cons_self
  have hbad : ∀ fs₁, Inside p sb N ((t.take ip i).lock ip i) fs₁ →
      (do
        Kern.iunlockput ip
        Kern.finish (-1) : KernM Int).Ensures (Fs.run p) ok (fun r fs' =>
          (r = -1 ∧ Inside p sb N t fs') ∨
          (0 ≤ r ∧ ∃ N' t', Trims N N' ∧ t'.Idle ∧ Inside p sb N' t' fs')) fs₁ := by
    intro fs₁ h₁
    apply Free.Ensures.seq (iunlockput_kept hok hsb h₁ (hi.unlocked ip) hk)
    exact fun _ fs₂ h₂ => (finish_spec h₂ (-1)).mono (fun _ _ h' => .inl h')
  unfold Kern.openFile Kern.inodeOf
  rw [Free.ensures_bind, ensures_get, hr.type, hr.major]
  apply ensures_ite
  · exact fun _ => hbad fs h
  · intro _
    apply Free.Ensures.seq (filealloc_spec h)
    rintro (_ | f) fs₁ h₁
    · exact hbad fs₁ h₁
    · obtain ⟨href, hnone, h₁⟩ := h₁
      apply Free.Ensures.seq (fdalloc_spec h₁ hi.moving f)
      rintro (_ | fd) fs₂ h₂
      · apply Free.Ensures.seq (fileclose_unused h₂ href hnone)
        exact fun _ fs₃ h₃ => hbad fs₃ h₃
      · obtain ⟨pr, h₂⟩ := h₂
        -- the reference of the call becomes that of the open file
        let T := (t.setFile f { t.file f with ref := 1 }).setProc p pr
        let g := File.openedAs { t.file f with ref := 1 } (N i) ip omode
        have hT : T.Idle := (hi.setFile f _).setProc p pr
        have h₂ : Inside p sb N ((T.lock ip i).take ip i) fs₂ := h₂
        have hTf : (T.lock ip i).file f = { t.file f with ref := 1 } := setAt_same _ _ _
        have hwr : g.writable = true → (N i).type ≠ T_DIR := by
          intro hw hd
          have hw := of_decide_eq_true hw
          rw [hdir hd] at hw
          exact absurd hw (by decide)
        have htype : g.type = .inode ∨ g.type = .device := by
          change (if (N i).type = T_DEVICE then FileType.device else .inode) = _ ∨
            (if (N i).type = T_DEVICE then FileType.device else .inode) = _
          split
          · exact .inr rfl
          · exact .inl rfl
        have h₃ := h₂.giveFile (f := f) (g := g) hlive (by rw [hTf]; exact hnone) htype rfl
          (show (0 : Int) < 1 by decide) hwr
        have hT' : ((T.setFile f g).setBase ip i).Idle := ⟨⟨hT.locked, hT.fresh, hT.moving⟩, hT.refs⟩
        have hfile : fs₂.mem.file f = { t.file f with ref := 1 } := by
          rw [h₂.file]
          exact hTf
        unfold Kern.setFile
        rw [Free.ensures_bind, ensures_update, Mem.setFile, hfile, Free.ensures_bind]
        apply ensures_when
        · intro htr
          have h₃ : Inside p sb N (((T.setFile f g).setBase ip i).lock ip i) _ := h₃
          refine (itrunc_spec hok hsb h₃ List.mem_cons_self).mono ?_
          rintro - fs₄ ⟨ino, h₄, -⟩
          apply Free.Ensures.seq (iunlock_spec hok ⟨ino, h₄⟩)
          intro _ fs₅ h₅
          refine (finish_spec h₅ _).mono ?_
          rintro r fs' ⟨rfl, h'⟩
          exact .inr ⟨Int.natCast_nonneg _, _, _, trims_trunc h htr.2, hT', h'⟩
        · intro _
          apply Free.Ensures.seq (iunlock_spec hok (t := (T.setFile f g).setBase ip i) h₃)
          intro _ fs₅ h₅
          refine (finish_spec h₅ _).mono ?_
          rintro r fs' ⟨rfl, h'⟩
          exact .inr ⟨Int.natCast_nonneg _, _, _, .refl N, hT', h'⟩

/-- create() made the file `i`, as the last element of the path, and nothing else. -/
structure Made (p : ProcId) (N : Nat → Node) (t : Holders) (path : List UInt8)
    (type major minor : Int) (i : Nat) (N' : Nat → Node) : Prop where
  made : ∃ d s name, resolveParent N (t.start p path) path = some (d, name) ∧
    Makes N d s i name type ∧
    Frees d (makeAt N d s i name (.new type (toShort major) (toShort minor) i d)) N' ∧
    ((N d).nlink = 0 → N' = makeAt N d s i name (.new type (toShort major) (toShort minor) i d))

/-- What open() has done. -/
inductive OpenDone (p : ProcId) (sb : Superblock) (N : Nat → Node) (t : Holders)
    (path : List UInt8) (omode : Nat) : Int → Fs → Prop
  | failed {fs' : Fs} (h : Inside p sb N t fs') : OpenDone p sb N t path omode (-1) fs'
  | abandoned {N' : Nat → Node} {i : Nat} {fs' : Fs} (hc : omode &&& O_CREATE ≠ 0)
      (hm : Made p N t path T_FILE 0 0 i N') (h : Inside p sb N' t fs') :
      OpenDone p sb N t path omode (-1) fs'
  | opened {r : Int} {N₁ N' : Nat → Node} {t' : Holders} {fs' : Fs} (hr : 0 ≤ r)
      (hm : N₁ = N ∨ omode &&& O_CREATE ≠ 0 ∧ ∃ i, Made p N t path T_FILE 0 0 i N₁)
      (hN : Trims N₁ N') (hi : t'.Idle) (h : Inside p sb N' t' fs') :
      OpenDone p sb N t path omode r fs'

theorem Made.node {path : List UInt8} {type major minor : Int} {N' : Nat → Node}
    (h : Made p N t path type major minor i N') :
    ∃ d, N' i = .new type (toShort major) (toShort minor) i d := by
  obtain ⟨d, s, name, -, hm, hf, -⟩ := h.made
  have hne : i ≠ d := by
    rintro rfl
    have := hm.enters.dir
    rw [hm.free] at this
    exact absurd this (by decide)
  refine ⟨d, ?_⟩
  rcases hf with rfl | ⟨-, -, rfl⟩
  · rw [makeAt, setAt_other _ _ _ hne, setAt_same]
  · rw [setAt_other _ _ _ hne, makeAt, setAt_other _ _ _ hne, setAt_same]

theorem new_nlink (type major minor : Int) (i d : Nat) : (Node.new type major minor i d).nlink = 1 := by
  unfold Node.new
  split <;> rfl

theorem new_type (type major minor : Int) (i d : Nat) :
    (Node.new type major minor i d).type = type := by
  unfold Node.new
  split <;> rfl

theorem sysOpen_spec (hok : Benign ok) (hsb : sb.Ok) (hs : ok .ilockNoType ∨ Sound N) (hi : t.Idle)
    (h : Inside p sb N t fs) (path : List UInt8) (omode : Nat) :
    (Kern.sysOpen (.str path) omode).Ensures (Fs.run p) ok (OpenDone p sb N t path omode) fs := by
  have hk : ∀ j, Kept N t j := fun j => h.kept (by rw [hi.fresh]; simp)
  unfold Kern.sysOpen
  dsimp only
  rw [Free.ensures_bind]
  apply ensures_beginOp
  intro st₀ hs₀
  have h₀ := h.same hs₀
  apply ensures_ite
  · intro hc
    apply Free.Ensures.seq (create_spec hok hsb hs hi.toCalm hi.refs h₀ path (.inr (.inl rfl)) 0 0)
    rintro (_ | ip) fs₁ h₁
    · refine (finish_spec h₁ (-1)).mono ?_
      rintro r fs' ⟨rfl, h'⟩
      exact .failed h'
    · rcases h₁ with ⟨i, -, ht, h₁⟩ | ⟨d, s, i, name, N', hpath, hm, hf, hstay, h₁⟩
      · have hnd : (N i).type = T_DIR → omode = O_RDONLY := by
          intro hd
          rw [hd] at ht
          exact absurd ht (by decide)
        refine (openFile_spec hok hsb hi h₁ (hk i) hnd).mono ?_
        rintro r fs' (⟨rfl, h'⟩ | ⟨hr, N₂, t', hN, hi', h'⟩)
        · exact .failed h'
        · exact .opened hr (.inl rfl) hN hi' h'
      · have hmade : Made p N t path T_FILE 0 0 i N' := ⟨d, s, name, hpath, hm, hf, hstay⟩
        obtain ⟨d', hnode⟩ := hmade.node
        have hkept : Kept N' t i := .inr (.inl (by rw [hnode, new_nlink]; decide))
        have hnd : (N' i).type = T_DIR → omode = O_RDONLY := by
          rw [hnode, new_type]
          exact fun hd => absurd hd (by decide)
        refine (openFile_spec hok hsb hi h₁ hkept hnd).mono ?_
        rintro r fs' (⟨rfl, h'⟩ | ⟨hr, N₂, t', hN, hi', h'⟩)
        · exact .abandoned hc hmade h'
        · exact .opened hr (.inr ⟨hc, i, hmade⟩) hN hi' h'
  · intro _
    apply Free.Ensures.seq (namei_spec hok hsb hs h₀ hi.toCalm path)
    rintro (_ | ip) fs₁ h₁
    · refine (finish_spec h₁.2 (-1)).mono ?_
      rintro r fs' ⟨rfl, h'⟩
      exact .failed h'
    · obtain ⟨i, -, ht, h₁⟩ := h₁
      have hn : (t.take ip i).Names ip i := t.names_take.mpr (.inl ⟨rfl, rfl⟩)
      apply Free.Ensures.seq (ilock_spec hok hsb h₁ hn ht)
      rintro - fs₂ ⟨h₂, -⟩
      have hr := h₂.reads List.mem_cons_self
      unfold Kern.inodeOf
      rw [Free.ensures_bind, ensures_get, hr.type]
      apply ensures_ite
      · intro _
        apply Free.Ensures.seq (iunlockput_kept hok hsb h₂ (hi.unlocked ip) (hk i))
        intro _ fs₃ h₃
        refine (finish_spec h₃ (-1)).mono ?_
        rintro r fs' ⟨rfl, h'⟩
        exact .failed h'
      · intro hd
        have hnd : (N i).type = T_DIR → omode = O_RDONLY :=
          fun ht => Decidable.of_not_not (fun hne => hd ⟨ht, hne⟩)
        refine (openFile_spec hok hsb hi h₂ (hk i) hnd).mono ?_
        rintro r fs' (⟨rfl, h'⟩ | ⟨hr, N₂, t', hN, hi', h'⟩)
        · exact .failed h'
        · exact .opened hr (.inl rfl) hN hi' h'

/- mkdir() and mknod(). -/

theorem makeNode_made (hok : Benign ok) (hsb : sb.Ok) (hs : ok .ilockNoType ∨ Sound N)
    (hi : t.Idle) (h : Inside p sb N t fs) (path : StrArg) {type : Int}
    (htype : type = T_DIR ∨ type = T_DEVICE) (major minor : Int) :
    (Kern.makeNode path type major minor).Ensures (Fs.run p) ok (fun r fs' =>
      (r = -1 ∧ Inside p sb N t fs') ∨ (r = 0 ∧ ∃ path' i N', path = .str path' ∧
        Made p N t path' type major minor i N' ∧ Inside p sb N' t fs')) fs := by
  unfold Kern.makeNode
  rw [Free.ensures_bind]
  apply ensures_beginOp
  intro st₀ hs₀
  have h₀ := h.same hs₀
  split
  · exact (finish_spec h₀ (-1)).mono (fun _ _ h' => .inl h')
  · rename_i path
    apply Free.Ensures.seq (create_spec hok hsb hs hi.toCalm hi.refs h₀ path
      (htype.imp id .inr) major minor)
    rintro (_ | ip) fs₁ h₁
    · exact (finish_spec h₁ (-1)).mono (fun _ _ h' => .inl h')
    · rcases h₁ with ⟨i, hfile, -⟩ | ⟨d, s, i, name, N', hpath, hm, hf, hstay, h₁⟩
      · rcases htype with rfl | rfl
        · exact absurd hfile (by decide)
        · exact absurd hfile (by decide)
      · have hmade : Made p N t path type major minor i N' := ⟨d, s, name, hpath, hm, hf, hstay⟩
        obtain ⟨d', hnode⟩ := hmade.node
        have hkept : Kept N' t i := .inr (.inl (by rw [hnode, new_nlink]; decide))
        apply Free.Ensures.seq (iunlockput_kept hok hsb h₁ (hi.unlocked ip) hkept)
        intro _ fs₂ h₂
        refine (finish_spec h₂ 0).mono ?_
        rintro r fs' ⟨rfl, h'⟩
        exact .inr ⟨rfl, path, i, N', rfl, hmade, h'⟩

theorem makeNode_spec (hok : Benign ok) (hsb : sb.Ok) (hs : ok .ilockNoType ∨ Sound N)
    (hi : t.Idle) (h : Inside p sb N t fs) (path : StrArg) {type : Int}
    (htype : type = T_DIR ∨ type = T_DEVICE) (major minor : Int) :
    (Kern.makeNode path type major minor).Ensures (Fs.run p) ok (fun r fs' =>
      (r = -1 ∧ Inside p sb N t fs') ∨ (r = 0 ∧ ∃ path' i N',
        Made p N t path' type major minor i N' ∧ Inside p sb N' t fs')) fs := by
  refine (makeNode_made hok hsb hs hi h path htype major minor).mono ?_
  rintro r fs' (hfail | ⟨hr, path', i, N', -, hmade⟩)
  · exact .inl hfail
  · exact .inr ⟨hr, path', i, N', hmade⟩

end Xv6
