import Xv6.Proofs.Tables

namespace Xv6
variable {p : ProcId} {ok : Panic → Prop} {sb : Superblock} {N : Nat → Node} {t : Holders}
  {fs : Fs} {ip : InodePtr} {i : Nat} {f : FilePtr} {α : Type}

/-- The state between two system calls. -/
structure Holders.Idle (t : Holders) : Prop extends t.Calm where
  refs : t.refs = []

/-- A call that only closes, reads or writes files has done this. -/
def Quiet (p : ProcId) (sb : Superblock) (N : Nat → Node) (fs' : Fs) : Prop :=
  ∃ N' t', Relation.ReflTransGen Fades N N' ∧ t'.Idle ∧ Inside p sb N' t' fs'

theorem Inside.quiet (h : Inside p sb N t fs) (hi : t.Idle) : Quiet p sb N fs :=
  ⟨N, t, .refl, hi, h⟩

theorem Quiet.trans {N' : Nat → Node} (hf : Relation.ReflTransGen Fades N N')
    (h : Quiet p sb N' fs) : Quiet p sb N fs := by
  obtain ⟨N₂, t₂, hf₂, h₂⟩ := h
  exact ⟨N₂, t₂, hf.trans hf₂, h₂⟩

theorem Holders.Idle.setFile (h : t.Idle) (f : FilePtr) (g : File) : (t.setFile f g).Idle :=
  ⟨⟨h.locked, h.fresh, h.moving⟩, h.refs⟩

theorem Holders.Idle.setProc (h : t.Idle) (q : ProcId) (pr : Option Proc) : (t.setProc q pr).Idle :=
  ⟨⟨h.locked, h.fresh, h.moving⟩, h.refs⟩

theorem Holders.Calm.setFile (h : t.Calm) (f : FilePtr) (g : File) : (t.setFile f g).Calm :=
  ⟨h.locked, h.fresh, h.moving⟩

theorem Inside.file (h : Inside p sb N t fs) : fs.mem.file = t.file := by
  obtain ⟨ino, h⟩ := h
  exact h.mem.file

theorem Inside.proc (h : Inside p sb N t fs) (hm : t.moving = false) : fs.mem.proc = t.proc := by
  obtain ⟨ino, h⟩ := h
  have := h.mem.proc
  rw [hm, if_neg (by decide)] at this
  exact this.symm

/- The file table. -/

/-- A change of a file that concerns no inode. -/
theorem Inside.setFile {g : File} (h : Inside p sb N t fs)
    (ho : ∀ jp, g.opens jp = (t.file f).opens jp) (hc : g.ref ≤ 0 → g.type = .none)
    (hw : g.writable = true → (∃ jp, g.opens jp = true) → (t.file f).writable = true) :
    Inside p sb N (t.setFile f g) { fs with mem := { fs.mem with file := setAt fs.mem.file f g } } := by
  obtain ⟨ino, h⟩ := h
  refine ⟨ino, h.setMem (h.mem.setFile ho hc (fun jp hg hwr => ?_))⟩
  exact h.mem.writable f jp (ho jp ▸ hg) (hw hwr ⟨jp, hg⟩)

theorem Inside.closed (h : Inside p sb N t fs) (hr : (t.file f).ref ≤ 0) :
    (t.file f).type = .none := by
  obtain ⟨ino, h⟩ := h
  exact h.mem.closed f hr

theorem filealloc_spec (h : Inside p sb N t fs) :
    Kern.filealloc.Ensures (Fs.run p) ok (fun r fs' => match r with
      | none => Inside p sb N t fs'
      | some f => (t.file f).ref = 0 ∧ (t.file f).type = .none ∧
          Inside p sb N (t.setFile f { t.file f with ref := 1 }) fs') fs := by
  unfold Kern.filealloc
  rw [ensures_mem]
  have hfile := h.file
  split
  · rename_i f hf
    have hr := List.find?_some hf
    rw [decide_eq_true_eq, hfile] at hr
    have hc := h.closed (Int.le_of_eq hr)
    refine ⟨hr, hc, ?_⟩
    rw [← hfile] at hc ⊢
    exact h.setFile (fun jp => by rw [hfile]; rfl)
      (fun hr => absurd hr (show ¬ (1 : Int) ≤ 0 by decide)) (fun hw _ => by rw [← hfile]; exact hw)
  · exact h

theorem filedup_spec (hok : Benign ok) (h : Inside p sb N t fs) :
    (Kern.filedup f).Ensures (Fs.run p) ok (fun r fs' => r = f ∧
      Inside p sb N (t.setFile f { t.file f with ref := (t.file f).ref + 1 }) fs') fs := by
  unfold Kern.filedup
  rw [ensures_mem]
  have hfile := h.file
  split
  · exact hok _ (by decide) (by decide) (by decide) (by decide)
  · rename_i hr
    rw [hfile] at hr
    refine ⟨rfl, ?_⟩
    rw [← hfile]
    refine h.setFile (fun jp => by rw [hfile]; rfl) (fun hr' => ?_)
      (fun hw _ => by rw [← hfile]; exact hw)
    change (fs.mem.file f).ref + 1 ≤ 0 at hr'
    rw [hfile] at hr'
    omega

/-- fileclose() takes the inode of a file that nobody has open any more. -/
theorem filecloseEnter_spec (hok : Benign ok) (h : Inside p sb N t fs) :
    (Kern.filecloseEnter f).Ensures (Fs.run p) ok (fun r fs' => ∃ g, match r with
      | none => Inside p sb N (t.setFile f g) fs'
      | some ff => ff = t.file f ∧ g = { t.file f with ref := 0, type := .none } ∧
          if ff.type = .inode ∨ ff.type = .device then
            Inside p sb N ((t.setFile f g).take ff.ip (t.base ff.ip)) fs'
          else Inside p sb N (t.setFile f g) fs') fs := by
  unfold Kern.filecloseEnter
  rw [ensures_mem]
  have hfile := h.file
  dsimp only
  split
  · exact hok _ (by decide) (by decide) (by decide) (by decide)
  · rename_i hr
    split
    · rename_i hr'
      refine ⟨{ fs.mem.file f with ref := (fs.mem.file f).ref - 1 }, ?_⟩
      exact h.setFile (fun jp => by rw [hfile]; rfl)
        (fun hr'' => absurd hr'' (by change ¬ (fs.mem.file f).ref - 1 ≤ 0; omega))
        (fun hw _ => by rw [← hfile]; exact hw)
    · refine ⟨{ t.file f with ref := 0, type := .none }, by rw [hfile], rfl, ?_⟩
      rw [hfile]
      split
      · rename_i ht
        obtain ⟨ino, h⟩ := h
        have ho : (t.file f).opens (t.file f).ip = true := decide_eq_true ⟨ht, rfl⟩
        have hm := h.mem.closeFile (g := { t.file f with ref := 0, type := .none }) ho rfl
        rw [← hfile] at hm ⊢
        exact ⟨ino, h.setMem hm⟩
      · rename_i ht
        have hnew : ∀ jp, ({ t.file f with ref := 0, type := .none } : File).opens jp =
            (t.file f).opens jp := by
          intro jp
          simp [File.opens, ht]
        have := h.setFile (f := f) (g := { t.file f with ref := 0, type := .none }) hnew (fun _ => rfl)
          (fun hw _ => hw)
        rw [← hfile] at this ⊢
        exact this

theorem fileclose_spec (hok : Benign ok) (hsb : sb.Ok) (hc : t.Calm) (h : Inside p sb N t fs) :
    (Kern.fileclose f).Ensures (Fs.run p) ok (fun _ fs' => ∃ N' g,
      Relation.ReflTransGen Fades N N' ∧ Inside p sb N' (t.setFile f g) fs') fs := by
  unfold Kern.fileclose
  apply Free.Ensures.seq (filecloseEnter_spec hok h)
  rintro (_ | ff) fs₁ ⟨g, h₁⟩
  · exact ⟨N, g, .refl, h₁⟩
  · obtain ⟨-, -, h₁⟩ := h₁
    apply ensures_when
    · intro ht
      rw [if_pos ht] at h₁
      rw [Free.ensures_bind]
      apply ensures_beginOp
      intro st hs
      apply Free.Ensures.seq (iput_frees hok hsb (h₁.same hs) ((hc.setFile f g).unlocked ff.ip))
      rintro - fs₂ ⟨N', hN, -, h₂⟩
      apply ensures_endOp
      intro st₂ hs₂
      exact ⟨N', g, hN.fades, h₂.same hs₂⟩
    · intro ht
      rw [if_neg ht] at h₁
      exact ⟨N, g, .refl, h₁⟩

/-- Closing a file that was never used gives its entry back. -/
theorem fileclose_unused
    (h : Inside p sb N (t.setFile f { t.file f with ref := 1 }) fs) (hr : (t.file f).ref = 0)
    (ht : (t.file f).type = .none) :
    (Kern.fileclose f).Ensures (Fs.run p) ok (fun _ fs' => Inside p sb N t fs') fs := by
  have hff : fs.mem.file f = { t.file f with ref := 1 } := by
    rw [h.file]
    exact setAt_same _ _ _
  have hback : ({ t.file f with ref := 0, type := .none } : File) = t.file f := by
    rw [← hr, ← ht]
  have hno : ∀ jp, (t.file f).opens jp = false := by
    intro jp
    simp [File.opens, ht]
  have h' : Inside p sb N t
      { fs with mem := { fs.mem with file := setAt fs.mem.file f (t.file f) } } := by
    have := h.setFile (f := f) (g := t.file f) (fun jp => by rw [hno]; simp [Holders.setFile, File.opens, ht])
      (fun _ => ht) (fun _ hj => absurd hj.choose_spec (by rw [hno]; decide))
    simpa [Holders.setFile] using this
  unfold Kern.fileclose Kern.filecloseEnter
  rw [Free.ensures_bind, ensures_mem]
  dsimp only
  rw [hff, if_neg (show ¬ (1 : Int) < 1 by decide), if_neg (show ¬ (1 : Int) - 1 > 0 by decide),
    Out.sat_ok]
  apply ensures_when
  · intro hc
    dsimp only at hc
    rw [ht] at hc
    exact absurd hc (by decide)
  · intro _
    change Inside p sb N t { fs with mem := { fs.mem with
      file := setAt fs.mem.file f { fs.mem.file f with ref := 0, type := .none } } }
    rw [hff]
    rw [← hback] at h'
    exact h'

/- Descriptors. -/

theorem argfd_spec {Q : Option (Fd × FilePtr) → Fs → Prop} {fd : Int} (hq : ∀ r, Q r fs) :
    (Kern.argfd fd).Ensures (Fs.run p) ok Q fs := by
  unfold Kern.argfd
  rw [ensures_mem]
  split
  · exact hq _
  · exact hq _

/-- A change of the calling process that keeps its working directory. -/
theorem Inside.setProc (h : Inside p sb N t fs) (hm : t.moving = false) (q : ProcId)
    (pr : Option Proc) (ho : pr.bind Proc.cwd = (t.proc q).bind Proc.cwd) :
    Inside p sb N (t.setProc q pr) { fs with mem := { fs.mem with proc := setAt fs.mem.proc q pr } } := by
  obtain ⟨ino, h⟩ := h
  exact ⟨ino, h.setMem (h.mem.setProc hm (fun jp => by unfold cwdIs; rw [ho]))⟩

theorem setOfile_spec (h : Inside p sb N t fs) (hm : t.moving = false) (fd : Fd)
    (f : Option FilePtr) :
    (Kern.setOfile fd f).Ensures (Fs.run p) ok (fun _ fs' => ∃ pr,
      Inside p sb N (t.setProc p pr) fs') fs := by
  unfold Kern.setOfile
  rw [ensures_mem]
  refine ⟨_, h.setProc hm p _ ?_⟩
  rw [h.proc hm]
  cases t.proc p <;> rfl

/-- fdalloc() has put the file in the descriptor it answers with. -/
theorem fdalloc_opens (h : Inside p sb N t fs) (hm : t.moving = false) (f : FilePtr) :
    (Kern.fdalloc f).Ensures (Fs.run p) ok (fun r fs' => match r with
      | none => Inside p sb N t fs'
      | some fd => ∃ pr, pr.bind (fun pr => pr.ofile fd) = some f ∧ Inside p sb N (t.setProc p pr) fs') fs := by
  unfold Kern.fdalloc
  rw [ensures_mem]
  split
  · exact h
  · rename_i pr hpr
    split
    · refine ⟨_, ?_, h.setProc hm p _ ?_⟩
      · rw [hpr]
        exact setAt_same _ _ _
      · rw [h.proc hm]
        cases t.proc p <;> rfl
    · exact h

theorem fdalloc_spec (h : Inside p sb N t fs) (hm : t.moving = false) (f : FilePtr) :
    (Kern.fdalloc f).Ensures (Fs.run p) ok (fun r fs' => match r with
      | none => Inside p sb N t fs'
      | some _ => ∃ pr, Inside p sb N (t.setProc p pr) fs') fs := by
  refine (fdalloc_opens h hm f).mono ?_
  rintro (_ | fd) fs' h'
  · exact h'
  · obtain ⟨pr, -, h'⟩ := h'
    exact ⟨pr, h'⟩

/- Reading and writing. -/

theorem Inside.opened (h : Inside p sb N t fs) (ho : (t.file f).opens ip = true) :
    t.Names ip (t.base ip) ∧ (N (t.base ip)).type ≠ 0 ∧
      ((t.file f).writable = true → (N (t.base ip)).type ≠ T_DIR) := by
  obtain ⟨ino, h⟩ := h
  have hh : 0 < t.held ip := held_pos.mpr (.inl ⟨f, ho⟩)
  rw [h.type_eq]
  exact ⟨.inr (.inr ⟨hh, rfl⟩), h.mem.live ip hh, h.mem.writable f ip ho⟩

theorem Inside.data_dir (h : Inside p sb N t fs) (hd : (N i).type = T_DIR) :
    (N i).data = fun _ => 0 := by
  obtain ⟨ino, h⟩ := h
  rw [h.type_eq] at hd
  rw [h.node i, node_live (by rw [hd]; decide)]
  simp [hd]

theorem Inside.entry_file (h : Inside p sb N t fs) (hd : (N i).type ≠ T_DIR) :
    (N i).entry = fun _ => .empty := by
  obtain ⟨ino, h⟩ := h
  rw [h.type_eq] at hd
  rw [h.node i]
  by_cases hz : (ino i).type = 0
  · rw [node_free hz]
    rfl
  · rw [node_live hz]
    simp [hd]

theorem Rewritten.fades {N' : Nat → Node} {t' : Holders} {fs' : Fs} (hr : Rewritten N N' i)
    (h : Inside p sb N t fs) (h' : Inside p sb N' t' fs') (ht : (N i).type ≠ 0) :
    Relation.ReflTransGen Fades N N' := by
  by_cases hd : (N i).type = T_DIR
  · have h₁ := h.data_dir hd
    have h₂ := h'.data_dir (by rw [hr.type]; exact hd)
    obtain ⟨f, rfl⟩ := hr
    rw [setAt_same] at h₂
    change f = _ at h₂
    rw [h₂, ← h₁, setAt_self]
  · obtain ⟨f, rfl⟩ := hr
    exact .single (.write ht hd (N i).size f)

/-- The offset of an open file moves. -/
theorem setOff_spec (h : Inside p sb N t fs) (f : FilePtr) (g : Nat → Nat) :
    (Kern.setFile f (fun f => { f with off := g f.off })).Ensures (Fs.run p) ok (fun _ fs' =>
      Inside p sb N (t.setFile f { t.file f with off := g (t.file f).off }) fs') fs := by
  unfold Kern.setFile
  rw [ensures_update, ← h.file]
  exact h.setFile (fun jp => by rw [h.file]; rfl)
    (fun hr => by rw [h.file] at hr; exact h.file ▸ h.closed hr) (fun hw _ => by rw [← h.file]; exact hw)

theorem filestat_spec (hok : Benign ok) (hsb : sb.Ok) (hi : t.Idle) (h : Inside p sb N t fs)
    (f : FilePtr) (copied : Bool) :
    (Kern.filestat f copied).Ensures (Fs.run p) ok (fun _ fs' => Quiet p sb N fs') fs := by
  unfold Kern.filestat Kern.fileOf
  rw [Free.ensures_bind, ensures_get, h.file]
  apply ensures_ite
  · intro ht
    obtain ⟨hn, hlive, -⟩ := h.opened (decide_eq_true ⟨ht, rfl⟩)
    apply Free.Ensures.seq (ilock_spec hok hsb h hn (.inr hlive))
    rintro - fs₁ ⟨h₁, -⟩
    apply Free.Ensures.seq (iunlock_spec hok h₁)
    exact fun _ fs₂ h₂ => h₂.quiet hi
  · exact fun _ => h.quiet hi

theorem fileread_spec (hok : Benign ok) (hsb : sb.Ok) (hi : t.Idle) (h : Inside p sb N t fs)
    (f : FilePtr) (dst : Dst) (n other : Int) :
    (Kern.fileread f dst n other).Ensures (Fs.run p) ok (fun _ fs' => Quiet p sb N fs') fs := by
  unfold Kern.fileread
  rw [Free.ensures_bind, Kern.fileOf, ensures_get, h.file]
  apply ensures_ite
  · exact fun _ => h.quiet hi
  · intro _
    split
    · exact h.quiet hi
    · exact h.quiet hi
    · rename_i ht
      obtain ⟨hn, hlive, -⟩ := h.opened (decide_eq_true ⟨.inl ht, rfl⟩)
      apply Free.Ensures.seq (ilock_spec hok hsb h hn (.inr hlive))
      rintro - fs₁ ⟨h₁, -⟩
      rw [Free.ensures_bind, ensures_get]
      have hff : fs₁.mem.file f = t.file f := by rw [h₁.file]; rfl
      rw [hff]
      apply Free.Ensures.seq (readi_spec hsb h₁ List.mem_cons_self dst _ _)
      rintro ⟨r, bs⟩ fs₂ ⟨N', hN, h₂⟩
      have hfade := hN.fades h₁ h₂ hlive
      rw [Free.ensures_bind]
      apply ensures_when
      · intro _
        refine (setOff_spec h₂ f (fun o => (o + toUint r) % 2 ^ 32)).mono (fun _ fs₃ h₃ => ?_)
        apply Free.Ensures.seq (iunlock_spec (t := t.setFile f _) hok h₃)
        exact fun _ fs₄ h₄ => (h₄.quiet (hi.setFile f _)).trans hfade
      · intro _
        apply Free.Ensures.seq (iunlock_spec hok h₂)
        exact fun _ fs₄ h₄ => (h₄.quiet hi).trans hfade
    · exact hok _ (by decide) (by decide) (by decide) (by decide)

theorem filewriteLoop_spec (hok : Benign ok) (hsb : sb.Ok) (hi : t.Idle) (h : Inside p sb N t fs)
    (ho : (t.file f).opens ip = true) (hw : (t.file f).writable = true) (um : UserMem) (addr : Nat)
    (n : Int) (fuel : Nat) (k : Int) :
    (Kern.filewriteLoop f ip um addr n fuel k).Ensures (Fs.run p) ok
      (fun _ fs' => Quiet p sb N fs') fs := by
  induction fuel generalizing N t fs k with
  | zero => exact h.quiet hi
  | succ fuel ih =>
    unfold Kern.filewriteLoop
    apply ensures_ite
    · intro _
      dsimp only
      rw [Free.ensures_bind]
      apply ensures_beginOp
      intro st₀ hs₀
      have h₀ := h.same hs₀
      obtain ⟨hn, hlive, hdir⟩ := h₀.opened ho
      apply Free.Ensures.seq (ilock_spec hok hsb h₀ hn (.inr hlive))
      rintro - fs₁ ⟨h₁, -⟩
      unfold Kern.fileOf
      rw [Free.ensures_bind, ensures_get]
      apply Free.Ensures.seq (writei_file_spec hok hsb h₁ List.mem_cons_self (hdir hw) _ _ _)
      rintro r fs₂ ⟨sz, d, h₂⟩
      have hfade : Relation.ReflTransGen Fades N
          (setAt N (t.base ip) { N (t.base ip) with size := sz, data := d }) :=
        .single (.write hlive (hdir hw) sz d)
      have hend : ∀ (t' : Holders) fs₃, t'.Idle → (t'.file f).opens ip = true →
          (t'.file f).writable = true →
          Inside p sb (setAt N (t.base ip) { N (t.base ip) with size := sz, data := d })
            (t'.lock ip (t.base ip)) fs₃ →
          (do
            Kern.iunlock ip
            Kern.endOp
            if r ≠ (if n - k > Kern.maxWrite then Kern.maxWrite else n - k) then return k
            else Kern.filewriteLoop f ip um addr n fuel (k + r) : KernM Int).Ensures (Fs.run p) ok
              (fun _ fs' => Quiet p sb N fs') fs₃ := by
        intro t' fs₃ hi' ho' hw' h₃
        apply Free.Ensures.seq (iunlock_spec hok h₃)
        intro _ fs₄ h₄
        rw [Free.ensures_bind]
        apply ensures_endOp
        intro st₅ hs₅
        apply ensures_ite
        · exact fun _ => ((h₄.same hs₅).quiet hi').trans hfade
        · exact fun _ => (ih hi' (h₄.same hs₅) ho' hw' _).mono (fun _ _ hq => hq.trans hfade)
      rw [Free.ensures_bind]
      apply ensures_when
      · intro _
        refine (setOff_spec h₂ f (fun o => (o + toUint r) % 2 ^ 32)).mono (fun _ fs₃ h₃ => ?_)
        refine hend (t.setFile f _) fs₃ (hi.setFile f _) ?_ ?_ h₃
        · rw [Holders.file_setFile]
          exact ho
        · rw [Holders.file_setFile]
          exact hw
      · exact fun _ => hend t fs₂ hi ho hw h₂
    · exact fun _ => h.quiet hi

theorem filewrite_spec (hok : Benign ok) (hsb : sb.Ok) (hi : t.Idle) (h : Inside p sb N t fs)
    (f : FilePtr) (um : UserMem) (addr : Nat) (n other : Int) :
    (Kern.filewrite f um addr n other).Ensures (Fs.run p) ok (fun _ fs' => Quiet p sb N fs') fs := by
  unfold Kern.filewrite
  rw [Free.ensures_bind, Kern.fileOf, ensures_get, h.file]
  apply ensures_ite
  · exact fun _ => h.quiet hi
  · intro hw
    split
    · exact h.quiet hi
    · exact h.quiet hi
    · rename_i ht
      apply Free.Ensures.seq (filewriteLoop_spec hok hsb hi h (decide_eq_true ⟨.inl ht, rfl⟩)
        (by simpa using hw) um addr n _ 0)
      exact fun _ _ hq => hq
    · exact hok _ (by decide) (by decide) (by decide) (by decide)

end Xv6
