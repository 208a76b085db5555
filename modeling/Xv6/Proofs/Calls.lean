import Xv6.Proofs.Opening

namespace Xv6
variable {p : ProcId} {ok : Panic → Prop} {sb : Superblock} {N : Nat → Node} {t : Holders}
  {fs : Fs} {ip : InodePtr} {i : Nat}

/- Working directories. -/

/-- iput() of the working directory: it may be freed, unless the call still refers to it. -/
theorem iputCwd_spec (hok : Benign ok) (hsb : sb.Ok) (hc : t.Calm) (h : Inside p sb N t fs) :
    Kern.iputCwd.Ensures (Fs.run p) ok (fun _ fs' => ∃ pr N' j, t.proc p = some pr ∧
      (Frees j N N' ∧ ∀ jp k, (jp, k) ∈ t.refs → N' k = N k) ∧
      Inside p sb N' { t.setProc p (some pr.leave) with moving := true } fs') fs := by
  unfold Kern.iputCwd
  rw [Free.ensures_bind, ensures_mem, h.proc hc.moving, Out.sat_ok]
  cases hp : t.proc p with
  | none => exact hok _ (by decide) (by decide) (by decide) (by decide)
  | some pr =>
    cases hcwd : pr.cwd with
    | none =>
      rw [Option.bind_some, hcwd]
      exact hok _ (by decide) (by decide) (by decide) (by decide)
    | some ip =>
      rw [Option.bind_some, hcwd]
      obtain ⟨ino, h⟩ := h
      have h' : Inside p sb N
          ({ t.setProc p (some pr.leave) with moving := true }.take ip (t.base ip)) fs :=
        ⟨ino, h.disk, h.mem.leave hc.moving hp hcwd, h.node, h.sane⟩
      refine (iput_spec hok hsb h' (fun hl => absurd hl (hc.unlocked ip))).mono ?_
      rintro - fs' (h₁ | ⟨ht, hn, hno, h₁⟩)
      · exact ⟨pr, N, 0, rfl, ⟨.inl rfl, fun _ _ _ => rfl⟩, h₁⟩
      · refine ⟨pr, _, t.base ip, rfl, ⟨.inr ⟨ht, hn, rfl⟩, fun jp k hk => ?_⟩, h₁⟩
        refine setAt_other _ _ _ (fun he => hno jp (.inl ?_))
        exact he ▸ hk

theorem map_leave {pr : Proc} {x : Option Proc} (h : x.map Proc.leave = some pr.leave)
    (c : Option InodePtr) : x.map (fun pr => { pr with cwd := c }) = some { pr with cwd := c } := by
  cases x with
  | none => cases h
  | some pr' =>
    have h : pr'.leave = pr.leave := Option.some.inj h
    have hf := congrArg Proc.ofile h
    have : pr'.ofile = pr.ofile := hf
    simp [this]

/-- The new working directory takes the place of the old one. -/
theorem setCwd_spec {pr : Proc} (h : Inside p sb N (t.take ip i) fs) (ht : (N i).type ≠ 0)
    (hp : t.proc p = some pr.leave) (hm : t.moving = true) (hc : t.locked = [] ∧ t.fresh = []) :
    (Kern.setCwd (some ip)).Ensures (Fs.run p) ok (fun _ fs' => ∃ t', t'.Calm ∧ t'.refs = t.refs ∧
      Inside p sb N t' fs') fs := by
  obtain ⟨ino, h⟩ := h
  rw [h.type_eq] at ht
  have hproc := h.mem.proc
  rw [show (t.take ip i).moving = true from hm, if_pos rfl] at hproc
  have hpp : (fs.mem.proc p).map Proc.leave = some pr.leave := by
    rw [← hp]
    exact (congrFun hproc p).trans (setAt_same _ _ _) |>.symm
  unfold Kern.setCwd
  rw [ensures_mem, Out.sat_ok]
  refine ⟨{ (t.setProc p (some { pr with cwd := some ip })).setBase ip i with moving := false },
    ⟨hc.1, hc.2, rfl⟩, rfl, ino, h.setMem (h.mem.giveProc ht p { pr with cwd := some ip }
    (fs.mem.setProc p (fun pr => { pr with cwd := some ip })) false (by rw [hp]; rfl) rfl
    ⟨rfl, rfl, rfl⟩ ?_)⟩
  rw [if_neg (by decide), Mem.setProc, map_leave hpp]
  change setAt (t.take ip i).proc p _ = _
  rw [hproc, setAt_setAt]

/-- The process stays without a working directory. -/
theorem setCwd_none (h : Inside p sb N t fs) (hm : t.moving = true) :
    (Kern.setCwd none).Ensures (Fs.run p) ok (fun _ fs' =>
      Inside p sb N { t with moving := false } fs') fs := by
  obtain ⟨ino, h⟩ := h
  unfold Kern.setCwd
  rw [ensures_mem, Out.sat_ok]
  have hproc := h.mem.proc
  rw [hm, if_pos rfl] at hproc
  refine ⟨ino, h.setMem (h.mem.retable ⟨rfl, rfl, h.mem.file, ?_,
    agree_of_held (fun _ => rfl) rfl rfl rfl, rfl, rfl⟩ h.mem.live h.mem.closed h.mem.writable)⟩
  rw [if_neg (show ¬ false = true by decide), hproc]
  rfl

/-- What chdir() has done. -/
theorem sysChdir_spec (hok : Benign ok) (hsb : sb.Ok) (hs : ok .ilockNoType ∨ Sound N) (hi : t.Idle)
    (h : Inside p sb N t fs) (path : StrArg) :
    (Kern.sysChdir path).Ensures (Fs.run p) ok (fun r fs' =>
      (r = -1 ∧ Inside p sb N t fs') ∨ (r = 0 ∧ Quiet p sb N fs')) fs := by
  have hk : ∀ j, Kept N t j := fun j => h.kept (by rw [hi.fresh]; simp)
  unfold Kern.sysChdir
  rw [Free.ensures_bind]
  apply ensures_beginOp
  intro st₀ hs₀
  have h₀ := h.same hs₀
  split
  · exact (finish_spec h₀ (-1)).mono (fun _ _ h' => .inl h')
  · rename_i path
    apply Free.Ensures.seq (namei_spec hok hsb hs h₀ hi.toCalm path)
    rintro (_ | ip) fs₁ h₁
    · exact (finish_spec h₁.2 (-1)).mono (fun _ _ h' => .inl h')
    · obtain ⟨i, -, ht, h₁⟩ := h₁
      have hn : (t.take ip i).Names ip i := t.names_take.mpr (.inl ⟨rfl, rfl⟩)
      apply Free.Ensures.seq (ilock_spec hok hsb h₁ hn ht)
      rintro - fs₂ ⟨h₂, -⟩
      have hr := h₂.reads List.mem_cons_self
      unfold Kern.inodeOf
      rw [Free.ensures_bind, ensures_get, hr.type]
      apply ensures_ite
      · intro _
        apply Free.Ensures.seq (iunlockput_kept hok hsb h₂ (hi.unlocked ip) (hk i))
        exact fun _ fs₃ h₃ => (finish_spec h₃ (-1)).mono (fun _ _ h' => .inl h')
      · intro hd
        have hd := Decidable.of_not_not hd
        apply Free.Ensures.seq (iunlock_spec hok h₂)
        intro _ fs₃ h₃
        apply Free.Ensures.seq (iputCwd_spec hok hsb (hi.toCalm.take ip i) h₃)
        rintro - fs₄ ⟨pr, N', j, -, ⟨hf, hkeep⟩, h₄⟩
        have hlive : (N' i).type ≠ 0 := by
          rw [hkeep ip i List.mem_cons_self, hd]
          decide
        rw [Free.ensures_bind]
        apply ensures_endOp
        intro st₅ hs₅
        refine Free.Ensures.seq (setCwd_spec
          (t := { t.setProc p (some pr.leave) with moving := true }) (h₄.same hs₅) hlive
          (setAt_same _ _ _) rfl ⟨hi.locked, hi.fresh⟩) ?_
        rintro - fs₆ ⟨t', hc', hr', h₆⟩
        exact .inr ⟨rfl, N', t', hf.fades, ⟨hc', hr'.trans hi.refs⟩, h₆⟩

/- Descriptors. -/

theorem sysDup_spec (hok : Benign ok) (hi : t.Idle) (h : Inside p sb N t fs) (fd : Int) :
    (Kern.sysDup fd).Ensures (Fs.run p) ok (fun _ fs' => Quiet p sb N fs') fs := by
  unfold Kern.sysDup
  rw [Free.ensures_bind]
  apply argfd_spec
  rintro (_ | ⟨-, f⟩)
  · exact h.quiet hi
  · apply Free.Ensures.seq (fdalloc_spec h hi.moving f)
    rintro (_ | fd') fs₁ h₁
    · exact h₁.quiet hi
    · obtain ⟨pr, h₁⟩ := h₁
      apply Free.Ensures.seq (filedup_spec hok h₁)
      rintro - fs₂ ⟨-, h₂⟩
      exact h₂.quiet ((hi.setProc p pr).setFile f _)

theorem sysRead_spec (hok : Benign ok) (hsb : sb.Ok) (hi : t.Idle) (h : Inside p sb N t fs)
    (fd : Int) (dst : Dst) (n other : Int) :
    (Kern.sysRead fd dst n other).Ensures (Fs.run p) ok (fun _ fs' => Quiet p sb N fs') fs := by
  unfold Kern.sysRead
  rw [Free.ensures_bind]
  apply argfd_spec
  rintro (_ | ⟨-, f⟩)
  · exact h.quiet hi
  · exact fileread_spec hok hsb hi h f dst n other

theorem sysWrite_spec (hok : Benign ok) (hsb : sb.Ok) (hi : t.Idle) (h : Inside p sb N t fs)
    (fd : Int) (um : UserMem) (addr : Nat) (n other : Int) :
    (Kern.sysWrite fd um addr n other).Ensures (Fs.run p) ok (fun _ fs' => Quiet p sb N fs') fs := by
  unfold Kern.sysWrite
  rw [Free.ensures_bind]
  apply argfd_spec
  rintro (_ | ⟨-, f⟩)
  · exact h.quiet hi
  · exact filewrite_spec hok hsb hi h f um addr n other

theorem sysFstat_spec (hok : Benign ok) (hsb : sb.Ok) (hi : t.Idle) (h : Inside p sb N t fs)
    (fd : Int) (copied : Bool) :
    (Kern.sysFstat fd copied).Ensures (Fs.run p) ok (fun _ fs' => Quiet p sb N fs') fs := by
  unfold Kern.sysFstat
  rw [Free.ensures_bind]
  apply argfd_spec
  rintro (_ | ⟨-, f⟩)
  · exact h.quiet hi
  · exact filestat_spec hok hsb hi h f copied

/-- fileclose() between two states without references. -/
theorem fileclose_quiet (hok : Benign ok) (hsb : sb.Ok) (hi : t.Idle) (h : Inside p sb N t fs)
    (f : FilePtr) :
    (Kern.fileclose f).Ensures (Fs.run p) ok (fun _ fs' => Quiet p sb N fs') fs := by
  refine (fileclose_spec hok hsb hi.toCalm h).mono ?_
  rintro - fs' ⟨N', g, hN, h'⟩
  exact ⟨N', _, hN, hi.setFile f g, h'⟩

theorem setOfile_quiet (hi : t.Idle) (h : Inside p sb N t fs) (fd : Fd) (f : Option FilePtr) :
    (Kern.setOfile fd f).Ensures (Fs.run p) ok (fun _ fs' => ∃ t', t'.Idle ∧
      Inside p sb N t' fs') fs := by
  refine (setOfile_spec h hi.moving fd f).mono ?_
  rintro - fs' ⟨pr, h'⟩
  exact ⟨_, hi.setProc p pr, h'⟩

theorem sysClose_spec (hok : Benign ok) (hsb : sb.Ok) (hi : t.Idle) (h : Inside p sb N t fs)
    (fd : Int) : (Kern.sysClose fd).Ensures (Fs.run p) ok (fun _ fs' => Quiet p sb N fs') fs := by
  unfold Kern.sysClose
  rw [Free.ensures_bind]
  apply argfd_spec
  rintro (_ | ⟨fd, f⟩)
  · exact h.quiet hi
  · apply Free.Ensures.seq (setOfile_quiet hi h fd none)
    rintro - fs₁ ⟨t', hi', h₁⟩
    apply Free.Ensures.seq (fileclose_quiet hok hsb hi' h₁ f)
    exact fun _ _ hq => hq

theorem sysLseek_spec (hi : t.Idle) (h : Inside p sb N t fs) (fd offset whence : Int) :
    (Kern.sysLseek fd offset whence).Ensures (Fs.run p) ok (fun _ fs' => Quiet p sb N fs') fs := by
  unfold Kern.sysLseek
  rw [Free.ensures_bind]
  apply argfd_spec
  rintro (_ | ⟨-, f⟩)
  · exact h.quiet hi
  · unfold Kern.fileOf Kern.inodeOf
    rw [Free.ensures_bind, ensures_get]
    apply ensures_ite
    · exact fun _ => h.quiet hi
    · intro _
      rw [Free.ensures_bind, ensures_get]
      dsimp only
      generalize (if whence = 0 then some (0 : Int) else if whence = 1 then _ else _) = base
      cases base with
      | none => exact h.quiet hi
      | some base =>
        apply Free.Ensures.seq (setOff_spec h f (fun _ => toUint (base + offset)))
        exact fun _ _ h₁ => h₁.quiet (hi.setFile f _)

theorem Quiet.seq {α β : Type} {m : KernM α} {f : α → KernM β}
    (hm : m.Ensures (Fs.run p) ok (fun _ fs' => Quiet p sb N fs') fs)
    (hf : ∀ a N' t' fs', t'.Idle → Inside p sb N' t' fs' →
      (f a).Ensures (Fs.run p) ok (fun _ fs'' => Quiet p sb N' fs'') fs') :
    (m >>= f).Ensures (Fs.run p) ok (fun _ fs' => Quiet p sb N fs') fs := by
  apply Free.Ensures.seq hm
  rintro a fs₁ ⟨N₁, t₁, hN, hi, h₁⟩
  exact (hf a N₁ t₁ fs₁ hi h₁).mono (fun _ _ hq => hq.trans hN)

/- exec(). -/

theorem execReads_spec (hsb : sb.Ok) (h : Inside p sb N t fs) (hl : (ip, i) ∈ t.locked)
    (reads : List (Nat × Nat)) :
    (Kern.execReads ip reads).Ensures (Fs.run p) ok (fun _ fs' => ∃ N', Rewritten N N' i ∧
      Inside p sb N' t fs') fs := by
  induction reads generalizing N fs with
  | nil => exact ⟨N, .refl N i, h⟩
  | cons r rest ih =>
    unfold Kern.execReads
    apply Free.Ensures.seq (readi_spec hsb h hl .kernel _ _)
    rintro - fs₁ ⟨N₁, hN₁, h₁⟩
    refine (ih h₁).mono ?_
    rintro - fs₂ ⟨N₂, hN₂, h₂⟩
    exact ⟨N₂, hN₁.trans hN₂, h₂⟩

theorem Rewritten.kept {N' : Nat → Node} (h : Rewritten N N' i) (hk : Kept N t i) : Kept N' t i := by
  obtain ⟨f, rfl⟩ := h
  exact hk.congr (by rw [setAt_same]) (by rw [setAt_same])

theorem sysExec_spec (hok : Benign ok) (hsb : sb.Ok) (hs : ok .ilockNoType ∨ Sound N) (hi : t.Idle)
    (h : Inside p sb N t fs) (path : StrArg) (reads : List (Nat × Nat)) (result : Int) :
    (Kern.sysExec path reads result).Ensures (Fs.run p) ok (fun _ fs' => Quiet p sb N fs') fs := by
  have hk : ∀ j, Kept N t j := fun j => h.kept (by rw [hi.fresh]; simp)
  unfold Kern.sysExec
  split
  · exact h.quiet hi
  · rename_i path
    rw [Free.ensures_bind]
    apply ensures_beginOp
    intro st₀ hs₀
    apply Free.Ensures.seq (namei_spec hok hsb hs (h.same hs₀) hi.toCalm path)
    rintro (_ | ip) fs₁ h₁
    · exact (finish_spec h₁.2 (-1)).mono (fun _ _ h' => h'.2.quiet hi)
    · obtain ⟨i, -, ht, h₁⟩ := h₁
      have hn : (t.take ip i).Names ip i := t.names_take.mpr (.inl ⟨rfl, rfl⟩)
      apply Free.Ensures.seq (ilock_spec hok hsb h₁ hn ht)
      rintro - fs₂ ⟨h₂, -⟩
      have hlive := h₂.live List.mem_cons_self
      apply Free.Ensures.seq (execReads_spec hsb h₂ List.mem_cons_self reads)
      rintro - fs₃ ⟨N', hN, h₃⟩
      apply Free.Ensures.seq (iunlockput_kept hok hsb h₃ (hi.unlocked ip) (hN.kept (hk i)))
      intro _ fs₄ h₄
      refine (finish_spec h₄ result).mono ?_
      rintro - fs' ⟨-, h'⟩
      exact (h'.quiet hi).trans (hN.fades h₂ h₃ hlive)

/- pipe(). -/

theorem setPipe_spec (h : Inside p sb N t fs) {f : FilePtr} (ht : (t.file f).type = .none)
    (hr : 0 < (t.file f).ref) (r w : Bool) :
    (Kern.setFile f (fun f => { f with type := .pipe, readable := r, writable := w })).Ensures
      (Fs.run p) ok (fun _ fs' => ∃ g, Inside p sb N (t.setFile f g) fs') fs := by
  have hfile := h.file
  have hno : ∀ (g : File) jp, g.type = .none ∨ g.type = .pipe → g.opens jp = false := by
    intro g jp hg
    rcases hg with hg | hg <;> simp [File.opens, hg]
  unfold Kern.setFile
  rw [ensures_update]
  refine ⟨{ fs.mem.file f with type := .pipe, readable := r, writable := w },
    h.setFile (fun jp => ?_) (fun hr' => ?_) (fun _ hg => ?_)⟩
  · rw [hno _ jp (.inr rfl), hno _ jp (.inl ht)]
  · change (fs.mem.file f).ref ≤ 0 at hr'
    rw [hfile] at hr'
    omega
  · obtain ⟨jp, hj⟩ := hg
    rw [hno _ jp (.inr rfl)] at hj
    cases hj

theorem pipealloc_spec (hok : Benign ok) (hsb : sb.Ok) (hi : t.Idle) (h : Inside p sb N t fs)
    (page : Bool) :
    (Kern.pipealloc page).Ensures (Fs.run p) ok (fun _ fs' => Quiet p sb N fs') fs := by
  unfold Kern.pipealloc
  apply Free.Ensures.seq (filealloc_spec h)
  rintro (_ | f0) fs₁ h₁
  · exact h₁.quiet hi
  · obtain ⟨-, hnone₀, h₁⟩ := h₁
    have hf0 := t.file_setFile f0 { t.file f0 with ref := 1 }
    have hi₁ := hi.setFile f0 { t.file f0 with ref := 1 }
    generalize t.setFile f0 { t.file f0 with ref := 1 } = t₁ at *
    apply Free.Ensures.seq (filealloc_spec h₁)
    rintro (_ | f1) fs₂ h₂
    · apply Free.Ensures.seq (fileclose_quiet hok hsb hi₁ h₂ f0)
      exact fun _ _ hq => hq
    · obtain ⟨href, hnone₁, h₂⟩ := h₂
      have hne : f0 ≠ f1 := by
        rintro rfl
        rw [hf0] at href
        cases href
      have hf0' := (t₁.file_setFile_other { t₁.file f1 with ref := 1 } hne).trans hf0
      have hf1 := t₁.file_setFile f1 { t₁.file f1 with ref := 1 }
      have hi₂ := hi₁.setFile f1 { t₁.file f1 with ref := 1 }
      generalize t₁.setFile f1 { t₁.file f1 with ref := 1 } = t₂ at *
      apply ensures_ite
      · intro _
        refine Free.Ensures.seq (setPipe_spec h₂ (by rw [hf0']; exact hnone₀)
          (by rw [hf0']; exact Int.one_pos) true false) ?_
        rintro - fs₃ ⟨g, h₃⟩
        have hf1' := (t₂.file_setFile_other g hne.symm).trans hf1
        refine Free.Ensures.seq (setPipe_spec h₃ (by rw [hf1']; exact hnone₁)
          (by rw [hf1']; exact Int.one_pos) false true) ?_
        rintro - fs₄ ⟨g', h₄⟩
        exact h₄.quiet ((hi₂.setFile f0 g).setFile f1 g')
      · intro _
        apply Quiet.seq (fileclose_quiet hok hsb hi₂ h₂ f0)
        intro _ N₃ t₃ fs₃ hi₃ h₃
        apply Quiet.seq (fileclose_quiet hok hsb hi₃ h₃ f1)
        exact fun _ N₄ t₄ fs₄ hi₄ h₄ => h₄.quiet hi₄

theorem fdalloc_quiet (hi : t.Idle) (h : Inside p sb N t fs) (f : FilePtr) :
    (Kern.fdalloc f).Ensures (Fs.run p) ok (fun _ fs' => Quiet p sb N fs') fs := by
  refine (fdalloc_spec h hi.moving f).mono ?_
  rintro (_ | fd) fs' h'
  · exact h'.quiet hi
  · obtain ⟨pr, h'⟩ := h'
    exact h'.quiet (hi.setProc p pr)

theorem closeBoth_spec (hok : Benign ok) (hsb : sb.Ok) (hi : t.Idle) (h : Inside p sb N t fs)
    (f g : FilePtr) (r : Int) :
    (do
      Kern.fileclose f
      Kern.fileclose g
      return r : KernM Int).Ensures (Fs.run p) ok (fun _ fs' => Quiet p sb N fs') fs := by
  apply Quiet.seq (fileclose_quiet hok hsb hi h f)
  intro _ N₁ t₁ fs₁ hi₁ h₁
  apply Quiet.seq (fileclose_quiet hok hsb hi₁ h₁ g)
  exact fun _ N₂ t₂ fs₂ hi₂ h₂ => h₂.quiet hi₂

theorem sysPipe_spec (hok : Benign ok) (hsb : sb.Ok) (hi : t.Idle) (h : Inside p sb N t fs)
    (page copied : Bool) :
    (Kern.sysPipe page copied).Ensures (Fs.run p) ok (fun _ fs' => Quiet p sb N fs') fs := by
  unfold Kern.sysPipe
  apply Quiet.seq (pipealloc_spec hok hsb hi h page)
  rintro (_ | ⟨rf, wf⟩) N₁ t₁ fs₁ hi₁ h₁
  · exact h₁.quiet hi₁
  · apply Quiet.seq (fdalloc_quiet hi₁ h₁ rf)
    rintro (_ | fd0) N₂ t₂ fs₂ hi₂ h₂
    · exact closeBoth_spec hok hsb hi₂ h₂ rf wf (-1)
    · apply Quiet.seq (fdalloc_quiet hi₂ h₂ wf)
      rintro (_ | fd1) N₃ t₃ fs₃ hi₃ h₃
      · apply Free.Ensures.seq (setOfile_quiet hi₃ h₃ fd0 none)
        rintro - fs₄ ⟨t₄, hi₄, h₄⟩
        exact closeBoth_spec hok hsb hi₄ h₄ rf wf (-1)
      · apply ensures_ite
        · exact fun _ => h₃.quiet hi₃
        · intro _
          apply Free.Ensures.seq (setOfile_quiet hi₃ h₃ fd0 none)
          rintro - fs₄ ⟨t₄, hi₄, h₄⟩
          apply Free.Ensures.seq (setOfile_quiet hi₄ h₄ fd1 none)
          rintro - fs₅ ⟨t₅, hi₅, h₅⟩
          exact closeBoth_spec hok hsb hi₅ h₅ rf wf (-1)

/- fork(), exit() and wait(). -/

/-- The new process has no working directory yet. -/
def Young (p : ProcId) (sb : Superblock) (N : Nat → Node) (np : ProcId) (fs : Fs) : Prop :=
  ∃ t pr, t.Idle ∧ t.proc np = some pr ∧ pr.cwd = none ∧ Inside p sb N t fs

theorem allocproc_spec (hi : t.Idle) (h : Inside p sb N t fs) :
    Kern.allocproc.Ensures (Fs.run p) ok (fun r fs' => match r with
      | none => Inside p sb N t fs'
      | some np => t.proc np = none ∧ Young p sb N np fs') fs := by
  unfold Kern.allocproc
  rw [ensures_mem]
  have hproc := h.proc hi.moving
  split
  · rename_i np hf
    have hnone : fs.mem.proc np = none := by
      have := List.find?_some hf
      simpa using this
    rw [hproc] at hnone
    refine ⟨hnone, t.setProc np (some ⟨fun _ => none, none⟩), ⟨fun _ => none, none⟩,
      hi.setProc np _, by simp, rfl, ?_⟩
    exact h.setProc hi.moving np _ (by rw [hnone]; rfl)
  · exact h

theorem forkFile_spec (hok : Benign ok) {np : ProcId} (h : Young p sb N np fs) (fd : Nat) :
    (Kern.forkFile np fd).Ensures (Fs.run p) ok (fun _ fs' => Young p sb N np fs') fs := by
  unfold Kern.forkFile Kern.ofileOf
  rw [Free.ensures_bind]
  apply argfd_spec
  obtain ⟨t, pr, hi, hpr, hc, h⟩ := h
  rintro (_ | ⟨fd, f⟩)
  · exact ⟨t, pr, hi, hpr, hc, h⟩
  · apply Free.Ensures.seq (filedup_spec hok h)
    rintro f' fs₁ ⟨-, h₁⟩
    have hi₁ := hi.setFile f { t.file f with ref := (t.file f).ref + 1 }
    have hpr₁ : (t.setFile f { t.file f with ref := (t.file f).ref + 1 }).proc np = some pr := hpr
    generalize t.setFile f { t.file f with ref := (t.file f).ref + 1 } = t₁ at *
    let pr' : Proc := { pr with ofile := setAt pr.ofile fd (some f') }
    have h₂ := h₁.setProc hi₁.moving np (some pr') (by rw [hpr₁]; rfl)
    rw [ensures_update, Mem.setProc, show fs₁.mem.proc np = some pr by rw [h₁.proc hi₁.moving, hpr₁]]
    exact ⟨t₁.setProc np (some pr'), pr', hi₁.setProc np _, by simp, hc, h₂⟩

theorem fork_spec (hok : Benign ok) (hi : t.Idle) (h : Inside p sb N t fs) (copied : Bool) :
    (Kern.fork copied).Ensures (Fs.run p) ok (fun _ fs' => Quiet p sb N fs') fs := by
  unfold Kern.fork
  apply Free.Ensures.seq (allocproc_spec hi h)
  rintro (_ | np) fs₁ h₁
  · exact h₁.quiet hi
  · obtain ⟨-, hy⟩ := h₁
    apply ensures_ite
    · intro _
      rw [Free.ensures_bind]
      refine (Free.Ensures.forUp (fun _ fs => Young p sb N np fs)
        (fun k fs₂ _ _ h₂ => forkFile_spec hok h₂ k) hy).mono ?_
      rintro - fs₂ ⟨t, pr, hi, hpr, hc, h₂⟩
      rw [Free.ensures_bind, ensures_mem, Out.sat_ok, h₂.proc hi.moving]
      cases hcwd : (t.proc p).bind Proc.cwd with
      | none => exact hok _ (by decide) (by decide) (by decide) (by decide)
      | some ip =>
        obtain ⟨ino, h₂⟩ := h₂
        have hheld : 0 < t.held ip := held_pos.mpr (.inr ⟨p, decide_eq_true hcwd⟩)
        have hn : t.Names ip (t.base ip) := .inr (.inr ⟨hheld, rfl⟩)
        have hlive := h₂.mem.live ip hheld
        have h₃ := h₂.setMem (h₂.mem.take (h₂.mem.ref_pos hn) (h₂.mem.inum_eq hn))
        have hproc : fs₂.mem.proc = t.proc := by
          have := h₂.mem.proc
          rw [hi.moving, if_neg (by decide)] at this
          exact this.symm
        unfold Kern.idup Kern.setInode
        rw [Free.ensures_bind, Free.ensures_bind, ensures_update, Free.ensures_pure,
          Free.ensures_bind, ensures_update]
        refine ⟨N, { (t.setProc np (some { pr with cwd := some ip })).setBase ip (t.base ip) with
          moving := false }, .refl, ⟨⟨hi.locked, hi.fresh, rfl⟩, hi.refs⟩, ino, h₃.setMem
          (h₃.mem.giveProc hlive np { pr with cwd := some ip } _ false
            (by rw [hpr]; exact hc) rfl ⟨rfl, rfl, rfl⟩ ?_)⟩
        rw [if_neg (by decide), Mem.setProc]
        change _ = setAt fs₂.mem.proc np ((fs₂.mem.proc np).map _)
        rw [hproc, hpr]
        rfl
    · intro _
      obtain ⟨t, pr, hi, hpr, hc, h₁⟩ := hy
      rw [Free.ensures_bind, ensures_update]
      exact (h₁.setProc hi.moving np none (by rw [hpr]; exact hc.symm)).quiet (hi.setProc np none)

theorem exitFile_spec (hok : Benign ok) (hsb : sb.Ok) (h : Quiet p sb N fs) (fd : Nat) :
    (Kern.exitFile fd).Ensures (Fs.run p) ok (fun _ fs' => Quiet p sb N fs') fs := by
  unfold Kern.exitFile Kern.ofileOf
  rw [Free.ensures_bind]
  apply argfd_spec
  rintro (_ | ⟨fd, f⟩)
  · exact h
  · obtain ⟨N₁, t₁, hN, hi, h₁⟩ := h
    refine Free.Ensures.mono (Quiet.seq (fileclose_quiet hok hsb hi h₁ f) ?_) (fun _ _ hq => hq.trans hN)
    intro _ N₂ t₂ fs₂ hi₂ h₂
    refine (setOfile_quiet hi₂ h₂ fd none).mono ?_
    rintro - fs₃ ⟨t₃, hi₃, h₃⟩
    exact h₃.quiet hi₃

theorem exit_spec (hok : Benign ok) (hsb : sb.Ok) (hi : t.Idle) (h : Inside p sb N t fs) :
    Kern.exit.Ensures (Fs.run p) ok (fun _ fs' => Quiet p sb N fs') fs := by
  unfold Kern.exit
  rw [Free.ensures_bind, ensures_mem, Out.sat_ok]
  apply ensures_ite
  · exact fun _ => hok _ (by decide) (by decide) (by decide) (by decide)
  · intro _
    rw [Free.ensures_bind]
    refine (Free.Ensures.forUp (fun _ fs => Quiet p sb N fs)
      (fun k fs₁ _ _ h₁ => exitFile_spec hok hsb h₁ k) (h.quiet hi)).mono ?_
    rintro - fs₁ ⟨N₁, t₁, hN, hi₁, h₁⟩
    rw [Free.ensures_bind]
    apply ensures_beginOp
    intro st hs
    apply Free.Ensures.seq (iputCwd_spec hok hsb hi₁.toCalm (h₁.same hs))
    rintro - fs₂ ⟨pr, N₂, j, -, ⟨hf, -⟩, h₂⟩
    rw [Free.ensures_bind]
    apply ensures_endOp
    intro st₃ hs₃
    apply Free.Ensures.seq (setCwd_none (h₂.same hs₃) rfl)
    intro _ fs₄ h₄
    exact ⟨N₂, { t₁.setProc p (some pr.leave) with moving := false }, hN.trans hf.fades,
      ⟨⟨hi₁.locked, hi₁.fresh, rfl⟩, hi₁.refs⟩, h₄⟩

theorem wait_spec (hi : t.Idle) (h : Inside p sb N t fs) (child : ProcId) :
    (Kern.wait child).Ensures (Fs.run p) ok (fun _ fs' => Quiet p sb N fs') fs := by
  unfold Kern.wait
  rw [ensures_mem]
  have hproc := h.proc hi.moving
  split
  · rename_i hc
    split
    · exact h.quiet hi
    · rw [hproc] at hc
      exact (h.setProc hi.moving child none (by rw [hc]; rfl)).quiet (hi.setProc child none)
  · exact h.quiet hi

/- All calls. -/

/-- What any call but chmod() leaves. -/
def Left (p : ProcId) (sb : Superblock) (N : Nat → Node) (fs' : Fs) : Prop :=
  ∃ N' t', Effect N N' ∧ t'.Idle ∧ Inside p sb N' t' fs'

theorem Quiet.left (h : Quiet p sb N fs) : Left p sb N fs := by
  obtain ⟨N', t', hN, h⟩ := h
  exact ⟨N', t', ⟨N, .inl rfl, hN, fun _ _ _ _ hz hne => absurd hz hne⟩, h⟩

theorem Inside.left (h : Inside p sb N t fs) (hi : t.Idle) : Left p sb N fs := (h.quiet hi).left

theorem stays_link {N' : Nat → Node} {d s : Nat} {name : List UInt8} (hl : Links N d s i name)
    (hf : Frees i (linkAt N d s i name) N') : Stays N (linkAt N d s i name) N' := by
  intro d' s' hd _ hz hne
  have hdi : d' ≠ i := by
    rintro rfl
    exact hl.file hd
  rcases hf with rfl | ⟨-, -, rfl⟩
  · rfl
  · exact setAt_other _ _ _ hdi

/-- Only the directory that sys_unlink() takes an entry from changes its entries. -/
theorem stays_unlink {N' : Nat → Node} {d s : Nat} (hu : Unlinks N d s i) :
    Stays N (unlinkAt N d s i) N' := by
  intro d' s' _ _ hz hne
  refine absurd ?_ hne
  by_cases hi : d' = i
  · rw [hi] at hz ⊢
    rw [unlinkAt, setAt_same]
    exact hz
  · by_cases hd : d' = d
    · rw [hd] at hz ⊢
      rw [unlinkAt, setAt_other _ _ _ hu.other.symm, setAt_same]
      have he : (((N d).enter s .erased).entry s').inum = 0 := by
        by_cases hs : s' = s
        · rw [hs, Node.entry_enter]
          rfl
        · rw [Node.entry_enter_other _ _ hs]
          exact hz
      split
      · exact he
      · exact he
    · rw [unlinkAt, setAt_other _ _ _ hi, setAt_other _ _ _ hd]
      exact hz

theorem Made.effect {path : List UInt8} {type major minor : Int} {N₁ N' : Nat → Node}
    (h : Made p N t path type major minor i N₁) (hN : Trims N₁ N') : Effect N N' := by
  obtain ⟨d, s, name, -, hm, hf, hstay⟩ := h.made
  refine ⟨_, .inr (.make _ _ hm), hf.fades.trans hN.fades, fun d' s' hd hn hz hne => ?_⟩
  have hdi : d' ≠ i := by
    rintro rfl
    exact absurd (hm.free.symm.trans hd) (by decide)
  by_cases hdd : d' = d
  · subst hdd
    obtain rfl := hstay hn
    refine hN.dirs d' ?_
    rw [makeAt, setAt_same]
    split <;> exact hd
  · rw [makeAt, setAt_other _ _ _ hdd, setAt_other _ _ _ hdi] at hne
    exact absurd hz hne

theorem OpenDone.left {path : List UInt8} {omode : Nat} {r : Int} (hi : t.Idle)
    (h : OpenDone p sb N t path omode r fs) : Left p sb N fs := by
  cases h with
  | failed h => exact h.left hi
  | abandoned _ hm h =>
    exact ⟨_, t, hm.effect (.refl _), hi, h⟩
  | opened _ hm hN hi' h =>
    rcases hm with rfl | ⟨-, i, hm⟩
    · exact Quiet.left ⟨_, _, hN.fades, hi', h⟩
    · exact ⟨_, _, hm.effect hN, hi', h⟩

def Call.isChmod : Call → Bool
  | .chmod _ _ => true
  | _ => false

/-- Every system call but chmod() does to the files what their meaning says, and leaves a
state without references and locks. -/
theorem call_spec (hok : Benign ok) (hsb : sb.Ok) (hs : ok .ilockNoType ∨ Sound N)
    (hl : ok .unlinkNlink ∨ Counted N) (hi : t.Idle) (h : Inside p sb N t fs) (c : Call) (hc : c.isChmod = false) :
    c.prog.Ensures (Fs.run p) ok (fun _ fs' => Left p sb N fs') fs := by
  cases c with
  | openFile path omode =>
    cases path with
    | bad residue => exact h.left hi
    | str path => exact (sysOpen_spec hok hsb hs hi h path omode).mono (fun _ _ h' => h'.left hi)
  | mkdir path =>
    refine (makeNode_spec hok hsb hs hi h path (.inl rfl) 0 0).mono ?_
    rintro - fs' (⟨-, h'⟩ | ⟨-, path', i, N', hm, h'⟩)
    · exact h'.left hi
    · exact ⟨N', t, hm.effect (.refl _), hi, h'⟩
  | mknod path major minor =>
    refine (makeNode_spec hok hsb hs hi h path (.inr rfl) major minor).mono ?_
    rintro - fs' (⟨-, h'⟩ | ⟨-, path', i, N', hm, h'⟩)
    · exact h'.left hi
    · exact ⟨N', t, hm.effect (.refl _), hi, h'⟩
  | chdir path =>
    refine (sysChdir_spec hok hsb hs hi h path).mono ?_
    rintro - fs' (⟨-, h'⟩ | ⟨-, h'⟩)
    · exact h'.left hi
    · exact h'.left
  | link old new =>
    refine (sysLink_spec hok hsb hs hi.toCalm h old new).mono ?_
    rintro - fs' (⟨-, h'⟩ | ⟨-, d, s, i, name, N', hl, hf, h'⟩)
    · exact h'.left hi
    · exact ⟨N', t, ⟨_, .inr (.link hl), hf.fades, stays_link hl hf⟩, hi, h'⟩
  | unlink path =>
    refine (sysUnlink_spec hok hsb hs hl hi.toCalm h path).mono ?_
    rintro - fs' (⟨-, h'⟩ | ⟨-, d, s, i, N', hu, hf, h'⟩)
    · exact h'.left hi
    · exact ⟨N', t, ⟨_, .inr (.unlink hu), hf, stays_unlink hu⟩, hi, h'⟩
  | read fd dst n other =>
    exact (sysRead_spec hok hsb hi h fd dst n other).mono (fun _ _ h' => h'.left)
  | write fd um addr n other =>
    exact (sysWrite_spec hok hsb hi h fd um addr n other).mono (fun _ _ h' => h'.left)
  | close fd => exact (sysClose_spec hok hsb hi h fd).mono (fun _ _ h' => h'.left)
  | dup fd => exact (sysDup_spec hok hi h fd).mono (fun _ _ h' => h'.left)
  | fstat fd copied => exact (sysFstat_spec hok hsb hi h fd copied).mono (fun _ _ h' => h'.left)
  | lseek fd offset whence => exact (sysLseek_spec hi h fd offset whence).mono (fun _ _ h' => h'.left)
  | chmod path mode => cases hc
  | exec path reads result =>
    exact (sysExec_spec hok hsb hs hi h path reads result).mono (fun _ _ h' => h'.left)
  | pipe page copied => exact (sysPipe_spec hok hsb hi h page copied).mono (fun _ _ h' => h'.left)
  | fork copied => exact (fork_spec hok hi h copied).mono (fun _ _ h' => h'.left)
  | exit => exact (exit_spec hok hsb hi h).mono (fun _ _ h' => h'.left)
  | wait child => exact (wait_spec hi h child).mono (fun _ _ h' => h'.left)

end Xv6
