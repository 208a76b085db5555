import Xv6.Store

namespace Xv6

/- Buffers and operations that a program has to give back. -/

/-- The buffers that the process has locked, and the number of operations under way. -/
abbrev Debt := List Nat × Int

def Fs.debt (fs : Fs) : Debt := (fs.st.held, fs.st.outstanding)

def Cmd.effect {β : Type} : Cmd β → Debt → Debt
  | .bread n, x => (n :: x.1, x.2)
  | .brelse n, x => (x.1.erase n, x.2)
  | .beginOp, x => (x.1, x.2 + 1)
  | .endOp, x => (x.1, x.2 - 1)
  | _, x => x

/-- The command can answer `b`; panic() does not answer. -/
def Cmd.Answers {β : Type} : Cmd β → β → Prop
  | .mem f, b => ∃ p m m', f p m = .ok b m'
  | _, _ => True

theorem run_effect {p : ProcId} {fs fs' : Fs} {β : Type} {c : Cmd β} {b : β}
    (h : Fs.run p _ c fs = .ok b fs') : c.Answers b ∧ fs'.debt = c.effect fs.debt := by
  cases c with
  | bread n =>
    simp only [Fs.run, Store.bread] at h
    split at h
    · cases h
    · cases h
      exact ⟨trivial, rfl⟩
  | data n => cases h; exact ⟨trivial, rfl⟩
  | modify n d => cases h; exact ⟨trivial, rfl⟩
  | logWrite n =>
    simp only [Fs.run, Store.logWrite] at h
    split at h
    · cases h
    · split at h
      · cases h
      · cases h
        exact ⟨trivial, rfl⟩
  | brelse n => cases h; exact ⟨trivial, rfl⟩
  | beginOp =>
    simp only [Fs.run, Store.beginOp] at h
    split at h
    · cases h
    · cases h
      exact ⟨trivial, rfl⟩
  | endOp => cases h; exact ⟨trivial, rfl⟩
  | mem f =>
    simp only [Fs.run] at h
    cases hf : f p fs.mem with
    | ok a m =>
      rw [hf] at h
      cases h
      exact ⟨⟨p, fs.mem, m, hf⟩, rfl⟩
    | wait => rw [hf] at h; cases h
    | fail e => rw [hf] at h; cases h

/-- From the debt `x` the program ends as `K` says. -/
def Owes {α : Type} : KernM α → Debt → (α → Debt → Prop) → Prop
  | .ret a, x, K => K a x
  | .cmd c k, x, K => ∀ b, c.Answers b → Owes (k b) (c.effect x) K

namespace Kern
variable {p : ProcId} {fs fs' : Fs} {x : Debt} {α β : Type} {K : α → Debt → Prop}

theorem owes_sound {m : KernM α} {a : α} (h : Owes m fs.debt K) (he : m.exec (Fs.run p) fs = .ok a fs') :
    K a fs'.debt := by
  induction m generalizing fs with
  | ret b =>
    cases he
    exact h
  | cmd c k ih =>
    rw [Free.exec] at he
    cases hc : Fs.run p _ c fs with
    | ok b fs₁ =>
      rw [hc] at he
      obtain ⟨hans, hdebt⟩ := run_effect hc
      refine ih b ?_ he
      rw [hdebt]
      exact h b hans
    | wait => rw [hc] at he; cases he
    | fail e => rw [hc] at he; cases he

@[simp] theorem owes_pure {a : α} : Owes (pure a : KernM α) x K ↔ K a x := Iff.rfl

theorem owes_bind {m : KernM β} {f : β → KernM α} :
    Owes (m >>= f) x K ↔ Owes m x (fun b y => Owes (f b) y K) := by
  induction m generalizing x with
  | ret b => exact Iff.rfl
  | cmd c k ih => exact forall_congr' fun b => imp_congr_right fun _ => ih b

/-- The program gives back what it takes. -/
def Even (m : KernM α) : Prop := ∀ (x : Debt) (K : α → Debt → Prop), (∀ a, K a x) → Owes m x K

theorem Even.bind {m : KernM β} {f : β → KernM α} (hm : Even m) (hf : ∀ b, Even (f b)) :
    Even (m >>= f) :=
  fun x K h => owes_bind.mpr (hm x _ fun b => hf b x K h)

theorem Even.then {m : KernM β} {f : β → KernM α} (hm : Even m) (hf : ∀ b, Owes (f b) x K) :
    Owes (m >>= f) x K :=
  owes_bind.mpr (hm x _ hf)

theorem Even.owes {m : KernM α} (h : Even m) (hK : ∀ a, K a x) : Owes m x K := h x K hK

theorem owes_ite {c : Prop} [Decidable c] {m m' : KernM α} (h : Owes m x K) (h' : Owes m' x K) :
    Owes (if c then m else m') x K := by
  split
  · exact h
  · exact h'

theorem Even.pure (a : α) : Even (pure a : KernM α) := fun _ _ h => h a

theorem Even.ite {c : Prop} [Decidable c] {m m' : KernM α} (h : Even m) (h' : Even m') :
    Even (if c then m else m') := by
  split
  · exact h
  · exact h'

theorem even_mem (f : ProcId → Mem → Out Panic Mem α) : Even (Free.call (.mem f)) := fun _ _ h a _ => h a
theorem even_get (f : Mem → α) : Even (get f) := even_mem _
theorem even_update (f : Mem → Mem) : Even (update f) := even_mem _
theorem even_bdata (n : Nat) : Even (bdata n) := fun _ _ h a _ => h a
theorem even_bmodify (n : Nat) (d : Block) : Even (bmodify n d) := fun _ _ h a _ => h a
theorem even_logWrite (n : Nat) : Even (logWrite n) := fun _ _ h a _ => h a

theorem owes_panic (e : Panic) : Owes (panic e : KernM α) x K := by
  rintro b ⟨p, m, m', h⟩
  cases h

theorem even_panic (e : Panic) : Even (panic e : KernM α) := fun _ _ _ => owes_panic e

theorem Even.when {c : Prop} [Decidable c] {m : KernM Unit} (h : Even m) : Even (when c m) :=
  .ite h (.pure ())

/-- bread() up to the brelse() of the same block. -/
theorem even_bread {n : Nat} {f : Nat → KernM α}
    (h : ∀ x K, (∀ a, K a x) → Owes (f n) (n :: x.1, x.2) K) : Even (bread n >>= f) := by
  intro x K hK
  refine owes_bind.mpr fun _ _ => ?_
  exact h x K hK

theorem owes_brelse {n : Nat} {f : Unit → KernM α} (h : Owes (f ()) x K) :
    Owes (brelse n >>= f) (n :: x.1, x.2) K := by
  refine owes_bind.mpr fun _ _ => ?_
  simpa [Owes, Cmd.effect] using h

theorem owes_brelse_last {n : Nat} {K : Unit → Debt → Prop} (h : K () x) :
    Owes (brelse n) (n :: x.1, x.2) K := by
  intro _ _
  simpa [Owes, Cmd.effect] using h

theorem Even.forUp {body : Nat → KernM Unit} (h : ∀ i, Even (body i)) (n start : Nat) :
    Even (Free.forUp body n start) := by
  induction n generalizing start with
  | zero => exact .pure ()
  | succ n ih => exact (h start).bind fun _ => ih (start + 1)

theorem even_getSb : Even getSb := even_get _

/- Blocks. -/

theorem even_bzero (b : Nat) : Even (bzero b) := by
  refine even_bread fun x K h => ?_
  refine (even_bmodify _ _).then fun _ => (even_logWrite _).then fun _ => ?_
  exact owes_brelse_last (h ())

theorem even_ballocFrom (sb : Superblock) (fuel b : Nat) : Even (ballocFrom sb fuel b) := by
  induction fuel generalizing b with
  | zero => exact .pure 0
  | succ fuel ih =>
    refine .ite (even_bread fun x K h => (even_bdata _).then fun d => ?_) (.pure 0)
    split
    · refine (even_bmodify _ _).then fun _ => (even_logWrite _).then fun _ => owes_brelse ?_
      exact (even_bzero _).then fun _ => h _
    · exact owes_brelse (ih _ x K h)

theorem even_balloc : Even balloc := (even_get _).bind fun sb => even_ballocFrom sb _ _

theorem even_bfree (b : Nat) : Even (bfree b) := by
  refine (even_get _).bind fun sb => even_bread fun x K h => (even_bdata _).then fun d => ?_
  split
  · exact owes_panic _
  · exact (even_bmodify _ _).then fun _ => (even_logWrite _).then fun _ => owes_brelse_last (h ())

/- Inodes. -/

theorem even_iget (dev inum : Nat) : Even (iget dev inum) := by
  unfold iget
  exact even_mem _

theorem even_iallocFrom (dev : Nat) (type : Int) (sb : Superblock) (fuel inum : Nat) :
    Even (iallocFrom dev type sb fuel inum) := by
  induction fuel generalizing inum with
  | zero => exact .pure none
  | succ fuel ih =>
    rw [iallocFrom]
    with_reducible refine even_bread fun x K h => Even.then (even_bdata _) fun d => ?_
    with_reducible refine owes_ite ?_ (owes_brelse (Even.owes (ih _) h))
    with_reducible refine Even.then (even_bmodify _ _) fun _ => Even.then (even_logWrite _) fun _ => ?_
    with_reducible exact owes_brelse (Even.then (even_iget _ _) fun _ => owes_pure.mpr (h _))

theorem even_ialloc (dev : Nat) (type : Int) : Even (ialloc dev type) :=
  (even_get _).bind fun sb => even_iallocFrom dev type sb _ _

theorem even_iupdate (ip : InodePtr) : Even (iupdate ip) := by
  refine (even_get _).bind fun sb => (even_get _).bind fun i => even_bread fun x K h => ?_
  refine (even_bdata _).then fun d => (even_bmodify _ _).then fun _ => (even_logWrite _).then fun _ => ?_
  exact owes_brelse_last (h ())

theorem even_setInode (ip : InodePtr) (f : Inode → Inode) : Even (setInode ip f) := even_update _

theorem even_setCopy (ip : InodePtr) (f : Dinode → Dinode) : Even (setCopy ip f) := even_update _

theorem even_inodeOf (ip : InodePtr) : Even (inodeOf ip) := even_get _

theorem even_acquiresleep (ip : InodePtr) : Even (acquiresleep ip) := even_mem _

theorem even_ilockRead (ip : InodePtr) (inum : Nat) : Even (ilockRead ip inum) := by
  unfold ilockRead
  -- Unification must not look into dinodeAt.
  with_reducible refine Even.bind even_getSb fun sb => even_bread fun x K h => ?_
  with_reducible refine Even.then (even_bdata _) fun d => ?_
  with_reducible refine Even.then (even_setCopy _ _) fun _ => owes_brelse ?_
  with_reducible refine Even.then (even_setInode _ _) fun _ => ?_
  with_reducible exact Even.owes (Even.when (even_panic _)) h

theorem even_ilock (ip : InodePtr) : Even (ilock ip) := by
  refine (even_get _).bind fun i => .ite (even_panic _) (Even.bind (even_acquiresleep ip) fun _ => ?_)
  with_reducible exact Even.bind (even_inodeOf ip) fun i => Even.when (even_ilockRead _ _)

theorem even_iunlock (ip : InodePtr) : Even (iunlock ip) := even_mem _

theorem even_bmapIndirect (addr bn : Nat) : Even (bmapIndirect addr bn) := by
  refine even_bread fun x K h => (even_bdata _).then fun d => ?_
  split
  · refine even_balloc.then fun b => ?_
    refine ((even_bmodify _ _).bind fun _ => even_logWrite _).when.then fun _ => ?_
    exact owes_brelse (h _)
  · exact owes_brelse (h _)

theorem even_bmap (ip : InodePtr) (bn : Nat) : Even (bmap ip bn) := by
  refine .ite ((even_get _).bind fun addr => .ite ?_ (.pure _)) (.ite ?_ (even_panic _))
  · exact even_balloc.bind fun b => (even_setCopy _ _).when.bind fun _ => .pure _
  · refine (even_get _).bind fun addr => .ite (even_balloc.bind fun b => ?_) (even_bmapIndirect _ _)
    exact .ite (.pure _) ((even_setCopy _ _).bind fun _ => even_bmapIndirect _ _)

theorem even_itrunc (ip : InodePtr) : Even (itrunc ip) := by
  have hdirect : ∀ k, Even (itruncDirect ip k) := fun k =>
    (even_get _).bind fun addr => ((even_bfree _).bind fun _ => even_setCopy _ _).when
  have hword : ∀ d j, Even (itruncWord d j) := fun d j => (even_bfree _).when
  refine (Even.forUp hdirect _ _).bind fun _ => Even.bind ?_ fun _ =>
    (even_setCopy _ _).bind fun _ => even_iupdate ip
  refine (even_get _).bind fun addr => Even.when (even_bread fun x K h => (even_bdata _).then fun d => ?_)
  refine (Even.forUp (hword d) _ _).then fun _ => owes_brelse ?_
  exact (even_bfree _).then fun _ => even_setCopy _ _ x K h

theorem even_iput (ip : InodePtr) : Even (iput ip) := by
  refine (even_mem _).bind fun free => Even.when ((even_itrunc ip).bind fun _ => ?_)
  refine (even_setCopy _ _).bind fun _ => (even_iupdate ip).bind fun _ => (even_update _).bind fun _ => ?_
  exact (even_update _).bind fun _ => even_update _

theorem even_iunlockput (ip : InodePtr) : Even (iunlockput ip) :=
  (even_iunlock ip).bind fun _ => even_iput ip

theorem even_readiLoop (ip : InodePtr) (dst : Dst) (n fuel tot off : Nat) (acc : List UInt8) :
    Even (readiLoop ip dst n fuel tot off acc) := by
  induction fuel generalizing tot off acc with
  | zero => exact .pure _
  | succ fuel ih =>
    refine .ite ((even_bmap _ _).bind fun addr => .ite (.pure _) ?_) (.pure _)
    refine even_bread fun x K h => (even_bdata _).then fun d => ?_
    dsimp only
    split
    · exact owes_brelse (ih _ _ _ x K h)
    · exact owes_brelse (h _)

theorem even_readi (ip : InodePtr) (dst : Dst) (off n : Nat) : Even (readi ip dst off n) :=
  (even_get _).bind fun _ => .ite (.pure _) (even_readiLoop _ _ _ _ _ _ _)

theorem even_writeiLoop (ip : InodePtr) (src : Src) (n fuel tot off : Nat) :
    Even (writeiLoop ip src n fuel tot off) := by
  induction fuel generalizing tot off with
  | zero => exact .pure _
  | succ fuel ih =>
    refine .ite ((even_bmap _ _).bind fun addr => .ite (.pure _) ?_) (.pure _)
    refine even_bread fun x K h => (even_bdata _).then fun d => (even_bmodify _ _).then fun _ => ?_
    split
    · exact (even_logWrite _).then fun _ => owes_brelse (ih _ _ x K h)
    · exact owes_brelse (h _)

theorem even_writei (ip : InodePtr) (src : Src) (off n : Nat) : Even (writei ip src off n) := by
  refine (even_get _).bind fun i => .ite (.pure _) (.ite (.pure _) ?_)
  refine (even_writeiLoop _ _ _ _ _ _).bind fun r => (even_setCopy _ _).bind fun _ => ?_
  exact (even_iupdate ip).bind fun _ => .pure _

/- Directories and paths. -/

theorem even_readDirent (dp : InodePtr) (off : Nat) (e : Panic) : Even (readDirent dp off e) :=
  (even_readi _ _ _ _).bind fun _ => .ite (even_panic _) (.pure _)

theorem even_dirlookup (dp : InodePtr) (name : List UInt8) : Even (dirlookup dp name) := by
  have hfrom : ∀ size fuel off, Even (dirlookupFrom dp name size fuel off) := by
    intro size fuel
    induction fuel with
    | zero => exact fun _ => .pure _
    | succ fuel ih =>
      intro off
      exact .ite ((even_readDirent _ _ _).bind fun de => .ite (.pure _) (ih _)) (.pure _)
  refine (even_get _).bind fun i => .ite (even_panic _) ((hfrom _ _ _).bind fun r => ?_)
  cases r with
  | none => exact .pure _
  | some y => exact (even_iget _ _).bind fun _ => .pure _

theorem even_dirlink (dp : InodePtr) (name : List UInt8) (inum : Nat) : Even (dirlink dp name inum) := by
  have hfrom : ∀ size fuel off, Even (emptyDirent dp size fuel off) := by
    intro size fuel
    induction fuel with
    | zero => exact fun _ => .pure _
    | succ fuel ih =>
      intro off
      exact .ite ((even_readDirent _ _ _).bind fun de => .ite (.pure _) (ih _)) (.pure _)
  refine (even_dirlookup dp name).bind fun r => ?_
  cases r with
  | some y => exact (even_iput _).bind fun _ => .pure _
  | none => exact (even_get _).bind fun i => (hfrom _ _ _).bind fun off => (even_writei _ _ _ _).bind fun _ => .pure _

theorem even_namexFrom (parent : Bool) (fuel : Nat) (ip : InodePtr) (path name : List UInt8) :
    Even (namexFrom parent fuel ip path name) := by
  induction fuel generalizing ip path name with
  | zero => exact .pure _
  | succ fuel ih =>
    rw [namexFrom]
    cases skipelem path with
    | none => exact .ite ((even_iput ip).bind fun _ => .pure _) (.pure _)
    | some y =>
      refine (even_ilock ip).bind fun _ => (even_get _).bind fun i => .ite ?_ (.ite ?_ ?_)
      · exact (even_iunlockput ip).bind fun _ => .pure _
      · exact (even_iunlock ip).bind fun _ => .pure _
      · refine (even_dirlookup ip _).bind fun r => ?_
        cases r with
        | none => exact (even_iunlockput ip).bind fun _ => .pure _
        | some z => exact (even_iunlockput ip).bind fun _ => ih _ _ _

theorem even_namex (path : List UInt8) (parent : Bool) : Even (namex path parent) :=
  Even.bind (.ite (even_mem _) (even_mem _)) fun ip => even_namexFrom _ _ ip _ _

theorem even_namei (path : List UInt8) : Even (namei path) := (even_namex path false).bind fun _ => .pure _

/- Operations. -/

/-- The program ends an operation that it did not begin. -/
def Closes (m : KernM α) : Prop := ∀ (x : Debt) (K : α → Debt → Prop), (∀ a, K a x) → Owes m (x.1, x.2 + 1) K

theorem Even.closes {m : KernM β} {f : β → KernM α} (hm : Even m) (hf : ∀ b, Closes (f b)) :
    Closes (m >>= f) :=
  fun x K h => hm.then fun b => hf b x K h

theorem Closes.ite {c : Prop} [Decidable c] {m m' : KernM α} (h : Closes m) (h' : Closes m') :
    Closes (if c then m else m') := by
  split
  · exact h
  · exact h'

theorem closes_endOp {f : Unit → KernM α} (h : Even (f ())) : Closes (endOp >>= f) := by
  intro x K hK
  refine owes_bind.mpr fun _ _ => ?_
  have heffect : Cmd.effect .endOp (x.1, x.2 + 1) = x := by
    simp [Cmd.effect]
  rw [heffect]
  exact h x K hK

theorem closes_finish (r : Int) : Closes (finish r) := closes_endOp (.pure r)

theorem even_beginOp {f : Unit → KernM α} (h : Closes (f ())) : Even (beginOp >>= f) :=
  fun x K hK => owes_bind.mpr fun _ _ => h x K hK

theorem even_endLast {m : KernM β} (h : Even m) : Even (do beginOp; let _ ← m; endOp) := by
  refine even_beginOp (h.closes fun _ x K hK _ _ => ?_)
  have heffect : Cmd.effect .endOp (x.1, x.2 + 1) = x := by
    simp [Cmd.effect]
  rw [heffect]
  exact hK ()

/- file.c -/

theorem even_fileclose (f : FilePtr) : Even (fileclose f) := by
  refine (even_mem _).bind fun r => ?_
  cases r with
  | none => exact .pure _
  | some ff => exact (even_endLast (even_iput ff.ip)).when

theorem even_filestat (f : FilePtr) (copied : Bool) : Even (filestat f copied) := by
  refine (even_get _).bind fun ff => .ite ?_ (.pure _)
  exact (even_ilock _).bind fun _ => (even_iunlock _).bind fun _ => .pure _

theorem even_fileread (f : FilePtr) (dst : Dst) (n other : Int) : Even (fileread f dst n other) := by
  refine (even_get _).bind fun ff => .ite (.pure _) ?_
  cases ff.type with
  | pipe => exact .pure _
  | device => exact .pure _
  | inode =>
    refine (even_ilock _).bind fun _ => (even_get _).bind fun ff => (even_readi _ _ _ _).bind fun r => ?_
    exact (even_update _).when.bind fun _ => (even_iunlock _).bind fun _ => .pure _
  | none => exact even_panic _

theorem even_filewrite (f : FilePtr) (um : UserMem) (addr : Nat) (n other : Int) :
    Even (filewrite f um addr n other) := by
  have hloop : ∀ ip fuel i, Even (filewriteLoop f ip um addr n fuel i) := by
    intro ip fuel
    induction fuel with
    | zero => exact fun _ => .pure _
    | succ fuel ih =>
      intro i
      refine .ite (even_beginOp ((even_ilock _).closes fun _ => (even_get _).closes fun ff => ?_)) (.pure _)
      refine (even_writei _ _ _ _).closes fun r => (even_update _).when.closes fun _ => ?_
      exact (even_iunlock _).closes fun _ => closes_endOp (.ite (.pure _) (ih _))
  refine (even_get _).bind fun ff => .ite (.pure _) ?_
  cases ff.type with
  | pipe => exact .pure _
  | device => exact .pure _
  | inode => exact (hloop _ _ _).bind fun _ => .pure _
  | none => exact even_panic _

/- sysfile.c -/

theorem even_fdalloc (f : FilePtr) : Even (fdalloc f) := by
  unfold fdalloc
  exact even_mem _

theorem even_filealloc : Even filealloc := by
  unfold filealloc
  exact even_mem _

theorem even_argfd (fd : Int) : Even (argfd fd) := even_mem _
theorem even_setOfile (fd : Fd) (f : Option FilePtr) : Even (setOfile fd f) := even_mem _

theorem even_sysRead (fd : Int) (dst : Dst) (n other : Int) : Even (sysRead fd dst n other) := by
  refine (even_argfd fd).bind fun r => ?_
  cases r with
  | none => exact .pure _
  | some y => exact even_fileread _ _ _ _

theorem even_sysWrite (fd : Int) (um : UserMem) (addr : Nat) (n other : Int) : Even (sysWrite fd um addr n other) := by
  refine (even_argfd fd).bind fun r => ?_
  cases r with
  | none => exact .pure _
  | some y => exact even_filewrite _ _ _ _ _

theorem even_sysFstat (fd : Int) (copied : Bool) : Even (sysFstat fd copied) := by
  refine (even_argfd fd).bind fun r => ?_
  cases r with
  | none => exact .pure _
  | some y => exact even_filestat _ _

theorem even_sysClose (fd : Int) : Even (sysClose fd) := by
  refine (even_argfd fd).bind fun r => ?_
  cases r with
  | none => exact .pure _
  | some y => exact (even_setOfile _ _).bind fun _ => (even_fileclose _).bind fun _ => .pure _

theorem even_sysDup (fd : Int) : Even (sysDup fd) := by
  refine (even_argfd fd).bind fun r => ?_
  cases r with
  | none => exact .pure _
  | some y =>
    refine (even_fdalloc _).bind fun r => ?_
    cases r with
    | none => exact .pure _
    | some fd => exact (even_mem _).bind fun _ => .pure _

theorem even_sysLseek (fd offset whence : Int) : Even (sysLseek fd offset whence) := by
  refine (even_argfd fd).bind fun r => ?_
  cases r with
  | none => exact .pure _
  | some y =>
    refine (even_get _).bind fun ff => .ite (.pure _) ((even_get _).bind fun i => ?_)
    dsimp only
    split
    · exact .pure _
    · exact (even_update _).bind fun _ => .pure _

theorem closes_linkBad (ip : InodePtr) : Closes (linkBad ip) :=
  (even_ilock ip).closes fun _ => (even_setCopy _ _).closes fun _ => (even_iupdate ip).closes fun _ =>
    (even_iunlockput ip).closes fun _ => closes_finish _

theorem closes_linkName (ip : InodePtr) (new : List UInt8) : Closes (linkName ip new) := by
  refine (even_namex new true).closes fun r => ?_
  cases r with
  | none => exact closes_linkBad ip
  | some y =>
    refine (even_ilock _).closes fun _ => (even_get _).closes fun d => (even_get _).closes fun i => ?_
    refine .ite ((even_iunlockput _).closes fun _ => closes_linkBad ip) ?_
    refine (even_dirlink _ _ _).closes fun linked => .ite ?_ ?_
    · exact (even_iunlockput _).closes fun _ => (even_iput _).closes fun _ => closes_finish _
    · exact (even_iunlockput _).closes fun _ => closes_linkBad ip

theorem even_sysLink (old new : StrArg) : Even (sysLink old new) := by
  cases old with
  | bad _ => exact .pure _
  | str old =>
    cases new with
    | bad _ => exact .pure _
    | str new =>
      refine even_beginOp ((even_namei old).closes fun r => ?_)
      cases r with
      | none => exact closes_finish _
      | some ip =>
        refine (even_ilock ip).closes fun _ => (even_get _).closes fun i => .ite ?_ ?_
        · exact (even_iunlockput ip).closes fun _ => closes_finish _
        · exact (even_setCopy _ _).closes fun _ => (even_iupdate ip).closes fun _ =>
            (even_iunlock ip).closes fun _ => closes_linkName ip new

theorem even_isdirempty (dp : InodePtr) : Even (isdirempty dp) := by
  have hfrom : ∀ size fuel off, Even (isdiremptyFrom dp size fuel off) := by
    intro size fuel
    induction fuel with
    | zero => exact fun _ => .pure _
    | succ fuel ih =>
      intro off
      exact .ite ((even_readDirent _ _ _).bind fun de => .ite (.pure _) (ih _)) (.pure _)
  exact (even_get _).bind fun i => hfrom _ _ _

theorem closes_unlinkEntry (dp ip : InodePtr) (off : Nat) : Closes (unlinkEntry dp ip off) := by
  refine (even_writei _ _ _ _).closes fun n => ?_
  refine .ite (fun x K _ => owes_panic _) ((even_get _).closes fun i => ?_)
  refine ((even_setCopy _ _).bind fun _ => even_iupdate dp).when.closes fun _ => ?_
  refine (even_iunlockput dp).closes fun _ => (even_setCopy _ _).closes fun _ => ?_
  exact (even_iupdate ip).closes fun _ => (even_iunlockput ip).closes fun _ => closes_finish _

theorem closes_unlinkBad (dp : InodePtr) : Closes (unlinkBad dp) :=
  (even_iunlockput dp).closes fun _ => closes_finish _

theorem closes_unlinkName (dp : InodePtr) (name : List UInt8) : Closes (unlinkName dp name) := by
  refine (even_dirlookup dp name).closes fun r => ?_
  cases r with
  | none => exact closes_unlinkBad dp
  | some y =>
    refine (even_ilock _).closes fun _ => (even_get _).closes fun i => ?_
    refine .ite (fun x K _ => owes_panic _) (.ite ?_ (closes_unlinkEntry _ _ _))
    refine (even_isdirempty _).closes fun empty => .ite (closes_unlinkEntry _ _ _) ?_
    exact (even_iunlockput _).closes fun _ => closes_unlinkBad dp

theorem even_sysUnlink (path : StrArg) : Even (sysUnlink path) := by
  cases path with
  | bad _ => exact .pure _
  | str path =>
    refine even_beginOp ((even_namex path true).closes fun r => ?_)
    cases r with
    | none => exact closes_finish _
    | some y => exact (even_ilock _).closes fun _ => .ite (closes_unlinkBad _) (closes_unlinkName _ _)

theorem even_createFail (dp ip : InodePtr) : Even (createFail dp ip) :=
  (even_setCopy _ _).bind fun _ => (even_iupdate ip).bind fun _ => (even_iunlockput ip).bind fun _ =>
    (even_iunlockput dp).bind fun _ => .pure _

theorem even_createEntry (dp ip : InodePtr) (name : List UInt8) (type : Int) :
    Even (createEntry dp ip name type) := by
  refine (even_get _).bind fun i => (even_dirlink _ _ _).bind fun linked => .ite ?_ (even_createFail dp ip)
  refine ((even_setCopy _ _).bind fun _ => even_iupdate dp).when.bind fun _ => ?_
  exact (even_iunlockput dp).bind fun _ => .pure _

theorem even_createDots (dp ip : InodePtr) : Even (createDots dp ip) :=
  (even_get _).bind fun i => (even_get _).bind fun d => (even_dirlink _ _ _).bind fun ok =>
    .ite (even_dirlink _ _ _) (.pure _)

theorem even_createNew (dp : InodePtr) (name : List UInt8) (type major minor : Int) :
    Even (createNew dp name type major minor) := by
  refine (even_get _).bind fun d => (even_ialloc _ _).bind fun r => ?_
  cases r with
  | none => exact (even_iunlockput dp).bind fun _ => .pure _
  | some ip =>
    refine (even_ilock ip).bind fun _ => (even_setCopy _ _).bind fun _ => (even_iupdate ip).bind fun _ => ?_
    refine .ite ((even_createDots dp ip).bind fun ok => ?_) (even_createEntry _ _ _ _)
    exact .ite (even_createEntry _ _ _ _) (even_createFail dp ip)

theorem even_create (path : List UInt8) (type major minor : Int) : Even (create path type major minor) := by
  refine (even_namex path true).bind fun r => ?_
  cases r with
  | none => exact .pure _
  | some y =>
    refine (even_ilock _).bind fun _ => (even_dirlookup _ _).bind fun r => ?_
    cases r with
    | none => exact even_createNew _ _ _ _ _
    | some z =>
      refine (even_iunlockput _).bind fun _ => (even_ilock _).bind fun _ => (even_get _).bind fun i => ?_
      exact .ite (.pure _) ((even_iunlockput _).bind fun _ => .pure _)

theorem closes_openFile (ip : InodePtr) (omode : Nat) : Closes (openFile ip omode) := by
  have hbad : Closes (do iunlockput ip; finish (-1)) := (even_iunlockput ip).closes fun _ => closes_finish _
  refine (even_get _).closes fun i => .ite hbad (even_filealloc.closes fun r => ?_)
  cases r with
  | none => exact hbad
  | some f =>
    refine (even_fdalloc f).closes fun r => ?_
    cases r with
    | none => exact (even_fileclose f).closes fun _ => hbad
    | some fd =>
      refine (even_update _).closes fun _ => (even_itrunc ip).when.closes fun _ => ?_
      exact (even_iunlock ip).closes fun _ => closes_finish _

theorem even_sysOpen (path : StrArg) (omode : Nat) : Even (sysOpen path omode) := by
  cases path with
  | bad _ => exact .pure _
  | str path =>
    refine even_beginOp (.ite ((even_create _ _ _ _).closes fun r => ?_) ((even_namei path).closes fun r => ?_))
    · cases r with
      | none => exact closes_finish _
      | some ip => exact closes_openFile ip omode
    · cases r with
      | none => exact closes_finish _
      | some ip =>
        refine (even_ilock ip).closes fun _ => (even_get _).closes fun i => .ite ?_ (closes_openFile ip omode)
        exact (even_iunlockput ip).closes fun _ => closes_finish _

theorem even_makeNode (path : StrArg) (type major minor : Int) : Even (makeNode path type major minor) := by
  refine even_beginOp ?_
  cases path with
  | bad _ => exact closes_finish _
  | str path =>
    refine (even_create _ _ _ _).closes fun r => ?_
    cases r with
    | none => exact closes_finish _
    | some ip => exact (even_iunlockput ip).closes fun _ => closes_finish _

theorem even_iputCwd : Even iputCwd := by
  refine (even_mem _).bind fun cwd => ?_
  cases cwd with
  | none => exact even_panic _
  | some ip => exact even_iput ip

theorem even_sysChdir (path : StrArg) : Even (sysChdir path) := by
  refine even_beginOp ?_
  cases path with
  | bad _ => exact closes_finish _
  | str path =>
    refine (even_namei path).closes fun r => ?_
    cases r with
    | none => exact closes_finish _
    | some ip =>
      refine (even_ilock ip).closes fun _ => (even_get _).closes fun i => .ite ?_ ?_
      · exact (even_iunlockput ip).closes fun _ => closes_finish _
      · refine (even_iunlock ip).closes fun _ => even_iputCwd.closes fun _ => closes_endOp ?_
        exact (even_mem _).bind fun _ => .pure _

theorem even_sysChmod (path : StrArg) (mode : Int) : Even (sysChmod path mode) := by
  unfold sysChmod
  dsimp only
  split
  · exact .pure _
  · refine even_beginOp ((even_namei _).closes fun r => ?_)
    cases r with
    | none => exact closes_finish _
    | some ip => exact (even_ilock ip).closes fun _ => (even_setCopy _ _).closes fun _ =>
        (even_iupdate ip).closes fun _ => (even_iunlock ip).closes fun _ => closes_finish _

theorem even_sysExec (path : StrArg) (reads : List (Nat × Nat)) (result : Int) :
    Even (sysExec path reads result) := by
  have hreads : ∀ ip reads, Even (execReads ip reads) := by
    intro ip reads
    induction reads with
    | nil => exact .pure _
    | cons r rest ih => exact (even_readi _ _ _ _).bind fun _ => ih
  cases path with
  | bad _ => exact .pure _
  | str path =>
    refine even_beginOp ((even_namei path).closes fun r => ?_)
    cases r with
    | none => exact closes_finish _
    | some ip => exact (even_ilock ip).closes fun _ => (hreads ip reads).closes fun _ =>
        (even_iunlockput ip).closes fun _ => closes_finish _

theorem even_pipealloc (page : Bool) : Even (pipealloc page) := by
  refine even_filealloc.bind fun r => ?_
  cases r with
  | none => exact .pure _
  | some f0 =>
    refine even_filealloc.bind fun r => ?_
    cases r with
    | none => exact (even_fileclose f0).bind fun _ => .pure _
    | some f1 =>
      refine .ite ((even_update _).bind fun _ => (even_update _).bind fun _ => .pure _) ?_
      exact (even_fileclose f0).bind fun _ => (even_fileclose f1).bind fun _ => .pure _

theorem even_sysPipe (page copied : Bool) : Even (sysPipe page copied) := by
  have hbad : ∀ rf wf, Even (do fileclose rf; fileclose wf; return (-1 : Int)) := fun rf wf =>
    (even_fileclose rf).bind fun _ => (even_fileclose wf).bind fun _ => .pure _
  refine (even_pipealloc page).bind fun r => ?_
  cases r with
  | none => exact .pure _
  | some y =>
    refine (even_fdalloc _).bind fun r => ?_
    cases r with
    | none => exact hbad _ _
    | some fd0 =>
      refine (even_fdalloc _).bind fun r => ?_
      cases r with
      | none => exact (even_setOfile _ _).bind fun _ => hbad _ _
      | some fd1 =>
        exact .ite (.pure _) ((even_setOfile _ _).bind fun _ => (even_setOfile _ _).bind fun _ => hbad _ _)

theorem even_fork (copied : Bool) : Even (fork copied) := by
  have hfile : ∀ np fd, Even (forkFile np fd) := by
    intro np fd
    refine (even_argfd _).bind fun r => ?_
    cases r with
    | none => exact .pure _
    | some y => exact (even_mem _).bind fun _ => even_update _
  have halloc : Even allocproc := by
    unfold allocproc
    exact even_mem _
  refine halloc.bind fun r => ?_
  cases r with
  | none => exact .pure _
  | some np =>
    refine .ite ((Even.forUp (hfile np) _ _).bind fun _ => (even_mem _).bind fun cwd => ?_) ?_
    · cases cwd with
      | none => exact even_panic _
      | some ip => exact Even.bind ((even_update _).bind fun _ => .pure _) fun _ => (even_update _).bind fun _ => .pure _
    · exact (even_update _).bind fun _ => .pure _

theorem even_exit : Even exit := by
  have hfile : ∀ fd, Even (exitFile fd) := by
    intro fd
    refine (even_argfd _).bind fun r => ?_
    cases r with
    | none => exact .pure _
    | some y => exact (even_fileclose _).bind fun _ => even_setOfile _ _
  refine (even_mem _).bind fun isInit => .ite (even_panic _) ((Even.forUp hfile _ _).bind fun _ => ?_)
  refine even_beginOp (even_iputCwd.closes fun _ => closes_endOp ?_)
  exact (even_mem _).bind fun _ => .pure _

end Kern

/-- Every system call ends the operations that it begins and releases the buffers that it
locks. -/
theorem Call.prog_even (c : Call) : Kern.Even c.prog := by
  cases c with
  | openFile path omode => exact Kern.even_sysOpen _ _
  | mkdir path => exact Kern.even_makeNode _ _ _ _
  | mknod path major minor => exact Kern.even_makeNode _ _ _ _
  | chdir path => exact Kern.even_sysChdir _
  | link old new => exact Kern.even_sysLink _ _
  | unlink path => exact Kern.even_sysUnlink _
  | read fd dst n other => exact Kern.even_sysRead _ _ _ _
  | write fd um addr n other => exact Kern.even_sysWrite _ _ _ _ _
  | close fd => exact Kern.even_sysClose _
  | dup fd => exact Kern.even_sysDup _
  | fstat fd copied => exact Kern.even_sysFstat _ _
  | lseek fd offset whence => exact Kern.even_sysLseek _ _ _
  | chmod path mode => exact Kern.even_sysChmod _ _
  | exec path reads result => exact Kern.even_sysExec _ _ _
  | pipe page copied => exact Kern.even_sysPipe _ _
  | fork copied => exact Kern.even_fork _
  | exit => exact Kern.even_exit
  | wait child => exact Kern.even_mem _

/-- Nothing is in the log unless an operation is under way. -/
def LogIdle (fs : Fs) : Prop := fs.st.outstanding ≤ 0 → fs.st.lh = []

theorem LogIdle.run {p : ProcId} {fs fs' : Fs} {β : Type} {c : Cmd β} {b : β} (h : LogIdle fs)
    (he : Fs.run p _ c fs = .ok b fs') : LogIdle fs' := by
  cases c with
  | bread n =>
    simp only [Fs.run, Store.bread] at he
    split at he
    · cases he
    · cases he
      exact h
  | data n => cases he; exact h
  | modify n d => cases he; exact h
  | logWrite n =>
    simp only [Fs.run, Store.logWrite] at he
    split at he
    · cases he
    · split at he
      · cases he
      · rename_i hop
        cases he
        exact fun hout => absurd (show fs.st.outstanding < 1 by change fs.st.outstanding ≤ 0 at hout; omega) hop
  | brelse n => cases he; exact h
  | beginOp =>
    simp only [Fs.run, Store.beginOp] at he
    split at he
    · cases he
    · cases he
      exact fun hout => h (by change fs.st.outstanding + 1 ≤ 0 at hout; omega)
  | endOp =>
    cases he
    intro hout
    change fs.st.outstanding - 1 ≤ 0 at hout
    show (if fs.st.outstanding - 1 = 0 then [] else fs.st.lh) = []
    split
    · rfl
    · exact h (by omega)
  | mem f =>
    simp only [Fs.run] at he
    cases hf : f p fs.mem with
    | ok a m =>
      rw [hf] at he
      cases he
      exact h
    | wait => rw [hf] at he; cases he
    | fail e => rw [hf] at he; cases he

/-- Between system calls no buffer is locked, no operation is under way and the log is empty. -/
structure BetweenCalls (fs : Fs) : Prop where
  held : fs.st.held = []
  outstanding : fs.st.outstanding = 0
  lh : fs.st.lh = []

theorem BetweenCalls.exec {fs fs' : Fs} {e : Event} {r : Int} (h : BetweenCalls fs)
    (he : fs.exec e = .ok r fs') : BetweenCalls fs' := by
  have hset : LogIdle fs' := Free.exec_keeps (fun _ _ _ _ _ h he => h.run he)
    (show LogIdle { fs with st := { fs.st with evict := e.evict } } from fun _ => h.lh) he
  have hrun : e.call.prog.exec (Fs.run e.p) { fs with st := { fs.st with evict := e.evict } } = .ok r fs' := he
  have hdebt : fs'.debt = fs.debt := by
    refine Kern.owes_sound (K := fun _ y => y = fs.debt) ?_ hrun
    exact e.call.prog_even _ _ fun _ => rfl
  have hout : fs'.st.outstanding = 0 := (congrArg Prod.snd hdebt).trans h.outstanding
  exact ⟨(congrArg Prod.fst hdebt).trans h.held, hout, hset (Int.le_of_eq hout)⟩

theorem boot_betweenCalls (sb : Superblock) (disk : Disk) : BetweenCalls (Fs.boot sb disk) := ⟨rfl, rfl, rfl⟩

end Xv6
