import Xv6.Proofs.Chmod

namespace Xv6
variable {p : ProcId} {sb : Superblock} {disk : Disk} {N : Nat → Node} {t : Holders} {fs fs' : Fs}

/- Calls that fail. -/

/-- The calls that work on names. -/
def Call.naming : Call → Bool
  | .openFile _ _ | .mkdir _ | .mknod _ _ _ | .chdir _ | .link _ _ | .unlink _ => true
  | _ => false

/-- Paths lead where they led, files contain what they contained, and processes have the open
files and working directories that they had. -/
structure Unchanged (fs fs' : Fs) : Prop where
  paths : ∀ cwd path, resolve fs'.node cwd path = resolve fs.node cwd path
  files : ∀ i, (fs.node i).type ≠ 0 → fs'.node i = fs.node i
  procs : fs'.mem.proc = fs.mem.proc
  opened : fs'.mem.file = fs.mem.file
  inums : ∀ ip, 0 < held fs.mem.file fs.mem.proc ip →
    (fs'.mem.inode ip).inum = (fs.mem.inode ip).inum

theorem Inside.unchanged (h : Inside p sb fs.node t fs) (h' : Inside p sb fs.node t fs')
    (hi : t.Idle) : Unchanged fs fs' := by
  have hN := h'.eq_node
  have hfile := h.file
  have hproc := h.proc hi.moving
  refine ⟨fun cwd path => by rw [← hN], fun i _ => by rw [← hN], (h'.proc hi.moving).trans hproc.symm,
    h'.file.trans hfile.symm, fun ip hheld => ?_⟩
  rw [hfile, hproc] at hheld
  have hn : t.Names ip (t.base ip) := .inr (.inr ⟨hheld, rfl⟩)
  exact (h'.entry_of hn).2.1.trans (h.entry_of hn).2.1.symm

/-- open() as far as create(). -/
def Kern.openCreate (path : List UInt8) : KernM (Option InodePtr) := do
  beginOp
  create path T_FILE 0 0

/-- The call is an open() with O_CREATE for which create() makes a new file. -/
def Fs.creates (fs : Fs) (e : Event) : Prop :=
  ∃ path omode ip fs₁, e.call = .openFile (.str path) omode ∧ omode &&& O_CREATE ≠ 0 ∧
    (Kern.openCreate path).exec (Fs.run e.p) { fs with st := { fs.st with evict := e.evict } } =
      .ok (some ip) fs₁ ∧ (fs.node (fs₁.mem.inode ip).inum).type = 0

/-- The directory of a new file has changed. -/
theorem Made.changes {path : List UInt8} {type major minor : Int} {i : Nat} {N' : Nat → Node}
    (h : Made p N t path type major minor i N') : ∃ d, (N d).type ≠ 0 ∧ N' d ≠ N d := by
  obtain ⟨d, s, name, -, hm, hf, -⟩ := h.made
  have hd := hm.enters.dir
  refine ⟨d, by rw [hd]; decide, fun he => ?_⟩
  rcases hf with rfl | ⟨-, -, rfl⟩
  · have hz := hm.enters.empty
    rw [← he, makeAt, setAt_same] at hz
    have hpos := hm.pos
    split at hz
    · change (((N d).enter s _).entry s).inum = 0 at hz
      rw [Node.entry_enter] at hz
      exact absurd hz (Nat.ne_of_gt hpos)
    · rw [Node.entry_enter] at hz
      exact absurd hz (Nat.ne_of_gt hpos)
  · rw [setAt_same] at he
    rw [← he] at hd
    exact absurd hd (by decide)

/-- open() with O_CREATE, by what create() has done. -/
theorem Inside.openCreate (hsb : sb.Ok) (h : Inside p sb fs.node t fs) (hi : t.Idle)
    {evict : List Bool} {path : List UInt8} {omode : Nat} (hc : omode &&& O_CREATE ≠ 0)
    (he : fs.exec ⟨p, .openFile (.str path) omode, evict⟩ = .ok (-1) fs') :
    Unchanged fs fs' ↔ ¬ fs.creates ⟨p, .openFile (.str path) omode, evict⟩ := by
  have h₀ : Inside p sb fs.node t { fs with st := { fs.st with evict := evict } } := h.same ⟨rfl, rfl⟩
  have hany : Benign (fun _ => True) := fun _ _ _ _ _ => trivial
  have hspec : (Kern.openCreate path).Ensures (Fs.run p) (fun _ => True)
      (Created p sb fs.node t path T_FILE 0 0) { fs with st := { fs.st with evict := evict } } := by
    unfold Kern.openCreate
    rw [Free.ensures_bind]
    apply ensures_beginOp
    intro st hs
    exact create_spec hany hsb (.inl trivial) hi.toCalm hi.refs (h₀.same hs) path (.inr (.inl rfl)) 0 0
  change (Kern.sysOpen (.str path) omode).exec (Fs.run p) _ = _ at he
  have hopen : Kern.sysOpen (.str path) omode = Kern.openCreate path >>= fun r =>
      r.elim (Kern.finish (-1)) (fun ip => Kern.openFile ip omode) := by
    have hassoc : ∀ k : Option InodePtr → KernM Int,
        (Kern.beginOp >>= fun _ => Kern.create path T_FILE 0 0 >>= k) = Kern.openCreate path >>= k := fun _ => rfl
    unfold Kern.sysOpen
    dsimp only
    rw [if_pos hc, hassoc]
    congr 1
    funext r
    cases r <;> rfl
  rw [hopen] at he
  obtain ⟨r, fs₁, hr, he⟩ := Free.exec_bind_ok he
  have hdone := hspec.ok_of_exec hr
  cases r with
  | none =>
    have hfin : (Kern.finish (-1)).Ensures (Fs.run p) (fun _ => True) _ fs₁ := finish_spec hdone (-1)
    refine ⟨fun _ => ?_, fun _ => h.unchanged (hfin.ok_of_exec he).2 hi⟩
    rintro ⟨path', omode', ip, fs₂, hcall, -, hex, -⟩
    cases hcall
    cases hr.symm.trans hex
  | some ip =>
    rcases hdone with ⟨i, -, ht, h₁⟩ | ⟨d, s, i, name, N', hpath, hm, hf, hstay, h₁⟩
    · -- the file was there
      have hk : Kept fs.node t i := h.kept (by rw [hi.fresh]; simp)
      have hnd : (fs.node i).type = T_DIR → omode = O_RDONLY := by
        intro hd
        rw [hd] at ht
        exact absurd ht (by decide)
      have hof : (Kern.openFile ip omode).Ensures (Fs.run p) (fun _ => True) _ fs₁ :=
        openFile_spec hany hsb hi h₁ hk hnd
      refine ⟨fun _ => ?_, fun _ => ?_⟩
      · rintro ⟨path', omode', ip', fs₂, hcall, -, hex, hz⟩
        cases hcall
        cases hr.symm.trans hex
        have hinum := (h₁.entry_of (.inr (.inl List.mem_cons_self))).2.1
        rw [hinum] at hz
        exact h₁.live List.mem_cons_self hz
      · rcases hof.ok_of_exec he with ⟨-, h'⟩ | ⟨hneg, -⟩
        · exact h.unchanged h' hi
        · exact absurd hneg (by decide)
    · -- the file is new
      have hmade : Made p fs.node t path T_FILE 0 0 i N' := ⟨d, s, name, hpath, hm, hf, hstay⟩
      obtain ⟨d', hnode⟩ := hmade.node
      have hk : Kept N' t i := .inr (.inl (by rw [hnode, new_nlink]; decide))
      have hnd : (N' i).type = T_DIR → omode = O_RDONLY := by
        rw [hnode, new_type]
        exact fun hd => absurd hd (by decide)
      have hof : (Kern.openFile ip omode).Ensures (Fs.run p) (fun _ => True) _ fs₁ :=
        openFile_spec hany hsb hi h₁ hk hnd
      have hnew : fs.creates ⟨p, .openFile (.str path) omode, evict⟩ := by
        refine ⟨path, omode, ip, fs₁, rfl, hc, hr, ?_⟩
        rw [(h₁.entry_of (.inr (.inl List.mem_cons_self))).2.1]
        exact hm.free
      refine ⟨fun hu => ?_, fun hnot => absurd hnew hnot⟩
      rcases hof.ok_of_exec he with ⟨-, h'⟩ | ⟨hneg, -⟩
      · obtain ⟨j, hj, hne⟩ := hmade.changes
        rw [h'.eq_node] at hne
        exact absurd (hu.files j hj) hne
      · exact absurd hneg (by decide)

/-- Up to the first chmod() that returns 0, a call on names that returns -1 has changed nothing if
and only if it is not an open() for which create() made a file. -/
theorem failed_call_unchanged_iff (h : WellFormed sb disk)
    (hr : Reaches Fs.stepChmodFails (Fs.boot sb disk) fs) {e : Event} (hc : e.call.naming = true)
    (he : fs.exec e = .ok (-1) fs') : Unchanged fs fs' ↔ ¬ fs.creates e := by
  obtain ⟨t, hi, hin⟩ := healthy_of_chmodFails h hr
  obtain ⟨p, call, evict⟩ := e
  have h₁ : Inside p sb fs.node t { fs with st := { fs.st with evict := evict } } :=
    (hin p).same ⟨rfl, rfl⟩
  have hany : Benign (fun _ => True) := fun _ _ _ _ _ => trivial
  have hother : (∀ path omode, call = .openFile (.str path) omode → omode &&& O_CREATE = 0) →
      Inside p sb fs.node t fs' → (Unchanged fs fs' ↔ ¬ fs.creates ⟨p, call, evict⟩) := by
    intro hno h'
    refine ⟨fun _ => ?_, fun _ => (hin p).unchanged h' hi⟩
    rintro ⟨path, omode, -, -, hcall, hcr, -⟩
    exact hcr (hno path omode hcall)
  cases call with
  | openFile path omode =>
    cases path with
    | bad residue =>
      cases he
      exact hother nofun h₁
    | str path =>
      by_cases hcr : omode &&& O_CREATE = 0
      · refine hother (fun _ _ heq => by cases heq; exact hcr) ?_
        have hspec : (Kern.sysOpen (.str path) omode).Ensures (Fs.run p) (fun _ => True) _ _ :=
          sysOpen_spec hany h.super (.inl trivial) hi h₁ path omode
        cases hspec.ok_of_exec he with
        | failed h' => exact h'
        | abandoned hne _ _ => exact absurd hcr hne
        | opened hneg _ _ _ _ => exact absurd hneg (by decide)
      · exact (hin p).openCreate h.super hi hcr he
  | mkdir path =>
    have hspec : (Kern.sysMkdir path).Ensures (Fs.run p) (fun _ => True) _ _ :=
      makeNode_spec hany h.super (.inl trivial) hi h₁ path (.inl rfl) 0 0
    rcases hspec.ok_of_exec he with ⟨-, h'⟩ | ⟨hz, -⟩
    · exact hother nofun h'
    · cases hz
  | mknod path major minor =>
    have hspec : (Kern.sysMknod path major minor).Ensures (Fs.run p) (fun _ => True) _ _ :=
      makeNode_spec hany h.super (.inl trivial) hi h₁ path (.inr rfl) major minor
    rcases hspec.ok_of_exec he with ⟨-, h'⟩ | ⟨hz, -⟩
    · exact hother nofun h'
    · cases hz
  | chdir path =>
    have hspec : (Kern.sysChdir path).Ensures (Fs.run p) (fun _ => True) _ _ :=
      sysChdir_spec hany h.super (.inl trivial) hi h₁ path
    rcases hspec.ok_of_exec he with ⟨-, h'⟩ | ⟨hz, -⟩
    · exact hother nofun h'
    · cases hz
  | link old new =>
    have hspec : (Kern.sysLink old new).Ensures (Fs.run p) (fun _ => True) _ _ :=
      sysLink_spec hany h.super (.inl trivial) hi.toCalm h₁ old new
    rcases hspec.ok_of_exec he with ⟨-, h'⟩ | ⟨hz, -⟩
    · exact hother nofun h'
    · cases hz
  | unlink path =>
    have hspec : (Kern.sysUnlink path).Ensures (Fs.run p) (fun _ => True) _ _ :=
      sysUnlink_spec hany h.super (.inl trivial) (.inl trivial) hi.toCalm h₁ path
    rcases hspec.ok_of_exec he with ⟨-, h'⟩ | ⟨hz, -⟩
    · exact hother nofun h'
    · cases hz
  | _ => cases hc

set_option maxRecDepth 100000 in
theorem failed_mkdir_unchanged : ∃ fs', (Fs.boot mkfsSb fileImage).exec
      ⟨0, .mkdir (.str [47, 102]), []⟩ = .ok (-1) fs' ∧ Unchanged (Fs.boot mkfsSb fileImage) fs' := by
  have hrun : ((Fs.boot mkfsSb fileImage).answer ⟨0, .mkdir (.str [47, 102]), []⟩).any
      (fun a => decide (a.1 = -1)) = true := by
    decide +kernel
  obtain ⟨⟨r, fs'⟩, ha, hr⟩ := (Option.any_eq_true _ _).mp hrun
  have he := Fs.answer_some ha
  obtain rfl : r = -1 := of_decide_eq_true hr
  refine ⟨fs', he, (failed_call_unchanged_iff fileImage_wellFormed .start rfl he).mpr ?_⟩
  rintro ⟨path, omode, ip, fs₁, hcall, -⟩
  cases hcall

set_option maxRecDepth 100000 in
/-- With all descriptors in use open("/g", O_CREATE) returns -1 and leaves the new file. -/
theorem failed_open_leaves_file : ∃ fs fs', Reaches Fs.stepChmodFails (Fs.boot mkfsSb fileImage) fs ∧
    fs.exec ⟨0, .openFile (.str [47, 103]) O_CREATE, []⟩ = .ok (-1) fs' ∧
    resolve fs.node ROOTINO [47, 103] = none ∧ resolve fs'.node ROOTINO [47, 103] = some 3 := by
  have hrun : (runAll Fs.stepChmodFails (Fs.boot mkfsSb fileImage)
      (⟨0, .openFile (.str [47, 102]) O_RDONLY, []⟩ :: List.replicate 15 ⟨0, .dup 0, []⟩)).any
      (fun fs => decide (resolve fs.node ROOTINO [47, 103] = none) &&
        (fs.answer ⟨0, .openFile (.str [47, 103]) O_CREATE, []⟩).any
          (fun a => decide (a.1 = -1 ∧ resolve a.2.node ROOTINO [47, 103] = some 3))) = true := by
    decide +kernel
  obtain ⟨fs, hr, hp⟩ := Reaches.of_any hrun
  obtain ⟨hnone, hp⟩ := Bool.and_eq_true_iff.mp hp
  obtain ⟨⟨r, fs'⟩, ha, hp⟩ := (Option.any_eq_true _ _).mp hp
  obtain ⟨hr', hsome⟩ := of_decide_eq_true hp
  have he := Fs.answer_some ha
  obtain rfl : r = -1 := hr'
  exact ⟨fs, fs', hr, he, of_decide_eq_true hnone, hsome⟩

end Xv6
