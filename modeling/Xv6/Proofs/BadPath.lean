import Xv6.Proofs.Chmod
import Xv6.Proofs.Balance
import Xv6.UserSpace

namespace Xv6
variable {p : ProcId} {sb : Superblock} {disk : Disk} {fs fs' : Fs} {um : UserMem}
  {stack : Nat → List UInt8} {evict : List Bool}

/-- The system calls that take a path, with the user pointers to their paths. -/
inductive PathCall where
  | openFile (path omode : Nat)
  | link (old new : Nat)
  | unlink (path : Nat)
  | mkdir (path : Nat)
  | mknod (path : Nat) (major minor : Int)
  | chdir (path : Nat)
  | exec (path : Nat) (reads : List (Nat × Nat)) (result : Int)
  | chmod (path : Nat) (mode : Int)

namespace PathCall

def paths : PathCall → List Nat
  | openFile path _ | unlink path | mkdir path | mknod path _ _ | chdir path | exec path _ _
  | chmod path _ => [path]
  | link old new => [old, new]

/-- fetchstr() fails for one of the paths. -/
def Faults (um : UserMem) (c : PathCall) : Prop :=
  ∃ path ∈ c.paths, (copyinstr um path MAXPATH).2 = false

/-- The call with its paths fetched; `stack n` is what the stack holds from the buffer of
argument `n` on. -/
def fetch (um : UserMem) (stack : Nat → List UInt8) : PathCall → Call
  | openFile path omode => .openFile (argstr um path MAXPATH (stack 0)) omode
  | link old new => .link (argstr um old MAXPATH (stack 0)) (argstr um new MAXPATH (stack 1))
  | unlink path => .unlink (argstr um path MAXPATH (stack 0))
  | mkdir path => .mkdir (argstr um path MAXPATH (stack 0))
  | mknod path major minor => .mknod (argstr um path MAXPATH (stack 0)) major minor
  | chdir path => .chdir (argstr um path MAXPATH (stack 0))
  | exec path reads result => .exec (argstr um path MAXPATH (stack 0)) reads result
  | chmod path mode => .chmod (argstr um path MAXPATH (stack 0)) mode

end PathCall

/-- What a fetch that fails leaves in the buffer. -/
def residue (um : UserMem) (path : Nat) (stack : List UInt8) : List UInt8 :=
  let copied := (copyinstr um path MAXPATH).1
  strOf (copied ++ stack.drop copied.length)

theorem argstr_bad {path : Nat} {buf : List UInt8} (h : (copyinstr um path MAXPATH).2 = false) :
    argstr um path MAXPATH buf = .bad (residue um path buf) := by
  unfold argstr residue
  simp only [h]
  rfl

/-- The file system, the log's count of operations, the inode table's references and the processes
are as they were. -/
structure Untouched (fs fs' : Fs) : Prop where
  node : fs'.node = fs.node
  outstanding : fs'.st.outstanding = fs.st.outstanding
  inum : ∀ ip, (fs.mem.inode ip).ref ≠ 0 → (fs'.mem.inode ip).inum = (fs.mem.inode ip).inum
  ref : ∀ ip, (fs'.mem.inode ip).ref = (fs.mem.inode ip).ref
  file : fs'.mem.file = fs.mem.file
  proc : fs'.mem.proc = fs.mem.proc

/-- The call returns -1 and nothing has changed. -/
def Fs.rejects (fs : Fs) (e : Event) : Prop := ∃ fs', fs.exec e = .ok (-1) fs' ∧ Untouched fs fs'

/-- sys_chmod() as far as namei(). -/
def Kern.chmodName (path : List UInt8) : KernM (Option InodePtr) := do
  beginOp
  namei path

/-- namei() finds no file of this name. -/
def Fs.unnamed (fs : Fs) (p : ProcId) (evict : List Bool) (path : List UInt8) : Prop :=
  ∃ fs', (Kern.chmodName path).exec (Fs.run p) { fs with st := { fs.st with evict := evict } } = .ok none fs'

theorem rejects_at_once {call : Call} (hc : call.prog = return -1) : fs.rejects ⟨p, call, evict⟩ := by
  refine ⟨{ fs with st := { fs.st with evict := evict } }, ?_, rfl, rfl, fun _ _ => rfl, fun _ => rfl, rfl, rfl⟩
  unfold Fs.exec
  rw [hc]
  rfl

/-- An operation that is only begun and ended. -/
theorem BetweenCalls.rejects_in_op (h : BetweenCalls fs) {call : Call}
    (hc : call.prog = (do Kern.beginOp; Kern.finish (-1))) : fs.rejects ⟨p, call, evict⟩ := by
  have hroom : ¬ (([] : List Nat).length + ((0 : Int) + 1) * MAXOPBLOCKS > (LOGSIZE : Int)) := by decide
  obtain ⟨mem, cur, logged, held, lh, outstanding, nlog, evict'⟩ := fs
  obtain ⟨hheld, hout, hlh⟩ := h
  dsimp only at hheld hout hlh
  subst hheld hout hlh
  refine ⟨⟨mem, cur, logged, [], [], 0, nlog, evict⟩, ?_, rfl, rfl, fun _ _ => rfl, fun _ => rfl, rfl, rfl⟩
  unfold Fs.exec
  rw [hc]
  have hbegin : Kern.beginOp.exec (Fs.run p) ⟨mem, cur, logged, [], [], 0, nlog, evict⟩ =
      .ok () ⟨mem, cur, logged, [], [], 1, nlog, evict⟩ := by
    unfold Kern.beginOp
    rw [Free.exec_call]
    simp only [Fs.run, Store.beginOp, if_neg hroom]
    rfl
  rw [Free.exec_seq hbegin]
  rfl

theorem Inside.untouched {t : Holders} (h : Inside p sb fs.node t fs) (h' : Inside p sb fs.node t fs')
    (hi : t.Idle) (hout : fs'.st.outstanding = fs.st.outstanding) : Untouched fs fs' := by
  have href : ∀ {fs₁ : Fs} ip, Inside p sb fs.node t fs₁ → (fs₁.mem.inode ip).ref = (t.count ip : Int) := by
    rintro fs₁ ip ⟨ino, hw⟩
    exact (hw.mem.slot ip).ref
  refine ⟨h'.eq_node.symm, hout, fun ip hne => ?_, fun ip => (href ip h').trans (href ip h).symm,
    h'.file.trans h.file.symm, (h'.proc hi.moving).trans (h.proc hi.moving).symm⟩
  rw [href ip h, Holders.count, hi.refs] at hne
  have hheld : 0 < t.held ip := by
    simp only [List.countP_nil, Nat.add_zero] at hne
    omega
  have hn : t.Names ip (t.base ip) := .inr (.inr ⟨hheld, rfl⟩)
  exact (h'.entry_of hn).2.1.trans (h.entry_of hn).2.1.symm

/-- A chmod() that has found a file returns 0. -/
theorem chmod_found_ok {ip : InodePtr} {f : Dinode → Dinode} {r : Int} (he : (do
      Kern.ilock ip
      Kern.setCopy ip f
      Kern.iupdate ip
      Kern.iunlock ip
      Kern.finish 0 : KernM Int).exec (Fs.run p) fs = .ok r fs') : r = 0 := by
  obtain ⟨_, _, -, he⟩ := Free.exec_bind_ok he
  obtain ⟨_, _, -, he⟩ := Free.exec_bind_ok he
  obtain ⟨_, _, -, he⟩ := Free.exec_bind_ok he
  obtain ⟨_, _, -, he⟩ := Free.exec_bind_ok he
  cases he
  rfl

/-- A chmod() whose path cannot be fetched goes on with what the buffer held. -/
theorem BetweenCalls.chmod_residue (hb : BetweenCalls fs) (h : Healthy sb fs) (hsb : sb.Ok)
    (path : List UInt8) (mode : Int) :
    fs.rejects ⟨p, .chmod (.bad path) mode, evict⟩ ↔ fs.unnamed p evict path := by
  obtain ⟨t, hi, hin⟩ := h
  have hin₀ : Inside p sb fs.node t { fs with st := { fs.st with evict := evict } } :=
    (hin p).same ⟨rfl, rfl⟩
  constructor
  · rintro ⟨fs', he, -⟩
    obtain ⟨_, fs₁, hbegin, he⟩ := Free.exec_bind_ok he
    obtain ⟨r, fs₂, hname, he⟩ := Free.exec_bind_ok he
    cases r with
    | none => exact ⟨fs₂, (Free.exec_seq hbegin).trans hname⟩
    | some ip => exact absurd (chmod_found_ok he) (by decide)
  · rintro ⟨fs₁, hname⟩
    have hspec : (Kern.chmodName path).Ensures (Fs.run p) (fun _ => True) (fun r fs' => r = none →
        Inside p sb fs.node t fs') { fs with st := { fs.st with evict := evict } } := by
      unfold Kern.chmodName
      rw [Free.ensures_bind]
      apply ensures_beginOp
      intro st hs
      refine (namei_spec (fun _ _ _ _ _ => trivial) hsb (.inl trivial) (hin₀.same hs) hi.toCalm path).mono ?_
      rintro (_ | ip) fs' h' hr
      · exact h'.2
      · cases hr
    have h₁ : Inside p sb fs.node t fs₁ := hspec.ok_of_exec hname rfl
    have he : fs.exec ⟨p, .chmod (.bad path) mode, evict⟩ =
        .ok (-1) { fs₁ with st := fs₁.st.endOp } := by
      obtain ⟨_, fs₂, hbegin, hname⟩ := Free.exec_bind_ok hname
      change (Kern.sysChmod (.bad path) mode).exec (Fs.run p) _ = _
      exact (Free.exec_seq hbegin).trans (Free.exec_seq hname)
    refine ⟨_, he, (hin p).untouched (h₁.same ⟨rfl, rfl⟩) hi ?_⟩
    exact (hb.exec he).outstanding.trans hb.outstanding.symm

theorem betweenCalls_of_chmodFails (hr : Reaches Fs.stepChmodFails (Fs.boot sb disk) fs) : BetweenCalls fs := by
  refine hr.invariant (boot_betweenCalls sb disk) (fun fs e fs' hb he => ?_)
  unfold Fs.stepChmodFails at he
  split at he
  · split at he
    · rename_i hex
      split at he
      · cases he
      · cases he
        exact hb.exec hex
    · cases he
  · cases he

/-- Up to the first chmod() that returns 0, a call with a path that cannot be fetched returns -1 and
changes nothing if and only if it is not a chmod() for which the path buffer held the name of a file. -/
theorem bad_path_rejected_iff (h : WellFormed sb disk) (hr : Reaches Fs.stepChmodFails (Fs.boot sb disk) fs)
    {c : PathCall} (hc : c.Faults um) : fs.rejects ⟨p, c.fetch um stack, evict⟩ ↔
      ∀ path mode, c = .chmod path mode → fs.unnamed p evict (residue um path (stack 0)) := by
  have hb := betweenCalls_of_chmodFails hr
  obtain ⟨path, hmem, hbad⟩ := hc
  have hone : ∀ {q : Nat}, path ∈ [q] → (copyinstr um q MAXPATH).2 = false := by
    intro q hq
    obtain rfl := List.mem_singleton.mp hq
    exact hbad
  cases c with
  | chmod q mode =>
    rw [PathCall.fetch, argstr_bad (hone hmem), hb.chmod_residue (healthy_of_chmodFails h hr) h.super]
    constructor
    · intro hn path mode he
      cases he
      exact hn
    · exact fun hn => hn q mode rfl
  | link old new =>
    refine ⟨fun _ _ _ he => (by cases he), fun _ => rejects_at_once ?_⟩
    have hm : path = old ∨ path = new := by simpa [PathCall.paths] using hmem
    rcases hm with rfl | rfl
    · rw [PathCall.fetch, argstr_bad hbad]
      rfl
    · rw [PathCall.fetch, argstr_bad hbad]
      cases argstr um old MAXPATH (stack 0) <;> rfl
  | openFile q omode =>
    refine ⟨fun _ _ _ he => (by cases he), fun _ => rejects_at_once ?_⟩
    rw [PathCall.fetch, argstr_bad (hone hmem)]
    rfl
  | unlink q =>
    refine ⟨fun _ _ _ he => (by cases he), fun _ => rejects_at_once ?_⟩
    rw [PathCall.fetch, argstr_bad (hone hmem)]
    rfl
  | exec q reads result =>
    refine ⟨fun _ _ _ he => (by cases he), fun _ => rejects_at_once ?_⟩
    rw [PathCall.fetch, argstr_bad (hone hmem)]
    rfl
  | mkdir q =>
    refine ⟨fun _ _ _ he => (by cases he), fun _ => hb.rejects_in_op ?_⟩
    rw [PathCall.fetch, argstr_bad (hone hmem)]
    rfl
  | mknod q major minor =>
    refine ⟨fun _ _ _ he => (by cases he), fun _ => hb.rejects_in_op ?_⟩
    rw [PathCall.fetch, argstr_bad (hone hmem)]
    rfl
  | chdir q =>
    refine ⟨fun _ _ _ he => (by cases he), fun _ => hb.rejects_in_op ?_⟩
    rw [PathCall.fetch, argstr_bad (hone hmem)]
    rfl

/-- mkdir() of a path in no page. -/
theorem bad_path_rejected_mkdir :
    (Fs.boot mkfsSb fileImage).rejects ⟨0, (PathCall.mkdir 4096).fetch (fun _ => none) (fun _ => [47, 103, 0]), []⟩ :=
  (bad_path_rejected_iff fileImage_wellFormed .start ⟨4096, List.mem_singleton.mpr rfl, rfl⟩).mpr nofun

set_option maxRecDepth 100000 in
/-- chmod() of a path in no page changes /f if the path buffer held that name. -/
theorem chmod_takes_residue : (PathCall.chmod 4096 0o644).Faults (fun _ => none) ∧
    ∃ fs', (Fs.boot mkfsSb fileImage).exec
      ⟨0, (PathCall.chmod 4096 0o644).fetch (fun _ => none) (fun _ => [47, 102, 0]), []⟩ = .ok 0 fs' ∧
      ((Fs.boot mkfsSb fileImage).node 2).type = T_FILE ∧ (fs'.node 2).type = 0o644 := by
  refine ⟨⟨4096, List.mem_singleton.mpr rfl, rfl⟩, ?_⟩
  have hrun : ((Fs.boot mkfsSb fileImage).answer
      ⟨0, (PathCall.chmod 4096 0o644).fetch (fun _ => none) (fun _ => [47, 102, 0]), []⟩).any
      (fun a => decide (a.1 = 0 ∧ (a.2.node 2).type = 0o644)) = true := by
    decide +kernel
  obtain ⟨⟨r, fs'⟩, ha, hp⟩ := (Option.any_eq_true _ _).mp hrun
  obtain ⟨hr, ht⟩ := of_decide_eq_true hp
  have he := Fs.answer_some ha
  obtain rfl : r = 0 := hr
  have hf : ((Fs.boot mkfsSb fileImage).node 2).type = T_FILE := by
    rw [Fs.boot_node]
    exact fileImage_file_type
  exact ⟨fs', he, hf, ht⟩

end Xv6
