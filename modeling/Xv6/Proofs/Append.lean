import Xv6.Proofs.Healthy
import Xv6.Proofs.Redirs
import Xv6.Proofs.Sending

namespace Xv6
variable {p : ProcId} {sb : Superblock} {N : Nat → Node} {t : Holders} {fs : Fs} {ip : InodePtr} {i d : Nat}

/- Where a path leads, by its last element. -/

theorem walk_last {fuel : Nat} {path name last : List UInt8} (hf : path.length < fuel) (h : walk N true fuel i path name = some (d, last)) :
    (walk N false fuel i path name).map Prod.fst = ((N d).find last).map (fun s => ((N d).entry s).inum) := by
  induction fuel generalizing i path name with
  | zero => cases h
  | succ fuel ih =>
    unfold walk at h ⊢
    cases hsk : skipelem path with
    | none => simp [hsk] at h
    | some e =>
      obtain ⟨elem, rest⟩ := e
      have hlen := skipelem_length hsk
      simp only [hsk] at h ⊢
      by_cases hd : (N i).type = T_DIR
      · simp only [hd, ne_eq, not_true_eq_false, if_false, true_and, Bool.false_eq_true, false_and] at h ⊢
        by_cases hrest : rest = []
        · subst hrest
          simp only [if_true, Option.some.injEq, Prod.mk.injEq] at h
          obtain ⟨rfl, rfl⟩ := h
          cases (N i).find elem with
          | none => rfl
          | some s =>
            obtain ⟨fuel, rfl⟩ : ∃ k, fuel = k + 1 := ⟨fuel - 1, by simp at hlen; omega⟩
            rfl
        · simp only [hrest, if_false] at h
          cases hfind : (N i).find elem with
          | none => simp [hfind] at h
          | some s =>
            simp only [hfind] at h ⊢
            exact ih (by omega) h
      · simp [hd] at h

theorem resolve_last {path name : List UInt8} (h : resolveParent N (t.start p path) path = some (d, name)) :
    resolve N (t.cwd p) path = ((N d).find name).map (fun s => ((N d).entry s).inum) :=
  walk_last (Nat.lt_succ_self _) h

/- open(). -/

/-- A program of which nothing is said. -/
theorem ensures_any {α : Type} (m : KernM α) : m.Ensures (Fs.run p) (fun _ => True) (fun _ _ => True) fs := by
  induction m generalizing fs with
  | ret a => trivial
  | cmd c k ih =>
    rw [Free.ensures_cmd]
    cases Fs.run p _ c fs with
    | ok b u => exact ih b
    | wait => trivial
    | fail e => trivial

/-- The bytes of a file that is not a directory, by its node. -/
theorem Fs.bytes_node (hd : (fs.node i).type ≠ T_DIR) : fs.bytes i = (List.range (fs.node i).size).map (fs.node i).data := by
  have hnode : fs.node i = (dinodes fs.mem.sb fs.st.cur i).node fs.st.cur := rfl
  rw [hnode] at hd ⊢
  rw [Fs.bytes]
  generalize dinodes fs.mem.sb fs.st.cur i = e at hd ⊢
  by_cases hz : e.type = 0
  · simp [Dinode.bytes, Dinode.node, hz, Node.free]
  · simp only [Dinode.node, hz, if_false] at hd ⊢
    rw [Dinode.bytes, if_neg hz]
    refine List.map_congr_left fun o ho => ?_
    rw [if_pos ⟨hd, List.mem_range.mp ho⟩]

/-- A locked inode, of which nothing has been sent to the file. -/
theorem Inside.sent (h : Inside p sb N t fs) (hl : (ip, i) ∈ t.locked) : Sent sb ip i (N i).size [] fs ∧ (fs.mem.inode ip).valid = true := by
  have hr := h.reads hl
  obtain ⟨ino, h⟩ := h
  obtain ⟨-, hv, ht⟩ := h.locked hl
  have hsize : (ino i).size = (N i).size := by rw [h.node i, node_live ht]
  have hseat : Seated sb ino ip i fs := ⟨h.mem.super, hr.inum, copy_eq h hl, ht, h.disk⟩
  refine ⟨⟨ino, hseat, by simp [hsize], fun bn hbn => ?_, fun bn hbn => ?_, fun o ho => ?_⟩, hv⟩
  · exact absurd hbn (by simp)
  · exact absurd hbn (by simp)
  · exact absurd ho (by simp)

/-- open() for writing, without O_TRUNC, has opened inode `i` at offset 0. -/
def OpenedFor (p : ProcId) (sb : Superblock) (i c : Nat) (r : Int) (fs : Fs) : Prop :=
  ∃ (fd : Fd) (f : FilePtr) (ip : InodePtr), r = fd.val ∧ Output p fd f ip 0 fs.mem ∧ Sent sb ip i c [] fs

/-- The end of open(), with `g` what it fills in. -/
theorem opened_for {fd : Fd} {f : FilePtr} {c : Nat} {st : Store} {g : File} (hof : (fs.mem.proc p).bind (fun pr => pr.ofile fd) = some f)
    (hsent : Sent sb ip i c [] fs) (hvalid : (fs.mem.inode ip).valid = true) (hst : fs.st.Same st) (htype : g.type = .inode) (hip : g.ip = ip)
    (hw : g.writable = true) (hoff : g.off = 0) :
    OpenedFor p sb i c fd.val ⟨{ fs.mem with file := setAt fs.mem.file f g }.setInode ip (fun i => { i with lock := none }), st⟩ := by
  have hg : setAt fs.mem.file f g f = g := setAt_same _ _ _
  have hout : Output p fd f ip 0 { fs.mem with file := setAt fs.mem.file f g } :=
    ⟨hof, (congrArg File.type hg).trans htype, (congrArg File.ip hg).trans hip, (congrArg File.writable hg).trans hw,
      (congrArg File.off hg).trans hoff, hvalid⟩
  have hfile : Sent sb ip i c [] { fs with mem := { fs.mem with file := setAt fs.mem.file f g } } := hsent.setMem rfl rfl rfl
  exact ⟨fd, f, ip, rfl, hout.setLock none, (hfile.setLock none).same hst⟩

theorem openFile_for (hi : t.Idle) (h : Inside p sb N ((t.take ip i).lock ip i) fs) (hfile : (N i).type = T_FILE) {omode : Nat}
    (hw : omode &&& O_WRONLY ≠ 0) (htr : omode &&& O_TRUNC = 0) :
    (Kern.openFile ip omode).Ensures (Fs.run p) (fun _ => True) (fun r fs' => 0 ≤ r → OpenedFor p sb i (N i).size r fs' ∧ fs'.node = N) fs := by
  have hr := h.reads List.mem_cons_self
  have hbad : ∀ fs₁, (do
      Kern.iunlockput ip
      Kern.finish (-1) : KernM Int).Ensures (Fs.run p) (fun _ => True)
        (fun r fs' => 0 ≤ r → OpenedFor p sb i (N i).size r fs' ∧ fs'.node = N) fs₁ := by
    intro fs₁
    refine Free.Ensures.seq (ensures_any _) fun _ fs₂ _ => ?_
    unfold Kern.finish
    refine Free.Ensures.seq (ensures_any _) fun _ fs₃ _ hneg => ?_
    exact absurd hneg (by decide)
  unfold Kern.openFile Kern.inodeOf
  rw [Free.ensures_bind, ensures_get, hr.type, hfile, if_neg fun hdev => absurd hdev.1 (by decide)]
  refine Free.Ensures.seq (filealloc_spec h) ?_
  rintro (_ | f) fs₁ h₁
  · exact hbad fs₁
  · refine Free.Ensures.seq (fdalloc_opens h₁.2.2 hi.moving f) ?_
    rintro (_ | fd) fs₂ h₂
    · exact Free.Ensures.seq (ensures_any _) fun _ fs₃ _ => hbad fs₃
    · obtain ⟨pr, hpr, h₂⟩ := h₂
      obtain ⟨hsent, hvalid⟩ := h₂.sent (show (ip, i) ∈ _ from List.mem_cons_self)
      have hproc : fs₂.mem.proc p = pr := by
        rw [h₂.proc hi.moving]
        exact setAt_same _ _ _
      have hnode := h₂.eq_node
      unfold Kern.setFile
      rw [Free.ensures_bind, ensures_update, Free.ensures_bind]
      refine ensures_when (fun htrue => absurd htr htrue.1) fun _ => ?_
      rw [Free.ensures_bind]
      refine ensures_iunlock ?_
      unfold Kern.finish
      rw [Free.ensures_bind]
      refine ensures_endOp fun st hst _ => ?_
      have hof : (fs₂.mem.proc p).bind (fun pr => pr.ofile fd) = some f := by rw [hproc, hpr]
      refine ⟨opened_for hof hsent hvalid hst rfl rfl (decide_eq_true (.inl hw)) rfl, ?_⟩
      rw [hnode]
      show nodes fs₂.mem.sb st.cur = nodes fs₂.mem.sb fs₂.st.cur
      rw [show st.cur = fs₂.st.cur from hst.cur]

/-- open() as the shell does it for '>>': it has found a file, or made one. -/
theorem sysOpen_for (hsb : sb.Ok) (hi : t.Idle) (h : Inside p sb N t fs) (path : List UInt8) :
    (Kern.sysOpen (.str path) Sh.Dir.append.mode).Ensures (Fs.run p) (fun _ => True) (fun r fs' => 0 ≤ r →
      (∃ i, resolve N (t.cwd p) path = some i ∧ ((N i).type = T_FILE → OpenedFor p sb i (N i).size r fs' ∧ fs'.node = N)) ∨
      (resolve N (t.cwd p) path = none ∧ ∃ i N', Made p N t path T_FILE 0 0 i N' ∧ OpenedFor p sb i 0 r fs')) fs := by
  unfold Kern.sysOpen
  dsimp only
  rw [Free.ensures_bind]
  refine ensures_beginOp fun st₀ hs₀ => ?_
  rw [if_pos (by decide)]
  refine Free.Ensures.seq (create_at (fun _ _ _ _ _ => trivial) hsb (.inl trivial) hi.toCalm hi.refs (h.same hs₀) path (.inr (.inl rfl)) 0 0) ?_
  rintro (_ | ip) fs₁ h₁
  · unfold Kern.finish
    refine Free.Ensures.seq (ensures_any _) fun _ fs₂ _ hneg => ?_
    exact absurd hneg (by decide)
  · obtain ⟨d, name, hpath, hcase⟩ := h₁
    have hres := resolve_last hpath
    rcases hcase with ⟨s, i, hf, hinum, -, -, h₁⟩ | ⟨hf, h₁⟩
    · rw [hf, Option.map_some, hinum] at hres
      by_cases hfile : (N i).type = T_FILE
      · refine (openFile_for hi h₁ hfile (by decide) (by decide)).mono fun r fs' hr h0 => .inl ⟨i, hres, fun _ => hr h0⟩
      · exact (ensures_any _).mono fun r fs' _ _ => .inl ⟨i, hres, fun hc => absurd hc hfile⟩
    · rw [hf, Option.map_none] at hres
      obtain ⟨d', s, i, name', N', hpath', hm, hfrees, hstay, h₁⟩ := h₁
      have hmade : Made p N t path T_FILE 0 0 i N' := ⟨d', s, name', hpath', hm, hfrees, hstay⟩
      obtain ⟨e, hnode⟩ := hmade.node
      have hnew : N' i = .made T_FILE (toShort 0) (toShort 0) := hnode
      have hfile : (N' i).type = T_FILE := by
        rw [hnew]
        rfl
      refine (openFile_for hi h₁ hfile (by decide) (by decide)).mono fun r fs' hr h0 => .inr ⟨hres, i, N', hmade, ?_⟩
      have hsize : (N' i).size = 0 := by
        rw [hnew]
        rfl
      rw [← hsize]
      exact (hr h0).1

/-- A program whose output goes to a file, as the shell has opened it. The answer is whether open() and all the writes have
succeeded. -/
def Kern.redirected (path : List UInt8) (mode : Nat) (ws : List Write) : KernM Bool := do
  let fd ← sysOpen (.str path) mode
  if fd < 0 then return false else writeAll fd ws

/-- Writes of no bytes do nothing. -/
theorem writeAll_nothing {ws : List Write} {fd : Fd} {f : FilePtr} {off : Nat} (hnil : ws.flatMap Write.data = [])
    (ho : Output p fd f ip off fs.mem) :
    (Kern.writeAll fd.val ws).Ensures (Fs.run p) (fun _ => True) (fun _ fs' => fs' = fs) fs := by
  induction ws with
  | nil => rfl
  | cons w ws ih =>
    rw [List.flatMap_cons, List.append_eq_nil_iff] at hnil
    have hfd : 0 ≤ (fd.val : Int) ∧ (fd.val : Int).toNat < NOFILE := ⟨by omega, by simp⟩
    unfold Kern.writeAll Kern.sysWrite Kern.argfd
    rw [Free.ensures_bind, Free.ensures_bind, ensures_mem, dif_pos hfd, Out.sat_ok, hnil.1]
    simp only [Int.toNat_natCast, Fin.eta, ho.ofile, Option.map_some]
    unfold Kern.filewrite Kern.fileOf
    rw [Free.ensures_bind, ensures_get, ho.writable, ho.type, if_neg (by decide)]
    exact ih hnil.2

/-- '>>' opens the file at offset 0 and does not truncate it: the output ends up behind the old content iff one of them is empty.
A file that was not there has just the output. -/
theorem append_exact_iff {fs' : Fs} (hsb : sb.Ok) (hi : t.Idle) (h : Inside p sb fs.node t fs) {path : List UInt8} {ws : List Write}
    (hsrc : ∀ w ∈ ws, (Src.user w.um w.addr).Gives w.data) (hmax : (ws.flatMap Write.data).length ≤ MAXFILE * BSIZE)
    (hrun : (Kern.redirected path Sh.Dir.append.mode ws).exec (Fs.run p) fs = .ok true fs') :
    (∀ i, resolve fs.node (t.cwd p) path = some i → (fs.node i).type = T_FILE →
      (fs'.bytes i = fs.bytes i ++ ws.flatMap Write.data ↔ fs.bytes i = [] ∨ ws.flatMap Write.data = [])) ∧
    (resolve fs.node (t.cwd p) path = none → ∃ i N', Made p fs.node t path T_FILE 0 0 i N' ∧ fs'.bytes i = ws.flatMap Write.data) := by
  obtain ⟨r, fs₁, hopen, hwrites⟩ := Free.exec_bind_ok hrun
  have hr : 0 ≤ r := by
    by_contra hneg
    rw [if_pos (by omega)] at hwrites
    cases hwrites
  rw [if_neg (by omega)] at hwrites
  have hdone := (sysOpen_for hsb hi h path).ok_of_exec hopen hr
  have hsend : ∀ {i c}, OpenedFor p sb i c r fs₁ → (fs'.bytes i).length = max c (ws.flatMap Write.data).length ∧
      (fs'.bytes i).take (ws.flatMap Write.data).length = ws.flatMap Write.data := by
    rintro i c ⟨fd, f, ip, rfl, hout, hsent⟩
    exact ((writeAll_sends hsb hsrc (by simpa using hmax) hout hsent).ok_of_exec hwrites rfl).bytes
  refine ⟨fun i hres htype => ?_, fun hres => ?_⟩
  · obtain ⟨hopened, hnode⟩ : OpenedFor p sb i (fs.node i).size r fs₁ ∧ fs₁.node = fs.node := by
      rcases hdone with ⟨j, hj, himp⟩ | ⟨hnone, -⟩
      · cases hres.symm.trans hj
        exact himp htype
      · rw [hres] at hnone
        cases hnone
    obtain ⟨hlen, htake⟩ := hsend hopened
    have hdir : (fs.node i).type ≠ T_DIR := by
      rw [htype]
      decide
    have hold : (fs.bytes i).length = (fs.node i).size := by simp [Fs.bytes_node hdir]
    constructor
    · intro heq
      rw [heq, List.length_append, hold] at hlen
      rw [← List.length_eq_zero_iff, ← List.length_eq_zero_iff, hold]
      omega
    · rintro (hnil | hnil)
      · rw [hnil, List.nil_append]
        rw [← hold, hnil, List.length_nil, Nat.zero_max] at hlen
        rwa [← hlen, List.take_length] at htake
      · obtain ⟨fd, f, ip, rfl, hout, -⟩ := hopened
        obtain rfl := (writeAll_nothing hnil hout).ok_of_exec hwrites
        rw [hnil, List.append_nil, Fs.bytes_node hdir, Fs.bytes_node (hnode ▸ hdir), hnode]
  · rcases hdone with ⟨j, hj, -⟩ | ⟨-, i, N', hmade, hopened⟩
    · rw [hres] at hj
      cases hj
    · obtain ⟨hlen, htake⟩ := hsend hopened
      refine ⟨i, N', hmade, ?_⟩
      rw [Nat.zero_max] at hlen
      rwa [← hlen, List.take_length] at htake

/-- A write of one byte, from a page of zeros. -/
def oneByte : Write := ⟨fun _ => some .zero, 0, [0]⟩

theorem oneByte_gives : (Src.user oneByte.um oneByte.addr).Gives oneByte.data := by
  intro tot m hm
  have hlen : tot + m ≤ 1 := hm
  obtain rfl | rfl : m = 0 ∨ m = 1 := by omega
  · simp [Src.copyin, copyin]
  · obtain rfl : tot = 0 := by omega
    decide +kernel

set_option maxRecDepth 100000 in
theorem oneByte_run : ((Kern.redirected [47, 102] Sh.Dir.append.mode [oneByte]).exec (Fs.run 0) (Fs.boot mkfsSb fileImage)).check
    (fun r fs' => r && decide (resolve (Fs.boot mkfsSb fileImage).node ROOTINO [47, 102] = some 2 ∧
      ((Fs.boot mkfsSb fileImage).node 2).type = T_FILE ∧ ((Fs.boot mkfsSb fileImage).bytes 2).length = 8 ∧
      (fs'.bytes 2).length = 8)) = true := by
  decide +kernel

/-- One byte appended to the file /f of eight bytes takes the place of its first byte. -/
theorem append_overwrites : ∃ fs', (Kern.redirected [47, 102] Sh.Dir.append.mode [oneByte]).exec (Fs.run 0)
      (Fs.boot mkfsSb fileImage) = .ok true fs' ∧ resolve (Fs.boot mkfsSb fileImage).node ROOTINO [47, 102] = some 2 ∧
    ((Fs.boot mkfsSb fileImage).node 2).type = T_FILE ∧
    fs'.bytes 2 ≠ (Fs.boot mkfsSb fileImage).bytes 2 ++ [oneByte].flatMap Write.data := by
  obtain ⟨r, fs', hrun, hgot⟩ := Out.check_iff.mp oneByte_run
  simp only [Bool.and_eq_true, decide_eq_true_eq] at hgot
  obtain ⟨rfl, hres, htype, hold, hnew⟩ := hgot
  refine ⟨fs', hrun, hres, htype, fun heq => ?_⟩
  have hlen := congrArg List.length heq
  rw [List.length_append, hold, hnew] at hlen
  cases hlen

theorem append_exact_one_byte : ∃ fs', (Kern.redirected [47, 102] Sh.Dir.append.mode [oneByte]).exec (Fs.run 0)
      (Fs.boot mkfsSb fileImage) = .ok true fs' ∧
    (fs'.bytes 2 = (Fs.boot mkfsSb fileImage).bytes 2 ++ [oneByte].flatMap Write.data ↔
      (Fs.boot mkfsSb fileImage).bytes 2 = [] ∨ [oneByte].flatMap Write.data = []) := by
  obtain ⟨t, hi, hin⟩ := fileImage_wellFormed.healthy
  obtain ⟨r, fs', hrun, hgot⟩ := Out.check_iff.mp oneByte_run
  simp only [Bool.and_eq_true, decide_eq_true_eq] at hgot
  obtain ⟨rfl, hres, htype, -⟩ := hgot
  have hsrc : ∀ w ∈ [oneByte], (Src.user w.um w.addr).Gives w.data := by
    simpa using oneByte_gives
  exact ⟨fs', hrun, (append_exact_iff fileImage_wellFormed.super hi (hin 0) hsrc (by decide) hrun).1 2 hres htype⟩

end Xv6
