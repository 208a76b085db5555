import Xv6.Image
import Xv6.Store

namespace Xv6

/-- The int a user program makes of what a system call leaves in a0. -/
def userInt (r : Int) : Int := (r + 2 ^ 31) % 2 ^ 32 - 2 ^ 31

/-- What lseek() counts from: the start of the file, the position or the end. -/
def seekBase (whence : Int) (off size : Nat) : Option Int :=
  if whence = 0 then some 0 else if whence = 1 then some off else if whence = 2 then some size else none

/-- Either the caller gets -1 and the position stays, or the position is the sum and the caller gets it. -/
def SeeksExactly (base : Option Int) (offset : Int) (off off' : Nat) (r : Int) : Prop :=
  (userInt r = -1 ∧ off' = off) ∨
    ∃ b, base = some b ∧ 0 ≤ b + offset ∧ (off' : Int) = b + offset ∧ userInt r = b + offset

/-- The file can be positioned: sys_lseek() wants it open for reading and for writing. -/
def File.seekable (f : File) : Bool := f.writable && f.readable

/-- The int that stands for the sum is the sum, or it is -1 and the position is already there. -/
def SumFits (base offset : Int) (off : Nat) : Prop :=
  (0 ≤ base + offset ∧ base + offset < 2 ^ 31) ∨ (toUint (base + offset) = 2 ^ 32 - 1 ∧ off = 2 ^ 32 - 1)

variable {p : ProcId} {fs : Fs}

theorem userInt_toUint (x : Int) : userInt (toUint x) = (x + 2 ^ 31) % 2 ^ 32 - 2 ^ 31 := by
  have : ((toUint x : Nat) : Int) = x % 2 ^ 32 := Int.toNat_of_nonneg (Int.emod_nonneg _ (by decide))
  rw [userInt, this]
  omega

theorem fd_lt {fd : Int} (h : 0 ≤ fd ∧ fd.toNat < NOFILE) : fd.toNat < NOFILE := h.2

/-- Open file `f` of the process at `fd`. -/
def Mem.ofile (m : Mem) (p : ProcId) (fd : Int) : Option FilePtr :=
  if h : 0 ≤ fd ∧ fd.toNat < NOFILE then (m.proc p).bind (fun pr => pr.ofile ⟨fd.toNat, fd_lt h⟩) else none

theorem exec_argfd {fd : Int} {f : FilePtr} (hf : fs.mem.ofile p fd = some f) :
    ∃ d, (Kern.argfd fd).exec (Fs.run p) fs = .ok (some (d, f)) fs := by
  unfold Mem.ofile at hf
  split at hf
  · rename_i h
    refine ⟨⟨fd.toNat, h.2⟩, ?_⟩
    rw [Kern.argfd, Free.exec_call]
    simp only [Fs.run, dif_pos h, hf]
    rfl
  · cases hf

/-- What sys_lseek() answers and where the position is then. -/
theorem exec_sysLseek {fd : Int} (offset whence : Int) {f : FilePtr} (hf : fs.mem.ofile p fd = some f)
    (ht : (fs.mem.file f).type = .inode) : ∃ r fs', (Kern.sysLseek fd offset whence).exec (Fs.run p) fs = .ok r fs' ∧
      match (fs.mem.file f).seekable,
        seekBase whence (fs.mem.file f).off (fs.mem.inode (fs.mem.file f).ip).copy.size with
      | true, some b => r = toUint (b + offset) ∧ (fs'.mem.file f).off = toUint (b + offset)
      | _, _ => r = -1 ∧ fs' = fs := by
  obtain ⟨d, he⟩ := exec_argfd hf
  have hfile : (Kern.fileOf f).exec (Fs.run p) fs = .ok (fs.mem.file f) fs := rfl
  have hino : (Kern.inodeOf (fs.mem.file f).ip).exec (Fs.run p) fs = .ok (fs.mem.inode (fs.mem.file f).ip) fs := rfl
  unfold Kern.sysLseek
  rw [Free.exec_seq he]
  dsimp only
  rw [Free.exec_seq hfile]
  cases hs : (fs.mem.file f).seekable with
  | false =>
    rw [File.seekable, Bool.and_eq_false_iff] at hs
    rw [if_pos (.inr hs)]
    exact ⟨-1, fs, rfl, rfl, rfl⟩
  | true =>
    have hc : ¬ ((fs.mem.file f).type ≠ .inode ∨ (fs.mem.file f).writable = false ∨
        (fs.mem.file f).readable = false) := by
      simpa [File.seekable, ht] using hs
    rw [if_neg hc, Free.exec_seq hino, ← seekBase]
    cases seekBase whence (fs.mem.file f).off (fs.mem.inode (fs.mem.file f).ip).copy.size with
    | none => exact ⟨-1, fs, rfl, rfl, rfl⟩
    | some b => exact ⟨_, _, rfl, rfl, by simp [Mem.setFile]⟩

/-- lseek() on an open file does what its callers take it to do if and only if the sum, where one is taken, is one that
an int can stand for. -/
theorem lseek_exact_iff {fd offset whence : Int} {f : FilePtr} (hf : fs.mem.ofile p fd = some f)
    (ht : (fs.mem.file f).type = .inode) : ∃ r fs', (Kern.sysLseek fd offset whence).exec (Fs.run p) fs = .ok r fs' ∧
      (SeeksExactly (seekBase whence (fs.mem.file f).off (fs.mem.inode (fs.mem.file f).ip).copy.size) offset
        (fs.mem.file f).off (fs'.mem.file f).off r ↔
      ∀ b, (fs.mem.file f).seekable = true →
        seekBase whence (fs.mem.file f).off (fs.mem.inode (fs.mem.file f).ip).copy.size = some b →
        SumFits b offset (fs.mem.file f).off) := by
  obtain ⟨r, fs', he, hr⟩ := exec_sysLseek offset whence hf ht
  refine ⟨r, fs', he, ?_⟩
  generalize seekBase whence (fs.mem.file f).off (fs.mem.inode (fs.mem.file f).ip).copy.size = base at *
  cases hs : (fs.mem.file f).seekable with
  | false =>
    rw [hs] at hr
    obtain ⟨rfl, rfl⟩ := hr
    simp [SeeksExactly, userInt]
  | true =>
    cases base with
    | none =>
      rw [hs] at hr
      obtain ⟨rfl, rfl⟩ := hr
      simp [SeeksExactly, userInt]
    | some b =>
      rw [hs] at hr
      obtain ⟨rfl, hoff⟩ := hr
      have hu : ((toUint (b + offset) : Nat) : Int) = (b + offset) % 2 ^ 32 :=
        Int.toNat_of_nonneg (Int.emod_nonneg _ (by decide))
      simp only [SeeksExactly, SumFits, hoff, userInt_toUint, Option.some.injEq, forall_eq', exists_eq_left', true_implies]
      omega

/-- A file open for reading and writing at position 5, as descriptor 0 of the first process. -/
def atFive : Fs :=
  let fs := Fs.boot mkfsSb fileImage
  let mem := fs.mem.setFile 0 (fun _ => ⟨.inode, 1, true, true, 0, 5, 0⟩)
  { fs with mem := mem.setProc 0 (fun pr => { pr with ofile := setAt pr.ofile 0 (some 0) }) }

/-- lseek(0, 3, SEEK_CUR). -/
theorem lseek_forward : ∃ r fs', (Kern.sysLseek 0 3 1).exec (Fs.run 0) atFive = .ok r fs' ∧
    SeeksExactly (some 5) 3 5 (fs'.mem.file 0).off r := by
  obtain ⟨r, fs', he, hiff⟩ := @lseek_exact_iff 0 atFive 0 3 1 0 (by decide) (by decide)
  refine ⟨r, fs', he, hiff.mpr fun b _ hb => ?_⟩
  obtain rfl : (5 : Int) = b := Option.some.inj hb
  exact .inl (by decide)

/-- lseek(0, -1, SEEK_SET) gives the caller -1 and moves the position to 2^32 - 1. -/
theorem lseek_before_start : ∃ fs', (Kern.sysLseek 0 (-1) 0).exec (Fs.run 0) atFive = .ok 4294967295 fs' ∧
    userInt 4294967295 = -1 ∧ (atFive.mem.file 0).off = 5 ∧ (fs'.mem.file 0).off = 4294967295 :=
  ⟨_, rfl, by decide, rfl, rfl⟩

end Xv6
