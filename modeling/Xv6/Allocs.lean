import Xv6.Store

namespace Xv6

namespace Kern

/-- What balloc() does while it has one bitmap block locked: it looks for a free block and marks it. -/
def ballocBlock (sb : Superblock) (b : Nat) : KernM (Option Nat) := do
  let bp ← bread (sb.bblock b)
  let d ← bdata bp
  match firstFrom (fun bi => decide (b + bi < sb.size) && bitClear d bi) BPB 0 with
  | some bi =>
    bmodify bp (setBit d bi)
    logWrite bp
    brelse bp
    return some (b + bi)
  | none =>
    brelse bp
    return none

/-- balloc() is made of these steps and bzero(). -/
theorem ballocFrom_succ (sb : Superblock) (fuel b : Nat) : ballocFrom sb (fuel + 1) b =
    if b < sb.size then (do
      match ← ballocBlock sb b with
      | some r =>
        bzero r
        return r
      | none => ballocFrom sb fuel (b + BPB))
    else return 0 := by
  rw [ballocFrom]
  split
  · apply congrArg (Free.cmd (Cmd.bread (sb.bblock b)))
    funext _
    apply congrArg (Free.cmd (Cmd.data (sb.bblock b)))
    funext d
    simp only [Free.bind]
    cases firstFrom (fun bi => decide (b + bi < sb.size) && bitClear d bi) BPB 0 <;> rfl
  · rfl

end Kern

/- Processes that call balloc() and bfree() at the same time. -/

namespace Allocs

/-- Where a process is in balloc(): at a bitmap block, or at bzero() of the block it has marked. -/
inductive Stage where
  | idle
  | scan (b : Nat)
  | zero (r : Nat)

inductive Event where
  | returned (r : Nat)
  | freed (b : Nat)

/-- `hist` is ghost: the blocks that balloc() has returned and bfree() has freed, in order. -/
structure State where
  fs : Fs
  stage : ProcId → Stage
  hist : List Event

/-- Block `n` is one of the bitmap. -/
def InBitmap (sb : Superblock) (n : Nat) : Prop := ∃ x < sb.size, n = sb.bblock x

/-- A step of one process, each of them with a bitmap block or the block to be zeroed locked. The callers of bfree()
free blocks of the file system, none of the bitmap and none that balloc() has not returned yet; the rest of the kernel leaves the bitmap alone. -/
inductive Step (sb : Superblock) (s : State) : State → Prop where
  | call (p : ProcId) (h : s.stage p = .idle) : Step sb s { s with stage := setAt s.stage p (.scan 0) }
  | mark {p : ProcId} {b r : Nat} {fs : Fs} (h : s.stage p = .scan b) (hb : b < sb.size)
      (hrun : (Kern.ballocBlock sb b).exec (Fs.run p) s.fs = .ok (some r) fs) :
      Step sb s { s with fs := fs, stage := setAt s.stage p (.zero r) }
  | next {p : ProcId} {b : Nat} {fs : Fs} (h : s.stage p = .scan b) (hb : b < sb.size)
      (hrun : (Kern.ballocBlock sb b).exec (Fs.run p) s.fs = .ok none fs) :
      Step sb s { s with fs := fs, stage := setAt s.stage p (.scan (b + BPB)) }
  | none {p : ProcId} {b : Nat} (h : s.stage p = .scan b) (hb : sb.size ≤ b) :
      Step sb s { s with stage := setAt s.stage p .idle }
  | finish {p : ProcId} {r : Nat} {fs : Fs} (h : s.stage p = .zero r)
      (hrun : (Kern.bzero r).exec (Fs.run p) s.fs = .ok () fs) :
      Step sb s { fs := fs, stage := setAt s.stage p .idle, hist := s.hist ++ [.returned r] }
  | free {p : ProcId} {b : Nat} {fs : Fs} (h : s.stage p = .idle) (hlt : b < sb.size) (hmap : ¬ InBitmap sb b)
      (hback : ∀ q, s.stage q ≠ .zero b) (hrun : (Kern.bfree b).exec (Fs.run p) s.fs = .ok () fs) :
      Step sb s { s with fs := fs, hist := s.hist ++ [.freed b] }
  | other {fs : Fs} (hsb : fs.mem.sb = s.fs.mem.sb) (hmap : ∀ n, InBitmap sb n →
      fs.st.cur n = s.fs.st.cur n ∧ fs.st.logged n = s.fs.st.logged n) : Step sb s { s with fs := fs }

/-- Between two times that balloc() returns a block, bfree() frees it. -/
def NoneTwice (hist : List Event) : Prop :=
  ∀ r h₁ h₂ h₃, hist = h₁ ++ .returned r :: h₂ ++ .returned r :: h₃ → .freed r ∈ h₂

end Allocs
end Xv6
