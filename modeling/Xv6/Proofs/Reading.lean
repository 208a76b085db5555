import Xv6.Proofs.Rules

namespace Xv6

/- What single functions of the file system do. -/

namespace Kern
variable {p : ProcId} {fs : Fs} {ip : InodePtr} {α : Type}

theorem exec_get (f : Mem → α) : (get f).exec (Fs.run p) fs = .ok (f fs.mem) fs := rfl

theorem exec_update (f : Mem → Mem) :
    (update f).exec (Fs.run p) fs = .ok () { fs with mem := f fs.mem } := rfl

/-- A change of an in-memory inode. -/
def onInode (fs : Fs) (ip : InodePtr) (f : Inode → Inode) : Fs := { fs with mem := fs.mem.setInode ip f }

@[simp] theorem onInode_same (f : Inode → Inode) :
    (onInode fs ip f).mem.inode ip = f (fs.mem.inode ip) := setAt_same _ _ _

theorem exec_iunlock (hlock : (fs.mem.inode ip).lock = some p) (href : (fs.mem.inode ip).ref ≥ 1) :
    (iunlock ip).exec (Fs.run p) fs = .ok () (onInode fs ip (fun i => { i with lock := none })) := by
  rw [iunlock, Free.exec_call]
  simp only [Fs.run]
  rw [if_neg (by rw [hlock]; simp; omega)]
  rfl

end Kern

end Xv6
