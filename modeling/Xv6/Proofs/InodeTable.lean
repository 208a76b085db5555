import Xv6.Proofs.Accounts

namespace Xv6
variable {p : ProcId} {sb : Superblock} {disk : Disk} {N : Nat → Node} {t : Holders} {ino : Nat → Dinode} {fs : Fs} {i : Nat}

theorem Within.dinode_at {loose away : List Nat} (h : Within p sb N t ino [] loose away fs) (hi : i < sb.ninodes) :
    dinodes sb fs.st.cur i = ino i := by
  rw [dinodes, if_pos hi]
  exact h.disk.disk i hi (by simp)

/-- From a well-formed image on, whatever calls but chmod() are made, an inode has one entry in the table, and what the entry holds
is what the blocks of the inode say. -/
theorem inode_table_coherent (h : WellFormed sb disk) (hr : Reaches Fs.stepNoChmod (Fs.boot sb disk) fs) {ip : InodePtr}
    (href : 0 < (fs.mem.inode ip).ref) :
    (∀ jp, 0 < (fs.mem.inode jp).ref → (fs.mem.inode jp).inum = (fs.mem.inode ip).inum → jp = ip) ∧
    0 < (fs.mem.inode ip).inum ∧ (fs.mem.inode ip).inum < sb.ninodes ∧
    ((fs.mem.inode ip).valid = true → (fs.mem.inode ip).copy = dinodes sb fs.st.cur (fs.mem.inode ip).inum) := by
  obtain ⟨t, -, hin⟩ := healthy_of_reaches h hr
  obtain ⟨ino, hw⟩ := hin 0
  have hs := hw.mem.slot ip
  obtain ⟨-, hpos, hlt⟩ := hs.entry href
  refine ⟨fun jp hj he => hw.mem.unique jp ip hj href he, hpos, hlt, fun hv => ?_⟩
  rw [hw.dinode_at hlt]
  exact hs.copy href hv (by simp)

set_option maxRecDepth 100000 in
/-- The file /f is opened and removed. -/
theorem removed_while_open : ∃ fs, Reaches Fs.stepNoChmod (Fs.boot mkfsSb fileImage) fs ∧ fs.mem.opens 1 = 1 ∧
    0 < (fs.mem.inode 1).ref ∧ (fs.node 2).nlink = 0 := by
  have hrun : (runAll Fs.stepNoChmod (Fs.boot mkfsSb fileImage)
      [⟨0, .openFile (.str [47, 102]) O_RDWR, []⟩, ⟨0, .unlink (.str [47, 102]), []⟩]).any
      (fun fs => decide (fs.mem.opens 1 = 1 ∧ 0 < (fs.mem.inode 1).ref ∧ (fs.node 2).nlink = 0)) = true := by
    decide +kernel
  obtain ⟨fs, hr, hfacts⟩ := Reaches.of_any hrun
  exact ⟨fs, hr, of_decide_eq_true hfacts⟩

theorem inode_table_coherent_removed : ∃ fs : Fs, (fs.node 2).nlink = 0 ∧
    ∀ jp, 0 < (fs.mem.inode jp).ref → (fs.mem.inode jp).inum = (fs.mem.inode 1).inum → jp = 1 := by
  obtain ⟨fs, hr, -, href, hn⟩ := removed_while_open
  exact ⟨fs, hn, (inode_table_coherent fileImage_wellFormed hr href).1⟩

end Xv6
