import Mathlib.Logic.ExistsUnique
import Xv6.Proofs.Mkfs

namespace Xv6
variable {p : ProcId} {sb : Superblock} {disk : Disk} {N : Nat → Node} {t : Holders} {fs : Fs}

/- Blocks. -/

theorem Within.ptrs_eq {ino : Nat → Dinode} {loose away : List Nat}
    (h : Within p sb N t ino [] loose away fs) :
    ptrs (dinodes sb fs.st.cur) fs.st.cur = ptrs ino fs.st.cur := by
  funext ⟨i, k⟩
  by_cases hi : i < sb.ninodes
  · have : dinodes sb fs.st.cur i = ino i := by
      rw [dinodes, if_pos hi]
      exact h.disk.disk i hi (by simp)
    simp only [ptrs, this]
  · rw [ptrs_free (Decidable.of_not_not (fun hne => hi (h.disk.range i hne).2)),
      ptrs_free (by rw [dinodes, if_neg hi]; rfl)]

/-- The bitmap says exactly which blocks are in use, and files have no holes. -/
structure Accounted (sb : Superblock) (cur : Disk) : Prop where
  bitmap : ∀ b < sb.size, used sb cur b ↔
    b < sb.nmeta ∨ ∃! o : Nat × Nat, ptrs (dinodes sb cur) cur o = b
  full : ∀ i bn, (dinodes sb cur i).type ≠ 0 →
    bn < ((dinodes sb cur i).size + BSIZE - 1) / BSIZE → (dinodes sb cur i).block cur bn ≠ 0

theorem Inside.accounted (h : Inside p sb N t fs) : Accounted sb fs.st.cur := by
  obtain ⟨ino, h⟩ := h
  have hown := h.disk.owned
  have hptrs := h.ptrs_eq
  refine ⟨fun b hb => ?_, fun i bn ht hbn => ?_⟩
  · rw [hown.exact b hb, hptrs]
    have hpos := hown.pos
    constructor
    · rintro (hlt | ⟨o, ho⟩ | hl)
      · exact .inl hlt
      · by_cases hlt : b < sb.nmeta
        · exact .inl hlt
        · refine .inr ⟨o, ho, fun o' ho' => ?_⟩
          exact (hown.inj o o' (by omega) (ho.trans ho'.symm)).symm
      · cases hl
    · rintro (hlt | ⟨o, ho, -⟩)
      · exact .inl hlt
      · exact .inr (.inl ⟨o, ho⟩)
  · have hi : i < sb.ninodes := by
      by_cases hi : i < sb.ninodes
      · exact hi
      · exact absurd (by rw [dinodes, if_neg hi]; rfl) ht
    have heq : dinodes sb fs.st.cur i = ino i := by
      rw [dinodes, if_pos hi]
      exact h.disk.disk i hi (by simp)
    rw [heq] at ht hbn ⊢
    apply h.disk.full i bn ht
    rw [Nat.lt_div_iff_mul_lt (by decide)] at hbn
    rw [BSIZE_eq] at *
    omega

/-- From a well-formed image on, whatever calls but chmod() are made, the bitmap is exact,
files have no holes, and no call frees a free block or looks for a block out of range. -/
theorem blocks_accounted (h : WellFormed sb disk)
    (hr : Reaches Fs.stepNoChmod (Fs.boot sb disk) fs) :
    Accounted sb fs.st.cur ∧ ∀ e : Event, e.call.isChmod = false →
      fs.exec e ≠ .fail .freeingFreeBlock ∧ fs.exec e ≠ .fail .bmapOutOfRange := by
  have hh := healthy_of_reaches h hr
  refine ⟨?_, fun e hc => ?_⟩
  · obtain ⟨t, -, hin⟩ := hh
    exact (hin 0).accounted
  · have hspec := hh.exec (fun e => e ≠ .freeingFreeBlock ∧ e ≠ .bmapOutOfRange)
      (fun e h₁ h₂ _ _ => ⟨h₁, h₂⟩) h.super (.inl (by decide)) (.inl (by decide)) e hc
    constructor
    · intro hf
      exact (hspec.fail_of_exec hf).1 rfl
    · intro hf
      exact (hspec.fail_of_exec hf).2 rfl

set_option maxRecDepth 100000 in
theorem blocks_accounted_unlink : ∃ fs, Reaches Fs.stepNoChmod (Fs.boot mkfsSb fileImage) fs ∧
    (fs.node 2).type = 0 ∧ Accounted mkfsSb fs.st.cur := by
  have hrun : (runAll Fs.stepNoChmod (Fs.boot mkfsSb fileImage) [⟨0, .unlink (.str [47, 102]), []⟩]).any
      (fun fs => decide ((fs.node 2).type = 0)) = true := by
    decide +kernel
  obtain ⟨fs, hr, ht⟩ := Reaches.of_any hrun
  exact ⟨fs, hr, of_decide_eq_true ht, (blocks_accounted fileImage_wellFormed hr).1⟩

/- References. -/

/-- The open files that refer to the inode. -/
def Mem.opens (m : Mem) (ip : InodePtr) : Nat :=
  countRows (fun f => decide (0 < (m.file f).ref ∧
    ((m.file f).type = .inode ∨ (m.file f).type = .device) ∧ (m.file f).ip = ip))

/-- The processes in that directory. -/
def Mem.dwells (m : Mem) (ip : InodePtr) : Nat :=
  countRows (fun q => decide ((m.proc q).bind Proc.cwd = some ip))

theorem Healthy.ref_eq (h : Healthy sb fs) (ip : InodePtr) :
    (fs.mem.inode ip).ref = (fs.mem.opens ip + fs.mem.dwells ip : Nat) ∧
      (fs.mem.inode ip).lock = none := by
  obtain ⟨t, hi, hin⟩ := h
  have hfile := (hin 0).file
  have hproc := (hin 0).proc hi.moving
  obtain ⟨ino, hw⟩ := hin 0
  have hs := hw.mem.slot ip
  refine ⟨?_, hs.free (hi.unlocked ip)⟩
  have hopens : ∀ f, decide (0 < (t.file f).ref ∧
      ((t.file f).type = .inode ∨ (t.file f).type = .device) ∧ (t.file f).ip = ip) =
      (t.file f).opens ip := by
    intro f
    refine decide_eq_decide.mpr ⟨fun hc => hc.2, fun hc => ⟨?_, hc⟩⟩
    refine Int.not_le.mp (fun hle => ?_)
    rw [hw.mem.closed f hle] at hc
    exact absurd hc.1 (by decide)
  rw [hs.ref, Holders.count, hi.refs, Mem.opens, Mem.dwells, hfile, hproc]
  simp only [hopens]
  rfl

/-- From a well-formed image on, whatever calls but chmod() are made, the reference count of
every inode in memory is the number of open files and working directories that refer to it,
and no inode is locked. -/
theorem inode_refs_balanced (h : WellFormed sb disk)
    (hr : Reaches Fs.stepNoChmod (Fs.boot sb disk) fs) (ip : InodePtr) :
    (fs.mem.inode ip).ref = (fs.mem.opens ip + fs.mem.dwells ip : Nat) ∧
      (fs.mem.inode ip).lock = none :=
  (healthy_of_reaches h hr).ref_eq ip

set_option maxRecDepth 100000 in
theorem inode_refs_balanced_open : ∃ fs, Reaches Fs.stepNoChmod (Fs.boot mkfsSb fileImage) fs ∧
    fs.mem.opens 1 = 1 ∧ (fs.mem.inode 1).ref = (fs.mem.opens 1 + fs.mem.dwells 1 : Nat) := by
  have hrun : (runAll Fs.stepNoChmod (Fs.boot mkfsSb fileImage)
      [⟨0, .openFile (.str [47, 102]) O_RDWR, []⟩]).any
      (fun fs => decide (fs.mem.opens 1 = 1)) = true := by
    decide +kernel
  obtain ⟨fs, hr, ho⟩ := Reaches.of_any hrun
  exact ⟨fs, hr, of_decide_eq_true ho, (inode_refs_balanced fileImage_wellFormed hr 1).1⟩

end Xv6
