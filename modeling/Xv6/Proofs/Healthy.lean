import Xv6.Image
import Xv6.Proofs.Calls

namespace Xv6
variable {p q : ProcId} {sb : Superblock} {N : Nat → Node} {t : Holders} {fs fs' : Fs}

/-- The state between system calls. -/
def Healthy (sb : Superblock) (fs : Fs) : Prop :=
  ∃ t : Holders, t.Idle ∧ ∀ p, Inside p sb fs.node t fs

theorem Within.dinodes_eq {ino : Nat → Dinode} {loose away : List Nat}
    (h : Within p sb N t ino [] loose away fs) (i : Nat) :
    (dinodes sb fs.st.cur i).node fs.st.cur = (ino i).node fs.st.cur := by
  unfold dinodes
  split
  · rename_i hi
    rw [h.disk.disk i hi (by simp)]
  · rename_i hi
    have hz : (ino i).type = 0 := Decidable.of_not_not (fun hne => hi (h.disk.range i hne).2)
    rw [node_free hz, node_free rfl]

theorem Inside.eq_node (h : Inside p sb N t fs) : N = fs.node := by
  obtain ⟨ino, h⟩ := h
  funext i
  rw [Fs.node, nodes, h.mem.super, h.dinodes_eq, h.node i]

/-- Between calls it does not matter which process runs next. -/
theorem Inside.anyone (h : Inside p sb N t fs) (hc : t.Calm) (q : ProcId) : Inside q sb N t fs := by
  obtain ⟨ino, h⟩ := h
  have hm := h.mem
  refine ⟨ino, h.disk, ⟨hm.super, hm.file, ?_, fun ip => ?_, hm.unique, hm.nodup, hm.orphan,
    hm.live, hm.closed, hm.writable⟩, h.node, h.sane⟩
  · have := hm.proc
    rw [hc.moving] at this ⊢
    exact this
  · have hs := hm.slot ip
    exact ⟨hs.ref, hs.inum, hs.entry, hs.copy, hs.live, hs.free,
      fun hl => absurd hl (hc.unlocked ip)⟩

theorem Inside.healthy (h : Inside p sb N t fs) (hi : t.Idle) : Healthy sb fs :=
  ⟨t, hi, fun q => by rw [← h.eq_node]; exact h.anyone hi.toCalm q⟩

/-- A call other than chmod() is taken. -/
def Fs.stepNoChmod (fs : Fs) (e : Event) : Option Fs :=
  if e.call.isChmod then none else fs.step e

theorem Fs.stepNoChmod_some {e : Event} (h : fs.stepNoChmod e = some fs') :
    e.call.isChmod = false ∧ fs.step e = some fs' := by
  unfold Fs.stepNoChmod at h
  split at h
  · cases h
  · rename_i hc
    exact ⟨by simpa using hc, h⟩

theorem Fs.step_some {e : Event} (h : fs.step e = some fs') :
    fs.mem.alive e.p = true ∧ ∃ r, fs.exec e = .ok r fs' := by
  unfold Fs.step at h
  split at h
  · rename_i ha
    split at h
    · rename_i r fs₁ hr
      cases h
      exact ⟨ha, r, hr⟩
    · cases h
  · cases h

theorem Healthy.inside (h : Healthy sb fs) (p : ProcId) (evict : List Bool) :
    ∃ t : Holders, t.Idle ∧ Inside p sb fs.node t { fs with st := { fs.st with evict := evict } } := by
  obtain ⟨t, hi, h⟩ := h
  exact ⟨t, hi, (h p).same ⟨rfl, rfl⟩⟩

/-- What a call does to the files, and that the state is healthy again. -/
theorem Healthy.exec (h : Healthy sb fs) (ok : Panic → Prop) (hok : Benign ok) (hsb : sb.Ok)
    (hs : ok .ilockNoType ∨ Sound fs.node) (hl : ok .unlinkNlink ∨ Counted fs.node) (e : Event)
    (hc : e.call.isChmod = false) :
    e.call.prog.Ensures (Fs.run e.p) ok (fun _ fs' => Healthy sb fs' ∧ Effect fs.node fs'.node)
      { fs with st := { fs.st with evict := e.evict } } := by
  obtain ⟨t, hi, h⟩ := h.inside e.p e.evict
  refine (call_spec hok hsb hs hl hi h e.call hc).mono ?_
  rintro - fs' ⟨N', t', hN, hi', h'⟩
  exact ⟨h'.healthy hi', h'.eq_node ▸ hN⟩

theorem Healthy.step (h : Healthy sb fs) (hsb : sb.Ok) {e : Event}
    (he : fs.stepNoChmod e = some fs') : Healthy sb fs' ∧ Effect fs.node fs'.node := by
  obtain ⟨hc, he⟩ := Fs.stepNoChmod_some he
  obtain ⟨-, r, hr⟩ := Fs.step_some he
  exact (h.exec (fun _ => True) (fun _ _ _ _ _ => trivial) hsb (.inl trivial) (.inl trivial) e hc).ok_of_exec hr

/- Booting. -/

/-- An image whose bitmap, pointers and directories fit together. -/
structure WellFormed (sb : Superblock) (disk : Disk) : Prop where
  super : sb.Ok
  reserved : (dinodes sb disk 0).type = 0
  range : ∀ o, ptrs (dinodes sb disk) disk o ≠ 0 →
    sb.nmeta ≤ ptrs (dinodes sb disk) disk o ∧ ptrs (dinodes sb disk) disk o < sb.size
  inj : ∀ o o', ptrs (dinodes sb disk) disk o ≠ 0 →
    ptrs (dinodes sb disk) disk o = ptrs (dinodes sb disk) disk o' → o = o'
  bitmap : ∀ b < sb.size, used sb disk b ↔
    b < sb.nmeta ∨ ∃ o, ptrs (dinodes sb disk) disk o = b
  fits : ∀ i, (dinodes sb disk i).type ≠ 0 → (dinodes sb disk i).size ≤ MAXFILE * BSIZE
  full : ∀ i bn, (dinodes sb disk i).type ≠ 0 → bn * BSIZE < (dinodes sb disk i).size →
    (dinodes sb disk i).block disk bn ≠ 0
  linked : ∀ i, (dinodes sb disk i).type ≠ 0 → (dinodes sb disk i).nlink ≠ 0
  root : (dinodes sb disk ROOTINO).type = T_DIR
  dirs : Sane sb (nodes sb disk)

theorem WellFormed.onDisk {disk : Disk} (h : WellFormed sb disk) :
    OnDisk sb (dinodes sb disk) [] [] disk disk where
  fields i := by
    unfold dinodes
    split
    · exact dinodeAt_ok _ _
    · exact fresh_ok 0
  range i ht := by
    constructor
    · rcases Nat.eq_zero_or_pos i with rfl | hi
      · exact absurd h.reserved ht
      · exact hi
    · by_cases hi : i < sb.ninodes
      · exact hi
      · exact absurd (by rw [dinodes, if_neg hi]; rfl) ht
  disk i hi _ := by rw [dinodes, if_pos hi]
  owned := by
    refine ⟨?_, h.range, h.inj, .nil, nofun, fun b hb => ?_⟩
    · rw [Superblock.nmeta, BPB_eq]
      omega
    · rw [h.bitmap b hb]
      simp
  fits := h.fits
  full := h.full
  calm _ _ := rfl

theorem held_boot (ip : InodePtr) :
    held (fun _ => ⟨.none, 0, false, false, 0, 0, 0⟩)
      (setAt (fun _ => none) Kern.initproc (some ⟨fun _ => none, some 0⟩)) ip =
      (decide (ip = 0)).toNat := by
  have h := held_proc (fun _ => ⟨.none, 0, false, false, 0, 0, 0⟩) (fun _ => none) ip Kern.initproc
    (some ⟨fun _ => none, some 0⟩)
  have h₀ : held (fun _ => ⟨.none, 0, false, false, 0, 0, 0⟩) (fun _ => none) ip = 0 := by
    simp [held, countRows, File.opens, cwdIs]
  rw [h₀, cwdIs_none rfl, cwdIs_some _ rfl] at h
  simpa using h

theorem boot_inode {disk : Disk} {ip : InodePtr} (h : ip ≠ 0) : (Fs.boot sb disk).mem.inode ip =
    ⟨0, 0, 0, none, false, ⟨0, 0, 0, 0, 0, .replicate (NDIRECT + 1) 0⟩⟩ := by
  simp only [Fs.boot]
  exact setAt_other _ _ _ h

theorem Fs.boot_node {disk : Disk} (i : Nat) : (Fs.boot sb disk).node i = nodes sb disk i := rfl

theorem WellFormed.healthy {disk : Disk} (h : WellFormed sb disk) :
    Healthy sb (Fs.boot sb disk) := by
  let t : Holders := ⟨(Fs.boot sb disk).mem.file, (Fs.boot sb disk).mem.proc, fun _ => ROOTINO,
    [], [], [], false⟩
  have hi : t.Idle := ⟨⟨rfl, rfl, rfl⟩, rfl⟩
  have hheld : ∀ ip, t.held ip = (decide (ip = 0)).toNat := held_boot
  have hcount : ∀ ip, t.count ip = (decide (ip = 0)).toNat := hheld
  have hroot : (dinodes sb disk ROOTINO).type ≠ 0 := by rw [h.root]; decide
  have hinside : Inside 0 sb (nodes sb disk) t (Fs.boot sb disk) := by
    refine ⟨dinodes sb disk, h.onDisk, ⟨rfl, rfl, rfl, fun ip => ?_, ?_, .nil, ?_, ?_, ?_, ?_⟩,
      fun _ => rfl, h.dirs⟩
    · by_cases hz : ip = 0
      · subst hz
        refine ⟨by rw [hcount]; rfl, ?_, fun _ => ⟨rfl, show 0 < ROOTINO by decide, h.super.root⟩, nofun, nofun,
          fun _ => rfl, nofun⟩
        rintro i (hn | hn | ⟨-, hb⟩)
        · cases hn
        · cases hn
        · exact hb
      · rw [boot_inode hz]
        refine ⟨by rw [hcount, decide_eq_false hz]; rfl, ?_, nofun, nofun, nofun, fun _ => rfl, nofun⟩
        rintro i (hn | hn | ⟨hn, -⟩)
        · cases hn
        · cases hn
        · rw [hheld, decide_eq_false hz] at hn
          cases hn
    · intro ip jp hip hjp _
      have hzero : ∀ kp, 0 < ((Fs.boot sb disk).mem.inode kp).ref → kp = 0 := by
        intro kp hk
        by_cases hz : kp = 0
        · exact hz
        · rw [boot_inode hz] at hk
          cases hk
      rw [hzero ip hip, hzero jp hjp]
    · intro i ht hn _
      exact absurd hn (h.linked i ht)
    · exact fun _ _ => hroot
    · exact fun _ _ => rfl
    · intro f ip ho
      simp [t, Fs.boot, File.opens] at ho
  exact hinside.healthy hi

/-- Every state that calls other than chmod() lead to is healthy. -/
theorem healthy_of_reaches {disk : Disk} (h : WellFormed sb disk)
    (hr : Reaches Fs.stepNoChmod (Fs.boot sb disk) fs) : Healthy sb fs :=
  hr.invariant h.healthy (fun _ _ _ ht he => (ht.step h.super he).1)

end Xv6
