import Xv6.Namespace

namespace Xv6

/-- Who holds in-memory inodes during a system call of process `p`: the file table and the
working directories, for whose inodes `base` has the inode numbers, and the call itself with
its references and locks. Inodes in `fresh` are allocated and have no links yet. While the
call is `moving`, its process names a working directory that it no longer holds. -/
structure Holders where
  file : FilePtr → File
  proc : ProcId → Option Proc
  base : InodePtr → Nat
  refs : List (InodePtr × Nat)
  locked : List (InodePtr × Nat)
  fresh : List Nat
  moving : Bool

/-- A process that has given up its working directory. -/
def Proc.leave (pr : Proc) : Proc := { pr with cwd := none }

namespace Holders

def held (t : Holders) (ip : InodePtr) : Nat := Xv6.held t.file t.proc ip

def count (t : Holders) (ip : InodePtr) : Nat := t.held ip + t.refs.countP (fun r => r.1 == ip)

/-- Some holder knows `ip` as inode `i`. -/
def Names (t : Holders) (ip : InodePtr) (i : Nat) : Prop :=
  (ip, i) ∈ t.refs ∨ (ip, i) ∈ t.locked ∨ (0 < t.held ip ∧ t.base ip = i)

def Locks (t : Holders) (ip : InodePtr) : Prop := ip ∈ t.locked.map Prod.fst

end Holders

/-- What one entry of the inode table is. The copy of an inode in `away` is being changed. -/
structure SlotOk (p : ProcId) (sb : Superblock) (ino : Nat → Dinode) (away : List Nat)
    (t : Holders) (ip : InodePtr) (x : Inode) : Prop where
  ref : x.ref = t.count ip
  inum : ∀ i, t.Names ip i → x.inum = i
  entry : 0 < x.ref → x.dev = ROOTDEV ∧ 0 < x.inum ∧ x.inum < sb.ninodes
  copy : 0 < x.ref → x.valid = true → x.inum ∉ away → x.copy = ino x.inum
  live : 0 < x.ref → x.valid = true → (ino x.inum).type ≠ 0
  free : ¬ t.Locks ip → x.lock = none
  locked : t.Locks ip → x.lock = some p ∧ 0 < x.ref ∧ x.valid = true

/-- Kernel memory agrees with the inodes `ino` and with the holders. -/
structure InMem (p : ProcId) (sb : Superblock) (ino : Nat → Dinode) (away : List Nat)
    (t : Holders) (m : Mem) : Prop where
  super : m.sb = sb
  file : m.file = t.file
  proc : t.proc = if t.moving then setAt m.proc p ((m.proc p).map Proc.leave) else m.proc
  slot : ∀ ip, SlotOk p sb ino away t ip (m.inode ip)
  unique : ∀ ip jp, 0 < (m.inode ip).ref → 0 < (m.inode jp).ref →
    (m.inode ip).inum = (m.inode jp).inum → ip = jp
  nodup : (t.locked.map Prod.fst).Nodup
  orphan : ∀ i, (ino i).type ≠ 0 → (ino i).nlink = 0 → i ∉ t.fresh →
    ∃ ip, 0 < (m.inode ip).ref ∧ (m.inode ip).valid = true ∧ (m.inode ip).inum = i
  live : ∀ ip, 0 < t.held ip → (ino (t.base ip)).type ≠ 0
  closed : ∀ f, (t.file f).ref ≤ 0 → (t.file f).type = .none
  writable : ∀ f ip, (t.file f).opens ip = true → (t.file f).writable = true →
    (ino (t.base ip)).type ≠ T_DIR

section
variable {p : ProcId} {sb : Superblock} {ino ino' : Nat → Dinode} {away : List Nat}
  {t t' : Holders} {m : Mem} {ip : InodePtr} {i : Nat} {x : Inode}

@[simp] theorem setInode_same (m : Mem) (ip : InodePtr) (f : Inode → Inode) :
    (m.setInode ip f).inode ip = f (m.inode ip) := setAt_same _ _ _

theorem setInode_other (m : Mem) {ip jp : InodePtr} (f : Inode → Inode) (h : jp ≠ ip) :
    (m.setInode ip f).inode jp = m.inode jp := setAt_other _ _ _ h

@[simp] theorem setInode_sb (m : Mem) (ip : InodePtr) (f : Inode → Inode) :
    (m.setInode ip f).sb = m.sb := rfl

theorem setInode_setInode (m : Mem) (ip : InodePtr) (f g : Inode → Inode) :
    (m.setInode ip f).setInode ip g = m.setInode ip (fun x => g (f x)) := by
  simp [Mem.setInode]

theorem setInode_congr {f g : Inode → Inode} (h : f (m.inode ip) = g (m.inode ip)) :
    m.setInode ip f = m.setInode ip g := by
  simp [Mem.setInode, h]

theorem held_pos {file : FilePtr → File} {proc : ProcId → Option Proc} :
    0 < held file proc ip ↔ (∃ f, (file f).opens ip = true) ∨ ∃ q, cwdIs (proc q) ip = true := by
  have h₁ := countRows_pos (p := fun f => (file f).opens ip)
  have h₂ := countRows_pos (p := fun q => cwdIs (proc q) ip)
  rw [← h₁, ← h₂, held]
  omega

/-- The holders of `ip` are the same in both. -/
structure Holders.Agree (t t' : Holders) (ip : InodePtr) : Prop where
  count : t'.count ip = t.count ip
  names : ∀ i, t'.Names ip i → t.Names ip i
  locks : t'.Locks ip ↔ t.Locks ip

theorem SlotOk.congr (h : SlotOk p sb ino away t ip x) (ha : t.Agree t' ip)
    (hi : 0 < x.ref → ino' x.inum = ino x.inum) : SlotOk p sb ino' away t' ip x where
  ref := by rw [h.ref, ha.count]
  inum i hn := h.inum i (ha.names i hn)
  entry := h.entry
  copy hr hv hw := by rw [hi hr]; exact h.copy hr hv hw
  live hr hv := by rw [hi hr]; exact h.live hr hv
  free hl := h.free (fun hl' => hl (ha.locks.mpr hl'))
  locked hl := h.locked (ha.locks.mp hl)

/-- One entry of the inode table changes, with its inode and its holders. -/
theorem InMem.update (h : InMem p sb ino away t m) (hx : SlotOk p sb ino' away t' ip x)
    (hother : ∀ jp, jp ≠ ip → t.Agree t' jp)
    (hino : ∀ jp, jp ≠ ip → 0 < (m.inode jp).ref → ino' (m.inode jp).inum = ino (m.inode jp).inum)
    (hunique : ∀ jp, jp ≠ ip → 0 < x.ref → 0 < (m.inode jp).ref → (m.inode jp).inum ≠ x.inum)
    (hnodup : (t'.locked.map Prod.fst).Nodup)
    (horphan : ∀ i, (ino' i).type ≠ 0 → (ino' i).nlink = 0 → i ∉ t'.fresh →
      (∃ jp, jp ≠ ip ∧ 0 < (m.inode jp).ref ∧ (m.inode jp).valid = true ∧ (m.inode jp).inum = i) ∨
      (0 < x.ref ∧ x.valid = true ∧ x.inum = i))
    (hfile : t'.file = t.file) (hproc : t'.proc = t.proc) (hmoving : t'.moving = t.moving)
    (hbase : t'.base = t.base)
    (htype : ∀ jp, 0 < t.held jp → (ino' (t.base jp)).type = (ino (t.base jp)).type) :
    InMem p sb ino' away t' (m.setInode ip (fun _ => x)) := by
  have hheld : ∀ jp, t'.held jp = t.held jp := by
    intro jp
    unfold Holders.held
    rw [hfile, hproc]
  refine ⟨h.super, by rw [hfile]; exact h.file, by rw [hproc, hmoving]; exact h.proc, ?_, ?_, hnodup, ?_, ?_,
    by rw [hfile]; exact h.closed, ?_⟩
  · intro jp
    by_cases hj : jp = ip
    · subst hj
      rw [setInode_same]
      exact hx
    · rw [setInode_other _ _ hj]
      exact (h.slot jp).congr (hother jp hj) (hino jp hj)
  · intro jp kp hj hk he
    by_cases h₁ : jp = ip
    · by_cases h₂ : kp = ip
      · rw [h₁, h₂]
      · subst h₁
        rw [setInode_same] at hj he
        rw [setInode_other _ _ h₂] at hk he
        exact absurd he.symm (hunique kp h₂ hj hk)
    · by_cases h₂ : kp = ip
      · subst h₂
        rw [setInode_same] at hk he
        rw [setInode_other _ _ h₁] at hj he
        exact absurd he (hunique jp h₁ hk hj)
      · rw [setInode_other _ _ h₁] at hj he
        rw [setInode_other _ _ h₂] at hk he
        exact h.unique jp kp hj hk he
  · intro i ht hn hf
    cases horphan i ht hn hf with
    | inl ho =>
      obtain ⟨jp, hj, ho⟩ := ho
      exact ⟨jp, by rw [setInode_other _ _ hj]; exact ho⟩
    | inr ho => exact ⟨ip, by rw [setInode_same]; exact ho⟩
  · intro jp hj
    rw [hheld] at hj
    rw [hbase, htype jp hj]
    exact h.live jp hj
  · intro f jp ho hw
    rw [hfile] at ho hw
    have hj : 0 < t.held jp := held_pos.mpr (.inl ⟨f, ho⟩)
    rw [hbase, htype jp hj]
    exact h.writable f jp ho hw

/- Changes of the holders by the running call. -/

namespace Holders

/-- One more reference. -/
def take (t : Holders) (ip : InodePtr) (i : Nat) : Holders := { t with refs := (ip, i) :: t.refs }

/-- One more lock. -/
def lock (t : Holders) (ip : InodePtr) (i : Nat) : Holders :=
  { t with locked := (ip, i) :: t.locked }

theorem count_take (t : Holders) (ip : InodePtr) (i : Nat) :
    (t.take ip i).count ip = t.count ip + 1 := by
  simp [count, take, held]
  omega

theorem count_take_other (t : Holders) {ip jp : InodePtr} (i : Nat) (h : jp ≠ ip) :
    (t.take ip i).count jp = t.count jp := by
  simp [count, take, held, Ne.symm h]

theorem names_take (t : Holders) {ip jp : InodePtr} {i j : Nat} :
    (t.take ip i).Names jp j ↔ (jp = ip ∧ j = i) ∨ t.Names jp j := by
  simp [Names, take, held, or_assoc]

theorem agree_take (t : Holders) {ip jp : InodePtr} (i : Nat) (h : jp ≠ ip) :
    t.Agree (t.take ip i) jp where
  count := t.count_take_other i h
  names _ hn := (names_take t).mp hn |>.resolve_left (fun hc => h hc.1)
  locks := Iff.rfl

theorem agree_drop (t : Holders) {ip jp : InodePtr} (i : Nat) (h : jp ≠ ip) :
    (t.take ip i).Agree t jp where
  count := (t.count_take_other i h).symm
  names _ hn := (names_take t).mpr (.inr hn)
  locks := Iff.rfl

theorem names_lock (t : Holders) {ip jp : InodePtr} {i j : Nat} :
    (t.lock ip i).Names jp j ↔ (jp = ip ∧ j = i) ∨ t.Names jp j := by
  simp only [Names, lock, held, List.mem_cons, Prod.mk.injEq]
  constructor
  · rintro (h | (h | h) | h)
    · exact .inr (.inl h)
    · exact .inl h
    · exact .inr (.inr (.inl h))
    · exact .inr (.inr (.inr h))
  · rintro (h | h | h | h)
    · exact .inr (.inl (.inl h))
    · exact .inl h
    · exact .inr (.inl (.inr h))
    · exact .inr (.inr h)

theorem locks_lock (t : Holders) {ip jp : InodePtr} {i : Nat} :
    (t.lock ip i).Locks jp ↔ jp = ip ∨ t.Locks jp := by
  simp [Locks, lock]

theorem agree_lock (t : Holders) {ip jp : InodePtr} (i : Nat) (h : jp ≠ ip) :
    t.Agree (t.lock ip i) jp where
  count := rfl
  names _ hn := (names_lock t).mp hn |>.resolve_left (fun hc => h hc.1)
  locks := by rw [locks_lock]; exact ⟨fun hl => hl.resolve_left h, .inr⟩

theorem agree_unlock (t : Holders) {ip jp : InodePtr} (i : Nat) (h : jp ≠ ip) :
    (t.lock ip i).Agree t jp where
  count := rfl
  names _ hn := (names_lock t).mpr (.inr hn)
  locks := by rw [locks_lock]; exact ⟨.inr, fun hl => hl.resolve_left h⟩

theorem count_pos {t : Holders} {ip : InodePtr} {i : Nat} (h : (ip, i) ∈ t.refs) :
    0 < t.count ip := by
  have : 0 < t.refs.countP (fun r => r.1 == ip) :=
    List.countP_pos_iff.mpr ⟨_, h, by simp⟩
  unfold count
  omega

end Holders

namespace InMem

theorem ref_pos (h : InMem p sb ino away t m) (hn : t.Names ip i) : 0 < (m.inode ip).ref := by
  rw [(h.slot ip).ref]
  rcases hn with hn | hn | hn
  · exact_mod_cast Holders.count_pos hn
  · rw [← (h.slot ip).ref]
    exact ((h.slot ip).locked (List.mem_map.mpr ⟨_, hn, rfl⟩)).2.1
  · unfold Holders.count
    omega

theorem inum_eq (h : InMem p sb ino away t m) (hn : t.Names ip i) : (m.inode ip).inum = i :=
  (h.slot ip).inum i hn

theorem lt_ninodes (h : InMem p sb ino away t m) (hn : t.Names ip i) : 0 < i ∧ i < sb.ninodes := by
  have := (h.slot ip).entry (h.ref_pos hn)
  rw [h.inum_eq hn] at this
  exact this.2

/-- Two holders of one inode have the same entry of the table. -/
theorem names_inj (h : InMem p sb ino away t m) {jp : InodePtr} (hn : t.Names ip i)
    (hn' : t.Names jp i) : ip = jp :=
  h.unique ip jp (h.ref_pos hn) (h.ref_pos hn') ((h.inum_eq hn).trans (h.inum_eq hn').symm)

theorem take (h : InMem p sb ino away t m) (hr : 0 < (m.inode ip).ref)
    (hi : (m.inode ip).inum = i) :
    InMem p sb ino away (t.take ip i)
      (m.setInode ip (fun x => { x with ref := x.ref + 1 })) := by
  have hs := h.slot ip
  refine h.update (x := { m.inode ip with ref := (m.inode ip).ref + 1 })
    ⟨?_, ?_, fun _ => hs.entry hr, fun _ => hs.copy hr, fun _ => hs.live hr, hs.free, ?_⟩
    (fun jp hj => t.agree_take i hj) (fun _ _ _ => rfl) ?_ h.nodup ?_ rfl rfl rfl rfl (fun _ _ => rfl)
  · rw [t.count_take, hs.ref]
    rfl
  · intro j hn
    rcases t.names_take.mp hn with ⟨-, rfl⟩ | hn
    · exact hi
    · exact hs.inum j hn
  · intro hl
    obtain ⟨h₁, -, h₂⟩ := hs.locked hl
    exact ⟨h₁, by change 0 < (m.inode ip).ref + 1; omega, h₂⟩
  · intro jp hj _ hr' he
    exact hj (h.unique jp ip hr' hr he)
  · intro j ht hn hf
    obtain ⟨kp, h₁, h₂, h₃⟩ := h.orphan j ht hn hf
    by_cases hk : kp = ip
    · subst hk
      exact .inr ⟨by change 0 < (m.inode kp).ref + 1; omega, h₂, h₃⟩
    · exact .inl ⟨kp, hk, h₁, h₂, h₃⟩

theorem enter (h : InMem p sb ino away t m) (hr : (m.inode ip).ref = 0)
    (hnone : ∀ jp, 0 < (m.inode jp).ref → (m.inode jp).inum ≠ i) (hi : 0 < i ∧ i < sb.ninodes) :
    InMem p sb ino away (t.take ip i) (m.setInode ip (fun x =>
      { x with dev := ROOTDEV, inum := i, ref := 1, valid := false })) := by
  have hs := h.slot ip
  have hzero : t.count ip = 0 := by
    have := hs.ref
    omega
  have hno : ∀ j, ¬ t.Names ip j := by
    intro j hn
    have := h.ref_pos hn
    omega
  have hnl : ¬ t.Locks ip := by
    intro hl
    have := (hs.locked hl).2.1
    omega
  refine h.update
    (x := { m.inode ip with dev := ROOTDEV, inum := i, ref := 1, valid := false })
    ⟨?_, ?_, fun _ => ⟨rfl, hi⟩, nofun, nofun, hs.free, fun hl => absurd hl hnl⟩
    (fun jp hj => t.agree_take i hj) (fun _ _ _ => rfl) (fun jp _ _ hr' => hnone jp hr')
    h.nodup ?_ rfl rfl rfl rfl (fun _ _ => rfl)
  · rw [t.count_take, hzero]
    rfl
  · intro j hn
    rcases t.names_take.mp hn with ⟨-, rfl⟩ | hn
    · rfl
    · exact absurd hn (hno j)
  · intro j ht hn hf
    obtain ⟨kp, h₁, h₂, h₃⟩ := h.orphan j ht hn hf
    exact .inl ⟨kp, fun hk => by rw [hk, hr] at h₁; omega, h₁, h₂, h₃⟩

/-- iput() without freeing. -/
theorem drop (h : InMem p sb ino away (t.take ip i) m) (hl : t.Locks ip → 0 < t.count ip)
    (hkeep : (m.inode ip).ref ≠ 1 ∨ (m.inode ip).valid = false ∨ (ino i).nlink ≠ 0) :
    InMem p sb ino away t (m.setInode ip (fun x => { x with ref := x.ref - 1 })) := by
  have hs := h.slot ip
  have hn : (t.take ip i).Names ip i := t.names_take.mpr (.inl ⟨rfl, rfl⟩)
  have hr := h.ref_pos hn
  refine h.update (x := { m.inode ip with ref := (m.inode ip).ref - 1 })
    ⟨?_, fun j hj => hs.inum j (t.names_take.mpr (.inr hj)), fun _ => hs.entry hr,
      fun _ => hs.copy hr, fun _ => hs.live hr, hs.free, ?_⟩
    (fun jp hj => t.agree_drop i hj) (fun _ _ _ => rfl) ?_ h.nodup ?_ rfl rfl rfl rfl (fun _ _ => rfl)
  · change (m.inode ip).ref - 1 = _
    rw [hs.ref, t.count_take]
    omega
  · intro hl'
    obtain ⟨h₁, -, h₂⟩ := hs.locked hl'
    refine ⟨h₁, ?_, h₂⟩
    have := hl hl'
    change 0 < (m.inode ip).ref - 1
    rw [hs.ref, t.count_take]
    omega
  · intro jp hj _ hr' he
    exact hj (h.unique jp ip hr' hr he)
  · intro j ht hz hf
    obtain ⟨kp, h₁, h₂, h₃⟩ := h.orphan j ht hz hf
    by_cases hk : kp = ip
    · subst hk
      refine .inr ⟨?_, h₂, h₃⟩
      change 0 < (m.inode kp).ref - 1
      rw [h.inum_eq hn] at h₃
      subst h₃
      rcases hkeep with hk | hk | hk
      · omega
      · rw [hk] at h₂; cases h₂
      · exact absurd hz hk
    · exact .inl ⟨kp, hk, h₁, h₂, h₃⟩

theorem unlock (h : InMem p sb ino away (t.lock ip i) m) :
    InMem p sb ino away t (m.setInode ip (fun x => { x with lock := none })) := by
  have hs := h.slot ip
  have hlock := hs.locked (t.locks_lock.mpr (.inl rfl))
  obtain ⟨hnew, hnd⟩ := List.nodup_cons.mp h.nodup
  refine h.update (x := { m.inode ip with lock := none })
    ⟨hs.ref, fun j hj => hs.inum j (t.names_lock.mpr (.inr hj)), hs.entry, hs.copy, hs.live,
      fun _ => rfl, fun hl => absurd hl hnew⟩
    (fun jp hj => t.agree_unlock i hj) (fun _ _ _ => rfl) ?_ hnd ?_ rfl rfl rfl rfl (fun _ _ => rfl)
  · intro jp hj hr hr' he
    exact hj (h.unique jp ip hr' hr he)
  · intro j ht hz hf
    obtain ⟨kp, h₁, h₂, h₃⟩ := h.orphan j ht hz hf
    by_cases hk : kp = ip
    · subst hk
      exact .inr ⟨h₁, h₂, h₃⟩
    · exact .inl ⟨kp, hk, h₁, h₂, h₃⟩

/-- ilock(), which finds the copy valid or reads it. -/
theorem lock (h : InMem p sb ino away t m) (hn : t.Names ip i) (hl : ¬ t.Locks ip) {c : Dinode}
    (hc : c = ino i) (ht : (ino i).type ≠ 0) :
    InMem p sb ino away (t.lock ip i)
      (m.setInode ip (fun x => { x with lock := some p, copy := c, valid := true })) := by
  have hs := h.slot ip
  have hr := h.ref_pos hn
  have hi := h.inum_eq hn
  refine h.update (x := { m.inode ip with lock := some p, copy := c, valid := true })
    ⟨hs.ref, ?_, hs.entry, fun _ _ _ => by rw [hc]; exact congrArg ino hi.symm,
      fun _ _ => by change (ino (m.inode ip).inum).type ≠ 0; rw [hi]; exact ht, ?_,
      fun _ => ⟨rfl, hr, rfl⟩⟩
    (fun jp hj => t.agree_lock i hj) (fun _ _ _ => rfl) ?_ (List.nodup_cons.mpr ⟨hl, h.nodup⟩) ?_
    rfl rfl rfl rfl (fun _ _ => rfl)
  · intro j hj
    rcases t.names_lock.mp hj with ⟨-, rfl⟩ | hj
    · exact hi
    · exact hs.inum j hj
  · exact fun hf => absurd (t.locks_lock.mpr (.inl rfl)) hf
  · intro jp hj hr hr' he
    exact hj (h.unique jp ip hr' hr he)
  · intro j ht hz hf
    obtain ⟨kp, h₁, h₂, h₃⟩ := h.orphan j ht hz hf
    by_cases hk : kp = ip
    · subst hk
      exact .inr ⟨h₁, rfl, h₃⟩
    · exact .inl ⟨kp, hk, h₁, h₂, h₃⟩

/-- The order of references and locks does not matter. -/
theorem perm (h : InMem p sb ino away t m) {rs ls : List (InodePtr × Nat)} (hr : t.refs.Perm rs)
    (hl : t.locked.Perm ls) : InMem p sb ino away { t with refs := rs, locked := ls } m := by
  refine ⟨h.super, h.file, h.proc, fun ip => (h.slot ip).congr ⟨?_, ?_, ?_⟩ (fun _ => rfl),
    h.unique, (hl.map Prod.fst).nodup_iff.mp h.nodup, h.orphan, h.live, h.closed, h.writable⟩
  · unfold Holders.count
    rw [← hr.countP_eq]
    rfl
  · intro i hn
    rcases hn with hn | hn | hn
    · exact .inl (hr.mem_iff.mpr hn)
    · exact .inr (.inl (hl.mem_iff.mpr hn))
    · exact .inr (.inr hn)
  · exact (hl.map Prod.fst).mem_iff.symm

/-- A new inode is no longer special once it is read. -/
theorem settle (h : InMem p sb ino away t m) {fs : List Nat} (hf : t.fresh = i :: fs)
    (hn : t.Names ip i) (hv : (m.inode ip).valid = true) :
    InMem p sb ino away { t with fresh := fs } m := by
  refine ⟨h.super, h.file, h.proc, fun ip => (h.slot ip).congr ⟨rfl, fun _ => id, Iff.rfl⟩
    (fun _ => rfl), h.unique, h.nodup, ?_, h.live, h.closed, h.writable⟩
  intro j ht hz hj
  by_cases he : j = i
  · exact ⟨ip, h.ref_pos hn, hv, he ▸ h.inum_eq hn⟩
  · exact h.orphan j ht hz (by rw [hf]; simp [he, hj])

/-- An allocated inode has a new content, in memory and on disk. -/
theorem setCopy (h : InMem p sb ino away t m) (hn : t.Names ip i)
    (hv : (m.inode ip).valid = true) {c : Dinode} (ht : c.type = (ino i).type) :
    InMem p sb (setAt ino i c) away t (m.setInode ip (fun x => { x with copy := c })) := by
  have hs := h.slot ip
  have hr := h.ref_pos hn
  have hi := h.inum_eq hn
  refine h.update (x := { m.inode ip with copy := c })
    ⟨hs.ref, hs.inum, hs.entry, ?_, ?_, hs.free, hs.locked⟩
    (fun _ _ => ⟨rfl, fun _ => id, Iff.rfl⟩) ?_ ?_ h.nodup ?_ rfl rfl rfl rfl ?_
  · intro _ _ _
    change c = setAt ino i c (m.inode ip).inum
    rw [hi, setAt_same]
  · intro _ _
    change (setAt ino i c (m.inode ip).inum).type ≠ 0
    rw [hi, setAt_same, ht, ← hi]
    exact hs.live hr hv
  · intro jp hj hr'
    exact setAt_other _ _ _ (fun he => hj (h.unique jp ip hr' hr (he.trans hi.symm)))
  · intro jp hj _ hr' he
    exact hj (h.unique jp ip hr' hr he)
  · intro j hj hz hf
    by_cases he : j = i
    · exact .inr ⟨hr, hv, hi.trans he.symm⟩
    · rw [setAt_other _ _ _ he] at hj hz
      obtain ⟨kp, h₁, h₂, h₃⟩ := h.orphan j hj hz hf
      exact .inl ⟨kp, fun hk => he (h₃.symm.trans (hk ▸ hi)), h₁, h₂, h₃⟩
  · intro jp _
    by_cases he : t.base jp = i
    · rw [he, setAt_same, ht]
    · rw [setAt_other _ _ _ he]

/-- ialloc() takes a free inode. -/
theorem alloc (h : InMem p sb ino away t m) (hz : (ino i).type = 0) (c : Dinode) :
    InMem p sb (setAt ino i c) away { t with fresh := i :: t.fresh } m := by
  have hne : ∀ j, (ino j).type ≠ 0 → setAt ino i c j = ino j :=
    fun j hj => setAt_other _ _ _ (fun he => hj (he ▸ hz))
  refine ⟨h.super, h.file, h.proc, ?_, h.unique, h.nodup, ?_, ?_, h.closed, ?_⟩
  · intro ip
    have hs := h.slot ip
    refine ⟨hs.ref, hs.inum, hs.entry, ?_, ?_, hs.free, hs.locked⟩
    · intro hr hv hw
      rw [hne _ (hs.live hr hv)]
      exact hs.copy hr hv hw
    · intro hr hv
      rw [hne _ (hs.live hr hv)]
      exact hs.live hr hv
  · intro j ht hz' hf
    have hj : j ≠ i := fun he => hf (he ▸ List.mem_cons_self)
    rw [setAt_other _ _ _ hj] at ht hz'
    exact h.orphan j ht hz' (fun hm => hf (List.mem_cons_of_mem _ hm))
  · intro ip hh
    rw [hne _ (h.live ip hh)]
    exact h.live ip hh
  · intro f ip ho hw
    rw [hne _ (h.live ip (held_pos.mpr (.inl ⟨f, ho⟩)))]
    exact h.writable f ip ho hw

/-- The copy of inode `i` is about to change to `c`, step by step. -/
theorem goAway (h : InMem p sb ino [] t m) {c : Dinode} (ht : c.type = (ino i).type)
    (hl : c.nlink = (ino i).nlink) : InMem p sb (setAt ino i c) [i] t m := by
  have htype : ∀ j, (setAt ino i c j).type = (ino j).type := by
    intro j
    by_cases he : j = i
    · rw [he, setAt_same, ht]
    · rw [setAt_other _ _ _ he]
  refine ⟨h.super, h.file, h.proc, ?_, h.unique, h.nodup, ?_, ?_, h.closed, ?_⟩
  · intro ip
    have hs := h.slot ip
    refine ⟨hs.ref, hs.inum, hs.entry, ?_, ?_, hs.free, hs.locked⟩
    · intro hr hv hw
      rw [setAt_other _ _ _ (by simpa using hw)]
      exact hs.copy hr hv (by simp)
    · intro hr hv
      rw [htype]
      exact hs.live hr hv
  · intro j hj hz
    rw [htype] at hj
    by_cases he : j = i
    · rw [he, setAt_same, hl] at hz
      exact h.orphan j hj (he ▸ hz)
    · rw [setAt_other _ _ _ he] at hz
      exact h.orphan j hj hz
  · intro ip hh
    rw [htype]
    exact h.live ip hh
  · intro f ip ho hw
    rw [htype]
    exact h.writable f ip ho hw

theorem setAway (h : InMem p sb ino [i] t m) (hn : t.Names ip i) (f : Dinode → Dinode) :
    InMem p sb ino [i] t (m.setInode ip (fun x => { x with copy := f x.copy })) := by
  have hs := h.slot ip
  have hr := h.ref_pos hn
  have hi := h.inum_eq hn
  refine h.update (x := { m.inode ip with copy := f (m.inode ip).copy })
    ⟨hs.ref, hs.inum, hs.entry, ?_, hs.live, hs.free, hs.locked⟩
    (fun _ _ => ⟨rfl, fun _ => id, Iff.rfl⟩) (fun _ _ _ => rfl) ?_ h.nodup ?_ rfl rfl rfl rfl
    (fun _ _ => rfl)
  · intro _ _ hw
    exact absurd (List.mem_singleton.mpr hi) hw
  · intro jp hj _ hr' he
    exact hj (h.unique jp ip hr' hr he)
  · intro j ht hz hf
    obtain ⟨kp, h₁, h₂, h₃⟩ := h.orphan j ht hz hf
    by_cases hk : kp = ip
    · subst hk
      exact .inr ⟨h₁, h₂, h₃⟩
    · exact .inl ⟨kp, hk, h₁, h₂, h₃⟩

theorem comeBack (h : InMem p sb ino [i] t m) (hn : t.Names ip i)
    (hc : (m.inode ip).copy = ino i) : InMem p sb ino [] t m := by
  refine ⟨h.super, h.file, h.proc, ?_, h.unique, h.nodup, h.orphan, h.live, h.closed, h.writable⟩
  intro jp
  have hs := h.slot jp
  refine ⟨hs.ref, hs.inum, hs.entry, ?_, hs.live, hs.free, hs.locked⟩
  intro hr hv _
  by_cases he : (m.inode jp).inum = i
  · have hj := h.unique jp ip hr (h.ref_pos hn) (he.trans (h.inum_eq hn).symm)
    rw [hj, hc, h.inum_eq hn]
  · exact hs.copy hr hv (by simp [he])

/-- Nobody else knows an inode by its last reference. -/
theorem last (h : InMem p sb ino away (t.take ip i) m) (hr : (m.inode ip).ref = 1)
    (hl : ¬ t.Locks ip) (j : Nat) : ¬ t.Names ip j := by
  have hcount := (h.slot ip).ref
  rw [t.count_take] at hcount
  rintro (hj | hj | hj)
  · have := Holders.count_pos hj
    omega
  · exact hl (List.mem_map.mpr ⟨_, hj, rfl⟩)
  · unfold Holders.count at hcount
    omega

/-- iput() of the last reference frees the inode. -/
theorem free (h : InMem p sb ino away ((t.take ip i).lock ip i) m) (hr : (m.inode ip).ref = 1)
    {c : Dinode} (hc : c.type = 0) :
    InMem p sb (setAt ino i c) away t (m.setInode ip (fun x =>
      { x with ref := x.ref - 1, lock := none, valid := false, copy := c })) := by
  have hn : ((t.take ip i).lock ip i).Names ip i := Holders.names_lock _ |>.mpr (.inl ⟨rfl, rfl⟩)
  have hi := h.inum_eq hn
  obtain ⟨hnew, hnd⟩ := List.nodup_cons.mp h.nodup
  have hcount : (m.inode ip).ref = ((t.take ip i).count ip : Nat) := (h.slot ip).ref
  rw [t.count_take] at hcount
  have hno : ∀ j, ¬ t.Names ip j := fun j => h.unlock.last (by rw [setInode_same]; exact hr) hnew j
  have hbase : ∀ jp, 0 < t.held jp → t.base jp ≠ i := by
    intro jp hj he
    have hj' : ((t.take ip i).lock ip i).Names jp i := .inr (.inr ⟨hj, he⟩)
    have := h.names_inj hj' hn
    subst this
    exact hno i (.inr (.inr ⟨hj, he⟩))
  refine h.update (x := { m.inode ip with
      ref := (m.inode ip).ref - 1, lock := none, valid := false, copy := c })
    ⟨?_, fun j hj => absurd hj (hno j), ?_, nofun, nofun, fun _ => rfl, fun hl => absurd hl hnew⟩
    ?_ ?_ ?_ hnd ?_ rfl rfl rfl rfl ?_
  · change (m.inode ip).ref - 1 = _
    omega
  · intro hr'
    change 0 < (m.inode ip).ref - 1 at hr'
    omega
  · intro jp hj
    have h₁ := Holders.agree_unlock (t.take ip i) i hj
    have h₂ := t.agree_drop i hj
    exact ⟨h₂.count.trans h₁.count, fun j hj => h₁.names j (h₂.names j hj), h₂.locks.trans h₁.locks⟩
  · intro jp hj hr'
    exact setAt_other _ _ _ (fun he => hj (h.unique jp ip hr' (by omega) (he.trans hi.symm)))
  · intro jp _ hr'
    change 0 < (m.inode ip).ref - 1 at hr'
    omega
  · intro j hj hz hf
    have he : j ≠ i := by
      intro he
      rw [he, setAt_same] at hj
      exact hj hc
    rw [setAt_other _ _ _ he] at hj hz
    obtain ⟨kp, h₁, h₂, h₃⟩ := h.orphan j hj hz hf
    exact .inl ⟨kp, fun hk => he (h₃.symm.trans (hk ▸ hi)), h₁, h₂, h₃⟩
  · intro jp hj
    exact congrArg Dinode.type (setAt_other _ _ _ (hbase jp hj))

end InMem
end
end Xv6
