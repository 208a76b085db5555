import Xv6.Proofs.Dirs
import Xv6.Proofs.Trunc

namespace Xv6

/-- Every name leads to an allocated inode. -/
structure Sound (N : Nat → Node) : Prop where
  root : (N ROOTINO).type ≠ 0
  entry : ∀ i s, (N i).type = T_DIR → ((N i).entry s).inum ≠ 0 →
    (N ((N i).entry s).inum).type ≠ 0

variable {p : ProcId} {ok : Panic → Prop} {sb : Superblock} {N : Nat → Node} {t : Holders}
  {ino : Nat → Dinode} {ahead loose away : List Nat} {fs : Fs} {ip jp : InodePtr} {i j : Nat}

theorem Inside.perm (h : Inside p sb N t fs) {rs ls : List (InodePtr × Nat)} (hr : t.refs.Perm rs)
    (hl : t.locked.Perm ls) : Inside p sb N { t with refs := rs, locked := ls } fs := by
  obtain ⟨ino, h⟩ := h
  exact ⟨ino, h.setMem (h.mem.perm hr hl)⟩

theorem Inside.sure (h : Inside p sb N t fs) (hl : t.Locks ip) : 0 < t.count ip := by
  obtain ⟨ino, h⟩ := h
  have hs := h.mem.slot ip
  have := (hs.locked hl).2.1
  rw [hs.ref] at this
  omega

/-- What a locked inode shows, and that it is not locked twice. -/
theorem Inside.unlocked (h : Inside p sb N (t.lock ip i) fs) : ¬ t.Locks ip := by
  obtain ⟨ino, h⟩ := h
  exact (List.nodup_cons.mp h.mem.nodup).1

theorem Inside.sane (h : Inside p sb N t fs) : Sane sb N := by
  obtain ⟨ino, h⟩ := h
  exact h.sane

/-- An entry past the end of a directory is empty. -/
theorem Inside.past (h : Inside p sb N t fs) {s : Nat} (hs : (N i).size ≤ 16 * s) :
    (N i).entry s = .empty := by
  obtain ⟨ino, h⟩ := h
  rw [h.node i] at hs ⊢
  by_cases ht : (ino i).type = 0
  · rw [node_free ht]
    rfl
  · rw [node_live ht] at hs ⊢
    exact if_neg (fun hc => by dsimp only at hs; omega)

/- dirlookup(). -/

theorem find_some {n : Node} {name : List UInt8} {s : Nat} (h : n.find name = some s) :
    16 * s < n.size ∧ (n.entry s).named name := by
  obtain ⟨-, hlt, hp, -⟩ := firstFrom_some h
  exact ⟨by omega, of_decide_eq_true hp⟩

theorem dirlookupFrom_spec (hsb : sb.Ok) (h : Inside p sb N t fs) (hl : (ip, i) ∈ t.locked)
    (hd : (N i).type = T_DIR) (name : List UInt8) (k fuel s : Nat)
    (hk : (N i).size = 16 * (s + k)) (hf : k ≤ fuel) :
    (Kern.dirlookupFrom ip name (N i).size fuel (16 * s)).Ensures (Fs.run p) ok (fun r fs' =>
      Inside p sb N t fs' ∧
      r = (firstFrom (fun s => decide (((N i).entry s).named name)) k s).map
        (fun s => (((N i).entry s).inum, 16 * s))) fs := by
  induction k generalizing s fs fuel with
  | zero =>
    cases fuel with
    | zero => exact ⟨h, rfl⟩
    | succ fuel =>
      unfold Kern.dirlookupFrom
      rw [if_neg (by omega)]
      exact ⟨h, rfl⟩
  | succ k ih =>
    obtain ⟨fuel, rfl⟩ : ∃ f, fuel = f + 1 := ⟨fuel - 1, by omega⟩
    have hlt : 16 * s < (N i).size := by omega
    unfold Kern.dirlookupFrom firstFrom
    rw [if_pos hlt]
    apply Free.Ensures.seq (readDirent_spec hsb h hl hd hlt _)
    rintro de fs₁ ⟨h₁, rfl⟩
    apply ensures_ite
    · intro hm
      rw [if_pos (decide_eq_true (show ((N i).entry s).named name from hm))]
      exact ⟨h₁, rfl⟩
    · intro hm
      rw [decide_eq_false (show ¬ ((N i).entry s).named name from hm)]
      exact ih h₁ fuel (s + 1) (by omega) (by omega)

/-- What dirlookup() answers for a name in directory `i`. -/
def LookedUp (p : ProcId) (sb : Superblock) (N : Nat → Node) (t : Holders) (i : Nat)
    (name : List UInt8) (r : Option (InodePtr × Nat)) (fs' : Fs) : Prop :=
  match r with
  | none => (N i).find name = none ∧ Inside p sb N t fs'
  | some (jp, off) => ∃ s, (N i).find name = some s ∧ off = 16 * s ∧
      Inside p sb N (t.take jp ((N i).entry s).inum) fs'

theorem dirlookup_spec (hok : Benign ok) (hsb : sb.Ok) (h : Inside p sb N t fs)
    (hl : (ip, i) ∈ t.locked) (hd : (N i).type = T_DIR) (name : List UInt8) :
    (Kern.dirlookup ip name).Ensures (Fs.run p) ok (LookedUp p sb N t i name) fs := by
  have hr := h.reads hl
  obtain ⟨hmod, hin⟩ := h.sane i hd
  unfold Kern.dirlookup Kern.inodeOf
  rw [Free.ensures_bind, ensures_get, hr.type, hr.size, hr.dev, if_neg (fun hne => hne hd)]
  apply Free.Ensures.seq (dirlookupFrom_spec hsb h hl hd name ((N i).size / 16) _ 0 (by omega)
    (by omega))
  rintro r fs₁ ⟨h₁, hr₁⟩
  have hr₁ : r = ((N i).find name).map (fun s => (((N i).entry s).inum, 16 * s)) := hr₁
  cases hf : (N i).find name with
  | none =>
    rw [hf] at hr₁
    subst hr₁
    exact ⟨hf, h₁⟩
  | some s =>
    rw [hf] at hr₁
    subst hr₁
    apply Free.Ensures.seq (iget_spec hok h₁ ⟨Nat.pos_of_ne_zero (find_some hf).2.1, hin s⟩)
    intro jp fs₂ h₂
    exact ⟨s, hf, rfl, h₂⟩

/- dirlink(). -/

theorem emptyDirent_spec (hsb : sb.Ok) (h : Inside p sb N t fs) (hl : (ip, i) ∈ t.locked)
    (hd : (N i).type = T_DIR) (fuel s : Nat) (hf : (N i).size ≤ 16 * (s + fuel))
    (hs : 16 * s ≤ (N i).size) (hbefore : ∀ s', s' < s → ((N i).entry s').inum ≠ 0) :
    (Kern.emptyDirent ip (N i).size fuel (16 * s)).Ensures (Fs.run p) ok (fun off fs' =>
      Inside p sb N t fs' ∧ ∃ s', off = 16 * s' ∧ 16 * s' ≤ (N i).size ∧
        ((N i).entry s').inum = 0 ∧ ∀ s'', s'' < s' → ((N i).entry s'').inum ≠ 0) fs := by
  induction fuel generalizing s fs with
  | zero =>
    refine ⟨h, s, rfl, hs, ?_, hbefore⟩
    rw [h.past (by omega)]
    rfl
  | succ fuel ih =>
    unfold Kern.emptyDirent
    apply ensures_ite
    · intro hlt
      apply Free.Ensures.seq (readDirent_spec hsb h hl hd hlt _)
      rintro de fs₁ ⟨h₁, rfl⟩
      apply ensures_ite
      · intro hz
        exact ⟨h₁, s, rfl, hs, hz, hbefore⟩
      · intro hz
        have hmod := (h.sane i hd).1
        apply ih h₁ (s + 1) (by omega) (by omega)
        intro s' hs'
        by_cases he : s' = s
        · rw [he]
          exact hz
        · exact hbefore s' (by omega)
    · intro hge
      refine ⟨h, s, rfl, hs, ?_, hbefore⟩
      rw [h.past (by omega)]
      rfl

/-- What dirlink() has done to directory `i`. -/
def Linked (p : ProcId) (sb : Superblock) (N : Nat → Node) (t : Holders) (i : Nat)
    (name : List UInt8) (inum : Nat) (r : Bool) (fs' : Fs) : Prop :=
  match r with
  | false => Inside p sb N t fs'
  | true => ∃ s, 16 * s ≤ (N i).size ∧ ((N i).entry s).inum = 0 ∧
      (∀ s', s' < s → ((N i).entry s').inum ≠ 0) ∧ (N i).find name = none ∧
      Inside p sb (setAt N i ((N i).enter s ⟨inum, strncpy name⟩)) t fs'

theorem dirlink_spec (hok : Benign ok) (hsb : sb.Ok) (h : Inside p sb N t fs)
    (hl : (ip, i) ∈ t.locked) (hd : (N i).type = T_DIR) (hf : t.fresh = []) (name : List UInt8)
    {inum : Nat} (hi : inum < sb.ninodes) :
    (Kern.dirlink ip name inum).Ensures (Fs.run p) ok (Linked p sb N t i name inum) fs := by
  unfold Kern.dirlink
  apply Free.Ensures.seq (dirlookup_spec hok hsb h hl hd name)
  rintro (_ | ⟨jp, off⟩) fs₁ h₁
  · obtain ⟨hno, h₁⟩ := h₁
    have hr := h₁.reads hl
    have hlen := length_encode_strncpy inum name
    have hlt := hsb.ninodes
    unfold Kern.inodeOf
    rw [Free.ensures_bind, ensures_get, hr.size]
    apply Free.Ensures.seq (emptyDirent_spec hsb h₁ hl hd _ 0 (by omega) (by omega)
      (fun s' hs' => absurd hs' (Nat.not_lt_zero s')))
    rintro off fs₂ ⟨h₂, s, rfl, hs, hz, hbefore⟩
    have hde : direntOf (Dirent.encode ⟨inum, strncpy name⟩) = ⟨inum, strncpy name⟩ :=
      direntOf_encode (by change inum < 2 ^ 16; omega)
    refine Free.Ensures.seq (writei_entry_spec hok hsb h₂ hl hd hs hlen (by rw [hde]; exact hi)) ?_
    rintro n fs₃ (⟨hn, h₃⟩ | ⟨hn, h₃⟩)
    · rw [show (n == 16) = false from beq_eq_false_iff_ne.mpr hn]
      exact h₃
    · rw [hde] at h₃
      rw [hn]
      exact ⟨s, hs, hz, hbefore, hno, h₃⟩
  · obtain ⟨s, -, -, h₁⟩ := h₁
    apply Free.Ensures.seq (iput_kept hok hsb h₁ h.sure (h.kept (by rw [hf]; simp)))
    intro _ fs₂ h₂
    exact h₂

/- isdirempty(). -/

theorem isdiremptyFrom_spec (hsb : sb.Ok) (h : Inside p sb N t fs) (hl : (ip, i) ∈ t.locked)
    (hd : (N i).type = T_DIR) (fuel s : Nat) (hf : (N i).size ≤ 16 * (s + fuel)) :
    (Kern.isdiremptyFrom ip (N i).size fuel (16 * s)).Ensures (Fs.run p) ok (fun r fs' =>
      Inside p sb N t fs' ∧ (r = true → ∀ s', s ≤ s' → ((N i).entry s').inum = 0)) fs := by
  induction fuel generalizing s fs with
  | zero =>
    refine ⟨h, fun _ s' hs' => ?_⟩
    rw [h.past (by omega)]
    rfl
  | succ fuel ih =>
    unfold Kern.isdiremptyFrom
    apply ensures_ite
    · intro hlt
      apply Free.Ensures.seq (readDirent_spec hsb h hl hd hlt _)
      rintro de fs₁ ⟨h₁, rfl⟩
      apply ensures_ite
      · intro _
        exact ⟨h₁, nofun⟩
      · intro hz
        refine (ih h₁ (s + 1) (by omega)).mono ?_
        rintro r fs' ⟨h', hr⟩
        refine ⟨h', fun he s' hs' => ?_⟩
        by_cases he' : s' = s
        · rw [he']
          exact Decidable.of_not_not hz
        · exact hr he s' (by omega)
    · intro hge
      refine ⟨h, fun _ s' hs' => ?_⟩
      rw [h.past (by omega)]
      rfl

theorem isdirempty_spec (hsb : sb.Ok) (h : Inside p sb N t fs) (hl : (ip, i) ∈ t.locked)
    (hd : (N i).type = T_DIR) :
    (Kern.isdirempty ip).Ensures (Fs.run p) ok (fun r fs' =>
      Inside p sb N t fs' ∧ (r = true → ∀ s, 2 ≤ s → ((N i).entry s).inum = 0)) fs := by
  have hr := h.reads hl
  unfold Kern.isdirempty Kern.inodeOf
  rw [Free.ensures_bind, ensures_get, hr.size]
  exact isdiremptyFrom_spec hsb h hl hd _ 2 (by omega)

/- namex(). -/

/-- What a path leads to: nothing, or an inode that the call now refers to. -/
def Resolved (p : ProcId) (sb : Superblock) (N : Nat → Node) (t : Holders) (ok : Panic → Prop)
    (w : Option (Nat × List UInt8)) (r : Option (InodePtr × List UInt8)) (fs' : Fs) : Prop :=
  match r with
  | none => w = none ∧ Inside p sb N t fs'
  | some (jp, name) => ∃ j, w = some (j, name) ∧ (ok .ilockNoType ∨ (N j).type ≠ 0) ∧
      Inside p sb N (t.take jp j) fs'

theorem walk_parent {path name name' : List UInt8} {fuel : Nat}
    (h : walk N true fuel i path name = some (j, name')) : (N j).type = T_DIR := by
  induction fuel generalizing i path name with
  | zero => cases h
  | succ fuel ih =>
    unfold walk at h
    split at h
    · cases h
    · split at h
      · cases h
      · rename_i hd
        split at h
        · cases h
          exact Decidable.of_not_not hd
        · split at h
          · cases h
          · exact ih h

theorem skipelem_noslash {path name rest : List UInt8} (h : skipelem path = some (name, rest)) :
    slash ∉ name := by
  unfold skipelem at h
  split at h
  · cases h
  · simp only [Option.some.injEq, Prod.mk.injEq] at h
    rw [← h.1]
    intro hm
    have := List.all_eq_true.mp List.all_takeWhile slash (List.mem_of_mem_take hm)
    simp at this

/-- The last element of a path is one. -/
theorem walk_noslash {path name name' : List UInt8} {fuel : Nat}
    (h : walk N true fuel i path name = some (j, name')) : slash ∉ name' := by
  induction fuel generalizing i path name with
  | zero => cases h
  | succ fuel ih =>
    unfold walk at h
    split at h
    · cases h
    · rename_i hskip
      split at h
      · cases h
      · split at h
        · cases h
          exact skipelem_noslash hskip
        · split at h
          · cases h
          · exact ih h

theorem iunlockput_kept (hok : Benign ok) (hsb : sb.Ok)
    (h : Inside p sb N ((t.take ip i).lock ip i) fs) (hl : ¬ t.Locks ip) (hk : Kept N t i) :
    (Kern.iunlockput ip).Ensures (Fs.run p) ok (fun _ fs' => Inside p sb N t fs') fs := by
  unfold Kern.iunlockput
  apply Free.Ensures.seq (iunlock_spec hok h)
  intro _ fs₁ h₁
  exact iput_kept hok hsb h₁ (fun hl' => absurd hl' hl) hk

theorem Kept.take (h : Kept N t i) : Kept N (t.take jp j) i :=
  h.imp id (Or.imp id (fun ⟨kp, hk⟩ => ⟨kp, t.names_take.mpr (.inr hk)⟩))

theorem skipelem_length {path name rest : List UInt8} (h : skipelem path = some (name, rest)) :
    rest.length < path.length := by
  have hdrop := (List.dropWhile_sublist (fun c => c == slash) (l := path)).length_le
  unfold skipelem at h
  cases hp : path.dropWhile (fun c => c == slash) with
  | nil =>
    rw [hp] at h
    cases h
  | cons c l =>
    -- the first byte of the element is not a slash
    have hc : (c != slash) = true := by
      have := List.head_dropWhile_not (fun c => c == slash) (l := path) (by rw [hp]; simp)
      simp only [hp, List.head_cons] at this
      simpa [bne] using this
    rw [hp] at h hdrop
    simp only [Option.some.injEq, Prod.mk.injEq, List.takeWhile_cons, hc, if_true,
      List.length_cons, List.drop_succ_cons] at h
    rw [← h.2]
    have h₁ := (List.dropWhile_sublist (fun c => c == slash)
      (l := l.drop (l.takeWhile (fun c => c != slash)).length)).length_le
    have h₂ := List.length_drop (i := (l.takeWhile (fun c => c != slash)).length) (l := l)
    simp only [List.length_cons] at hdrop
    omega

theorem namexFrom_spec (hok : Benign ok) (hsb : sb.Ok) (hs : ok .ilockNoType ∨ Sound N)
    (hlk : t.locked = []) (hk : ∀ j, Kept N t j) (parent : Bool) (fuel : Nat)
    (path name : List UInt8) (hlen : path.length < fuel) (h : Inside p sb N (t.take ip i) fs)
    (ht : ok .ilockNoType ∨ (N i).type ≠ 0) :
    (Kern.namexFrom parent fuel ip path name).Ensures (Fs.run p) ok
      (Resolved p sb N t ok (walk N parent fuel i path name)) fs := by
  have hnl : ∀ jp, ¬ t.Locks jp := by
    intro jp hl
    rw [Holders.Locks, hlk] at hl
    exact absurd hl (by simp)
  induction fuel generalizing ip i path name fs with
  | zero => exact absurd hlen (Nat.not_lt_zero _)
  | succ fuel ih =>
    unfold Kern.namexFrom walk
    cases hskip : skipelem path with
    | none =>
      apply ensures_ite
      · intro hp
        rw [if_pos hp]
        apply Free.Ensures.seq (iput_kept hok hsb h (fun hl => absurd hl (hnl ip)) (hk i))
        exact fun _ fs₁ h₁ => ⟨rfl, h₁⟩
      · intro hp
        rw [if_neg hp]
        exact ⟨i, rfl, ht, h⟩
    | some e =>
      obtain ⟨name, rest⟩ := e
      have := skipelem_length hskip
      have hn : (t.take ip i).Names ip i := t.names_take.mpr (.inl ⟨rfl, rfl⟩)
      apply Free.Ensures.seq (ilock_spec hok hsb h hn ht)
      rintro - fs₁ ⟨h₁, -⟩
      have hr := h₁.reads List.mem_cons_self
      unfold Kern.inodeOf
      rw [Free.ensures_bind, ensures_get, hr.type]
      apply ensures_ite
      · intro hd
        simp only [if_pos hd]
        apply Free.Ensures.seq (iunlockput_kept hok hsb h₁ (hnl ip) (hk i))
        exact fun _ fs₂ h₂ => ⟨rfl, h₂⟩
      · intro hd
        simp only [if_neg hd]
        have hd := Decidable.of_not_not hd
        apply ensures_ite
        · intro hp
          rw [if_pos hp]
          apply Free.Ensures.seq (iunlock_spec hok h₁)
          exact fun _ fs₂ h₂ => ⟨i, rfl, .inr (by rw [hd]; decide), h₂⟩
        · intro hp
          rw [if_neg hp]
          apply Free.Ensures.seq (dirlookup_spec hok hsb h₁ List.mem_cons_self hd name)
          rintro (_ | ⟨jp, off⟩) fs₂ h₂
          · rw [h₂.1]
            apply Free.Ensures.seq (iunlockput_kept hok hsb h₂.2 (hnl ip) (hk i))
            exact fun _ fs₃ h₃ => ⟨rfl, h₃⟩
          · obtain ⟨s, hf, -, h₂⟩ := h₂
            have h₂' : Inside p sb N
                (((t.take jp ((N i).entry s).inum).take ip i).lock ip i) fs₂ :=
              h₂.perm (.swap _ _ _) (.refl _)
            rw [hf]
            apply Free.Ensures.seq (iunlockput_kept hok hsb h₂' (hnl ip) (hk i).take)
            intro _ fs₃ h₃
            exact ih rest name (by omega) h₃ (hs.imp id (fun hs => hs.entry i s hd (find_some hf).2.1))

/-- The call has no inode locked or half made. -/
structure Holders.Calm (t : Holders) : Prop where
  locked : t.locked = []
  fresh : t.fresh = []
  moving : t.moving = false

theorem Holders.Calm.take (h : t.Calm) (ip : InodePtr) (i : Nat) : (t.take ip i).Calm :=
  ⟨h.locked, h.fresh, h.moving⟩

theorem Holders.Calm.unlocked (h : t.Calm) (ip : InodePtr) : ¬ t.Locks ip := by
  rw [Holders.Locks, h.locked]
  simp

/-- The number of the working directory. -/
def Holders.cwd (t : Holders) (p : ProcId) : Nat :=
  match (t.proc p).bind Proc.cwd with
  | none => 0
  | some ip => t.base ip

/-- The file where a path starts. -/
def Holders.start (t : Holders) (p : ProcId) (path : List UInt8) : Nat :=
  if path.head? = some slash then ROOTINO else t.cwd p

theorem namexStart_spec (hok : Benign ok) (hsb : sb.Ok) (hs : ok .ilockNoType ∨ Sound N)
    (h : Inside p sb N t fs) (hc : t.Calm) (path : List UInt8) :
    (Kern.namexStart path).Ensures (Fs.run p) ok (fun ip fs' =>
      (ok .ilockNoType ∨ (N (t.start p path)).type ≠ 0) ∧
      Inside p sb N (t.take ip (t.start p path)) fs') fs := by
  unfold Kern.namexStart Holders.start
  apply ensures_ite
  · intro hslash
    rw [if_pos hslash]
    refine (iget_spec hok h ⟨by decide, hsb.root⟩).mono (fun ip fs' h' => ⟨?_, h'⟩)
    exact hs.imp id (fun hs => hs.root)
  · intro hslash
    rw [if_neg hslash]
    obtain ⟨ino, h⟩ := h
    have hproc := h.mem.proc
    rw [hc.moving, if_neg (by decide)] at hproc
    rw [ensures_mem]
    split
    · rename_i ip hcwd
      rw [← hproc] at hcwd
      have hheld : 0 < t.held ip := held_pos.mpr (.inr ⟨p, decide_eq_true hcwd⟩)
      have hn : t.Names ip (t.base ip) := .inr (.inr ⟨hheld, rfl⟩)
      rw [show t.cwd p = t.base ip by rw [Holders.cwd, hcwd]]
      refine ⟨.inr ?_, ino, h.setMem (h.mem.take (h.mem.ref_pos hn) (h.mem.inum_eq hn))⟩
      rw [h.type_eq]
      exact h.mem.live ip hheld
    · exact hok _ (by decide) (by decide) (by decide) (by decide)

theorem namex_spec (hok : Benign ok) (hsb : sb.Ok) (hs : ok .ilockNoType ∨ Sound N)
    (h : Inside p sb N t fs) (hc : t.Calm) (path : List UInt8) (parent : Bool) :
    (Kern.namex path parent).Ensures (Fs.run p) ok
      (Resolved p sb N t ok (walk N parent (path.length + 1) (t.start p path) path [])) fs := by
  have hk : ∀ j, Kept N t j := fun j => h.kept (by rw [hc.fresh]; simp)
  apply Free.Ensures.seq (namexStart_spec hok hsb hs h hc path)
  rintro ip fs₁ ⟨ht, h₁⟩
  exact namexFrom_spec hok hsb hs hc.locked hk parent _ path [] (by omega) h₁ ht

theorem namei_spec (hok : Benign ok) (hsb : sb.Ok) (hs : ok .ilockNoType ∨ Sound N)
    (h : Inside p sb N t fs) (hc : t.Calm) (path : List UInt8) :
    (Kern.namei path).Ensures (Fs.run p) ok (fun r fs' => match r with
      | none => resolve N (t.cwd p) path = none ∧ Inside p sb N t fs'
      | some ip => ∃ i, resolve N (t.cwd p) path = some i ∧
          (ok .ilockNoType ∨ (N i).type ≠ 0) ∧ Inside p sb N (t.take ip i) fs') fs := by
  unfold Kern.namei resolve
  apply Free.Ensures.seq (namex_spec hok hsb hs h hc path false)
  rintro (_ | ⟨ip, name⟩) fs₁ h₁
  · exact ⟨congrArg (Option.map Prod.fst) h₁.1, h₁.2⟩
  · obtain ⟨i, hw, ht, h₁⟩ := h₁
    exact ⟨i, congrArg (Option.map Prod.fst) hw, ht, h₁⟩

/-- The directory in which the last element of a path is looked up, and that element. -/
def resolveParent (N : Nat → Node) (start : Nat) (path : List UInt8) :
    Option (Nat × List UInt8) :=
  walk N true (path.length + 1) start path []

theorem nameiparent_spec (hok : Benign ok) (hsb : sb.Ok) (hs : ok .ilockNoType ∨ Sound N)
    (h : Inside p sb N t fs) (hc : t.Calm) (path : List UInt8) :
    (Kern.nameiparent path).Ensures (Fs.run p) ok (fun r fs' => match r with
      | none => resolveParent N (t.start p path) path = none ∧ Inside p sb N t fs'
      | some (dp, name) => ∃ d, resolveParent N (t.start p path) path = some (d, name) ∧
          (N d).type = T_DIR ∧ Inside p sb N (t.take dp d) fs') fs := by
  refine (namex_spec hok hsb hs h hc path true).mono ?_
  rintro (_ | ⟨dp, name⟩) fs₁ h₁
  · exact h₁
  · obtain ⟨d, hw, -, h₁⟩ := h₁
    exact ⟨d, hw, walk_parent hw, h₁⟩

end Xv6
