import Xv6.Proofs.Linking

namespace Xv6
variable {p : ProcId} {ok : Panic → Prop} {sb : Superblock} {N : Nat → Node} {t : Holders}
  {fs : Fs} {ip dp : InodePtr} {i d : Nat}

/-- A new inode is no longer special once it is locked. -/
theorem Inside.settle {l : List Nat} (h : Inside p sb N t fs) (hf : t.fresh = i :: l)
    (hl : (ip, i) ∈ t.locked) : Inside p sb N { t with fresh := l } fs := by
  obtain ⟨ino, h⟩ := h
  obtain ⟨hn, hv, -⟩ := h.locked hl
  exact ⟨ino, h.setMem (h.mem.settle hf hn hv)⟩

theorem Inside.free_eq (h : Inside p sb N t fs) (hz : (N i).type = 0) : N i = .free := by
  obtain ⟨ino, h⟩ := h
  rw [h.type_eq] at hz
  rw [h.node i, node_free hz]

/-- Nobody holds a free inode. -/
theorem Inside.unheld (h : Inside p sb N t fs) (hz : (N i).type = 0) (hr : ∀ jp, (jp, i) ∉ t.refs)
    (jp : InodePtr) : ¬ t.Names jp i := by
  rintro (hn | hn | ⟨hn, he⟩)
  · exact hr jp hn
  · exact h.live hn hz
  · obtain ⟨ino, h⟩ := h
    rw [h.type_eq] at hz
    exact h.mem.live jp hn (by rw [he]; exact hz)

/-- create() with directory `d` and the new inode `i` locked. -/
def Holders.creating (t : Holders) (dp : InodePtr) (d : Nat) (ip : InodePtr) (i : Nat) : Holders :=
  (((t.take dp d).lock dp d).take ip i).lock ip i

theorem Holders.mem_creating_dir (t : Holders) (dp : InodePtr) (d : Nat) (ip : InodePtr) (i : Nat) :
    (dp, d) ∈ (t.creating dp d ip i).locked := List.mem_cons_of_mem _ List.mem_cons_self

theorem Holders.mem_creating (t : Holders) (dp : InodePtr) (d : Nat) (ip : InodePtr) (i : Nat) :
    (ip, i) ∈ (t.creating dp d ip i).locked := List.mem_cons_self

/-- What the parts of create() need to know about the inode that was free in `N`. -/
structure Creating (N : Nat → Node) (t : Holders) (d i : Nat) : Prop where
  calm : t.Calm
  refs : t.refs = []
  dir : (N d).type = T_DIR
  free : N i = .free
  unheld : ∀ jp, ¬ t.Names jp i
  kept : Kept N t d

theorem Creating.ne (h : Creating N t d i) : i ≠ d := by
  rintro rfl
  have := h.dir
  rw [h.free] at this
  exact absurd this (by decide)

theorem createFail_spec (hok : Benign ok) (hsb : sb.Ok) (hc : Creating N t d i) {n : Node}
    (h : Inside p sb (setAt N i n) (t.creating dp d ip i) fs) :
    (Kern.createFail dp ip).Ensures (Fs.run p) ok (fun r fs' =>
      r = none ∧ Inside p sb N t fs') fs := by
  have hs := h.short (t.mem_creating dp d ip i)
  have hlive := h.live (t.mem_creating dp d ip i)
  have hnl : ¬ ((t.take dp d).lock dp d).Locks ip := h.unlocked
  rw [setAt_same] at hlive
  unfold Kern.createFail
  refine relink_seq hok hsb h (t.mem_creating dp d ip i) (a := id) (b := id) (l := fun _ => 0)
    ⟨hs.major, hs.minor, rfl⟩ rfl (fun fs₁ h₁ => ?_)
  rw [setAt_same, setAt_setAt] at h₁
  apply Free.Ensures.seq (iunlockput_frees hok hsb h₁ hnl)
  rintro - fs₂ ⟨N₂, hN₂, -, h₂⟩
  have hN : N₂ = N := by
    rcases hN₂ with rfl | ⟨-, -, rfl⟩
    · -- the inode has no links, and nobody else holds it
      have hkept := h₂.kept (i := i) (by
        rw [show ((t.take dp d).lock dp d).fresh = [] from hc.calm.fresh]
        simp)
      unfold Kept at hkept
      rw [setAt_same] at hkept
      rcases hkept with hz | hz | ⟨jp, hj⟩
      · exact absurd hz hlive
      · exact absurd rfl hz
      · rw [Holders.names_lock, Holders.names_take] at hj
        rcases hj with hj | hj | hj
        · exact absurd hj.2 hc.ne
        · exact absurd hj.2 hc.ne
        · exact absurd hj (hc.unheld jp)
    · rw [setAt_setAt, ← hc.free, setAt_self]
  subst hN
  apply Free.Ensures.seq (iunlockput_kept hok hsb h₂ (hc.calm.unlocked dp) hc.kept)
  exact fun _ fs₃ h₃ => ⟨rfl, h₃⟩

/-- What the end of create() has done to the files. -/
def CreateDone (p : ProcId) (sb : Superblock) (N : Nat → Node) (t : Holders) (d i : Nat)
    (name : List UInt8) (new : Node) (ip : InodePtr) (r : Option InodePtr) (fs' : Fs) : Prop :=
  (r = none ∧ Inside p sb N t fs') ∨ (r = some ip ∧ ∃ s N', Enters N d s name ∧
    Frees d (makeAt N d s i name new) N' ∧ ((N d).nlink = 0 → N' = makeAt N d s i name new) ∧
    Inside p sb N' ((t.take ip i).lock ip i) fs')

theorem createEntry_spec (hok : Benign ok) (hsb : sb.Ok) (hc : Creating N t d i) {n : Node}
    (h : Inside p sb (setAt N i n) (t.creating dp d ip i) fs) {name : List UInt8} (hname : slash ∉ name) :
    (Kern.createEntry dp ip name n.type).Ensures (Fs.run p) ok
      (CreateDone p sb N t d i name n ip) fs := by
  have hld := t.mem_creating_dir dp d ip i
  have hl := t.mem_creating dp d ip i
  have hr := h.reads hl
  obtain ⟨-, -, -, hlt⟩ := h.entry_of (.inr (.inl hl))
  have hne := hc.ne
  have hnd : setAt N i n d = N d := setAt_other _ _ _ hne.symm
  have hp : ip ≠ dp := by
    rintro rfl
    exact h.unlocked (Holders.locks_lock _ |>.mpr (.inl rfl))
  have hnl : ¬ ((t.take ip i).lock ip i).Locks dp := by
    rw [Holders.locks_lock]
    rintro (he | hl)
    · exact hp he.symm
    · exact hc.calm.unlocked dp hl
  unfold Kern.createEntry Kern.inodeOf
  rw [Free.ensures_bind, ensures_get, hr.inum]
  apply Free.Ensures.seq (dirlink_spec hok hsb h hld (by rw [hnd]; exact hc.dir) hc.calm.fresh name
    hlt)
  rintro (_ | _) fs₁ h₁
  · exact (createFail_spec hok hsb hc h₁).mono (fun r fs' h' => .inl h')
  · obtain ⟨s, hslot, hempty, hfirst, hnew, h₁⟩ := h₁
    rw [hnd] at hslot hempty hnew h₁
    simp only [hnd] at hfirst
    have hent : Enters N d s name := ⟨hc.dir, hslot, hempty, hfirst, hnew, hname⟩
    have hend : ∀ fs₂, Inside p sb (makeAt N d s i name n) (t.creating dp d ip i) fs₂ →
        (do
          Kern.iunlockput dp
          return some ip : KernM (Option InodePtr)).Ensures (Fs.run p) ok
            (CreateDone p sb N t d i name n ip) fs₂ := by
      intro fs₂ h₂
      have h₂' : Inside p sb (makeAt N d s i name n)
          ((((t.take ip i).lock ip i).take dp d).lock dp d) fs₂ :=
        h₂.perm (.swap _ _ _) (.swap _ _ _)
      apply Free.Ensures.seq (iunlockput_frees hok hsb h₂' hnl)
      rintro - fs₃ ⟨N', hN, hstay, h₃⟩
      refine .inr ⟨rfl, s, N', hent, hN, fun hz => hstay ?_, h₃⟩
      rcases hc.kept with hk | hk | ⟨jp, hk⟩
      · exact absurd (hk.symm.trans hc.dir) (by decide)
      · exact absurd hz hk
      · refine .inr (.inr ⟨jp, ?_⟩)
        rw [Holders.names_lock, Holders.names_take]
        exact .inr (.inr hk)
    rw [if_pos rfl, Free.ensures_bind]
    apply ensures_when
    · intro hdir
      have hs := h₁.short hld
      refine (relink_spec hok hsb h₁ hld (a := id) (b := id) (l := fun x => toShort (x + 1))
        ⟨hs.major, hs.minor, toShort_toShort _⟩).mono (fun _ fs₂ h₂ => hend fs₂ ?_)
      rw [setAt_same, setAt_setAt] at h₂
      rw [makeAt, if_pos hdir]
      exact h₂
    · intro hdir
      apply hend fs₁
      rw [makeAt, if_neg hdir]
      exact h₁

theorem createDots_spec (hok : Benign ok) (hsb : sb.Ok) (hc : Creating N t d i)
    {type major minor : Int} (htype : type = T_DIR)
    (h : Inside p sb (setAt N i (.made type major minor)) (t.creating dp d ip i) fs) :
    (Kern.createDots dp ip).Ensures (Fs.run p) ok (fun r fs' => ∃ n,
      Inside p sb (setAt N i n) (t.creating dp d ip i) fs' ∧
      (r = true → n = (Node.made type major minor).dots i d)) fs := by
  have hld := t.mem_creating_dir dp d ip i
  have hl := t.mem_creating dp d ip i
  have hri := h.reads hl
  have hrd := h.reads hld
  obtain ⟨-, -, hpos, hlt⟩ := h.entry_of (.inr (.inl hl))
  obtain ⟨-, -, -, hltd⟩ := h.entry_of (.inr (.inl hld))
  unfold Kern.createDots Kern.inodeOf
  rw [Free.ensures_bind, ensures_get, Free.ensures_bind, ensures_get, hri.inum, hrd.inum]
  apply Free.Ensures.seq (dirlink_spec hok hsb h hl (by rw [setAt_same]; exact htype) hc.calm.fresh
    dot hlt)
  rintro (_ | _) fs₁ h₁
  · exact ⟨_, h₁, nofun⟩
  · obtain ⟨s, hslot, -, -, -, h₁⟩ := h₁
    rw [setAt_same] at hslot h₁
    rw [setAt_setAt] at h₁
    have hs : s = 0 := by
      change 16 * s ≤ 0 at hslot
      omega
    subst hs
    rw [if_pos rfl]
    refine (dirlink_spec hok hsb h₁ hl (by rw [setAt_same]; exact htype) hc.calm.fresh dotdot
      hltd).mono ?_
    rintro (_ | _) fs₂ h₂
    · exact ⟨_, h₂, nofun⟩
    · obtain ⟨s, hslot, hempty, -, -, h₂⟩ := h₂
      rw [setAt_same] at hslot hempty h₂
      rw [setAt_setAt] at h₂
      have hs : s = 1 := by
        have h₀ : s ≠ 0 := by
          rintro rfl
          rw [Node.entry_enter] at hempty
          exact absurd hempty (Nat.pos_iff_ne_zero.mp hpos)
        change 16 * s ≤ 16 at hslot
        omega
      subst hs
      exact ⟨_, h₂, fun _ => rfl⟩

/-- What create() has done. -/
def Created (p : ProcId) (sb : Superblock) (N : Nat → Node) (t : Holders) (path : List UInt8)
    (type major minor : Int) (r : Option InodePtr) (fs' : Fs) : Prop :=
  match r with
  | none => Inside p sb N t fs'
  | some ip =>
    (∃ i, type = T_FILE ∧ ((N i).type = T_FILE ∨ (N i).type = T_DEVICE) ∧
      Inside p sb N ((t.take ip i).lock ip i) fs') ∨
    ∃ d s i name N', resolveParent N (t.start p path) path = some (d, name) ∧
      Makes N d s i name type ∧
      Frees d (makeAt N d s i name (.new type (toShort major) (toShort minor) i d)) N' ∧
      ((N d).nlink = 0 →
        N' = makeAt N d s i name (.new type (toShort major) (toShort minor) i d)) ∧
      Inside p sb N' ((t.take ip i).lock ip i) fs'

/-- create() has made a file, or failed. -/
def CreatedNew (p : ProcId) (sb : Superblock) (N : Nat → Node) (t : Holders) (path : List UInt8)
    (type major minor : Int) (r : Option InodePtr) (fs' : Fs) : Prop :=
  match r with
  | none => Inside p sb N t fs'
  | some ip => ∃ d s i name N', resolveParent N (t.start p path) path = some (d, name) ∧
      Makes N d s i name type ∧
      Frees d (makeAt N d s i name (.new type (toShort major) (toShort minor) i d)) N' ∧
      ((N d).nlink = 0 →
        N' = makeAt N d s i name (.new type (toShort major) (toShort minor) i d)) ∧
      Inside p sb N' ((t.take ip i).lock ip i) fs'

theorem createNew_spec (hok : Benign ok) (hsb : sb.Ok) (hc : t.Calm) (hrefs : t.refs = [])
    (h : Inside p sb N ((t.take dp d).lock dp d) fs) (hk : ∀ j, Kept N t j)
    (hd : (N d).type = T_DIR) {path : List UInt8} {name : List UInt8}
    (hpath : resolveParent N (t.start p path) path = some (d, name)) {type : Int}
    (htype : type = T_DIR ∨ type = T_FILE ∨ type = T_DEVICE) (major minor : Int) :
    (Kern.createNew dp name type (toShort major) (toShort minor)).Ensures (Fs.run p) ok
      (CreatedNew p sb N t path type major minor) fs := by
  have h₀ : type ≠ 0 := by rcases htype with rfl | rfl | rfl <;> decide
  have hshort : toShort type = type := by rcases htype with rfl | rfl | rfl <;> decide
  have hr := h.reads List.mem_cons_self
  unfold Kern.createNew Kern.inodeOf
  rw [Free.ensures_bind, ensures_get, hr.dev]
  apply Free.Ensures.seq (ialloc_spec hok hsb h h₀ hshort)
  rintro (_ | ip) fs₁ h₁
  · apply Free.Ensures.seq (iunlockput_kept hok hsb h₁ (hc.unlocked dp) (hk d))
    exact fun _ fs₂ h₂ => h₂
  · obtain ⟨i, hz, hpos, hlt, h₁⟩ := h₁
    have hrefs' : ∀ jp, (jp, i) ∉ ((t.take dp d).lock dp d).refs := by
      intro jp hj
      have hj : (jp, i) ∈ (dp, d) :: t.refs := hj
      rw [hrefs, List.mem_singleton, Prod.mk.injEq] at hj
      rw [hj.2, hd] at hz
      exact absurd hz (by decide)
    have hcr : Creating N t d i := by
      refine ⟨hc, hrefs, hd, h.free_eq hz, fun jp hj => h.unheld hz hrefs' jp ?_, hk d⟩
      rw [Holders.names_lock, Holders.names_take]
      exact .inr (.inr hj)
    have hn : (Holders.take { (t.take dp d).lock dp d with
        fresh := i :: ((t.take dp d).lock dp d).fresh } ip i).Names ip i :=
      Holders.names_take _ |>.mpr (.inl ⟨rfl, rfl⟩)
    apply Free.Ensures.seq (ilock_spec hok hsb h₁ hn (.inr (by rw [setAt_same]; exact h₀)))
    rintro - fs₂ ⟨h₂, -⟩
    have h₂ : Inside p sb (setAt N i (.fresh type)) (t.creating dp d ip i) fs₂ :=
      h₂.settle rfl List.mem_cons_self
    have hl := t.mem_creating dp d ip i
    refine relink_seq hok hsb h₂ hl (a := fun _ => toShort major)
      (b := fun _ => toShort minor) (l := fun _ => 1)
      ⟨toShort_toShort _, toShort_toShort _, rfl⟩ rfl (fun fs₃ h₃ => ?_)
    rw [setAt_setAt, setAt_same] at h₃
    have h₃ : Inside p sb (setAt N i (.made type (toShort major) (toShort minor)))
        (t.creating dp d ip i) fs₃ := h₃
    have hdone : ∀ {fs'} r, CreateDone p sb N t d i name
        (.new type (toShort major) (toShort minor) i d) ip r fs' →
        CreatedNew p sb N t path type major minor r fs' := by
      rintro fs' r (⟨rfl, h'⟩ | ⟨rfl, s, N', hent, hN, hstay, h'⟩)
      · exact h'
      · exact ⟨d, s, i, name, N', hpath, ⟨hent, hz, hpos, htype⟩, hN, hstay, h'⟩
    apply ensures_ite
    · intro hdir
      apply Free.Ensures.seq (createDots_spec hok hsb hcr hdir h₃)
      rintro r fs₄ ⟨n, h₄, hn⟩
      apply ensures_ite
      · intro hr
        have hnew : n = .new type (toShort major) (toShort minor) i d := by
          rw [hn hr, Node.new, if_pos hdir]
        have hnt : n.type = type := by rw [hn hr]; rfl
        have := createEntry_spec hok hsb hcr h₄ (walk_noslash hpath)
        rw [hnt, hnew] at this
        exact this.mono (fun r fs' h' => hdone r h')
      · intro _
        exact (createFail_spec hok hsb hcr h₄).mono (fun r fs' h' => hdone r (.inl h'))
    · intro hdir
      have := createEntry_spec hok hsb hcr h₃ (walk_noslash hpath)
      refine Free.Ensures.mono this (fun r fs' h' => hdone r ?_)
      rwa [Node.new, if_neg hdir]

/-- What create() has done, by whether the path leads to a file. -/
def CreatedAt (p : ProcId) (sb : Superblock) (N : Nat → Node) (t : Holders) (path : List UInt8)
    (type major minor : Int) (r : Option InodePtr) (fs' : Fs) : Prop :=
  match r with
  | none => Inside p sb N t fs'
  | some ip => ∃ d name, resolveParent N (t.start p path) path = some (d, name) ∧
      ((∃ s i, (N d).find name = some s ∧ ((N d).entry s).inum = i ∧ type = T_FILE ∧
        ((N i).type = T_FILE ∨ (N i).type = T_DEVICE) ∧ Inside p sb N ((t.take ip i).lock ip i) fs') ∨
      ((N d).find name = none ∧ CreatedNew p sb N t path type major minor (some ip) fs'))

theorem create_at (hok : Benign ok) (hsb : sb.Ok) (hs : ok .ilockNoType ∨ Sound N)
    (hc : t.Calm) (hrefs : t.refs = []) (h : Inside p sb N t fs) (path : List UInt8) {type : Int}
    (htype : type = T_DIR ∨ type = T_FILE ∨ type = T_DEVICE) (major minor : Int) :
    (Kern.create path type major minor).Ensures (Fs.run p) ok
      (CreatedAt p sb N t path type major minor) fs := by
  have hk : ∀ j, Kept N t j := fun j => h.kept (by rw [hc.fresh]; simp)
  unfold Kern.create
  apply Free.Ensures.seq (nameiparent_spec hok hsb hs h hc path)
  rintro (_ | ⟨dp, name⟩) fs₁ h₁
  · exact h₁.2
  · obtain ⟨d, hpath, hd, h₁⟩ := h₁
    have hn : (t.take dp d).Names dp d := t.names_take.mpr (.inl ⟨rfl, rfl⟩)
    apply Free.Ensures.seq (ilock_spec hok hsb h₁ hn (.inr (by rw [hd]; decide)))
    rintro - fs₂ ⟨h₂, -⟩
    apply Free.Ensures.seq (dirlookup_spec hok hsb h₂ List.mem_cons_self hd name)
    rintro (_ | ⟨ip, off⟩) fs₃ h₃
    · refine (createNew_spec hok hsb hc hrefs h₃.2 hk hd hpath htype major minor).mono ?_
      rintro (_ | ip) fs' h'
      · exact h'
      · exact ⟨d, name, hpath, .inr ⟨h₃.1, h'⟩⟩
    · obtain ⟨s, hf, -, h₃⟩ := h₃
      generalize hi : ((N d).entry s).inum = i at h₃
      have hlive : ok .ilockNoType ∨ (N i).type ≠ 0 :=
        hs.imp id (fun hs => hi ▸ hs.entry d s hd (find_some hf).2.1)
      have h₃' : Inside p sb N (((t.take ip i).take dp d).lock dp d) fs₃ :=
        h₃.perm (.swap _ _ _) (.refl _)
      apply Free.Ensures.seq (iunlockput_kept hok hsb h₃' (hc.unlocked dp) (hk d).take)
      intro _ fs₄ h₄
      have hn : (t.take ip i).Names ip i := t.names_take.mpr (.inl ⟨rfl, rfl⟩)
      apply Free.Ensures.seq (ilock_spec hok hsb h₄ hn hlive)
      rintro - fs₅ ⟨h₅, -⟩
      have hr := h₅.reads List.mem_cons_self
      unfold Kern.inodeOf
      rw [Free.ensures_bind, ensures_get, hr.type]
      apply ensures_ite
      · intro hok'
        exact ⟨d, name, hpath, .inl ⟨s, i, hf, hi, hok'.1, hok'.2, h₅⟩⟩
      · intro _
        apply Free.Ensures.seq (iunlockput_kept hok hsb h₅ (hc.unlocked ip) (hk i))
        exact fun _ fs₆ h₆ => h₆

theorem create_spec (hok : Benign ok) (hsb : sb.Ok) (hs : ok .ilockNoType ∨ Sound N)
    (hc : t.Calm) (hrefs : t.refs = []) (h : Inside p sb N t fs) (path : List UInt8) {type : Int}
    (htype : type = T_DIR ∨ type = T_FILE ∨ type = T_DEVICE) (major minor : Int) :
    (Kern.create path type major minor).Ensures (Fs.run p) ok
      (Created p sb N t path type major minor) fs := by
  refine (create_at hok hsb hs hc hrefs h path htype major minor).mono ?_
  rintro (_ | ip) fs' h'
  · exact h'
  · obtain ⟨d, name, -, ⟨s, i, -, -, h'⟩ | ⟨-, h'⟩⟩ := h'
    · exact .inl ⟨i, h'⟩
    · exact .inr h'

end Xv6
