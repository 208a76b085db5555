import Xv6.Proofs.Dangling
import Xv6.Proofs.Resolution

namespace Xv6
variable {sb : Superblock} {disk : Disk} {N N₁ N' : Nat → Node} {fs fs' : Fs} {n : Node} {de : Dirent} {name b : List UInt8} {i d s : Nat}

/- A directory as a map from names to inode numbers. -/

/-- What dirlookup() finds under a name. -/
def Node.lookup (n : Node) (name : List UInt8) : Option Nat := (n.find name).map fun s => (n.entry s).inum

/-- A slot counts for a name only if its entry has that name. -/
theorem lookup_enter (hsize : n.size % 16 = 0) (hslot : 16 * s ≤ n.size) (hold : ¬ (n.entry s).named b) (hnew : ¬ de.named b) :
    (n.enter s de).lookup b = n.lookup b := by
  have hnamed : ∀ k, decide (((n.enter s de).entry k).named b) = decide ((n.entry k).named b) := by
    intro k
    by_cases hk : k = s
    · rw [hk, Node.entry_enter, decide_eq_false hnew, decide_eq_false hold]
    · rw [n.entry_enter_other de hk]
  have hfind : (n.enter s de).find b = n.find b := by
    simp only [Node.find, hnamed]
    by_cases hlt : 16 * s < n.size
    · have hsame : (n.enter s de).size = n.size := Nat.max_eq_left (by omega)
      rw [hsame]
    · have hmore : (n.enter s de).size / 16 = n.size / 16 + 1 := by
        simp only [Node.enter]
        omega
      rw [hmore, firstFrom_succ]
      have hend : 0 + n.size / 16 = s := by omega
      rw [hend, decide_eq_false hold]
  unfold Node.lookup
  rw [hfind]
  cases hf : n.find b with
  | none => rfl
  | some k =>
    have hk : k ≠ s := by
      rintro rfl
      exact hold (find_some hf).2
    rw [Option.map_some, Option.map_some, n.entry_enter_other de hk]

theorem lookup_none (h : ∀ k, ¬ (n.entry k).named b) : n.lookup b = none := by
  rw [Node.lookup, Option.map_eq_none_iff]
  refine Option.eq_none_iff_forall_ne_some.mpr fun k hk => ?_
  exact h k (find_some hk).2

theorem named_strncpy {i : Nat} (h : (⟨i, strncpy name⟩ : Dirent).named b) : namecmp b name = true := by
  have hcmp := h.2
  rwa [namecmp, cstr_strncpy, ← namecmp] at hcmp

/-- From `N` to `N'` a name of directory `d` comes or goes, and every directory finds all other names as before. -/
structure OneName (N N' : Nat → Node) (d : Nat) (name : List UInt8) : Prop where
  others : ∀ i b, (N i).type = T_DIR → (N' i).type = T_DIR → i ≠ d ∨ namecmp b name = false → (N' i).lookup b = (N i).lookup b
  comes : (N d).lookup name = none ∨ ((N' d).type = T_DIR → (N' d).lookup name = none)

theorem Enters.lookup (h : Enters N d s name) (hsize : (N d).size % 16 = 0) (hb : namecmp b name = false) (i : Nat) :
    ((N d).enter s ⟨i, strncpy name⟩).lookup b = (N d).lookup b := by
  refine lookup_enter hsize h.slot (fun hc => hc.1 h.empty) fun hc => ?_
  rw [named_strncpy hc] at hb
  cases hb

theorem Makes.other {type : Int} {j : Nat} (hm : Makes N d s i name type) (hj : (N j).type = T_DIR) : j ≠ i := by
  rintro rfl
  rw [hm.free] at hj
  exact absurd hj (by decide)

theorem Makes.oneName {type : Int} (hm : Makes N d s i name type) (hsane : Sane sb N) (major minor : Int) :
    OneName N (makeAt N d s i name (.new type major minor i d)) d name := by
  refine ⟨fun j b hj _ hne => ?_, .inl (by rw [Node.lookup, hm.enters.new]; rfl)⟩
  have hji := hm.other hj
  by_cases hjd : j = d
  · have hlook := hm.enters.lookup (hsane d hm.enters.dir).1 (hne.resolve_left (fun hc => hc hjd)) i
    rw [hjd, makeAt, setAt_same]
    split
    · exact hlook
    · exact hlook
  · rw [makeAt, setAt_rest N hji hjd]

theorem Renames.oneName (h : Renames N N₁) (ht : Tree N) (hsane : Sane sb N) : ∃ d name, OneName N N₁ d name := by
  cases h with
  | @link d s i name hl =>
    refine ⟨d, name, fun j b hj _ hne => ?_, .inl (by rw [Node.lookup, hl.enters.new]; rfl)⟩
    have hji : j ≠ i := fun he => hl.file (he ▸ hj)
    by_cases hjd : j = d
    · rw [hjd, linkAt, setAt_same]
      exact hl.enters.lookup (hsane d hl.enters.dir).1 (hne.resolve_left (fun hc => hc hjd)) i
    · rw [linkAt, setAt_rest N hji hjd]
  | @make d s i name type major minor hm => exact ⟨d, name, hm.oneName hsane major minor⟩
  | @unlink d s i hu =>
    have hat : ∀ b, (unlinkAt N d s i d).lookup b = ((N d).enter s .erased).lookup b := by
      intro b
      rw [unlinkAt, setAt_other _ _ _ (Ne.symm hu.other), setAt_same]
      split
      · rfl
      · rfl
    have herased : ∀ b, ¬ Dirent.erased.named b := fun b hc => hc.1 rfl
    refine ⟨d, ((N d).entry s).name, fun j b _ _ hne => ?_, .inr fun _ => ?_⟩
    · by_cases hjd : j = d
      · rw [hjd, hat]
        refine lookup_enter (hsane d hu.dir).1 (Nat.le_of_lt hu.slot) (fun hc => ?_) (herased b)
        rw [hc.2] at hne
        exact hne.elim (fun hj => hj hjd) Bool.noConfusion
      · by_cases hji : j = i
        · rw [hji, unlinkAt, setAt_same]
          rfl
        · rw [unlinkAt, setAt_rest N hjd hji]
    · rw [hat]
      refine lookup_none fun k hk => ?_
      by_cases hks : k = s
      · rw [hks, Node.entry_enter] at hk
        exact herased _ hk
      · rw [Node.entry_enter_other _ _ hks] at hk
        have hpos : ((N d).entry s).inum ≠ 0 := hu.names ▸ hu.pos
        exact hks ((ht.dots d hu.dir).distinct s k hpos hk.1 hk.2).symm

/-- As long as no link count overflows, a call changes what one name of one directory stands for, at most, and then that name
is new or gone: no call lets a name stand for another file at once. -/
theorem call_changes_one_name (h : TreeImage sb disk)
    (hr : ReachesBy Fs.stepNoChmod (fun _ fs' => Countable fs'.node) (Fs.boot sb disk) fs) {e : Event}
    (he : fs.stepNoChmod e = some fs') : ∃ d name, OneName fs.node fs'.node d name := by
  obtain ⟨hh, ht⟩ := reaches_tree h hr
  obtain ⟨N₁, hren, hfades, -⟩ := (hh.step h.super he).2
  have hsane : Sane sb fs.node := by
    obtain ⟨t, -, hin⟩ := hh
    exact (hin 0).sane
  have hlast : ∀ i, (fs'.node i).type = T_DIR → fs'.node i = N₁ i := fun i hd => fades_dir hfades hd
  rcases hren with rfl | hren
  · have hzero : fs.node 0 = .free := hh.free 0 ht.zero
    exact ⟨0, [], fun i b _ hd _ => by rw [hlast i hd], .inl (by rw [hzero]; rfl)⟩
  · obtain ⟨d, name, hone⟩ := hren.oneName ht hsane
    refine ⟨d, name, fun i b hi hd hne => ?_, hone.comes.imp_right fun hgone hd => ?_⟩
    · have hsame := hlast i hd
      rw [hsame] at hd ⊢
      exact hone.others i b hi hd hne
    · have hsame := hlast d hd
      rw [hsame] at hd ⊢
      exact hgone hd

set_option maxRecDepth 100000 in
/-- /a is made. -/
theorem mkdir_changes_one_name : ∃ fs' d name, Fs.stepNoChmod (Fs.boot mkfsSb fileImage) ⟨0, .mkdir (.str [47, 97]), []⟩ = some fs' ∧
    (fs'.node ROOTINO).lookup [97] = some 3 ∧ OneName (Fs.boot mkfsSb fileImage).node fs'.node d name := by
  have hrun : (Fs.stepNoChmod (Fs.boot mkfsSb fileImage) ⟨0, .mkdir (.str [47, 97]), []⟩).any
      (fun fs => decide ((fs.node ROOTINO).lookup [97] = some 3)) = true := by
    decide +kernel
  obtain ⟨fs', hs, hp⟩ := (Option.any_eq_true _ _).mp hrun
  obtain ⟨d, name, hone⟩ := call_changes_one_name fileImage_treeImage .start hs
  exact ⟨fs', d, name, hs, of_decide_eq_true hp, hone⟩

/- The name that mkdir() and mknod() make. -/

theorem lookup_congr (n : Node) (h : namecmp b name = true) : n.lookup b = n.lookup name := by
  rw [namecmp, beq_iff_eq] at h
  have hnamed : (fun k => decide ((n.entry k).named b)) = fun k => decide ((n.entry k).named name) :=
    funext fun k => decide_eq_decide.mpr (by rw [Dirent.named, Dirent.named, namecmp, namecmp, h])
  rw [Node.lookup, Node.lookup, Node.find, Node.find, hnamed]

theorem Enters.lookup_new (h : Enters N d s name) (hsize : (N d).size % 16 = 0) (hpos : i ≠ 0) : ((N d).enter s ⟨i, strncpy name⟩).lookup name = some i := by
  have hown : ((N d).enter s ⟨i, strncpy name⟩).entry s = ⟨i, strncpy name⟩ := Node.entry_enter _ _ _
  have hslot := h.slot
  cases hf : ((N d).enter s ⟨i, strncpy name⟩).find name with
  | none =>
    have hnot := firstFrom_none hf s (Nat.zero_le _) (by simp only [Node.enter]; omega)
    rw [hown, decide_eq_false_iff_not] at hnot
    exact absurd ⟨hpos, by rw [namecmp, cstr_strncpy, beq_self_eq_true]⟩ hnot
  | some k =>
    obtain ⟨hlt, hnamed⟩ := find_some hf
    have hks : k = s := by
      by_contra hne
      rw [Node.entry_enter_other _ _ hne] at hnamed
      simp only [Node.enter] at hlt
      have hnot := firstFrom_none h.new k (Nat.zero_le _) (by omega)
      exact of_decide_eq_false hnot hnamed
    rw [Node.lookup, hf, Option.map_some, hks, hown]

/-- What has been found is still found, if directories only get more names. -/
theorem follow_mono (h : ∀ i b k, enter N i b = some k → enter N' i b = some k) {names : List (List UInt8)} {j : Nat}
    (hf : follow N i names = some j) : follow N' i names = some j := by
  induction names generalizing i with
  | nil => exact hf
  | cons b names ih =>
    rw [follow, List.foldlM_cons, Option.bind_eq_bind, Option.bind_eq_some_iff] at hf ⊢
    obtain ⟨k, hk, hf⟩ := hf
    exact ⟨k, h i b k hk, ih hf⟩

theorem Makes.enter_mono {type major minor : Int} (hm : Makes N d s i name type) (hsane : Sane sb N) {j k : Nat}
    (h : enter N j b = some k) : enter (makeAt N d s i name (.new type major minor i d)) j b = some k := by
  have hj : (N j).type = T_DIR := by
    by_contra hne
    rw [enter, if_neg hne] at h
    cases h
  have hlook : (N j).lookup b = some k := by rwa [enter, if_pos hj] at h
  have hj' : (makeAt N d s i name (.new type major minor i d) j).type = T_DIR := by
    by_cases hjd : j = d
    · rw [hjd, makeAt, setAt_same]
      split
      · exact hm.enters.dir
      · exact hm.enters.dir
    · rwa [makeAt, setAt_rest N (hm.other hj) hjd]
  rw [enter, if_pos hj']
  refine ((hm.oneName hsane major minor).others j b hj hj' ?_).trans hlook
  -- The new name was not there, so it is not the one that was found.
  by_contra hsame
  rw [not_or, Decidable.not_not, Bool.not_eq_false] at hsame
  rw [hsame.1, lookup_congr _ hsame.2, Node.lookup, hm.enters.new] at hlook
  cases hlook

/-- The parent of a new file is not freed. -/
theorem Made.eq_makeAt {p : ProcId} {t : Holders} {path : List UInt8} {type major minor : Int}
    (h : Made p N t path type major minor i N') (ht : Tree N) :
    ∃ d s name, resolveParent N (t.start p path) path = some (d, name) ∧ Makes N d s i name type ∧
      N' = makeAt N d s i name (.new type (toShort major) (toShort minor) i d) := by
  obtain ⟨d, s, name, hpath, hm, hfrees, hstay⟩ := h.made
  refine ⟨d, s, name, hpath, hm, ?_⟩
  rcases hfrees with heq | ⟨-, hnlink, -⟩
  · exact heq
  · rw [makeAt, setAt_same] at hnlink
    split at hnlink
    · have hnonneg := ht.nlink_nonneg d
      have hshort := ht.short d
      simp only [Node.addLink, Node.enter, toShort] at hnlink
      omega
    · exact hstay hnlink

theorem followParent_some {st : Nat} {names : List (List UInt8)} (h : followParent N st names = some (d, name)) :
    names = names.dropLast ++ [name] ∧ follow N st names.dropLast = some d := by
  simp only [followParent, Option.bind_eq_bind, Option.bind_eq_some_iff] at h
  obtain ⟨last, hlast, d', hd', hdir⟩ := h
  split at hdir
  · cases hdir
    exact ⟨(List.dropLast_append_getLast? _ hlast).symm, hd'⟩
  · cases hdir

/-- As long as no link count overflows: after a mkdir() or mknod() that returns 0, the path leads to a new file of that kind, and
every path leads where it did, if it led anywhere. -/
theorem new_path_resolves (h : TreeImage sb disk)
    (hr : ReachesBy Fs.stepNoChmod (fun _ fs' => Countable fs'.node) (Fs.boot sb disk) fs) {q : ProcId} {call : Call} {evict : List Bool}
    {path : List UInt8} {type major minor : Int}
    (hcall : call = .mkdir (.str path) ∧ type = T_DIR ∧ major = 0 ∧ minor = 0 ∨
      call = .mknod (.str path) major minor ∧ type = T_DEVICE)
    (hret : fs.exec ⟨q, call, evict⟩ = .ok 0 fs') :
    ∃ i d, (fs.node i).type = 0 ∧ follow fs.node (fs.start q path) (elements path).dropLast = some d ∧
      fs'.node i = .new type (toShort major) (toShort minor) i d ∧ follow fs'.node (fs.start q path) (elements path) = some i ∧
      ∀ start names j, follow fs.node start names = some j → follow fs'.node start names = some j := by
  obtain ⟨hh, ht⟩ := reaches_tree h hr
  obtain ⟨t, hi, hin⟩ := hh.inside q evict
  have hbenign : Benign fun _ => True := fun _ _ _ _ _ => trivial
  have hprog : call.prog = Kern.makeNode (.str path) type major minor ∧ (type = T_DIR ∨ type = T_DEVICE) := by
    rcases hcall with ⟨rfl, rfl, rfl, rfl⟩ | ⟨rfl, rfl⟩
    · exact ⟨rfl, .inl rfl⟩
    · exact ⟨rfl, .inr rfl⟩
  rw [Fs.exec, hprog.1] at hret
  have hspec := (makeNode_made hbenign h.super (.inl trivial) hi hin (.str path) hprog.2 major minor).ok_of_exec hret
  rcases hspec with ⟨hneg, -⟩ | ⟨-, path', i, N', hpath, hmade, h'⟩
  · exact absurd hneg (by decide)
  · cases hpath
    obtain ⟨d, s, name, hparent, hm, hN'⟩ := hmade.eq_makeAt ht
    have hnode' : fs'.node = N' := h'.eq_node.symm
    have hmono : ∀ i b k, enter fs.node i b = some k → enter fs'.node i b = some k := by
      intro i b k hk
      rw [hnode', hN']
      exact hm.enter_mono hin.sane hk
    rw [resolveParent, walk_followParent _ (Nat.lt_succ_self _), hin.start hi] at hparent
    obtain ⟨hnames, hd⟩ := followParent_some hparent
    refine ⟨i, d, hm.free, hd, ?_, ?_, fun start names j hf => follow_mono hmono hf⟩
    · rw [hnode', hN', makeAt, setAt_other _ _ _ (Ne.symm (hm.other hm.enters.dir)), setAt_same]
    · have hat : enter fs'.node d name = some i := by
        rw [enter, hnode', hN', makeAt, setAt_same]
        have hnew := hm.enters.lookup_new (hin.sane d hm.enters.dir).1 (Nat.pos_iff_ne_zero.mp hm.pos)
        split
        · exact (if_pos hm.enters.dir).trans hnew
        · exact (if_pos hm.enters.dir).trans hnew
      rw [hnames, follow, List.foldlM_append, Option.bind_eq_bind, Option.bind_eq_some_iff]
      exact ⟨d, follow_mono hmono hd, by rw [List.foldlM_cons, hat]; rfl⟩

set_option maxRecDepth 100000 in
theorem new_path_resolves_mkdir : ∃ fs' i, (Fs.boot mkfsSb fileImage).exec ⟨0, .mkdir (.str [47, 97]), []⟩ = .ok 0 fs' ∧
    (fs'.node i).type = T_DIR ∧ follow fs'.node ROOTINO [[97]] = some i := by
  have hrun : ((Fs.boot mkfsSb fileImage).exec ⟨0, .mkdir (.str [47, 97]), []⟩).check (fun r _ => decide (r = 0)) = true := by
    decide +kernel
  obtain ⟨r, fs', hrun, hr⟩ := Out.check_iff.mp hrun
  rw [of_decide_eq_true hr] at hrun
  obtain ⟨i, d, -, -, hnode, hpath, -⟩ := new_path_resolves fileImage_treeImage .start (.inl ⟨rfl, rfl, rfl, rfl⟩) hrun
  exact ⟨fs', i, hrun, by rw [hnode]; rfl, hpath⟩

end Xv6
