import Xv6.Proofs.Accounts
import Xv6.Proofs.Dangling

namespace Xv6
variable {sb : Superblock} {disk : Disk} {N : Nat → Node} {fs : Fs} {d s i j k : Nat}

/-- The entries of linked directories that count as links to file `k`: all but . and the .. of
the root. -/
def links (N : Nat → Node) (k : Nat) : Set (Nat × Nat) :=
  {o | (N o.1).type = T_DIR ∧ 1 ≤ (N o.1).nlink ∧ ((N o.1).entry o.2).inum = k ∧
    namecmp dot ((N o.1).entry o.2).name = false ∧
    ¬ (o.1 = ROOTINO ∧ namecmp dotdot ((N o.1).entry o.2).name = true)}

/-- The .. entries among them. -/
def upLinks (N : Nat → Node) (k : Nat) : Set (Nat × Nat) :=
  {o | o.2 = 1 ∧ o.1 ≠ ROOTINO ∧ (N o.1).type = T_DIR ∧ 1 ≤ (N o.1).nlink ∧
    ((N o.1).entry 1).inum = k}

namespace Hierarchy
variable (h : Hierarchy N)
include h

theorem nlink_root : 1 ≤ (N ROOTINO).nlink := by
  rw [h.exact, weight, if_pos rfl]
  omega

theorem nlink_named (he : Entry N d s k) : 1 ≤ (N k).nlink := by
  have : 0 < (names N k).ncard := (Set.ncard_pos (h.finite k).1).mpr ⟨(d, s), he⟩
  rw [h.exact, weight]
  omega

/-- A directory with entries is linked. -/
theorem nlink_dir (he : Entry N d s k) : 1 ≤ (N d).nlink := by
  rcases (h.reach d s k he).cases_tail with heq | ⟨b, -, s', hs'⟩
  · rw [heq]
    exact h.nlink_root
  · exact h.nlink_named hs'

theorem links_eq (hk : k ≠ 0) : links N k = names N k ∪ upLinks N k := by
  ext ⟨d, s⟩
  constructor
  · rintro ⟨hd, hn, hi, hdot, hroot⟩
    dsimp only at hd hn hi hdot hroot
    have hname := h.slot_of_name (s := s) hd (by rw [hi]; exact hk)
    have h₀ : s ≠ 0 := fun hs => absurd (hname.1.mpr hs) (by rw [hdot]; decide)
    by_cases h₁ : s = 1
    · exact .inr ⟨h₁, fun hr => hroot ⟨hr, hname.2.mpr h₁⟩, hd, hn, h₁ ▸ hi⟩
    · exact .inl ⟨hd, by omega, hi, hk⟩
  · rintro (he | ⟨h₁, hr, hd, hn, hi⟩)
    · have he : Entry N d s k := he
      have hname := h.slot_of_name (s := s) he.dir (by rw [he.inum]; exact he.pos)
      have hs := he.slot
      refine ⟨he.dir, h.nlink_dir he, he.inum, ?_, fun hr => ?_⟩
      · exact Bool.eq_false_iff.mpr (fun hc => by have := hname.1.mp hc; omega)
      · have := hname.2.mp hr.2
        omega
    · dsimp only at h₁ hr hd hn hi
      subst h₁
      have hname := h.slot_of_name (s := 1) hd (h.dots d hd).up
      exact ⟨hd, hn, hi, Bool.eq_false_iff.mpr (fun hc => absurd (hname.1.mp hc) (by decide)),
        fun hc => hr hc.1⟩

/-- Every subdirectory has one .. -/
theorem upLinks_eq (k : Nat) :
    upLinks N k = (fun s => (((N k).entry s).inum, 1)) '' subdirs N k := by
  ext ⟨j, t⟩
  constructor
  · rintro ⟨h₁, hr, hj, hn, hi⟩
    dsimp only at h₁ hr hj hn hi
    obtain ⟨s, he⟩ := h.named hj (by omega) hr
    rw [hi] at he
    exact ⟨s, ⟨j, he, hj⟩, Prod.ext he.inum h₁.symm⟩
  · rintro ⟨s, ⟨j', he, hj⟩, heq⟩
    obtain ⟨h₁, h₂⟩ := Prod.mk.inj heq
    rw [he.inum] at h₁
    subst h₁ h₂
    obtain ⟨hr, hp⟩ := h.parent k s j' he hj
    exact ⟨rfl, hr, hj, h.nlink_named he, hp⟩

theorem nlink_eq (hk : (N k).type ≠ 0) :
    (N k).nlink = (links N k).ncard + if k = ROOTINO then 1 else 0 := by
  have hups : (upLinks N k).ncard = (subdirs N k).ncard ∧ (upLinks N k).Finite := by
    rw [h.upLinks_eq k]
    refine ⟨Set.InjOn.ncard_image ?_, (h.finite k).2.image _⟩
    rintro s ⟨j, he, hj⟩ s' ⟨j', he', hj'⟩ heq
    have heq := (Prod.mk.inj heq).1
    rw [he.inum, he'.inum] at heq
    exact h.single k s s' j he (heq ▸ he') hj
  have hdisj : Disjoint (names N k) (upLinks N k) := by
    refine Set.disjoint_left.mpr ?_
    rintro ⟨d, s⟩ he hu
    have : 2 ≤ s := he.slot
    have : s = 1 := hu.1
    omega
  rw [h.links_eq (h.ne_zero hk), Set.ncard_union_eq hdisj (h.finite k).1 hups.2, hups.1, h.exact,
    weight]
  push_cast
  omega

end Hierarchy

/- Paths from the root. -/

/-- A path element that leads to the entry with this name. -/
def elemOf (name : List UInt8) : List UInt8 := if cstr name = [] then [0] else cstr name

theorem cstr_cstr (s : List UInt8) : cstr (cstr s) = cstr s := by
  have hlen : (cstr s).length ≤ DIRSIZ :=
    (List.takeWhile_sublist _).length_le.trans (List.length_take_le _ _)
  have hnz : ∀ c ∈ cstr s, (c != 0) = true := List.all_eq_true.mp List.all_takeWhile
  rw [cstr, List.take_of_length_le hlen, ← List.append_nil (cstr s),
    List.takeWhile_append_of_pos (by simpa using hnz)]
  rfl

theorem cstr_elemOf (name : List UInt8) : cstr (elemOf name) = cstr name := by
  unfold elemOf
  split
  · rename_i h
    rw [h]
    decide
  · exact cstr_cstr name

/-- What skipelem() needs to find in front of a slash. -/
structure IsElem (e : List UInt8) : Prop where
  ne_nil : e ≠ []
  noslash : slash ∉ e
  short : e.length ≤ DIRSIZ

theorem isElem_elemOf {name : List UInt8} (h : slash ∉ cstr name) : IsElem (elemOf name) := by
  unfold elemOf
  split
  · exact ⟨by decide, by decide, by decide⟩
  · rename_i hne
    exact ⟨hne, h, (List.takeWhile_sublist _).length_le.trans (List.length_take_le _ _)⟩

theorem skipelem_append {e rest : List UInt8} (he : IsElem e) (hr : rest.head? ≠ some slash) :
    skipelem (e ++ slash :: rest) = some (e, rest) := by
  have hdrop : ∀ l : List UInt8, l.head? ≠ some slash → l.dropWhile (fun c => c == slash) = l := by
    intro l hl
    cases l with
    | nil => rfl
    | cons c l =>
      rw [List.dropWhile_cons_of_neg]
      simpa using hl
  have hmem : ∀ c ∈ e, (c != slash) = true := by
    intro c hc
    simp only [bne_iff_ne, ne_eq]
    rintro rfl
    exact he.noslash hc
  have htake : (e ++ slash :: rest).takeWhile (fun c => c != slash) = e := by
    rw [List.takeWhile_append_of_pos hmem]
    simp
  have hhead : (e ++ slash :: rest).head? ≠ some slash := by
    cases e with
    | nil => exact absurd rfl he.ne_nil
    | cons c l =>
      simp only [List.cons_append, List.head?_cons, ne_eq, Option.some.injEq]
      rintro rfl
      exact he.noslash List.mem_cons_self
  have hne : e ++ slash :: rest ≠ [] := by simp
  unfold skipelem
  rw [hdrop _ hhead]
  split
  · rename_i heq
    exact absurd heq hne
  · dsimp only
    rw [htake, List.take_of_length_le he.short, List.drop_left,
      List.dropWhile_cons_of_pos (by simp), hdrop rest hr]

theorem Tree.find_eq (h : Tree N) (he : Entry N d s k) {e : List UInt8}
    (hn : namecmp e ((N d).entry s).name = true) : (N d).find e = some s := by
  have hdots := h.dots d he.dir
  have hz : ((N d).entry s).inum ≠ 0 := by
    rw [he.inum]
    exact he.pos
  cases hf : (N d).find e with
  | none => exact absurd (hdots.unnamed hf hz) (by rw [hn]; decide)
  | some s' =>
    obtain ⟨-, hz', hn'⟩ := find_some hf
    refine congrArg some (hdots.distinct s' s hz' hz ?_)
    unfold namecmp at *
    rw [beq_iff_eq] at *
    rw [← hn, hn']

/-- The names on the way to a file make a path to it. -/
theorem Tree.path_of_reach (h : Tree N) (hr : Relation.ReflTransGen (Above N) d k) :
    ∃ path : List UInt8, path.head? ≠ some slash ∧ ∀ fuel name, path.length < fuel →
      (walk N false fuel d path name).map Prod.fst = some k := by
  induction hr using Relation.ReflTransGen.head_induction_on with
  | refl =>
    refine ⟨[], by simp, fun fuel name hf => ?_⟩
    obtain ⟨fuel, rfl⟩ := Nat.exists_eq_succ_of_ne_zero (Nat.ne_zero_of_lt hf)
    rfl
  | @head d j hstep _ ih =>
    obtain ⟨s, he⟩ := hstep
    obtain ⟨path, hhead, hwalk⟩ := ih
    have hz : ((N d).entry s).inum ≠ 0 := by
      rw [he.inum]
      exact he.pos
    have helem := isElem_elemOf ((h.dots d he.dir).noslash s hz)
    have hfind : (N d).find (elemOf ((N d).entry s).name) = some s :=
      h.find_eq he (by rw [namecmp, cstr_elemOf, beq_self_eq_true])
    generalize elemOf ((N d).entry s).name = e at helem hfind
    refine ⟨e ++ slash :: path, ?_, fun fuel name hf => ?_⟩
    · cases e with
      | nil => exact absurd rfl helem.ne_nil
      | cons c l =>
        simp only [List.cons_append, List.head?_cons, ne_eq, Option.some.injEq]
        rintro rfl
        exact helem.noslash List.mem_cons_self
    · obtain ⟨fuel, rfl⟩ := Nat.exists_eq_succ_of_ne_zero (Nat.ne_zero_of_lt hf)
      rw [List.length_append, List.length_cons] at hf
      unfold walk
      rw [skipelem_append helem hhead]
      simp only [he.dir, ne_eq, not_true_eq_false, if_false, Bool.false_eq_true, false_and, hfind,
        he.inum]
      exact hwalk fuel e (by omega)

theorem Tree.resolves (h : Tree N) (hr : Relation.ReflTransGen (Above N) ROOTINO k) :
    ∃ path, ∀ cwd, resolve N cwd path = some k := by
  obtain ⟨path, -, hwalk⟩ := h.path_of_reach hr
  refine ⟨slash :: path, fun cwd => ?_⟩
  have hskip : skipelem (slash :: path) = skipelem path := by
    unfold skipelem
    rw [List.dropWhile_cons_of_pos (by simp)]
  rw [resolve, if_pos (by rfl), ← hwalk ((slash :: path).length + 1) [] (by simp), walk, walk, hskip]

/- All together. -/

theorem reaches_hierarchy (h : TreeImage sb disk)
    (hr : ReachesBy Fs.stepNoChmod (fun fs fs' => Countable fs'.node ∧ ¬ Intrudes fs.node fs'.node)
      (Fs.boot sb disk) fs) : Healthy sb fs ∧ Hierarchy fs.node := by
  refine hr.invariant (p := fun fs => Healthy sb fs ∧ Hierarchy fs.node)
    ⟨h.toWellFormed.healthy, h.tree⟩ ?_
  rintro fs e fs' ⟨hh, ht⟩ he ⟨hn, hi⟩
  obtain ⟨hh', hf⟩ := hh.step h.super he
  exact ⟨hh', hf.hierarchy ht hh.free hn hi⟩

/-- An allocated file without links is held by somebody. -/
theorem Healthy.orphan (h : Healthy sb fs) (ht : (fs.node k).type ≠ 0) (hn : (fs.node k).nlink = 0) :
    ∃ ip, (fs.mem.inode ip).inum = k ∧ 0 < fs.mem.opens ip + fs.mem.dwells ip := by
  obtain ⟨t, hi, hin⟩ := id h
  obtain ⟨ino, hw⟩ := hin 0
  have ht' : (ino k).type ≠ 0 := hw.type_eq k ▸ ht
  have hn' : (ino k).nlink = 0 := by
    rw [hw.node k, node_live ht'] at hn
    exact hn
  obtain ⟨ip, hr, -, hk⟩ := hw.mem.orphan k ht' hn' (by rw [hi.fresh]; simp)
  refine ⟨ip, hk, ?_⟩
  have := (h.ref_eq ip).1
  omega

/-- As long as no link count overflows and no directory without links gets an entry, link counts
are exact, a file with links has a path from the root, and one without links that nobody has open
is free. -/
theorem link_counts_exact (h : TreeImage sb disk)
    (hr : ReachesBy Fs.stepNoChmod (fun fs fs' => Countable fs'.node ∧ ¬ Intrudes fs.node fs'.node)
      (Fs.boot sb disk) fs) :
    (∀ k, (fs.node k).type ≠ 0 →
      (fs.node k).nlink = (links fs.node k).ncard + if k = ROOTINO then 1 else 0) ∧
    (∀ k, 1 ≤ (fs.node k).nlink → ∃ path, ∀ cwd, resolve fs.node cwd path = some k) ∧
    ∀ k, k ≠ ROOTINO → links fs.node k = ∅ →
      (∀ ip, (fs.mem.inode ip).inum = k → fs.mem.opens ip + fs.mem.dwells ip = 0) →
      (fs.node k).type = 0 := by
  obtain ⟨hh, ht⟩ := reaches_hierarchy h hr
  refine ⟨fun k => ht.nlink_eq, fun k hk => ht.resolves (ht.reach_linked (by omega)),
    fun k hroot hlinks hopen => ?_⟩
  by_contra ht'
  have hn := ht.nlink_eq ht'
  rw [hlinks, Set.ncard_empty, if_neg hroot] at hn
  obtain ⟨ip, hk, hpos⟩ := hh.orphan ht' hn
  have := hopen ip hk
  omega

set_option maxRecDepth 100000 in
theorem link_counts_exact_mkdir : ∃ fs, Fs.stepNoChmod (Fs.boot mkfsSb fileImage)
      ⟨0, .mkdir (.str [47, 97]), []⟩ = some fs ∧ (fs.node ROOTINO).nlink = 2 ∧
      (fs.node ROOTINO).nlink = (links fs.node ROOTINO).ncard + 1 := by
  have hrun : (Fs.stepNoChmod (Fs.boot mkfsSb fileImage) ⟨0, .mkdir (.str [47, 97]), []⟩).any
      (fun fs => decide ((fs.node ROOTINO).type = T_DIR ∧ (fs.node ROOTINO).nlink = 2 ∧
        fs.checked)) = true := by
    decide +kernel
  obtain ⟨fs, hs, hp⟩ := (Option.any_eq_true _ _).mp hrun
  obtain ⟨ht, hn, hck⟩ := of_decide_eq_true hp
  have hi : ¬ Intrudes (Fs.boot mkfsSb fileImage).node fs.node := by
    rintro ⟨d, s, hd, hz, -⟩
    have hroot := fileImage_dir hd
    have := fileImage_nlink d
    rw [if_pos (.inl hroot)] at this
    exact absurd (hz.symm.trans this) (by decide)
  refine ⟨fs, hs, hn, ?_⟩
  exact (link_counts_exact fileImage_treeImage (.next _ .start hs ⟨hck.countable, hi⟩)).1 ROOTINO
    (by rw [ht]; decide)

set_option maxRecDepth 100000 in
/-- After mkdir("/a"), chdir("/a") and unlink("/a"), open("x", O_CREATE) makes a file with a link
that no linked directory has. -/
theorem link_in_removed_directory : ∃ fs, Reaches Fs.stepNoChmod (Fs.boot mkfsSb fileImage) fs ∧
    (fs.node 4).type = T_FILE ∧ (fs.node 4).nlink = 1 ∧ links fs.node 4 = ∅ := by
  have hrun : (runAll Fs.stepNoChmod (Fs.boot mkfsSb fileImage)
      [⟨0, .mkdir (.str [47, 97]), []⟩, ⟨0, .chdir (.str [47, 97]), []⟩,
        ⟨0, .unlink (.str [47, 97]), []⟩, ⟨0, .openFile (.str [120]) O_CREATE, []⟩]).any
      (fun fs : Fs => decide (fs.mem.sb.ninodes = 200 ∧ (fs.node ROOTINO).size = 1024) &&
        decide ((fs.node 4).type = T_FILE ∧ (fs.node 4).nlink = 1) &&
        decide (∀ d : Nat, d < 200 → (fs.node d).type = T_DIR ∧ 1 ≤ (fs.node d).nlink →
          d = ROOTINO) &&
        decide (∀ s : Nat, s < 64 → ((fs.node ROOTINO).entry s).inum ≠ 4)) = true := by
    decide +kernel
  obtain ⟨fs, hr, hp⟩ := Reaches.of_any hrun
  simp only [Bool.and_eq_true, decide_eq_true_eq] at hp
  obtain ⟨⟨⟨⟨hni, hsize⟩, ht, hn⟩, hdirs⟩, hroot⟩ := hp
  refine ⟨fs, hr, ht, hn, Set.eq_empty_of_forall_notMem ?_⟩
  rintro ⟨d, s⟩ ⟨hd, hl, hi, -, -⟩
  dsimp only at hd hl hi
  have hd' : d = ROOTINO := by
    by_cases hlt : d < 200
    · exact hdirs d hlt ⟨hd, hl⟩
    · rw [fs.node_past (by rw [hni]; omega)] at hd
      exact absurd hd (by decide)
  subst hd'
  by_cases hs : s < 64
  · exact hroot s hs hi
  · obtain ⟨t, -, hin⟩ := healthy_of_reaches fileImage_wellFormed hr
    rw [(hin 0).past (by rw [hsize]; omega)] at hi
    exact absurd hi (by decide)

end Xv6
