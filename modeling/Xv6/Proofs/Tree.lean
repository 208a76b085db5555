import Xv6.Proofs.Healthy
import Xv6.Tree

namespace Xv6
variable {N N' : Nat → Node} {d s i k : Nat}

/- Names. -/

theorem namecmp_comm (a b : List UInt8) : namecmp a b = namecmp b a := by
  unfold namecmp
  rw [Bool.beq_comm]

/-- A directory gets the entry for file `i` in slot `s`; link counts follow. -/
structure Adds (N N' : Nat → Node) (d s i : Nat) : Prop where
  entry : ∀ d' s' k, Entry N' d' s' k ↔ Entry N d' s' k ∨ (d' = d ∧ s' = s ∧ k = i)
  vacant : ∀ k, ¬ Entry N d s k
  type : ∀ d' s' k, Entry N d' s' k → (N' k).type = (N k).type
  nlink : ∀ k, (N' k).nlink = (N k).nlink + (if k = i then 1 else 0) +
    if k = d ∧ (N' i).type = T_DIR then 1 else 0

namespace Adds
variable (h : Adds N N' d s i)
include h

theorem names_eq (k : Nat) : names N' k = if k = i then insert (d, s) (names N k) else names N k := by
  ext ⟨d', s'⟩
  simp only [names, Set.mem_ofPred_eq, h.entry]
  split
  · rename_i hk
    simp only [hk, Set.mem_insert_iff, Set.mem_ofPred_eq, Prod.mk.injEq, and_true]
    tauto
  · rename_i hk
    simp only [hk, and_false, or_false, Set.mem_ofPred_eq]

theorem subdirs_eq (k : Nat) : subdirs N' k =
    if k = d ∧ (N' i).type = T_DIR then insert s (subdirs N k) else subdirs N k := by
  ext s'
  have hiff : s' ∈ subdirs N' k ↔ s' ∈ subdirs N k ∨ (k = d ∧ s' = s ∧ (N' i).type = T_DIR) := by
    simp only [subdirs, Set.mem_ofPred_eq, h.entry]
    constructor
    · rintro ⟨j, he | ⟨rfl, rfl, rfl⟩, ht⟩
      · exact .inl ⟨j, he, h.type _ _ _ he ▸ ht⟩
      · exact .inr ⟨rfl, rfl, ht⟩
    · rintro (⟨j, he, ht⟩ | ⟨rfl, rfl, ht⟩)
      · exact ⟨j, .inl he, (h.type _ _ _ he).trans ht⟩
      · exact ⟨i, .inr ⟨rfl, rfl, rfl⟩, ht⟩
  rw [hiff]
  split
  · rename_i hk
    rw [Set.mem_insert_iff]
    tauto
  · rename_i hk
    tauto

theorem finite (hf : (names N k).Finite ∧ (subdirs N k).Finite) :
    (names N' k).Finite ∧ (subdirs N' k).Finite := by
  rw [h.names_eq, h.subdirs_eq]
  constructor
  · split
    · exact hf.1.insert _
    · exact hf.1
  · split
    · exact hf.2.insert _
    · exact hf.2

/-- The finiteness of what is there after the change gives that of what was before. -/
theorem finite_before (hf : (names N' k).Finite ∧ (subdirs N' k).Finite) :
    (names N k).Finite ∧ (subdirs N k).Finite := by
  rw [h.names_eq, h.subdirs_eq] at hf
  constructor
  · refine hf.1.subset ?_
    split
    · exact Set.subset_insert _ _
    · exact subset_rfl
  · refine hf.2.subset ?_
    split
    · exact Set.subset_insert _ _
    · exact subset_rfl

theorem weight_eq (hf : (names N k).Finite ∧ (subdirs N k).Finite) :
    weight N' k = weight N k + (if k = i then 1 else 0) +
      if k = d ∧ (N' i).type = T_DIR then 1 else 0 := by
  have hn : (names N' k).ncard = (names N k).ncard + if k = i then 1 else 0 := by
    rw [h.names_eq]
    split
    · exact Set.ncard_insert_of_notMem (fun hm => h.vacant k hm) hf.1
    · rfl
  have hs : (subdirs N' k).ncard =
      (subdirs N k).ncard + if k = d ∧ (N' i).type = T_DIR then 1 else 0 := by
    rw [h.subdirs_eq]
    split
    · rename_i hk
      refine Set.ncard_insert_of_notMem ?_ hf.2
      rintro ⟨j, he, -⟩
      exact h.vacant j (hk.1 ▸ he)
    · rfl
  unfold weight
  omega

/-- The link counts are as good after the change as they were before. -/
theorem count_iff (hf : (names N k).Finite ∧ (subdirs N k).Finite) :
    ((weight N' k : Int) ≤ (N' k).nlink ↔ (weight N k : Int) ≤ (N k).nlink) ∧
      ((N' k).nlink = weight N' k ↔ (N k).nlink = weight N k) := by
  rw [h.weight_eq hf, h.nlink]
  push_cast
  constructor <;> omega

end Adds

/-- A file that is no directory, or an empty one. -/
theorem not_entry (h : (N i).type = T_DIR → ∀ s, 2 ≤ s → ((N i).entry s).inum = 0) (s k : Nat) :
    ¬ Entry N i s k := fun he => he.pos (he.inum.symm.trans (h he.dir s he.slot))

/-- Only slot `s` of directory `d` changes, and file `i` has no entries. -/
theorem Adds.of_set {a b : Node} (hne : i ≠ d) (hd : (N d).type = T_DIR) (hb : b.type = T_DIR)
    (hs : 2 ≤ s) (hi : i ≠ 0) (hempty : ((N d).entry s).inum = 0) (hset : (b.entry s).inum = i)
    (hrest : ∀ s', s' ≠ s → b.entry s' = (N d).entry s') (hleaf : ∀ s k, ¬ Entry N i s k)
    (ha : a.type = T_DIR → ∀ s, 2 ≤ s → (a.entry s).inum = 0)
    (htype : ∀ d' s', Entry N d' s' i → a.type = (N i).type) (hna : a.nlink = (N i).nlink + 1)
    (hnb : b.nlink = (N d).nlink + if a.type = T_DIR then 1 else 0) :
    Adds N (setAt (setAt N i a) d b) d s i := by
  have hNd : setAt (setAt N i a) d b d = b := setAt_same _ _ _
  have hNi : setAt (setAt N i a) d b i = a := setAt_fst _ hne _ _
  have hNj : ∀ {j}, j ≠ i → j ≠ d → setAt (setAt N i a) d b j = N j :=
    fun hi hd => setAt_rest _ hi hd _ _
  generalize hN : setAt (setAt N i a) d b = N' at *
  refine ⟨fun d' s' k => ?_, fun k h => h.pos (h.inum.symm.trans hempty), fun d' s' k h => ?_,
    fun k => ?_⟩
  · by_cases h₁ : d' = i
    · have hleaf' : ¬ Entry N' i s' k := not_entry (by rw [hNi]; exact ha) s' k
      rw [h₁]
      exact ⟨fun h => absurd h hleaf', fun h => h.elim (fun h => absurd h (hleaf _ _))
        (fun h => absurd h.1 hne)⟩
    · by_cases h₂ : d' = d
      · subst h₂
        by_cases h₃ : s' = s
        · subst h₃
          constructor
          · exact fun h => .inr ⟨rfl, rfl, h.inum.symm.trans (hNd.symm ▸ hset)⟩
          · rintro (h | ⟨-, -, rfl⟩)
            · exact absurd (h.inum.symm.trans hempty) h.pos
            · exact ⟨hNd.symm ▸ hb, hs, hNd.symm ▸ hset, hi⟩
        · have he : (N' d').entry s' = (N d').entry s' := by rw [hNd, hrest s' h₃]
          constructor
          · exact fun h => .inl ⟨hd, h.slot, he ▸ h.inum, h.pos⟩
          · rintro (h | ⟨-, h, -⟩)
            · exact ⟨hNd.symm ▸ hb, h.slot, he.symm ▸ h.inum, h.pos⟩
            · exact absurd h h₃
      · have he := hNj h₁ h₂
        constructor
        · exact fun h => .inl ⟨he ▸ h.dir, h.slot, he ▸ h.inum, h.pos⟩
        · rintro (h | ⟨h, -, -⟩)
          · exact ⟨he.symm ▸ h.dir, h.slot, he.symm ▸ h.inum, h.pos⟩
          · exact absurd h h₂
  · by_cases h₁ : k = i
    · subst h₁
      rw [hNi]
      exact htype d' s' h
    · by_cases h₂ : k = d
      · rw [h₂, hNd, hb, hd]
      · rw [hNj h₁ h₂]
  · rw [hNi]
    by_cases h₁ : k = i
    · rw [if_pos h₁, if_neg (fun h => hne (h₁ ▸ h.1)), h₁, hNi, hna, Int.add_zero]
    · by_cases h₂ : k = d
      · rw [if_neg h₁, h₂, hNd, hnb]
        simp
      · rw [if_neg h₁, if_neg (fun h => h₂ h.1), hNj h₁ h₂, Int.add_zero, Int.add_zero]

/- Directories. -/

theorem Dots.enter {n : Node} (h : Dots n i) (hs : 2 ≤ s) (de : Dirent)
    (hd : de.inum ≠ 0 → (∀ s', (n.entry s').inum ≠ 0 → namecmp de.name (n.entry s').name = false) ∧
      slash ∉ cstr de.name) : Dots (n.enter s de) i := by
  have h₀ : (n.enter s de).entry 0 = n.entry 0 := n.entry_enter_other de (by omega)
  have h₁ : (n.enter s de).entry 1 = n.entry 1 := n.entry_enter_other de (by omega)
  refine ⟨fun s' hs' => ?_, by rw [h₀]; exact h.self, by rw [h₀]; exact h.dot,
    by rw [h₁]; exact h.up, by rw [h₁]; exact h.dotdot, fun s₁ s₂ he₁ he₂ heq => ?_,
    fun s' hs' => ?_⟩
  · change s' < max n.size (16 * s + 16) / 16
    by_cases he : s' = s
    · omega
    · rw [n.entry_enter_other de he] at hs'
      have := h.within s' hs'
      omega
  · by_cases hs₁ : s₁ = s
    · by_cases hs₂ : s₂ = s
      · rw [hs₁, hs₂]
      · rw [hs₁, Node.entry_enter] at he₁ heq
        rw [n.entry_enter_other de hs₂] at he₂ heq
        rw [(hd he₁).1 s₂ he₂] at heq
        cases heq
    · by_cases hs₂ : s₂ = s
      · rw [hs₂, Node.entry_enter] at he₂ heq
        rw [n.entry_enter_other de hs₁] at he₁ heq
        rw [namecmp_comm, (hd he₂).1 s₁ he₁] at heq
        cases heq
      · rw [n.entry_enter_other de hs₁] at he₁ heq
        rw [n.entry_enter_other de hs₂] at he₂ heq
        exact h.distinct s₁ s₂ he₁ he₂ heq
  · by_cases he : s' = s
    · rw [he, Node.entry_enter] at hs' ⊢
      exact (hd hs').2
    · rw [n.entry_enter_other de he] at hs' ⊢
      exact h.noslash s' hs'

theorem Dots.addLink {n : Node} (h : Dots n i) (k : Int) : Dots (n.addLink k) i :=
  ⟨h.within, h.self, h.dot, h.up, h.dotdot, h.distinct, h.noslash⟩

/-- A name that dirlookup() does not find is in no slot. -/
theorem Dots.unnamed {n : Node} (h : Dots n i) {name : List UInt8} (hf : n.find name = none)
    (hs : (n.entry s).inum ≠ 0) : namecmp name (n.entry s).name = false := by
  have := firstFrom_none hf s (Nat.zero_le _) (by have := h.within s hs; omega)
  rw [decide_eq_false_iff_not] at this
  by_contra hc
  exact this ⟨hs, by simpa using hc⟩

theorem Enters.dots {name : List UInt8} (h : Enters N d s name) (ht : Dots (N d) d) (hs : 2 ≤ s) :
    Dots ((N d).enter s ⟨i, strncpy name⟩) d := by
  refine ht.enter hs _ (fun _ => ⟨fun s' hs' => ?_, ?_⟩)
  · have := ht.unnamed h.new hs'
    unfold namecmp at *
    rwa [cstr_strncpy]
  · rw [cstr_strncpy]
    intro hm
    exact h.noslash (List.mem_of_mem_take ((List.takeWhile_sublist _).mem hm))

/-- The first empty slot comes after . and .. -/
theorem Tree.slot_of_enters (ht : Tree N) {name : List UInt8} (h : Enters N d s name) : 2 ≤ s := by
  have hd := ht.dots d h.dir
  have h₀ : s ≠ 0 := by
    rintro rfl
    have := h.empty
    rw [hd.self] at this
    rw [this] at h
    exact absurd (ht.zero.symm.trans h.dir) (by decide)
  have h₁ : s ≠ 1 := by
    rintro rfl
    exact hd.up h.empty
  omega

/- Link counts are shorts. -/

theorem toShort_succ {n : Int} (h₀ : 0 ≤ n) (h₁ : n < 2 ^ 15) (h : 0 ≤ toShort (n + 1)) :
    toShort (n + 1) = n + 1 := by
  unfold toShort at *
  omega

theorem toShort_pred {n : Int} (h₀ : 1 ≤ n) (h₁ : n < 2 ^ 15) : toShort (n + -1) = n - 1 := by
  unfold toShort
  omega

theorem Tree.nlink_nonneg (h : Tree N) (k : Nat) : 0 ≤ (N k).nlink :=
  (Int.natCast_nonneg _).trans (h.count k)

theorem Tree.ne_zero (h : Tree N) (hk : (N k).type ≠ 0) : k ≠ 0 := by
  rintro rfl
  exact hk h.zero

/-- Only the first two entries are called . and .. -/
theorem Tree.slot_of_name (h : Tree N) (hd : (N d).type = T_DIR) (hz : ((N d).entry s).inum ≠ 0) :
    (namecmp dot ((N d).entry s).name = true ↔ s = 0) ∧
      (namecmp dotdot ((N d).entry s).name = true ↔ s = 1) := by
  have hdots := h.dots d hd
  have h₀ : ((N d).entry 0).inum ≠ 0 := by
    rw [hdots.self]
    exact h.ne_zero (by rw [hd]; decide)
  have heq : ∀ {a s'}, namecmp a ((N d).entry s').name = true → ((N d).entry s').inum ≠ 0 →
      namecmp a ((N d).entry s).name = true → s = s' := by
    intro a s' ha hs' hs
    refine hdots.distinct s s' hz hs' ?_
    unfold namecmp at *
    rw [beq_iff_eq] at *
    rw [← hs, ha]
  constructor
  · exact ⟨heq hdots.dot h₀, fun hs => hs ▸ hdots.dot⟩
  · exact ⟨heq hdots.dotdot hdots.up, fun hs => hs ▸ hdots.dotdot⟩

/- The three changes of names. -/

theorem Links.ne {name : List UInt8} (h : Links N d s i name) : i ≠ d := by
  rintro rfl
  exact h.file h.enters.dir

theorem Links.adds {name : List UInt8} (h : Links N d s i name) (ht : Tree N)
    (hn : 0 ≤ (linkAt N d s i name i).nlink) : Adds N (linkAt N d s i name) d s i := by
  rw [linkAt, setAt_fst _ h.ne] at hn
  refine .of_set h.ne h.enters.dir h.enters.dir (ht.slot_of_enters h.enters) (ht.ne_zero h.live)
    h.enters.empty (by rw [Node.entry_enter]) (fun s' hs' => Node.entry_enter_other _ _ hs')
    (not_entry (fun hd => absurd hd h.file)) (fun hd => absurd hd h.file) (fun _ _ _ => rfl)
    (toShort_succ (ht.nlink_nonneg i) (ht.short i) hn) ?_
  rw [if_neg (by exact h.file), Int.add_zero]
  rfl

theorem Makes.ne {name : List UInt8} {type : Int} (h : Makes N d s i name type) : i ≠ d := by
  rintro rfl
  exact absurd (h.free.symm.trans h.enters.dir) (by decide)

theorem new_vacant (type major minor : Int) (i d : Nat) {s : Nat} (hs : 2 ≤ s) :
    ((Node.new type major minor i d).entry s).inum = 0 := by
  unfold Node.new
  split
  · unfold Node.dots
    rw [Node.entry_enter_other _ _ (by omega), Node.entry_enter_other _ _ (by omega)]
    rfl
  · rfl

theorem Makes.adds {name : List UInt8} {type : Int} (h : Makes N d s i name type) (major minor : Int)
    (ht : Tree N) (hfree : N i = .free)
    (hn : 0 ≤ (makeAt N d s i name (.new type major minor i d) d).nlink) :
    Adds N (makeAt N d s i name (.new type major minor i d)) d s i := by
  have hleaf : ∀ s k, ¬ Entry N i s k := not_entry (by rw [hfree]; exact fun hd => absurd hd (by decide))
  have hs := ht.slot_of_enters h.enters
  rw [makeAt, setAt_same] at hn
  refine .of_set h.ne h.enters.dir ?_ hs (Nat.ne_of_gt h.pos) h.enters.empty ?_ (fun s' hs' => ?_)
    hleaf (fun _ s hs => new_vacant _ _ _ _ _ hs)
    (fun d' s' he => absurd h.free (ht.live d' s' i he)) (by rw [new_nlink, hfree]; rfl) ?_
  · split <;> exact h.enters.dir
  · split
    · exact congrArg Dirent.inum (Node.entry_enter _ _ _)
    · exact congrArg Dirent.inum (Node.entry_enter _ _ _)
  · split
    · exact Node.entry_enter_other _ _ hs'
    · exact Node.entry_enter_other _ _ hs'
  · split
    · rename_i hd
      rw [if_pos hd] at hn
      exact toShort_succ (ht.nlink_nonneg d) (ht.short d) hn
    · exact (Int.add_zero _).symm

theorem Unlinks.slot_ge (h : Unlinks N d s i) (ht : Tree N) : 2 ≤ s := by
  have hd := ht.dots d h.dir
  have h₀ : s ≠ 0 := by
    rintro rfl
    exact absurd (hd.dot.symm.trans h.nodot) (by decide)
  have h₁ : s ≠ 1 := by
    rintro rfl
    exact absurd (hd.dotdot.symm.trans h.nodotdot) (by decide)
  omega

theorem Unlinks.entry (h : Unlinks N d s i) (ht : Tree N) : Entry N d s i :=
  ⟨h.dir, h.slot_ge ht, h.names, h.pos⟩

/-- A directory with a subdirectory has a link from it. -/
theorem Tree.nlink_pos (ht : Tree N) (h : Entry N d s i) (hd : (N i).type = T_DIR) :
    1 ≤ (N d).nlink := by
  have hpos : 0 < (subdirs N d).ncard :=
    (Set.ncard_pos (ht.finite d).2).mpr ⟨s, i, h, hd⟩
  have := ht.count d
  unfold weight at this
  omega

/-- The directory that sys_unlink() leaves. -/
def unlinked (N : Nat → Node) (d s i : Nat) : Node :=
  if (N i).type = T_DIR then ((N d).enter s .erased).addLink (-1) else (N d).enter s .erased

theorem unlinkAt_eq (h : Unlinks N d s i) :
    unlinkAt N d s i = setAt (setAt N i ((N i).addLink (-1))) d (unlinked N d s i) :=
  setAt_comm _ h.other.symm _ _

theorem unlinked_type (h : Unlinks N d s i) : (unlinked N d s i).type = T_DIR := by
  unfold unlinked
  split <;> exact h.dir

theorem unlinked_entry : (unlinked N d s i).entry = setAt (N d).entry s .erased := by
  unfold unlinked
  split <;> rfl

theorem Unlinks.adds (h : Unlinks N d s i) (ht : Tree N) : Adds (unlinkAt N d s i) N d s i := by
  have hNi : unlinkAt N d s i i = (N i).addLink (-1) := setAt_same _ _ _
  have hNd : unlinkAt N d s i d = unlinked N d s i := by
    rw [unlinkAt_eq h, setAt_same]
  have hback : N = setAt (setAt (unlinkAt N d s i) i (N i)) d (N d) := by
    rw [unlinkAt_eq h]
    funext j
    by_cases hd : j = d
    · rw [hd, setAt_same]
    · by_cases hi : j = i
      · rw [hi, setAt_fst _ h.other]
      · rw [setAt_rest _ hi hd, setAt_rest _ hi hd]
  have hrest : ∀ s', s' ≠ s → (N d).entry s' = (unlinkAt N d s i d).entry s' := by
    intro s' hs'
    rw [hNd, unlinked_entry, setAt_other _ _ _ hs']
  have key : Adds (unlinkAt N d s i) (setAt (setAt (unlinkAt N d s i) i (N i)) d (N d)) d s i := by
    refine .of_set h.other (by rw [hNd]; exact unlinked_type h) h.dir (h.slot_ge ht) h.pos ?_ h.names
      hrest (not_entry ?_) h.vacant (fun _ _ _ => by rw [hNi]; rfl) ?_ ?_
    · rw [hNd, unlinked_entry, setAt_same]
      rfl
    · rw [hNi]
      exact h.vacant
    · rw [hNi]
      change _ = toShort ((N i).nlink + -1) + 1
      rw [toShort_pred h.linked (ht.short i)]
      omega
    · rw [hNd, unlinked]
      split
      · rename_i hdir
        change _ = toShort ((N d).nlink + -1) + 1
        rw [toShort_pred (ht.nlink_pos (h.entry ht) hdir) (ht.short d)]
        omega
      · exact (Int.add_zero _).symm
  rwa [← hback] at key

/- The tree. -/

theorem toShort_lt (x : Int) : toShort x < 2 ^ 15 := by
  unfold toShort
  omega

/-- A new name for a file, or the name of a new file. -/
theorem Tree.grow {a b : Node} (h : Tree N) (ha : Adds N (setAt (setAt N i a) d b) d s i)
    (hne : i ≠ d) (hb : b.type = T_DIR) (hi : i ≠ 0) (hd : d ≠ 0) (hold : (N i).type ≠ T_DIR)
    (hbd : Dots b d) (hup : b.entry 1 = (N d).entry 1) (halive : a.type ≠ 0)
    (had : a.type = T_DIR → Dots a i ∧ (a.entry 1).inum = d ∧ ∀ d' s', ¬ Entry N d' s' i)
    (hsa : a.nlink < 2 ^ 15) (hsb : b.nlink < 2 ^ 15) : Tree (setAt (setAt N i a) d b) := by
  have hNd : setAt (setAt N i a) d b d = b := setAt_same _ _ _
  have hNi : setAt (setAt N i a) d b i = a := setAt_fst _ hne _ _
  have hNj : ∀ {j}, j ≠ i → j ≠ d → setAt (setAt N i a) d b j = N j :=
    fun hi hd => setAt_rest _ hi hd _ _
  generalize setAt (setAt N i a) d b = N' at *
  have hir : i ≠ ROOTINO := fun he => hold (he ▸ h.root)
  have hone : ∀ k, k ≠ i → (N' k).entry 1 = (N k).entry 1 := by
    intro k hk
    by_cases hkd : k = d
    · rw [hkd, hNd, hup]
    · rw [hNj hk hkd]
  refine ⟨?_, ?_, ?_, fun j hj => ?_, fun d' s' k he => ?_, fun d' s' k he hk => ?_,
    fun d' s₁ s₂ k he₁ he₂ hk => ?_, fun k => ha.finite (h.finite k), fun k => ?_,
    fun k => (ha.count_iff (h.finite k)).1.mpr (h.count k)⟩
  · rw [hNj hi.symm hd.symm]
    exact h.zero
  · by_cases he : ROOTINO = d
    · rw [he, hNd, hb]
    · rw [hNj hir.symm he]
      exact h.root
  · rw [hone _ hir.symm]
    exact h.top
  · by_cases hji : j = i
    · rw [hji, hNi] at hj ⊢
      exact (had hj).1
    · by_cases hjd : j = d
      · rw [hjd, hNd]
        exact hbd
      · rw [hNj hji hjd] at hj ⊢
        exact h.dots j hj
  · rcases (ha.entry d' s' k).mp he with he | ⟨-, -, rfl⟩
    · rw [ha.type d' s' k he]
      exact h.live d' s' k he
    · rw [hNi]
      exact halive
  · rcases (ha.entry d' s' k).mp he with he | ⟨rfl, -, rfl⟩
    · rw [ha.type d' s' k he] at hk
      rw [hone k (fun hki => hold (hki ▸ hk))]
      exact h.parent d' s' k he hk
    · rw [hNi] at hk ⊢
      exact ⟨hir, (had hk).2.1⟩
  · rcases (ha.entry d' s₁ k).mp he₁ with he₁ | ⟨-, rfl, rfl⟩
    · rcases (ha.entry d' s₂ k).mp he₂ with he₂ | ⟨-, rfl, rfl⟩
      · rw [ha.type d' s₁ k he₁] at hk
        exact h.single d' s₁ s₂ k he₁ he₂ hk
      · exact absurd he₁ ((had (hNi ▸ hk)).2.2 d' s₁)
    · rcases (ha.entry d' s₂ k).mp he₂ with he₂ | ⟨-, rfl, -⟩
      · exact absurd he₂ ((had (hNi ▸ hk)).2.2 d' s₂)
      · rfl
  · by_cases hki : k = i
    · rw [hki, hNi]
      exact hsa
    · by_cases hkd : k = d
      · rw [hkd, hNd]
        exact hsb
      · rw [hNj hki hkd]
        exact h.short k

theorem Links.tree {name : List UInt8} (h : Links N d s i name) (ht : Tree N)
    (hn : 0 ≤ (linkAt N d s i name i).nlink) : Tree (linkAt N d s i name) := by
  have hs := ht.slot_of_enters h.enters
  have hd := h.enters.dir
  exact ht.grow (h.adds ht hn) h.ne hd (ht.ne_zero h.live) (ht.ne_zero (by rw [hd]; decide)) h.file
    (h.enters.dots (ht.dots d hd) hs) (Node.entry_enter_other _ _ (by omega)) h.live
    (fun hd => absurd hd h.file) (toShort_lt _) (ht.short d)

theorem new_dots (major minor : Int) (i : Nat) {d : Nat} (hd : d ≠ 0) :
    Dots (Node.new T_DIR major minor i d) i ∧
      ((Node.new T_DIR major minor i d).entry 1).inum = d := by
  have h₀ : (Node.new T_DIR major minor i d).entry 0 = ⟨i, strncpy dot⟩ := by
    rw [Node.new, if_pos rfl, Node.dots, Node.entry_enter_other _ _ (by decide), Node.entry_enter]
  have h₁ : (Node.new T_DIR major minor i d).entry 1 = ⟨d, strncpy dotdot⟩ := by
    rw [Node.new, if_pos rfl, Node.dots, Node.entry_enter]
  have hn₀ : ((Node.new T_DIR major minor i d).entry 0).name = strncpy dot := by rw [h₀]
  have hn₁ : ((Node.new T_DIR major minor i d).entry 1).name = strncpy dotdot := by rw [h₁]
  have htwo : ∀ s, ((Node.new T_DIR major minor i d).entry s).inum ≠ 0 → s = 0 ∨ s = 1 := by
    intro s hs
    by_contra hc
    exact hs (new_vacant _ _ _ _ _ (by omega))
  refine ⟨⟨fun s hs => ?_, by rw [h₀], by rw [hn₀]; decide, by rw [h₁]; exact hd, by rw [hn₁]; decide,
    fun s s' hs hs' he => ?_, fun s hs => ?_⟩, by rw [h₁]⟩
  · have : (Node.new T_DIR major minor i d).size = 32 := by rw [Node.new, if_pos rfl]; rfl
    rcases htwo s hs with rfl | rfl <;> omega
  · rcases htwo s hs with rfl | rfl <;> rcases htwo s' hs' with rfl | rfl
    · rfl
    · rw [hn₀, hn₁] at he
      exact absurd he (by decide)
    · rw [hn₀, hn₁] at he
      exact absurd he (by decide)
    · rfl
  · rcases htwo s hs with rfl | rfl
    · rw [hn₀]
      decide
    · rw [hn₁]
      decide

theorem Makes.tree {name : List UInt8} {type : Int} (h : Makes N d s i name type) (major minor : Int)
    (ht : Tree N) (hfree : N i = .free)
    (hn : 0 ≤ (makeAt N d s i name (.new type major minor i d) d).nlink) :
    Tree (makeAt N d s i name (.new type major minor i d)) := by
  have hs := ht.slot_of_enters h.enters
  have hd := h.enters.dir
  have hi : i ≠ 0 := Nat.ne_of_gt h.pos
  have hd₀ : d ≠ 0 := ht.ne_zero (by rw [hd]; decide)
  have hbd := h.enters.dots (i := i) (ht.dots d hd) hs
  have hup : ((N d).enter s ⟨i, strncpy name⟩).entry 1 = (N d).entry 1 :=
    Node.entry_enter_other _ _ (by omega)
  refine ht.grow (h.adds major minor ht hfree hn) h.ne ?_ hi hd₀ ?_ ?_ ?_ ?_ (fun hdir => ?_) ?_ ?_
  · split <;> exact hd
  · rw [h.free]
    decide
  · split
    · exact hbd.addLink 1
    · exact hbd
  · split <;> exact hup
  · rw [new_type]
    rcases h.type with rfl | rfl | rfl <;> decide
  · rw [new_type] at hdir
    rw [hdir]
    have := new_dots major minor i hd₀
    exact ⟨this.1, this.2, fun d' s' he => ht.live d' s' i he h.free⟩
  · rw [new_nlink]
    decide
  · split
    · exact toShort_lt _
    · exact ht.short d

theorem Unlinks.tree (h : Unlinks N d s i) (ht : Tree N) : Tree (unlinkAt N d s i) := by
  have ha := h.adds ht
  have hs := h.slot_ge ht
  rw [unlinkAt_eq h] at ha ⊢
  have hb := unlinked_type h
  have hbe := unlinked_entry (N := N) (d := d) (s := s) (i := i)
  have hbd : Dots (unlinked N d s i) d := by
    have := (ht.dots d h.dir).enter hs .erased (fun hne => absurd rfl hne)
    unfold unlinked
    split
    · exact this.addLink (-1)
    · exact this
  have hbn : (unlinked N d s i).nlink < 2 ^ 15 := by
    unfold unlinked
    split
    · exact toShort_lt _
    · exact ht.short d
  have hNd : setAt (setAt N i ((N i).addLink (-1))) d (unlinked N d s i) d = unlinked N d s i :=
    setAt_same _ _ _
  have hNi : setAt (setAt N i ((N i).addLink (-1))) d (unlinked N d s i) i = (N i).addLink (-1) :=
    setAt_fst _ h.other _ _
  have hNj : ∀ {j}, j ≠ i → j ≠ d →
      setAt (setAt N i ((N i).addLink (-1))) d (unlinked N d s i) j = N j :=
    fun hi hd => setAt_rest _ hi hd _ _
  generalize setAt (setAt N i ((N i).addLink (-1))) d (unlinked N d s i) = N' at *
  have htype : ∀ j, (N' j).type = (N j).type := by
    intro j
    by_cases hji : j = i
    · rw [hji, hNi]
      rfl
    · by_cases hjd : j = d
      · rw [hjd, hNd, hb, h.dir]
      · rw [hNj hji hjd]
  have hone : ∀ j, (N' j).entry 1 = (N j).entry 1 := by
    intro j
    by_cases hji : j = i
    · rw [hji, hNi]
      rfl
    · by_cases hjd : j = d
      · rw [hjd, hNd, hbe, setAt_other _ _ _ (by omega)]
      · rw [hNj hji hjd]
  have hold : ∀ {d' s' k}, Entry N' d' s' k → Entry N d' s' k := fun he => (ha.entry _ _ _).mpr (.inl he)
  refine ⟨by rw [htype]; exact ht.zero, by rw [htype]; exact ht.root, by rw [hone]; exact ht.top,
    fun j hj => ?_, fun d' s' k he => by rw [htype]; exact ht.live d' s' k (hold he),
    fun d' s' k he hk => by rw [hone]; exact ht.parent d' s' k (hold he) (htype k ▸ hk),
    fun d' s₁ s₂ k he₁ he₂ hk => ht.single d' s₁ s₂ k (hold he₁) (hold he₂) (htype k ▸ hk),
    fun k => ha.finite_before (ht.finite k), fun k => ?_, fun k =>
      (ha.count_iff (ha.finite_before (ht.finite k))).1.mp (ht.count k)⟩
  · rw [htype] at hj
    by_cases hji : j = i
    · rw [hji, hNi]
      exact (ht.dots i (hji ▸ hj)).addLink (-1)
    · by_cases hjd : j = d
      · rw [hjd, hNd]
        exact hbd
      · rw [hNj hji hjd]
        exact ht.dots j hj
  · by_cases hki : k = i
    · rw [hki, hNi]
      exact toShort_lt _
    · by_cases hkd : k = d
      · rw [hkd, hNd]
        exact hbn
      · rw [hNj hki hkd]
        exact ht.short k

/- Files that are freed or written. -/

/-- A file without links has no names, and is not the root. -/
theorem Tree.unnamed (ht : Tree N) (hn : (N i).nlink = 0) :
    i ≠ ROOTINO ∧ ∀ d s, ¬ Entry N d s i := by
  have hw : weight N i = 0 := by
    have := ht.count i
    omega
  constructor
  · rintro rfl
    simp [weight] at hw
  · intro d s he
    have : 0 < (names N i).ncard := (Set.ncard_pos (ht.finite i).1).mpr ⟨(d, s), he⟩
    unfold weight at hw
    omega

theorem entry_free (d s k : Nat) : Entry (setAt N i .free) d s k ↔ Entry N d s k ∧ d ≠ i := by
  by_cases hd : d = i
  · rw [hd]
    exact ⟨fun h => absurd h.dir (by rw [setAt_same]; decide), fun h => absurd rfl h.2⟩
  · have hNd : setAt N i .free d = N d := setAt_other _ _ _ hd
    exact ⟨fun h => ⟨⟨hNd ▸ h.dir, h.slot, hNd ▸ h.inum, h.pos⟩, hd⟩,
      fun h => ⟨hNd.symm ▸ h.1.dir, h.1.slot, hNd.symm ▸ h.1.inum, h.1.pos⟩⟩

theorem Tree.free (ht : Tree N) (hn : (N i).nlink = 0) : Tree (setAt N i .free) := by
  obtain ⟨hir, hnone⟩ := ht.unnamed hn
  have hentry := entry_free (N := N) (i := i)
  have hNi : setAt N i .free i = .free := setAt_same _ _ _
  have hNj : ∀ {j}, j ≠ i → setAt N i .free j = N j := fun h => setAt_other _ _ _ h
  generalize setAt N i .free = N' at *
  have hnames : ∀ k, names N' k ⊆ names N k := fun k o ho => ((hentry _ _ _).mp ho).1
  have hk : ∀ {d s k}, Entry N' d s k → N' k = N k := by
    intro d s k he
    refine hNj ?_
    rintro rfl
    exact hnone d s ((hentry _ _ _).mp he).1
  have hsub : ∀ k, subdirs N' k ⊆ subdirs N k := by
    rintro k s ⟨j, he, hj⟩
    exact ⟨j, ((hentry _ _ _).mp he).1, hk he ▸ hj⟩
  refine ⟨?_, by rw [hNj hir.symm]; exact ht.root, by rw [hNj hir.symm]; exact ht.top,
    fun j hj => ?_, fun d s k he => ?_, fun d s k he hd => ?_, fun d s s' k he he' hd => ?_,
    fun k => ⟨(ht.finite k).1.subset (hnames k), (ht.finite k).2.subset (hsub k)⟩, fun k => ?_,
    fun k => ?_⟩
  · by_cases h : 0 = i
    · rw [h, hNi]
      rfl
    · rw [hNj h]
      exact ht.zero
  · by_cases h : j = i
    · rw [h, hNi] at hj
      exact absurd hj (by decide)
    · rw [hNj h] at hj ⊢
      exact ht.dots j hj
  · rw [hk he]
    exact ht.live d s k ((hentry _ _ _).mp he).1
  · rw [hk he] at hd ⊢
    exact ht.parent d s k ((hentry _ _ _).mp he).1 hd
  · rw [hk he] at hd
    exact ht.single d s s' k ((hentry _ _ _).mp he).1 ((hentry _ _ _).mp he').1 hd
  · by_cases h : k = i
    · rw [h, hNi]
      decide
    · rw [hNj h]
      exact ht.short k
  · have h₁ := Set.ncard_le_ncard (hnames k) (ht.finite k).1
    have h₂ := Set.ncard_le_ncard (hsub k) (ht.finite k).2
    have h₃ := ht.count k
    have h₄ : (N' k).nlink = (N k).nlink := by
      by_cases h : k = i
      · rw [h, hNi, hn]
        rfl
      · rw [hNj h]
    rw [h₄]
    unfold weight at h₃ ⊢
    omega

theorem weight_congr (he : ∀ d s k, Entry N' d s k ↔ Entry N d s k)
    (ht : ∀ d s k, Entry N d s k → (N' k).type = (N k).type) (k : Nat) :
    weight N' k = weight N k := by
  have hn : names N' k = names N k := Set.ext (fun o => he o.1 o.2 k)
  have hs : subdirs N' k = subdirs N k := by
    ext s
    constructor
    · rintro ⟨j, hj, hd⟩
      have hj := (he _ _ _).mp hj
      exact ⟨j, hj, ht _ _ _ hj ▸ hd⟩
    · rintro ⟨j, hj, hd⟩
      exact ⟨j, (he _ _ _).mpr hj, (ht _ _ _ hj).trans hd⟩
  rw [weight, hn, hs, weight]

/-- Only what a file that is no directory contains has changed. -/
structure SameTree (N N' : Nat → Node) : Prop where
  type : ∀ j, (N' j).type = (N j).type
  nlink : ∀ j, (N' j).nlink = (N j).nlink
  dirs : ∀ j, (N j).type = T_DIR → N' j = N j

theorem SameTree.entry (h : SameTree N N') (d s k : Nat) : Entry N' d s k ↔ Entry N d s k := by
  constructor
  · intro he
    have hd := h.type d ▸ he.dir
    exact ⟨hd, he.slot, h.dirs d hd ▸ he.inum, he.pos⟩
  · intro he
    have := h.dirs d he.dir
    exact ⟨this.symm ▸ he.dir, he.slot, this.symm ▸ he.inum, he.pos⟩

theorem SameTree.weight (h : SameTree N N') (k : Nat) : weight N' k = weight N k :=
  weight_congr h.entry (fun _ _ k _ => h.type k) k

theorem SameTree.tree (h : SameTree N N') (ht : Tree N) : Tree N' := by
  have hroot := h.dirs _ ht.root
  refine ⟨by rw [h.type]; exact ht.zero, by rw [h.type]; exact ht.root, by rw [hroot]; exact ht.top,
    fun j hj => ?_, fun d s k he => ?_, fun d s k he hd => ?_, fun d s s' k he he' hd => ?_,
    fun k => ?_, fun k => by rw [h.nlink]; exact ht.short k,
    fun k => by rw [h.nlink, h.weight]; exact ht.count k⟩
  · rw [h.type] at hj
    rw [h.dirs j hj]
    exact ht.dots j hj
  · rw [h.type]
    exact ht.live d s k ((h.entry _ _ _).mp he)
  · rw [h.type] at hd
    rw [h.dirs k hd]
    exact ht.parent d s k ((h.entry _ _ _).mp he) hd
  · rw [h.type] at hd
    exact ht.single d s s' k ((h.entry _ _ _).mp he) ((h.entry _ _ _).mp he') hd
  · have := ht.finite k
    unfold names subdirs at *
    simp only [h.entry, h.type]
    exact this

theorem sameTree_write (size : Nat) (data : Nat → UInt8) (hd : (N i).type ≠ T_DIR) :
    SameTree N (setAt N i { N i with size := size, data := data }) := by
  refine ⟨fun j => ?_, fun j => ?_, fun j hj => ?_⟩
  · by_cases h : j = i
    · rw [h, setAt_same]
    · rw [setAt_other _ _ _ h]
  · by_cases h : j = i
    · rw [h, setAt_same]
    · rw [setAt_other _ _ _ h]
  · refine setAt_other _ _ _ ?_
    rintro rfl
    exact hd hj

/-- Freeing and writing files does not change link counts. -/
theorem Fades.nlink (h : Fades N N') (k : Nat) : (N' k).nlink = (N k).nlink := by
  cases h with
  | @free i ht hn =>
    by_cases hk : k = i
    · rw [hk, setAt_same, hn]
      rfl
    · rw [setAt_other _ _ _ hk]
  | write ht hd size data => exact (sameTree_write size data hd).nlink k

theorem fades_nlink (h : Relation.ReflTransGen Fades N N') (k : Nat) :
    (N' k).nlink = (N k).nlink := by
  induction h with
  | refl => rfl
  | tail _ hs ih => rw [hs.nlink, ih]

theorem Fades.tree (h : Fades N N') (ht : Tree N) : Tree N' := by
  cases h with
  | free _ hn => exact ht.free hn
  | write _ hd size data => exact (sameTree_write size data hd).tree ht

theorem Renames.tree (h : Renames N N') (ht : Tree N) (hfree : ∀ i, (N i).type = 0 → N i = .free)
    (hn : ∀ k, 0 ≤ (N' k).nlink) : Tree N' := by
  cases h with
  | link h => exact h.tree ht (hn _)
  | make major minor h => exact h.tree major minor ht (hfree _ h.free) (hn _)
  | unlink h => exact h.tree ht

/-- The files stay a tree as long as no link count overflows. -/
theorem Effect.tree (h : Effect N N') (ht : Tree N) (hfree : ∀ i, (N i).type = 0 → N i = .free)
    (hn : ∀ k, 0 ≤ (N' k).nlink) : Tree N' := by
  obtain ⟨N₁, h₁, hf, -⟩ := h
  have ht₁ : Tree N₁ := by
    rcases h₁ with rfl | h₁
    · exact ht
    · exact h₁.tree ht hfree (fun k => by rw [← fades_nlink hf k]; exact hn k)
  clear h₁ hn
  induction hf with
  | refl => exact ht₁
  | tail _ hs ih => exact hs.tree ih

end Xv6
