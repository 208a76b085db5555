import Xv6.Proofs.Hierarchy
import Xv6.Proofs.Mkfs

namespace Xv6
variable {sb : Superblock} {disk : Disk} {N N' : Nat → Node} {fs fs' : Fs} {d s i j k : Nat}

/-- A well-formed image with the directories in order. -/
structure TreeImage (sb : Superblock) (disk : Disk) : Prop extends WellFormed sb disk where
  tree : Hierarchy (nodes sb disk)

/-- No link count is too large for a short. -/
def Countable (N : Nat → Node) : Prop := ∀ k, 0 ≤ (N k).nlink

theorem Healthy.free (h : Healthy sb fs) (i : Nat) (hz : (fs.node i).type = 0) :
    fs.node i = .free := by
  obtain ⟨t, -, h⟩ := h
  exact (h 0).free_eq hz

/-- The files are a tree in every state that is reached without an overflow. -/
theorem reaches_tree (h : TreeImage sb disk)
    (hr : ReachesBy Fs.stepNoChmod (fun _ fs' => Countable fs'.node) (Fs.boot sb disk) fs) :
    Healthy sb fs ∧ Tree fs.node := by
  refine hr.invariant (p := fun fs => Healthy sb fs ∧ Tree fs.node)
    ⟨h.toWellFormed.healthy, h.tree.toTree⟩ ?_
  rintro fs e fs' ⟨hh, ht⟩ he hn
  obtain ⟨hh', hf⟩ := hh.step h.super he
  exact ⟨hh', hf.tree ht hh.free hn⟩

/- What .. names. -/

/-- A directory that remains loses what its .. names. -/
def Strands (N N' : Nat → Node) : Prop :=
  ∃ j, (N' j).type = T_DIR ∧ (N ((N' j).entry 1).inum).type ≠ 0 ∧
    (N' ((N' j).entry 1).inum).type = 0

theorem Fades.dir (h : Fades N N') (hd : (N' j).type = T_DIR) : N' j = N j := by
  cases h with
  | @free i _ _ =>
    by_cases hj : j = i
    · rw [hj, setAt_same] at hd
      exact absurd hd (by decide)
    · exact setAt_other _ _ _ hj
  | @write i _ hn size data =>
    by_cases hj : j = i
    · rw [hj, setAt_same] at hd
      exact absurd hd hn
    · exact setAt_other _ _ _ hj

theorem fades_dir (h : Relation.ReflTransGen Fades N N') (hd : (N' j).type = T_DIR) : N' j = N j := by
  induction h with
  | refl => rfl
  | tail _ hs ih =>
    have := hs.dir hd
    rw [this] at hd ⊢
    exact ih hd

/-- The .. of a directory stays as it is, and a new directory is put into one that is there. -/
theorem Effect.up (h : Effect N N') (ht : Tree N) (hd : (N' j).type = T_DIR) :
    ((N j).type = T_DIR ∧ (N' j).entry 1 = (N j).entry 1) ∨
      (N ((N' j).entry 1).inum).type = T_DIR := by
  obtain ⟨N₁, h₁, hf, -⟩ := h
  have hj := fades_dir hf hd
  rw [hj] at hd ⊢
  rcases h₁ with rfl | h₁
  · exact .inl ⟨hd, rfl⟩
  · cases h₁ with
    | @link d s i name hl =>
      have hs := ht.slot_of_enters hl.enters
      refine .inl ?_
      by_cases hjd : j = d
      · rw [hjd, linkAt, setAt_same]
        exact ⟨hl.enters.dir, Node.entry_enter_other _ _ (by omega)⟩
      · by_cases hji : j = i
        · rw [hji, linkAt, setAt_fst _ hl.ne] at hd
          exact absurd hd hl.file
        · rw [linkAt, setAt_rest _ hji hjd] at hd ⊢
          exact ⟨hd, rfl⟩
    | @make d s i name type major minor hm =>
      have hs := ht.slot_of_enters hm.enters
      by_cases hjd : j = d
      · rw [hjd, makeAt, setAt_same]
        refine .inl ⟨hm.enters.dir, ?_⟩
        split <;> exact Node.entry_enter_other _ _ (by omega)
      · by_cases hji : j = i
        · rw [hji, makeAt, setAt_fst _ hm.ne] at hd ⊢
          rw [new_type] at hd
          rw [hd, (new_dots major minor i (ht.ne_zero (by rw [hm.enters.dir]; decide))).2]
          exact .inr hm.enters.dir
        · rw [makeAt, setAt_rest _ hji hjd] at hd ⊢
          exact .inl ⟨hd, rfl⟩
    | @unlink d s i hu =>
      have hs := hu.slot_ge ht
      rw [unlinkAt_eq hu] at hd ⊢
      refine .inl ?_
      by_cases hjd : j = d
      · rw [hjd, setAt_same, unlinked_entry, setAt_other _ _ _ (by omega)]
        exact ⟨hu.dir, rfl⟩
      · by_cases hji : j = i
        · rw [hji, setAt_fst _ hu.other] at hd ⊢
          exact ⟨hd, rfl⟩
        · rw [setAt_rest _ hji hjd] at hd ⊢
          exact ⟨hd, rfl⟩

/-- Every entry but .. names an allocated inode anyway. -/
theorem Tree.sound (ht : Tree N)
    (hup : ∀ j, (N j).type = T_DIR → (N ((N j).entry 1).inum).type ≠ 0) : Sound N := by
  have hdir : T_DIR ≠ 0 := by decide
  refine ⟨by rw [ht.root]; exact hdir, fun j s hd hne => ?_⟩
  by_cases h₀ : s = 0
  · rw [h₀, (ht.dots j hd).self, hd]
    exact hdir
  · by_cases h₁ : s = 1
    · rw [h₁]
      exact hup j hd
    · exact ht.live j s _ ⟨hd, by omega, rfl, hne⟩

theorem Effect.sound (h : Effect N N') (ht : Tree N) (ht' : Tree N') (hs : Sound N)
    (hn : ¬ Strands N N') : Sound N' := by
  refine ht'.sound (fun j hd hz => hn ⟨j, hd, ?_, hz⟩)
  rcases h.up ht hd with ⟨hj, he⟩ | hup
  · rw [he]
    exact hs.entry j 1 hj (ht.dots j hj).up
  · rw [hup]
    decide

/-- A directory of a hierarchy with links is named by its .. directory. -/
theorem Hierarchy.named (h : Hierarchy N) (hd : (N j).type = T_DIR) (hn : (N j).nlink ≠ 0)
    (hr : j ≠ ROOTINO) : ∃ s, Entry N ((N j).entry 1).inum s j := by
  rcases (h.reach_linked hn).cases_tail with he | ⟨b, -, s, he⟩
  · exact absurd he hr
  · exact ⟨s, (h.parent b s j he hd).2 ▸ he⟩

theorem TreeImage.sound (h : TreeImage sb disk) : Sound (nodes sb disk) := by
  refine h.tree.sound (fun j hd => ?_)
  by_cases hr : j = ROOTINO
  · rw [hr, h.tree.top, h.tree.root]
    decide
  · have hn : (nodes sb disk j).nlink ≠ 0 := by
      have ht : (dinodes sb disk j).type ≠ 0 := by
        rw [nodes, node_type] at hd
        rw [hd]
        decide
      rw [nodes, node_live ht]
      exact h.linked j ht
    obtain ⟨s, he⟩ := h.tree.named hd hn hr
    rw [he.dir]
    decide

theorem fileImage_treeImage : TreeImage mkfsSb fileImage := ⟨fileImage_wellFormed, fileImage_hierarchy⟩

theorem Fs.node_past {i : Nat} (h : fs.mem.sb.ninodes ≤ i) : fs.node i = .free := by
  rw [Fs.node, nodes, dinodes, if_neg (Nat.not_lt.mpr h)]
  exact node_free rfl _

/-- What has to be looked at to see that a step is allowed. -/
def Fs.checked (fs : Fs) : Prop :=
  fs.mem.sb.ninodes = 200 ∧ (∀ k < 200, 0 ≤ (fs.node k).nlink) ∧
    ∀ j < 200, (fs.node j).type = T_DIR → (fs.node ((fs.node j).entry 1).inum).type ≠ 0

instance (fs : Fs) : Decidable fs.checked := inferInstanceAs (Decidable (_ ∧ _ ∧ _))

theorem Fs.checked.countable (h : fs.checked) : Countable fs.node := by
  intro k
  by_cases hk : k < 200
  · exact h.2.1 k hk
  · rw [fs.node_past (by rw [h.1]; omega)]
    decide

theorem Fs.checked.not_strands (h : fs'.checked) : ¬ Strands fs.node fs'.node := by
  rintro ⟨j, hd, -, hz⟩
  by_cases hj : j < 200
  · exact h.2.2 j hj hd hz
  · rw [fs'.node_past (by rw [h.1]; omega)] at hd
    exact absurd hd (by decide)

/-- The outcome of a call is the panic `e`. -/
def Fs.panics (fs : Fs) (ev : Event) (e : Panic) : Bool :=
  match fs.exec ev with
  | .fail e' => decide (e' = e)
  | _ => false

theorem Fs.panics_iff {ev : Event} {e : Panic} : fs.panics ev e = true ↔ fs.exec ev = .fail e := by
  unfold Fs.panics
  split
  · rename_i e' he
    rw [he, decide_eq_true_eq]
    exact ⟨fun h => h ▸ rfl, fun h => by cases h; rfl⟩
  · rename_i hne
    exact ⟨nofun, fun h => absurd h (hne e)⟩

end Xv6
