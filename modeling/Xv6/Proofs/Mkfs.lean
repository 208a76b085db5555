import Xv6.Proofs.Healthy
import Xv6.Tree

namespace Xv6

/- The image of one file: the root and the file are its two inodes. -/

def fileDinode : Dinode := ⟨T_FILE, 0, 0, 1, 8, 47 :: List.replicate NDIRECT 0⟩

set_option maxRecDepth 100000 in
/-- The inodes, the bitmap and the entries of the root, read off the image. -/
theorem fileImage_read :
    (dinodes mkfsSb fileImage ROOTINO = rootDinode ∧ dinodes mkfsSb fileImage 2 = fileDinode ∧
      ∀ i < 200, i ≠ ROOTINO → i ≠ 2 → (dinodes mkfsSb fileImage i).type = 0) ∧
    (∀ b < 2000, bitClear (fileImage (mkfsSb.bblock b)) (b % BPB) = decide (48 ≤ b)) ∧
    rootDinode.dirent fileImage 0 = ⟨ROOTINO, strncpy dot⟩ ∧ rootDinode.dirent fileImage 1 = ⟨ROOTINO, strncpy dotdot⟩ ∧
      rootDinode.dirent fileImage 2 = ⟨2, strncpy [102]⟩ ∧ ∀ s < 64, 3 ≤ s → (rootDinode.dirent fileImage s).inum = 0 := by
  decide +kernel

theorem fileImage_root : dinodes mkfsSb fileImage ROOTINO = rootDinode := fileImage_read.1.1

theorem fileImage_file : dinodes mkfsSb fileImage 2 = fileDinode := fileImage_read.1.2.1

theorem fileImage_bits : ∀ b < 2000, bitClear (fileImage (mkfsSb.bblock b)) (b % BPB) = decide (48 ≤ b) := fileImage_read.2.1

theorem fileImage_free {i : Nat} (h₁ : i ≠ ROOTINO) (h₂ : i ≠ 2) :
    (dinodes mkfsSb fileImage i).type = 0 := by
  by_cases hi : i < 200
  · exact fileImage_read.1.2.2 i hi h₁ h₂
  · rw [dinodes, if_neg (c := i < mkfsSb.ninodes) hi]
    rfl

/-- The entries in use of the root. -/
theorem rootDirent_used {s : Nat} (hs : s < 64) (h : (rootDinode.dirent fileImage s).inum ≠ 0) :
    s = 0 ∧ rootDinode.dirent fileImage s = ⟨ROOTINO, strncpy dot⟩ ∨
    s = 1 ∧ rootDinode.dirent fileImage s = ⟨ROOTINO, strncpy dotdot⟩ ∨
    s = 2 ∧ rootDinode.dirent fileImage s = ⟨2, strncpy [102]⟩ := by
  obtain ⟨h₀, h₁, h₂, hrest⟩ := fileImage_read.2.2
  match s, hs, h with
  | 0, _, _ => exact .inl ⟨rfl, h₀⟩
  | 1, _, _ => exact .inr (.inl ⟨rfl, h₁⟩)
  | 2, _, _ => exact .inr (.inr ⟨rfl, h₂⟩)
  | s + 3, hs, h => exact absurd (hrest (s + 3) hs (by omega)) h

/-- The two inodes that there are. -/
theorem fileImage_cases {P : Nat → Dinode → Prop} {i : Nat}
    (ht : (dinodes mkfsSb fileImage i).type ≠ 0) (hr : P ROOTINO rootDinode) (hf : P 2 fileDinode) :
    P i (dinodes mkfsSb fileImage i) := by
  by_cases h₁ : i = ROOTINO
  · rw [h₁, fileImage_root]
    exact hr
  · by_cases h₂ : i = 2
    · rw [h₂, fileImage_file]
      exact hf
    · exact absurd (fileImage_free h₁ h₂) ht

/-- An inode whose only block is its first has one pointer. -/
theorem ptr_single {d : Dinode} {b : Nat} (h : d.addrs = b :: List.replicate NDIRECT 0) (cur : Disk)
    (k : Nat) : d.ptr cur k = if k = 0 then b else 0 := by
  have hz : ∀ k, d.addrs.getD k 0 = if k = 0 then b else 0 := by
    intro k
    rw [h]
    cases k with
    | zero => rfl
    | succ k =>
      rw [List.getD_cons_succ, List.getD, List.getElem?_replicate]
      split <;> rfl
  unfold Dinode.ptr
  simp only [hz]
  have hn : NDIRECT ≠ 0 := by decide
  simp only [if_neg hn, ne_eq, not_true_eq_false, false_and, if_false]
  split
  · rfl
  · rename_i hk
    rw [if_neg (by omega)]

theorem fileImage_ptrs (o : Nat × Nat) : ptrs (dinodes mkfsSb fileImage) fileImage o =
    if o = (ROOTINO, 0) then 46 else if o = (2, 0) then 47 else 0 := by
  obtain ⟨i, k⟩ := o
  by_cases ht : (dinodes mkfsSb fileImage i).type = 0
  · have h₁ : i ≠ ROOTINO := by
      rintro rfl
      rw [fileImage_root] at ht
      cases ht
    have h₂ : i ≠ 2 := by
      rintro rfl
      rw [fileImage_file] at ht
      cases ht
    rw [ptrs_free ht, if_neg (by simp [h₁]), if_neg (by simp [h₂])]
  · rw [ptrs_live ht]
    refine fileImage_cases (P := fun i d => d.ptr fileImage k =
      if (i, k) = (ROOTINO, 0) then 46 else if (i, k) = (2, 0) then 47 else 0) ht ?_ ?_
    · rw [ptr_single rfl]
      by_cases hk : k = 0
      · rw [if_pos hk, hk, if_pos rfl]
      · rw [if_neg hk, if_neg (by simp [hk]), if_neg (by simp [hk])]
    · rw [ptr_single rfl]
      by_cases hk : k = 0
      · rw [if_pos hk, hk]
        rfl
      · rw [if_neg hk, if_neg (by simp [hk]), if_neg (by simp [hk])]

theorem fileImage_entries (s : Nat) (hs : s < 64) : (rootDinode.dirent fileImage s).inum < mkfsSb.ninodes := by
  by_cases h : (rootDinode.dirent fileImage s).inum = 0
  · rw [h]
    decide
  · rcases rootDirent_used hs h with ⟨-, he⟩ | ⟨-, he⟩ | ⟨-, he⟩ <;> rw [he] <;> decide

theorem fileImage_wellFormed : WellFormed mkfsSb fileImage where
  super := ⟨rfl, rfl, rfl, by decide, by decide, by decide, by decide⟩
  reserved := fileImage_free (by decide) (by decide)
  range o h := by
    rw [fileImage_ptrs] at h ⊢
    split
    · decide
    · split
      · decide
      · rename_i h₁ h₂
        rw [if_neg h₁, if_neg h₂] at h
        exact absurd rfl h
  inj o o' h he := by
    rw [fileImage_ptrs, fileImage_ptrs] at he
    rw [fileImage_ptrs] at h
    split at h
    · rename_i h₁
      rw [if_pos h₁] at he
      split at he
      · rename_i h₂
        rw [h₁, h₂]
      · split at he <;> cases he
    · split at h
      · rename_i h₁ h₂
        rw [if_neg h₁, if_pos h₂] at he
        split at he
        · cases he
        · split at he
          · rename_i h₃
            rw [h₂, h₃]
          · cases he
      · exact absurd rfl h
  bitmap b hb := by
    unfold used
    rw [fileImage_bits b hb, decide_eq_false_iff_not]
    constructor
    · intro hlt
      by_cases h₁ : b < 46
      · exact .inl h₁
      · by_cases h₂ : b = 46
        · exact .inr ⟨(ROOTINO, 0), by rw [fileImage_ptrs, if_pos rfl, h₂]⟩
        · refine .inr ⟨(2, 0), ?_⟩
          rw [fileImage_ptrs, if_neg (by decide), if_pos rfl]
          omega
    · rintro (h | ⟨o, ho⟩)
      · have : mkfsSb.nmeta = 46 := by decide
        omega
      · rw [fileImage_ptrs] at ho
        split at ho
        · omega
        · split at ho <;> omega
  fits i ht := fileImage_cases (P := fun _ d => d.size ≤ MAXFILE * BSIZE) ht (by decide) (by decide)
  full i bn ht := by
    refine fileImage_cases (P := fun _ d => bn * BSIZE < d.size → d.block fileImage bn ≠ 0) ht ?_ ?_
    · intro hbn
      have : bn = 0 := by
        change bn * 1024 < 1024 at hbn
        omega
      rw [this, Dinode.block, ptr_single rfl]
      decide
    · intro hbn
      have : bn = 0 := by
        change bn * 1024 < 8 at hbn
        omega
      rw [this, Dinode.block, ptr_single rfl]
      decide
  linked i ht := fileImage_cases (P := fun _ d => d.nlink ≠ 0) ht (by decide) (by decide)
  root := by rw [fileImage_root]; rfl
  dirs i hd := by
    rw [nodes, node_type] at hd
    have ht : (dinodes mkfsSb fileImage i).type ≠ 0 := by rw [hd]; decide
    have hroot : rootDinode.type = T_DIR → (rootDinode.node fileImage).size % 16 = 0 ∧
        ∀ s, ((rootDinode.node fileImage).entry s).inum < mkfsSb.ninodes := by
      intro _
      rw [node_live (by decide)]
      refine ⟨by decide, fun s => ?_⟩
      dsimp only
      split
      · rename_i hs
        have : 16 * s < 1024 := hs.2
        exact fileImage_entries s (by omega)
      · decide
    exact fileImage_cases (P := fun _ d => d.type = T_DIR → (d.node fileImage).size % 16 = 0 ∧
      ∀ s, ((d.node fileImage).entry s).inum < mkfsSb.ninodes) ht hroot
      (fun hd => absurd hd (by decide)) hd

/- Its directory. -/

theorem fileImage_root_node : nodes mkfsSb fileImage ROOTINO = rootDinode.node fileImage := by
  rw [nodes, fileImage_root]

theorem rootEntry (s : Nat) : ((nodes mkfsSb fileImage ROOTINO).entry s) =
    if s < 64 then rootDinode.dirent fileImage s else .empty := by
  rw [fileImage_root_node, node_live (by decide)]
  dsimp only
  by_cases hs : s < 64
  · rw [if_pos hs, if_pos ⟨rfl, show 16 * s < 1024 by omega⟩]
  · rw [if_neg hs, if_neg (fun h => hs (by have : 16 * s < 1024 := h.2; omega))]

theorem rootEntry_used {s : Nat} (h : ((nodes mkfsSb fileImage ROOTINO).entry s).inum ≠ 0) :
    s = 0 ∧ (nodes mkfsSb fileImage ROOTINO).entry s = ⟨ROOTINO, strncpy dot⟩ ∨
    s = 1 ∧ (nodes mkfsSb fileImage ROOTINO).entry s = ⟨ROOTINO, strncpy dotdot⟩ ∨
    s = 2 ∧ (nodes mkfsSb fileImage ROOTINO).entry s = ⟨2, strncpy [102]⟩ := by
  rw [rootEntry] at h ⊢
  split at h
  · rename_i hs
    rw [if_pos hs]
    exact rootDirent_used hs h
  · exact absurd rfl h

theorem fileImage_file_node : nodes mkfsSb fileImage 2 = fileDinode.node fileImage := by
  rw [nodes, fileImage_file]

theorem fileImage_node {i : Nat} (h₁ : i ≠ ROOTINO) (h₂ : i ≠ 2) :
    nodes mkfsSb fileImage i = .free := node_free (fileImage_free h₁ h₂) _

theorem fileImage_file_type : (nodes mkfsSb fileImage 2).type = T_FILE := by
  rw [fileImage_file_node]
  rfl

theorem fileImage_dir {i : Nat} (h : (nodes mkfsSb fileImage i).type = T_DIR) : i = ROOTINO := by
  by_contra h₁
  by_cases h₂ : i = 2
  · rw [h₂, fileImage_file_type] at h
    exact absurd h (by decide)
  · rw [fileImage_node h₁ h₂] at h
    exact absurd h (by decide)

theorem fileImage_nlink (i : Nat) :
    (nodes mkfsSb fileImage i).nlink = if i = ROOTINO ∨ i = 2 then 1 else 0 := by
  by_cases h₁ : i = ROOTINO
  · rw [h₁, fileImage_root_node]
    rfl
  · by_cases h₂ : i = 2
    · rw [h₂, fileImage_file_node]
      rfl
    · rw [fileImage_node h₁ h₂, if_neg (by simp [h₁, h₂])]
      rfl

theorem fileImage_entry {d s k : Nat} :
    Entry (nodes mkfsSb fileImage) d s k ↔ d = ROOTINO ∧ s = 2 ∧ k = 2 := by
  constructor
  · intro h
    have hd := fileImage_dir h.dir
    have hne : ((nodes mkfsSb fileImage ROOTINO).entry s).inum ≠ 0 := by
      rw [← hd, h.inum]
      exact h.pos
    have hs := h.slot
    rcases rootEntry_used hne with ⟨h₀, -⟩ | ⟨h₁, -⟩ | ⟨h₂, he⟩
    · omega
    · omega
    · refine ⟨hd, h₂, ?_⟩
      rw [← h.inum, hd, he]
  · rintro ⟨rfl, rfl, rfl⟩
    refine ⟨by rw [fileImage_root_node]; rfl, Nat.le_refl 2, ?_, by decide⟩
    rw [rootEntry, if_pos (by decide), fileImage_read.2.2.2.2.1]

theorem fileImage_weight (k : Nat) :
    weight (nodes mkfsSb fileImage) k = if k = ROOTINO ∨ k = 2 then 1 else 0 := by
  have hsub : subdirs (nodes mkfsSb fileImage) k = ∅ := by
    refine Set.eq_empty_of_forall_notMem ?_
    rintro s ⟨j, he, hd⟩
    rw [(fileImage_entry.mp he).2.2, fileImage_file_type] at hd
    exact absurd hd (by decide)
  have hnames : names (nodes mkfsSb fileImage) k = if k = 2 then {(ROOTINO, 2)} else ∅ := by
    ext ⟨d, s⟩
    change Entry _ d s k ↔ _
    rw [fileImage_entry]
    split
    · rename_i hk
      simp [hk]
    · rename_i hk
      simp [hk]
  rw [weight, hsub, hnames, Set.ncard_empty]
  by_cases h₁ : k = ROOTINO
  · simp [h₁]
  · by_cases h₂ : k = 2
    · simp [h₂]
    · simp [h₁, h₂]

theorem fileImage_dots : Dots (nodes mkfsSb fileImage ROOTINO) ROOTINO := by
  have hname : ∀ {s}, ((nodes mkfsSb fileImage ROOTINO).entry s).inum ≠ 0 →
      s = 0 ∧ ((nodes mkfsSb fileImage ROOTINO).entry s).name = strncpy dot ∨
      s = 1 ∧ ((nodes mkfsSb fileImage ROOTINO).entry s).name = strncpy dotdot ∨
      s = 2 ∧ ((nodes mkfsSb fileImage ROOTINO).entry s).name = strncpy [102] := by
    intro s hs
    rcases rootEntry_used hs with ⟨h, he⟩ | ⟨h, he⟩ | ⟨h, he⟩
    · exact .inl ⟨h, by rw [he]⟩
    · exact .inr (.inl ⟨h, by rw [he]⟩)
    · exact .inr (.inr ⟨h, by rw [he]⟩)
  have h₀ : (nodes mkfsSb fileImage ROOTINO).entry 0 = ⟨ROOTINO, strncpy dot⟩ := by
    rw [rootEntry, if_pos (by decide), fileImage_read.2.2.1]
  have h₁ : (nodes mkfsSb fileImage ROOTINO).entry 1 = ⟨ROOTINO, strncpy dotdot⟩ := by
    rw [rootEntry, if_pos (by decide), fileImage_read.2.2.2.1]
  refine ⟨fun s hs => ?_, by rw [h₀], by rw [h₀]; decide, by rw [h₁]; decide, by rw [h₁]; decide,
    fun s s' hs hs' he => ?_, fun s hs => ?_⟩
  · have hsize : (nodes mkfsSb fileImage ROOTINO).size = 1024 := by
      rw [fileImage_root_node]
      rfl
    rw [hsize]
    rcases hname hs with ⟨rfl, -⟩ | ⟨rfl, -⟩ | ⟨rfl, -⟩ <;> decide
  · rcases hname hs with ⟨rfl, hn⟩ | ⟨rfl, hn⟩ | ⟨rfl, hn⟩ <;>
      rcases hname hs' with ⟨rfl, hn'⟩ | ⟨rfl, hn'⟩ | ⟨rfl, hn'⟩ <;>
      first
        | rfl
        | (rw [hn, hn'] at he; exact absurd he (by decide))
  · rcases hname hs with ⟨-, hn⟩ | ⟨-, hn⟩ | ⟨-, hn⟩ <;> rw [hn] <;> decide

theorem fileImage_hierarchy : Hierarchy (nodes mkfsSb fileImage) where
  zero := by
    rw [fileImage_node (by decide) (by decide)]
    rfl
  root := by
    rw [fileImage_root_node]
    rfl
  top := by
    rw [rootEntry, if_pos (by decide), fileImage_read.2.2.2.1]
  dots i hi := by
    rw [fileImage_dir hi]
    exact fileImage_dots
  live d s k h := by
    rw [(fileImage_entry.mp h).2.2, fileImage_file_type]
    decide
  parent d s k h hd := by
    rw [(fileImage_entry.mp h).2.2, fileImage_file_type] at hd
    exact absurd hd (by decide)
  single d s s' k h h' _ := (fileImage_entry.mp h).2.1.trans (fileImage_entry.mp h').2.1.symm
  finite k := by
    constructor
    · refine (Set.finite_singleton (ROOTINO, 2)).subset ?_
      rintro ⟨d, s⟩ ho
      obtain ⟨h₁, h₂, -⟩ := fileImage_entry.mp ho
      exact Prod.ext h₁ h₂
    · refine (Set.finite_singleton 2).subset ?_
      rintro s ⟨j, he, -⟩
      exact (fileImage_entry.mp he).2.1
  short k := by
    rw [fileImage_nlink]
    split <;> decide
  count k := by
    rw [fileImage_nlink, fileImage_weight]
    split <;> decide
  exact k := by
    rw [fileImage_nlink, fileImage_weight]
    split <;> rfl
  reach d s k h := by
    rw [(fileImage_entry.mp h).1]

end Xv6
