import Xv6.Proofs.Tree

namespace Xv6
variable {N N' : Nat → Node} {d s i k : Nat}

/- Link counts are exact while no directory without links gets an entry. -/

/-- A directory with links is below the root. -/
theorem Hierarchy.reach_linked (h : Hierarchy N) (hn : (N d).nlink ≠ 0) :
    Relation.ReflTransGen (Above N) ROOTINO d := by
  by_cases hr : d = ROOTINO
  · rw [hr]
  · have hw : 0 < (names N d).ncard ∨ 0 < (subdirs N d).ncard := by
      have := h.exact d
      rw [weight, if_neg hr] at this
      omega
    rcases hw with hw | hw
    · obtain ⟨o, ho⟩ := (Set.ncard_pos (h.finite d).1).mp hw
      exact (h.reach _ _ _ ho).tail ⟨o.2, ho⟩
    · obtain ⟨s, k, he, -⟩ := (Set.ncard_pos (h.finite d).2).mp hw
      exact h.reach _ _ _ he

theorem Hierarchy.grow (h : Hierarchy N) (ht : Tree N') (ha : Adds N N' d s i)
    (hn : (N d).nlink ≠ 0) : Hierarchy N' := by
  have hab : ∀ a b, Above N a b → Above N' a b :=
    fun a b ⟨s', he⟩ => ⟨s', (ha.entry _ _ _).mpr (.inl he)⟩
  refine ⟨ht, fun k => (ha.count_iff (h.finite k)).2.mpr (h.exact k), fun d' s' k he => ?_⟩
  rcases (ha.entry _ _ _).mp he with he | ⟨rfl, -, -⟩
  · exact Relation.ReflTransGen.mono hab _ _ (h.reach _ _ _ he)
  · exact Relation.ReflTransGen.mono hab _ _ (h.reach_linked hn)

/-- The name of a file without entries is removed. -/
theorem Hierarchy.shrink (h : Hierarchy N) (ht : Tree N') (ha : Adds N' N d s i)
    (hleaf : ∀ s k, ¬ Entry N i s k) : Hierarchy N' := by
  have hpath : ∀ k, k ≠ i → Relation.ReflTransGen (Above N) ROOTINO k →
      Relation.ReflTransGen (Above N') ROOTINO k := by
    intro k hk hr
    induction hr with
    | refl => exact .refl
    | @tail b c _ hs ih =>
      obtain ⟨s', he⟩ := hs
      -- the path does not lead through file i
      have hb : b ≠ i := fun hb => hleaf s' c (hb ▸ he)
      rcases (ha.entry _ _ _).mp he with he | ⟨-, -, rfl⟩
      · exact (ih hb).tail ⟨s', he⟩
      · exact absurd rfl hk
  refine ⟨ht, fun k => (ha.count_iff (ht.finite k)).2.mp (h.exact k), fun d' s' k he => ?_⟩
  have he := (ha.entry _ _ _).mpr (.inl he)
  exact hpath d' (fun hd => hleaf s' k (hd ▸ he)) (h.reach _ _ _ he)

theorem Hierarchy.congr (h : Hierarchy N) (ht : Tree N')
    (he : ∀ d s k, Entry N' d s k ↔ Entry N d s k)
    (htype : ∀ d s k, Entry N d s k → (N' k).type = (N k).type)
    (hn : ∀ k, (N' k).nlink = (N k).nlink) : Hierarchy N' := by
  refine ⟨ht, fun k => by rw [hn, weight_congr he htype]; exact h.exact k, fun d s k hk => ?_⟩
  refine Relation.ReflTransGen.mono ?_ _ _ (h.reach d s k ((he _ _ _).mp hk))
  rintro a b ⟨s', hs'⟩
  exact ⟨s', (he _ _ _).mpr hs'⟩

/-- A file without links has no entries. -/
theorem Hierarchy.leaf (h : Hierarchy N) (hn : (N i).nlink = 0) (s k : Nat) : ¬ Entry N i s k := by
  intro he
  obtain ⟨hroot, hnone⟩ := h.unnamed hn
  rcases (h.reach i s k he).cases_tail with heq | ⟨b, -, s', hs'⟩
  · exact hroot heq
  · exact hnone b s' hs'

theorem Hierarchy.free (h : Hierarchy N) (hn : (N i).nlink = 0) : Hierarchy (setAt N i .free) := by
  refine h.congr (h.toTree.free hn) (fun d s k => ?_) (fun d s k he => ?_) (fun k => ?_)
  · rw [entry_free]
    exact ⟨fun he => he.1, fun he => ⟨he, fun hd => h.leaf hn s k (hd ▸ he)⟩⟩
  · rw [setAt_other]
    rintro rfl
    exact (h.unnamed hn).2 d s he
  · by_cases hk : k = i
    · rw [hk, setAt_same, hn]
      rfl
    · rw [setAt_other _ _ _ hk]

theorem Fades.hierarchy (hf : Fades N N') (h : Hierarchy N) : Hierarchy N' := by
  cases hf with
  | free _ hn => exact h.free hn
  | write _ hd size data =>
    have hs := sameTree_write (N := N) size data hd
    exact h.congr (hs.tree h.toTree) hs.entry (fun _ _ k _ => hs.type k) hs.nlink

theorem Effect.hierarchy (he : Effect N N') (h : Hierarchy N)
    (hfree : ∀ i, (N i).type = 0 → N i = .free) (hn : ∀ k, 0 ≤ (N' k).nlink)
    (hi : ¬ Intrudes N N') : Hierarchy N' := by
  obtain ⟨N₁, h₁, hf, hstay⟩ := he
  have hn₁ : ∀ k, 0 ≤ (N₁ k).nlink := fun k => by rw [← fades_nlink hf k]; exact hn k
  -- an entry goes to a directory with links
  have hent : ∀ {d s i}, (N d).type = T_DIR → ((N d).entry s).inum = 0 →
      Adds N N₁ d s i → (N d).nlink ≠ 0 := by
    intro d s i hd hz ha hn
    have he := (ha.entry d s i).mpr (.inr ⟨rfl, rfl, rfl⟩)
    have hne : ((N₁ d).entry s).inum ≠ 0 := by rw [he.inum]; exact he.pos
    exact hi ⟨d, s, hd, hn, hz, by rw [hstay d s hd hn hz hne]; exact hne⟩
  have hh₁ : Hierarchy N₁ := by
    rcases h₁ with rfl | h₁
    · exact h
    · have ht := h₁.tree h.toTree hfree hn₁
      cases h₁ with
      | link hl =>
        have ha := hl.adds h.toTree (hn₁ _)
        exact h.grow ht ha (hent hl.enters.dir hl.enters.empty ha)
      | make major minor hm =>
        have ha := hm.adds major minor h.toTree (hfree _ hm.free) (hn₁ _)
        exact h.grow ht ha (hent hm.enters.dir hm.enters.empty ha)
      | unlink hu => exact h.shrink ht (hu.adds h.toTree) (not_entry hu.vacant)
  clear h₁ hn hn₁ hi hstay hent
  induction hf with
  | refl => exact hh₁
  | tail _ hs ih => exact hs.hierarchy ih

end Xv6
