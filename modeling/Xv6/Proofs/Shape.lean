import Xv6.Proofs.Dangling

namespace Xv6
variable {sb : Superblock} {disk : Disk} {N N' : Nat → Node} {fs fs' : Fs} {d s i j k : Nat}

/-- Slot `s` of directory `d` names `k`, under another name than . and .. -/
structure NonDot (N : Nat → Node) (d s k : Nat) : Prop where
  dir : (N d).type = T_DIR
  inum : ((N d).entry s).inum = k
  pos : k ≠ 0
  dot : namecmp dot ((N d).entry s).name = false
  dotdot : namecmp dotdot ((N d).entry s).name = false

/-- The file is reached from the root. -/
def Below (N : Nat → Node) : Nat → Prop := Relation.ReflTransGen (fun d k => ∃ s, NonDot N d s k) ROOTINO

/-- Directory `d` has an entry for directory `k`. -/
def Over (N : Nat → Node) (d k : Nat) : Prop := (∃ s, NonDot N d s k) ∧ (N k).type = T_DIR

/-- The directories below the root are a tree. -/
structure TreeShaped (N : Nat → Node) : Prop where
  dots : ∀ d, Below N d → (N d).type = T_DIR → ((N d).entry 0).inum = d ∧
    namecmp dot ((N d).entry 0).name = true ∧ namecmp dotdot ((N d).entry 1).name = true
  root : ((N ROOTINO).entry 1).inum = ROOTINO
  parent : ∀ k, Below N k → (N k).type = T_DIR → k ≠ ROOTINO →
    ∃ s, ∀ d' s', NonDot N d' s' k ↔ d' = ((N k).entry 1).inum ∧ s' = s
  single : ∀ k d s d' s', (N k).type = T_DIR → NonDot N d s k → NonDot N d' s' k → d = d' ∧ s = s'
  acyclic : ∀ d, Below N d → ¬ Relation.TransGen (Over N) d d

namespace Tree
variable (h : Tree N)
include h

theorem nonDot_iff : NonDot N d s k ↔ Entry N d s k := by
  constructor
  · intro he
    have hn := h.slot_of_name he.dir (by rw [he.inum]; exact he.pos)
    have h₀ : s ≠ 0 := fun hs => absurd (hn.1.mpr hs) (by rw [he.dot]; decide)
    have h₁ : s ≠ 1 := fun hs => absurd (hn.2.mpr hs) (by rw [he.dotdot]; decide)
    exact ⟨he.dir, by omega, he.inum, he.pos⟩
  · intro he
    have hn := h.slot_of_name he.dir (by rw [he.inum]; exact he.pos)
    have hs := he.slot
    exact ⟨he.dir, he.inum, he.pos,
      Bool.eq_false_iff.mpr (fun hc => by have := hn.1.mp hc; omega),
      Bool.eq_false_iff.mpr (fun hc => by have := hn.2.mp hc; omega)⟩

theorem nonDot_single (hd : (N k).type = T_DIR) {d' s' : Nat} (he : NonDot N d s k)
    (he' : NonDot N d' s' k) : d = d' ∧ s = s' := by
  have he := h.nonDot_iff.mp he
  have he' := h.nonDot_iff.mp he'
  have hdd : d = d' := (h.parent d s k he hd).2.symm.trans (h.parent d' s' k he' hd).2
  exact ⟨hdd, h.single d s s' k he (hdd ▸ he') hd⟩

/-- Going up from a directory below the root ends at the root, so it does not come back. -/
theorem not_cyclic (hb : Below N d) : ¬ Relation.TransGen (Over N) d d := by
  induction hb with
  | refl =>
    intro hc
    obtain ⟨b, -, ⟨s, he⟩, hd⟩ := Relation.TransGen.tail'_iff.mp hc
    exact (h.parent b s _ (h.nonDot_iff.mp he) hd).1 rfl
  | @tail b c hb hs ih =>
    intro hc
    obtain ⟨s, he⟩ := hs
    obtain ⟨b', hcb, ⟨s', he'⟩, hd⟩ := Relation.TransGen.tail'_iff.mp hc
    obtain ⟨rfl, -⟩ := h.nonDot_single hd he he'
    exact ih (Relation.TransGen.head' ⟨⟨s, he⟩, hd⟩ hcb)

theorem shaped : TreeShaped N where
  dots d _ hd := ⟨(h.dots d hd).self, (h.dots d hd).dot, (h.dots d hd).dotdot⟩
  root := h.top
  parent k hb hd hr := by
    rcases Relation.ReflTransGen.cases_tail hb with he | ⟨b, -, s, he⟩
    · exact absurd he hr
    · have hup := (h.parent b s k (h.nonDot_iff.mp he) hd).2
      refine ⟨s, fun d' s' => ⟨fun he' => ?_, ?_⟩⟩
      · obtain ⟨rfl, rfl⟩ := h.nonDot_single hd he he'
        exact ⟨hup.symm, rfl⟩
      · rintro ⟨rfl, rfl⟩
        rw [hup]
        exact he
  single k d s d' s' hd he he' := h.nonDot_single hd he he'
  acyclic d hb := h.not_cyclic hb

end Tree

/- Removing directories. -/

/-- A directory that has a name keeps it when files are freed or written. -/
theorem Fades.keeps (hf : Fades N N') (ht : Tree N) (he : Entry N d s k) (hd : (N k).type = T_DIR) :
    Entry N' d s k ∧ (N' k).type = T_DIR := by
  cases hf with
  | @free i _ hn =>
    have hk : k ≠ i := fun hk => (ht.unnamed hn).2 d s (hk ▸ he)
    have hdi : d ≠ i := by
      rintro rfl
      have := ht.nlink_pos he hd
      omega
    exact ⟨(entry_free d s k).mpr ⟨he, hdi⟩, by rw [setAt_other _ _ _ hk]; exact hd⟩
  | write _ hn size data =>
    have hs := sameTree_write (N := N) size data hn
    exact ⟨(hs.entry _ _ _).mpr he, (hs.type k).trans hd⟩

theorem fades_keeps (hf : Relation.ReflTransGen Fades N N') (ht : Tree N) (he : Entry N d s k)
    (hd : (N k).type = T_DIR) : Entry N' d s k := by
  have key : Tree N' ∧ Entry N' d s k ∧ (N' k).type = T_DIR := by
    induction hf with
    | refl => exact ⟨ht, he, hd⟩
    | tail _ hs ih => exact ⟨hs.tree ih.1, hs.keeps ih.1 ih.2.1 ih.2.2⟩
  exact key.2.1

/-- Only an empty directory loses its name. -/
theorem Effect.vacant (hf : Effect N N') (ht : Tree N) (hfree : ∀ i, (N i).type = 0 → N i = .free)
    (hn : Countable N') (he : Entry N d s k) (hd : (N k).type = T_DIR) (hgone : ¬ Entry N' d s k) :
    ∀ s', 2 ≤ s' → ((N k).entry s').inum = 0 := by
  obtain ⟨N₁, h₁, hf, -⟩ := hf
  have hn₁ : ∀ k, 0 ≤ (N₁ k).nlink := fun k => by rw [← fades_nlink hf k]; exact hn k
  rcases h₁ with rfl | h₁
  · exact absurd (fades_keeps hf ht he hd) hgone
  · have ht₁ := h₁.tree ht hfree hn₁
    have hadd : ∀ {d₀ s₀ i}, Adds N N₁ d₀ s₀ i → False := fun ha =>
      hgone (fades_keeps hf ht₁ ((ha.entry _ _ _).mpr (.inl he)) ((ha.type _ _ _ he).trans hd))
    cases h₁ with
    | link hl => exact (hadd (hl.adds ht (hn₁ _))).elim
    | make major minor hm => exact (hadd (hm.adds major minor ht (hfree _ hm.free) (hn₁ _))).elim
    | unlink hu =>
      have ha := hu.adds ht
      rcases (ha.entry d s k).mp he with he₁ | ⟨-, -, rfl⟩
      · exact absurd (fades_keeps hf ht₁ he₁ ((ha.type _ _ _ he₁).symm.trans hd)) hgone
      · exact hu.vacant hd

/-- A file that is open for writing is no directory. -/
theorem Healthy.writable (h : Healthy sb fs) {f : FilePtr}
    (ht : (fs.mem.file f).type = .inode ∨ (fs.mem.file f).type = .device)
    (hw : (fs.mem.file f).writable = true) :
    (fs.node (fs.mem.inode (fs.mem.file f).ip).inum).type ≠ T_DIR := by
  obtain ⟨t, hi, hin⟩ := h
  have hfile := (hin 0).file
  obtain ⟨ino, hm⟩ := hin 0
  rw [hfile] at ht hw ⊢
  have ho : (t.file f).opens (t.file f).ip = true := decide_eq_true ⟨ht, rfl⟩
  have hheld : 0 < t.held (t.file f).ip := held_pos.mpr (.inl ⟨f, ho⟩)
  rw [hm.mem.inum_eq (.inr (.inr ⟨hheld, rfl⟩)), hm.type_eq]
  exact hm.mem.writable f _ ho hw

end Xv6
