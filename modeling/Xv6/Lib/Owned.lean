import Xv6.Lib.Table

/-- Units numbered below `hi`, of which those from `lo` on are handed out. Every owner
has one pointer, 0 for none. A unit is in use if and only if it is below `lo`, has
exactly one owner, or is `loose`: taken but not yet owned, or given up but not yet
released. -/
structure Owned {ι : Type} (lo hi : Nat) (ptr : ι → Nat) (loose : List Nat) (used : Nat → Prop) :
    Prop where
  pos : 0 < lo
  range : ∀ o, ptr o ≠ 0 → lo ≤ ptr o ∧ ptr o < hi
  inj : ∀ o o', ptr o ≠ 0 → ptr o = ptr o' → o = o'
  nodup : loose.Nodup
  apart : ∀ b ∈ loose, lo ≤ b ∧ b < hi ∧ ∀ o, ptr o ≠ b
  exact : ∀ b < hi, used b ↔ b < lo ∨ (∃ o, ptr o = b) ∨ b ∈ loose

namespace Owned
variable {ι : Type} {lo hi b : Nat} {ptr ptr' : ι → Nat} {loose : List Nat} {used used' : Nat → Prop}

/-- Only the use of units below `hi` matters. -/
theorem congr (h : Owned lo hi ptr loose used) (hp : ∀ o, ptr' o = ptr o)
    (hu : ∀ b < hi, used' b ↔ used b) : Owned lo hi ptr' loose used' := by
  have hpp : ptr' = ptr := funext hp
  subst hpp
  exact ⟨h.pos, h.range, h.inj, h.nodup, h.apart, fun b hb => (hu b hb).trans (h.exact b hb)⟩

/-- A free unit is taken. -/
theorem take (h : Owned lo hi ptr loose used) (hb : b < hi) (hf : ¬ used b)
    (hu : ∀ x < hi, used' x ↔ x = b ∨ used x) : Owned lo hi ptr (b :: loose) used' := by
  have hnot := fun hx => hf ((h.exact b hb).mpr hx)
  refine ⟨h.pos, h.range, h.inj, ?_, ?_, ?_⟩
  · exact List.nodup_cons.mpr ⟨fun hl => hnot (.inr (.inr hl)), h.nodup⟩
  · intro x hx
    cases hx with
    | head => exact ⟨Nat.le_of_not_lt (fun hl => hnot (.inl hl)), hb,
        fun o ho => hnot (.inr (.inl ⟨o, ho⟩))⟩
    | tail _ hx => exact h.apart x hx
  · intro x hx
    rw [hu x hx, h.exact x hx, List.mem_cons]
    constructor
    · rintro (hx | hx | hx | hx)
      · exact .inr (.inr (.inl hx))
      · exact .inl hx
      · exact .inr (.inl hx)
      · exact .inr (.inr (.inr hx))
    · rintro (hx | hx | hx | hx)
      · exact .inr (.inl hx)
      · exact .inr (.inr (.inl hx))
      · exact .inl hx
      · exact .inr (.inr (.inr hx))

/-- A loose unit gets an owner. -/
theorem give (h : Owned lo hi ptr (b :: loose) used) {o : ι} (ho : ptr o = 0) (hb : ptr' o = b)
    (hp : ∀ o', o' ≠ o → ptr' o' = ptr o') : Owned lo hi ptr' loose used := by
  obtain ⟨hlo, hhi, hfree⟩ := h.apart b List.mem_cons_self
  obtain ⟨hnew, hnd⟩ := List.nodup_cons.mp h.nodup
  refine ⟨h.pos, ?_, ?_, hnd, ?_, ?_⟩
  · intro x hx
    by_cases he : x = o
    · rw [he, hb]
      exact ⟨hlo, hhi⟩
    · rw [hp x he] at hx ⊢
      exact h.range x hx
  · intro x y hx hxy
    by_cases hxo : x = o
    · by_cases hyo : y = o
      · rw [hxo, hyo]
      · rw [hxo, hb, hp y hyo] at hxy
        exact absurd hxy.symm (hfree y)
    · by_cases hyo : y = o
      · rw [hyo, hb, hp x hxo] at hxy
        exact absurd hxy (hfree x)
      · rw [hp x hxo] at hx hxy
        rw [hp y hyo] at hxy
        exact h.inj x y hx hxy
  · intro x hx
    obtain ⟨h₁, h₂, h₃⟩ := h.apart x (List.mem_cons_of_mem _ hx)
    refine ⟨h₁, h₂, fun y hy => ?_⟩
    by_cases he : y = o
    · rw [he, hb] at hy
      exact hnew (hy ▸ hx)
    · exact h₃ y ((hp y he).symm.trans hy)
  · intro x hx
    rw [h.exact x hx, List.mem_cons]
    constructor
    · rintro (hl | ⟨y, hy⟩ | hl | hl)
      · exact .inl hl
      · by_cases he : y = o
        · rw [he, ho] at hy
          exact .inl (hy ▸ h.pos)
        · exact .inr (.inl ⟨y, (hp y he).trans hy⟩)
      · exact .inr (.inl ⟨o, hb.trans hl.symm⟩)
      · exact .inr (.inr hl)
    · rintro (hl | ⟨y, hy⟩ | hl)
      · exact .inl hl
      · by_cases he : y = o
        · rw [he, hb] at hy
          exact .inr (.inr (.inl hy.symm))
        · exact .inr (.inl ⟨y, (hp y he).symm.trans hy⟩)
      · exact .inr (.inr (.inr hl))

/-- Owners lose their units, which become loose. -/
theorem drop (h : Owned lo hi ptr loose used) (ptr' : ι → Nat) (os : List ι) (hnd : os.Nodup)
    (hos : ∀ o, o ∈ os ↔ ptr o ≠ 0 ∧ ptr' o = 0) (hp : ∀ o, o ∉ os → ptr' o = ptr o) :
    Owned lo hi ptr' (os.map ptr ++ loose) used := by
  have hkeep : ∀ o, ptr' o ≠ 0 → ptr' o = ptr o :=
    fun o ho => hp o (fun hx => ho ((hos o).mp hx).2)
  have hgone : ∀ x ∈ os, ∀ o, ptr' o ≠ ptr x := by
    intro x hx o he
    obtain ⟨hx₀, hx'⟩ := (hos x).mp hx
    have hne : ptr' o ≠ 0 := by rw [he]; exact hx₀
    have := h.inj x o hx₀ (he.symm.trans (hkeep o hne))
    exact hne (this ▸ hx')
  refine ⟨h.pos, ?_, ?_, ?_, ?_, ?_⟩
  · intro o ho
    have ho₀ : ptr o ≠ 0 := by rw [← hkeep o ho]; exact ho
    rw [hkeep o ho]
    exact h.range o ho₀
  · intro o o' ho he
    rw [hkeep o ho] at he
    have ho₀ : ptr o ≠ 0 := by rw [← hkeep o ho]; exact ho
    exact h.inj o o' ho₀ (he.trans (hkeep o' (by rw [← he]; exact ho₀)))
  · refine List.nodup_append.mpr ⟨?_, h.nodup, ?_⟩
    · refine List.pairwise_map.mpr (hnd.imp_of_mem ?_)
      intro x y hx _ hne he
      exact hne (h.inj x y ((hos x).mp hx).1 he)
    · intro x hx y hy he
      obtain ⟨o, _, rfl⟩ := List.mem_map.mp hx
      exact (h.apart y hy).2.2 o he
  · intro x hx
    cases List.mem_append.mp hx with
    | inl hx =>
      obtain ⟨o, ho, rfl⟩ := List.mem_map.mp hx
      obtain ⟨h₁, h₂⟩ := h.range o ((hos o).mp ho).1
      exact ⟨h₁, h₂, hgone o ho⟩
    | inr hx =>
      obtain ⟨h₁, h₂, h₃⟩ := h.apart x hx
      refine ⟨h₁, h₂, fun o ho => ?_⟩
      have hpos := h.pos
      exact h₃ o ((hkeep o (by omega)).symm.trans ho)
  · intro x hx
    rw [h.exact x hx, List.mem_append]
    constructor
    · rintro (hl | ⟨o, ho⟩ | hl)
      · exact .inl hl
      · by_cases hm : o ∈ os
        · exact .inr (.inr (.inl (List.mem_map.mpr ⟨o, hm, ho⟩)))
        · exact .inr (.inl ⟨o, (hp o hm).trans ho⟩)
      · exact .inr (.inr (.inr hl))
    · rintro (hl | ⟨o, ho⟩ | hl | hl)
      · exact .inl hl
      · by_cases h0 : ptr' o = 0
        · exact .inl (by rw [← ho, h0]; exact h.pos)
        · exact .inr (.inl ⟨o, (hkeep o h0).symm.trans ho⟩)
      · obtain ⟨o, _, ho⟩ := List.mem_map.mp hl
        exact .inr (.inl ⟨o, ho⟩)
      · exact .inr (.inr hl)

/-- A loose unit is in use until it is released. -/
theorem loose_used (h : Owned lo hi ptr loose used) (hb : b ∈ loose) : used b :=
  (h.exact b (h.apart b hb).2.1).mpr (.inr (.inr hb))

theorem release (h : Owned lo hi ptr (b :: loose) used)
    (hu : ∀ x < hi, used' x ↔ x ≠ b ∧ used x) : Owned lo hi ptr loose used' := by
  obtain ⟨hlo, _, hfree⟩ := h.apart b List.mem_cons_self
  obtain ⟨hnew, hnd⟩ := List.nodup_cons.mp h.nodup
  refine ⟨h.pos, h.range, h.inj, hnd, fun x hx => h.apart x (List.mem_cons_of_mem _ hx), ?_⟩
  intro x hx
  rw [hu x hx, h.exact x hx, List.mem_cons]
  constructor
  · rintro ⟨hne, hl | hl | hl | hl⟩
    · exact .inl hl
    · exact .inr (.inl hl)
    · exact absurd hl hne
    · exact .inr (.inr hl)
  · rintro (hl | ⟨o, ho⟩ | hl)
    · exact ⟨by omega, .inl hl⟩
    · exact ⟨fun he => hfree o (ho.trans he), .inr (.inl ⟨o, ho⟩)⟩
    · exact ⟨fun he => hnew (he ▸ hl), .inr (.inr (.inr hl))⟩

end Owned
