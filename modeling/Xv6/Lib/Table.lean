/-- A table with one entry changed. -/
def setAt {α : Type u} {β : Type v} [DecidableEq α] (f : α → β) (i : α) (b : β) : α → β :=
  fun j => if j = i then b else f j

section
variable {α : Type u} {β : Type v} [DecidableEq α]

@[simp] theorem setAt_same (f : α → β) (i : α) (b : β) : setAt f i b i = b := if_pos rfl

theorem setAt_other (f : α → β) (i : α) (b : β) {j : α} (h : j ≠ i) : setAt f i b j = f j :=
  if_neg h

theorem setAt_apply (f : α → β) (i j : α) (b : β) :
    setAt f i b j = if j = i then b else f j := rfl

@[simp] theorem setAt_setAt (f : α → β) (i : α) (b c : β) :
    setAt (setAt f i b) i c = setAt f i c := by
  funext j
  simp only [setAt]
  split <;> rfl

theorem setAt_comm (f : α → β) {i j : α} (h : i ≠ j) (b c : β) :
    setAt (setAt f i b) j c = setAt (setAt f j c) i b := by
  funext k
  simp only [setAt]
  split
  · rename_i hk
    rw [if_neg (fun he => h (he.symm.trans hk))]
  · rfl

/- Two entries changed. -/

theorem setAt_fst (f : α → β) {i j : α} (h : i ≠ j) (b c : β) : setAt (setAt f i b) j c i = b := by
  rw [setAt_other _ _ _ h, setAt_same]

theorem setAt_rest (f : α → β) {i j k : α} (hi : k ≠ i) (hj : k ≠ j) (b c : β) :
    setAt (setAt f i b) j c k = f k := by
  rw [setAt_other _ _ _ hj, setAt_other _ _ _ hi]

@[simp] theorem setAt_self (f : α → β) (i : α) : setAt f i (f i) = f := by
  funext j
  simp only [setAt]
  split
  · rename_i h; rw [h]
  · rfl

end

/-- The first of the `n` numbers from `start` on that satisfies `p`. -/
def firstFrom (p : Nat → Bool) : Nat → Nat → Option Nat
  | 0, _ => none
  | n + 1, start => if p start then some start else firstFrom p n (start + 1)

theorem firstFrom_some {p : Nat → Bool} {n start i : Nat} (h : firstFrom p n start = some i) :
    start ≤ i ∧ i < start + n ∧ p i = true ∧ ∀ j, start ≤ j → j < i → p j = false := by
  induction n generalizing start with
  | zero => cases h
  | succ n ih =>
    rw [firstFrom] at h
    split at h
    · rename_i hp
      cases h
      exact ⟨Nat.le_refl _, by omega, hp, fun j h₁ h₂ => by omega⟩
    · rename_i hp
      obtain ⟨h₁, h₂, h₃, h₄⟩ := ih h
      refine ⟨by omega, by omega, h₃, fun j hj hi => ?_⟩
      by_cases he : j = start
      · rw [he]; simpa using hp
      · exact h₄ j (by omega) hi

theorem firstFrom_none {p : Nat → Bool} {n start : Nat} (h : firstFrom p n start = none) (j : Nat)
    (h₁ : start ≤ j) (h₂ : j < start + n) : p j = false := by
  induction n generalizing start with
  | zero => omega
  | succ n ih =>
    rw [firstFrom] at h
    split at h
    · cases h
    · rename_i hp
      by_cases he : j = start
      · rw [he]; simpa using hp
      · exact ih h (by omega) (by omega)

theorem firstFrom_succ {p : Nat → Bool} {n start : Nat} (h : p (start + n) = false) :
    firstFrom p (n + 1) start = firstFrom p n start := by
  induction n generalizing start with
  | zero => simp [firstFrom, show p start = false from h]
  | succ n ih =>
    rw [firstFrom, ih (by rwa [Nat.succ_add_eq_add_succ]), ← firstFrom]

/-- How many rows of a table satisfy `p`. -/
def countRows {n : Nat} (p : Fin n → Bool) : Nat := (List.finRange n).countP p

section
variable {n : Nat} {p q : Fin n → Bool}

theorem countRows_pos : 0 < countRows p ↔ ∃ i, p i = true := by
  simp [countRows, List.countP_pos_iff]

theorem countP_update {α : Type} {p q : α → Bool} {l : List α} {i : α} (hl : l.Nodup) (hi : i ∈ l)
    (h : ∀ j, j ≠ i → q j = p j) :
    l.countP q + (p i).toNat = l.countP p + (q i).toNat := by
  induction l with
  | nil => cases hi
  | cons a l ih =>
    obtain ⟨ha, hl⟩ := List.nodup_cons.mp hl
    simp only [List.countP_cons]
    cases List.mem_cons.mp hi with
    | inl he =>
      have hrest : l.countP q = l.countP p :=
        List.countP_congr (fun x hx => by rw [h x (fun hxi => ha (he ▸ hxi ▸ hx))])
      rw [hrest, ← he]
      cases p i <;> cases q i <;> simp
    | inr hi =>
      have := ih hl hi
      rw [h a (fun hai => ha (hai ▸ hi))]
      omega

/-- The count after a change of one row. -/
theorem countRows_update {i : Fin n} (h : ∀ j, j ≠ i → q j = p j) :
    countRows q + (p i).toNat = countRows p + (q i).toNat :=
  countP_update (List.nodup_finRange n) (List.mem_finRange i) h

end
