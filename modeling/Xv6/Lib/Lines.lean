import Mathlib.Data.List.Induction

/- A list cut at a delimiter. -/

namespace Lines

variable {α : Type} [DecidableEq α]

/-- One more element: `s.1` are the pieces that are complete, `s.2` is the one that is not. -/
def step (d : α) (s : List (List α) × List α) (x : α) : List (List α) × List α :=
  if x = d then (s.1 ++ [s.2], []) else (s.1, s.2 ++ [x])

/-- The pieces that `d` ends, and what follows the last `d`. -/
def split (d : α) (xs : List α) : List (List α) × List α := xs.foldl (step d) ([], [])

/-- All pieces: what follows the last `d` is one unless it is empty. -/
def pieces (d : α) (xs : List α) : List (List α) := (split d xs).1 ++ if (split d xs).2 = [] then [] else [(split d xs).2]

variable {d x : α} {xs ys l r : List α} {ls : List (List α)}

theorem split_nil (d : α) : split d [] = ([], []) := rfl

theorem split_snoc (d : α) (xs : List α) (x : α) : split d (xs ++ [x]) = step d (split d xs) x := by
  rw [split, List.foldl_append]
  rfl

/-- Complete pieces stay. -/
theorem foldl_step (ls : List (List α)) (r xs : List α) :
    xs.foldl (step d) (ls, r) = (ls ++ (xs.foldl (step d) ([], r)).1, (xs.foldl (step d) ([], r)).2) := by
  induction xs using List.reverseRecOn with
  | nil => simp
  | append_singleton xs x ih =>
    simp only [List.foldl_append, List.foldl_cons, List.foldl_nil, ih, step]
    split
    · simp
    · rfl

/-- A piece without the delimiter. -/
theorem foldl_piece (r : List α) (h : d ∉ l) : l.foldl (step d) ([], r) = ([], r ++ l) := by
  induction l generalizing r with
  | nil => simp
  | cons x l ih =>
    rw [List.mem_cons, not_or] at h
    rw [List.foldl_cons, step, if_neg (Ne.symm h.1), ih _ h.2, List.append_assoc, List.singleton_append]

theorem split_piece (h : d ∉ l) : split d l = ([], l) := by
  rw [split, foldl_piece [] h, List.nil_append]

theorem split_cons (h : d ∉ l) (xs : List α) : split d (l ++ d :: xs) = (l :: (split d xs).1, (split d xs).2) := by
  rw [split, List.foldl_append, foldl_piece [] h, List.foldl_cons, step, if_pos rfl, foldl_step, ← split]
  rfl

theorem split_lines (h : ∀ l ∈ ls, d ∉ l) : split d (ls.map (· ++ [d])).flatten = (ls, []) := by
  induction ls with
  | nil => rfl
  | cons l ls ih =>
    rw [List.forall_mem_cons] at h
    rw [List.map_cons, List.flatten_cons, List.append_assoc, List.singleton_append, split_cons h.1, ih h.2]

/-- What follows the last delimiter has none. -/
theorem notMem_rest (d : α) (xs : List α) : d ∉ (split d xs).2 := by
  induction xs using List.reverseRecOn with
  | nil => exact List.not_mem_nil
  | append_singleton xs x ih =>
    rw [split_snoc, step]
    by_cases hx : x = d
    · rw [if_pos hx]
      exact List.not_mem_nil
    · rw [if_neg hx]
      simp [ih, Ne.symm hx]

theorem rest_suffix (d : α) (xs : List α) : (split d xs).2 <:+ xs := by
  induction xs using List.reverseRecOn with
  | nil => exact List.suffix_refl []
  | append_singleton xs x ih =>
    rw [split_snoc, step]
    split
    · exact List.nil_suffix
    · obtain ⟨pre, hpre⟩ := ih
      exact ⟨pre, by rw [← List.append_assoc, hpre]⟩

/-- Reading on from the unfinished piece. -/
theorem split_append (d : α) (xs ys : List α) : split d (xs ++ ys) =
    ((split d xs).1 ++ (split d ((split d xs).2 ++ ys)).1, (split d ((split d xs).2 ++ ys)).2) := by
  have hrest : split d ((split d xs).2 ++ ys) = ys.foldl (step d) ([], (split d xs).2) := by
    rw [split, List.foldl_append, foldl_piece [] (notMem_rest d xs), List.nil_append]
  rw [hrest, ← foldl_step, split, List.foldl_append]
  rfl

end Lines
