import Mathlib.Data.List.Basic

/- Arrays with checked accesses: an access outside the array gives `none`. -/

namespace Buffer

variable {α : Type}

def write (a : List α) (i : Nat) (x : α) : Option (List α) := if i < a.length then some (a.set i x) else none

/-- The `n` elements from `i` on. -/
def slice (a : List α) (i n : Nat) : Option (List α) := if i + n ≤ a.length then some ((a.drop i).take n) else none

/-- The elements `xs` in place of those from `i` on. -/
def blit (a : List α) (i : Nat) (xs : List α) : Option (List α) :=
  if i + xs.length ≤ a.length then some (a.take i ++ xs ++ a.drop (i + xs.length)) else none

variable {a b pre mid post xs : List α} {i : Nat} {x y : α}

theorem write_at (pre post : List α) (x y : α) : write (pre ++ x :: post) pre.length y = some (pre ++ y :: post) := by
  rw [write, if_pos (by simp)]
  simp

theorem slice_at (pre mid post : List α) : slice (pre ++ mid ++ post) pre.length mid.length = some mid := by
  rw [slice, if_pos (by simp)]
  simp

theorem blit_at (pre : List α) {old : List α} (post : List α) (h : old.length = xs.length) :
    blit (pre ++ old ++ post) pre.length xs = some (pre ++ xs ++ post) := by
  rw [blit, if_pos (by simp; omega), ← h]
  simp

theorem write_some (h : i < a.length) : write a i x = some (a.set i x) := if_pos h

end Buffer
