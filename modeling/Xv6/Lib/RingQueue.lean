import Xv6.Lib.Table

/-- The slots of a ring of `n` entries from position `lo` on hold the queue `q`. Positions only
grow; position k is in slot k % n. -/
structure InRing {α : Type u} (n : Nat) (ring : Nat → α) (lo : Nat) (q : List α) : Prop where
  room : q.length ≤ n
  slot : ∀ j x, q[j]? = some x → ring ((lo + j) % n) = x

namespace InRing
variable {α : Type u} {n lo : Nat} {ring : Nat → α} {q : List α} {x : α}

theorem nil (n : Nat) (ring : Nat → α) (lo : Nat) : InRing n ring lo [] :=
  ⟨Nat.zero_le n, fun j x h => by simp at h⟩

/-- The slot after the last entry is none of theirs, unless the ring is full. -/
theorem write (h : InRing n ring lo q) (hlt : q.length < n) (x : α) :
    InRing n (setAt ring ((lo + q.length) % n) x) lo q := by
  refine ⟨h.room, fun j y hj => ?_⟩
  have hjl := (List.getElem?_eq_some_iff.mp hj).1
  have hne : (lo + j) % n ≠ (lo + q.length) % n := by
    intro he
    have hpos : 0 < n := Nat.lt_of_le_of_lt (Nat.zero_le _) hlt
    have h1 := Nat.div_add_mod (lo + j) n
    have h2 := Nat.div_add_mod (lo + q.length) n
    rw [he] at h1
    have hdiv : (lo + j) / n ≤ (lo + q.length) / n := Nat.div_le_div_right (by omega)
    rcases Nat.eq_or_lt_of_le hdiv with hd | hd
    · rw [hd] at h1
      omega
    · have := Nat.mul_le_mul_left n (Nat.succ_le_of_lt hd)
      rw [Nat.mul_succ] at this
      omega
  rw [setAt_other _ _ _ hne]
  exact h.slot j y hj

/-- An entry that is already in its slot joins the queue. -/
theorem extend (h : InRing n ring lo q) (hlt : q.length < n)
    (hx : ring ((lo + q.length) % n) = x) : InRing n ring lo (q ++ [x]) := by
  refine ⟨?_, fun j y hj => ?_⟩
  · simp only [List.length_append, List.length_singleton]
    exact hlt
  by_cases hjl : j < q.length
  · rw [List.getElem?_append_left hjl] at hj
    exact h.slot j y hj
  · have hjq : j = q.length := by
      have := (List.getElem?_eq_some_iff.mp hj).1
      simp only [List.length_append, List.length_singleton] at this
      omega
    subst hjq
    rw [hx]
    simpa using hj

theorem push (h : InRing n ring lo q) (hlt : q.length < n) (x : α) :
    InRing n (setAt ring ((lo + q.length) % n) x) lo (q ++ [x]) :=
  (h.write hlt x).extend hlt (by simp)

theorem head (h : InRing n ring lo (x :: q)) : ring (lo % n) = x := h.slot 0 x (by simp)

theorem pop (h : InRing n ring lo (x :: q)) : InRing n ring (lo + 1) q := by
  refine ⟨Nat.le_trans (Nat.le_succ _) h.room, fun j y hj => ?_⟩
  have := h.slot (j + 1) y (by simpa using hj)
  rw [← this]
  congr 1
  congr 1
  omega

end InRing
