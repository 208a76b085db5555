import Xv6.KString

namespace Xv6

namespace Ulib

variable {c : UInt8} {l xs : List UInt8} {s : Nat}

theorem cstr_at (h : 0 ∉ l) (xs : List UInt8) : cstr (l ++ 0 :: xs) = some l := by
  induction l with
  | nil => rfl
  | cons x l ih =>
    rw [List.mem_cons, not_or] at h
    rw [List.cons_append, cstr, if_neg (Ne.symm h.1), ih h.2, Option.map_some]

theorem strchrLoop_found (h : 0 ∉ l) (hc : c ∉ l) (h0 : c ≠ 0) : strchrLoop c (l ++ c :: xs) s = some (some (s + l.length)) := by
  induction l generalizing s with
  | nil => simp [strchrLoop, h0]
  | cons x l ih =>
    rw [List.mem_cons, not_or] at h hc
    rw [List.cons_append, strchrLoop, if_neg (Ne.symm h.1), if_neg (Ne.symm hc.1), ih h.2 hc.2, List.length_cons]
    simp only [Option.some.injEq]
    omega

theorem strchrLoop_none (h : 0 ∉ l) (hc : c ∉ l) : strchrLoop c (l ++ 0 :: xs) s = some none := by
  induction l generalizing s with
  | nil => simp [strchrLoop]
  | cons x l ih =>
    rw [List.mem_cons, not_or] at h hc
    rw [List.cons_append, strchrLoop, if_neg (Ne.symm h.1), if_neg (Ne.symm hc.1), ih h.2 hc.2]

variable {a b : List UInt8} {dst src n : Nat}

/-- `b` is `a` with the bytes at `src` also at `dst`. -/
structure Moved (a b : List UInt8) (dst src n : Nat) : Prop where
  length : b.length = a.length
  copied : ∀ k < n, b[dst + k]? = a[src + k]?
  kept : ∀ k, k < dst ∨ dst + n ≤ k → b[k]? = a[k]?

theorem Moved.zero (a : List UInt8) (dst src : Nat) : Moved a a dst src 0 :=
  ⟨rfl, fun _ h => absurd h (Nat.not_lt_zero _), fun _ _ => rfl⟩

/-- A byte is read before the loop reaches it: dst is not inside src, or is at its beginning. -/
theorem copyUp_moved (hsrc : src + n ≤ a.length) (hdst : dst + n ≤ a.length) (h : dst ≤ src ∨ src + n ≤ dst) :
    ∃ b, copyUp a dst src n = some b ∧ Moved a b dst src n := by
  induction n generalizing a dst src with
  | zero => exact ⟨a, rfl, Moved.zero a dst src⟩
  | succ n ih =>
    have hread : a[src]? = some a[src] := List.getElem?_eq_getElem (by omega)
    have hlen : (a.set dst a[src]).length = a.length := List.length_set
    obtain ⟨b, hrun, hb⟩ := @ih (a.set dst a[src]) (dst + 1) (src + 1) (by omega) (by omega) (by omega)
    refine ⟨b, ?_, hb.length.trans hlen, fun k hk => ?_, fun k hk => ?_⟩
    · rw [copyUp, hread]
      simp only [Option.bind_eq_bind, Option.bind_some, Buffer.write_some (show dst < a.length by omega), hrun]
    · cases k with
      | zero =>
        rw [Nat.add_zero, Nat.add_zero, hb.kept dst (by omega), List.getElem?_set_self (by omega), hread]
      | succ k =>
        have hcopied := hb.copied k (by omega)
        rw [List.getElem?_set_ne (by omega)] at hcopied
        rwa [← Nat.add_assoc, ← Nat.add_assoc, Nat.add_right_comm dst, Nat.add_right_comm src]
    · rw [hb.kept k (by omega), List.getElem?_set_ne (by omega)]

/-- From the end, it is the other way round. -/
theorem copyDown_moved (hsrc : src + n ≤ a.length) (hdst : dst + n ≤ a.length) (h : src ≤ dst ∨ dst + n ≤ src) :
    ∃ b, copyDown a dst src n = some b ∧ Moved a b dst src n := by
  induction n generalizing a with
  | zero => exact ⟨a, rfl, Moved.zero a dst src⟩
  | succ n ih =>
    have hread : a[src + n]? = some a[src + n] := List.getElem?_eq_getElem (by omega)
    have hlen : (a.set (dst + n) a[src + n]).length = a.length := List.length_set
    obtain ⟨b, hrun, hb⟩ := @ih (a.set (dst + n) a[src + n]) (by omega) (by omega) (by omega)
    refine ⟨b, ?_, hb.length.trans hlen, fun k hk => ?_, fun k hk => ?_⟩
    · rw [copyDown, hread]
      simp only [Option.bind_eq_bind, Option.bind_some, Buffer.write_some (show dst + n < a.length by omega), hrun]
    · rcases Nat.lt_succ_iff_lt_or_eq.mp hk with hk | rfl
      · rw [hb.copied k hk, List.getElem?_set_ne (by omega)]
      · rw [hb.kept (dst + k) (by omega), List.getElem?_set_self (by omega), hread]
    · rw [hb.kept k (by omega), List.getElem?_set_ne (by omega)]

theorem memmove_moved (hsrc : src + n ≤ a.length) (hdst : dst + n ≤ a.length) :
    ∃ b, memmove a dst src n = some b ∧ Moved a b dst src n := by
  rw [memmove]
  split
  · exact copyUp_moved hsrc hdst (by omega)
  · exact copyDown_moved hsrc hdst (by omega)

/-- memmove() to the front. -/
theorem memmove_front (pre r post : List UInt8) : ∃ junk,
    memmove (pre ++ r ++ post) 0 pre.length r.length = some (r ++ junk) ∧ junk.length = pre.length + post.length := by
  have hlen : (pre ++ r ++ post).length = pre.length + r.length + post.length := by
    simp only [List.length_append]
  obtain ⟨b, hrun, hb⟩ := @memmove_moved (pre ++ r ++ post) 0 pre.length r.length (by omega) (by omega)
  have hfront : b.take r.length = r := by
    refine List.ext_getElem? fun k => ?_
    by_cases hk : k < r.length
    · have hcopied := hb.copied k hk
      rw [Nat.zero_add, List.append_assoc, List.getElem?_append_right (Nat.le_add_right _ _), Nat.add_sub_cancel_left,
        List.getElem?_append_left hk] at hcopied
      rw [List.getElem?_take_of_lt hk, hcopied]
    · rw [List.getElem?_take_eq_none (by omega), List.getElem?_eq_none (by omega)]
  refine ⟨b.drop r.length, ?_, ?_⟩
  · nth_rewrite 3 [← hfront]
    rw [hrun, List.take_append_drop]
  · rw [List.length_drop, hb.length]
    omega

end Ulib

namespace KString

variable {a : List UInt8} {dst src n : Nat}

theorem memmove_moved (hsrc : src + n ≤ a.length) (hdst : dst + n ≤ a.length) :
    ∃ b, memmove a dst src n = some b ∧ Ulib.Moved a b dst src n := by
  rw [memmove]
  split
  · next hn => exact ⟨a, rfl, hn ▸ Ulib.Moved.zero a dst src⟩
  · split
    · exact Ulib.copyDown_moved hsrc hdst (by omega)
    · exact Ulib.copyUp_moved hsrc hdst (by omega)

/-- Both versions of memmove(), however the ranges overlap. -/
theorem memmove_overlapping (a : List UInt8) (dst src n : Nat) (hsrc : src + n ≤ a.length) (hdst : dst + n ≤ a.length) :
    ∀ m ∈ [KString.memmove, Ulib.memmove], ∃ b, m a dst src n = some b ∧ b.length = a.length ∧
      (∀ k < n, b[dst + k]? = a[src + k]?) ∧ ∀ k, k < dst ∨ dst + n ≤ k → b[k]? = a[k]? := by
  simp only [List.forall_mem_cons, List.not_mem_nil, false_implies, implies_true, and_true]
  constructor
  · obtain ⟨b, hrun, hb⟩ := KString.memmove_moved hsrc hdst
    exact ⟨b, hrun, hb.length, hb.copied, hb.kept⟩
  · obtain ⟨b, hrun, hb⟩ := Ulib.memmove_moved hsrc hdst
    exact ⟨b, hrun, hb.length, hb.copied, hb.kept⟩

theorem memmove_one_up : ∃ b, KString.memmove [1, 2, 3, 4] 1 0 3 = some b ∧ ∀ k < 3, b[1 + k]? = [1, 2, 3, 4][k]? := by
  obtain ⟨b, hrun, -, hcopied, -⟩ := memmove_overlapping [1, 2, 3, 4] 1 0 3 (by decide) (by decide) KString.memmove (by simp)
  exact ⟨b, hrun, fun k hk => by simpa using hcopied k hk⟩

end KString

end Xv6
