import Mathlib.Algebra.Group.Int.Defs
import Mathlib.Algebra.GroupWithZero.Nat

/-- A fixed-size array of bytes. -/
abbrev ByteArr (n : Nat) := Fin n → UInt8

namespace ByteArr
variable {n : Nat}

instance : DecidableEq (ByteArr n) := fun a b =>
  decidable_of_iff (∀ i : Fin n, a i = b i) funext_iff.symm

def zero : ByteArr n := fun _ => 0

def byteAt (d : ByteArr n) (i : Nat) : UInt8 := if h : i < n then d ⟨i, h⟩ else 0

/-- The `len` bytes at `off`. -/
def get (d : ByteArr n) (off len : Nat) : List UInt8 :=
  (List.range len).map (fun i => d.byteAt (off + i))

/-- Overwrite the bytes at `off`, as a copy into the array does. -/
def put (d : ByteArr n) (off : Nat) (bs : List UInt8) : ByteArr n :=
  fun i => if off ≤ i.val ∧ i.val < off + bs.length then bs.getD (i.val - off) 0 else d i

@[simp] theorem length_get (d : ByteArr n) (off len : Nat) : (d.get off len).length = len := by
  simp [get]

@[simp] theorem byteAt_zero (i : Nat) : (zero : ByteArr n).byteAt i = 0 := by
  unfold byteAt
  split <;> rfl

theorem byteAt_put (d : ByteArr n) (off : Nat) (bs : List UInt8) (i : Nat) (hi : i < n) :
    (d.put off bs).byteAt i =
      if off ≤ i ∧ i < off + bs.length then bs.getD (i - off) 0 else d.byteAt i := by
  simp [byteAt, put, hi]

/-- Part of what was written is read back. -/
theorem get_put_within (d : ByteArr n) (off : Nat) (bs : List UInt8) (o len : Nat)
    (hb : o + len ≤ bs.length) (hn : off + o + len ≤ n) :
    (d.put off bs).get (off + o) len = (bs.drop o).take len := by
  apply List.ext_getElem
  · simp only [length_get, List.length_take, List.length_drop]
    omega
  · intro i h₁ h₂
    rw [length_get] at h₁
    simp only [get, List.getElem_map, List.getElem_range, List.getElem_take, List.getElem_drop]
    rw [byteAt_put d off _ _ (by omega), if_pos (by omega),
      show off + o + i - off = o + i by omega]
    simp [show o + i < bs.length by omega]

/-- What was written is read back. -/
theorem get_put (d : ByteArr n) (off : Nat) (bs : List UInt8) (h : off + bs.length ≤ n) :
    (d.put off bs).get off bs.length = bs := by
  simpa using d.get_put_within off bs 0 bs.length (by omega) (by omega)

/-- A write leaves every disjoint range alone. -/
theorem get_put_disjoint (d : ByteArr n) (off : Nat) (bs : List UInt8) (off' len : Nat)
    (h : off' + len ≤ off ∨ off + bs.length ≤ off') :
    (d.put off bs).get off' len = d.get off' len := by
  apply List.ext_getElem
  · simp
  · intro i h₁ h₂
    simp only [length_get] at h₁
    simp only [get, List.getElem_map, List.getElem_range]
    by_cases hi : off' + i < n
    · rw [byteAt_put d off bs _ hi, if_neg (by omega)]
    · simp [byteAt, hi]

theorem get_succ (d : ByteArr n) (off len : Nat) : d.get off (len + 1) = d.byteAt off :: d.get (off + 1) len := by
  simp [get, List.range_succ_eq_map, Nat.add_assoc, Nat.add_comm 1]

@[simp] theorem put_nil (d : ByteArr n) (off : Nat) : d.put off [] = d := by
  funext i
  simp only [put, List.length_nil]
  rw [if_neg (by omega)]

/-- Bytes can be written one by one. -/
theorem put_cons (d : ByteArr n) (off : Nat) (b : UInt8) (bs : List UInt8) :
    (d.put off [b]).put (off + 1) bs = d.put off (b :: bs) := by
  funext i
  simp only [put, List.length_cons, List.length_nil]
  by_cases hi : i.val = off
  · rw [if_neg (by omega), if_pos (by omega), if_pos (by omega), hi, Nat.sub_self]
    rfl
  · by_cases hin : off + 1 ≤ i.val ∧ i.val < off + 1 + bs.length
    · have hsub : i.val - off = i.val - (off + 1) + 1 := by omega
      rw [if_pos hin, if_pos (by omega), hsub]
      rfl
    · rw [if_neg hin, if_neg (by omega), if_neg (by omega)]

end ByteArr

namespace Bytes

/-- The `k` low bytes of a number, least significant first. -/
def le : Nat → Nat → List UInt8
  | 0, _ => []
  | k + 1, m => UInt8.ofNat m :: le k (m / 256)

def ofLe : List UInt8 → Nat
  | [] => 0
  | b :: bs => b.toNat + 256 * ofLe bs

@[simp] theorem length_le (k m : Nat) : (le k m).length = k := by
  induction k generalizing m with
  | zero => rfl
  | succ k ih => simp [le, ih]

theorem ofLe_le (k m : Nat) : ofLe (le k m) = m % 256 ^ k := by
  induction k generalizing m with
  | zero => simp [le, ofLe, Nat.mod_one]
  | succ k ih =>
    have hb : (UInt8.ofNat m).toNat = m % 256 := by simp
    rw [le, ofLe, ih, hb, Nat.pow_succ, Nat.mul_comm (256 ^ k), Nat.mod_mul]

theorem ofLe_le_of_lt {k m : Nat} (h : m < 256 ^ k) : ofLe (le k m) = m := by
  rw [ofLe_le, Nat.mod_eq_of_lt h]

section Records
variable {α : Type u} {f : α → List UInt8} {k : Nat} {xs : List α}

/- Records of `k` bytes each, one after the other. -/

theorem length_records (hf : ∀ x ∈ xs, (f x).length = k) : (xs.flatMap f).length = k * xs.length := by
  induction xs with
  | nil => simp
  | cons x xs ih =>
    have hrest := ih (fun y hy => hf y (List.mem_cons_of_mem x hy))
    simp only [List.flatMap_cons, List.length_append, hf x List.mem_cons_self, hrest,
      List.length_cons, Nat.mul_succ]
    omega

theorem records_at (hf : ∀ x ∈ xs, (f x).length = k) (i : Nat) (hi : i < xs.length) :
    ((xs.flatMap f).drop (k * i)).take k = f xs[i] := by
  induction xs generalizing i with
  | nil => simp at hi
  | cons x xs ih =>
    have hx := hf x List.mem_cons_self
    cases i with
    | zero => simp [← hx]
    | succ i =>
      have hd : k * (i + 1) = (f x).length + k * i := by
        rw [hx, Nat.mul_succ, Nat.add_comm]
      rw [List.flatMap_cons, hd, List.drop_length_add_append]
      simpa using ih (fun y hy => hf y (List.mem_cons_of_mem x hy)) i (by simpa using hi)

end Records

@[simp] theorem length_words (k : Nat) (ws : List Nat) :
    (ws.flatMap (le k)).length = k * ws.length :=
  length_records (fun w _ => length_le k w)

theorem words_at (k : Nat) (ws : List Nat) (i : Nat) (hi : i < ws.length) :
    ((ws.flatMap (le k)).drop (k * i)).take k = le k ws[i] :=
  records_at (fun w _ => length_le k w) i hi

/-- An array of words in memory: each is read back at its index. -/
theorem get_words {n : Nat} (d : ByteArr n) (k : Nat) (ws : List Nat) (i : Nat) (hi : i < ws.length)
    (hn : k * ws.length ≤ n) :
    (d.put 0 (ws.flatMap (le k))).get (k * i) k = le k ws[i] := by
  have hlt : k * i + k ≤ k * ws.length := Nat.mul_le_mul_left k hi
  have h := d.get_put_within 0 (ws.flatMap (le k)) (k * i) k (by rw [length_words]; exact hlt)
    (by omega)
  rwa [Nat.zero_add, words_at k ws i hi] at h

theorem ofLe_lt (bs : List UInt8) : ofLe bs < 256 ^ bs.length := by
  induction bs with
  | nil => simp [ofLe]
  | cons b bs ih =>
    have := b.toNat_lt
    simp only [ofLe, List.length_cons, Nat.pow_succ]
    omega

end Bytes
