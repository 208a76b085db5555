import Xv6.Wc
import Xv6.Proofs.Printf

namespace Xv6

/-- The answers to read() are the bytes `xs`, in pieces of any size, and then an end of file. -/
inductive Feeds : List ReadAnswer → List UInt8 → Prop where
  | done : Feeds [] []
  | eof (answers : List ReadAnswer) : Feeds (.bytes [] :: answers) []
  | more {bs : List UInt8} {answers : List ReadAnswer} {xs : List UInt8} (hbs : bs ≠ []) (h : Feeds answers xs) :
    Feeds (.bytes bs :: answers) (bs ++ xs)

namespace Wc
open UserPrintf (vprintf vprintf_byte vprintf_string vprintf_conversion value)
open Printf (numeral)

variable {buf : List UInt8}

def blank (b : UInt8) : Bool := [32, 13, 9, 10, 11].contains b

/-- A word begins at a byte that is not blank and that a blank precedes, or `prev` does. -/
def wordsAfter (prev : UInt8) (xs : List UInt8) : Nat := (xs.zip (prev :: xs)).countP fun y => !blank y.1 && blank y.2

def words (xs : List UInt8) : Nat := wordsAfter 32 xs

theorem strchr_blanks (b : UInt8) : (Ulib.strchr blanks 0 b).map Option.isSome = some (blank b) := by
  simp only [Ulib.strchr, blanks, List.drop_zero, Ulib.strchrLoop, blank]
  grind

theorem count_eq (s : Counts) (b : UInt8) : count s b = some ⟨if b = NEWLINE then s.l + 1 else s.l,
    if !blank b && !s.inword then s.w + 1 else s.w, s.c + 1, !blank b⟩ := by
  obtain ⟨l, w, c, inword⟩ := s
  obtain ⟨r, hr, hblank⟩ := Option.map_eq_some_iff.mp (strchr_blanks b)
  rw [count, hr, ← hblank]
  cases r with
  | none =>
    cases inword with
    | false => by_cases hb : b = NEWLINE <;> simp [hb]
    | true => by_cases hb : b = NEWLINE <;> simp [hb]
  | some k => by_cases hb : b = NEWLINE <;> simp [hb]

/-- A counter that has been increased, or not, before `n` is added. -/
theorem counted (x : BitVec 32) (p : Bool) (n : Nat) :
    (if p then x + 1 else x) + BitVec.ofNat 32 n = x + BitVec.ofNat 32 (n + if p then 1 else 0) := by
  cases p with
  | false => simp
  | true => simp [BitVec.ofNat_add, BitVec.add_assoc, BitVec.add_comm 1#32]

/-- The loop over a buffer, after the byte `prev`. -/
theorem foldlM_count (xs : List UInt8) (prev : UInt8) (l w c : BitVec 32) :
    xs.foldlM count ⟨l, w, c, !blank prev⟩ = some ⟨l + BitVec.ofNat 32 (xs.count NEWLINE), w + BitVec.ofNat 32 (wordsAfter prev xs),
      c + BitVec.ofNat 32 xs.length, !blank (xs.getLastD prev)⟩ := by
  induction xs generalizing prev l w c with
  | nil => simp [wordsAfter]
  | cons x xs ih =>
    have hline := counted l (x == NEWLINE) (xs.count NEWLINE)
    have hword := counted w (!blank x && blank prev) (wordsAfter x xs)
    have hbyte := counted c true xs.length
    simp only [beq_iff_eq, if_true] at hline hbyte
    rw [List.foldlM_cons, count_eq, Option.bind_eq_bind, Option.bind_some, ih]
    simp only [wordsAfter, List.zip_cons_cons, List.countP_cons, List.count_cons, List.length_cons, List.getLastD_cons, Bool.not_not,
      beq_iff_eq, hline, hbyte] at hword ⊢
    rw [hword]

/-- How read() cuts the input does not matter. -/
theorem countLoop_gives {answers : List ReadAnswer} {xs : List UInt8} (h : Feeds answers xs) (s : Counts) :
    countLoop answers s = (xs.foldlM count s).map some := by
  induction h generalizing s with
  | done | eof answers => rfl
  | @more bs answers xs hbs h ih =>
    rw [countLoop.eq_4 _ _ _ hbs, List.foldlM_append]
    cases bs.foldlM count s with
    | none => rfl
    | some s' => exact ih s'

/-- What wc() is to print for a file `name` that holds `xs`. -/
def report (name xs : List UInt8) : List UInt8 :=
  numeral UserPrintf.digits 10 (xs.count NEWLINE) ++ 32 :: (numeral UserPrintf.digits 10 (words xs) ++
    32 :: (numeral UserPrintf.digits 10 xs.length ++ 32 :: (name ++ [NEWLINE])))

/-- An int below 2^31 as printf() takes it. -/
theorem value_int {n : Nat} (h : n < 2147483648) : value (((BitVec.ofNat 32 n).signExtend 64).setWidth 32) true = n := by
  have hsame : ((BitVec.ofNat 32 n).signExtend 64).setWidth 32 = BitVec.ofNat 32 n := by
    ext i hi
    simp [BitVec.getLsbD_signExtend, hi, BitVec.getLsbD_eq_getElem]
    omega
  rw [hsame, value, if_pos rfl, BitVec.toInt_eq_toNat_of_lt (by simp; omega)]
  simp
  omega

theorem words_le (xs : List UInt8) : words xs ≤ xs.length := by
  refine Nat.le_trans List.countP_le_length ?_
  simp

theorem wc_gives (hbuf : buf.length = 16) {answers : List ReadAnswer} {xs : List UInt8} (h : Feeds answers xs)
    (hxs : xs.length < 2147483648) (name : List UInt8) : wc buf name answers = some ⟨report name xs, false⟩ := by
  have hwords := words_le xs
  have hlines := List.count_le_length (a := NEWLINE) (l := xs)
  have hstart : (⟨0, 0, 0, false⟩ : Counts) = ⟨0#32, 0#32, 0#32, !blank 32⟩ := rfl
  have hformat : lineFormat = UserPrintf.conversion .int .d ++ 32 :: (UserPrintf.conversion .int .d ++
    32 :: (UserPrintf.conversion .int .d ++ [32, 37, 115, 10])) := rfl
  rw [wc, hstart, countLoop_gives h, foldlM_count, hformat]
  simp only [Option.map_some, Option.bind_eq_bind, Option.bind_some, vprintf_conversion hbuf, vprintf_byte (show (32 : UInt8) ≠ 37 by decide),
    vprintf_string]
  rw [show vprintf buf [10] [] = some [10] from rfl]
  simp only [Option.map_some, Option.bind_some, BitVec.zero_add, value_int (Nat.lt_of_le_of_lt hlines hxs), value_int hxs,
    value_int (show wordsAfter 32 xs < _ from Nat.lt_of_le_of_lt hwords hxs), beq_self_eq_true]
  rfl

/-- The message for a file that open() does not find. -/
def refusal (name : List UInt8) : List UInt8 := cannotOpen.take 16 ++ (name ++ [NEWLINE])

theorem vprintf_cannotOpen (name : List UInt8) : vprintf buf cannotOpen [.str (some name)] = some (refusal name) := by
  have hformat : cannotOpen = cannotOpen.take 16 ++ [37, 115, 10] := rfl
  have htext : ∀ pre : List UInt8, 37 ∉ pre → vprintf buf (pre ++ [37, 115, 10]) [.str (some name)] = some (pre ++ (name ++ [NEWLINE])) := by
    intro pre hpre
    induction pre with
    | nil => exact vprintf_string name [10] []
    | cons c pre ih =>
      rw [List.mem_cons, not_or] at hpre
      rw [List.cons_append, vprintf_byte (Ne.symm hpre.1), ih hpre.2]
      rfl
  rw [hformat, htext _ (by decide)]
  rfl

variable {file : List UInt8 → Option (List ReadAnswer)} {text : List UInt8 → List UInt8}

/-- The files of main() that are counted, before the others. -/
theorem mainLoop_gives (hbuf : buf.length = 16) {good : List (List UInt8)}
    (hgood : ∀ name ∈ good, ∃ answers, file name = some answers ∧ Feeds answers (text name) ∧ (text name).length < 2147483648)
    (bad : List (List UInt8)) : mainLoop buf file (good ++ bad) = (mainLoop buf file bad).map (·.after (good.flatMap fun name => report name (text name))) := by
  induction good with
  | nil => exact Option.map_id'.symm
  | cons name good ih =>
    obtain ⟨⟨answers, hfile, hgives, hlen⟩, hgood⟩ := List.forall_mem_cons.mp hgood
    rw [List.cons_append, mainLoop, hfile]
    simp only [wc_gives hbuf hgives hlen, ih hgood, Option.bind_eq_bind, Option.bind_some]
    cases mainLoop buf file bad with
    | none => rfl
    | some e => simp [Ended.after]

end Wc

end Xv6
