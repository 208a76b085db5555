import Xv6.Proofs.LineReader
import Xv6.Proofs.Printf
import Xv6.Proofs.Qsort

namespace Xv6
variable {content : LineReader.Content} (buf : List UInt8) {input : List UInt8}

/- head, tail and sort on a whole input. -/

namespace LineReader

/-- The lines that the readers keep. -/
def linesOf (input : List UInt8) : List (List UInt8) := (Lines.pieces NEWLINE input).take MAXLINES

/-- What is kept of a line, as printf() shows it. -/
def shown (l : List UInt8) : List UInt8 := text (l.take (MAXLEN - 1))

def printed (ls : List (List UInt8)) : List UInt8 := ls.flatMap (· ++ [NEWLINE])

theorem text_append_zero (l tail : List UInt8) : text (l ++ 0 :: tail) = text l := by
  rw [text, List.takeWhile_append]
  split
  · rename_i hlen
    rw [List.takeWhile_cons_of_neg (by decide), List.append_nil, text, (List.takeWhile_prefix _).eq_of_length hlen]
  · rfl

theorem vprintf_line (s : List UInt8) : UserPrintf.vprintf buf [37, 115, NEWLINE] [.str (some s)] = some (s ++ [NEWLINE]) :=
  UserPrintf.vprintf_string s [NEWLINE] []

theorem printRows_eq {row : Int → Option (List UInt8)} (rows : List (List UInt8)) {i : Int}
    (h : ∀ (k : Nat) (r : List UInt8), rows[k]? = some r → row (i + k) = some r) :
    printRows buf row rows.length i = some (printed (rows.map text)) := by
  induction rows generalizing i with
  | nil => rfl
  | cons r rows ih =>
    have hfirst : row i = some r := by simpa using h 0 r rfl
    have hrest := ih (i := i + 1) fun k r' hk => by
      have := h (k + 1) r' (by simpa using hk)
      rwa [Int.natCast_succ, Int.add_comm (k : Int) 1, ← Int.add_assoc] at this
    rw [List.length_cons, printRows, hfirst]
    simp only [Option.bind_eq_bind, Option.bind_some, vprintf_line, hrest]
    simp [printed]

theorem length_linesOf (input : List UInt8) : (linesOf input).length = min MAXLINES (Lines.pieces NEWLINE input).length :=
  List.length_take

variable {content₀ : Content}

/-- The rows that hold the lines. -/
theorem Stored.rows_eq (h : Stored content₀ content input) :
    (content.take (linesOf input).length).map text = (linesOf input).map shown := by
  refine List.ext_getElem? fun k => ?_
  rw [List.getElem?_map, List.getElem?_map, List.getElem?_take]
  split
  · rename_i hk
    obtain ⟨hlt, hlen⟩ := Nat.lt_min.mp (length_linesOf input ▸ hk)
    have hl : (linesOf input)[k]? = some (Lines.pieces NEWLINE input)[k] := by
      rw [linesOf, List.getElem?_take_of_lt hlt, List.getElem?_eq_getElem hlen]
    obtain ⟨tail, hrow⟩ := h.lines k _ hlt (List.getElem?_eq_getElem hlen)
    rw [hl, hrow, Option.map_some, Option.map_some, text_append_zero, shown]
  · rename_i hk
    rw [List.getElem?_eq_none (Nat.not_lt.mp hk)]
    rfl

/-- The rows from `a` to `b` are printed. -/
theorem Stored.printRows_eq (h : Stored content₀ content input) {a b : Nat} (hab : a ≤ b) (hb : b ≤ (linesOf input).length) :
    printRows buf (rowAt content) (b - a) a = some (printed ((((linesOf input).take b).drop a).map shown)) := by
  have hrows : content.length = MAXLINES := h.rows
  have hlines := length_linesOf input
  have hlen : ((content.take b).drop a).length = b - a := by
    rw [List.length_drop, List.length_take]
    omega
  have hat : ∀ (k : Nat) (r : List UInt8), ((content.take b).drop a)[k]? = some r → rowAt content ((a : Int) + k) = some r := by
    intro k r hk
    rw [List.getElem?_drop, List.getElem?_take] at hk
    split at hk
    · exact hk
    · cases hk
  have hprint := LineReader.printRows_eq buf _ hat
  rw [hlen] at hprint
  rw [hprint, List.map_drop, List.map_take, List.map_drop, List.map_take, ← h.rows_eq, List.map_take, List.take_take, Nat.min_eq_left hb]

end LineReader

open LineReader

/-- head prints the first `n` lines of its input, and tail the last, unless the input overruns the array. -/
theorem head_tail_print (hcontent : Sized content) (hin : ¬Overruns input) (n : Nat) :
    Head.main buf content n input = some (printed (((linesOf input).take n).map shown)) ∧
    Tail.main buf content n input = some (printed (((linesOf input).drop ((linesOf input).length - n)).map shown)) := by
  obtain ⟨content', hread, hstored⟩ := (Head.readlines_iff hcontent input).mpr hin
  rw [← length_linesOf] at hread
  have hsmall : (linesOf input).length ≤ 1000 := length_linesOf input ▸ Nat.min_le_left _ _
  constructor
  · have hhead := hstored.printRows_eq buf (Nat.zero_le (min n (linesOf input).length)) (Nat.min_le_right _ _)
    have hlimit : (if (n : Int) < (linesOf input).length then (n : Int) else (linesOf input).length).toNat = min n (linesOf input).length := by
      split <;> omega
    rw [Nat.sub_zero, List.drop_zero, ← List.take_eq_take_min] at hhead
    rw [Head.main, hread]
    simp only [Option.bind_eq_bind, Option.bind_some, Head.printhead, hlimit]
    exact hhead
  · have htail := hstored.printRows_eq buf (Nat.sub_le (linesOf input).length n) (Nat.le_refl _)
    have hstart : (if (n : Int) > (linesOf input).length then 0 else (((linesOf input).length : Int) - n).bmod 4294967296) =
        ((linesOf input).length - n : Nat) := by
      split
      · omega
      · rw [Int.bmod_eq_of_le (by omega) (by omega)]
        omega
    have hcount : (((linesOf input).length : Int) - ((linesOf input).length - n : Nat)).toNat =
        (linesOf input).length - ((linesOf input).length - n) := by omega
    rw [List.take_length] at htail
    rw [Tail.main, show Tail.readlines content input = Head.readlines content input from rfl, hread]
    simp only [Option.bind_eq_bind, Option.bind_some, Tail.printtail, hstart, hcount]
    exact htail

/-- `b` and `a`. -/
theorem not_overruns_two : ¬Overruns [98, 10, 97] := by
  rintro ⟨l, hl, -⟩
  cases hl

theorem head_tail_two_lines : Head.main [] blank 1 [98, 10, 97] = some [98, 10] ∧ Tail.main [] blank 1 [98, 10, 97] = some [97, 10] := by
  have hboth := head_tail_print [] sized_blank not_overruns_two 1
  exact ⟨hboth.1.trans (by decide), hboth.2.trans (by decide)⟩

namespace SortCmd
variable {lines : List (Option Nat)}

theorem take_pointers {n : Nat} (h : ∀ k < n, lines[k]? = some (some k)) : lines.take n = (List.range n).map some := by
  refine List.ext_getElem? fun k => ?_
  rw [List.getElem?_take, List.getElem?_map]
  split
  · rename_i hk
    rw [h k hk, List.getElem?_range hk]
    rfl
  · rename_i hk
    rw [List.getElem?_eq_none (by simpa using hk)]
    rfl

/-- sort prints the lines of its input in order, unless the input overruns the array. -/
theorem sort_prints (hcontent : Sized content) (hlines : lines.length = MAXLINES) (hin : ¬Overruns input) :
    ∃ ls, ls.Perm ((linesOf input).map shown) ∧ ls.Pairwise (fun l l' => ¬List.Lex (fun x y => x.toNat < y.toNat) l' l) ∧
      main buf content lines input = some (printed ls) := by
  obtain ⟨content', lines', hread, hstored, hptr⟩ := (readlines_iff hcontent hlines input).mpr hin
  rw [← length_linesOf] at hread hptr
  have hsize : (linesOf input).length ≤ content'.length := by
    rw [hstored.rows, length_linesOf]
    exact Nat.min_le_left _ _
  have hmid := take_pointers hptr
  have hlen : (lines'.take (linesOf input).length).length = (linesOf input).length := by simp [hmid]
  obtain ⟨mid, hperm, hordered, hsort⟩ := @qsort_ordered _ (textOf content') ((linesOf input).length + 1) []
    (lines'.take (linesOf input).length) (lines'.drop (linesOf input).length) (by omega)
  rw [List.nil_append, List.nil_append, List.take_append_drop, hlen, List.length_nil, Int.natCast_zero, Int.zero_add] at hsort
  have hrow : ∀ p ∈ mid, p.bind (content'[·]?) = some ((p.bind (content'[·]?)).getD []) := by
    intro p hp
    rw [hperm.mem_iff, hmid, List.mem_map] at hp
    obtain ⟨k, hk, rfl⟩ := hp
    simp [List.getElem?_eq_getElem (Nat.lt_of_lt_of_le (List.mem_range.mp hk) hsize)]
  refine ⟨mid.map fun p => (textOf content' p).val, ?_, List.pairwise_map.mpr hordered.lex, ?_⟩
  · rw [← hstored.rows_eq]
    refine (hperm.map _).trans (List.Perm.of_eq (List.ext_getElem? fun k => ?_))
    rw [hmid, List.map_map, List.getElem?_map, List.getElem?_map, List.getElem?_take]
    split
    · rename_i hk
      rw [List.getElem?_range hk, List.getElem?_eq_getElem (Nat.lt_of_lt_of_le hk hsize)]
      simp [textOf, List.getElem?_eq_getElem (Nat.lt_of_lt_of_le hk hsize)]
    · rename_i hk
      rw [List.getElem?_eq_none (by simpa using hk)]
      rfl
  · have hat : ∀ (k : Nat) (r : List UInt8), (mid.map fun p => (p.bind (content'[·]?)).getD [])[k]? = some r →
        lineRow content' (mid ++ lines'.drop (linesOf input).length) (0 + k) = some r := by
      intro k r hk
      rw [List.getElem?_map, Option.map_eq_some_iff] at hk
      obtain ⟨p, hp, rfl⟩ := hk
      have hline : lineAt (mid ++ lines'.drop (linesOf input).length) (0 + k) = some p := by
        rw [Int.zero_add, lineAt]
        exact (List.getElem?_append_left (List.getElem?_eq_some_iff.mp hp).1).trans hp
      rw [lineRow, hline, Option.bind_some]
      exact hrow p (List.mem_of_getElem? hp)
    have hprint := LineReader.printRows_eq buf _ hat
    rw [List.length_map, hperm.length_eq, hlen, List.map_map] at hprint
    rw [main, hread]
    simp only [Option.bind_eq_bind, Option.bind_some, hsort]
    exact hprint

theorem sort_two_lines : ∃ ls, ls.Perm [[98], [97]] ∧ main [] blank (List.replicate MAXLINES none) [98, 10, 97] = some (printed ls) := by
  obtain ⟨ls, hperm, -, hrun⟩ := sort_prints [] sized_blank List.length_replicate not_overruns_two
  exact ⟨ls, hperm, hrun⟩

end SortCmd

end Xv6
