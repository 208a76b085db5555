import Xv6.Sh
import Xv6.Lib.Lines
import Xv6.Proofs.Ulib

namespace Xv6.Sh

variable {cur : List UInt8}

/-- The piece that `cur` is the beginning of. -/
theorem exists_piece (hcur : NEWLINE ∉ cur) (hne : cur ≠ []) (input : List UInt8) :
    ∃ l ∈ Lines.pieces NEWLINE (cur ++ input), cur.length ≤ l.length := by
  rw [Lines.pieces]
  by_cases hn : NEWLINE ∈ input
  · obtain ⟨l, input, rfl, hl⟩ := List.eq_append_cons_of_mem hn
    rw [← List.append_assoc, Lines.split_cons (by simp [hcur, hl])]
    exact ⟨cur ++ l, by simp, by simp⟩
  · rw [Lines.split_piece (by simp [hcur, hn])]
    exact ⟨cur ++ input, by simp [hne], by simp⟩

/-- The loop from any place in a line; `cur` is what buf has of it. -/
theorem scriptLoop_runs (input junk : List UInt8) (ran : List (List UInt8)) (hcur : NEWLINE ∉ cur) (h0 : 0 ∉ cur ++ input)
    (hbuf : (cur ++ junk).length = MAXSCRIPT) (hlen : cur.length < MAXSCRIPT - 1)
    (hlines : ∀ l ∈ Lines.pieces NEWLINE (cur ++ input), l.length < MAXSCRIPT - 1) :
    scriptLoop input (cur ++ junk) cur.length ran =
      some (.closed, ran ++ (Lines.split NEWLINE (cur ++ input)).1.filter fun l => l ≠ []) := by
  induction input generalizing cur junk ran with
  | nil =>
    rw [List.append_nil, Lines.split_piece hcur, scriptLoop]
    simp
  | cons c input ih =>
    rw [List.length_append] at hbuf
    obtain ⟨x, junk, rfl⟩ : ∃ x r, junk = x :: r := List.exists_cons_of_ne_nil (by rintro rfl; simp at hbuf; omega)
    rw [scriptLoop, Buffer.write_at]
    simp only [Option.bind_eq_bind, Option.bind_some]
    by_cases hc : c = NEWLINE
    · have hcur0 : 0 ∉ cur := fun h => h0 (List.mem_append_left _ h)
      rw [if_pos hc, Buffer.write_at]
      simp only [Option.bind_some, Ulib.cstr_at hcur0]
      have hpieces : Lines.pieces NEWLINE (cur ++ c :: input) = cur :: Lines.pieces NEWLINE input := by
        rw [Lines.pieces, hc, Lines.split_cons hcur, Lines.pieces, List.cons_append]
      rw [hpieces, List.forall_mem_cons] at hlines
      rw [hc, Lines.split_cons hcur]
      have hnext := @ih [] (cur ++ 0 :: junk) (if cur.length > 0 then ran ++ [cur] else ran) List.not_mem_nil
        (fun h => h0 (List.mem_append_right _ (List.mem_cons_of_mem _ h))) (by simpa using hbuf) (by decide) hlines.2
      rw [List.nil_append, List.nil_append] at hnext
      refine hnext.trans ?_
      by_cases hnil : cur = []
      · simp [hnil]
      · simp [hnil, List.length_pos_iff]
    · have happ : cur ++ c :: input = cur ++ [c] ++ input := by simp
      have hcur' : NEWLINE ∉ cur ++ [c] := by simp [hcur, Ne.symm hc]
      rw [happ] at h0 hlines ⊢
      obtain ⟨l, hl, hle⟩ := exists_piece hcur' (by simp) input
      have hshort := hlines l hl
      rw [List.length_append, List.length_singleton] at hle
      rw [if_neg hc, if_neg (by omega)]
      have := ih junk ran hcur' h0 (by simp at hbuf ⊢; omega) (by simp at hshort ⊢; omega) hlines
      simpa using this

theorem execscript_runs {buf script : List UInt8} (hbuf : buf.length = MAXSCRIPT) (h0 : 0 ∉ script)
    (hlines : ∀ l ∈ Lines.pieces NEWLINE script, l.length < MAXSCRIPT - 1) :
    execscript buf script = some (.closed, (Lines.split NEWLINE script).1.filter fun l => l ≠ []) :=
  scriptLoop_runs script buf [] List.not_mem_nil h0 hbuf (by decide) hlines

/-- When the script is run whole: what follows the last newline is never run. -/
theorem execscript_runs_all_iff (buf script : List UInt8) (hbuf : buf.length = MAXSCRIPT) (h0 : 0 ∉ script)
    (hlines : ∀ l ∈ Lines.pieces NEWLINE script, l.length < MAXSCRIPT - 1) :
    execscript buf script = some (.closed, (Lines.pieces NEWLINE script).filter fun l => l ≠ []) ↔ (Lines.split NEWLINE script).2 = [] := by
  rw [execscript_runs hbuf h0 hlines, Lines.pieces, List.filter_append]
  by_cases hrest : (Lines.split NEWLINE script).2 = []
  · simp [hrest]
  · simp [hrest]

/-- `a`, a newline and `b` with a newline. -/
theorem execscript_two_lines : execscript (List.replicate MAXSCRIPT 0) [97, 10, 10, 98, 10] = some (.closed, [[97], [98]]) :=
  (execscript_runs_all_iff (List.replicate MAXSCRIPT 0) [97, 10, 10, 98, 10] List.length_replicate (by decide) (by decide)).mpr (by decide)

/-- `a`, a newline and `b`: `b` is not run. -/
theorem execscript_drops_last : execscript (List.replicate MAXSCRIPT 0) [97, 10, 98] = some (.closed, [[97]]) := by
  rw [execscript_runs List.length_replicate (by decide) (by decide)]
  decide

end Xv6.Sh
