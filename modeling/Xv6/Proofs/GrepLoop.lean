import Xv6.Grep
import Xv6.Lib.Lines
import Xv6.Proofs.Ulib

namespace Xv6

namespace Grep

variable {pattern : List UInt8}

/-- What grep() writes for the lines `ls`. -/
def output (pattern : List UInt8) (ls : List (List UInt8)) : List (List UInt8) :=
  (ls.filter (matchText pattern)).map (· ++ [NEWLINE])

theorem output_append (ls ls' : List (List UInt8)) : output pattern (ls ++ ls') = output pattern ls ++ output pattern ls' := by
  simp [output]

/-- One line of buf. A line that is not written keeps the 0 that ended it. -/
theorem grepLines_line {l : List UInt8} (h0 : 0 ∉ l) (hl : NEWLINE ∉ l) (fuel : Nat) (pre rest : List UInt8) (out : List (List UInt8)) :
    ∃ c, grepLines pattern (fuel + 1) (pre ++ (l ++ NEWLINE :: rest)) pre.length out =
      grepLines pattern fuel (pre ++ l ++ [c] ++ rest) (pre ++ l ++ [c]).length (out ++ output pattern [l]) := by
  have hq : pre.length + l.length = (pre ++ l).length := List.length_append.symm
  have htext : Ulib.cstr ((pre ++ l ++ 0 :: rest).drop pre.length) = some l := by
    rw [List.append_assoc, List.drop_left, Ulib.cstr_at h0]
  rw [grepLines, Ulib.strchr, List.drop_left, Ulib.strchrLoop_found h0 hl (by decide)]
  simp only [Option.bind_eq_bind, Option.bind_some]
  rw [hq, ← List.append_assoc, Buffer.write_at]
  simp only [Option.bind_some, htext]
  by_cases hmatch : matchText pattern l = true
  · have hslice : Buffer.slice (pre ++ l ++ NEWLINE :: rest) pre.length ((pre ++ l).length + 1 - pre.length) = some (l ++ [NEWLINE]) := by
      have := Buffer.slice_at pre (l ++ [NEWLINE]) rest
      rw [List.length_append, Nat.add_assoc, Nat.add_sub_cancel_left]
      simpa using this
    refine ⟨NEWLINE, ?_⟩
    rw [if_pos hmatch, Buffer.write_at]
    simp only [Option.bind_some, hslice]
    simp [output, hmatch, Nat.add_assoc]
  · refine ⟨0, ?_⟩
    rw [if_neg hmatch]
    simp [output, hmatch, Nat.add_assoc]

/-- The lines in buf: `xs` is what is in use from `p` on. -/
theorem grepLines_writes {fuel : Nat} {xs : List UInt8} (pre post : List UInt8) (out : List (List UInt8)) (h0 : 0 ∉ xs)
    (hfuel : xs.length < fuel) : ∃ pre', pre'.length + (Lines.split NEWLINE xs).2.length = pre.length + xs.length ∧
      grepLines pattern fuel (pre ++ (xs ++ 0 :: post)) pre.length out =
        some (pre' ++ (Lines.split NEWLINE xs).2 ++ 0 :: post, pre'.length, out ++ output pattern (Lines.split NEWLINE xs).1) := by
  induction fuel generalizing pre xs out with
  | zero => omega
  | succ fuel ih =>
    by_cases hn : NEWLINE ∈ xs
    · obtain ⟨l, rest, rfl, hl⟩ := List.eq_append_cons_of_mem hn
      rw [List.mem_append, List.mem_cons, not_or, not_or] at h0
      rw [List.length_append, List.length_cons] at hfuel ⊢
      obtain ⟨c, hline⟩ := grepLines_line h0.1 hl fuel pre (rest ++ 0 :: post) out
      obtain ⟨pre', hlen, hrun⟩ := ih (pre ++ l ++ [c]) (out ++ output pattern [l]) h0.2.2 (by omega)
      rw [List.length_append, List.length_append, List.length_singleton] at hlen
      rw [Lines.split_cons hl, List.append_assoc l, List.cons_append, hline, hrun, List.append_assoc out, ← output_append]
      refine ⟨pre', ?_, rfl⟩
      simp only
      omega
    · rw [grepLines, Ulib.strchr, List.drop_left, Ulib.strchrLoop_none h0 hn, Lines.split_piece hn]
      exact ⟨pre, rfl, by simp [output]⟩

/-- What one read() adds, and the lines that are then complete. -/
theorem grepLoop_chunk {fuel : Nat} {cur bs junk : List UInt8} {inp inp' : Input} (out : List (List UInt8))
    (hread : inp.read (BUFSIZE - cur.length - 1) = (bs, inp')) (hbs : bs ≠ []) (h0 : 0 ∉ cur ++ bs)
    (hbuf : (cur ++ junk).length = BUFSIZE) (hroom : bs.length ≤ BUFSIZE - cur.length - 1) :
    ∃ junk', ((Lines.split NEWLINE (cur ++ bs)).2 ++ junk').length = BUFSIZE ∧
      grepLoop pattern (fuel + 1) (cur ++ junk) cur.length inp out =
        grepLoop pattern fuel ((Lines.split NEWLINE (cur ++ bs)).2 ++ junk') (Lines.split NEWLINE (cur ++ bs)).2.length inp'
          (out ++ output pattern (Lines.split NEWLINE (cur ++ bs)).1) := by
  have hpos := List.length_pos_iff.mpr hbs
  rw [List.length_append] at hbuf
  have hjunk : bs.length < junk.length := by omega
  obtain ⟨old, x, post, rfl, hold⟩ : ∃ old x post, junk = old ++ x :: post ∧ old.length = bs.length :=
    ⟨junk.take bs.length, junk.get ⟨bs.length, hjunk⟩, junk.drop (bs.length + 1), by simp, by simp; omega⟩
  have hblit : Buffer.blit (cur ++ (old ++ x :: post)) cur.length bs = some (cur ++ bs ++ x :: post) := by
    rw [← List.append_assoc, Buffer.blit_at _ _ hold]
  obtain ⟨pre, hlen, hlines⟩ := @grepLines_writes pattern _ _ [] post out h0 (Nat.lt_succ_self _)
  obtain ⟨junk, hmove, hjunk⟩ := Ulib.memmove_front pre (Lines.split NEWLINE (cur ++ bs)).2 (0 :: post)
  have hm : (cur ++ bs).length - pre.length = (Lines.split NEWLINE (cur ++ bs)).2.length := by
    rw [List.length_nil] at hlen
    omega
  rw [List.nil_append, List.length_nil] at hlines
  refine ⟨junk, ?_, ?_⟩
  · simp only [List.length_append, List.length_cons, List.length_nil] at hbuf hjunk hlen ⊢
    omega
  rw [grepLoop, hread]
  simp only [gt_iff_lt, hpos, if_true, hblit, Option.bind_eq_bind, Option.bind_some]
  rw [← List.length_append, Buffer.write_at]
  simp only [Option.bind_some, hlines]
  rw [if_pos (by simp; omega), hm, hmove, Option.bind_some]

theorem Input.read_spec {inp inp' : Input} {n : Nat} {bs : List UInt8} (h : inp.read n = (bs, inp')) :
    inp.rest = bs ++ inp'.rest ∧ bs.length ≤ n ∧ (bs = [] → n = 0 ∨ inp.rest = []) := by
  rw [Input.read] at h
  cases h
  refine ⟨(List.take_append_drop _ _).symm, ?_, fun hnil => ?_⟩
  · simp only [List.length_take]
    omega
  · rw [List.take_eq_nil_iff] at hnil
    rcases hnil with hk | hrest
    · exact .inl (by omega)
    · exact .inr hrest

/-- When buf is full without a newline there is no other line. -/
theorem split_full {cur rest : List UInt8} (hcur : NEWLINE ∉ cur) (hfull : BUFSIZE ≤ cur.length + 1)
    (hlines : ∀ l ∈ (Lines.split NEWLINE (cur ++ rest)).1, l.length + 1 < BUFSIZE) :
    (Lines.split NEWLINE (cur ++ rest)).1 = [] := by
  by_cases hn : NEWLINE ∈ rest
  · obtain ⟨l, rest, rfl, hl⟩ := List.eq_append_cons_of_mem hn
    rw [← List.append_assoc, Lines.split_cons (by simp [hcur, hl])] at hlines
    have hlen := hlines (cur ++ l) List.mem_cons_self
    rw [List.length_append] at hlen
    omega
  · rw [Lines.split_piece (by simp [hcur, hn])]

/-- The loop from any state: `cur` is the unfinished line in buf. -/
theorem grepLoop_writes {fuel : Nat} {cur junk : List UInt8} {inp : Input} (out : List (List UInt8)) (hfuel : inp.rest.length < fuel)
    (hcur : NEWLINE ∉ cur) (h0 : 0 ∉ cur ++ inp.rest) (hbuf : (cur ++ junk).length = BUFSIZE) (hm : cur.length < BUFSIZE)
    (hlines : ∀ l ∈ (Lines.split NEWLINE (cur ++ inp.rest)).1, l.length + 1 < BUFSIZE) :
    grepLoop pattern fuel (cur ++ junk) cur.length inp out = some (out ++ output pattern (Lines.split NEWLINE (cur ++ inp.rest)).1) := by
  induction fuel generalizing cur junk inp out with
  | zero => omega
  | succ fuel ih =>
    obtain ⟨bs, inp', hread⟩ : ∃ bs inp', inp.read (BUFSIZE - cur.length - 1) = (bs, inp') := ⟨_, _, rfl⟩
    obtain ⟨hrest, hroom, hend⟩ := Input.read_spec hread
    by_cases hbs : bs = []
    · have hnone : (Lines.split NEWLINE (cur ++ inp.rest)).1 = [] := by
        rcases hend hbs with hfull | hnil
        · exact split_full hcur (by omega) hlines
        · rw [hnil, List.append_nil, Lines.split_piece hcur]
      rw [grepLoop, hread, hnone]
      simp [hbs, output]
    · have hpos := List.length_pos_iff.mpr hbs
      rw [hrest, ← List.append_assoc] at h0 hlines ⊢
      rw [hrest, List.length_append] at hfuel
      obtain ⟨junk', hbuf', hrun⟩ := grepLoop_chunk out hread hbs (fun h => h0 (List.mem_append_left _ h)) hbuf hroom
      have hsuffix := Lines.rest_suffix NEWLINE (cur ++ bs)
      have hlen := hsuffix.length_le
      rw [List.length_append] at hlen
      rw [Lines.split_append] at hlines ⊢
      rw [hrun, ih _ (by omega) (Lines.notMem_rest _ _) _ hbuf' (by omega) fun l hl => hlines l (List.mem_append_right _ hl),
        List.append_assoc, output_append]
      intro h
      rcases List.mem_append.mp h with h | h
      · exact h0 (List.mem_append_left _ (hsuffix.subset h))
      · exact h0 (List.mem_append_right _ h)

/-- Whatever the sizes in which read() gives the input, grep() writes the lines that match, each whole, and stays inside buf. The
last line needs no bound if no newline ends it. -/
theorem grep_writes_matching_lines (pattern buf : List UInt8) (inp : Input) (hbuf : buf.length = BUFSIZE) (h0 : 0 ∉ inp.rest)
    (hlines : ∀ l ∈ (Lines.split NEWLINE inp.rest).1, l.length + 1 ≤ 1023) :
    grep pattern buf inp = some (((Lines.split NEWLINE inp.rest).1.filter (matchText pattern)).map (· ++ [NEWLINE])) :=
  grepLoop_writes [] (Nat.lt_succ_self _) List.not_mem_nil h0 hbuf (by decide) fun l hl => Nat.lt_succ_of_le (hlines l hl)

theorem grep_two_chunks : grep [97] (List.replicate BUFSIZE 0) ⟨[98, 97, 10, 98, 10, 97, 10, 97], [2, 3]⟩ = some [[98, 97, 10], [97, 10]] := by
  rw [grep_writes_matching_lines _ _ _ List.length_replicate (by decide) (by decide)]
  decide

end Grep

end Xv6
