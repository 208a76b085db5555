import Xv6.SortCmd
import Xv6.Lib.Lines

namespace Xv6

namespace LineReader

/-- The lines in `done` are stored and `cur` is being read; `content₀` is what the array was. -/
structure Filled (content₀ content : Content) (done : List (List UInt8)) (cur : List UInt8) : Prop where
  rows : content.length = MAXLINES
  width : ∀ row ∈ content, row.length = MAXLEN
  stored : ∀ (k : Nat) (l : List UInt8), done[k]? = some l → ∃ tail, content[k]? = some (l.take (MAXLEN - 1) ++ 0 :: tail)
  reading : done.length < MAXLINES → ∃ tail, content[done.length]? = some (cur.take (MAXLEN - 1) ++ tail)
  kept : ∀ k : Nat, done.length < k ∨ done.length = k ∧ cur = [] → content[k]? = content₀[k]?

variable {content₀ content : Content} {done : List (List UInt8)} {cur : List UInt8} {c : UInt8}

theorem store_at {pre tail : List UInt8} {x : UInt8} {i : Nat} (hrow : content[i]? = some (pre ++ x :: tail)) (c : UInt8) :
    store content i pre.length c = some (content.set i (pre ++ c :: tail)) := by
  obtain ⟨hi, -⟩ := List.getElem?_eq_some_iff.mp hrow
  rw [store, hrow]
  simp only [Option.bind_eq_bind, Option.bind_some, Buffer.write_at, Buffer.write_some hi]

theorem Filled.next_cell (h : Filled content₀ content done cur) (hi : done.length < MAXLINES) :
    ∃ x tail, content[done.length]? = some (cur.take (MAXLEN - 1) ++ x :: tail) := by
  obtain ⟨tail, hrow⟩ := h.reading hi
  have hwidth := h.width _ (List.mem_of_getElem? hrow)
  cases tail with
  | nil =>
    rw [List.append_nil, List.length_take] at hwidth
    exact absurd hwidth (Nat.ne_of_lt (Nat.lt_of_le_of_lt (Nat.min_le_left _ _) (by decide)))
  | cons x tail => exact ⟨x, tail, hrow⟩

/-- A write to the row being read keeps the shape and the other rows. -/
theorem Filled.width_set {row : List UInt8} {i : Nat} (h : Filled content₀ content done cur) (hrow : row.length = MAXLEN) :
    ∀ r ∈ content.set i row, r.length = MAXLEN := by
  intro r hr
  rcases List.mem_or_eq_of_mem_set hr with hr | rfl
  · exact h.width r hr
  · exact hrow

/-- A newline ends the line. -/
theorem Filled.newline (h : Filled content₀ content done cur) (hi : done.length < MAXLINES) :
    ∃ content', store content done.length (min (MAXLEN - 1) cur.length) 0 = some content' ∧
      Filled content₀ content' (done ++ [cur]) [] := by
  obtain ⟨x, tail, hrow⟩ := h.next_cell hi
  have hwidth := h.width _ (List.mem_of_getElem? hrow)
  have hstore := store_at hrow 0
  rw [List.length_take] at hstore
  refine ⟨_, hstore, by rw [List.length_set, h.rows], h.width_set (by simpa using hwidth), fun k l hk => ?_, fun hlt => ?_,
    fun k hk => ?_⟩
  · rcases Nat.lt_trichotomy k done.length with hlt | rfl | hgt
    · rw [List.getElem?_append_left hlt] at hk
      rw [List.getElem?_set_ne (by omega)]
      exact h.stored k l hk
    · rw [List.getElem?_concat_length] at hk
      cases hk
      exact ⟨tail, List.getElem?_set_self (h.rows ▸ hi)⟩
    · rw [List.getElem?_eq_none (by simp; omega)] at hk
      cases hk
  · have hlt' : (done ++ [cur]).length < (content.set done.length (cur.take (MAXLEN - 1) ++ 0 :: tail)).length := by
      rwa [List.length_set, h.rows]
    exact ⟨_, List.getElem?_eq_getElem hlt'⟩
  · rw [List.length_append, List.length_singleton] at hk
    rw [List.getElem?_set_ne (by omega), h.kept k (by omega)]

/-- Any other byte goes to the line, if there is room. -/
theorem Filled.byte (h : Filled content₀ content done cur) (hi : done.length < MAXLINES) (hroom : cur.length < MAXLEN - 1) (c : UInt8) :
    ∃ content', store content done.length cur.length c = some content' ∧ Filled content₀ content' done (cur ++ [c]) := by
  obtain ⟨x, tail, hrow⟩ := h.next_cell hi
  rw [List.take_of_length_le (by omega)] at hrow
  have hwidth := h.width _ (List.mem_of_getElem? hrow)
  refine ⟨_, store_at hrow c, by rw [List.length_set, h.rows], h.width_set (by simpa using hwidth), fun k l hk => ?_,
    fun _ => ⟨tail, ?_⟩, fun k hk => ?_⟩
  · obtain ⟨hlt, -⟩ := List.getElem?_eq_some_iff.mp hk
    rw [List.getElem?_set_ne (by omega)]
    exact h.stored k l hk
  · rw [List.getElem?_set_self (h.rows ▸ hi), List.take_of_length_le (by rw [List.length_append]; exact hroom)]
    simp
  · have hk : done.length < k := by simpa using hk
    rw [List.getElem?_set_ne (by omega), h.kept k (.inl hk)]

theorem Filled.cut (h : Filled content₀ content done cur) (hfull : MAXLEN - 1 ≤ cur.length) (c : UInt8) :
    Filled content₀ content done (cur ++ [c]) where
  rows := h.rows
  width := h.width
  stored := h.stored
  reading hi := by
    rw [List.take_append_of_le_length hfull]
    exact h.reading hi
  kept k hk := h.kept k (by simpa using Or.inl hk)

variable {σ : Type} {next : Nat → σ → Option σ} {I : Nat → σ → Prop}

/-- The state at the end of the loop: `ls` are the lines that a newline ends and `r` is what follows them. -/
inductive Stopped (content₀ : Content) (I : Nat → σ → Prop) (ls : List (List UInt8)) (r : List UInt8) : Content × Nat × Nat × σ → Prop
  | atEnd {content s} (h : Filled content₀ content ls r) (hi : ls.length < MAXLINES) (hs : I ls.length s) :
    Stopped content₀ I ls r (content, ls.length, min (MAXLEN - 1) r.length, s)
  | full {content s done l rest} (h : Filled content₀ content (done ++ [l]) []) (hls : ls = done ++ l :: rest)
    (hi : done.length + 1 = MAXLINES) (hs : I done.length s) : Stopped content₀ I ls r (content, MAXLINES, min (MAXLEN - 1) l.length, s)

theorem readLoop_stops (hnext : ∀ i s, I i s → i + 1 < MAXLINES → ∃ s', next (i + 1) s = some s' ∧ I (i + 1) s')
    (input : List UInt8) {s : σ} (h : Filled content₀ content done cur) (hi : done.length < MAXLINES) (hs : I done.length s) :
    ∃ out, readLoop next input content done.length (min (MAXLEN - 1) cur.length) s = some out ∧
      Stopped content₀ I (input.foldl (Lines.step NEWLINE) (done, cur)).1 (input.foldl (Lines.step NEWLINE) (done, cur)).2 out := by
  induction input generalizing content done cur s with
  | nil => exact ⟨_, rfl, .atEnd h hi hs⟩
  | cons buf input ih =>
    rw [readLoop, List.foldl_cons]
    by_cases hbuf : buf = NEWLINE
    · obtain ⟨content', hstore, h'⟩ := h.newline hi
      rw [if_pos hbuf, hstore]
      rw [show Lines.step NEWLINE (done, cur) buf = (done ++ [cur], []) by simp [Lines.step, hbuf]]
      by_cases hlast : done.length + 1 ≥ MAXLINES
      · refine ⟨_, if_pos hlast, ?_⟩
        rw [Lines.foldl_step]
        rw [show done.length + 1 = MAXLINES by omega]
        exact .full h' (List.append_assoc done [cur] _) (by omega) hs
      · obtain ⟨s', hrun, hs'⟩ := hnext _ s hs (by omega)
        have hlen : done.length + 1 = (done ++ [cur]).length := by simp
        rw [hlen] at hs' hrun hlast ⊢
        obtain ⟨out, hloop, hstop⟩ := ih h' (by omega) hs'
        refine ⟨out, ?_, hstop⟩
        simp only [Option.bind_eq_bind, Option.bind_some, if_neg hlast, hrun]
        exact hloop
    · rw [if_neg hbuf, show Lines.step NEWLINE (done, cur) buf = (done, cur ++ [buf]) by simp [Lines.step, hbuf]]
      by_cases hroom : cur.length < MAXLEN - 1
      · obtain ⟨content', hstore, h'⟩ := h.byte hi hroom buf
        obtain ⟨out, hloop, hstop⟩ := ih h' hi hs
        refine ⟨out, ?_, hstop⟩
        rw [Nat.min_eq_right (by omega), if_pos hroom, hstore]
        rwa [List.length_append, List.length_singleton, Nat.min_eq_right (by omega)] at hloop
      · obtain ⟨out, hloop, hstop⟩ := ih (h.cut (by omega) buf) hi hs
        refine ⟨out, ?_, hstop⟩
        rw [Nat.min_eq_left (by omega), if_neg (Nat.lt_irrefl _)]
        rwa [List.length_append, List.length_singleton, Nat.min_eq_left (by omega)] at hloop

/-- The first lines of the input are in content, each cut to fit, and the other rows are as they were. -/
structure Stored (content₀ content : Content) (input : List UInt8) : Prop where
  rows : content.length = MAXLINES
  width : ∀ row ∈ content, row.length = MAXLEN
  lines : ∀ (k : Nat) (l : List UInt8), k < MAXLINES → (Lines.pieces NEWLINE input)[k]? = some l →
    ∃ tail, content[k]? = some (l.take (MAXLEN - 1) ++ 0 :: tail)
  others : ∀ k : Nat, min MAXLINES (Lines.pieces NEWLINE input).length ≤ k → content[k]? = content₀[k]?

/-- Line MAXLINES is not empty and a newline ends it. -/
def Overruns (input : List UInt8) : Prop := ∃ l, (Lines.split NEWLINE input).1[MAXLINES - 1]? = some l ∧ l ≠ []

/-- The array has its size. -/
structure Sized (content : Content) : Prop where
  rows : content.length = MAXLINES
  width : ∀ row ∈ content, row.length = MAXLEN

theorem Sized.filled (h : Sized content) : Filled content content [] [] where
  rows := h.rows
  width := h.width
  stored k l hk := by simp at hk
  reading hi := ⟨_, List.getElem?_eq_getElem (h.rows ▸ hi)⟩
  kept k _ := rfl

/-- All lines are in content, or as many as there is room for. -/
theorem Filled.all {input : List UInt8} {more : List (List UInt8)} (h : Filled content₀ content done [])
    (hlines : Lines.pieces NEWLINE input = done ++ more) (hi : done.length ≤ MAXLINES) (hmore : more = [] ∨ done.length = MAXLINES) :
    min MAXLINES (Lines.pieces NEWLINE input).length = done.length ∧ Stored content₀ content input := by
  have hmin : min MAXLINES (Lines.pieces NEWLINE input).length = done.length := by
    rw [hlines, List.length_append]
    rcases hmore with rfl | hfull
    · rw [List.length_nil]
      omega
    · omega
  refine ⟨hmin, h.rows, h.width, fun k l hk hl => h.stored k l ?_, fun k hk => h.kept k (by simp; omega)⟩
  obtain ⟨hlt, -⟩ := List.getElem?_eq_some_iff.mp hl
  rwa [hlines, List.getElem?_append_left (by omega)] at hl

/-- What the reader leaves when it stays inside the array. -/
def Reads (next : Nat → σ → Option σ) (I : Nat → σ → Prop) (content : Content) (s : σ) (input : List UInt8) : Prop :=
  ∃ content' s' i, readInput next content s input = some (content', min MAXLINES (Lines.pieces NEWLINE input).length, s') ∧
    Stored content content' input ∧ I i s' ∧ min MAXLINES (Lines.pieces NEWLINE input).length ≤ i + 1

theorem readInput_cases (hnext : ∀ i s, I i s → i + 1 < MAXLINES → ∃ s', next (i + 1) s = some s' ∧ I (i + 1) s')
    (h : Sized content) (input : List UInt8) {s : σ} (hs : I 0 s) :
    ¬Overruns input ∧ Reads next I content s input ∨ Overruns input ∧ readInput next content s input = none := by
  obtain ⟨out, hloop, hstop⟩ := readLoop_stops hnext input h.filled (by decide) hs
  rw [show min (MAXLEN - 1) ([] : List UInt8).length = 0 from rfl, List.length_nil] at hloop
  rw [← Lines.split] at hstop
  rw [Reads, readInput, hloop]
  cases hstop with
  | @atEnd content' s' hf hi hs' =>
    have hnot : ¬Overruns input := by
      rintro ⟨l, hl, -⟩
      obtain ⟨hlt, -⟩ := List.getElem?_eq_some_iff.mp hl
      omega
    refine .inl ⟨hnot, ?_⟩
    by_cases hr : (Lines.split NEWLINE input).2 = []
    · have hlines : Lines.pieces NEWLINE input = (Lines.split NEWLINE input).1 ++ [] := by rw [Lines.pieces, if_pos hr]
      obtain ⟨hmin, hall⟩ := (hr ▸ hf).all hlines (by omega) (.inl rfl)
      refine ⟨content', s', _, ?_, hall, hs', by omega⟩
      rw [hmin, hr]
      rfl
    · obtain ⟨content'', hstore, hf'⟩ := hf.newline hi
      have hlines : Lines.pieces NEWLINE input = ((Lines.split NEWLINE input).1 ++ [(Lines.split NEWLINE input).2]) ++ [] := by
        rw [Lines.pieces, if_neg hr, List.append_nil]
      obtain ⟨hmin, hall⟩ := hf'.all hlines (by simp; omega) (.inl rfl)
      have hpos := List.length_pos_iff.mpr hr
      rw [List.length_append, List.length_singleton] at hmin
      refine ⟨content'', s', _, ?_, hall, hs', by omega⟩
      rw [hmin]
      simp only [Option.bind_eq_bind, Option.bind_some]
      rw [if_pos (Nat.lt_min.mpr ⟨by decide, hpos⟩), hstore]
      rfl
  | @full content' s' done l rest hf hls hi hs' =>
    have hlast : (Lines.split NEWLINE input).1[MAXLINES - 1]? = some l := by
      rw [hls, ← hi, Nat.add_sub_cancel, List.getElem?_append_right (Nat.le_refl _), Nat.sub_self]
      rfl
    simp only [Option.bind_eq_bind, Option.bind_some]
    by_cases hl : l = []
    · have hnot : ¬Overruns input := by
        rintro ⟨l', hl', hne⟩
        rw [hlast] at hl'
        cases hl'
        exact hne hl
      have hlines : Lines.pieces NEWLINE input = done ++ [l] ++ (rest ++ if (Lines.split NEWLINE input).2 = [] then [] else [(Lines.split NEWLINE input).2]) := by
        rw [Lines.pieces, hls]
        simp
      have hlen : (done ++ [l]).length = MAXLINES := by simpa using hi
      obtain ⟨hmin, hall⟩ := hf.all hlines (Nat.le_of_eq hlen) (.inr hlen)
      refine .inl ⟨hnot, content', s', done.length, ?_, hall, hs', by omega⟩
      rw [hmin, hlen, hl]
      rfl
    · refine .inr ⟨⟨l, hlast, hl⟩, ?_⟩
      have hpos := List.length_pos_iff.mpr hl
      have hnone : content'[MAXLINES]? = none := List.getElem?_eq_none (Nat.le_of_eq hf.rows)
      rw [if_pos (Nat.lt_min.mpr ⟨by decide, hpos⟩), store, hnone]
      rfl

theorem reads_iff (hnext : ∀ i s, I i s → i + 1 < MAXLINES → ∃ s', next (i + 1) s = some s' ∧ I (i + 1) s')
    (h : Sized content) (input : List UInt8) {s : σ} (hs : I 0 s) : Reads next I content s input ↔ ¬Overruns input := by
  rcases readInput_cases hnext h input hs with ⟨hnot, hreads⟩ | ⟨hover, hnone⟩
  · exact iff_of_true hreads hnot
  · refine iff_of_false ?_ (not_not_intro hover)
    rintro ⟨_, _, _, hrun, -⟩
    rw [hnone] at hrun
    cases hrun


end LineReader

open LineReader

namespace Head

theorem readlines_iff {content : Content} (h : Sized content) (input : List UInt8) :
    (∃ content', readlines content input = some (content', min MAXLINES (Lines.pieces NEWLINE input).length) ∧ Stored content content' input) ↔
      ¬Overruns input := by
  rw [← @reads_iff content Unit (fun _ s => some s) (fun _ _ => True) (fun _ s _ _ => ⟨s, rfl, trivial⟩) h input () trivial]
  constructor
  · rintro ⟨content', hrun, hstored⟩
    simp only [readlines, Option.bind_eq_bind, Option.bind_eq_some_iff] at hrun
    obtain ⟨⟨content'', n, s⟩, hread, hout⟩ := hrun
    cases hout
    exact ⟨_, s, MAXLINES, hread, hstored, trivial, by omega⟩
  · rintro ⟨content', s, i, hread, hstored, -⟩
    exact ⟨content', by simp [readlines, hread], hstored⟩

end Head

namespace SortCmd

/-- The pointers that are set when line `i` is being read. -/
def Pointers (i : Nat) (lines : List (Option Nat)) : Prop := lines.length = MAXLINES ∧ ∀ k ≤ i, lines[k]? = some (some k)

theorem Pointers.set {i : Nat} {lines : List (Option Nat)} (hlen : lines.length = MAXLINES) (h : ∀ k < i, lines[k]? = some (some k))
    (hi : i < MAXLINES) : ∃ lines', Buffer.write lines i (some i) = some lines' ∧ Pointers i lines' := by
  refine ⟨_, Buffer.write_some (by omega), by rw [List.length_set, hlen], fun k hk => ?_⟩
  rcases Nat.lt_or_eq_of_le hk with hk | rfl
  · rw [List.getElem?_set_ne (by omega), h k hk]
  · exact List.getElem?_set_self (by omega)

theorem readlines_iff {content : Content} {lines : List (Option Nat)} (h : Sized content) (hlines : lines.length = MAXLINES) (input : List UInt8) :
    (∃ content' lines', readlines content lines input = some (content', min MAXLINES (Lines.pieces NEWLINE input).length, lines') ∧
      Stored content content' input ∧ ∀ k < min MAXLINES (Lines.pieces NEWLINE input).length, lines'[k]? = some (some k)) ↔ ¬Overruns input := by
  obtain ⟨lines₀, hwrite, h₀⟩ := @Pointers.set 0 lines hlines (fun _ hk => absurd hk (Nat.not_lt_zero _)) (by decide)
  have hnext (i : Nat) (lines : List (Option Nat)) (hi : Pointers i lines) (hlt : i + 1 < MAXLINES) :=
    Pointers.set hi.1 (fun k hk => hi.2 k (Nat.le_of_lt_succ hk)) hlt
  have hread : readlines content lines input = readInput (fun i lines => Buffer.write lines i (some i)) content lines₀ input := by
    rw [readlines, hwrite]
    rfl
  rw [hread]
  rcases @readInput_cases content _ (fun i lines => Buffer.write lines i (some i)) Pointers hnext h input lines₀ h₀ with ⟨hnot, content', lines', i, hrun, hstored, hi, hle⟩ | ⟨hover, hnone⟩
  · exact iff_of_true ⟨content', lines', hrun, hstored, fun k hk => hi.2 k (by omega)⟩ hnot
  · refine iff_of_false ?_ (not_not_intro hover)
    rintro ⟨_, _, hrun, -⟩
    rw [hnone] at hrun
    cases hrun

end SortCmd

namespace LineReader

/-- Where the three readers do what they are for: they do unless line MAXLINES is not empty and a newline ends it. They then store a
0 in row MAXLINES. -/
theorem readers_store_iff (content : Content) (lines : List (Option Nat)) (input : List UInt8) (hcontent : Sized content)
    (hlines : lines.length = MAXLINES) :
    ((∃ content', Head.readlines content input = some (content', min MAXLINES (Lines.pieces NEWLINE input).length) ∧
        Stored content content' input) ↔ ¬Overruns input) ∧
    ((∃ content', Tail.readlines content input = some (content', min MAXLINES (Lines.pieces NEWLINE input).length) ∧
        Stored content content' input) ↔ ¬Overruns input) ∧
    ((∃ content' lines', SortCmd.readlines content lines input = some (content', min MAXLINES (Lines.pieces NEWLINE input).length, lines') ∧
        Stored content content' input ∧ ∀ k < min MAXLINES (Lines.pieces NEWLINE input).length, lines'[k]? = some (some k)) ↔ ¬Overruns input) :=
  ⟨Head.readlines_iff hcontent input, Head.readlines_iff hcontent input, SortCmd.readlines_iff hcontent hlines input⟩

/-- The arrays as they are at the start. -/
def blank : Content := List.replicate MAXLINES (List.replicate MAXLEN 0)

theorem sized_blank : Sized blank :=
  ⟨List.length_replicate, fun row hrow => by rw [List.eq_of_mem_replicate hrow, List.length_replicate]⟩

/-- One line without a newline. -/
theorem head_one_line : ∃ content', Head.readlines blank [97] = some (content', 1) ∧ Stored blank content' [97] := by
  refine (readers_store_iff blank (List.replicate MAXLINES none) [97] sized_blank List.length_replicate).1.mpr ?_
  rintro ⟨l, hl, -⟩
  cases hl

/-- MAXLINES lines of one byte each. -/
def aLines : List UInt8 := ((List.replicate MAXLINES [97]).map (· ++ [NEWLINE])).flatten

theorem overruns_aLines : Overruns aLines := by
  refine ⟨[97], ?_, by decide⟩
  rw [aLines, Lines.split_lines fun l hl => by rw [List.eq_of_mem_replicate hl]; decide]
  exact List.getElem?_replicate_of_lt (by decide)

/-- head indexes row MAXLINES. -/
theorem head_outside_content : Head.readlines blank aLines = none := by
  rcases @readInput_cases blank Unit (fun _ s => some s) (fun _ _ => True) (fun _ s _ _ => ⟨s, rfl, trivial⟩) sized_blank aLines () trivial with
    ⟨hnot, -⟩ | ⟨-, hnone⟩
  · exact absurd overruns_aLines hnot
  · rw [Head.readlines, hnone]
    rfl

end LineReader

end Xv6
