import Xv6.Sh
import Xv6.Proofs.Ulib

namespace Xv6.Sh

/- The tokens of a line. -/

inductive Tok where
  | bar | lpar | rpar | semi | amp | less | greater | append
  | word (q eq : Nat)
  deriving DecidableEq

/-- The symbols that are a token whatever follows. -/
def single (c : UInt8) : Option Tok :=
  if c = BAR then some .bar
  else if c = LPAR then some .lpar
  else if c = RPAR then some .rpar
  else if c = SEMI then some .semi
  else if c = AMP then some .amp
  else if c = LESS then some .less
  else none

/-- `Lexes xs s ts`: `ts` are the tokens of `xs`, where `s` is the index of its first byte. A word is as long as it can be. -/
inductive Lexes : List UInt8 → Nat → List Tok → Prop where
  | nil {s : Nat} : Lexes [] s []
  | space {c : UInt8} {xs : List UInt8} {s : Nat} {ts : List Tok} (hc : isSpace c = true) (h : Lexes xs (s + 1) ts) : Lexes (c :: xs) s ts
  | single {c : UInt8} {t : Tok} {xs : List UInt8} {s : Nat} {ts : List Tok} (hc : single c = some t) (h : Lexes xs (s + 1) ts) :
    Lexes (c :: xs) s (t :: ts)
  | greater {xs : List UInt8} {s : Nat} {ts : List Tok} (hx : xs.head? ≠ some GREATER) (h : Lexes xs (s + 1) ts) :
    Lexes (GREATER :: xs) s (.greater :: ts)
  | append {xs : List UInt8} {s : Nat} {ts : List Tok} (h : Lexes xs (s + 2) ts) : Lexes (GREATER :: GREATER :: xs) s (.append :: ts)
  | word {w xs : List UInt8} {s : Nat} {ts : List Tok} (hne : w ≠ []) (hw : ∀ c ∈ w, isOrdinary c = true)
    (hx : ∀ c ∈ xs.head?, isOrdinary c = false) (h : Lexes xs (s + w.length) ts) : Lexes (w ++ xs) s (.word s (s + w.length) :: ts)

/-- What gettoken() answers. -/
def Tok.ret : Tok → UInt8
  | .bar => BAR
  | .lpar => LPAR
  | .rpar => RPAR
  | .semi => SEMI
  | .amp => AMP
  | .less => LESS
  | .greater => GREATER
  | .append => PLUS
  | .word _ _ => WORD

/-- The symbol that the token begins with. -/
def Tok.symbol : Tok → Option UInt8
  | .append => some GREATER
  | .word _ _ => none
  | t => some t.ret

/- Bytes -/

variable {c : UInt8} {t : Tok}

theorem single_some (h : single c = some t) :
    t.ret = c ∧ t.symbol = some c ∧ (c = BAR ∨ c = LPAR ∨ c = RPAR ∨ c = SEMI ∨ c = AMP ∨ c = LESS) := by
  have hc : c = BAR ∨ c = LPAR ∨ c = RPAR ∨ c = SEMI ∨ c = AMP ∨ c = LESS := by
    by_contra hnot
    simp only [not_or] at hnot
    simp [single, hnot] at h
  refine ⟨?_, ?_, hc⟩ <;> rcases hc with rfl | rfl | rfl | rfl | rfl | rfl <;> cases h <;> rfl

theorem exists_single (h : c = BAR ∨ c = LPAR ∨ c = RPAR ∨ c = SEMI ∨ c = AMP ∨ c = LESS) : ∃ t, single c = some t := by
  rcases h with rfl | rfl | rfl | rfl | rfl | rfl <;> exact ⟨_, rfl⟩

/-- The first token begins with one of the symbols `toks`. -/
def starts (toks : List UInt8) (ts : List Tok) : Bool := (ts.head?.bind Tok.symbol).any toks.contains

/-- Every byte is space, a symbol or a byte of a word. -/
theorem byte_cases (c : UInt8) : isSpace c = true ∨ (∃ t, single c = some t) ∨ c = GREATER ∨ isOrdinary c = true := by
  by_cases hspace : isSpace c = true
  · exact .inl hspace
  · by_cases hsym : c ∈ symbols
    · simp only [symbols, List.mem_cons, List.not_mem_nil, or_false] at hsym
      by_cases hgreater : c = GREATER
      · exact .inr (.inr (.inl hgreater))
      · exact .inr (.inl (exists_single (by tauto)))
    · exact .inr (.inr (.inr (by simp_all [isOrdinary, isSpace])))

theorem single_ordinary (h : single c = some t) : isOrdinary c = false ∧ isSpace c = false ∧ c ≠ 0 := by
  rcases (single_some h).2.2 with rfl | rfl | rfl | rfl | rfl | rfl <;> decide

theorem ordinary_symbol (h : isOrdinary c = true) : c ∉ symbols := by
  simp only [isOrdinary, Bool.and_eq_true, Bool.not_eq_true', List.contains_eq_mem, decide_eq_false_iff_not] at h
  exact h.2

/- Tokens -/

variable {xs : List UInt8} {s : Nat} {ts : List Tok}

theorem head_dropWhile (p : UInt8 → Bool) (xs : List UInt8) : ∀ c ∈ (xs.dropWhile p).head?, p c = false := by
  intro c hc
  have h := List.head?_dropWhile_not p xs
  rwa [Option.mem_def.mp hc] at h

/-- Every line has tokens. -/
theorem exists_lexes (xs : List UInt8) (s : Nat) : ∃ ts, Lexes xs s ts := by
  generalize hn : xs.length = n
  induction n using Nat.strongRecOn generalizing xs s with
  | _ n ih =>
    cases xs with
    | nil => exact ⟨[], .nil⟩
    | cons c xs =>
      rw [List.length_cons] at hn
      obtain ⟨ts, hts⟩ := ih xs.length (by omega) xs (s + 1) rfl
      rcases byte_cases c with hspace | ⟨t, hsingle⟩ | rfl | hword
      · exact ⟨ts, .space hspace hts⟩
      · exact ⟨t :: ts, .single hsingle hts⟩
      · cases xs with
        | nil => exact ⟨_, .greater (by simp) hts⟩
        | cons c xs =>
          by_cases hc : c = GREATER
          · obtain ⟨ts, hts⟩ := ih xs.length (by rw [List.length_cons] at hn; omega) xs (s + 2) rfl
            rw [hc]
            exact ⟨_, .append hts⟩
          · exact ⟨_, .greater (by simpa using hc) hts⟩
      · have hcut := List.takeWhile_append_dropWhile (p := isOrdinary) (l := c :: xs)
        have hne : (c :: xs).takeWhile isOrdinary ≠ [] := by simp [hword]
        have hlen := congrArg List.length hcut
        rw [List.length_append, List.length_cons] at hlen
        have hpos := List.length_pos_iff.mpr hne
        obtain ⟨ts, hts⟩ := ih ((c :: xs).dropWhile isOrdinary).length (by omega) ((c :: xs).dropWhile isOrdinary)
          (s + ((c :: xs).takeWhile isOrdinary).length) rfl
        rw [← hcut]
        exact ⟨_, .word hne (List.all_eq_true.mp List.all_takeWhile) (head_dropWhile isOrdinary (c :: xs)) hts⟩

theorem Lexes.length_le (h : Lexes xs s ts) : ts.length ≤ xs.length := by
  induction h with
  | nil => exact Nat.le_refl _
  | space _ _ ih | single _ _ ih | greater _ _ ih | append _ ih =>
    simp only [List.length_cons]
    omega
  | word hne _ _ _ ih =>
    have hpos := List.length_pos_iff.mpr hne
    simp only [List.length_cons, List.length_append]
    omega

theorem Lexes.skip_none (h : Lexes xs s ts) (hc : ∀ c ∈ xs.head?, isSpace c = false) :
    Lexes (xs.dropWhile isSpace) (s + (xs.takeWhile isSpace).length) ts := by
  cases xs with
  | nil => exact h
  | cons c xs =>
    have hc := Bool.eq_false_iff.mp (hc c rfl)
    rwa [List.dropWhile_cons_of_neg hc, List.takeWhile_cons_of_neg hc]

/-- White space in front is skipped. -/
theorem Lexes.skip (h : Lexes xs s ts) : Lexes (xs.dropWhile isSpace) (s + (xs.takeWhile isSpace).length) ts := by
  induction h with
  | nil => exact .nil
  | space hc _ ih =>
    rw [List.dropWhile_cons_of_pos hc, List.takeWhile_cons_of_pos hc, List.length_cons, Nat.add_comm _ 1, ← Nat.add_assoc]
    exact ih
  | single hc h _ => exact (Lexes.single hc h).skip_none (by simpa using (single_ordinary hc).2.1)
  | greater hx h _ => exact (Lexes.greater hx h).skip_none (by simp; decide)
  | append h _ => exact (Lexes.append h).skip_none (by simp; decide)
  | @word w xs s ts hne hw hx h _ =>
    refine (Lexes.word hne hw hx h).skip_none fun c hc => ?_
    obtain ⟨c', w, rfl⟩ := List.exists_cons_of_ne_nil hne
    cases hc
    have hord := hw c List.mem_cons_self
    simp only [isOrdinary, Bool.and_eq_true, Bool.not_eq_true'] at hord
    exact hord.1

/-- The parser is at byte `s` of the line, and `ts` are the tokens from there on. -/
structure At (line : List UInt8) (s : Nat) (ts : List Tok) : Prop where
  le : s ≤ line.length
  lexes : Lexes (line.drop s) s ts

@[simp] theorem ok_bind {α β : Type} (x : α) (f : α → Except Failure β) : ((.ok x : Except Failure α) >>= f) = f x := rfl

/- The scanner. The array has the line, a 0, and whatever follows. -/

section Scanner

variable {line post : List UInt8} {p : UInt8 → Bool}

theorem load_at (h : s < line.length) : load (line ++ 0 :: post) s = .ok (line)[s] := by
  rw [load, List.getElem?_append_left h, List.getElem?_eq_getElem h]

theorem load_end : load (line ++ 0 :: post) line.length = .ok 0 := by
  rw [load, List.getElem?_append_right (Nat.le_refl _), Nat.sub_self]
  rfl

theorem At.length_le (h : At line s ts) : ts.length ≤ line.length := by
  have hlen := h.lexes.length_le
  rw [List.length_drop] at hlen
  omega

theorem advanceWhile_eq {fuel : Nat} (hs : s ≤ line.length) (hfuel : line.length - s < fuel) :
    advanceWhile (line ++ 0 :: post) line.length p fuel s = .ok (s + ((line.drop s).takeWhile p).length) := by
  induction fuel generalizing s with
  | zero => omega
  | succ fuel ih =>
    rw [advanceWhile]
    by_cases hlt : s < line.length
    · rw [if_pos hlt, load_at hlt, List.drop_eq_getElem_cons hlt]
      rw [ok_bind]
      by_cases hp : p (line)[s] = true
      · rw [if_pos hp, next, if_pos hlt, ok_bind, ih (by omega) (by omega), List.takeWhile_cons_of_pos hp, List.length_cons,
          Nat.add_assoc, Nat.add_comm 1]
      · rw [if_neg hp, List.takeWhile_cons_of_neg hp]
        rfl
    · rw [if_neg hlt, List.drop_eq_nil_of_le (by omega)]
      rfl

theorem drop_takeWhile (hs : s ≤ line.length) (p : UInt8 → Bool) :
    s + ((line.drop s).takeWhile p).length ≤ line.length ∧ line.drop (s + ((line.drop s).takeWhile p).length) = (line.drop s).dropWhile p := by
  have hcut := List.takeWhile_append_dropWhile (p := p) (l := line.drop s)
  have hlen := congrArg List.length hcut
  rw [List.length_append, List.length_drop] at hlen
  refine ⟨by omega, ?_⟩
  rw [← List.drop_drop]
  nth_rewrite 2 [← hcut]
  exact List.drop_left

/-- skipSpace() goes to the next token. -/
theorem skipSpace_at (h : At line s ts) :
    ∃ s', skipSpace (line ++ 0 :: post) line.length s = .ok s' ∧ At line s' ts ∧ s ≤ s' ∧ ∀ c ∈ (line.drop s').head?, isSpace c = false := by
  obtain ⟨hle, hdrop⟩ := drop_takeWhile h.le isSpace
  refine ⟨_, advanceWhile_eq h.le (by have := h.le; omega), ⟨hle, ?_⟩, Nat.le_add_right _ _, ?_⟩
  · rw [hdrop]
    exact h.lexes.skip
  · rw [hdrop]
    exact head_dropWhile isSpace _

/-- What gettoken() answers for a token of the line. -/
def Tok.Spans (q eq : Nat) : Tok → Prop
  | .word q' eq' => q = q' ∧ eq = eq'
  | _ => True

theorem scanToken_nil : scanToken (line ++ 0 :: post) line.length line.length = .ok (0, line.length) := by
  rw [scanToken, load_end, ok_bind, if_pos rfl]
  rfl

theorem load_cons (h : line.drop s = c :: xs) :
    s < line.length ∧ load (line ++ 0 :: post) s = .ok c ∧ line.drop (s + 1) = xs := by
  have hlt : s < line.length := by
    have hlen := congrArg List.length h
    rw [List.length_drop, List.length_cons] at hlen
    omega
  rw [List.drop_eq_getElem_cons hlt, List.cons.injEq] at h
  exact ⟨hlt, by rw [load_at hlt, h.1], h.2⟩

/-- The byte after a `>`. -/
theorem load_head (hs : s ≤ line.length) (h : (line.drop s).head? ≠ some GREATER) :
    ∃ c, load (line ++ 0 :: post) s = .ok c ∧ c ≠ GREATER := by
  cases hdrop : line.drop s with
  | nil =>
    rw [Nat.le_antisymm hs (List.drop_eq_nil_iff.mp hdrop)]
    exact ⟨0, load_end, by decide⟩
  | cons c xs =>
    rw [hdrop] at h
    exact ⟨c, (load_cons hdrop).2.1, by simpa using h⟩

theorem takeWhile_word {w : List UInt8} (hw : ∀ c ∈ w, isOrdinary c = true) (hx : ∀ c ∈ xs.head?, isOrdinary c = false) :
    (w ++ xs).takeWhile isOrdinary = w := by
  rw [List.takeWhile_append_of_pos hw]
  cases xs with
  | nil => simp
  | cons c xs => rw [List.takeWhile_cons_of_neg (Bool.eq_false_iff.mp (hx c rfl)), List.append_nil]

theorem scanToken_cons (h0 : 0 ∉ line) (h : At line s (t :: ts)) (hspace : ∀ c ∈ (line.drop s).head?, isSpace c = false) :
    ∃ s', scanToken (line ++ 0 :: post) line.length s = .ok (t.ret, s') ∧ At line s' ts ∧ s < s' ∧ t.Spans s s' := by
  obtain ⟨hle, hlex⟩ := h
  generalize hdrop : line.drop s = xs at hlex hspace
  cases hlex with
  | space hc h =>
    rw [hspace _ rfl] at hc
    cases hc
  | single hc h =>
    obtain ⟨hlt, hload, hnext⟩ := @load_cons _ _ _ line post hdrop
    obtain ⟨hret, -, hsym⟩ := single_some hc
    refine ⟨s + 1, ?_, ⟨hlt, hnext ▸ h⟩, Nat.lt_succ_self s, ?_⟩
    · rw [scanToken, hload, ok_bind, if_neg (single_ordinary hc).2.2, if_pos hsym, next, if_pos hlt, ok_bind, hret]
      rfl
    · rcases hsym with rfl | rfl | rfl | rfl | rfl | rfl <;> cases hc <;> trivial
  | greater hx h =>
    obtain ⟨hlt, hload, hnext⟩ := @load_cons _ _ _ line post hdrop
    obtain ⟨c, hload', hc⟩ := @load_head _ line post hlt (hnext ▸ hx)
    refine ⟨s + 1, ?_, ⟨hlt, hnext ▸ h⟩, Nat.lt_succ_self s, trivial⟩
    rw [scanToken, hload, ok_bind, if_neg (by decide), if_neg (by decide), if_pos rfl, next, if_pos hlt, ok_bind, hload', ok_bind, if_neg hc]
    rfl
  | append h =>
    obtain ⟨hlt, hload, hnext⟩ := @load_cons _ _ _ line post hdrop
    obtain ⟨hlt', hload', hnext'⟩ := @load_cons _ _ _ line post hnext
    refine ⟨s + 2, ?_, ⟨hlt', hnext' ▸ h⟩, by omega, trivial⟩
    rw [scanToken, hload, ok_bind, if_neg (by decide), if_neg (by decide), if_pos rfl, next, if_pos hlt, ok_bind, hload', ok_bind, if_pos rfl,
      next, if_pos hlt', ok_bind]
    rfl
  | @word w xs _ _ hne hw hx h =>
    obtain ⟨hend, hrest⟩ := drop_takeWhile hle isOrdinary
    have hword := takeWhile_word hw hx
    have hrest' : (w ++ xs).dropWhile isOrdinary = xs := by
      have hcut := List.takeWhile_append_dropWhile (p := isOrdinary) (l := w ++ xs)
      rw [hword] at hcut
      exact List.append_cancel_left hcut
    rw [hdrop, hword] at hend hrest
    rw [hrest'] at hrest
    obtain ⟨c, w', rfl⟩ := List.exists_cons_of_ne_nil hne
    obtain ⟨hlt, hload, -⟩ := @load_cons _ _ _ line post hdrop
    have hord := ordinary_symbol (hw c List.mem_cons_self)
    simp only [symbols, List.mem_cons, List.not_mem_nil, or_false, not_or] at hord
    have hzero : c ≠ 0 := by
      rintro rfl
      have hmem : 0 ∈ line.drop s := by simp [hdrop]
      exact h0 (List.mem_of_mem_drop hmem)
    refine ⟨_, ?_, ⟨hend, hrest ▸ h⟩, by simp, rfl, rfl⟩
    rw [scanToken, hload, ok_bind, if_neg hzero, if_neg (by tauto), if_neg (by tauto), advanceWhile_eq hle (by omega), hdrop, hword, ok_bind]
    rfl

theorem skipSpace_nil (h : At line s []) : skipSpace (line ++ 0 :: post) line.length s = .ok line.length := by
  obtain ⟨s', hskip, ⟨hle, hlex⟩, -, hspace⟩ := @skipSpace_at _ _ line post h
  generalize hdrop : line.drop s' = xs at hlex hspace
  cases hlex with
  | nil => rw [hskip, Nat.le_antisymm hle (List.drop_eq_nil_iff.mp hdrop)]
  | space hc _ =>
    rw [hspace _ rfl] at hc
    cases hc

theorem at_end (line : List UInt8) : At line line.length [] := ⟨Nat.le_refl _, by rw [List.drop_length]; exact .nil⟩

/-- gettoken() at the end of the line. -/
theorem gettoken_nil (h : At line s []) : gettoken (line ++ 0 :: post) line.length s = .ok (0, line.length, line.length, line.length) := by
  simp only [gettoken, skipSpace_nil h, ok_bind, scanToken_nil, skipSpace_nil (at_end line)]
  rfl

theorem peek_nil (h : At line s []) (toks : List UInt8) : peek (line ++ 0 :: post) line.length s toks = .ok (false, line.length) := by
  simp only [peek, skipSpace_nil h, ok_bind, load_end]
  rfl

theorem At.lt (h : At line s (t :: ts)) : s < line.length := by
  refine Nat.lt_of_le_of_ne h.le ?_
  rintro rfl
  have hlen := h.lexes.length_le
  rw [List.drop_length] at hlen
  cases hlen

theorem gettoken_cons (h0 : 0 ∉ line) (h : At line s (t :: ts)) :
    ∃ q eq s', gettoken (line ++ 0 :: post) line.length s = .ok (t.ret, q, eq, s') ∧ At line s' ts ∧ t.Spans q eq := by
  obtain ⟨q, hskip, hat, -, hspace⟩ := @skipSpace_at _ _ line post h
  obtain ⟨eq, hscan, hat', -, hspans⟩ := @scanToken_cons _ _ _ line post h0 hat hspace
  obtain ⟨s', hskip', hat'', -⟩ := @skipSpace_at _ _ line post hat'
  refine ⟨q, eq, s', ?_, hat'', hspans⟩
  simp only [gettoken, hskip, ok_bind, hscan, hskip']
  rfl

/-- peek() for symbols. -/
theorem peek_at (h : At line s ts) {toks : List UInt8} (htoks : toks ⊆ symbols) :
    ∃ s', peek (line ++ 0 :: post) line.length s toks = .ok (starts toks ts, s') ∧ At line s' ts := by
  obtain ⟨s', hskip, hat, -, hspace⟩ := @skipSpace_at _ _ line post h
  refine ⟨s', ?_, hat⟩
  rw [peek, hskip, ok_bind]
  obtain ⟨hle, hlex⟩ := hat
  generalize hdrop : line.drop s' = xs at hlex hspace
  cases hlex with
  | nil =>
    rw [Nat.le_antisymm hle (List.drop_eq_nil_iff.mp hdrop), load_end]
    rfl
  | space hc _ =>
    rw [hspace _ rfl] at hc
    cases hc
  | single hc h =>
    rw [(load_cons hdrop).2.1, ok_bind]
    have hzero := bne_iff_ne.mpr (single_ordinary hc).2.2
    rw [hzero, Bool.true_and, starts, List.head?_cons, Option.bind_some, (single_some hc).2.1, Option.any_some]
    rfl
  | greater hx h =>
    rw [(load_cons hdrop).2.1]
    rfl
  | append h =>
    rw [(load_cons hdrop).2.1]
    rfl
  | word hne hw hx h =>
    obtain ⟨c, w, rfl⟩ := List.exists_cons_of_ne_nil hne
    have hnot : c ∉ toks := fun hc => ordinary_symbol (hw c List.mem_cons_self) (htoks hc)
    rw [(load_cons hdrop).2.1, ok_bind]
    simp [hnot, starts, Tok.symbol]
    rfl

end Scanner

end Xv6.Sh
