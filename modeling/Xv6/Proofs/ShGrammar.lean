import Xv6.Proofs.ShLex

namespace Xv6.Sh

/- The grammar, and the command that a derivation stands for. -/

inductive Dir where
  | input | output | append
  deriving DecidableEq

def Dir.tok : Dir → Tok
  | .input => .less
  | .output => .greater
  | .append => .append

/-- The redirection of `cmd`. -/
def Dir.wrap (d : Dir) (cmd : Cmd) (q eq : Nat) : Cmd :=
  match d with
  | .input => .redir cmd q eq O_RDONLY 0
  | .output => .redir cmd q eq (O_WRONLY ||| O_CREATE ||| O_TRUNC) 1
  | .append => .redir cmd q eq (O_WRONLY ||| O_CREATE) 1

/-- redir ::= ('<' | '>' | '>>') word -/
structure Redir where
  dir : Dir
  q : Nat
  eq : Nat
  deriving DecidableEq

def Redir.toks (r : Redir) : List Tok := [r.dir.tok, .word r.q r.eq]

def Redir.wrap (cmd : Cmd) (r : Redir) : Cmd := r.dir.wrap cmd r.q r.eq

def redirToks (rs : List Redir) : List Tok := rs.flatMap Redir.toks

/-- word redir* -/
structure Arg where
  word : Nat × Nat
  redirs : List Redir
  deriving DecidableEq

def Arg.toks (a : Arg) : List Tok := .word a.word.1 a.word.2 :: redirToks a.redirs

def argToks (args : List Arg) : List Tok := args.flatMap Arg.toks

def backs : Nat → Cmd → Cmd
  | 0, cmd => cmd
  | n + 1, cmd => backs n (.back cmd)

inductive NonTerm where
  | line | pipe | cmd

/-- `Derives n ts cmd`: the nonterminal `n` derives the tokens `ts`, and `cmd` is the tree. -/
inductive Derives : NonTerm → List Tok → Cmd → Prop where
  | line {ts : List Tok} {c : Cmd} (n : Nat) (h : Derives .pipe ts c) : Derives .line (ts ++ List.replicate n .amp) (backs n c)
  | lineThen {ts ts' : List Tok} {c c' : Cmd} (n : Nat) (h : Derives .pipe ts c) (h' : Derives .line ts' c') :
    Derives .line (ts ++ List.replicate n .amp ++ .semi :: ts') (.list (backs n c) c')
  | pipe {ts : List Tok} {c : Cmd} (h : Derives .cmd ts c) : Derives .pipe ts c
  | pipeThen {ts ts' : List Tok} {c c' : Cmd} (h : Derives .cmd ts c) (h' : Derives .pipe ts' c') :
    Derives .pipe (ts ++ .bar :: ts') (.pipe c c')
  | block {ts : List Tok} {c : Cmd} (h : Derives .line ts c) (rs : List Redir) :
    Derives .cmd (.lpar :: (ts ++ .rpar :: redirToks rs)) (rs.foldl Redir.wrap c)
  | simple (rs : List Redir) (args : List Arg) (hargs : args.length ≤ 9) :
    Derives .cmd (redirToks rs ++ argToks args) ((rs ++ args.flatMap Arg.redirs).foldl Redir.wrap (.exec (args.map Arg.word)))

/-- The parser succeeds with a result in `P`, or reports an error. -/
def Meets {α : Type} (m : Except Failure α) (P : α → Prop) : Prop :=
  match m with
  | .ok x => P x
  | .error e => e.reported = true

theorem Meets.bind {α β : Type} {m : Except Failure α} {f : α → Except Failure β} {P : α → Prop} {Q : β → Prop} (h : Meets m P)
    (hf : ∀ x, P x → Meets (f x) Q) : Meets (m >>= f) Q := by
  cases m with
  | ok x => exact hf x h
  | error e => exact h

theorem Meets.mono {α : Type} {m : Except Failure α} {P Q : α → Prop} (h : Meets m P) (hPQ : ∀ x, P x → Q x) : Meets m Q := by
  cases m with
  | ok x => exact hPQ x h
  | error e => exact h

variable {line post : List UInt8} {s : Nat} {ts : List Tok}

theorem Meets.gettoken {β : Type} {f : UInt8 × Nat × Nat × Nat → Except Failure β} {Q : β → Prop} (h0 : 0 ∉ line) (h : At line s ts)
    (hnil : ts = [] → Meets (f (0, line.length, line.length, line.length)) Q)
    (hcons : ∀ t ts' q eq s', ts = t :: ts' → At line s' ts' → t.Spans q eq → Meets (f (t.ret, q, eq, s')) Q) :
    Meets (Sh.gettoken (line ++ 0 :: post) line.length s >>= f) Q := by
  cases ts with
  | nil =>
    rw [gettoken_nil h, ok_bind]
    exact hnil rfl
  | cons t ts =>
    obtain ⟨q, eq, s', hrun, hat, hspans⟩ := @gettoken_cons t s ts line post h0 h
    rw [hrun, ok_bind]
    exact hcons t ts q eq s' rfl hat hspans

theorem Meets.peek {β : Type} {f : Bool × Nat → Except Failure β} {Q : β → Prop} {toks : List UInt8} (htoks : toks ⊆ symbols)
    (h : At line s ts) (hf : ∀ s', At line s' ts → Meets (f (starts toks ts, s')) Q) :
    Meets (Sh.peek (line ++ 0 :: post) line.length s toks >>= f) Q := by
  obtain ⟨s', hrun, hat⟩ := @peek_at s ts line post h toks htoks
  rw [hrun, ok_bind]
  exact hf s' hat

theorem exists_dir {t : Tok} (h : starts [LESS, GREATER] (t :: ts) = true) : ∃ d : Dir, t = d.tok := by
  cases t with
  | less => exact ⟨.input, rfl⟩
  | greater => exact ⟨.output, rfl⟩
  | append => exact ⟨.append, rfl⟩
  | bar | lpar | rpar | semi | amp | word => cases h

theorem redirect_tok (d : Dir) (cmd : Cmd) (q eq : Nat) : redirect d.tok.ret cmd q eq = d.wrap cmd q eq := by
  cases d <;> rfl

theorem exists_word {t : Tok} (h : t.ret = WORD) : ∃ q eq, t = .word q eq := by
  cases t with
  | word q eq => exact ⟨q, eq, rfl⟩
  | bar | lpar | rpar | semi | amp | less | greater | append => cases h

/-- A symbol that only one token begins with. -/
theorem starts_single {c : UInt8} {t t' : Tok} (hc : single c = some t') (h : starts [c] (t :: ts) = true) : t = t' := by
  rcases (single_some hc).2.2 with rfl | rfl | rfl | rfl | rfl | rfl <;> cases hc <;> cases t <;> first | rfl | cases h

theorem Tok.ret_ne_zero (t : Tok) : t.ret ≠ 0 := by
  intro h
  cases t <;> cases h

/- Soundness: what the parser accepts is derivable. -/

theorem parseredirs_sound (h0 : 0 ∉ line) {fuel : Nat} (cmd : Cmd) (h : At line s ts) (hfuel : ts.length < fuel) :
    Meets (parseredirs (line ++ 0 :: post) line.length fuel cmd s) fun r =>
      ∃ rs ts', ts = redirToks rs ++ ts' ∧ r.1 = rs.foldl Redir.wrap cmd ∧ At line r.2 ts' := by
  induction fuel generalizing cmd s ts with
  | zero => omega
  | succ fuel ih =>
    rw [parseredirs]
    refine Meets.peek (by decide) h fun s h => ?_
    cases hstarts : starts [LESS, GREATER] ts with
    | false => exact ⟨[], ts, rfl, rfl, h⟩
    | true =>
      simp only [if_true]
      refine Meets.gettoken h0 h (fun hnil => ?_) fun t ts₁ q eq s₁ hts h₁ _ => ?_
      · subst hnil
        cases hstarts
      subst hts
      refine Meets.gettoken h0 h₁ (fun _ => ?_) fun t' ts₂ q eq s₂ hts h₂ hspans => ?_
      · exact rfl
      subst hts
      by_cases hword : t'.ret = WORD
      · obtain ⟨d, rfl⟩ := exists_dir hstarts
        obtain ⟨q', eq', rfl⟩ := exists_word hword
        obtain ⟨rfl, rfl⟩ := hspans
        simp only [List.length_cons] at hfuel
        simp only [hword, ne_eq, not_true_eq_false, if_false, redirect_tok]
        refine (ih (d.wrap cmd q eq) h₂ (by omega)).mono fun r hr => ?_
        obtain ⟨rs, ts', rfl, hr, hat⟩ := hr
        exact ⟨⟨d, q, eq⟩ :: rs, ts', rfl, hr, hat⟩
      · simp only [ne_eq, hword, not_false_eq_true, if_true]
        exact rfl

/-- The words and redirections of a simple command added to it, as they come. -/
def addArgs (args : List Arg) (cmd : Cmd) : Cmd := args.foldl (fun cmd a => a.redirs.foldl Redir.wrap (addArg a.word cmd)) cmd

theorem argLoop_sound (h0 : 0 ∉ line) {fuel : Nat} (argc : Nat) (ret : Cmd) (h : At line s ts) (hfuel : ts.length < fuel)
    (hargc : argc ≤ 9) :
    Meets (argLoop (line ++ 0 :: post) line.length fuel argc ret s) fun r =>
      ∃ args ts', ts = argToks args ++ ts' ∧ argc + args.length ≤ 9 ∧ r.1 = addArgs args ret ∧ At line r.2 ts' := by
  induction fuel generalizing argc ret s ts with
  | zero => omega
  | succ fuel ih =>
    have hdone {s' : Nat} (h : At line s' ts) : ∃ args ts', ts = argToks args ++ ts' ∧ argc + args.length ≤ 9 ∧
        ret = addArgs args ret ∧ At line s' ts' := ⟨[], ts, rfl, hargc, rfl, h⟩
    rw [argLoop]
    refine Meets.peek (by decide) h fun s h => ?_
    cases hstarts : starts [BAR, RPAR, AMP, SEMI] ts with
    | true => exact hdone h
    | false =>
      simp only [Bool.false_eq_true, if_false]
      refine Meets.gettoken h0 h (fun hnil => ?_) fun t ts₁ q eq s₁ hts h₁ hspans => ?_
      · subst hnil
        exact hdone (at_end line)
      subst hts
      simp only [t.ret_ne_zero, if_false]
      by_cases hword : t.ret = WORD
      · obtain ⟨q', eq', rfl⟩ := exists_word hword
        obtain ⟨rfl, rfl⟩ := hspans
        simp only [hword, ne_eq, not_true_eq_false, if_false]
        by_cases hmax : argc + 1 ≥ MAXARGS
        · rw [if_pos hmax]
          exact rfl
        · rw [if_neg hmax]
          have hlen := h₁.length_le
          refine (parseredirs_sound h0 _ h₁ (Nat.lt_succ_of_le hlen)).bind fun r hr => ?_
          obtain ⟨rs, ts₂, rfl, hret, h₂⟩ := hr
          rw [List.length_cons, List.length_append] at hfuel
          refine (ih (argc + 1) r.1 h₂ (by omega) (Nat.le_of_lt_succ (Nat.not_le.mp hmax))).mono fun r' hr' => ?_
          obtain ⟨args, ts', rfl, hargs, hret', hat⟩ := hr'
          refine ⟨⟨(q, eq), rs⟩ :: args, ts', by simp [argToks, Arg.toks], by rw [List.length_cons]; omega, ?_, hat⟩
          rw [hret', hret]
          rfl
      · simp only [ne_eq, hword, not_false_eq_true, if_true]
        exact rfl

theorem backLoop_sound (h0 : 0 ∉ line) {fuel : Nat} (cmd : Cmd) (h : At line s ts) (hfuel : ts.length < fuel) :
    Meets (backLoop (line ++ 0 :: post) line.length fuel cmd s) fun r =>
      ∃ n ts', ts = List.replicate n .amp ++ ts' ∧ r.1 = backs n cmd ∧ At line r.2 ts' := by
  induction fuel generalizing cmd s ts with
  | zero => omega
  | succ fuel ih =>
    rw [backLoop]
    refine Meets.peek (by decide) h fun s h => ?_
    cases hstarts : starts [AMP] ts with
    | false => exact ⟨0, ts, rfl, rfl, h⟩
    | true =>
      simp only [if_true]
      refine Meets.gettoken h0 h (fun hnil => ?_) fun t ts₁ q eq s₁ hts h₁ _ => ?_
      · subst hnil
        cases hstarts
      subst hts
      obtain rfl := starts_single rfl hstarts
      rw [List.length_cons] at hfuel
      refine (ih (.back cmd) h₁ (by omega)).mono fun r hr => ?_
      obtain ⟨n, ts', rfl, hr, hat⟩ := hr
      exact ⟨n + 1, ts', rfl, hr, hat⟩

/-- What is derivable is the beginning of `ts`, and the parser has read it. -/
def Derived (line : List UInt8) (n : NonTerm) (ts : List Tok) (r : Cmd × Nat) : Prop :=
  ∃ pre ts', ts = pre ++ ts' ∧ Derives n pre r.1 ∧ At line r.2 ts'

theorem addArg_wrap (w : Nat × Nat) (cmd : Cmd) (r : Redir) : addArg w (r.wrap cmd) = r.wrap (addArg w cmd) := by
  obtain ⟨d, q, eq⟩ := r
  cases d <;> rfl

theorem addArg_foldl (w : Nat × Nat) (cmd : Cmd) (rs : List Redir) :
    addArg w (rs.foldl Redir.wrap cmd) = rs.foldl Redir.wrap (addArg w cmd) := by
  induction rs generalizing cmd with
  | nil => rfl
  | cons r rs ih => rw [List.foldl_cons, ih, addArg_wrap, List.foldl_cons]

/-- The words go to the EXEC node, through the redirections around it. -/
theorem addArgs_exec (args : List Arg) (words : List (Nat × Nat)) (rs : List Redir) :
    addArgs args (rs.foldl Redir.wrap (.exec words)) =
      (rs ++ args.flatMap Arg.redirs).foldl Redir.wrap (.exec (words ++ args.map Arg.word)) := by
  induction args generalizing words rs with
  | nil => simp [addArgs]
  | cons a args ih =>
    have hfirst : addArgs (a :: args) (rs.foldl Redir.wrap (.exec words)) =
        addArgs args ((rs ++ a.redirs).foldl Redir.wrap (.exec (words ++ [a.word]))) := by
      rw [List.foldl_append, addArgs, List.foldl_cons, addArg_foldl]
      rfl
    rw [hfirst, ih]
    simp

/-- Each call has fuel for its calls, as each token is read by one of four nested ones. -/
structure Sound (line post : List UInt8) (fuel : Nat) : Prop where
  parseline : ∀ s ts, At line s ts → 4 * ts.length + 4 ≤ fuel → Meets (Sh.parseline (line ++ 0 :: post) line.length fuel s) (Derived line .line ts)
  parsepipe : ∀ s ts, At line s ts → 4 * ts.length + 3 ≤ fuel → Meets (Sh.parsepipe (line ++ 0 :: post) line.length fuel s) (Derived line .pipe ts)
  parseexec : ∀ s ts, At line s ts → 4 * ts.length + 2 ≤ fuel → Meets (Sh.parseexec (line ++ 0 :: post) line.length fuel s) (Derived line .cmd ts)
  parseblock : ∀ s ts, At line s (.lpar :: ts) → 4 * ts.length + 5 ≤ fuel →
    Meets (Sh.parseblock (line ++ 0 :: post) line.length fuel s) (Derived line .cmd (.lpar :: ts))

section Step

variable {fuel : Nat} (h0 : 0 ∉ line) (ih : Sound line post fuel)

include h0 ih

theorem parseline_sound (h : At line s ts) (hfuel : 4 * ts.length + 4 ≤ fuel + 1) :
    Meets (parseline (line ++ 0 :: post) line.length (fuel + 1) s) (Derived line .line ts) := by
  rw [parseline]
  refine (ih.parsepipe s ts h (by omega)).bind fun r hr => ?_
  obtain ⟨pre, ts₁, rfl, hpipe, h₁⟩ := hr
  refine (backLoop_sound h0 r.1 h₁ (Nat.lt_succ_of_le h₁.length_le)).bind fun r₁ hr => ?_
  obtain ⟨n, ts₂, rfl, hback, h₂⟩ := hr
  refine Meets.peek (by decide) h₂ fun s h => ?_
  cases hstarts : starts [SEMI] ts₂ with
  | false => exact ⟨pre ++ List.replicate n .amp, ts₂, by simp, hback ▸ .line n hpipe, h⟩
  | true =>
    simp only [if_true]
    refine Meets.gettoken h0 h (fun hnil => ?_) fun t ts₃ q eq s₁ hts h₃ _ => ?_
    · subst hnil
      cases hstarts
    subst hts
    obtain rfl := starts_single rfl hstarts
    simp only [List.length_append, List.length_cons] at hfuel
    refine (ih.parseline s₁ ts₃ h₃ (by omega)).bind fun r₂ hr => ?_
    obtain ⟨pre', ts', rfl, hline, hat⟩ := hr
    exact ⟨pre ++ List.replicate n .amp ++ .semi :: pre', ts', by simp, hback ▸ .lineThen n hpipe hline, hat⟩

theorem parsepipe_sound (h : At line s ts) (hfuel : 4 * ts.length + 3 ≤ fuel + 1) :
    Meets (parsepipe (line ++ 0 :: post) line.length (fuel + 1) s) (Derived line .pipe ts) := by
  rw [parsepipe]
  refine (ih.parseexec s ts h (by omega)).bind fun r hr => ?_
  obtain ⟨pre, ts₁, rfl, hcmd, h₁⟩ := hr
  refine Meets.peek (by decide) h₁ fun s h => ?_
  cases hstarts : starts [BAR] ts₁ with
  | false => exact ⟨pre, ts₁, rfl, .pipe hcmd, h⟩
  | true =>
    simp only [if_true]
    refine Meets.gettoken h0 h (fun hnil => ?_) fun t ts₂ q eq s₁ hts h₂ _ => ?_
    · subst hnil
      cases hstarts
    subst hts
    obtain rfl := starts_single rfl hstarts
    simp only [List.length_append, List.length_cons] at hfuel
    refine (ih.parsepipe s₁ ts₂ h₂ (by omega)).bind fun r₂ hr => ?_
    obtain ⟨pre', ts', rfl, hpipe, hat⟩ := hr
    exact ⟨pre ++ .bar :: pre', ts', by simp, .pipeThen hcmd hpipe, hat⟩

theorem parseblock_sound (h : At line s (.lpar :: ts)) (hfuel : 4 * ts.length + 5 ≤ fuel + 1) :
    Meets (parseblock (line ++ 0 :: post) line.length (fuel + 1) s) (Derived line .cmd (.lpar :: ts)) := by
  rw [parseblock]
  refine Meets.peek (by decide) h fun s h => ?_
  simp only [show starts [LPAR] (.lpar :: ts) = true from rfl, Bool.not_true, Bool.false_eq_true, if_false]
  refine Meets.gettoken h0 h (fun hnil => nomatch hnil) fun t ts₁ q eq s₁ hts h₁ _ => ?_
  obtain ⟨rfl, rfl⟩ := List.cons.inj hts
  refine (ih.parseline s₁ ts h₁ (by omega)).bind fun r hr => ?_
  obtain ⟨pre, ts₁, rfl, hline, h₂⟩ := hr
  refine Meets.peek (by decide) h₂ fun s h => ?_
  cases hstarts : starts [RPAR] ts₁ with
  | false => exact rfl
  | true =>
    simp only [Bool.not_true, Bool.false_eq_true, if_false]
    refine Meets.gettoken h0 h (fun hnil => ?_) fun t ts₂ q eq s₂ hts h₃ _ => ?_
    · subst hnil
      cases hstarts
    subst hts
    obtain rfl := starts_single rfl hstarts
    refine (parseredirs_sound h0 r.1 h₃ (Nat.lt_succ_of_le h₃.length_le)).mono fun r' hr => ?_
    obtain ⟨rs, ts', rfl, hr, hat⟩ := hr
    exact ⟨.lpar :: (pre ++ .rpar :: redirToks rs), ts', by simp, hr ▸ .block hline rs, hat⟩

theorem parseexec_sound (h : At line s ts) (hfuel : 4 * ts.length + 2 ≤ fuel + 1) :
    Meets (parseexec (line ++ 0 :: post) line.length (fuel + 1) s) (Derived line .cmd ts) := by
  rw [parseexec]
  refine Meets.peek (by decide) h fun s h => ?_
  cases hstarts : starts [LPAR] ts with
  | true =>
    simp only [if_true]
    cases ts with
    | nil => cases hstarts
    | cons t ts =>
      obtain rfl := starts_single rfl hstarts
      rw [List.length_cons] at hfuel
      exact ih.parseblock s ts h (by omega)
  | false =>
    simp only [Bool.false_eq_true, if_false]
    refine (parseredirs_sound h0 (.exec []) h (Nat.lt_succ_of_le h.length_le)).bind fun r hr => ?_
    obtain ⟨rs, ts₁, rfl, hr, h₁⟩ := hr
    refine (argLoop_sound h0 0 r.1 h₁ (Nat.lt_succ_of_le h₁.length_le) (by decide)).mono fun r' hr' => ?_
    obtain ⟨args, ts', rfl, hargs, hret, hat⟩ := hr'
    refine ⟨redirToks rs ++ argToks args, ts', by simp, ?_, hat⟩
    rw [hret, hr, addArgs_exec]
    exact .simple rs args (by omega)

end Step

theorem sound (h0 : 0 ∉ line) (fuel : Nat) : Sound line post fuel := by
  induction fuel with
  | zero => exact ⟨fun _ _ _ h => by omega, fun _ _ _ h => by omega, fun _ _ _ h => by omega, fun _ _ _ h => by omega⟩
  | succ fuel ih =>
    exact ⟨fun _ _ h hf => parseline_sound h0 ih h hf, fun _ _ h hf => parsepipe_sound h0 ih h hf,
      fun _ _ h hf => parseexec_sound h0 ih h hf, fun _ _ h hf => parseblock_sound h0 ih h hf⟩

end Xv6.Sh
