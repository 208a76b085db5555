import Xv6.Proofs.ShGrammar

namespace Xv6.Sh

/- Completeness: what is derivable is accepted. -/

variable {line post : List UInt8} {s : Nat} {ts rest : List Tok} {toks toks' : List UInt8}

/-- The tokens end, or a symbol among `toks` is next. -/
def Follows (toks : List UInt8) (rest : List Tok) : Prop := rest = [] ∨ starts toks rest = true

theorem Follows.not_starts (h : Follows toks rest) (hdisjoint : toks.all (fun c => !toks'.contains c) = true) :
    starts toks' rest = false := by
  rcases h with rfl | h
  · rfl
  · obtain ⟨c, hc, hmem⟩ := (Option.any_eq_true _ _).mp h
    rw [starts, hc, Option.any_some]
    simpa using List.all_eq_true.mp hdisjoint c (by simpa using hmem)

theorem Follows.mono (h : Follows toks rest) (hsub : toks ⊆ toks') : Follows toks' rest := by
  rcases h with rfl | h
  · exact .inl rfl
  · obtain ⟨c, hc, hmem⟩ := (Option.any_eq_true _ _).mp h
    refine .inr ?_
    rw [starts, hc, Option.any_some]
    simpa using hsub (by simpa using hmem)

theorem gettoken_word (h0 : 0 ∉ line) {q eq : Nat} (h : At line s (.word q eq :: ts)) :
    ∃ s', gettoken (line ++ 0 :: post) line.length s = .ok (WORD, q, eq, s') ∧ At line s' ts := by
  obtain ⟨_, _, s', hrun, hat, hq, heq⟩ := @gettoken_cons (.word q eq) s ts line post h0 h
  rw [hq, heq] at hrun
  exact ⟨s', hrun, hat⟩

theorem parseredirs_complete (h0 : 0 ∉ line) {fuel : Nat} (rs : List Redir) (cmd : Cmd) (h : At line s (redirToks rs ++ rest))
    (hrest : starts [LESS, GREATER] rest = false) (hfuel : rs.length < fuel) :
    ∃ s', parseredirs (line ++ 0 :: post) line.length fuel cmd s = .ok (rs.foldl Redir.wrap cmd, s') ∧ At line s' rest := by
  induction rs generalizing fuel cmd s with
  | nil =>
    obtain ⟨fuel, rfl⟩ := Nat.exists_eq_add_one_of_ne_zero (Nat.ne_of_gt hfuel)
    obtain ⟨s', hpeek, hat⟩ := @peek_at _ _ line post h [LESS, GREATER] (by decide)
    refine ⟨s', ?_, hat⟩
    rw [parseredirs, hpeek, ok_bind]
    simp only [redirToks, List.flatMap_nil, List.nil_append, hrest]
    rfl
  | cons r rs ih =>
    obtain ⟨fuel, rfl⟩ := Nat.exists_eq_add_one_of_ne_zero (Nat.ne_of_gt (Nat.zero_lt_of_lt hfuel))
    obtain ⟨d, q, eq⟩ := r
    obtain ⟨s₁, hpeek, h₁⟩ := @peek_at _ _ line post h [LESS, GREATER] (by decide)
    obtain ⟨_, _, s₂, htok, h₂, -⟩ := @gettoken_cons d.tok s₁ (.word q eq :: (redirToks rs ++ rest)) line post h0 h₁
    obtain ⟨s₃, hword, h₃⟩ := @gettoken_word line post s₂ (redirToks rs ++ rest) h0 q eq h₂
    obtain ⟨s', hrun, hat⟩ := @ih s₃ fuel (d.wrap cmd q eq) h₃ (by rw [List.length_cons] at hfuel; omega)
    refine ⟨s', ?_, hat⟩
    have hstarts : starts [LESS, GREATER] (redirToks (⟨d, q, eq⟩ :: rs) ++ rest) = true := by cases d <;> rfl
    rw [hstarts] at hpeek
    simp only [parseredirs, hpeek, ok_bind, if_true, htok, hword, redirect_tok]
    exact hrun

theorem length_redirToks (rs : List Redir) : rs.length ≤ (redirToks rs).length := by
  induction rs with
  | nil => exact Nat.le_refl _
  | cons r rs ih =>
    simp only [redirToks, List.flatMap_cons, List.length_append, Redir.toks, List.length_cons, List.length_nil] at ih ⊢
    omega

theorem length_argToks (args : List Arg) : args.length ≤ (argToks args).length := by
  induction args with
  | nil => exact Nat.le_refl _
  | cons a args ih =>
    simp only [argToks, List.flatMap_cons, List.length_append, Arg.toks, List.length_cons] at ih ⊢
    omega

theorem starts_redirs (rs : List Redir) (hdisjoint : LESS ∉ toks ∧ GREATER ∉ toks) (hrest : starts toks rest = false) :
    starts toks (redirToks rs ++ rest) = false := by
  cases rs with
  | nil => exact hrest
  | cons r rs =>
    obtain ⟨d, q, eq⟩ := r
    cases d with
    | input => simpa [starts, redirToks, Redir.toks, Dir.tok, Tok.symbol, Tok.ret] using hdisjoint.1
    | output | append => simpa [starts, redirToks, Redir.toks, Dir.tok, Tok.symbol, Tok.ret] using hdisjoint.2

theorem starts_args (args : List Arg) (hrest : starts toks rest = false) : starts toks (argToks args ++ rest) = false := by
  cases args with
  | nil => exact hrest
  | cons a args => rfl

theorem argLoop_complete (h0 : 0 ∉ line) {fuel : Nat} (args : List Arg) (argc : Nat) (ret : Cmd)
    (h : At line s (argToks args ++ rest)) (hrest : Follows [BAR, RPAR, AMP, SEMI] rest) (hargs : argc + args.length ≤ 9)
    (hfuel : args.length < fuel) :
    ∃ s', argLoop (line ++ 0 :: post) line.length fuel argc ret s = .ok (addArgs args ret, s') ∧ At line s' rest := by
  induction args generalizing fuel argc ret s with
  | nil =>
    obtain ⟨fuel, rfl⟩ := Nat.exists_eq_add_one_of_ne_zero (Nat.ne_of_gt hfuel)
    obtain ⟨s₁, hpeek, h₁⟩ := @peek_at _ _ line post h [BAR, RPAR, AMP, SEMI] (by decide)
    rw [argLoop, hpeek, ok_bind]
    rcases hrest with rfl | hstarts
    · refine ⟨line.length, ?_, at_end line⟩
      rw [show starts [BAR, RPAR, AMP, SEMI] (argToks [] ++ []) = false from rfl]
      simp only [Bool.false_eq_true, if_false]
      rw [gettoken_nil h₁]
      rfl
    · refine ⟨s₁, ?_, h₁⟩
      rw [show argToks [] ++ rest = rest from rfl, hstarts]
      rfl
  | cons a args ih =>
    obtain ⟨fuel, rfl⟩ := Nat.exists_eq_add_one_of_ne_zero (Nat.ne_of_gt (Nat.zero_lt_of_lt hfuel))
    obtain ⟨⟨q, eq⟩, rs⟩ := a
    rw [List.length_cons] at hargs hfuel
    have htoks : argToks (⟨(q, eq), rs⟩ :: args) ++ rest = .word q eq :: (redirToks rs ++ (argToks args ++ rest)) := by
      simp [argToks, Arg.toks]
    rw [htoks] at h
    obtain ⟨s₁, hpeek, h₁⟩ := @peek_at _ _ line post h [BAR, RPAR, AMP, SEMI] (by decide)
    obtain ⟨s₂, hword, h₂⟩ := @gettoken_word line post s₁ _ h0 q eq h₁
    have hlen := h₂.length_le
    have hrs : rs.length < line.length + 1 := by
      have := length_redirToks rs
      rw [List.length_append] at hlen
      omega
    have hnot : starts [LESS, GREATER] (argToks args ++ rest) = false := starts_args args (hrest.not_starts (by decide))
    obtain ⟨s₃, hredirs, h₃⟩ := @parseredirs_complete line post s₂ _ h0 (line.length + 1) rs (addArg (q, eq) ret) h₂ hnot hrs
    obtain ⟨s', hrun, hat⟩ := @ih s₃ fuel (argc + 1) (rs.foldl Redir.wrap (addArg (q, eq) ret)) h₃ (by omega) (by omega)
    refine ⟨s', ?_, hat⟩
    rw [show starts [BAR, RPAR, AMP, SEMI] (.word q eq :: (redirToks rs ++ (argToks args ++ rest))) = false from rfl] at hpeek
    have hmax : ¬argc + 1 ≥ MAXARGS := Nat.not_le.mpr (Nat.lt_succ_of_le (by omega))
    simp only [argLoop, hpeek, ok_bind, Bool.false_eq_true, if_false, hword, hmax, hredirs]
    exact hrun

theorem backLoop_complete (h0 : 0 ∉ line) {fuel : Nat} (n : Nat) (cmd : Cmd) (h : At line s (List.replicate n .amp ++ rest))
    (hrest : starts [AMP] rest = false) (hfuel : n < fuel) :
    ∃ s', backLoop (line ++ 0 :: post) line.length fuel cmd s = .ok (backs n cmd, s') ∧ At line s' rest := by
  induction n generalizing fuel cmd s with
  | zero =>
    obtain ⟨fuel, rfl⟩ := Nat.exists_eq_add_one_of_ne_zero (Nat.ne_of_gt hfuel)
    obtain ⟨s', hpeek, hat⟩ := @peek_at _ _ line post h [AMP] (by decide)
    rw [List.replicate_zero, List.nil_append] at hpeek hat
    refine ⟨s', ?_, hat⟩
    rw [backLoop, hpeek, ok_bind, hrest]
    rfl
  | succ n ih =>
    obtain ⟨fuel, rfl⟩ := Nat.exists_eq_add_one_of_ne_zero (Nat.ne_of_gt (Nat.zero_lt_of_lt hfuel))
    obtain ⟨s₁, hpeek, h₁⟩ := @peek_at _ _ line post h [AMP] (by decide)
    obtain ⟨_, _, s₂, htok, h₂, -⟩ := @gettoken_cons .amp s₁ (List.replicate n Tok.amp ++ rest) line post h0 h₁
    obtain ⟨s', hrun, hat⟩ := @ih s₂ fuel (.back cmd) h₂ (by omega)
    refine ⟨s', ?_, hat⟩
    rw [show starts [AMP] (List.replicate (n + 1) .amp ++ rest) = true from rfl] at hpeek
    simp only [backLoop, hpeek, ok_bind, if_true, htok]
    exact hrun

def NonTerm.parse : NonTerm → List UInt8 → Nat → Nat → Nat → Except Failure (Cmd × Nat)
  | .line => parseline
  | .pipe => parsepipe
  | .cmd => parseexec

/-- The symbols that can follow. -/
def NonTerm.follow : NonTerm → List UInt8
  | .line => [RPAR]
  | .pipe => [RPAR, AMP, SEMI]
  | .cmd => [BAR, RPAR, AMP, SEMI]

def NonTerm.need : NonTerm → Nat
  | .line => 4
  | .pipe => 3
  | .cmd => 2

theorem complete (h0 : 0 ∉ line) {n : NonTerm} {pre : List Tok} {c : Cmd} (hd : Derives n pre c) {fuel : Nat}
    (h : At line s (pre ++ rest)) (hrest : Follows n.follow rest) (hfuel : 4 * pre.length + n.need ≤ fuel) :
    ∃ s', n.parse (line ++ 0 :: post) line.length fuel s = .ok (c, s') ∧ At line s' rest := by
  induction hd generalizing fuel s rest with
  | @line ts c n _ ih =>
    rw [List.append_assoc] at h
    simp only [NonTerm.need, List.length_append] at hfuel
    obtain ⟨fuel, rfl⟩ : ∃ k, fuel = k + 1 := ⟨fuel - 1, by omega⟩
    have hfollow : Follows NonTerm.pipe.follow (List.replicate n Tok.amp ++ rest) := by
      cases n with
      | zero => exact hrest.mono (by decide)
      | succ n => exact .inr rfl
    obtain ⟨s₁, hpipe, h₁⟩ := @ih s (List.replicate n Tok.amp ++ rest) fuel h hfollow (by simp only [NonTerm.need]; omega)
    have hlen := h₁.length_le
    rw [List.length_append, List.length_replicate] at hlen
    obtain ⟨s₂, hback, h₂⟩ := @backLoop_complete line post s₁ rest h0 (line.length + 1) n c h₁ (hrest.not_starts (by decide)) (by omega)
    obtain ⟨s', hpeek, hat⟩ := @peek_at _ _ line post h₂ [SEMI] (by decide)
    rw [hrest.not_starts (by decide)] at hpeek
    refine ⟨s', ?_, hat⟩
    simp only [NonTerm.parse] at hpipe ⊢
    simp only [parseline, hpipe, ok_bind, hback, hpeek]
    rfl
  | @lineThen ts ts' c c' n _ _ ih ih' =>
    have htoks : ts ++ List.replicate n Tok.amp ++ .semi :: ts' ++ rest = ts ++ (List.replicate n Tok.amp ++ (.semi :: (ts' ++ rest))) := by simp
    rw [htoks] at h
    simp only [NonTerm.need, List.length_append, List.length_cons] at hfuel
    obtain ⟨fuel, rfl⟩ : ∃ k, fuel = k + 1 := ⟨fuel - 1, by omega⟩
    have hfollow : Follows NonTerm.pipe.follow (List.replicate n Tok.amp ++ (.semi :: (ts' ++ rest))) := by
      cases n with
      | zero => exact .inr rfl
      | succ n => exact .inr rfl
    obtain ⟨s₁, hpipe, h₁⟩ := @ih s _ fuel h hfollow (by simp only [NonTerm.need]; omega)
    have hlen := h₁.length_le
    rw [List.length_append, List.length_replicate] at hlen
    obtain ⟨s₂, hback, h₂⟩ := @backLoop_complete line post s₁ _ h0 (line.length + 1) n c h₁ rfl (by omega)
    obtain ⟨s₃, hpeek, h₃⟩ := @peek_at _ _ line post h₂ [SEMI] (by decide)
    obtain ⟨_, _, s₄, htok, h₄, -⟩ := @gettoken_cons .semi s₃ (ts' ++ rest) line post h0 h₃
    obtain ⟨s', hline, hat⟩ := @ih' s₄ rest fuel h₄ hrest (by simp only [NonTerm.need]; omega)
    rw [show starts [SEMI] (.semi :: (ts' ++ rest)) = true from rfl] at hpeek
    refine ⟨s', ?_, hat⟩
    simp only [NonTerm.parse] at hpipe hline ⊢
    simp only [parseline, hpipe, ok_bind, hback, hpeek, if_true, htok, hline]
    rfl
  | @pipe ts c _ ih =>
    simp only [NonTerm.need] at hfuel
    obtain ⟨fuel, rfl⟩ : ∃ k, fuel = k + 1 := ⟨fuel - 1, by omega⟩
    obtain ⟨s₁, hcmd, h₁⟩ := @ih s rest fuel h (hrest.mono (by decide)) (by simp only [NonTerm.need]; omega)
    obtain ⟨s', hpeek, hat⟩ := @peek_at _ _ line post h₁ [BAR] (by decide)
    rw [hrest.not_starts (by decide)] at hpeek
    refine ⟨s', ?_, hat⟩
    simp only [NonTerm.parse] at hcmd ⊢
    simp only [parsepipe, hcmd, ok_bind, hpeek]
    rfl
  | @pipeThen ts ts' c c' _ _ ih ih' =>
    rw [List.append_assoc, List.cons_append] at h
    simp only [NonTerm.need, List.length_append, List.length_cons] at hfuel
    obtain ⟨fuel, rfl⟩ : ∃ k, fuel = k + 1 := ⟨fuel - 1, by omega⟩
    obtain ⟨s₁, hcmd, h₁⟩ := @ih s (.bar :: (ts' ++ rest)) fuel h (.inr rfl) (by simp only [NonTerm.need]; omega)
    obtain ⟨s₂, hpeek, h₂⟩ := @peek_at _ _ line post h₁ [BAR] (by decide)
    obtain ⟨_, _, s₃, htok, h₃, -⟩ := @gettoken_cons .bar s₂ (ts' ++ rest) line post h0 h₂
    obtain ⟨s', hpipe, hat⟩ := @ih' s₃ rest fuel h₃ hrest (by simp only [NonTerm.need]; omega)
    rw [show starts [BAR] (.bar :: (ts' ++ rest)) = true from rfl] at hpeek
    refine ⟨s', ?_, hat⟩
    simp only [NonTerm.parse] at hcmd hpipe ⊢
    simp only [parsepipe, hcmd, ok_bind, hpeek, if_true, htok, hpipe]
    rfl
  | @block ts c _ rs ih =>
    have htoks : .lpar :: (ts ++ .rpar :: redirToks rs) ++ rest = Tok.lpar :: (ts ++ (.rpar :: (redirToks rs ++ rest))) := by simp
    rw [htoks] at h
    simp only [NonTerm.need, List.length_append, List.length_cons] at hfuel
    obtain ⟨fuel, rfl⟩ : ∃ k, fuel = k + 2 := ⟨fuel - 2, by omega⟩
    obtain ⟨s₁, hpeek, h₁⟩ := @peek_at _ _ line post h [LPAR] (by decide)
    obtain ⟨s₂, hpeek', h₂⟩ := @peek_at _ _ line post h₁ [LPAR] (by decide)
    obtain ⟨_, _, s₃, htok, h₃, -⟩ := @gettoken_cons .lpar s₂ _ line post h0 h₂
    obtain ⟨s₄, hline, h₄⟩ := @ih s₃ (.rpar :: (redirToks rs ++ rest)) fuel h₃ (.inr rfl) (by simp only [NonTerm.need]; omega)
    obtain ⟨s₅, hclose, h₅⟩ := @peek_at _ _ line post h₄ [RPAR] (by decide)
    obtain ⟨_, _, s₆, htok', h₆, -⟩ := @gettoken_cons .rpar s₅ (redirToks rs ++ rest) line post h0 h₅
    have hlen := h₆.length_le
    have hrs := length_redirToks rs
    rw [List.length_append] at hlen
    obtain ⟨s', hredirs, hat⟩ := @parseredirs_complete line post s₆ rest h0 (line.length + 1) rs c h₆ (hrest.not_starts (by decide)) (by omega)
    refine ⟨s', ?_, hat⟩
    rw [show starts [LPAR] (.lpar :: (ts ++ (.rpar :: (redirToks rs ++ rest)))) = true from rfl] at hpeek hpeek'
    rw [show starts [RPAR] (.rpar :: (redirToks rs ++ rest)) = true from rfl] at hclose
    simp only [NonTerm.parse] at hline ⊢
    simp only [parseexec, parseblock, hpeek, hpeek', ok_bind, if_true, htok, hline, hclose, htok', Bool.not_true, Bool.false_eq_true, if_false,
      hredirs]
  | simple rs args hargs =>
    rw [List.append_assoc] at h
    simp only [NonTerm.need] at hfuel
    obtain ⟨fuel, rfl⟩ : ∃ k, fuel = k + 1 := ⟨fuel - 1, by omega⟩
    have hpar : starts [LPAR] (redirToks rs ++ (argToks args ++ rest)) = false :=
      starts_redirs rs (by decide) (starts_args args (hrest.not_starts (by decide)))
    have hredir : starts [LESS, GREATER] (argToks args ++ rest) = false := starts_args args (hrest.not_starts (by decide))
    have hlen := h.length_le
    have hrs := length_redirToks rs
    rw [List.length_append] at hlen
    obtain ⟨s₁, hpeek, h₁⟩ := @peek_at _ _ line post h [LPAR] (by decide)
    rw [hpar] at hpeek
    obtain ⟨s₂, hredirs, h₂⟩ := @parseredirs_complete line post s₁ _ h0 (line.length + 1) rs (.exec []) h₁ hredir (by omega)
    have hlen₂ := h₂.length_le
    have hargs' := length_argToks args
    rw [List.length_append] at hlen₂
    obtain ⟨s', hrun, hat⟩ := @argLoop_complete line post s₂ rest h0 (line.length + 1) args 0 (rs.foldl Redir.wrap (.exec [])) h₂ hrest (by omega)
      (by omega)
    refine ⟨s', ?_, hat⟩
    rw [addArgs_exec] at hrun
    simp only [NonTerm.parse, parseexec, hpeek, ok_bind, Bool.false_eq_true, if_false, hredirs, hrun]
    rfl

/- nulterminate() -/

/-- The words of a command: each argv[i] of an EXEC node and each file of a REDIR node, as nulterminate() visits them. -/
def Cmd.words : Cmd → List (Nat × Nat)
  | .exec args => args
  | .redir cmd file efile _ _ => cmd.words ++ [(file, efile)]
  | .pipe left right | .list left right => left.words ++ right.words
  | .back cmd => cmd.words

/-- The array with a 0 at each of `es`. -/
def zeros (es : List Nat) (a : List UInt8) : List UInt8 := es.foldl (fun a e => a.set e 0) a

variable {a b : List UInt8}

theorem length_zeros (es : List Nat) (a : List UInt8) : (zeros es a).length = a.length := by
  induction es generalizing a with
  | nil => rfl
  | cons e es ih => exact (ih (a.set e 0)).trans List.length_set

theorem getElem?_zeros (es : List Nat) (a : List UInt8) (k : Nat) :
    (zeros es a)[k]? = if k ∈ es ∧ k < a.length then some 0 else a[k]? := by
  induction es generalizing a with
  | nil => simp [zeros]
  | cons e es ih =>
    rw [show zeros (e :: es) a = zeros es (a.set e 0) from rfl, ih, List.length_set, List.getElem?_set]
    grind

theorem zeros_perm {es es' : List Nat} (h : es.Perm es') (a : List UInt8) : zeros es a = zeros es' a := by
  refine List.ext_getElem? fun k => ?_
  simp only [getElem?_zeros, h.mem_iff]

theorem terminate_eq {p : Nat} (h : p < a.length) : terminate a p = .ok (a.set p 0) := by
  rw [terminate, Buffer.write_some h]

theorem nulterminate_eq (c : Cmd) (a : List UInt8) (h : ∀ w ∈ c.words, w.2 < a.length) :
    nulterminate c a = .ok (zeros (c.words.map Prod.snd) a) := by
  induction c generalizing a with
  | exec args =>
    induction args generalizing a with
    | nil => rfl
    | cons w args ih =>
      simp only [Cmd.words, List.forall_mem_cons] at h
      rw [nulterminate, List.foldlM_cons, terminate_eq h.1, ok_bind]
      exact ih (a.set w.2 0) (by simpa [Cmd.words] using h.2)
  | redir cmd file efile mode fd ih =>
    simp only [Cmd.words, List.forall_mem_append, List.forall_mem_singleton] at h
    rw [nulterminate, ih a h.1, ok_bind, terminate_eq (by rw [length_zeros]; exact h.2)]
    simp [Cmd.words, zeros]
  | pipe left right ihl ihr | list left right ihl ihr =>
    simp only [Cmd.words, List.forall_mem_append] at h
    rw [nulterminate, ihl a h.1, ok_bind, ihr _ (by rw [length_zeros]; exact h.2)]
    simp [Cmd.words, zeros]
  | back cmd ih => exact ih a h

/-- A longest run of bytes of a word. -/
def IsWord (line : List UInt8) (w : Nat × Nat) : Prop :=
  ∃ pre text post, line = pre ++ (text ++ post) ∧ w = (pre.length, pre.length + text.length) ∧ (∀ c ∈ text, isOrdinary c = true) ∧
    ∀ c ∈ post.head?, isOrdinary c = false

theorem Lexes.isWord {xs : List UInt8} {q eq : Nat} (h : Lexes xs s ts) (hmem : .word q eq ∈ ts) (pre : List UInt8) (hs : s = pre.length) :
    IsWord (pre ++ xs) (q, eq) := by
  induction h generalizing pre with
  | nil => cases hmem
  | @space c xs s ts hc h ih =>
    have := ih hmem (pre ++ [c]) (by simp [hs])
    simpa using this
  | @single c t xs s ts hc h ih =>
    have hmem : .word q eq ∈ ts := by
      rcases List.mem_cons.mp hmem with rfl | hmem
      · have := (single_some hc).2.1
        cases this
      · exact hmem
    have := ih hmem (pre ++ [c]) (by simp [hs])
    simpa using this
  | @greater xs s ts hx h ih =>
    have := ih (by simpa using hmem) (pre ++ [GREATER]) (by simp [hs])
    simpa using this
  | @append xs s ts h ih =>
    have := ih (by simpa using hmem) (pre ++ [GREATER, GREATER]) (by simp [hs])
    simpa using this
  | @word w xs s ts hne hw hx h ih =>
    rcases List.mem_cons.mp hmem with hmem | hmem
    · cases hmem
      exact ⟨pre, w, xs, rfl, by rw [hs], hw, hx⟩
    · have := ih hmem (pre ++ w) (by simp [hs])
      simpa using this

theorem words_foldl (rs : List Redir) (c : Cmd) : (rs.foldl Redir.wrap c).words = c.words ++ rs.map fun r => (r.q, r.eq) := by
  induction rs generalizing c with
  | nil => simp
  | cons r rs ih =>
    obtain ⟨d, q, eq⟩ := r
    rw [List.foldl_cons, ih]
    cases d <;> simp [Redir.wrap, Dir.wrap, Cmd.words]

theorem words_backs (n : Nat) (c : Cmd) : (backs n c).words = c.words := by
  induction n generalizing c with
  | zero => rfl
  | succ n ih => exact ih (.back c)

theorem mem_redirToks {rs : List Redir} {r : Redir} (h : r ∈ rs) : .word r.q r.eq ∈ redirToks rs :=
  List.mem_flatMap.mpr ⟨r, h, by simp [Redir.toks]⟩

/-- The words of the command are words of the line. -/
theorem Derives.word_mem {n : NonTerm} {c : Cmd} (h : Derives n ts c) : ∀ w ∈ c.words, .word w.1 w.2 ∈ ts := by
  induction h with
  | line n _ ih =>
    intro w hw
    rw [words_backs] at hw
    exact List.mem_append_left _ (ih w hw)
  | lineThen n _ _ ih ih' =>
    intro w hw
    simp only [Cmd.words, words_backs, List.mem_append] at hw
    rcases hw with hw | hw
    · simp [ih w hw]
    · simp [ih' w hw]
  | pipe _ ih => exact ih
  | pipeThen _ _ ih ih' =>
    intro w hw
    simp only [Cmd.words, List.mem_append] at hw
    rcases hw with hw | hw
    · simp [ih w hw]
    · simp [ih' w hw]
  | block _ rs ih =>
    intro w hw
    rw [words_foldl, List.mem_append, List.mem_map] at hw
    rcases hw with hw | ⟨r, hr, rfl⟩
    · simp [ih w hw]
    · simp [mem_redirToks hr]
  | simple rs args _ =>
    intro w hw
    rw [words_foldl, List.mem_append, List.mem_map] at hw
    rcases hw with hw | ⟨r, hr, rfl⟩
    · obtain ⟨a, ha, rfl⟩ := List.mem_map.mp hw
      exact List.mem_append_right _ (List.mem_flatMap.mpr ⟨a, ha, by simp [Arg.toks]⟩)
    · rcases List.mem_append.mp hr with hr | hr
      · exact List.mem_append_left _ (mem_redirToks hr)
      · obtain ⟨a, ha, hr⟩ := List.mem_flatMap.mp hr
        exact List.mem_append_right _ (List.mem_flatMap.mpr ⟨a, ha, List.mem_cons_of_mem _ (mem_redirToks hr)⟩)

/- parsecmd() -/

/-- The line is derivable and `c` is the tree. -/
def Parsed (line : List UInt8) (c : Cmd) : Prop := ∃ ts, Lexes line 0 ts ∧ Derives .line ts c

theorem Parsed.isWord {c : Cmd} (h : Parsed line c) : ∀ w ∈ c.words, IsWord line w := by
  obtain ⟨ts, hlex, hd⟩ := h
  intro w hw
  exact hlex.isWord (hd.word_mem w hw) [] rfl

theorem IsWord.le {w : Nat × Nat} (h : IsWord line w) : w.2 ≤ line.length := by
  obtain ⟨pre, text, post, rfl, rfl, -⟩ := h
  simp

theorem strlen_line (h0 : 0 ∉ line) : Ulib.strlen (line ++ 0 :: post) 0 = some line.length := by
  rw [Ulib.strlen, List.drop_zero, Ulib.cstr_at h0, Option.map_some]

/-- The buffer that the words are then read from. -/
def terminated (line post : List UInt8) (c : Cmd) : List UInt8 := zeros (c.words.map Prod.snd) (line ++ 0 :: post)

theorem parsecmd_complete (h0 : 0 ∉ line) {c : Cmd} (h : Parsed line c) :
    parsecmd (line ++ 0 :: post) = .ok (c, terminated line post c) := by
  have hwords := h.isWord
  obtain ⟨ts, hlex, hd⟩ := h
  have hat : At line 0 (ts ++ []) := ⟨Nat.zero_le _, by simpa using hlex⟩
  have hlen := hlex.length_le
  obtain ⟨s₁, hline, h₁⟩ := @complete line post 0 [] h0 .line ts c hd (4 * line.length + 4) hat (.inl rfl) (by simp only [NonTerm.need]; omega)
  have hnul := nulterminate_eq c (line ++ 0 :: post) fun w hw => by
    have := (hwords w hw).le
    simp only [List.length_append, List.length_cons]
    omega
  simp only [NonTerm.parse] at hline
  simp only [parsecmd, strlen_line h0, hline, ok_bind, peek_nil h₁, ne_eq, not_true_eq_false, if_false, hnul]
  rfl

theorem parsecmd_meets (h0 : 0 ∉ line) : Meets (parsecmd (line ++ 0 :: post)) fun r => Parsed line r.1 ∧ r.2 = terminated line post r.1 := by
  obtain ⟨ts, hlex⟩ := exists_lexes line 0
  have hlen := hlex.length_le
  simp only [parsecmd, strlen_line h0]
  refine ((sound h0 (4 * line.length + 4)).parseline 0 ts ⟨Nat.zero_le _, hlex⟩ (by omega)).bind fun r hr => ?_
  obtain ⟨pre, ts', rfl, hd, hat⟩ := hr
  cases ts' with
  | nil =>
    have hparsed : Parsed line r.1 := ⟨pre, by simpa using hlex, hd⟩
    have hnul := nulterminate_eq r.1 (line ++ 0 :: post) fun w hw => by
      have := (hparsed.isWord w hw).le
      simp only [List.length_append, List.length_cons]
      omega
    simp only [peek_nil hat, ok_bind, ne_eq, not_true_eq_false, if_false, hnul]
    exact ⟨hparsed, rfl⟩
  | cons t ts' =>
    refine Meets.peek (by simp) hat fun s h => ?_
    simp only [ne_eq, Nat.ne_of_lt h.lt, not_false_eq_true, if_true]
    exact rfl

/-- The parser accepts what the grammar derives, with the tree of the derivation, and reports an error for every other line. Each access
is inside the array, and s never goes past es: these would be failures that are not reported. -/
theorem parsecmd_accepts_grammar (line post : List UInt8) (h0 : 0 ∉ line) :
    (∀ c, (∃ a, parsecmd (line ++ 0 :: post) = .ok (c, a)) ↔ ∃ ts, Lexes line 0 ts ∧ Derives .line ts c) ∧
    ((¬∃ c ts, Lexes line 0 ts ∧ Derives .line ts c) → ∃ e, parsecmd (line ++ 0 :: post) = .error e ∧ e.reported = true) := by
  have hmeets := @parsecmd_meets line post h0
  refine ⟨fun c => ⟨?_, fun h => ⟨_, parsecmd_complete h0 h⟩⟩, fun hnot => ?_⟩
  · rintro ⟨a, hrun⟩
    rw [hrun] at hmeets
    exact hmeets.1
  · cases hrun : parsecmd (line ++ 0 :: post) with
    | ok r =>
      rw [hrun] at hmeets
      exact absurd ⟨r.1, hmeets.1⟩ hnot
    | error e =>
      rw [hrun] at hmeets
      exact ⟨e, rfl, hmeets⟩

/-- `a>b|c` without spaces. -/
theorem parsecmd_redirected_pipe : ∃ ts, Lexes [97, 62, 98, 124, 99] 0 ts ∧
    Derives .line ts (.pipe (.redir (.exec [(0, 1)]) 2 3 (O_WRONLY ||| O_CREATE ||| O_TRUNC) 1) (.exec [(4, 5)])) :=
  ((parsecmd_accepts_grammar [97, 62, 98, 124, 99] [] (by decide)).1 _).mp ⟨[97, 0, 98, 0, 99, 0], by decide⟩

/- What the words then are -/

/-- A 0 is never put inside a word: where a word ends, no word can go on. -/
theorem IsWord.not_end {w w' : Nat × Nat} (h : IsWord line w) (h' : IsWord line w') {k : Nat} (hk : w.1 ≤ k) (hlt : k < w.2) : k ≠ w'.2 := by
  obtain ⟨pre, text, post, hline, rfl, htext, -⟩ := h
  obtain ⟨pre', text', post', hline', rfl, -, hpost'⟩ := h'
  rintro rfl
  simp only at hk hlt
  have hin : (line)[pre'.length + text'.length]? = text[pre'.length + text'.length - pre.length]? := by
    rw [hline, List.getElem?_append_right hk, List.getElem?_append_left (by omega)]
  have hout : (line)[pre'.length + text'.length]? = post'.head? := by
    rw [hline', List.getElem?_append_right (by omega), List.getElem?_append_right (by omega), List.head?_eq_getElem?]
    congr 1
    omega
  have hbyte := List.getElem?_eq_getElem (show pre'.length + text'.length - pre.length < text.length by omega)
  rw [hin, hbyte] at hout
  have hord := htext _ (List.getElem_mem (show pre'.length + text'.length - pre.length < text.length by omega))
  rw [hpost' _ hout.symm] at hord
  cases hord

/-- The text of a word. -/
def text (line : List UInt8) (w : Nat × Nat) : List UInt8 := (line.drop w.1).take (w.2 - w.1)

theorem cstr_terminated (h0 : 0 ∉ line) {c : Cmd} (hc : Parsed line c) {w : Nat × Nat} (hw : w ∈ c.words) :
    Ulib.cstr ((terminated line post c).drop w.1) = some (text line w) := by
  have hword := hc.isWord w hw
  have hmem : w.2 ∈ c.words.map Prod.snd := List.mem_map.mpr ⟨w, hw, rfl⟩
  have hle := hword.le
  have hlen : (terminated line post c).length = line.length + 1 + post.length := by
    rw [terminated, length_zeros]
    simp only [List.length_append, List.length_cons]
    omega
  have hzero : (terminated line post c)[w.2]? = some 0 := by
    rw [terminated, getElem?_zeros, if_pos ⟨hmem, by simp only [List.length_append, List.length_cons]; omega⟩]
  have hsame (k : Nat) (hk : w.1 ≤ k) (hlt : k < w.2) : (terminated line post c)[k]? = (line)[k]? := by
    have hnot : k ∉ c.words.map Prod.snd := by
      intro hk'
      obtain ⟨w', hw', rfl⟩ := List.mem_map.mp hk'
      exact hword.not_end (hc.isWord w' hw') hk hlt rfl
    rw [terminated, getElem?_zeros, if_neg fun h => hnot h.1, List.getElem?_append_left (by omega)]
  have hwidth : w.1 ≤ w.2 := by
    obtain ⟨pre, t, post, -, rfl, -⟩ := hword
    simp
  have hfront : ((terminated line post c).drop w.1).take (w.2 - w.1) = text line w := by
    refine List.ext_getElem? fun k => ?_
    by_cases hk : k < w.2 - w.1
    · rw [text, List.getElem?_take_of_lt hk, List.getElem?_take_of_lt hk, List.getElem?_drop, List.getElem?_drop, hsame _ (by omega) (by omega)]
    · rw [text, List.getElem?_take_eq_none (by omega), List.getElem?_take_eq_none (by omega)]
  have hback : ((terminated line post c).drop w.1).drop (w.2 - w.1) = 0 :: (terminated line post c).drop (w.2 + 1) := by
    rw [List.drop_drop, Nat.add_sub_cancel' hwidth, List.drop_eq_getElem_cons (by omega)]
    rw [List.getElem?_eq_getElem (by omega), Option.some.injEq] at hzero
    rw [hzero]
  rw [← List.take_append_drop (w.2 - w.1) ((terminated line post c).drop w.1), hfront, hback]
  exact Ulib.cstr_at (fun h => h0 (List.mem_of_mem_drop (List.mem_of_mem_take h))) _

/-- After parsecmd() each word reads as its token, and no other order of the writes would leave another array. -/
theorem nulterminate_exact (line post a : List UInt8) (c : Cmd) (h0 : 0 ∉ line) (h : parsecmd (line ++ 0 :: post) = .ok (c, a)) :
    ∃ ts, Lexes line 0 ts ∧ (∀ w ∈ c.words, .word w.1 w.2 ∈ ts ∧ Ulib.cstr (a.drop w.1) = some ((line.drop w.1).take (w.2 - w.1))) ∧
      ∀ order : List Nat, order.Perm (c.words.map Prod.snd) → order.foldl (fun a e => a.set e 0) (line ++ 0 :: post) = a := by
  have hmeets := @parsecmd_meets line post h0
  rw [h] at hmeets
  obtain ⟨hparsed, ha⟩ := hmeets
  obtain ⟨ts, hlex, hd⟩ := hparsed
  refine ⟨ts, hlex, fun w hw => ⟨hd.word_mem w hw, ?_⟩, fun order hperm => ?_⟩
  · simp only at ha
    rw [ha]
    exact cstr_terminated h0 ⟨ts, hlex, hd⟩ hw
  · simp only at ha
    rw [ha]
    exact zeros_perm hperm (line ++ 0 :: post)

/-- `a>b|c`: the 0 after `a` is where `>` was and the one after `b` where `|` was. -/
theorem nulterminate_no_spaces : ∃ ts, Lexes [97, 62, 98, 124, 99] 0 ts ∧ .word 2 3 ∈ ts ∧ Ulib.cstr [98, 0, 99, 0] = some [98] := by
  obtain ⟨ts, hlex, hwords, -⟩ := nulterminate_exact [97, 62, 98, 124, 99] [] [97, 0, 98, 0, 99, 0]
    (.pipe (.redir (.exec [(0, 1)]) 2 3 (O_WRONLY ||| O_CREATE ||| O_TRUNC) 1) (.exec [(4, 5)])) (by decide) (by decide)
  exact ⟨ts, hlex, hwords (2, 3) (by decide)⟩

end Xv6.Sh
