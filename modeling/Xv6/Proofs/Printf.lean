import Mathlib.Data.Nat.Digits.Lemmas
import Xv6.Printf

namespace Xv6

namespace Printf

variable {D : List UInt8} {base : Nat} {x : Nat}

/-- The digits of a number, the last one first. Zero has one digit. -/
def digitsOf (base x : Nat) : List Nat := if x = 0 then [0] else Nat.digits base x

/-- The characters of the digits. -/
def chars (D : List UInt8) (ds : List Nat) : List UInt8 := ds.map fun d => D.getD d 0

/-- The numeral of an integer, with a sign if it is negative. -/
def numeral (D : List UInt8) (base : Nat) (n : Int) : List UInt8 :=
  (if n < 0 then [MINUS] else []) ++ (chars D (digitsOf base n.natAbs)).reverse

theorem digitsOf_last (hb : 1 < base) (h : x / base = 0) : digitsOf base x = [x % base] := by
  have hlt : x < base := (Nat.div_eq_zero_iff_lt (by omega)).mp h
  rw [digitsOf, Nat.mod_eq_of_lt hlt]
  split
  · next h0 => rw [h0]
  · next h0 => exact Nat.digits_of_lt base x h0 hlt

theorem digitsOf_step (hb : 1 < base) (h : x / base ≠ 0) : digitsOf base x = x % base :: digitsOf base (x / base) := by
  have h0 : x ≠ 0 := by
    rintro rfl
    exact h (Nat.zero_div base)
  rw [digitsOf, if_neg h0, digitsOf, if_neg h, Nat.digits_def' hb (Nat.pos_of_ne_zero h0)]

/-- The loop writes the digits, if there is room for them. -/
theorem digitLoop_eq (hb : 1 < base) (hD : base ≤ D.length) {fuel : Nat} (hfuel : x < base ^ (fuel + 1)) (pre rest : List UInt8) :
    digitLoop D base (fuel + 1) x (pre ++ rest) pre.length =
      if (digitsOf base x).length ≤ rest.length then
        some (pre ++ chars D (digitsOf base x) ++ rest.drop (digitsOf base x).length, pre.length + (digitsOf base x).length)
      else none := by
  have hmod (x : Nat) : D[x % base]? = some (D.getD (x % base) 0) := by
    rw [List.getD_eq_getElem?_getD, List.getElem?_eq_getElem (Nat.lt_of_lt_of_le (Nat.mod_lt x (by omega)) hD)]
    rfl
  induction fuel generalizing x pre rest with
  | zero =>
    have hlast : x / base = 0 := Nat.div_eq_of_lt (by simpa using hfuel)
    rw [digitLoop, hmod, digitsOf_last hb hlast]
    cases rest with
    | nil => simp [Buffer.write]
    | cons y rest => simp [Buffer.write_at, hlast, chars]
  | succ fuel ih =>
    rw [digitLoop, hmod]
    cases rest with
    | nil =>
      have hpos : 0 < (digitsOf base x).length := by
        by_cases hlast : x / base = 0
        · simp [digitsOf_last hb hlast]
        · simp [digitsOf_step hb hlast]
      rw [List.length_nil, if_neg (Nat.not_le.mpr hpos)]
      simp [Buffer.write]
    | cons y rest =>
      simp only [Option.bind_eq_bind, Option.bind_some, Buffer.write_at]
      by_cases hlast : x / base = 0
      · simp [digitsOf_last hb hlast, hlast, chars]
      · have hnext := @ih (x / base) (Nat.div_lt_of_lt_mul (by rwa [Nat.pow_succ, Nat.mul_comm] at hfuel)) (pre ++ [D.getD (x % base) 0]) rest
        rw [if_pos hlast]
        rw [digitsOf_step hb hlast, List.length_cons, List.length_cons]
        simp only [List.length_append, List.length_singleton, List.append_assoc, List.singleton_append] at hnext
        rw [hnext]
        by_cases hroom : (digitsOf base (x / base)).length ≤ rest.length
        · rw [if_pos hroom, if_pos (by omega)]
          simp [chars]
          omega
        · rw [if_neg hroom, if_neg (by omega)]

theorem putBack_eq (pre rest : List UInt8) : putBack (pre ++ rest) pre.length = some pre.reverse := by
  induction pre using List.reverseRecOn generalizing rest with
  | nil => rfl
  | append_singleton pre c ih =>
    have hget : (pre ++ [c] ++ rest)[pre.length]? = some c := by simp
    have hih := ih ([c] ++ rest)
    rw [← List.append_assoc] at hih
    rw [List.length_append, List.length_singleton, putBack, hget]
    simp only [Option.bind_eq_bind, Option.bind_some, hih]
    simp

/-- printint() gives the numeral, if buf has room for it. -/
theorem putNumber_eq (hb : 1 < base) (hD : base ≤ D.length) (hx : x < 2 ^ 64) (neg : Bool) (buf : List UInt8) :
    putNumber D base neg x buf =
      if (digitsOf base x).length + neg.toNat ≤ buf.length then
        some ((if neg then [MINUS] else []) ++ (chars D (digitsOf base x)).reverse)
      else none := by
  have hpow : x < base ^ 65 :=
    Nat.lt_of_lt_of_le hx (Nat.le_trans (Nat.pow_le_pow_right (by decide) (by decide)) (Nat.pow_le_pow_left hb 65))
  have hloop := digitLoop_eq hb hD hpow [] buf
  rw [List.nil_append, List.length_nil] at hloop
  rw [putNumber, hloop]
  by_cases hdigits : (digitsOf base x).length ≤ buf.length
  · rw [if_pos hdigits]
    have hlen : (chars D (digitsOf base x)).length = (digitsOf base x).length := List.length_map _
    simp only [Option.bind_eq_bind, Option.bind_some, List.nil_append, Nat.zero_add]
    cases neg with
    | false =>
      simp only [Bool.false_eq_true, if_false, Bool.toNat_false, Nat.add_zero, List.nil_append]
      rw [if_pos hdigits, ← hlen, putBack_eq]
    | true =>
      simp only [if_true, Bool.toNat_true]
      cases hrest : buf.drop (digitsOf base x).length with
      | nil =>
        rw [List.append_nil, if_neg (by rw [List.drop_eq_nil_iff] at hrest; omega)]
        simp [Buffer.write, hlen]
      | cons y rest =>
        have hroom : (digitsOf base x).length + 1 ≤ buf.length := by
          have := congrArg List.length hrest
          rw [List.length_drop, List.length_cons] at this
          omega
        have hback := putBack_eq (chars D (digitsOf base x) ++ [MINUS]) rest
        rw [List.length_append, List.length_singleton, hlen, List.append_assoc, List.singleton_append] at hback
        rw [if_pos hroom]
        nth_rewrite 1 [← hlen]
        rw [Buffer.write_at, Option.bind_some, hback]
        simp
  · rw [if_neg hdigits, if_neg (by omega)]
    rfl

theorem length_digitsOf (hb : 1 < base) {k : Nat} (hk : 1 ≤ k) : (digitsOf base x).length ≤ k ↔ x < base ^ k := by
  rw [digitsOf]
  split
  · next h0 =>
    rw [h0]
    exact iff_of_true (by simpa using hk) (Nat.pow_pos (by omega))
  · exact Nat.digits_length_le_iff hb x

def readDigits (D : List UInt8) (base : Nat) (s : List UInt8) : Nat := Nat.ofDigits base (s.reverse.map D.idxOf)

/-- What a numeral is read as. -/
def readNumeral (D : List UInt8) (base : Nat) (s : List UInt8) : Int :=
  if s.head? = some MINUS then -readDigits D base s.tail else readDigits D base s

theorem digitsOf_lt (hb : 1 < base) : ∀ d ∈ digitsOf base x, d < base := by
  intro d hd
  rw [digitsOf] at hd
  split at hd
  · rw [List.mem_singleton.mp hd]
    omega
  · exact Nat.digits_lt_base hb hd

theorem ofDigits_digitsOf (base x : Nat) : Nat.ofDigits base (digitsOf base x) = x := by
  rw [digitsOf]
  split
  · next h0 => simp [h0]
  · exact Nat.ofDigits_digits base x

theorem idxOf_chars (hD : D.Nodup) {ds : List Nat} (hds : ∀ d ∈ ds, d < D.length) : (chars D ds).map D.idxOf = ds := by
  rw [chars, List.map_map]
  refine (List.map_congr_left fun d hd => ?_).trans (List.map_id ds)
  have hlt := hds d hd
  simp [List.getD_eq_getElem?_getD, List.getElem?_eq_getElem hlt, hD.idxOf_getElem d hlt]

/-- The numeral is read as the number. -/
theorem readNumeral_numeral (hb : 1 < base) (hlen : base ≤ D.length) (hD : D.Nodup) (hminus : MINUS ∉ D) (n : Int) :
    readNumeral D base (numeral D base n) = n := by
  have hds : ∀ d ∈ digitsOf base n.natAbs, d < D.length := fun d hd => Nat.lt_of_lt_of_le (digitsOf_lt hb d hd) hlen
  have hback : readDigits D base (chars D (digitsOf base n.natAbs)).reverse = n.natAbs := by
    rw [readDigits, List.reverse_reverse, idxOf_chars hD hds, ofDigits_digitsOf]
  have hchars : ∀ c ∈ (chars D (digitsOf base n.natAbs)).reverse, c ∈ D := by
    intro c hc
    obtain ⟨d, hd, rfl⟩ := List.mem_map.mp (List.mem_reverse.mp hc)
    simp [List.getD_eq_getElem?_getD, List.getElem?_eq_getElem (hds d hd)]
  rw [numeral]
  by_cases hneg : n < 0
  · rw [if_pos hneg, List.singleton_append, readNumeral, List.head?_cons, if_pos rfl, List.tail_cons, hback]
    omega
  · have hhead : (chars D (digitsOf base n.natAbs)).reverse.head? ≠ some MINUS := fun h => hminus (hchars _ (List.mem_of_head? h))
    rw [if_neg hneg, List.nil_append, readNumeral, if_neg hhead, hback]
    omega

end Printf

section Values

variable {w : Nat}

theorem natAbs_of_neg (xx : BitVec w) (h : xx.toInt < 0) : (-xx).toNat = xx.toInt.natAbs := by
  have hlt := xx.isLt
  rw [BitVec.toInt_eq_toNat_cond] at h ⊢
  split at h
  · omega
  · rw [BitVec.toNat_neg, Nat.mod_eq_of_lt (by omega)]
    split <;> omega

theorem natAbs_of_nonneg (xx : BitVec w) (h : ¬xx.toInt < 0) : xx.toNat = xx.toInt.natAbs := by
  have hlt := xx.isLt
  rw [BitVec.toInt_eq_toNat_cond] at h ⊢
  split at h
  · split <;> omega
  · omega

end Values

namespace KernelPrintf
open Printf

/-- The number that printint() is given. -/
def value (xx : BitVec 64) (sign : Bool) : Int := if sign then xx.toInt else xx.toNat

theorem printint_eq {base : Nat} (hb : 1 < base) (hD : base ≤ digits.length) (buf : List UInt8) (xx : BitVec 64) (sign : Bool) :
    printint buf xx base sign =
      if (digitsOf base (value xx sign).natAbs).length + (decide (value xx sign < 0)).toNat ≤ buf.length then
        some (numeral digits base (value xx sign))
      else none := by
  have hlt := xx.isLt
  rw [printint]
  split
  · next h =>
    have hval : value xx sign = xx.toInt := by rw [value, if_pos h.1]
    rw [putNumber_eq hb hD (-xx).isLt, natAbs_of_neg xx h.2, hval, numeral, if_pos h.2]
    simp [h.2]
  · next h =>
    have hval : ¬value xx sign < 0 ∧ xx.toNat = (value xx sign).natAbs := by
      rw [value]
      cases sign with
      | false => simp
      | true => exact ⟨fun hneg => h ⟨rfl, hneg⟩, natAbs_of_nonneg xx fun hneg => h ⟨rfl, hneg⟩⟩
    rw [putNumber_eq hb hD hlt, hval.2, numeral, if_neg hval.1]
    simp [hval.1]

/-- When printint() is exact: buf has 16 characters, so it is unless a decimal numeral with its sign has more. -/
theorem printint_exact_iff (buf : List UInt8) (hbuf : buf.length = 16) (xx : BitVec 64) (base : Nat) (sign : Bool)
    (hmode : (base, sign) ∈ [(10, true), (10, false), (16, false)]) :
    (printint buf xx base sign = some (numeral digits base (value xx sign)) ∧ readNumeral digits base (numeral digits base (value xx sign)) = value xx sign) ↔
      base = 16 ∨ -10 ^ 15 < value xx sign ∧ value xx sign < 10 ^ 16 := by
  have hbase : 1 < base ∧ base ≤ digits.length := by
    simp only [List.mem_cons, Prod.mk.injEq, List.not_mem_nil, or_false] at hmode
    rcases hmode with ⟨rfl, -⟩ | ⟨rfl, -⟩ | ⟨rfl, -⟩ <;> decide
  have hread := readNumeral_numeral hbase.1 hbase.2 (by decide) (by decide) (value xx sign)
  rw [printint_eq hbase.1 hbase.2, hbuf, hread]
  simp only [ite_eq_left_iff, reduceCtorEq, imp_false, Decidable.not_not, and_true]
  simp only [List.mem_cons, Prod.mk.injEq, List.not_mem_nil, or_false] at hmode
  by_cases h16 : base = 16
  · subst h16
    have hsign : sign = false := by simpa using hmode
    have hlt := xx.isLt
    have hlen : (digitsOf 16 xx.toNat).length ≤ 16 := (length_digitsOf (by decide) (by decide)).mpr hlt
    have hneg : ¬((xx.toNat : Int) < 0) := by omega
    rw [hsign, value]
    simpa [hneg] using hlen
  · obtain rfl : base = 10 := by
      rcases hmode with h | h | h
      · exact h.1
      · exact h.1
      · exact absurd h.1 h16
    by_cases hneg : value xx sign < 0
    · have hlen := @length_digitsOf 10 (value xx sign).natAbs (by decide) 15 (by decide)
      simp only [hneg, decide_true, Bool.toNat_true]
      omega
    · have hlen := @length_digitsOf 10 (value xx sign).natAbs (by decide) 16 (by decide)
      simp only [hneg, decide_false, Bool.toNat_false]
      omega

theorem printint_minus_seven : printint (List.replicate 16 0) (-7) 10 true = some (numeral digits 10 (value (-7) true)) :=
  ((printint_exact_iff (List.replicate 16 0) rfl (-7) 10 true (by decide)).mpr (by decide)).1

/-- The most negative number has 19 digits and a sign. -/
theorem printint_outside_buf : printint (List.replicate 16 0) (BitVec.intMin 64) 10 true = none := by decide

end KernelPrintf

namespace UserPrintf
open Printf

def value (xx : BitVec 32) (sgn : Bool) : Int := if sgn then xx.toInt else xx.toNat

/-- printint() of 32 bits always has room. -/
theorem printint_eq {buf : List UInt8} (hbuf : buf.length = 16) {base : Nat} (hb : 10 ≤ base) (hD : base ≤ digits.length) (xx : BitVec 32)
    (sgn : Bool) : printint buf xx base sgn = some (numeral digits base (value xx sgn)) := by
  have hroom (x : Nat) (hx : x < 2 ^ 32) (neg : Bool) : (digitsOf base x).length + neg.toNat ≤ buf.length := by
    have hpow : x < base ^ 10 := Nat.lt_of_lt_of_le (Nat.lt_of_lt_of_le hx (by decide)) (Nat.pow_le_pow_left hb 10)
    have hlen := (length_digitsOf (by omega) (by decide)).mpr hpow
    have := neg.toNat_le
    omega
  have hlt := xx.isLt
  rw [printint]
  split
  · next h =>
    have hval : value xx sgn = xx.toInt := by rw [value, if_pos h.1]
    rw [putNumber_eq (by omega) hD (by have := (-xx).isLt; omega), if_pos (hroom _ (-xx).isLt true), natAbs_of_neg xx h.2, hval, numeral, if_pos h.2]
    rfl
  · next h =>
    have hval : ¬value xx sgn < 0 ∧ xx.toNat = (value xx sgn).natAbs := by
      rw [value]
      cases sgn with
      | false => simp
      | true => exact ⟨fun hneg => h ⟨rfl, hneg⟩, natAbs_of_nonneg xx fun hneg => h ⟨rfl, hneg⟩⟩
    rw [putNumber_eq (by omega) hD (by omega), if_pos (hroom _ hlt false), hval.2, numeral, if_neg hval.1]
    rfl

/- The conversions of integers. -/

inductive Letter where
  | d | u | x
  deriving DecidableEq

inductive Size where
  | int | long | longLong
  deriving DecidableEq

def Letter.char : Letter → UInt8
  | .d => 100
  | .u => 117
  | .x => 120

def Letter.base : Letter → Nat
  | .d | .u => 10
  | .x => 16

def Size.ls : Size → Nat
  | .int => 0
  | .long => 1
  | .longLong => 2

/-- The text of a conversion: `%d`, `%ld`, `%lld` and so on. -/
def conversion (sz : Size) (l : Letter) : List UInt8 := PERCENT :: (List.replicate sz.ls 108 ++ [l.char])

/-- The number that the conversion stands for: the argument has 32 or 64 bits. -/
def argument (sz : Size) (l : Letter) (v : BitVec 64) : Int :=
  match sz with
  | .int => value (v.setWidth 32) (l == .d)
  | .long | .longLong => if l = .d then v.toInt else v.toNat

/-- 32 bits are enough for the number. -/
def Fits (sz : Size) (l : Letter) (v : BitVec 64) : Prop :=
  sz = .int ∨ (if l = .d then -2 ^ 31 ≤ v.toInt ∧ v.toInt < 2 ^ 31 else v.toNat < 2 ^ 32)

variable {buf : List UInt8}

/-- What has been written does not matter. -/
theorem vprintfLoop_out (fuel : Nat) (fmt : List UInt8) (st : Bool) (ap : List Arg) (out : List UInt8) :
    vprintfLoop buf fuel fmt st ap out = (vprintfLoop buf fuel fmt st ap []).map (out ++ ·) := by
  induction fuel generalizing fmt st ap out with
  | zero => rfl
  | succ fuel ih =>
    cases fmt with
    | nil => simp [vprintfLoop]
    | cons c0 fmt =>
      cases st with
      | false =>
        simp only [vprintfLoop]
        split
        · exact ih _ _ _ _
        · rw [ih, ih _ _ _ ([] ++ [c0])]
          simp [Function.comp_def]
      | true =>
        simp only [vprintfLoop]
        cases hconv : convert buf c0 (directive c0 (fmt.headD 0) (if fmt.headD 0 ≠ 0 then fmt.tail.headD 0 else 0)) ap with
        | none => rfl
        | some r =>
          obtain ⟨text, ap', skip⟩ := r
          simp only [Option.bind_eq_bind, Option.bind_some]
          rw [ih, ih _ _ _ ([] ++ text)]
          simp [Function.comp_def]

theorem vprintfLoop_fuel {fuel fuel' : Nat} {fmt : List UInt8} (st : Bool) (ap : List Arg) (out : List UInt8) (h : fmt.length < fuel)
    (h' : fmt.length < fuel') : vprintfLoop buf fuel fmt st ap out = vprintfLoop buf fuel' fmt st ap out := by
  induction fuel generalizing fuel' fmt st ap out with
  | zero => omega
  | succ fuel ih =>
    obtain ⟨fuel', rfl⟩ : ∃ k, fuel' = k + 1 := ⟨fuel' - 1, by omega⟩
    cases fmt with
    | nil => rfl
    | cons c0 fmt =>
      rw [List.length_cons] at h h'
      cases st with
      | false =>
        simp only [vprintfLoop]
        split
        · exact ih _ _ _ (by omega) (by omega)
        · exact ih _ _ _ (by omega) (by omega)
      | true =>
        simp only [vprintfLoop]
        cases hconv : convert buf c0 (directive c0 (fmt.headD 0) (if fmt.headD 0 ≠ 0 then fmt.tail.headD 0 else 0)) ap with
        | none => rfl
        | some r =>
          obtain ⟨text, ap', skip⟩ := r
          simp only [Option.bind_eq_bind, Option.bind_some]
          exact ih _ _ _ (by rw [List.length_drop]; omega) (by rw [List.length_drop]; omega)

theorem Letter.base_le (l : Letter) : 10 ≤ l.base ∧ l.base ≤ digits.length := by
  cases l <;> decide

/-- A directive that is done, after its `%`. -/
theorem vprintfLoop_directive {fuel skip : Nat} {c0 : UInt8} {fmt rest text : List UInt8} {ap ap' : List Arg}
    (hconv : convert buf c0 (directive c0 (fmt.headD 0) (if fmt.headD 0 ≠ 0 then fmt.tail.headD 0 else 0)) ap = some (text, ap', skip))
    (hrest : fmt.drop skip = rest) : vprintfLoop buf (fuel + 2) (PERCENT :: c0 :: fmt) false ap [] = vprintfLoop buf fuel rest false ap' text := by
  rw [vprintfLoop, if_pos rfl, vprintfLoop]
  simp only [hconv, Option.bind_eq_bind, Option.bind_some, hrest, List.nil_append]

theorem convert_conversion (hbuf : buf.length = 16) (sz : Size) (l : Letter) (v : BitVec 64) (ap : List Arg) (fmt : List UInt8) :
    ∃ c0 fmt' skip, conversion sz l ++ fmt = PERCENT :: c0 :: fmt' ∧ fmt'.drop skip = fmt ∧
      convert buf c0 (directive c0 (fmt'.headD 0) (if fmt'.headD 0 ≠ 0 then fmt'.tail.headD 0 else 0)) (.val v :: ap) =
        some (numeral digits l.base (value (v.setWidth 32) (l == .d)), ap, skip) := by
  have hprint := printint_eq hbuf l.base_le.1 l.base_le.2 (v.setWidth 32) (l == .d)
  cases sz with
  | int =>
    have hdir (c1 c2 : UInt8) : directive l.char c1 c2 = .int l.base (l == .d) := by cases l <;> rfl
    refine ⟨l.char, fmt, 0, rfl, rfl, ?_⟩
    rw [hdir, convert, hprint]
    rfl
  | long =>
    have hdir (c2 : UInt8) : directive 108 l.char c2 = .long l.base (l == .d) 1 := by cases l <;> rfl
    refine ⟨108, l.char :: fmt, 1, rfl, rfl, ?_⟩
    rw [List.headD_cons, hdir, convert, hprint]
    rfl
  | longLong =>
    have hdir : directive 108 108 l.char = .long l.base (l == .d) 2 := by cases l <;> rfl
    refine ⟨108, 108 :: l.char :: fmt, 2, rfl, rfl, ?_⟩
    rw [List.headD_cons, if_pos (by decide), List.tail_cons, List.headD_cons, hdir, convert, hprint]
    rfl

/-- What vprintf() writes for a conversion: the numeral of the low 32 bits. -/
theorem vprintf_conversion (hbuf : buf.length = 16) (sz : Size) (l : Letter) (v : BitVec 64) (ap : List Arg) (fmt : List UInt8) :
    vprintf buf (conversion sz l ++ fmt) (.val v :: ap) =
      (vprintf buf fmt ap).map (numeral digits l.base (value (v.setWidth 32) (l == .d)) ++ ·) := by
  obtain ⟨c0, fmt', skip, htext, hdrop, hconv⟩ := convert_conversion hbuf sz l v ap fmt
  rw [vprintf, htext, List.length_cons, List.length_cons, vprintfLoop_directive hconv hdrop, vprintfLoop_out]
  rw [vprintf, vprintfLoop_fuel false ap [] (show fmt.length < fmt'.length + 1 by rw [← hdrop, List.length_drop]; omega) (Nat.lt_succ_self _)]

/-- A byte of the format that begins no conversion. -/
theorem vprintf_byte {c : UInt8} (hc : c ≠ PERCENT) (fmt : List UInt8) (ap : List Arg) :
    vprintf buf (c :: fmt) ap = (vprintf buf fmt ap).map (c :: ·) := by
  rw [vprintf, List.length_cons, vprintfLoop, if_neg hc, vprintfLoop_out]
  rfl

theorem vprintf_string (s fmt : List UInt8) (ap : List Arg) :
    vprintf buf (PERCENT :: 115 :: fmt) (.str (some s) :: ap) = (vprintf buf fmt ap).map (s ++ ·) := by
  have hconv : convert buf 115 (directive 115 (fmt.headD 0) (if fmt.headD 0 ≠ 0 then fmt.tail.headD 0 else 0)) (.str (some s) :: ap) =
      some (s, ap, 0) := by
    simp [directive, convert]
  rw [vprintf, List.length_cons, List.length_cons, vprintfLoop_directive hconv (List.drop_zero (l := fmt)), vprintfLoop_out]
  rfl

/-- The low 32 bits are the number if they are enough for it, and only then. -/
theorem value_eq_iff (sz : Size) (l : Letter) (v : BitVec 64) : value (v.setWidth 32) (l == .d) = argument sz l v ↔ Fits sz l v := by
  have hlow : (v.setWidth 32).toNat = v.toNat % 2 ^ 32 := BitVec.toNat_setWidth 32 v
  have hsigned := BitVec.toInt_eq_toNat_cond (v.setWidth 32)
  have hwide := BitVec.toInt_eq_toNat_cond v
  have hlt := v.isLt
  rw [hlow] at hsigned
  cases sz with
  | int => simp only [argument, Fits, true_or]
  | long | longLong =>
    cases l with
    | d =>
      simp only [argument, Fits, value, beq_self_eq_true, if_true, reduceCtorEq, false_or]
      split at hsigned <;> split at hwide <;> omega
    | u | x =>
      simp only [argument, Fits, value, hlow, show (Letter.u == Letter.d) = false from rfl, show (Letter.x == Letter.d) = false from rfl,
        Bool.false_eq_true, if_false, reduceCtorEq, false_or]
      omega

/-- When vprintf() prints an integer exactly, and goes on after the conversion: if 32 bits are enough. -/
theorem vprintf_exact_iff (buf : List UInt8) (hbuf : buf.length = 16) (sz : Size) (l : Letter) (v : BitVec 64) (fmt : List UInt8) (ap : List Arg)
    (out : List UInt8) (hout : vprintf buf fmt ap = some out) :
    (vprintf buf (conversion sz l ++ fmt) (.val v :: ap) = some (numeral digits l.base (argument sz l v) ++ out) ∧
      readNumeral digits l.base (numeral digits l.base (argument sz l v)) = argument sz l v) ↔ Fits sz l v := by
  have hb : 1 < l.base := by
    have := l.base_le.1
    omega
  have hread (n : Int) := readNumeral_numeral hb l.base_le.2 (show digits.Nodup by decide) (by decide) n
  rw [vprintf_conversion hbuf, hout, Option.map_some, hread, ← value_eq_iff sz l v]
  constructor
  · rintro ⟨heq, -⟩
    have hnum := List.append_cancel_right (Option.some.inj heq)
    rw [← hread (value _ _), hnum, hread]
  · intro heq
    rw [heq]
    exact ⟨rfl, rfl⟩

/-- `%ld` of -7, before a newline. -/
theorem vprintf_minus_seven : vprintf (List.replicate 16 0) (conversion .long .d ++ [10]) [.val (-7)] =
    some (numeral digits 10 (argument .long .d (-7)) ++ [10]) :=
  ((vprintf_exact_iff (List.replicate 16 0) rfl .long .d (-7) [10] [] [10] (by decide)).mpr (Or.inr (by decide))).1

/-- `%ld` of 2^32 prints 0. -/
theorem vprintf_drops_high_bits : vprintf (List.replicate 16 0) (conversion .long .d) [.val 0x100000000] = some [48] ∧
    argument .long .d 0x100000000 = 0x100000000 := by decide

end UserPrintf

end Xv6
