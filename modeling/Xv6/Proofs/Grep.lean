import Xv6.Grep
import Mathlib.Computability.Language

namespace Xv6.Grep

open Computability

/- A pattern as a regular expression. -/

/-- A character of the pattern, `.` among them, and whether it has a star. -/
inductive Item where
  | one (c : UInt8)
  | star (c : UInt8)
  deriving DecidableEq

def items : List UInt8 → List Item
  | [] => []
  | [c] => [.one c]
  | c :: d :: re => if d = STAR then .star c :: items re else .one c :: items (d :: re)

/-- The texts of one character that `c` stands for. -/
def charLang (c : UInt8) : Language UInt8 := {w | ∃ t, (c = DOT ∨ c = t) ∧ w = [t]}

def Item.lang : Item → Language UInt8
  | .one c => charLang c
  | .star c => (charLang c)∗

def lang (is : List Item) : Language UInt8 := (is.map Item.lang).prod

/-- The last item is a `$` without a star. -/
def AtEnd (re : List UInt8) : Prop := (items re).getLast? = some (.one DOLLAR)

instance (re : List UInt8) : Decidable (AtEnd re) := inferInstanceAs (Decidable (_ = _))

/-- The items that stand for text. -/
def body (re : List UInt8) : List Item := if AtEnd re then (items re).dropLast else items re

/-- The pattern stands at the start of the text. -/
def Anchored (re : List UInt8) : Prop := re.head? = some CARET

instance (re : List UInt8) : Decidable (Anchored re) := inferInstanceAs (Decidable (_ = _))

/-- What follows the anchor, if there is one. -/
def unanchored (re : List UInt8) : List UInt8 := if Anchored re then re.tail else re

/-- The pattern matches a part of the text. -/
def Found (re text : List UInt8) : Prop :=
  ∃ before part after, text = before ++ part ++ after ∧ part ∈ lang (body (unanchored re)) ∧
    (Anchored re → before = []) ∧ (AtEnd (unanchored re) → after = [])

section
variable {c t : UInt8} {re text : List UInt8}

theorem lang_cons (i : Item) (is : List Item) : lang (i :: is) = i.lang * lang is := by simp [lang]

theorem mem_charLang_star {w : List UInt8} : w ∈ (charLang c)∗ ↔ ∀ t ∈ w, c = DOT ∨ c = t := by
  rw [Language.mem_kstar]
  constructor
  · rintro ⟨L, rfl, hL⟩ t ht
    obtain ⟨y, hy, hty⟩ := List.mem_flatten.mp ht
    obtain ⟨t', hc, rfl⟩ := hL y hy
    rw [List.mem_singleton] at hty
    exact hty ▸ hc
  · intro h
    refine ⟨w.map (fun t => [t]), by rw [← List.flatMap_def, List.flatMap_singleton'], fun y hy => ?_⟩
    obtain ⟨t, ht, rfl⟩ := List.mem_map.mp hy
    exact ⟨t, h t ht, rfl⟩

/-- matchstar() tries every run of the character. -/
theorem matchstar_iff {here : List UInt8 → Bool} : matchstar here c text = true ↔
    ∃ run rest, text = run ++ rest ∧ run ∈ (charLang c)∗ ∧ here rest = true := by
  induction text with
  | nil =>
    rw [matchstar]
    constructor
    · intro h
      exact ⟨[], [], rfl, mem_charLang_star.mpr (by simp), h⟩
    · rintro ⟨run, rest, he, -, h⟩
      obtain ⟨-, rfl⟩ := List.append_eq_nil_iff.mp he.symm
      exact h
  | cons t text ih =>
    simp only [matchstar, Bool.or_eq_true, Bool.and_eq_true, beq_iff_eq, ih]
    constructor
    · rintro (h | ⟨hc, run, rest, rfl, hrun, h⟩)
      · exact ⟨[], t :: text, rfl, mem_charLang_star.mpr (by simp), h⟩
      · refine ⟨t :: run, rest, rfl, mem_charLang_star.mpr fun x hx => ?_, h⟩
        rcases List.mem_cons.mp hx with rfl | hx
        · exact hc.elim (fun h => .inr h.symm) .inl
        · exact mem_charLang_star.mp hrun x hx
    · rintro ⟨run, rest, he, hrun, h⟩
      cases run with
      | nil => exact .inl (by rwa [he])
      | cons x run =>
        obtain ⟨rfl, rfl⟩ := List.cons.inj he
        have hall := mem_charLang_star.mp hrun
        refine .inr ⟨(hall t List.mem_cons_self).elim .inr (fun h => .inl h.symm), run, rest, rfl, ?_, h⟩
        exact mem_charLang_star.mpr fun y hy => hall y (List.mem_cons_of_mem t hy)

/-- An item before others, or that is no anchor, stands for text. -/
theorem body_cons {re' : List UInt8} {i : Item} (h : items re = i :: items re') (hi : i = .one DOLLAR → items re' ≠ []) :
    (AtEnd re ↔ AtEnd re') ∧ body re = i :: body re' := by
  have hend : AtEnd re ↔ AtEnd re' := by
    rw [AtEnd, AtEnd, h]
    cases hr : items re' with
    | nil => simpa [hr] using hi
    | cons j js => rw [List.getLast?_cons_cons]
  refine ⟨hend, ?_⟩
  rw [body, body, h]
  by_cases he : AtEnd re'
  · have hne : items re' ≠ [] := by
      intro hr
      rw [AtEnd, hr] at he
      cases he
    rw [if_pos he, if_pos (hend.mpr he), List.dropLast_cons_of_ne_nil hne]
  · rw [if_neg he, if_neg (mt hend.mp he)]

theorem matchchar_iff {here : List UInt8 → Bool} : matchchar here c text = true ↔
    ∃ run rest, text = run ++ rest ∧ run ∈ charLang c ∧ here rest = true := by
  cases text with
  | nil =>
    constructor
    · intro h
      cases h
    · rintro ⟨_, rest, he, ⟨t, -, rfl⟩, -⟩
      cases he
  | cons t text =>
    simp only [matchchar, Bool.or_eq_true, Bool.and_eq_true, beq_iff_eq]
    constructor
    · rintro ⟨hc, h⟩
      exact ⟨[t], text, rfl, ⟨t, hc, rfl⟩, h⟩
    · rintro ⟨_, rest, he, ⟨t', hc, rfl⟩, h⟩
      obtain ⟨rfl, rfl⟩ := List.cons.inj he
      exact ⟨hc, h⟩

/-- An item and what follows it. -/
theorem item_then {re' : List UInt8} {i : Item} {here : List UInt8 → Bool} (h : items re = i :: items re')
    (hi : i = .one DOLLAR → items re' ≠ [])
    (ih : ∀ {rest}, here rest = true ↔ ∃ part after, rest = part ++ after ∧ part ∈ lang (body re') ∧ (AtEnd re' → after = [])) :
    (∃ run rest, text = run ++ rest ∧ run ∈ i.lang ∧ here rest = true) ↔
      ∃ part after, text = part ++ after ∧ part ∈ lang (body re) ∧ (AtEnd re → after = []) := by
  obtain ⟨hend, hbody⟩ := body_cons h hi
  simp only [hbody, lang_cons, Language.mem_mul, ih, hend]
  constructor
  · rintro ⟨run, rest, rfl, hrun, part, after, rfl, hpart, ha⟩
    exact ⟨run ++ part, after, by rw [List.append_assoc], ⟨run, hrun, part, hpart, rfl⟩, ha⟩
  · rintro ⟨_, after, rfl, ⟨run, hrun, part, hpart, rfl⟩, ha⟩
    exact ⟨run, part ++ after, by rw [List.append_assoc], hrun, part, after, rfl, hpart, ha⟩

theorem items_ne_nil (c : UInt8) (re : List UInt8) : items (c :: re) ≠ [] := by
  cases re with
  | nil => simp [items]
  | cons d re =>
    rw [items]
    split <;> simp

theorem matchhere_nil : matchhere [] text = true ↔
    ∃ part after, text = part ++ after ∧ part ∈ lang (body []) ∧ (AtEnd [] → after = []) := by
  have hend : ¬ AtEnd [] := by decide
  exact ⟨fun _ => ⟨[], text, rfl, rfl, fun h => absurd h hend⟩, fun _ => by simp [matchhere]⟩

/-- matchhere() finds the pattern where the text begins. -/
theorem matchhere_iff : matchhere re text = true ↔
    ∃ part after, text = part ++ after ∧ part ∈ lang (body re) ∧ (AtEnd re → after = []) := by
  induction re using items.induct generalizing text with
  | case1 => exact matchhere_nil
  | case2 c =>
    rw [matchhere]
    by_cases hc : c = DOLLAR
    · subst hc
      have hend : AtEnd [DOLLAR] := by decide
      have hbody : body [DOLLAR] = [] := by decide
      rw [if_pos rfl, hbody, List.isEmpty_iff]
      constructor
      · rintro rfl
        exact ⟨[], [], rfl, rfl, fun _ => rfl⟩
      · rintro ⟨part, after, rfl, hpart, ha⟩
        rw [ha hend, List.append_nil]
        exact hpart
    · rw [if_neg hc, matchchar_iff]
      exact item_then (i := .one c) rfl (fun hi => absurd (Item.one.inj hi) hc) matchhere_nil
  | case3 c re ih =>
    rw [matchhere, if_pos rfl, matchstar_iff]
    exact item_then (i := .star c) (by rw [items, if_pos rfl]) nofun ih
  | case4 c d re hd ih =>
    rw [matchhere, if_neg hd, matchchar_iff]
    exact item_then (i := .one c) (by rw [items, if_neg hd]) (fun _ => items_ne_nil d re) ih

theorem matchLoop_iff : matchLoop re text = true ↔ ∃ before rest, text = before ++ rest ∧ matchhere re rest = true := by
  induction text with
  | nil =>
    constructor
    · intro h
      exact ⟨[], [], rfl, h⟩
    · rintro ⟨before, rest, he, h⟩
      obtain ⟨-, rfl⟩ := List.append_eq_nil_iff.mp he.symm
      exact h
  | cons t text ih =>
    rw [matchLoop, Bool.or_eq_true, ih]
    constructor
    · rintro (h | ⟨before, rest, rfl, h⟩)
      · exact ⟨[], t :: text, rfl, h⟩
      · exact ⟨t :: before, rest, rfl, h⟩
    · rintro ⟨before, rest, he, h⟩
      cases before with
      | nil => exact .inl (by rwa [he])
      | cons b before =>
        obtain ⟨rfl, rfl⟩ := List.cons.inj he
        exact .inr ⟨before, rest, rfl, h⟩

/-- match() finds the pattern in the text iff a part of the text is in the language of the pattern. -/
theorem match_is_regular (re text : List UInt8) : matchText re text = true ↔ Found re text := by
  rw [matchText, Found, unanchored]
  by_cases ha : Anchored re
  · rw [if_pos ha, if_pos (show re.head? = some CARET from ha), matchhere_iff]
    constructor
    · rintro ⟨part, after, rfl, hpart, hend⟩
      exact ⟨[], part, after, rfl, hpart, fun _ => rfl, hend⟩
    · rintro ⟨before, part, after, rfl, hpart, hb, hend⟩
      exact ⟨part, after, by rw [hb ha, List.nil_append], hpart, hend⟩
  · rw [if_neg ha, if_neg (show ¬ re.head? = some CARET from ha), matchLoop_iff]
    simp only [matchhere_iff]
    constructor
    · rintro ⟨before, rest, rfl, part, after, rfl, hpart, hend⟩
      exact ⟨before, part, after, by rw [List.append_assoc], hpart, fun h => absurd h ha, hend⟩
    · rintro ⟨before, part, after, rfl, hpart, -, hend⟩
      exact ⟨before, part ++ after, by rw [List.append_assoc], part, after, rfl, hpart, hend⟩

/-- `^a*.$` in `aab`. -/
example : matchText [94, 97, 42, 46, 36] [97, 97, 98] = true := by decide

end

end Xv6.Grep
