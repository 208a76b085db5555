import Xv6.SortCmd

namespace Xv6

namespace Ulib

variable {a b c : List UInt8}

theorem strcmp_swap (a b : List UInt8) : strcmp b a = -strcmp a b := by
  induction a generalizing b with
  | nil => cases b <;> simp [strcmp]
  | cons x a ih =>
    cases b with
    | nil => simp [strcmp]
    | cons y b =>
      simp only [strcmp, eq_comm (a := y)]
      split
      · exact ih b
      · omega

theorem toNat_pos {x : UInt8} (h : 0 ∉ x :: a) : 0 < x.toNat := by
  rw [List.mem_cons, not_or] at h
  exact UInt8.pos_iff_ne_zero.mpr (Ne.symm h.1)

/-- strcmp() finds the order of the bytes, as unsigned numbers, at the first difference. -/
theorem strcmp_neg_iff (ha : 0 ∉ a) (hb : 0 ∉ b) : strcmp a b < 0 ↔ List.Lex (fun x y => x.toNat < y.toNat) a b := by
  induction a generalizing b with
  | nil =>
    cases b with
    | nil => simp [strcmp]
    | cons y b =>
      have := toNat_pos hb
      simp only [strcmp, List.Lex.nil, iff_true]
      omega
  | cons x a ih =>
    cases b with
    | nil => simp [strcmp]
    | cons y b =>
      rw [List.cons_lex_cons_iff, strcmp]
      by_cases hxy : x = y
      · rw [if_pos hxy, ih (fun h => ha (List.mem_cons_of_mem _ h)) fun h => hb (List.mem_cons_of_mem _ h)]
        simp [hxy]
      · simp only [hxy, if_false, false_and, or_false]
        omega

theorem strcmp_trans (ha : 0 ∉ a) (hb : 0 ∉ b) (hc : 0 ∉ c) (hab : strcmp a b ≤ 0) (hbc : strcmp b c ≤ 0) : strcmp a c ≤ 0 := by
  induction a generalizing b c with
  | nil => cases c <;> simp [strcmp]
  | cons x a ih =>
    have hx := toNat_pos ha
    cases b with
    | nil =>
      simp only [strcmp] at hab
      omega
    | cons y b =>
      have hy := toNat_pos hb
      cases c with
      | nil =>
        simp only [strcmp] at hbc
        omega
      | cons z c =>
        have ht := @ih b c (fun h => ha (List.mem_cons_of_mem _ h)) (fun h => hb (List.mem_cons_of_mem _ h))
          (fun h => hc (List.mem_cons_of_mem _ h))
        simp only [strcmp, ← UInt8.toNat_inj] at *
        grind

end Ulib

namespace SortCmd

variable {P : Type} {i j left right last : Int}

theorem lineAt_eq (pre : List P) (p : P) (post : List P) (hi : i = pre.length) : lineAt (pre ++ p :: post) i = some p := by
  rw [hi, lineAt]
  exact List.getElem?_append_right (Nat.le_refl _) |>.trans (by simp)

theorem setLine_eq (pre : List P) (p q : P) (post : List P) (hi : i = pre.length) :
    setLine (pre ++ p :: post) i q = some (pre ++ q :: post) := by
  rw [hi, setLine]
  exact Buffer.write_at pre post p q

theorem swap_self (pre : List P) (p : P) (post : List P) (hi : i = pre.length) : swap (pre ++ p :: post) i i = some (pre ++ p :: post) := by
  simp [swap, lineAt_eq pre p post hi, setLine_eq pre p p post hi]

theorem swap_eq (pre mid : List P) (p q : P) (post : List P) (hi : i = pre.length) (hj : j = pre.length + 1 + mid.length) :
    swap (pre ++ p :: (mid ++ q :: post)) i j = some (pre ++ q :: (mid ++ p :: post)) := by
  have hj (x : P) : j = (pre ++ x :: mid).length := by
    rw [hj]
    simp
    omega
  have happ (x y : P) : pre ++ x :: (mid ++ y :: post) = (pre ++ x :: mid) ++ y :: post := by simp
  rw [swap, lineAt_eq pre p _ hi, happ, lineAt_eq _ q _ (hj p), ← happ]
  simp only [Option.bind_eq_bind, Option.bind_some, setLine_eq pre p q _ hi]
  rw [happ, setLine_eq _ q p _ (hj q), ← happ]

/-- The first line of a range goes to its end. -/
theorem swap_back (pre : List P) (p : P) (mid post : List P) (hi : i = pre.length) (hj : j = pre.length + mid.length) :
    ∃ mid', mid'.Perm mid ∧ swap (pre ++ p :: (mid ++ post)) i j = some (pre ++ (mid' ++ p :: post)) := by
  rcases List.eq_nil_or_concat mid with rfl | ⟨mid, q, rfl⟩
  · refine ⟨[], List.Perm.refl _, ?_⟩
    rw [show j = i by simp [hi, hj]]
    exact swap_self pre p post hi
  · refine ⟨q :: mid, by simpa using (List.perm_append_singleton q mid).symm, ?_⟩
    have := swap_eq (j := j) pre mid p q post hi (by simp at hj; omega)
    simpa using this

/-- The last line of a range goes to its front. -/
theorem swap_front (pre : List P) (p : P) (mid post : List P) (hi : i = pre.length) (hj : j = pre.length + mid.length) :
    ∃ mid', mid'.Perm mid ∧ swap (pre ++ (mid ++ p :: post)) i j = some (pre ++ p :: (mid' ++ post)) := by
  cases mid with
  | nil =>
    refine ⟨[], List.Perm.refl _, ?_⟩
    rw [show j = i by simp [hi, hj]]
    exact swap_self pre p post hi
  | cons q mid =>
    refine ⟨mid ++ [q], List.perm_append_singleton q mid, ?_⟩
    have := swap_eq (j := j) pre mid q p post hi (by simp at hj; omega)
    simpa using this

variable {str : P → CStr}

/-- The loop of qsort(). `lo` and `hi` are the lines before and from the pivot on among those it has seen. -/
theorem partLoop_splits (pre : List P) (p : P) (lo hi todo post : List P) (hleft : left = pre.length)
    (hlast : last = pre.length + lo.length) (hi' : i = pre.length + 1 + lo.length + hi.length)
    (hlo : ∀ q ∈ lo, strcmp str q p < 0) (hhi : ∀ q ∈ hi, ¬strcmp str q p < 0) :
    ∃ lo' hi' : List P, partLoop str left todo.length (pre ++ p :: (lo ++ (hi ++ (todo ++ post)))) i last =
        some (pre ++ p :: (lo' ++ (hi' ++ post)), (pre.length : Int) + lo'.length) ∧
      (lo' ++ hi').Perm (lo ++ (hi ++ todo)) ∧ (∀ q ∈ lo', strcmp str q p < 0) ∧ ∀ q ∈ hi', ¬strcmp str q p < 0 := by
  induction todo generalizing lo hi i last with
  | nil => exact ⟨lo, hi, by rw [hlast]; rfl, by simp, hlo, hhi⟩
  | cons q todo ih =>
    have hq : lineAt (pre ++ p :: (lo ++ (hi ++ (q :: todo ++ post)))) i = some q := by
      have := lineAt_eq (i := i) (pre ++ p :: (lo ++ hi)) q (todo ++ post) (by simp; omega)
      simpa using this
    rw [List.length_cons, partLoop, hq, lineAt_eq pre p _ hleft]
    simp only [Option.bind_eq_bind, Option.bind_some]
    split
    · next hlt =>
      obtain ⟨hi₁, hperm₁, hswap⟩ := swap_front (i := last + 1) (j := i) (pre ++ p :: lo) q hi (todo ++ post) (by simp; omega) (by simp; omega)
      have hlen := hperm₁.length_eq
      obtain ⟨lo', hi₂, hrun, hperm, hrest⟩ := @ih (i + 1) (last + 1) (lo ++ [q]) hi₁ (by simp; omega) (by simp; omega)
        (List.forall_mem_append.mpr ⟨hlo, by simpa using hlt⟩) fun r hr => hhi r (hperm₁.subset hr)
      have happ : pre ++ p :: (lo ++ (hi ++ (q :: todo ++ post))) = pre ++ p :: lo ++ (hi ++ q :: (todo ++ post)) := by simp
      refine ⟨lo', hi₂, ?_, hperm.trans ?_, hrest⟩
      · rw [happ, hswap, Option.bind_some]
        simpa using hrun
      · rw [List.append_assoc]
        exact (((hperm₁.append_right todo).cons q).trans List.perm_middle.symm).append_left lo
    · next hge =>
      obtain ⟨lo', hi₁, hrun, hperm, hrest⟩ := @ih (i + 1) last lo (hi ++ [q]) hlast (by simp; omega) hlo
        (List.forall_mem_append.mpr ⟨hhi, by simpa using hge⟩)
      exact ⟨lo', hi₁, by simpa using hrun, by simpa using hperm, hrest⟩

/-- The lines are in the order of strcmp(). -/
def Ordered (str : P → CStr) (l : List P) : Prop := l.Pairwise fun p q => strcmp str p q ≤ 0

theorem ordered_around {p : P} {lo hi : List P} (hlo : Ordered str lo) (hhi : Ordered str hi)
    (hlt : ∀ q ∈ lo, strcmp str q p < 0) (hge : ∀ q ∈ hi, ¬strcmp str q p < 0) : Ordered str (lo ++ p :: hi) := by
  have hge' : ∀ q ∈ hi, strcmp str p q ≤ 0 := fun q hq => by
    have := hge q hq
    have := Ulib.strcmp_swap (str q).val (str p).val
    simp only [strcmp] at *
    omega
  refine List.pairwise_append.mpr ⟨hlo, List.pairwise_cons.mpr ⟨hge', hhi⟩, fun q hq r hr => ?_⟩
  have hqp : strcmp str q p ≤ 0 := Int.le_of_lt (hlt q hq)
  rcases List.mem_cons.mp hr with rfl | hr
  · exact hqp
  · exact Ulib.strcmp_trans (str q).property (str p).property (str r).property hqp (hge' r hr)

theorem ordered_short {l : List P} (h : l.length ≤ 1) : Ordered str l := by
  cases l with
  | nil => exact List.Pairwise.nil
  | cons p l =>
    cases l with
    | nil => exact List.pairwise_singleton _ _
    | cons q l =>
      simp only [List.length_cons] at h
      omega

/-- A line from the middle of the range becomes the pivot. -/
theorem swap_middle (pre mid post : List P) (hmid : mid ≠ []) :
    ∃ p rest, (p :: rest).Perm mid ∧
      swap (pre ++ (mid ++ post)) pre.length (((pre.length : Int) + (pre.length + mid.length - 1)).tdiv 2) =
        some (pre ++ p :: (rest ++ post)) := by
  obtain ⟨q, mid, rfl⟩ := List.exists_cons_of_ne_nil hmid
  have hj : ((pre.length : Int) + (pre.length + (q :: mid).length - 1)).tdiv 2 = pre.length + (mid.take (mid.length / 2)).length := by
    rw [Int.tdiv_eq_ediv_of_nonneg (by simp; omega)]
    simp only [List.length_cons, List.length_take]
    omega
  obtain ⟨front, hperm, hswap⟩ := swap_back pre q (mid.take (mid.length / 2)) (mid.drop (mid.length / 2) ++ post) rfl hj
  have hperm' : (front ++ q :: mid.drop (mid.length / 2)).Perm (q :: mid) :=
    List.perm_middle.trans (((hperm.append_right _).trans (by rw [List.take_append_drop])).cons q)
  obtain ⟨p, rest, hcons⟩ : ∃ p rest, front ++ q :: mid.drop (mid.length / 2) = p :: rest := List.exists_cons_of_ne_nil (by simp)
  refine ⟨p, rest, hcons ▸ hperm', ?_⟩
  rw [← List.append_assoc, List.take_append_drop] at hswap
  rw [List.cons_append, hswap, show p :: (rest ++ post) = p :: rest ++ post from rfl, ← hcons]
  simp

theorem qsort_ordered (fuel : Nat) (pre mid post : List P) (hfuel : mid.length < fuel) :
    ∃ mid', mid'.Perm mid ∧ Ordered str mid' ∧
      qsort str fuel (pre ++ (mid ++ post)) pre.length (pre.length + mid.length - 1) = some (pre ++ (mid' ++ post)) := by
  induction fuel generalizing pre mid post with
  | zero => omega
  | succ fuel ih =>
    rw [qsort]
    split
    · next hle => exact ⟨mid, List.Perm.refl _, ordered_short (by omega), rfl⟩
    · next hlt =>
      have hmid : mid ≠ [] := by
        rintro rfl
        simp only [List.length_nil] at hlt
        omega
      obtain ⟨p, rest, hperm, hmiddle⟩ := swap_middle pre mid post hmid
      have hlen : rest.length + 1 = mid.length := hperm.length_eq
      obtain ⟨lo, hi, hloop, hparts, hlo, hhi⟩ := @partLoop_splits P (pre.length + 1) pre.length pre.length str pre p [] [] rest post rfl
        (by simp) (by simp) (by simp) (by simp)
      obtain ⟨lo', hlo', hback⟩ := swap_back (i := pre.length) pre p lo (hi ++ post) rfl rfl
      have hsizes := hparts.length_eq
      simp only [List.nil_append, List.length_append] at hsizes hloop
      obtain ⟨lo₁, hperm₁, hord₁, hrun₁⟩ := ih pre lo' (p :: (hi ++ post)) (by rw [hlo'.length_eq]; omega)
      obtain ⟨hi₁, hperm₂, hord₂, hrun₂⟩ := ih (pre ++ lo₁ ++ [p]) hi post (by omega)
      have hn : ((pre.length : Int) + mid.length - 1 - pre.length).toNat = rest.length := by omega
      refine ⟨lo₁ ++ p :: hi₁, ?_, ?_, ?_⟩
      · have hall := List.perm_middle.trans (((hperm₁.trans hlo').append hperm₂).cons p)
        exact (hall.trans (hparts.cons p)).trans hperm
      · exact ordered_around hord₁ hord₂ (fun q hq => hlo q ((hperm₁.trans hlo').subset hq)) fun q hq => hhi q (hperm₂.subset hq)
      · have hlo₁ := (hperm₁.trans hlo').length_eq
        have hright : (pre.length : Int) + mid.length - 1 = (pre ++ lo₁ ++ [p]).length + hi.length - 1 := by
          simp only [List.length_append, List.length_singleton]
          omega
        have hleft : (pre.length : Int) + lo.length + 1 = (pre ++ lo₁ ++ [p]).length := by
          simp only [List.length_append, List.length_singleton]
          omega
        have happ (l : List P) : pre ++ lo₁ ++ [p] ++ l = pre ++ (lo₁ ++ p :: l) := by simp
        rw [happ, happ] at hrun₂
        rw [hlo'.length_eq] at hrun₁
        rw [hmiddle]
        simp only [Option.bind_eq_bind, Option.bind_some, hn, hloop, hback, hrun₁]
        rw [hleft, hright, hrun₂]
        simp

/-- The lines from `left` to `right`. -/
def range (lines : List P) (left right : Int) : List P := (lines.drop left.toNat).take (right + 1 - left).toNat

theorem range_eq (pre mid post : List P) (hl : left = pre.length) (hr : right = pre.length + mid.length - 1) :
    range (pre ++ (mid ++ post)) left right = mid := by
  rw [range, hl, hr, show ((pre.length : Int) + mid.length - 1 + 1 - pre.length).toNat = mid.length by omega, Int.toNat_natCast,
    List.drop_left, List.take_left]

theorem exists_range (lines : List P) (hleft : 0 ≤ left) (hle : left ≤ right + 1) (hright : right < lines.length) :
    ∃ pre mid post : List P, lines = pre ++ (mid ++ post) ∧ left = pre.length ∧ right = pre.length + mid.length - 1 := by
  refine ⟨lines.take left.toNat, range lines left right, (lines.drop left.toNat).drop (right + 1 - left).toNat, ?_, ?_, ?_⟩
  · rw [range, List.take_append_drop, List.take_append_drop]
  · rw [List.length_take]
    omega
  · rw [range, List.length_take, List.length_take, List.length_drop]
    omega

theorem getElem?_outside (pre mid mid' post : List P) (h : mid'.length = mid.length) (k : Nat) (hk : k < pre.length ∨ pre.length + mid.length ≤ k) :
    (pre ++ (mid' ++ post))[k]? = (pre ++ (mid ++ post))[k]? := by
  rcases hk with hk | hk
  · rw [List.getElem?_append_left hk, List.getElem?_append_left hk]
  · rw [List.getElem?_append_right (by omega), List.getElem?_append_right (by omega), List.getElem?_append_right (by omega),
      List.getElem?_append_right (by omega), h]

/-- strcmp() order is the order of the bytes as unsigned numbers, the first difference deciding. -/
theorem Ordered.lex {l : List P} (h : Ordered str l) :
    l.Pairwise fun p q => ¬List.Lex (fun x y => x.toNat < y.toNat) (str q).val (str p).val := by
  refine h.imp fun {p q} hpq hlex => ?_
  have hlt := (Ulib.strcmp_neg_iff (str q).property (str p).property).mpr hlex
  have hswap := Ulib.strcmp_swap (str p).val (str q).val
  simp only [strcmp] at hpq
  omega

/-- qsort() of any range of any lines returns, and has sorted the range and nothing else. -/
theorem qsort_sorts (str : P → CStr) (lines : List P) (left right : Int) (hleft : 0 ≤ left) (hright : right < lines.length)
    (fuel : Nat) (hfuel : (right + 1 - left).toNat < fuel) :
    ∃ lines', qsort str fuel lines left right = some lines' ∧ lines'.length = lines.length ∧
      (∀ k : Nat, k < left ∨ right < k → lines'[k]? = lines[k]?) ∧
      (range lines' left right).Perm (range lines left right) ∧
      (range lines' left right).Pairwise (fun p q => strcmp str p q ≤ 0) ∧
      (range lines' left right).Pairwise (fun p q => ¬List.Lex (fun x y => x.toNat < y.toNat) (str q).val (str p).val) := by
  by_cases hle : left ≤ right + 1
  · obtain ⟨pre, mid, post, rfl, rfl, rfl⟩ := exists_range lines hleft hle hright
    obtain ⟨mid', hperm, hord, hrun⟩ := @qsort_ordered P str fuel pre mid post (by omega)
    have hlen := hperm.length_eq
    refine ⟨_, hrun, by simp [hlen], fun k hk => getElem?_outside pre mid mid' post hlen k (by omega), ?_⟩
    rw [range_eq pre mid' post rfl (by omega), range_eq pre mid post rfl rfl]
    exact ⟨hperm, hord, hord.lex⟩
  · have hnil : range lines left right = [] := by
      rw [range, show (right + 1 - left).toNat = 0 by omega, List.take_zero]
    obtain ⟨fuel, rfl⟩ := Nat.exists_eq_add_one_of_ne_zero (Nat.ne_of_gt (Nat.zero_lt_of_lt hfuel))
    refine ⟨lines, ?_, rfl, fun _ _ => rfl, List.Perm.refl _, ?_⟩
    · rw [qsort, if_pos (by omega)]
    · rw [hnil]
      exact ⟨List.Pairwise.nil, List.Pairwise.nil⟩

/-- Lines 1 to 3 of five; two are the same. -/
theorem qsort_five : ∃ lines', qsort id 4 [⟨[99], by decide⟩, ⟨[98, 97], by decide⟩, ⟨[200], by decide⟩, ⟨[98, 97], by decide⟩, ⟨[], by decide⟩] 1 3 =
    some lines' ∧ lines'.length = 5 ∧ (range lines' 1 3).Pairwise fun p q => strcmp id p q ≤ 0 :=
  (qsort_sorts id _ 1 3 (by decide) (by decide) 4 (by decide)).imp fun _ h => ⟨h.1, h.2.1, h.2.2.2.2.1⟩

end SortCmd

end Xv6
