import Xv6.Proofs.PageTable

namespace Xv6.Vm

/-- The number of the physical page that a PTE points to. -/
def frame (pte : Nat) : Nat := pte2pa pte / PGSIZE

theorem pte2pa_frame (pte : Nat) : pte2pa pte = frame pte * PGSIZE := by
  simp only [frame, pte2pa, PGSIZE]
  omega

/- Memory changes outside the table. -/

section
variable {s t u : Ram} {r n : Nat} (hsame : ∀ n, s.InTable r n → t.page n = s.page n)
include hsame

theorem node_of_agree {q : List Nat} (hq : q.length ≤ 3) : t.node r q = s.node r q :=
  Radix.node_of_same (d := 2) (fun m hm => funext fun _ => pte_of_page (hsame m hm)) hq

theorem inTable_of_agree : t.InTable r n ↔ s.InTable r n := by
  constructor
  · rintro ⟨q, hq, hn⟩
    exact ⟨q, hq, (node_of_agree hsame (Nat.le_succ_of_le hq)).symm.trans hn⟩
  · rintro ⟨q, hq, hn⟩
    exact ⟨q, hq, (node_of_agree hsame (Nat.le_succ_of_le hq)).trans hn⟩

theorem leaf_of_agree (v : Nat) : t.leaf r v = s.leaf r v := by
  rw [Ram.leaf, Ram.leaf, node_of_agree hsame (by simp [path])]
  cases hn : s.node r (path v) with
  | none => simp only [Option.bind_none]
  | some a =>
    rw [Option.bind_some, Option.bind_some, pte_of_page (hsame a ⟨path v, by simp [path], hn⟩)]

theorem table_of_agree (h : Table s r) (hfree : ∀ n, s.InTable r n → n ∉ t.freelist) (hk : t.kend = s.kend) :
    Table t r where
  proper := Radix.Proper.of_same h.proper fun m hm => funext fun _ => pte_of_page (hsame m hm)
  free n hn := hfree n ((inTable_of_agree hsame).mp hn)
  ram n hn := by
    rw [Ram.InRam, hk]
    exact h.ram n ((inTable_of_agree hsame).mp hn)
  inner p n i hp hn hV := by
    rw [node_of_agree hsame (by omega)] at hn
    rw [pte_of_page (hsame n ⟨p, Nat.le_of_lt hp, hn⟩)] at hV ⊢
    exact h.inner p n i hp hn hV

end

/- mappages() -/

section
variable {s t u : Ram} {r v n pa perm fuel : Nat}

theorem mappages_maps (hs : s.Ok) (h : Table s r) (hn : 0 < n) (hv : v + n ≤ 2 ^ 26) (hpa : pa < 2 ^ 64)
    (hperm : perm < 2 ^ 10) (hfree : ∀ w, v ≤ w → w < v + n → s.leaf r w = none) :
    Runs (mappages r (v * PGSIZE) (n * PGSIZE) pa perm) s (fun res t => Keeps s t r ∧
      ∃ k ≤ n, (res = 0 ∧ k = n ∨ res = -1 ∧ k < n) ∧ ∀ w < 2 ^ 27, t.leaf r w =
        if v ≤ w ∧ w < v + k then some (mkPte ((pa + (w - v) * PGSIZE) % 2 ^ 64) perm) else s.leaf r w) := by
  have hlast : (v * PGSIZE + n * PGSIZE - PGSIZE) % 2 ^ 64 = (v + n - 1) * PGSIZE := by
    simp only [PGSIZE]
    omega
  have hsize : n * PGSIZE ≠ 0 := by
    simp only [PGSIZE]
    omega
  rw [mappages, if_neg (by simp), if_neg (by simp), if_neg hsize, hlast, Nat.mul_div_cancel _ (by decide)]
  exact mappagesLoop_maps n hs h hn hv hpa hperm hfree

/-- Also where a run of mappages() maps only part of its range, it keeps the table. -/
theorem mappagesLoop_keeps {last a : Nat} {res : Int} (hs : s.Ok) (h : Table s r) (hpa : pa < 2 ^ 64)
    (hperm : perm < 2 ^ 10) (he : mappagesLoop r last perm fuel a pa s = .ok res t) : Keeps s t r := by
  induction fuel generalizing s a pa with
  | zero => cases he
  | succ fuel ih =>
    rw [mappagesLoop, run_bind] at he
    by_cases hva : a < MAXVA
    · obtain ⟨o, u, hw, hb, ho⟩ := walk_builds hs h hva
      simp only [hw] at he
      cases o with
      | none =>
        cases he
        exact hb.keeps
      | some c =>
        obtain ⟨hnode, hi⟩ := ho c.1 c.2 rfl
        change (if has (u.pte c.1 c.2) PTE_V = true then panic .remap else _ : VmM Int) u = _ at he
        split at he
        · cases he
        · have hx : mkPte pa perm < 2 ^ 64 := by
            rw [mkPte_or]
            exact mkPte_lt hpa (or_valid_lt hperm)
          have hk := hb.keeps.trans (keeps_setPte hb.keeps.table hnode hx hb.keeps.ok)
          rw [← hi] at hk
          change (if a = last then pure 0 else _ : VmM Int) (u.setPte c.1 c.2 (mkPte pa perm)) = _ at he
          split at he
          · cases he
            exact hk
          · exact hk.trans (ih hk.ok hk.table (Nat.mod_lt _ (by decide)) he)
    · rw [walk, if_pos (Nat.not_lt.mp hva)] at he
      cases he

end

/- uvmunmap() -/

/-- The memory after kfree() of page `n`. -/
def Ram.give (s : Ram) (n : Nat) : Ram := { s.setPage n (fun _ => 1) with freelist := n :: s.freelist }

theorem kfree_gives {s : Ram} {n : Nat} (h : s.InRam n) : kfree (n * PGSIZE) s = .ok () (s.give n) := by
  have hpa : ¬ (n * PGSIZE % PGSIZE ≠ 0 ∨ n * PGSIZE < s.kend ∨ n * PGSIZE ≥ PHYSTOP) := by
    have := h.1
    have := h.2
    have := Nat.mul_mod_left n PGSIZE
    omega
  rw [kfree, if_neg hpa, Nat.mul_div_cancel _ (by decide)]
  rfl

theorem kfree_fails {s : Ram} {n : Nat} (h : ¬ s.InRam n) : kfree (n * PGSIZE) s = .fail .kfree := by
  rw [Ram.InRam] at h
  rw [kfree, if_pos (by omega)]

/-- uvmunmap() takes the page `w`. -/
def Ram.Unmappable (s : Ram) (r : Nat) (doFree : Bool) (w : Nat) : Prop :=
  ∃ pte, s.leaf r w = some pte ∧ pteFlags pte ≠ PTE_V ∧ (doFree = true → s.InRam (frame pte))

/-- The frames of the `n` pages from `v` on are in no other use. -/
structure Sole (s : Ram) (r v n : Nat) : Prop where
  table : ∀ w < 2 ^ 26, ∀ pte, v ≤ w → w < v + n → s.leaf r w = some pte → ¬ s.InTable r (frame pte)
  free : ∀ w < 2 ^ 26, ∀ pte, v ≤ w → w < v + n → s.leaf r w = some pte → frame pte ∉ s.freelist
  inj : ∀ w < 2 ^ 26, ∀ w' < 2 ^ 26, ∀ pte pte', v ≤ w → w < v + n → v ≤ w' → w' < v + n →
    s.leaf r w = some pte → s.leaf r w' = some pte' → frame pte = frame pte' → w = w'

/-- Page `m` is the frame of one of the `n` pages from `v` on. -/
def Ram.Backs (s : Ram) (r v n m : Nat) : Prop :=
  ∃ w pte, v ≤ w ∧ w < v + n ∧ s.leaf r w = some pte ∧ frame pte = m

/-- The `n` pages from `v` on have been unmapped. -/
structure Unmaps (s t : Ram) (r v n : Nat) (doFree : Bool) : Prop where
  ok : t.Ok
  table : Table t r
  nodes : ∀ p, p.length ≤ 2 → t.node r p = s.node r p
  leaf : ∀ w < 2 ^ 27, t.leaf r w = if v ≤ w ∧ w < v + n then none else s.leaf r w
  list : ∀ m, m ∈ t.freelist ↔ m ∈ s.freelist ∨ (doFree = true ∧ s.Backs r v n m)
  page : ∀ m, ¬ s.InTable r m → ¬ (doFree = true ∧ s.Backs r v n m) → t.page m = s.page m
  kend : t.kend = s.kend

section
variable {s t u : Ram} {r v n a pte fuel : Nat} {doFree : Bool}

theorem Unmaps.inTable (h : Unmaps s t r v n doFree) {m : Nat} : t.InTable r m ↔ s.InTable r m := by
  constructor
  · rintro ⟨q, hq, hm⟩
    exact ⟨q, hq, (h.nodes q hq).symm.trans hm⟩
  · rintro ⟨q, hq, hm⟩
    exact ⟨q, hq, (h.nodes q hq).trans hm⟩

theorem Unmaps.refl (hs : s.Ok) (h : Table s r) : Unmaps s s r v 0 doFree where
  ok := hs
  table := h
  nodes _ _ := rfl
  leaf w _ := by rw [if_neg (by omega)]
  list m := by
    refine ⟨.inl, ?_⟩
    rintro (hm | ⟨-, w, -, hw, hw', -⟩)
    · exact hm
    · omega
  page _ _ _ := rfl
  kend := rfl

/-- A valid PTE is in the table of the lowest level. -/
theorem leaf_some (h : s.leaf r v = some pte) :
    ∃ a, s.node r (path v) = some a ∧ s.pte a (v % 2 ^ 9) = pte ∧ has pte PTE_V = true := by
  cases hn : s.node r (path v) with
  | none => simp [Ram.leaf, hn] at h
  | some a =>
    rw [Ram.leaf, hn, Option.bind_some, valid] at h
    by_cases hV : has (s.pte a (v % 2 ^ 9)) PTE_V = true
    · rw [if_pos hV] at h
      have he := Option.some.inj h
      rw [he] at hV
      exact ⟨a, rfl, he, hV⟩
    · rw [if_neg hV] at h
      simp at h

theorem leaf_of_node (hn : s.node r (path v) = some a) : s.leaf r v = valid (s.pte a (v % 2 ^ 9)) := by
  rw [Ram.leaf, hn, Option.bind_some]

/-- The PTE of page `v` is cleared. -/
theorem unmaps_clear (hs : s.Ok) (h : Table s r) (hv : v < 2 ^ 26) (hn : s.node r (path v) = some a) :
    Unmaps s (s.setPte a (v % 2 ^ 9) 0) r v 1 false := by
  have hk := keeps_setPte h hn (by decide : 0 < 2 ^ 64) hs
  refine ⟨hk.ok, hk.table, fun p hp => node_setPte h hn (by decide) hp, fun w hw => ?_, fun m => ?_, fun m hm _ => ?_,
    rfl⟩
  · rw [leaf_setPte h hn (by decide) (by omega) hw]
    by_cases hwv : w = v
    · rw [if_pos hwv, if_pos (by omega)]
      rfl
    · rw [if_neg hwv, if_neg (by omega)]
  · simp [Ram.setPte, Ram.setPage]
  · exact page_setPage_other fun he => hm (he ▸ ⟨path v, by simp [path], hn⟩)

/-- The frame of page `v` is freed, then its PTE is cleared. -/
theorem unmaps_free (hs : s.Ok) (h : Table s r) (hv : v < 2 ^ 26) (hn : s.node r (path v) = some a)
    (hleaf : s.leaf r v = some pte) (hram : s.InRam (frame pte)) (htab : ¬ s.InTable r (frame pte))
    (hfree : frame pte ∉ s.freelist) : Unmaps s ((s.give (frame pte)).setPte a (v % 2 ^ 9) 0) r v 1 true := by
  have hpage : ∀ m, m ≠ frame pte → (s.give (frame pte)).page m = s.page m := fun m hm => page_setPage_other hm
  have hsame : ∀ m, s.InTable r m → (s.give (frame pte)).page m = s.page m := fun m hm =>
    hpage m fun he => htab (he ▸ hm)
  have hlist : ∀ m, m ∈ (s.give (frame pte)).freelist ↔ m = frame pte ∨ m ∈ s.freelist := fun m => List.mem_cons
  have hok : (s.give (frame pte)).Ok := by
    refine ⟨List.nodup_cons.mpr ⟨hfree, hs.nodup⟩, fun m hm => ?_⟩
    rcases (hlist m).mp hm with rfl | hm
    · exact hram
    · exact hs.ram m hm
  have htable : Table (s.give (frame pte)) r := by
    refine table_of_agree hsame h (fun m hm hin => ?_) rfl
    rcases (hlist m).mp hin with rfl | hin
    · exact htab hm
    · exact h.free m hm hin
  have hback : ∀ m, s.Backs r v 1 m ↔ m = frame pte := fun m => by
    constructor
    · rintro ⟨w, pte', hw, hw', hl, he⟩
      obtain rfl : w = v := by omega
      cases hl.symm.trans hleaf
      exact he.symm
    · rintro rfl
      exact ⟨v, pte, Nat.le_refl v, Nat.lt_succ_self v, hleaf, rfl⟩
  have hc := unmaps_clear hok htable hv ((node_of_agree hsame (by simp [path])).trans hn)
  refine ⟨hc.ok, hc.table, fun p hp => ?_, fun w hw => ?_, fun m => ?_, fun m hm hne => ?_, rfl⟩
  · rw [hc.nodes p hp, node_of_agree hsame (Nat.le_succ_of_le hp)]
  · rw [hc.leaf w hw, leaf_of_agree hsame]
  · rw [hc.list m, hlist, hback]
    simp [or_comm]
  · rw [hback] at hne
    rw [hc.page m (fun hin => hm ((inTable_of_agree hsame).mp hin)) (by simp), hpage m (by simpa using hne)]

/-- What uvmunmap() does with a page that it takes. -/
theorem unmapPage_unmaps (hs : s.Ok) (h : Table s r) (hv : v < 2 ^ 26) (hu : s.Unmappable r doFree v)
    (hsole : doFree = true → Sole s r v 1) :
    Runs (unmapPage r doFree (v * PGSIZE)) s (fun _ t => Unmaps s t r v 1 doFree) := by
  obtain ⟨pte, hleaf, hflags, hram⟩ := hu
  obtain ⟨a, hn, hpte, hV⟩ := leaf_some hleaf
  have hva : v * PGSIZE < MAXVA := by
    simp only [PGSIZE, MAXVA]
    omega
  have hw := walk_find s r hva
  rw [Nat.mul_div_cancel _ (by decide), hn, Option.map_some] at hw
  refine runs_step hw (runs_getPte ?_)
  rw [hpte, if_neg (by rw [hV]; decide), if_neg hflags]
  cases doFree with
  | false => exact runs_setPte (f := pure) (runs_pure (unmaps_clear hs h hv hn))
  | true =>
    have hone := hsole rfl
    have htab := hone.table v hv pte (Nat.le_refl v) (Nat.lt_succ_self v) hleaf
    have hfree := hone.free v hv pte (Nat.le_refl v) (Nat.lt_succ_self v) hleaf
    rw [if_pos rfl, pte2pa_frame]
    exact runs_step (kfree_gives (hram rfl))
      (runs_setPte (f := pure) (runs_pure (unmaps_free hs h hv hn hleaf (hram rfl) htab hfree)))

theorem Sole.first (h : Sole s r v (n + 1)) : Sole s r v 1 where
  table w hb pte hw hw' := h.table w hb pte hw (by omega)
  free w hb pte hw hw' := h.free w hb pte hw (by omega)
  inj w hb w' hb' pte pte' hw hw' hx hx' := h.inj w hb w' hb' pte pte' hw (by omega) hx (by omega)

/-- The frames of the other pages are still in no other use when page `v` has been unmapped. -/
theorem Sole.rest (h : Sole s r v (n + 1)) (hu : Unmaps s t r v 1 doFree) (hv : v < 2 ^ 26) :
    Sole t r (v + 1) n := by
  have hleaf : ∀ w < 2 ^ 26, v + 1 ≤ w → t.leaf r w = s.leaf r w := fun w hb hw => by
    rw [hu.leaf w (by omega), if_neg (by omega)]
  refine ⟨fun w hb pte hw hw' hl hin => ?_, fun w hb pte hw hw' hl hin => ?_,
    fun w hb w' hb' pte pte' hw hw' hx hx' hl hl' => ?_⟩
  · rw [hleaf w hb hw] at hl
    exact h.table w hb pte (by omega) (by omega) hl (hu.inTable.mp hin)
  · rw [hleaf w hb hw] at hl
    rcases (hu.list (frame pte)).mp hin with hin | ⟨-, x, pte', hx, hx', hl', he⟩
    · exact h.free w hb pte (by omega) (by omega) hl hin
    · have := h.inj x (by omega) w hb pte' pte hx (by omega) (by omega) (by omega) hl' hl he
      omega
  · rw [hleaf w hb hw] at hl
    rw [hleaf w' hb' hx] at hl'
    exact h.inj w hb w' hb' pte pte' (by omega) (by omega) (by omega) (by omega) hl hl'

theorem Unmaps.cons (h : Unmaps s t r v 1 doFree) (h' : Unmaps t u r (v + 1) n doFree) (hv : v + n < 2 ^ 26) :
    Unmaps s u r v (n + 1) doFree := by
  have hback : ∀ m, s.Backs r v (n + 1) m ↔ s.Backs r v 1 m ∨ t.Backs r (v + 1) n m := fun m => by
    constructor
    · rintro ⟨w, pte, hw, hw', hl, he⟩
      by_cases hwv : w = v
      · exact .inl ⟨w, pte, hw, by omega, hl, he⟩
      · refine .inr ⟨w, pte, by omega, by omega, ?_, he⟩
        rw [h.leaf w (by omega), if_neg (by omega), hl]
    · rintro (⟨w, pte, hw, hw', hl, he⟩ | ⟨w, pte, hw, hw', hl, he⟩)
      · exact ⟨w, pte, hw, by omega, hl, he⟩
      · rw [h.leaf w (by omega), if_neg (by omega)] at hl
        exact ⟨w, pte, by omega, by omega, hl, he⟩
  refine ⟨h'.ok, h'.table, fun p hp => (h'.nodes p hp).trans (h.nodes p hp), fun w hw => ?_, fun m => ?_,
    fun m hm hne => ?_, h'.kend.trans h.kend⟩
  · rw [h'.leaf w hw, h.leaf w hw]
    by_cases hin : v ≤ w ∧ w < v + (n + 1)
    · rw [if_pos hin, ite_eq_left_iff]
      intro hrest
      rw [if_pos (by omega)]
    · rw [if_neg hin, if_neg (by omega), if_neg (by omega)]
  · rw [h'.list m, h.list m, hback]
    tauto
  · rw [hback] at hne
    rw [h'.page m (fun hin => hm (h.inTable.mp hin)) (by tauto), h.page m hm (by tauto)]

theorem uvmunmapLoop_done {last : Nat} (h : ¬ a < last) : uvmunmapLoop r last doFree (fuel + 1) a s = .ok () s := by
  rw [uvmunmapLoop, if_neg h]
  rfl

/-- The turns of uvmunmap(). -/
theorem uvmunmapLoop_unmaps (n : Nat) (hs : s.Ok) (h : Table s r) (hv : v + n ≤ 2 ^ 26) (hfuel : n < fuel)
    (hu : ∀ w, v ≤ w → w < v + n → s.Unmappable r doFree w) (hsole : doFree = true → Sole s r v n) :
    Runs (uvmunmapLoop r ((v + n) * PGSIZE) doFree fuel (v * PGSIZE)) s (fun _ t => Unmaps s t r v n doFree) := by
  induction n generalizing s v fuel with
  | zero =>
    obtain ⟨fuel, rfl⟩ := Nat.exists_eq_add_of_lt hfuel
    rw [Nat.zero_add, uvmunmapLoop, if_neg (by simp)]
    exact runs_pure (.refl hs h)
  | succ n ih =>
    obtain ⟨fuel, rfl⟩ : ∃ k, fuel = k + 1 := ⟨fuel - 1, by omega⟩
    have hlt : v * PGSIZE < (v + (n + 1)) * PGSIZE := by
      simp only [PGSIZE]
      omega
    have hnext : (v * PGSIZE + PGSIZE) % 2 ^ 64 = (v + 1) * PGSIZE := by
      simp only [PGSIZE]
      omega
    have hend : v + (n + 1) = v + 1 + n := by omega
    rw [uvmunmapLoop, if_pos hlt, hnext, hend]
    refine (unmapPage_unmaps hs h (by omega) (hu v (Nat.le_refl v) (by omega)) fun hd => (hsole hd).first).bind
      fun _ t ht => ?_
    refine (ih ht.ok ht.table (by omega) (by omega) (fun w hw hw' => ?_) fun hd => (hsole hd).rest ht (by omega)).mono
      fun _ u hu' => ht.cons hu' (by omega)
    obtain ⟨pte, hl, hf, hr⟩ := hu w (by omega) (by omega)
    refine ⟨pte, ?_, hf, fun hd => ?_⟩
    · rw [ht.leaf w (by omega), if_neg (by omega), hl]
    · rw [Ram.InRam, ht.kend]
      exact hr hd

theorem uvmunmap_unmaps (hs : s.Ok) (h : Table s r) (hv : v + n ≤ 2 ^ 26)
    (hu : ∀ w, v ≤ w → w < v + n → s.Unmappable r doFree w) (hsole : doFree = true → Sole s r v n) :
    Runs (uvmunmap r (v * PGSIZE) n doFree) s (fun _ t => Unmaps s t r v n doFree) := by
  have hlast : (v * PGSIZE + n * PGSIZE) % 2 ^ 64 = (v + n) * PGSIZE := by
    simp only [PGSIZE]
    omega
  rw [uvmunmap, if_neg (by simp), hlast]
  exact uvmunmapLoop_unmaps n hs h hv (Nat.lt_succ_self n) hu hsole

/-- uvmunmap() panics at a page that it does not take. -/
theorem unmapPage_needs (he : unmapPage r doFree (v * PGSIZE) s = .ok () t) :
    v < 2 ^ 26 ∧ s.Unmappable r doFree v := by
  by_cases hva : v * PGSIZE < MAXVA
  · refine ⟨by simp only [PGSIZE, MAXVA] at hva; omega, ?_⟩
    rw [unmapPage, run_bind, walk_find s r hva, Nat.mul_div_cancel _ (by decide)] at he
    cases hn : s.node r (path v) with
    | none =>
      rw [hn] at he
      cases he
    | some a =>
      simp only [hn, Option.map_some] at he
      generalize hx : s.pte a (v % 2 ^ 9) = pte
      change (if has (s.pte a (v % 2 ^ 9)) PTE_V = false then panic .unmapNotMapped else _ : VmM Unit) s = _ at he
      rw [hx] at he
      split at he
      · cases he
      rename_i hV
      split at he
      · cases he
      rename_i hflags
      refine ⟨pte, ?_, hflags, fun hd => ?_⟩
      · rw [leaf_of_node hn, hx]
        exact if_pos (Bool.not_eq_false _ ▸ hV)
      · by_contra hnot
        rw [if_pos hd, run_bind, pte2pa_frame, kfree_fails hnot] at he
        cases he
  · rw [unmapPage, run_bind, walk, if_pos (Nat.not_lt.mp hva)] at he
    cases he

theorem uvmunmapLoop_needs (n : Nat) (hs : s.Ok) (h : Table s r) (hsole : doFree = true → Sole s r v n)
    (he : uvmunmapLoop r ((v + n) * PGSIZE) doFree fuel (v * PGSIZE) s = .ok () t) :
    ∀ w, v ≤ w → w < v + n → w < 2 ^ 26 ∧ s.Unmappable r doFree w := by
  induction n generalizing s v fuel with
  | zero =>
    intro w hw hw'
    omega
  | succ n ih =>
    cases fuel with
    | zero => cases he
    | succ fuel =>
      have hlt : v * PGSIZE < (v + (n + 1)) * PGSIZE := by
        simp only [PGSIZE]
        omega
      rw [uvmunmapLoop, if_pos hlt, run_bind] at he
      cases hp : unmapPage r doFree (v * PGSIZE) s with
      | wait =>
        rw [hp] at he
        cases he
      | fail e =>
        rw [hp] at he
        cases he
      | ok x u =>
        obtain ⟨hv, hu⟩ := unmapPage_needs hp
        have hnext : (v * PGSIZE + PGSIZE) % 2 ^ 64 = (v + 1) * PGSIZE := by
          simp only [PGSIZE]
          omega
        have hend : v + (n + 1) = v + 1 + n := by omega
        simp only [hp, hnext, hend] at he
        have hun := (unmapPage_unmaps hs h hv hu fun hd => (hsole hd).first).of_ok hp
        have hrest := ih hun.ok hun.table (fun hd => (hsole hd).rest hun hv) he
        intro w hw hw'
        by_cases hwv : w = v
        · exact hwv ▸ ⟨hv, hu⟩
        · obtain ⟨hb, pte, hl, hf, hr⟩ := hrest w (by omega) (by omega)
          rw [hun.leaf w (by omega), if_neg (by omega)] at hl
          rw [Ram.InRam, hun.kend] at hr
          exact ⟨hb, pte, hl, hf, hr⟩

end

theorem Sole.le {s : Ram} {r v n m : Nat} (h : Sole s r v n) (hm : m ≤ n) : Sole s r v m where
  table w hb pte hw hw' := h.table w hb pte hw (by omega)
  free w hb pte hw hw' := h.free w hb pte hw (by omega)
  inj w hb w' hb' pte pte' hw hw' hx hx' := h.inj w hb w' hb' pte pte' hw (by omega) hx (by omega)

/-- A run of uvmunmap() that comes to its end. The end of its range is a 64-bit sum. -/
theorem uvmunmap_ok {s t : Ram} {r va npages : Nat} {doFree : Bool} (hs : s.Ok) (h : Table s r)
    (hsole : doFree = true → Sole s r (va / PGSIZE) npages) (he : uvmunmap r va npages doFree s = .ok () t) :
    va % PGSIZE = 0 ∧ ∃ n ≤ npages, (va + npages * PGSIZE < 2 ^ 64 → n = npages) ∧
      (∀ w, va / PGSIZE ≤ w → w < va / PGSIZE + n → s.Unmappable r doFree w) ∧
      Unmaps s t r (va / PGSIZE) n doFree := by
  rw [uvmunmap] at he
  split at he
  · cases he
  rename_i hal
  have hal : va % PGSIZE = 0 := by omega
  refine ⟨hal, ?_⟩
  obtain ⟨v, rfl⟩ : ∃ v, va = v * PGSIZE := ⟨va / PGSIZE, (Nat.div_mul_cancel (Nat.dvd_of_mod_eq_zero hal)).symm⟩
  rw [Nat.mul_div_cancel _ (by decide)] at hsole ⊢
  have hlast : (v * PGSIZE + npages * PGSIZE) % 2 ^ 64 = (v + npages) % 2 ^ 52 * PGSIZE := by
    have h64 : 2 ^ 64 = 2 ^ 52 * PGSIZE := by decide
    rw [← Nat.add_mul, h64, Nat.mul_mod_mul_right]
  rw [hlast] at he
  by_cases hle : v ≤ (v + npages) % 2 ^ 52
  · obtain ⟨n, hn⟩ := Nat.exists_eq_add_of_le hle
    have hnp : n ≤ npages := by omega
    have hsole' : doFree = true → Sole s r v n := fun hd => (hsole hd).le hnp
    rw [hn] at he
    have hneed := uvmunmapLoop_needs n hs h hsole' he
    refine ⟨n, hnp, fun hlt => ?_, fun w hw hw' => (hneed w hw hw').2, ?_⟩
    · simp only [PGSIZE] at hlt
      omega
    · by_cases hv : v + n ≤ 2 ^ 26
      · exact (uvmunmapLoop_unmaps n hs h hv (by omega) (fun w hw hw' => (hneed w hw hw').2) hsole').of_ok he
      · have hn0 : n = 0 := by
          by_contra hpos
          have := (hneed (v + n - 1) (by omega) (by omega)).1
          omega
        subst hn0
        rw [uvmunmapLoop_done (by simp)] at he
        obtain rfl : s = t := (Out.ok.inj he).2
        exact .refl hs h
  · have hnot : ¬ v * PGSIZE < (v + npages) % 2 ^ 52 * PGSIZE := by
      simp only [PGSIZE]
      omega
    rw [uvmunmapLoop_done hnot] at he
    obtain rfl : s = t := (Out.ok.inj he).2
    refine ⟨0, Nat.zero_le _, fun hlt => ?_, fun w hw hw' => ?_, .refl hs h⟩
    · simp only [PGSIZE] at hlt
      omega
    · omega

/- The table as a map. -/

/-- Physical addresses and flags by virtual address. -/
abbrev AddrMap := Nat → Option (Nat × Nat)

/-- The `size` bytes at `va` are mapped to those at `pa`. -/
def AddrMap.map (m : AddrMap) (va size pa perm : Nat) : AddrMap := fun a =>
  if va ≤ a ∧ a < va + size then some ((pa + (a - va)) % 2 ^ 64, perm ||| PTE_V) else m a

def AddrMap.unmap (m : AddrMap) (va size : Nat) : AddrMap := fun a => if va ≤ a ∧ a < va + size then none else m a

/-- The translation of a virtual address. -/
def Ram.translate (s : Ram) (r : Nat) : AddrMap := fun va =>
  match walk r va false s with
  | .ok (some (a, i)) _ => (valid (s.pte a i)).map (fun pte => (pte2pa pte + va % PGSIZE, pteFlags pte))
  | _ => none

/-- The memories in which the table at `r` can be, made by uvmcreate() and changed by walk(), mappages() and uvmunmap(),
while other code works on other pages. uvmunmap() frees only frames that are in no other use. -/
inductive Built (r : Nat) : Ram → Prop where
  | create {s t : Ram} : s.Ok → uvmcreate s = .ok (some r) t → Built r t
  | walk {s t : Ram} {va : Nat} {alloc : Bool} {o : Option (Nat × Nat)} :
      Built r s → Vm.walk r va alloc s = .ok o t → Built r t
  | mappages {s t : Ram} {va size pa perm : Nat} {res : Int} : Built r s → pa < 2 ^ 64 → perm < 2 ^ 10 →
      Vm.mappages r va size pa perm s = .ok res t → Built r t
  | uvmunmap {s t : Ram} {va npages : Nat} {doFree : Bool} : Built r s →
      (doFree = true → Sole s r (va / PGSIZE) npages) → Vm.uvmunmap r va npages doFree s = .ok () t → Built r t
  | others {s t : Ram} : Built r s → t.Ok → t.kend = s.kend →
      (∀ n, s.InTable r n → t.page n = s.page n ∧ n ∉ t.freelist) → Built r t

section
variable {s t : Ram} {r : Nat}

/-- A zeroed page is an empty table. -/
theorem node_zero (hz : s.page r = .zero) (i : Nat) (p : List Nat) : s.node r (i :: p) = none := by
  have hkid : kid (s.pte r i) = none := by
    rw [pte_zero hz]
    rfl
  rw [Ram.node, Radix.node, hkid]
  rfl

theorem node_zero_some (hz : s.page r = .zero) {q : List Nat} {n : Nat} (h : s.node r q = some n) : q = [] ∧ n = r := by
  cases q with
  | nil => exact ⟨rfl, (Option.some.inj h).symm⟩
  | cons i q =>
    rw [node_zero hz] at h
    cases h

theorem inTable_zero (hz : s.page r = .zero) {n : Nat} : s.InTable r n ↔ n = r := by
  constructor
  · rintro ⟨q, -, hn⟩
    exact (node_zero_some hz hn).2
  · rintro rfl
    exact ⟨[], Nat.zero_le 2, rfl⟩

theorem leaf_zero (hz : s.page r = .zero) (v : Nat) : s.leaf r v = none := by
  rw [Ram.leaf, path, node_zero hz]
  rfl

theorem table_zero (hz : s.page r = .zero) (hfree : r ∉ s.freelist) (hram : s.InRam r) : Table s r where
  proper p q n _ _ hp hq := by rw [(node_zero_some hz hp).1, (node_zero_some hz hq).1]
  free n hn := by
    rw [(inTable_zero hz).mp hn]
    exact hfree
  ram n hn := by
    rw [(inTable_zero hz).mp hn]
    exact hram
  inner p n i _ hn hV := by
    rw [(node_zero_some hz hn).2, pte_zero hz] at hV
    simp [has] at hV

/-- What uvmcreate() gives. -/
theorem uvmcreate_empty (hs : s.Ok) (he : uvmcreate s = .ok (some r) t) :
    t.Ok ∧ Table t r ∧ ∀ v, t.leaf r v = none := by
  rw [uvmcreate, run_bind] at he
  rcases kalloc_cases s with hk | ⟨n, rest, hl, hk⟩
  · rw [hk] at he
    cases he
  · rw [hk] at he
    cases he
    have hnodup := hs.nodup
    rw [hl] at hnodup
    have hz : (setAt (setAt s.page r fun _ => 5) r fun _ => 0) r = .zero := setAt_same _ _ _
    refine ⟨⟨(List.nodup_cons.mp hnodup).2, fun n hn => hs.ram n (hl ▸ List.mem_cons_of_mem _ hn)⟩, ?_, leaf_zero hz⟩
    exact table_zero hz (List.nodup_cons.mp hnodup).1 (hs.ram r (hl ▸ List.mem_cons_self))

/-- The pages of a table that has been built are distinct and in use. -/
theorem Built.table (h : Built r s) : s.Ok ∧ Table s r := by
  induction h with
  | create hs he =>
    have := uvmcreate_empty hs he
    exact ⟨this.1, this.2.1⟩
  | @walk s t va alloc o _ he ih =>
    by_cases hva : va < MAXVA
    · cases alloc with
      | false =>
        rw [walk_find s r hva] at he
        cases he
        exact ih
      | true =>
        have hb := ((walk_builds ih.1 ih.2 hva).of_ok he).1
        exact ⟨hb.keeps.ok, hb.keeps.table⟩
    · rw [Vm.walk, if_pos (Nat.not_lt.mp hva)] at he
      cases he
  | @mappages s t va size pa perm res _ hpa hperm he ih =>
    rw [Vm.mappages] at he
    split at he
    · cases he
    split at he
    · cases he
    split at he
    · cases he
    have hk := mappagesLoop_keeps ih.1 ih.2 hpa hperm he
    exact ⟨hk.ok, hk.table⟩
  | uvmunmap _ hsole he ih =>
    obtain ⟨-, n, -, -, -, hu⟩ := uvmunmap_ok ih.1 ih.2 hsole he
    exact ⟨hu.ok, hu.table⟩
  | others _ hok hkend hsame ih =>
    exact ⟨hok, table_of_agree (fun n hn => (hsame n hn).1) ih.2 (fun n hn => (hsame n hn).2) hkend⟩

theorem translate_eq (s : Ram) (r : Nat) {va : Nat} (hva : va < MAXVA) : s.translate r va =
    (s.leaf r (va / PGSIZE)).map (fun pte => (pte2pa pte + va % PGSIZE, pteFlags pte)) := by
  rw [Ram.translate, walk_find s r hva, Ram.leaf]
  cases s.node r (path (va / PGSIZE)) with
  | none => simp only [Option.map_none, Option.bind_none]
  | some a => simp only [Option.map_some, Option.bind_some]

theorem translate_top (s : Ram) (r : Nat) {va : Nat} (hva : MAXVA ≤ va) : s.translate r va = none := by
  rw [Ram.translate, walk, if_pos hva]
  rfl

theorem translate_of_leaf {va : Nat} (h : va / PGSIZE < 2 ^ 27 → t.leaf r (va / PGSIZE) = s.leaf r (va / PGSIZE)) :
    t.translate r va = s.translate r va := by
  by_cases hva : va < MAXVA
  · have hlt : va / PGSIZE < 2 ^ 27 := by
      simp only [PGSIZE, MAXVA] at hva ⊢
      omega
    rw [translate_eq t r hva, translate_eq s r hva, h hlt]
  · rw [translate_top t r (Nat.not_lt.mp hva), translate_top s r (Nat.not_lt.mp hva)]

theorem translate_none {v : Nat} (hv : v < 2 ^ 26) : s.translate r (v * PGSIZE) = none ↔ s.leaf r v = none := by
  have hva : v * PGSIZE < MAXVA := by
    simp only [PGSIZE, MAXVA]
    omega
  rw [translate_eq s r hva, Nat.mul_div_cancel _ (by decide), Option.map_eq_none_iff]

theorem in_range {v n a : Nat} : v * PGSIZE ≤ a ∧ a < v * PGSIZE + n * PGSIZE ↔ v ≤ a / PGSIZE ∧ a / PGSIZE < v + n := by
  simp only [PGSIZE]
  omega

/-- The translation of an address in a page that mappages() has mapped. -/
theorem translate_mapped {v pa perm a : Nat} (hv : v * PGSIZE ≤ a) (ha : a < MAXVA) (hal : pa % PGSIZE = 0)
    (hperm : perm < 2 ^ 10)
    (hl : t.leaf r (a / PGSIZE) = some (mkPte ((pa + (a / PGSIZE - v) * PGSIZE) % 2 ^ 64) perm)) :
    t.translate r a = some ((pa + (a - v * PGSIZE)) % 2 ^ 64, perm ||| PTE_V) := by
  have hal' : (pa + (a / PGSIZE - v) * PGSIZE) % 2 ^ 64 % PGSIZE = 0 := by
    simp only [PGSIZE] at hal ⊢
    omega
  have hsum : (pa + (a / PGSIZE - v) * PGSIZE) % 2 ^ 64 + a % PGSIZE = (pa + (a - v * PGSIZE)) % 2 ^ 64 := by
    simp only [PGSIZE] at hal hv ⊢
    omega
  rw [translate_eq t r ha, hl, Option.map_some, mkPte_or, pteFlags_mkPte (or_valid_lt hperm),
    pte2pa_mkPte (Nat.mod_lt _ (by decide)) hal' (or_valid_lt hperm), hsum]

theorem translate_mappages {v n pa perm : Nat} (hs : s.Ok) (h : Table s r) (hn : 0 < n) (hv : v + n ≤ 2 ^ 26)
    (hpa : pa < 2 ^ 64) (hal : pa % PGSIZE = 0) (hperm : perm < 2 ^ 10)
    (hfree : ∀ w, v ≤ w → w < v + n → s.leaf r w = none) :
    Runs (mappages r (v * PGSIZE) (n * PGSIZE) pa perm) s (fun res t =>
      (res = 0 ∧ t.translate r = AddrMap.map (s.translate r) (v * PGSIZE) (n * PGSIZE) pa perm) ∨
      (res = -1 ∧ ∀ a, ¬ (v * PGSIZE ≤ a ∧ a < v * PGSIZE + n * PGSIZE) → t.translate r a = s.translate r a)) := by
  refine (mappages_maps hs h hn hv hpa hperm hfree).mono fun res t ⟨_, k, hle, hres, hleaf⟩ => ?_
  have hout : ∀ a, ¬ (v * PGSIZE ≤ a ∧ a < v * PGSIZE + n * PGSIZE) → t.translate r a = s.translate r a := fun a ha => by
    rw [in_range] at ha
    exact translate_of_leaf fun hlt => by rw [hleaf _ hlt, if_neg (by omega)]
  rcases hres with ⟨hres, rfl⟩ | ⟨hres, -⟩
  · refine .inl ⟨hres, funext fun a => ?_⟩
    by_cases ha : v * PGSIZE ≤ a ∧ a < v * PGSIZE + k * PGSIZE
    · have hpage := in_range.mp ha
      have hmax : a < MAXVA := by
        simp only [PGSIZE, MAXVA] at ha ⊢
        omega
      rw [AddrMap.map, if_pos ha]
      refine translate_mapped ha.1 hmax hal hperm ?_
      rw [hleaf _ (by omega), if_pos hpage]
    · rw [AddrMap.map, if_neg ha, hout a ha]
  · exact .inr ⟨hres, hout⟩

theorem translate_unmaps {v n : Nat} {doFree : Bool} (h : Unmaps s t r v n doFree) :
    t.translate r = AddrMap.unmap (s.translate r) (v * PGSIZE) (n * PGSIZE) := by
  funext a
  rw [AddrMap.unmap]
  by_cases hmax : a < MAXVA
  · have hlt : a / PGSIZE < 2 ^ 27 := by
      simp only [PGSIZE, MAXVA] at hmax ⊢
      omega
    rw [translate_eq t r hmax, h.leaf _ hlt, translate_eq s r hmax]
    by_cases ha : v * PGSIZE ≤ a ∧ a < v * PGSIZE + n * PGSIZE
    · rw [if_pos ha, if_pos (in_range.mp ha)]
      rfl
    · rw [if_neg ha, if_neg (fun hp => ha (in_range.mpr hp))]
  · rw [translate_top t r (Nat.not_lt.mp hmax), translate_top s r (Nat.not_lt.mp hmax), ite_self]

/-- walk() without alloc finds the slot of an address iff the two tables above it are there. -/
theorem walk_finds (s : Ram) (r : Nat) {va : Nat} (hva : va < MAXVA) : ∃ o, walk r va false s = .ok o s ∧
    ∀ a i, o = some (a, i) ↔
      (∃ mid, kid (s.pte r (px 2 va)) = some mid ∧ kid (s.pte mid (px 1 va)) = some a) ∧ i = px 0 va := by
  refine ⟨_, walk_find s r hva, fun a i => ?_⟩
  rw [px_zero, px_one, px_two]
  simp only [Option.map_eq_some_iff, Ram.node, path, Radix.node, Option.bind_eq_some_iff, Prod.mk.injEq, Option.some.injEq]
  constructor
  · rintro ⟨b, ⟨mid, hmid, c, hc, rfl⟩, rfl, rfl⟩
    exact ⟨⟨mid, hmid, hc⟩, rfl⟩
  · rintro ⟨⟨mid, hmid, hc⟩, rfl⟩
    exact ⟨a, ⟨mid, hmid, a, hc, rfl⟩, rfl, rfl⟩

/-- The page table is a finite map. mappages() adds a range to it or, without memory, leaves all that is outside the
range; uvmunmap() takes a range away, and panics iff a page of it cannot be taken; walk() without alloc is a lookup. -/
theorem page_table_is_map (h : Built r s) :
    (∀ va size pa perm, va % PGSIZE = 0 → size % PGSIZE = 0 → pa % PGSIZE = 0 → 0 < size → va + size ≤ MAXVA →
      pa < 2 ^ 64 → perm < 2 ^ 10 → (∀ a, va ≤ a → a < va + size → s.translate r a = none) →
      Runs (mappages r va size pa perm) s (fun res t => Built r t ∧
        ((res = 0 ∧ t.translate r = AddrMap.map (s.translate r) va size pa perm) ∨
         (res = -1 ∧ ∀ a, ¬ (va ≤ a ∧ a < va + size) → t.translate r a = s.translate r a)))) ∧
    (∀ va npages doFree, va % PGSIZE = 0 → va + npages * PGSIZE ≤ MAXVA →
      (doFree = true → Sole s r (va / PGSIZE) npages) →
      (∀ t, uvmunmap r va npages doFree s = .ok () t →
        Built r t ∧ t.translate r = AddrMap.unmap (s.translate r) va (npages * PGSIZE)) ∧
      ((∃ t, uvmunmap r va npages doFree s = .ok () t) ↔
        ∀ w, va / PGSIZE ≤ w → w < va / PGSIZE + npages → s.Unmappable r doFree w)) ∧
    (∀ va < MAXVA, ∃ o, walk r va false s = .ok o s ∧ ∀ a i, o = some (a, i) ↔
      (∃ mid, kid (s.pte r (px 2 va)) = some mid ∧ kid (s.pte mid (px 1 va)) = some a) ∧ i = px 0 va) := by
  obtain ⟨hs, ht⟩ := h.table
  refine ⟨?_, ?_, fun va hva => walk_finds s r hva⟩
  · intro va size pa perm hva hsize hpal hpos hmax hpa hperm hfree
    obtain ⟨v, rfl⟩ : ∃ v, va = v * PGSIZE := ⟨va / PGSIZE, (Nat.div_mul_cancel (Nat.dvd_of_mod_eq_zero hva)).symm⟩
    obtain ⟨n, rfl⟩ : ∃ n, size = n * PGSIZE := ⟨size / PGSIZE, (Nat.div_mul_cancel (Nat.dvd_of_mod_eq_zero hsize)).symm⟩
    have hv : v + n ≤ 2 ^ 26 := by
      simp only [PGSIZE, MAXVA] at hmax
      omega
    obtain ⟨res, t, he, hq⟩ := translate_mappages hs ht (Nat.pos_of_mul_pos_right hpos) hv hpa hpal hperm
      fun w hw hw' => (translate_none (by omega)).mp (hfree (w * PGSIZE) (Nat.mul_le_mul_right _ hw) (by
        rw [← Nat.add_mul]
        exact Nat.mul_lt_mul_of_pos_right hw' (by decide)))
    exact ⟨res, t, he, h.mappages hpa hperm he, hq⟩
  · intro va npages doFree hva hmax hsole
    have hok : ∀ t, uvmunmap r va npages doFree s = .ok () t → Unmaps s t r (va / PGSIZE) npages doFree ∧
        ∀ w, va / PGSIZE ≤ w → w < va / PGSIZE + npages → s.Unmappable r doFree w := fun t he => by
      obtain ⟨-, n, -, hn, hneed, hu⟩ := uvmunmap_ok hs ht hsole he
      cases hn (Nat.lt_of_le_of_lt hmax (by decide))
      exact ⟨hu, hneed⟩
    refine ⟨fun t he => ⟨h.uvmunmap hsole he, ?_⟩, fun ⟨t, he⟩ => (hok t he).2, fun hneed => ?_⟩
    · have := translate_unmaps (hok t he).1
      rwa [Nat.div_mul_cancel (Nat.dvd_of_mod_eq_zero hva)] at this
    · have hv : va / PGSIZE + npages ≤ 2 ^ 26 := by
        simp only [PGSIZE, MAXVA] at hmax ⊢
        omega
      obtain ⟨_, t, he, -⟩ := uvmunmap_unmaps hs ht hv hneed hsole
      rw [Nat.div_mul_cancel (Nat.dvd_of_mod_eq_zero hva)] at he
      exact ⟨t, he⟩

end

/-- Four free pages. -/
def fourFree : Ram := ⟨fun _ => .zero, [0x80001, 0x80002, 0x80003, 0x80004], [], 0x80001000⟩

theorem ok_fourFree : fourFree.Ok :=
  ⟨by decide, by decide⟩

theorem page_table_maps_text : ∃ t, uvmcreate fourFree = .ok (some 0x80001) t ∧
    Runs (mappages 0x80001 0 PGSIZE 0x80004000 (PTE_R ||| PTE_X ||| PTE_U)) t (fun res t' => Built 0x80001 t' ∧
      ((res = 0 ∧ t'.translate 0x80001 = AddrMap.map (t.translate 0x80001) 0 PGSIZE 0x80004000 (PTE_R ||| PTE_X ||| PTE_U)) ∨
       (res = -1 ∧ ∀ a, ¬ (0 ≤ a ∧ a < 0 + PGSIZE) → t'.translate 0x80001 a = t.translate 0x80001 a))) := by
  refine ⟨_, rfl, (page_table_is_map (.create ok_fourFree rfl)).1 0 PGSIZE 0x80004000 _ rfl rfl rfl (by decide) (by decide)
    (by decide) (by decide) fun a _ ha => ?_⟩
  have hleaf := (uvmcreate_empty ok_fourFree rfl).2.2 (a / PGSIZE)
  rw [translate_eq _ _ (Nat.lt_of_lt_of_le ha (by decide)), hleaf]
  rfl

end Xv6.Vm
