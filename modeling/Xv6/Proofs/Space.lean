import Xv6.Proofs.PageMap
import Mathlib.Combinatorics.Pigeonhole

namespace Xv6.Vm

/- The address space of a process. -/

/-- The number of pages that `sz` bytes need. -/
def pages (sz : Nat) : Nat := (sz + PGSIZE - 1) / PGSIZE

/-- The page of the trapframe, the first that is not for the program. -/
abbrev TOP : Nat := TRAPFRAME / PGSIZE

/-- In the table at `r` the program has the pages below `np` and no others. Their frames are distinct pages of RAM that
are in no other use. -/
structure Space (s : Ram) (r np : Nat) : Prop where
  ok : s.Ok
  table : Table s r
  mapped : ∀ v < np, s.Unmappable r true v
  sole : Sole s r 0 np
  rest : ∀ v, np ≤ v → v < TOP → s.leaf r v = none

section
variable {s t u : Ram} {r np m n v mem perm : Nat}

/-- There are fewer frames than there are pages below the trapframe. -/
theorem Space.bound (h : Space s r np) : np ≤ PHYSTOP / PGSIZE := by
  by_contra hlt
  have hf : ∀ v ∈ Finset.range (PHYSTOP / PGSIZE + 1), ((s.leaf r v).map frame).getD 0 ∈ Finset.range (PHYSTOP / PGSIZE) := by
    intro v hv
    obtain ⟨pte, hl, -, hram⟩ := h.mapped v (by have := Finset.mem_range.mp hv; omega)
    have := (hram rfl).2
    rw [hl, Option.map_some, Option.getD_some, Finset.mem_range]
    simp only [PGSIZE, PHYSTOP] at this ⊢
    omega
  obtain ⟨v, hv, w, hw, hne, heq⟩ := Finset.exists_ne_map_eq_of_card_lt_of_maps_to (by simp) hf
  rw [Finset.mem_range] at hv hw
  have hmax : PHYSTOP / PGSIZE < 2 ^ 26 := by decide
  obtain ⟨pte, hl, -, -⟩ := h.mapped v (by omega)
  obtain ⟨pte', hl', -, -⟩ := h.mapped w (by omega)
  simp only [hl, hl', Option.map_some, Option.getD_some] at heq
  exact hne (h.sole.inj v (by omega) w (by omega) pte pte' (Nat.zero_le v) (by omega) (Nat.zero_le w) (by omega) hl hl' heq)

theorem Space.lt (h : Space s r np) : np < TOP := Nat.lt_of_le_of_lt h.bound (by decide)

/-- A page of the program. -/
theorem Space.leaf (h : Space s r np) (hv : v < np) : ∃ pte, s.leaf r v = some pte ∧ pteFlags pte ≠ PTE_V ∧
    s.InRam (frame pte) ∧ ¬ s.InTable r (frame pte) ∧ frame pte ∉ s.freelist := by
  have hlt := h.lt
  have hmax : TOP < 2 ^ 26 := by decide
  obtain ⟨pte, hl, hf, hram⟩ := h.mapped v hv
  exact ⟨pte, hl, hf, hram rfl, h.sole.table v (by omega) pte (Nat.zero_le v) (by omega) hl,
    h.sole.free v (by omega) pte (Nat.zero_le v) (by omega) hl⟩

theorem Space.inj (h : Space s r np) {w pte pte' : Nat} (hv : v < np) (hw : w < np) (hl : s.leaf r v = some pte)
    (hl' : s.leaf r w = some pte') (he : frame pte = frame pte') : v = w := by
  have hlt := h.lt
  have hmax : TOP < 2 ^ 26 := by decide
  exact h.sole.inj v (by omega) w (by omega) pte pte' (Nat.zero_le v) (by omega) (Nat.zero_le w) (by omega) hl hl' he

theorem Sole.sub (h : Sole s r 0 np) (hle : v + n ≤ np) : Sole s r v n where
  table w hb pte hw hw' := h.table w hb pte (Nat.zero_le w) (by omega)
  free w hb pte hw hw' := h.free w hb pte (Nat.zero_le w) (by omega)
  inj w hb w' hb' pte pte' hw hw' hx hx' :=
    h.inj w hb w' hb' pte pte' (Nat.zero_le w) (by omega) (Nat.zero_le w') (by omega)

theorem Sole.transfer {v : Nat} (h : Sole s r v n)
    (hleaf : ∀ w < 2 ^ 26, v ≤ w → w < v + n → t.leaf r w = s.leaf r w)
    (htab : ∀ m, t.InTable r m → s.InTable r m ∨ m ∈ s.freelist) (hlist : ∀ m ∈ t.freelist, m ∈ s.freelist) :
    Sole t r v n := by
  refine ⟨fun w hb pte hw hw' hl hin => ?_, fun w hb pte hw hw' hl hin => ?_,
    fun w hb w' hb' pte pte' hw hw' hx hx' hl hl' => ?_⟩
  · rw [hleaf w hb hw hw'] at hl
    rcases htab _ hin with hin | hin
    · exact h.table w hb pte hw hw' hl hin
    · exact h.free w hb pte hw hw' hl hin
  · rw [hleaf w hb hw hw'] at hl
    exact h.free w hb pte hw hw' hl (hlist _ hin)
  · rw [hleaf w hb hw hw'] at hl
    rw [hleaf w' hb' hx hx'] at hl'
    exact h.inj w hb w' hb' pte pte' hw hw' hx hx' hl hl'

/-- The program has the same pages, and the table may have new ones. -/
theorem Space.transfer (h : Space s r np) (ht : t.Ok) (htab : Table t r) (hleaf : ∀ v < TOP, t.leaf r v = s.leaf r v)
    (hfresh : ∀ m, t.InTable r m → s.InTable r m ∨ m ∈ s.freelist) (hlist : ∀ m ∈ t.freelist, m ∈ s.freelist)
    (hk : t.kend = s.kend) : Space t r np := by
  have hlt := h.lt
  refine ⟨ht, htab, fun v hv => ?_, h.sole.transfer (fun w _ _ hw => hleaf w (by omega)) hfresh hlist,
    fun v hv hv' => (hleaf v hv').trans (h.rest v hv hv')⟩
  obtain ⟨pte, hl, hf, hram, -⟩ := h.leaf hv
  refine ⟨pte, (hleaf v (by omega)).trans hl, hf, fun _ => ?_⟩
  rw [Ram.InRam, hk]
  exact hram

/-- The pages below `n` have the same contents, and they and the two at the top the same PTEs. -/
structure Kept (s t : Ram) (r n : Nat) : Prop where
  leaf : ∀ v < 2 ^ 27, v < n ∨ TOP ≤ v → t.leaf r v = s.leaf r v
  page : ∀ v < n, ∀ pte, s.leaf r v = some pte → t.page (frame pte) = s.page (frame pte)

theorem Kept.refl (s : Ram) (r n : Nat) : Kept s s r n := ⟨fun _ _ _ => rfl, fun _ _ _ _ => rfl⟩

theorem Kept.le (h : Kept s t r n) (hm : m ≤ n) : Kept s t r m :=
  ⟨fun v hv hor => h.leaf v hv (by omega), fun v hv => h.page v (by omega)⟩

theorem Kept.trans (h : Kept s t r n) (h' : Kept t u r n) (hn : n < 2 ^ 27) : Kept s u r n := by
  refine ⟨fun v hv hor => (h'.leaf v hv hor).trans (h.leaf v hv hor), fun v hv pte hl => ?_⟩
  rw [h'.page v hv pte ((h.leaf v (by omega) (.inl hv)).trans hl), h.page v hv pte hl]

/-- Page `n` is the frame of a page of the program. -/
def Ram.Fronts (s : Ram) (r n : Nat) : Prop := ∃ v < TOP, ∃ pte, s.leaf r v = some pte ∧ frame pte = n

def Ram.Owns (s : Ram) (r n : Nat) : Prop := s.InTable r n ∨ s.Fronts r n

/-- Only free pages and the pages of the space at `r` have been written, and they are all there still. -/
structure Local (s t : Ram) (r : Nat) : Prop where
  page : ∀ n, n ∉ s.freelist → ¬ s.Owns r n → t.page n = s.page n
  held : ∀ n, (n ∈ t.freelist ∨ t.Owns r n) ↔ (n ∈ s.freelist ∨ s.Owns r n)
  kend : t.kend = s.kend

theorem Local.refl (s : Ram) (r : Nat) : Local s s r := ⟨fun _ _ _ => rfl, fun _ => Iff.rfl, rfl⟩

theorem Local.trans (h : Local s t r) (h' : Local t u r) : Local s u r := by
  refine ⟨fun n hfree hown => ?_, fun n => (h'.held n).trans (h.held n), h'.kend.trans h.kend⟩
  have hnot := mt (h.held n).mp (not_or_intro hfree hown)
  rw [h'.page n (fun hn => hnot (.inl hn)) (fun hn => hnot (.inr hn)), h.page n hfree hown]

theorem Unmaps.isLocal (hu : Unmaps s t r m n true) (hmn : m + n ≤ TOP) : Local s t r := by
  have hmax : TOP < 2 ^ 26 := by decide
  have hback : ∀ x, s.Backs r m n x → s.Owns r x := by
    rintro x ⟨w, pte, hw, hw', hl, he⟩
    exact .inr ⟨w, by omega, pte, hl, he⟩
  refine ⟨fun x hfree hown => ?_, fun x => ⟨?_, ?_⟩, hu.kend⟩
  · exact hu.page x (fun hin => hown (.inl hin)) fun hb => hown (hback x hb.2)
  · rintro (hx | hx | ⟨v, hv, pte, hl, he⟩)
    · rcases (hu.list x).mp hx with hx | ⟨-, hx⟩
      · exact .inl hx
      · exact .inr (hback x hx)
    · exact .inr (.inl (hu.inTable.mp hx))
    · rw [hu.leaf v (by omega)] at hl
      split at hl
      · cases hl
      · exact .inr (.inr ⟨v, hv, pte, hl, he⟩)
  · rintro (hx | hx | ⟨v, hv, pte, hl, he⟩)
    · exact .inl ((hu.list x).mpr (.inl hx))
    · exact .inr (.inl (hu.inTable.mpr hx))
    · by_cases hin : m ≤ v ∧ v < m + n
      · exact .inl ((hu.list x).mpr (.inr ⟨rfl, v, pte, hin.1, hin.2, hl, he⟩))
      · refine .inr (.inr ⟨v, hv, pte, ?_, he⟩)
        rw [hu.leaf v (by omega), if_neg hin, hl]

/-- The pages from `m` on are unmapped and freed. -/
theorem Space.unmap (h : Space s r np) (hm : m ≤ np) (hu : Unmaps s t r m (np - m) true) :
    Space t r m ∧ Kept s t r m := by
  have hlt := h.lt
  have hmax : TOP < 2 ^ 26 := by decide
  have hleaf : ∀ w, w < m → t.leaf r w = s.leaf r w := fun w hw => by
    rw [hu.leaf w (by omega), if_neg (by omega)]
  have hback : ∀ w pte, w < m → s.leaf r w = some pte → ¬ s.Backs r m (np - m) (frame pte) := by
    rintro w pte hw hl ⟨w', pte', hx, hx', hl', he⟩
    have := h.inj (by omega) (by omega) hl' hl he
    omega
  refine ⟨⟨hu.ok, hu.table, fun w hw => ?_, ⟨fun w hb pte _ hw hl hin => ?_, fun w hb pte _ hw hl hin => ?_,
    fun w hb w' hb' pte pte' _ hw _ hw' hl hl' he => ?_⟩, fun w hw hw' => ?_⟩, ⟨fun w hw hor => ?_, fun w hw pte hl => ?_⟩⟩
  · obtain ⟨pte, hl, hf, hram, -⟩ := h.leaf (show w < np by omega)
    refine ⟨pte, (hleaf w hw).trans hl, hf, fun _ => ?_⟩
    rw [Ram.InRam, hu.kend]
    exact hram
  · rw [hleaf w (by omega)] at hl
    exact h.sole.table w hb pte (Nat.zero_le w) (by omega) hl (hu.inTable.mp hin)
  · rw [hleaf w (by omega)] at hl
    rcases (hu.list _).mp hin with hin | ⟨-, hin⟩
    · exact h.sole.free w hb pte (Nat.zero_le w) (by omega) hl hin
    · exact hback w pte (by omega) hl hin
  · rw [hleaf w (by omega)] at hl
    rw [hleaf w' (by omega)] at hl'
    exact h.inj (by omega) (by omega) hl hl' he
  · rw [hu.leaf w (by omega)]
    by_cases hin : m ≤ w ∧ w < m + (np - m)
    · rw [if_pos hin]
    · rw [if_neg hin, h.rest w (by omega) hw']
  · rw [hu.leaf w hw, if_neg (by omega)]
  · obtain ⟨pte', hl', -, -, htab, -⟩ := h.leaf (show w < np by omega)
    cases hl.symm.trans hl'
    exact hu.page _ htab fun hb => hback w pte hw hl hb.2

theorem Space.uvmunmap (h : Space s r np) (hm : m ≤ np) :
    Runs (uvmunmap r (m * PGSIZE) (np - m) true) s (fun _ t => Space t r m ∧ Kept s t r m ∧ Local s t r) := by
  have hlt := h.lt
  have hmax : TOP < 2 ^ 26 := by decide
  refine (uvmunmap_unmaps h.ok h.table (by omega) (fun w _ hw => h.mapped w (by omega)) fun _ =>
    h.sole.sub (by omega)).mono fun _ t hu => ?_
  have hs := h.unmap hm hu
  exact ⟨hs.1, hs.2, hu.isLocal (by omega)⟩

/- uvmdealloc() -/

theorem pgroundup_eq {sz : Nat} (h : pages sz < TOP) : pgroundup sz = pages sz * PGSIZE := by
  have hsz : sz + PGSIZE - 1 < 2 ^ 64 := by
    simp only [pages, TOP, PGSIZE, TRAPFRAME, TRAMPOLINE, MAXVA] at h ⊢
    omega
  rw [pgroundup, Nat.mod_eq_of_lt hsz]
  rfl

theorem pages_mono {a b : Nat} (h : a ≤ b) : pages a ≤ pages b := Nat.div_le_div_right (by omega)

theorem pages_mul (n : Nat) : pages (n * PGSIZE) = n := by
  simp only [pages, PGSIZE]
  omega

theorem Space.uvmdealloc {old new : Nat} (h : Space s r (pages old)) (hle : new ≤ old) :
    Runs (uvmdealloc r old new) s (fun res t => res = new ∧ Space t r (pages new) ∧ Kept s t r (pages new) ∧
      Local s t r) := by
  have hlt := h.lt
  have hpages := pages_mono hle
  rw [Vm.uvmdealloc]
  refine .ite (fun hge => runs_pure ?_) fun hnew => ?_
  · obtain rfl : new = old := Nat.le_antisymm hle hge
    exact ⟨rfl, h, .refl s r _, .refl s r⟩
  · rw [pgroundup_eq hlt, pgroundup_eq (Nat.lt_of_le_of_lt hpages hlt)]
    by_cases hpos : pages new * PGSIZE < pages old * PGSIZE
    · have hn : (pages old * PGSIZE - pages new * PGSIZE) / PGSIZE = pages old - pages new := by
        rw [← Nat.sub_mul, Nat.mul_div_cancel _ (by decide)]
      rw [if_pos hpos, hn]
      exact (h.uvmunmap hpages).bind fun _ t ht => runs_pure ⟨rfl, ht⟩
    · have heq : pages new = pages old := by
        simp only [PGSIZE] at hpos
        omega
      rw [if_neg hpos, heq]
      exact runs_pure ⟨rfl, h, .refl s r _, .refl s r⟩

/- One more page. -/

/-- kalloc() has taken page `mem`, which may have been written since. -/
structure Gets (s t : Ram) (mem : Nat) : Prop where
  list : s.freelist = mem :: t.freelist
  page : ∀ m, m ≠ mem → t.page m = s.page m
  kend : t.kend = s.kend

namespace Gets
variable (hg : Gets s t mem)
include hg

theorem mem_free : mem ∈ s.freelist := by
  rw [hg.list]
  exact List.mem_cons_self

theorem not_free (hs : s.Ok) : mem ∉ t.freelist := by
  have := hs.nodup
  rw [hg.list] at this
  exact (List.nodup_cons.mp this).1

theorem free {m : Nat} (hm : m ∈ t.freelist) : m ∈ s.freelist := by
  rw [hg.list]
  exact List.mem_cons_of_mem _ hm

theorem ok (hs : s.Ok) : t.Ok := by
  refine ⟨?_, fun m hm => ?_⟩
  · have := hs.nodup
    rw [hg.list] at this
    exact (List.nodup_cons.mp this).2
  · rw [Ram.InRam, hg.kend]
    exact hs.ram m (hg.free hm)

theorem agree (h : Table s r) (n : Nat) (hn : s.InTable r n) : t.page n = s.page n :=
  hg.page n fun he => h.free n hn (he ▸ hg.mem_free)

theorem table (h : Table s r) : Table t r :=
  table_of_agree (hg.agree h) h (fun n hn hin => h.free n hn (hg.free hin)) hg.kend

theorem not_inTable (h : Table s r) : ¬ t.InTable r mem := fun hin =>
  h.free mem ((inTable_of_agree (hg.agree h)).mp hin) hg.mem_free

theorem leaf (h : Table s r) (v : Nat) : t.leaf r v = s.leaf r v := leaf_of_agree (hg.agree h) v

theorem space (h : Space s r np) : Space t r np :=
  h.transfer (hg.ok h.ok) (hg.table h.table) (fun v _ => hg.leaf h.table v)
    (fun _ hm => .inl ((inTable_of_agree (hg.agree h.table)).mp hm)) (fun _ hm => hg.free hm) hg.kend

theorem frame_ne (h : Space s r np) {pte : Nat} (hv : v < np) (hl : s.leaf r v = some pte) : frame pte ≠ mem := by
  intro he
  obtain ⟨pte', hl', -, -, -, hfree⟩ := h.leaf hv
  cases hl.symm.trans hl'
  exact hfree (he ▸ hg.mem_free)

theorem kept (h : Space s r np) : Kept s t r np :=
  ⟨fun v _ _ => hg.leaf h.table v, fun _ hv _ hl => hg.page _ (hg.frame_ne h hv hl)⟩

end Gets

/-- mappages() of page `np` leaves the pages below it. -/
theorem Space.of_keeps (h : Space s r np) (hk : Keeps s t r) (hleaf : ∀ v < 2 ^ 27, v ≠ np → t.leaf r v = s.leaf r v) :
    (∀ v < np, t.Unmappable r true v) ∧ Sole t r 0 np ∧ Kept s t r np := by
  have hlt := h.lt
  have hmax : TOP < 2 ^ 26 := by decide
  refine ⟨fun v hv => ?_, h.sole.transfer (fun w hb _ hw => hleaf w (by omega) (by omega)) hk.fresh hk.list,
    fun v hv hor => hleaf v hv (by omega), fun v hv pte hl => ?_⟩
  · obtain ⟨pte, hl, hf, hram, -⟩ := h.leaf hv
    refine ⟨pte, (hleaf v (by omega) (by omega)).trans hl, hf, fun _ => ?_⟩
    rw [Ram.InRam, hk.kend]
    exact hram
  · obtain ⟨pte', hl', -, -, htab, hfree⟩ := h.leaf hv
    cases hl.symm.trans hl'
    exact hk.page _ htab hfree

/-- The program gets page `np`, with frame `mem`. -/
structure Adds (s t : Ram) (r np mem perm : Nat) : Prop where
  space : Space t r (np + 1)
  kept : Kept s t r np
  leaf : t.leaf r np = some (mkPte (mem * PGSIZE) perm)

theorem frame_mkPte (hmem : mem * PGSIZE < PHYSTOP) (hperm : perm < 2 ^ 10) : frame (mkPte (mem * PGSIZE) perm) = mem := by
  rw [frame, mkPte_or, pte2pa_mkPte (Nat.lt_trans hmem (by decide)) (Nat.mul_mod_left _ _) (or_valid_lt hperm),
    Nat.mul_div_cancel _ (by decide)]

theorem Space.snoc (h : Space s r np) (hk : Keeps s t r) (hram : s.InRam mem) (htab : ¬ s.InTable r mem)
    (hfree : mem ∉ s.freelist) (hne : ∀ v < np, ∀ pte, s.leaf r v = some pte → frame pte ≠ mem) (hperm : perm < 2 ^ 10)
    (hflags : perm ||| PTE_V ≠ PTE_V)
    (hleaf : ∀ v < 2 ^ 27, t.leaf r v = if v = np then some (mkPte (mem * PGSIZE) perm) else s.leaf r v) :
    Adds s t r np mem perm := by
  have hlt := h.lt
  have hmax : TOP < 2 ^ 26 := by decide
  have hnew : t.leaf r np = some (mkPte (mem * PGSIZE) perm) := by rw [hleaf np (by omega), if_pos rfl]
  have hframe := frame_mkPte hram.2 hperm
  obtain ⟨hmapped, hsole, hkept⟩ := h.of_keeps hk fun v hv hne => by rw [hleaf v hv, if_neg hne]
  have hold : ∀ w pte, w < np → t.leaf r w = some pte → s.leaf r w = some pte := fun w pte hw hl => by
    rw [← hkept.leaf w (by omega) (.inl hw), hl]
  have htab' : ¬ t.InTable r mem := fun hin => (hk.fresh mem hin).elim htab hfree
  refine ⟨⟨hk.ok, hk.table, fun w hw => ?_, ⟨fun w hb pte _ hw hl => ?_, fun w hb pte _ hw hl => ?_,
    fun w hb w' hb' pte pte' _ hw _ hw' hl hl' he => ?_⟩, fun w hw hw' => ?_⟩, hkept, hnew⟩
  · by_cases hwn : w = np
    · subst hwn
      refine ⟨_, hnew, ?_, fun _ => ?_⟩
      · rw [mkPte_or, pteFlags_mkPte (or_valid_lt hperm)]
        exact hflags
      · rw [hframe, Ram.InRam, hk.kend]
        exact hram
    · exact hmapped w (by omega)
  · by_cases hwn : w = np
    · subst hwn
      cases hl.symm.trans hnew
      rwa [hframe]
    · exact hsole.table w hb pte (Nat.zero_le w) (by omega) hl
  · by_cases hwn : w = np
    · subst hwn
      cases hl.symm.trans hnew
      rw [hframe]
      exact fun hin => hfree (hk.list mem hin)
    · exact hsole.free w hb pte (Nat.zero_le w) (by omega) hl
  · by_cases hwn : w = np <;> by_cases hwn' : w' = np
    · rw [hwn, hwn']
    · subst hwn
      cases hl.symm.trans hnew
      exact absurd (he.symm.trans hframe) (hne w' (by omega) pte' (hold w' pte' (by omega) hl'))
    · subst hwn'
      cases hl'.symm.trans hnew
      exact absurd (he.trans hframe) (hne w (by omega) pte (hold w pte (by omega) hl))
    · exact hsole.inj w hb w' hb' pte pte' (Nat.zero_le w) (by omega) (Nat.zero_le w') (by omega) hl hl' he
  · rw [hleaf w (by omega), if_neg (by omega), h.rest w (by omega) hw']

/-- kfree() of a page that is in no use. -/
theorem Space.give (h : Space s r np) (hram : s.InRam mem) (htab : ¬ s.InTable r mem) (hfree : mem ∉ s.freelist)
    (hne : ∀ v < np, ∀ pte, s.leaf r v = some pte → frame pte ≠ mem) :
    Space (s.give mem) r np ∧ Kept s (s.give mem) r np := by
  have hlt := h.lt
  have hmax : TOP < 2 ^ 26 := by decide
  have hpage : ∀ m, m ≠ mem → (s.give mem).page m = s.page m := fun m hm => page_setPage_other hm
  have hsame : ∀ m, s.InTable r m → (s.give mem).page m = s.page m := fun m hm => hpage m fun he => htab (he ▸ hm)
  have hlist : ∀ m, m ∈ (s.give mem).freelist ↔ m = mem ∨ m ∈ s.freelist := fun m => List.mem_cons
  have hleaf := leaf_of_agree hsame
  refine ⟨⟨⟨List.nodup_cons.mpr ⟨hfree, h.ok.nodup⟩, fun m hm => ?_⟩, ?_, fun w hw => ?_,
    ⟨fun w hb pte hw hw' hl hin => ?_, fun w hb pte hw hw' hl hin => ?_,
      fun w hb w' hb' pte pte' hw hw' hx hx' hl hl' => ?_⟩, fun w hw hw' => (hleaf w).trans (h.rest w hw hw')⟩,
    fun w _ _ => hleaf w, fun w hw pte hl => hpage _ (hne w hw pte hl)⟩
  · rcases (hlist m).mp hm with rfl | hm
    · exact hram
    · exact h.ok.ram m hm
  · refine table_of_agree hsame h.table (fun m hm hin => ?_) rfl
    rcases (hlist m).mp hin with rfl | hin
    · exact htab hm
    · exact h.table.free m hm hin
  · obtain ⟨pte, hl, hf, hram', -⟩ := h.leaf hw
    exact ⟨pte, (hleaf w).trans hl, hf, fun _ => hram'⟩
  · rw [hleaf] at hl
    exact h.sole.table w hb pte hw hw' hl ((inTable_of_agree hsame).mp hin)
  · rw [hleaf] at hl
    rcases (hlist _).mp hin with he | hin
    · exact hne w (by omega) pte hl he
    · exact h.sole.free w hb pte hw hw' hl hin
  · rw [hleaf] at hl hl'
    exact h.sole.inj w hb w' hb' pte pte' hw hw' hx hx' hl hl'

theorem agree_give (h : ¬ s.InTable r mem) (n : Nat) (hn : s.InTable r n) : (s.give mem).page n = s.page n := by
  have hne : n ≠ mem := fun he => h (he ▸ hn)
  exact page_setPage_other hne

namespace Gets
variable (hg : Gets s t mem) (hk : Keeps t u r) (h : Table s r)
include hg hk h

/-- The pages that were free or in the table, when page `mem` has been taken and tables have been made. -/
theorem held : (n ∈ u.freelist ∨ u.InTable r n) ∨ n = mem ↔ n ∈ s.freelist ∨ s.InTable r n := by
  rw [hg.list, List.mem_cons, ← inTable_of_agree (hg.agree h)]
  constructor
  · rintro ((hn | hn) | hn)
    · exact .inl (.inr (hk.list n hn))
    · exact (hk.fresh n hn).elim .inr fun hn => .inl (.inr hn)
    · exact .inl (.inl hn)
  · rintro ((hn | hn) | hn)
    · exact .inr hn
    · exact .inl (hk.used n hn)
    · exact .inl (.inr (hk.inTable hn))

theorem page_other (hfree : n ∉ s.freelist) (htab : ¬ s.InTable r n) : u.page n = s.page n := by
  rw [hk.page n (fun hin => htab ((inTable_of_agree (hg.agree h)).mp hin)) (fun hin => hfree (hg.free hin)),
    hg.page n fun he => hfree (he ▸ hg.mem_free)]

theorem local_gives (htab : ¬ u.InTable r mem) (hleaf : ∀ v < 2 ^ 27, u.leaf r v = s.leaf r v) :
    Local s (u.give mem) r := by
  have hmax : TOP < 2 ^ 26 := by decide
  have hfront : ∀ n, (u.give mem).Fronts r n ↔ s.Fronts r n := fun n =>
    exists_congr fun v => and_congr_right fun hv => by rw [leaf_of_agree (agree_give htab), hleaf v (by omega)]
  have hlist : ∀ n, n ∈ (u.give mem).freelist ↔ n = mem ∨ n ∈ u.freelist := fun n => List.mem_cons
  refine ⟨fun n hfree hown => ?_, fun n => ?_, hk.kend.trans hg.kend⟩
  · have hne : n ≠ mem := fun he => hfree (he ▸ hg.mem_free)
    exact (page_setPage_other hne).trans (hg.page_other hk h hfree fun hin => hown (.inl hin))
  · rw [Ram.Owns, Ram.Owns, hfront, hlist, inTable_of_agree (agree_give htab), ← or_assoc (a := n ∈ s.freelist),
      ← hg.held hk h]
    simp only [or_assoc, or_left_comm]

theorem local_adds {pte : Nat} (hnp : np < TOP) (hnone : s.leaf r np = none) (hframe : frame pte = mem)
    (hleaf : ∀ v < 2 ^ 27, u.leaf r v = if v = np then some pte else s.leaf r v) : Local s u r := by
  have hmax : TOP < 2 ^ 26 := by decide
  have hfront : ∀ n, u.Fronts r n ↔ n = mem ∨ s.Fronts r n := fun n => by
    constructor
    · rintro ⟨v, hv, x, hl, he⟩
      rw [hleaf v (by omega)] at hl
      split at hl
      · cases hl
        exact .inl (he.symm.trans hframe)
      · exact .inr ⟨v, hv, x, hl, he⟩
    · rintro (rfl | ⟨v, hv, x, hl, he⟩)
      · refine ⟨np, hnp, pte, ?_, hframe⟩
        rw [hleaf np (by omega), if_pos rfl]
      · refine ⟨v, hv, x, ?_, he⟩
        rw [hleaf v (by omega), if_neg, hl]
        rintro rfl
        cases hl.symm.trans hnone
  refine ⟨fun n hfree hown => hg.page_other hk h hfree fun hin => hown (.inl hin), fun n => ?_, hk.kend.trans hg.kend⟩
  rw [Ram.Owns, Ram.Owns, hfront, ← or_assoc (a := n ∈ s.freelist), ← hg.held hk h]
  simp only [or_assoc]

end Gets

/-- mappages() for the next page of the program, with a frame from kalloc(). Without memory for the table, the frame can
be given back. -/
theorem Space.mapPage (h : Space s r np) (hg : Gets s t mem) (hperm : perm < 2 ^ 10) (hflags : perm ||| PTE_V ≠ PTE_V) :
    Runs (mappages r (np * PGSIZE) PGSIZE (mem * PGSIZE) perm) t (fun res u => Keeps t u r ∧
      (res = 0 ∧ Adds s u r np mem perm ∧ Local s u r ∨
       res = -1 ∧ u.InRam mem ∧ Space (u.give mem) r np ∧ Kept s (u.give mem) r np ∧ Local s (u.give mem) r)) := by
  have hlt := h.lt
  have hmax : TOP < 2 ^ 26 := by decide
  have ht := hg.space h
  have hram : t.InRam mem := by
    rw [Ram.InRam, hg.kend]
    exact h.ok.ram mem hg.mem_free
  have htab := hg.not_inTable h.table
  have hfree := hg.not_free h.ok
  have hne : ∀ v < np, ∀ pte, t.leaf r v = some pte → frame pte ≠ mem := fun v hv pte hl =>
    hg.frame_ne h hv ((hg.leaf h.table v).symm.trans hl)
  have hmap := mappages_maps (n := 1) ht.ok ht.table Nat.one_pos (by omega) (Nat.lt_trans hram.2 (by decide)) hperm
    fun w hw hw' => ht.rest w hw (by omega)
  rw [Nat.one_mul] at hmap
  refine hmap.mono fun res u hu => ?_
  obtain ⟨hk, k, hle, hres, hleaf⟩ := hu
  have htab' : ¬ u.InTable r mem := fun hin => (hk.fresh mem hin).elim htab hfree
  refine ⟨hk, ?_⟩
  rcases hres with ⟨hres, rfl⟩ | ⟨hres, hk0⟩
  · have hset : ∀ v < 2 ^ 27, u.leaf r v = if v = np then some (mkPte (mem * PGSIZE) perm) else t.leaf r v := by
      intro v hv
      rw [hleaf v hv]
      by_cases hv' : v = np
      · have hpa : (mem * PGSIZE + (v - np) * PGSIZE) % 2 ^ 64 = mem * PGSIZE := by
          rw [hv', Nat.sub_self, Nat.zero_mul, Nat.add_zero, Nat.mod_eq_of_lt (Nat.lt_trans hram.2 (by decide))]
        rw [if_pos (by omega), if_pos hv', hpa]
      · rw [if_neg (by omega), if_neg hv']
    have ha := ht.snoc hk hram htab hfree hne hperm hflags hset
    refine .inl ⟨hres, ⟨ha.space, (hg.kept h).trans ha.kept (by omega), ha.leaf⟩, ?_⟩
    exact hg.local_adds hk h.table hlt (h.rest np (Nat.le_refl np) hlt) (frame_mkPte hram.2 hperm) fun v hv => by
      rw [hset v hv, hg.leaf h.table]
  · have hsame : ∀ v < 2 ^ 27, u.leaf r v = t.leaf r v := fun v hv => by rw [hleaf v hv, if_neg (by omega)]
    obtain ⟨-, -, hkept⟩ := ht.of_keeps hk fun v hv _ => hsame v hv
    have hu : Space u r np := ht.transfer hk.ok hk.table (fun v hv => hsame v (by omega)) hk.fresh hk.list hk.kend
    have hram' : u.InRam mem := by
      rw [Ram.InRam, hk.kend]
      exact hram
    have hgive := hu.give hram' htab' (fun hin => hfree (hk.list mem hin))
      fun v hv pte hl => hne v hv pte ((hsame v (by omega)).symm.trans hl)
    refine .inr ⟨hres, hram', hgive.1, ((hg.kept h).trans hkept (by omega)).trans hgive.2 (by omega), ?_⟩
    exact hg.local_gives hk h.table htab' fun v hv => by rw [hsame v hv, hg.leaf h.table]

/- uvmalloc() -/

/-- The first `m` pages are left, and the frames of the others have been freed. -/
structure Rolls (s t : Ram) (r m : Nat) : Prop where
  space : Space t r m
  kept : Kept s t r m
  isLocal : Local s t r

theorem Rolls.after (h : Rolls t u r m) (hk : Kept s t r m) (hl : Local s t r) : Rolls s u r m :=
  ⟨h.space, hk.trans h.kept (Nat.lt_trans h.space.lt (by decide)), hl.trans h.isLocal⟩

theorem Space.rollback (h : Space s r v) (hm : m ≤ v) :
    Runs (Vm.uvmdealloc r (v * PGSIZE) (m * PGSIZE)) s (fun _ t => Rolls s t r m) := by
  have hs : Space s r (pages (v * PGSIZE)) := by rwa [pages_mul]
  refine (hs.uvmdealloc (Nat.mul_le_mul_right _ hm)).mono fun _ t ⟨_, ht, hk, hl⟩ => ?_
  rw [pages_mul] at ht hk
  exact ⟨ht, hk, hl⟩

theorem Space.deny (d : List Bool) (h : Space s r np) : Space { s with deny := d } r np :=
  ⟨⟨h.ok.nodup, h.ok.ram⟩, (Keeps.deny d h.ok h.table).table, h.mapped, ⟨h.sole.table, h.sole.free, h.sole.inj⟩, h.rest⟩

/-- The permissions that uvmalloc() gives. -/
theorem userPerm {xperm : Nat} (hx : xperm < 2 ^ 10) : PTE_R ||| PTE_U ||| xperm < 2 ^ 10 ∧
    (PTE_R ||| PTE_U ||| xperm) ||| PTE_V ≠ PTE_V := by
  refine ⟨Nat.or_lt_two_pow (by decide) hx, fun he => ?_⟩
  have hR : has ((PTE_R ||| PTE_U ||| xperm) ||| PTE_V) PTE_R = true := by
    rw [has_or, has_or, has_or]
    simp [has]
  rw [he] at hR
  exact absurd hR (by decide)

/-- The pages from `v` to `n` are new: zeroed, with the permissions `perm`. -/
def NewPages (t : Ram) (r perm v n : Nat) : Prop :=
  ∀ w, v ≤ w → w < n → ∃ pte, t.leaf r w = some pte ∧ pteFlags pte = perm ||| PTE_V ∧ t.page (frame pte) = .zero

/-- The loop of uvmalloc(). -/
theorem Space.uvmallocLoop {fuel newsz xperm : Nat} (h : Space s r v) (hm : m ≤ v) (hnew : v ≤ pages newsz)
    (hfuel : pages newsz - v < fuel) (hx : xperm < 2 ^ 10) :
    Runs (Vm.uvmallocLoop r (m * PGSIZE) newsz xperm fuel (v * PGSIZE)) s (fun res t =>
      res = newsz ∧ Space t r (pages newsz) ∧ Kept s t r v ∧ NewPages t r (PTE_R ||| PTE_U ||| xperm) v (pages newsz) ∧ Local s t r ∨
      res = 0 ∧ Rolls s t r m) := by
  induction fuel generalizing s v with
  | zero => omega
  | succ fuel ih =>
    have hlt := h.lt
    have hmax : TOP < 2 ^ 26 := by decide
    rw [Vm.uvmallocLoop]
    refine .ite (fun hmore => ?_) fun hdone => runs_pure ?_
    · have hv : v + 1 ≤ pages newsz := by
        simp only [pages, PGSIZE] at hmore ⊢
        omega
      rcases kalloc_cases s with hk | ⟨mem, rest, hl, hk⟩
      · refine runs_step hk ?_
        exact ((h.deny _).rollback hm).bind fun _ t ht => runs_pure (.inr ⟨rfl, ht.space, ⟨ht.kept.leaf, ht.kept.page⟩,
          ht.isLocal.page, ht.isLocal.held, ht.isLocal.kend⟩)
      · refine runs_step hk (runs_setPage ?_)
        generalize ht : Ram.setPage _ mem _ = t
        have hg : Gets s t mem := by
          subst ht
          exact ⟨hl, fun n hn => (page_setPage_other hn).trans (page_setPage_other hn), rfl⟩
        have hzero : t.page mem = .zero := by
          subst ht
          exact page_setPage _ _ _
        obtain ⟨hperm, hflags⟩ := userPerm hx
        refine (h.mapPage hg hperm hflags).bind fun res u ⟨hku, hres⟩ => ?_
        rcases hres with ⟨rfl, ha, hloc⟩ | ⟨rfl, hram, hsp, hkept, hloc⟩
        · have hnext : (v * PGSIZE + PGSIZE) % 2 ^ 64 = (v + 1) * PGSIZE := by
            simp only [PGSIZE]
            omega
          rw [if_neg (by decide), hnext]
          have hmemu : u.page mem = .zero := by
            rw [hku.page mem (hg.not_inTable h.table) (hg.not_free h.ok), hzero]
          have hframe := frame_mkPte (h.ok.ram mem hg.mem_free).2 hperm
          refine (ih ha.space (by omega) hv (by omega)).mono fun res t' hres => ?_
          rcases hres with ⟨rfl, hsp, hkept, hz, hl⟩ | ⟨rfl, hroll⟩
          · refine .inl ⟨rfl, hsp, ha.kept.trans (hkept.le (by omega)) (by omega), fun w hw hw' => ?_, hloc.trans hl⟩
            by_cases hwv : w = v
            · subst hwv
              refine ⟨_, (hkept.leaf w (by omega) (.inl (by omega))).trans ha.leaf, ?_, ?_⟩
              · rw [mkPte_or, pteFlags_mkPte (or_valid_lt hperm)]
              · rw [hkept.page w (by omega) _ ha.leaf, hframe, hmemu]
            · exact hz w (by omega) hw'
          · exact .inr ⟨rfl, hroll.after (ha.kept.le hm) hloc⟩
        · rw [if_pos (by decide)]
          refine runs_step (kfree_gives hram) ((hsp.rollback hm).bind fun _ t' hroll => runs_pure (.inr ⟨rfl, ?_⟩))
          exact hroll.after (hkept.le hm) hloc
    · have hv : v = pages newsz := by
        refine Nat.le_antisymm hnew ?_
        simp only [pages, PGSIZE] at hdone ⊢
        omega
      exact .inl ⟨rfl, hv ▸ h, .refl s r v, fun w hw hw' => by omega, .refl s r⟩

end

end Xv6.Vm
