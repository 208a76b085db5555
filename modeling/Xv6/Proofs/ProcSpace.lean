import Xv6.Proofs.Space
import Xv6.Proofs.Freewalk

namespace Xv6.Vm

/-- The space of a process: besides the pages of the program, its table maps the trapframe and the trampoline, which are
not for the program. -/
structure Layout (s : Ram) (r np tf : Nat) : Prop where
  space : Space s r np
  trapframe : ∃ pte, s.leaf r TOP = some pte ∧ frame pte = tf ∧ pteFlags pte = PTE_V ||| PTE_R ||| PTE_W
  trampoline : ∃ pte, s.leaf r (TOP + 1) = some pte ∧ pteFlags pte = PTE_V ||| PTE_R ||| PTE_X
  high : ∀ v < 2 ^ 27, TOP + 1 < v → s.leaf r v = none

/-- The pages that `P` names have been freed; of the pages that were free, the contents may be lost. -/
structure Released (s t : Ram) (P : Nat → Prop) : Prop where
  ok : t.Ok
  page : ∀ n, n ∉ s.freelist → ¬ P n → t.page n = s.page n
  list : ∀ n, n ∈ t.freelist ↔ n ∈ s.freelist ∨ P n
  kend : t.kend = s.kend

section
variable {s t u : Ram} {r np v n tf : Nat}

theorem Local.released (hl : Local s u r) (h : Released u t (u.Owns r)) : Released s t (s.Owns r) := by
  refine ⟨h.ok, fun n hfree hn => ?_, fun n => (h.list n).trans (hl.held n), h.kend.trans hl.kend⟩
  have hnot := mt (hl.held n).mp (not_or_intro hfree hn)
  rw [h.page n (fun hin => hnot (.inl hin)) (fun hin => hnot (.inr hin)), hl.page n hfree hn]

theorem Layout.of_top (h : Layout s r np tf) (hsp : Space t r v)
    (htop : ∀ w < 2 ^ 27, TOP ≤ w → t.leaf r w = s.leaf r w) : Layout t r v tf := by
  have hmax : TOP + 1 < 2 ^ 27 := by decide
  refine ⟨hsp, ?_, ?_, fun w hw hw' => (htop w hw (by omega)).trans (h.high w hw hw')⟩
  · rw [htop TOP (by omega) (Nat.le_refl TOP)]
    exact h.trapframe
  · rw [htop (TOP + 1) hmax (by omega)]
    exact h.trampoline

/-- The trapframe or the trampoline is unmapped. -/
theorem Space.unmap_top (h : Space s r np) (hu : Unmaps s t r v n false) (hv : TOP ≤ v) :
    Space t r np ∧ Local s t r := by
  have hmax : TOP < 2 ^ 26 := by decide
  have hleaf : ∀ w < TOP, t.leaf r w = s.leaf r w := fun w hw => by rw [hu.leaf w (by omega), if_neg (by omega)]
  have hlist : ∀ m, m ∈ t.freelist ↔ m ∈ s.freelist := fun m => by rw [hu.list]; simp
  have hfront : ∀ m, t.Fronts r m ↔ s.Fronts r m := fun m =>
    exists_congr fun w => and_congr_right fun hw => by rw [hleaf w hw]
  refine ⟨h.transfer hu.ok hu.table hleaf (fun m hm => .inl (hu.inTable.mp hm)) (fun m hm => (hlist m).mp hm) hu.kend,
    fun m hfree hown => ?_, fun m => ?_, hu.kend⟩
  · exact hu.page m (fun hin => hown (.inl hin)) (by simp)
  · rw [Ram.Owns, Ram.Owns, hfront, hu.inTable, hlist]

/-- uvmunmap() of the trapframe or the trampoline. -/
theorem Space.unmapTop {pte : Nat} (h : Space s r np) (hv : TOP ≤ v) (hv' : v < 2 ^ 26) (hl : s.leaf r v = some pte)
    (hf : pteFlags pte ≠ PTE_V) : Runs (Vm.uvmunmap r (v * PGSIZE) 1 false) s (fun _ t => Space t r np ∧ Local s t r ∧
      ∀ w < 2 ^ 27, t.leaf r w = if w = v then none else s.leaf r w) := by
  have hmap : ∀ w, v ≤ w → w < v + 1 → s.Unmappable r false w := fun w hw hw' => by
    obtain rfl : w = v := by omega
    exact ⟨pte, hl, hf, nofun⟩
  refine (uvmunmap_unmaps h.ok h.table (by omega) hmap nofun).mono fun _ t hu => ?_
  obtain ⟨hsp, hloc⟩ := h.unmap_top hu hv
  refine ⟨hsp, hloc, fun w hw => ?_⟩
  rw [hu.leaf w hw]
  exact if_congr (by omega) rfl rfl

/-- uvmfree() of a table in which only pages of the program are left. -/
theorem Space.uvmfree {sz : Nat} (h : Space s r (pages sz)) (htop : ∀ v < 2 ^ 27, TOP ≤ v → s.leaf r v = none) :
    Runs (Vm.uvmfree r sz) s (fun _ t => Released s t (s.Owns r)) := by
  have hclear : ∀ u, Space u r 0 → Local s u r → (∀ v < 2 ^ 27, TOP ≤ v → u.leaf r v = none) →
      Runs (freewalk r) u (fun _ t => Released s t (s.Owns r)) := by
    intro u hu hloc htop
    have hnone : ∀ v < 2 ^ 27, u.leaf r v = none := fun v hv => by
      rcases Nat.lt_or_ge v TOP with hlt | hge
      · exact hu.rest v (Nat.zero_le v) hlt
      · exact htop v hv hge
    have hown : ∀ n, u.Owns r n ↔ u.InTable r n := fun n => by
      refine ⟨fun hn => ?_, .inl⟩
      rcases hn with hn | ⟨v, hv, pte, hl, -⟩
      · exact hn
      · rw [hnone v (Nat.lt_trans hv (by decide))] at hl
        cases hl
    refine (freewalk_frees hu.ok hu.table hnone).mono fun _ t hf => hloc.released ⟨hf.ok, fun n _ hn => ?_, fun n => ?_, hf.kend⟩
    · exact hf.page n fun hin => hn (.inl hin)
    · rw [hf.list, hown]
  rw [Vm.uvmfree]
  by_cases hsz : sz > 0
  · have hu := h.uvmunmap (Nat.zero_le _)
    rw [Nat.zero_mul, Nat.sub_zero] at hu
    rw [if_pos hsz, pgroundup_eq h.lt, Nat.mul_div_cancel _ (by decide)]
    exact hu.bind fun _ u ⟨hsp, hk, hloc⟩ => hclear u hsp hloc fun v hv hv' => by
      rw [hk.leaf v hv (.inr hv'), htop v hv hv']
  · obtain rfl : sz = 0 := by omega
    rw [if_neg (by decide)]
    exact hclear s h (.refl s r) htop

/-- proc_freepagetable() frees what the process owns. -/
theorem Layout.free {sz : Nat} (h : Layout s r (pages sz) tf) :
    Runs (procFreepagetable r sz) s (fun _ t => Released s t (s.Owns r)) := by
  have hmax : TOP + 1 < 2 ^ 26 := by decide
  obtain ⟨pte, hl, hf⟩ := h.trampoline
  obtain ⟨pte', hl', -, hf'⟩ := h.trapframe
  refine (h.space.unmapTop (Nat.le_succ TOP) hmax hl (by rw [hf]; decide)).bind fun _ t ⟨ht, hlt, hleaft⟩ => ?_
  have hlt' : t.leaf r TOP = some pte' := by rw [hleaft TOP (by omega), if_neg (by omega), hl']
  refine (ht.unmapTop (Nat.le_refl TOP) (by omega) hlt' (by rw [hf']; decide)).bind fun _ u ⟨hu, hlu, hleafu⟩ => ?_
  refine (hu.uvmfree fun v hv hv' => ?_).mono fun _ w hw => (hlt.trans hlu).released hw
  rw [hleafu v hv, hleaft v hv]
  split
  · rfl
  · split
    · rfl
    · exact h.high v hv (by omega)

/-- kfree() of a page that the process at `r` does not own. -/
theorem Layout.give {m : Nat} (h : Layout s r np tf) (hram : s.InRam m) (hfree : m ∉ s.freelist) (hown : ¬ s.Owns r m) :
    Layout (s.give m) r np tf ∧ ∀ n, (s.give m).Owns r n ↔ s.Owns r n := by
  have hlt := h.space.lt
  have htab : ¬ s.InTable r m := fun hin => hown (.inl hin)
  have hleaf : ∀ v, (s.give m).leaf r v = s.leaf r v := leaf_of_agree (agree_give htab)
  have hsp := h.space.give hram htab hfree fun v hv pte hl he => hown (.inr ⟨v, Nat.lt_trans hv hlt, pte, hl, he⟩)
  refine ⟨⟨hsp.1, ?_, ?_, fun v hv hv' => (hleaf v).trans (h.high v hv hv')⟩, fun n => ?_⟩
  · rw [hleaf]
    exact h.trapframe
  · rw [hleaf]
    exact h.trampoline
  · have hfront : (s.give m).Fronts r n ↔ s.Fronts r n := exists_congr fun v => by rw [hleaf]
    rw [Ram.Owns, Ram.Owns, hfront, inTable_of_agree (agree_give htab)]

/-- freeproc() frees the trapframe and what the process owns. -/
theorem Layout.freeproc {sz : Nat} (h : Layout s r (pages sz) tf) (hr : r ≠ 0) (htf : tf ≠ 0) (hram : s.InRam tf)
    (hfree : tf ∉ s.freelist) (hown : ¬ s.Owns r tf) :
    Runs (Vm.freeproc ⟨sz, r, tf * PGSIZE⟩) s (fun p t => p = ⟨0, 0, 0⟩ ∧ Released s t (fun n => n = tf ∨ s.Owns r n)) := by
  have htf' : tf * PGSIZE ≠ 0 := Nat.mul_ne_zero htf (by decide)
  obtain ⟨hlay, howns⟩ := h.give hram hfree hown
  rw [Vm.freeproc]
  simp only [if_pos htf', if_pos hr]
  refine runs_step (kfree_gives hram) (hlay.free.bind fun _ t ht => runs_pure ⟨rfl, ht.ok, fun n hn hne => ?_, fun n => ?_, ht.kend⟩)
  · rw [not_or] at hne
    have hlist : n ∉ (s.give tf).freelist := fun hin => (List.mem_cons.mp hin).elim hne.1 hn
    exact (ht.page n hlist fun hin => hne.2 ((howns n).mp hin)).trans (page_setPage_other hne.1)
  · have hlist : n ∈ (s.give tf).freelist ↔ n = tf ∨ n ∈ s.freelist := List.mem_cons
    rw [ht.list, hlist, howns, or_assoc, or_left_comm]

/- proc_pagetable() -/

/-- The space at `r` has been made of free pages. -/
structure Created (s t : Ram) (r : Nat) : Prop where
  page : ∀ n, n ∉ s.freelist → t.page n = s.page n
  held : ∀ n, (n ∈ t.freelist ∨ t.Owns r n) ↔ n ∈ s.freelist
  kend : t.kend = s.kend

theorem Created.local_ (h : Created s t r) (hl : Local t u r) : Created s u r := by
  refine ⟨fun n hn => ?_, fun n => (hl.held n).trans (h.held n), hl.kend.trans h.kend⟩
  have hnot := mt (h.held n).mp hn
  rw [hl.page n (fun hin => hnot (.inl hin)) (fun hin => hnot (.inr hin)), h.page n hn]

/-- Nothing is left of a space that has been made and released. -/
theorem Created.released (h : Created s t r) (hr : Released t u (t.Owns r)) : Released s u (fun _ => False) := by
  refine ⟨hr.ok, fun n hn _ => ?_, fun n => ?_, hr.kend.trans h.kend⟩
  · have hnot := mt (h.held n).mp hn
    rw [hr.page n (fun hin => hnot (.inl hin)) (fun hin => hnot (.inr hin)), h.page n hn]
  · rw [hr.list, h.held, or_false]

/-- mappages() of the trapframe or the trampoline. -/
theorem Space.mapTop {pa perm : Nat} (h : Space s r np) (hv : TOP ≤ v) (hv' : v < 2 ^ 26) (hpa : pa < 2 ^ 64)
    (hperm : perm < 2 ^ 10) (hnone : s.leaf r v = none) :
    Runs (mappages r (v * PGSIZE) PGSIZE pa perm) s (fun res t => Space t r np ∧ Local s t r ∧
      (res = 0 ∧ (∀ w < 2 ^ 27, t.leaf r w = if w = v then some (mkPte pa perm) else s.leaf r w) ∨
       res = -1 ∧ ∀ w < 2 ^ 27, t.leaf r w = s.leaf r w)) := by
  have hmap := mappages_maps (n := 1) (v := v) h.ok h.table Nat.one_pos (by omega) hpa hperm fun w hw hw' => by
    obtain rfl : w = v := by omega
    exact hnone
  rw [Nat.one_mul] at hmap
  have hmax : TOP < 2 ^ 26 := by decide
  refine hmap.mono fun res t ⟨hk, k, hle, hres, hleaf⟩ => ?_
  have hlow : ∀ w < TOP, t.leaf r w = s.leaf r w := fun w hw => by rw [hleaf w (by omega), if_neg (by omega)]
  have hfront : ∀ m, t.Fronts r m ↔ s.Fronts r m := fun m =>
    exists_congr fun w => and_congr_right fun hw => by rw [hlow w hw]
  refine ⟨h.transfer hk.ok hk.table hlow hk.fresh hk.list hk.kend, ⟨fun m hfree hown => ?_, fun m => ?_, hk.kend⟩, ?_⟩
  · exact hk.page m (fun hin => hown (.inl hin)) hfree
  · rw [Ram.Owns, Ram.Owns, hfront, ← or_assoc, ← or_assoc]
    refine or_congr_left ⟨?_, ?_⟩
    · rintro (hm | hm)
      · exact .inl (hk.list m hm)
      · exact (hk.fresh m hm).symm
    · rintro (hm | hm)
      · exact hk.used m hm
      · exact .inr (hk.inTable hm)
  · rcases hres with ⟨hres, rfl⟩ | ⟨hres, hk0⟩
    · refine .inl ⟨hres, fun w hw => ?_⟩
      rw [hleaf w hw]
      by_cases hwv : w = v
      · rw [if_pos (by omega), if_pos hwv, hwv, Nat.sub_self, Nat.zero_mul, Nat.add_zero, Nat.mod_eq_of_lt hpa]
      · rw [if_neg (by omega), if_neg hwv]
    · exact .inr ⟨hres, fun w hw => by rw [hleaf w hw, if_neg (by omega)]⟩

theorem space_zero (hs : s.Ok) (hz : s.page r = .zero) (hfree : r ∉ s.freelist) (hram : s.InRam r) : Space s r 0 where
  ok := hs
  table := table_zero hz hfree hram
  mapped _ hv := absurd hv (Nat.not_lt_zero _)
  sole := ⟨fun _ _ _ _ hw => absurd hw (by omega), fun _ _ _ _ hw => absurd hw (by omega),
    fun _ _ _ _ _ _ _ hw => absurd hw (by omega)⟩
  rest v _ _ := leaf_zero hz v

/-- uvmcreate() makes an empty space. -/
theorem uvmcreate_creates (hs : s.Ok) : Runs uvmcreate s (fun o t => match o with
    | none => Released s t (fun _ => False)
    | some r => Space t r 0 ∧ (∀ v, t.leaf r v = none) ∧ Created s t r) := by
  rcases kalloc_cases s with hk | ⟨r, rest, hl, hk⟩
  · exact runs_step hk (runs_pure ⟨⟨hs.nodup, hs.ram⟩, fun _ _ _ => rfl, fun _ => by simp, rfl⟩)
  · refine runs_step hk (runs_setPage (runs_pure ?_))
    generalize ht : Ram.setPage _ r _ = t
    have hg : Gets s t r := by
      subst ht
      exact ⟨hl, fun n hn => (page_setPage_other hn).trans (page_setPage_other hn), rfl⟩
    have hz : t.page r = .zero := by
      subst ht
      exact page_setPage _ _ _
    have hram : t.InRam r := by
      rw [Ram.InRam, hg.kend]
      exact hs.ram r hg.mem_free
    refine ⟨space_zero (hg.ok hs) hz (hg.not_free hs) hram, leaf_zero hz, fun n hn => ?_, fun n => ?_, hg.kend⟩
    · exact hg.page n fun he => hn (he ▸ hg.mem_free)
    · rw [hg.list, List.mem_cons, or_comm]
      refine or_congr_left ⟨?_, fun he => .inl ((inTable_zero hz).mpr he)⟩
      rintro (hn | ⟨v, -, pte, hl', -⟩)
      · exact (inTable_zero hz).mp hn
      · rw [leaf_zero hz] at hl'
        cases hl'

/-- proc_pagetable() makes the space of a process without pages, or leaves nothing behind. -/
theorem procPagetable_creates {tramp : Nat} (hs : s.Ok) (htramp : tramp < 2 ^ 64) (htf : tf * PGSIZE < PHYSTOP) :
    Runs (procPagetable tramp (tf * PGSIZE)) s (fun o t => match o with
      | none => Released s t (fun _ => False)
      | some r => Layout t r 0 tf ∧ Created s t r) := by
  have hmax : TOP + 1 < 2 ^ 26 := by decide
  have htf64 : tf * PGSIZE < 2 ^ 64 := Nat.lt_trans htf (by decide)
  refine (uvmcreate_creates hs).bind fun o t ht => ?_
  cases o with
  | none => exact runs_pure ht
  | some r =>
    obtain ⟨hsp, hnone, hcr⟩ := ht
    refine (hsp.mapTop (v := TOP + 1) (by omega) hmax htramp (by decide) (hnone _)).bind
      fun res u ⟨hspu, hlocu, hres⟩ => ?_
    have hcu := hcr.local_ hlocu
    rcases hres with ⟨rfl, hleafu⟩ | ⟨rfl, hleafu⟩
    · rw [if_neg (by decide)]
      have hnoneu : ∀ w < 2 ^ 27, w ≠ TOP + 1 → u.leaf r w = none := fun w hw hne => by
        rw [hleafu w hw, if_neg hne, hnone]
      have hlu : u.leaf r (TOP + 1) = some (mkPte tramp (PTE_R ||| PTE_X)) := by rw [hleafu _ (by omega), if_pos rfl]
      have hfu : pteFlags (mkPte tramp (PTE_R ||| PTE_X)) = PTE_V ||| PTE_R ||| PTE_X := by
        rw [mkPte_or, pteFlags_mkPte (by decide)]
        decide
      refine (hspu.mapTop (v := TOP) (Nat.le_refl TOP) (by omega) htf64 (by decide) (hnoneu TOP (by omega) (by omega))).bind
        fun res w ⟨hspw, hlocw, hres⟩ => ?_
      have hcw := hcu.local_ hlocw
      rcases hres with ⟨rfl, hleafw⟩ | ⟨rfl, hleafw⟩
      · rw [if_neg (by decide)]
        refine runs_pure ⟨⟨hspw, ?_, ?_, fun v hv hv' => ?_⟩, hcw⟩
        · refine ⟨_, by rw [hleafw TOP (by omega), if_pos rfl], frame_mkPte htf (by decide), ?_⟩
          rw [mkPte_or, pteFlags_mkPte (by decide)]
          decide
        · exact ⟨_, by rw [hleafw _ (by omega), if_neg (by omega), hlu], hfu⟩
        · rw [hleafw v hv, if_neg (by omega), hnoneu v hv (by omega)]
      · rw [if_pos (by decide)]
        have hlw : w.leaf r (TOP + 1) = some (mkPte tramp (PTE_R ||| PTE_X)) := by rw [hleafw _ (by omega), hlu]
        refine (hspw.unmapTop (Nat.le_succ TOP) hmax hlw (by rw [hfu]; decide)).bind fun _ x ⟨hspx, hlocx, hleafx⟩ => ?_
        refine (Space.uvmfree (show Space x r (pages 0) from hspx) fun v hv hv' => ?_).bind fun _ y hy =>
          runs_pure ((hcw.local_ hlocx).released hy)
        rw [hleafx v hv]
        split
        · rfl
        · rw [hleafw v hv, hnoneu v hv ‹_›]
    · rw [if_pos (by decide)]
      refine (Space.uvmfree (show Space u r (pages 0) from hspu) fun v hv hv' => ?_).bind fun _ y hy => runs_pure (hcu.released hy)
      rw [hleafu v hv, hnone]

end

end Xv6.Vm
