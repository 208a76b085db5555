import Xv6.Proofs.Space
import Xv6.Proofs.CopyUser

namespace Xv6.Vm

/-- The byte at the virtual address `va`. -/
def Ram.load (s : Ram) (r va : Nat) : Option UInt8 := (s.translate r va).map (fun x => s.byte x.1)

/-- growproc() has failed: nothing of the program has changed, and the pages it had taken for data are free again. -/
structure SbrkFails (s t : Ram) (p p' : Proc) : Prop where
  proc : p' = p
  leaf : ∀ v < 2 ^ 26, t.leaf p.pagetable v = s.leaf p.pagetable v
  bytes : ∀ va < pgroundup p.sz, t.load p.pagetable va = s.load p.pagetable va
  freed : ∀ m ∈ s.freelist, m ∈ t.freelist ∨ t.InTable p.pagetable m

/-- growproc() has changed the size by `n`. -/
structure SbrkDone (s t : Ram) (p p' : Proc) (n : Int) : Prop where
  size : (p'.sz : Int) = p.sz + n
  proc : p'.pagetable = p.pagetable ∧ p'.trapframe = p.trapframe
  mapped : ∀ v < TOP, (t.leaf p.pagetable v).isSome ↔ v * PGSIZE < pgroundup p'.sz
  bytes : ∀ va < min p.sz p'.sz, t.load p.pagetable va = s.load p.pagetable va
  zero : ∀ v, pgroundup p.sz ≤ v * PGSIZE → v * PGSIZE < pgroundup p'.sz →
    ∃ pte, t.leaf p.pagetable v = some pte ∧ t.page (frame pte) = .zero

/-- sbrk() does what it reports. -/
def SbrkDoes (s t : Ram) (p : Proc) (n : Int) (x : Int × Proc) : Prop :=
  x.1 = -1 ∧ SbrkFails s t p x.2 ∨ x.1 = 0 ∧ SbrkDone s t p x.2 n

section
variable {s t : Ram} {r np va : Nat}

theorem load_eq (s : Ram) (r : Nat) (hva : va < MAXVA) : s.load r va =
    (s.leaf r (va / PGSIZE)).map (fun pte => (s.page (frame pte)).byteAt (va % PGSIZE)) := by
  rw [Ram.load, translate_eq s r hva, Option.map_map]
  congr 1
  funext pte
  simp only [Function.comp, pte2pa_frame, byte_page (Nat.mod_lt va (show PGSIZE > 0 by decide))]

theorem Kept.load (h : Kept s t r np) (hva : va / PGSIZE < np) (hnp : np ≤ TOP) : t.load r va = s.load r va := by
  have hmax : va < MAXVA := by
    simp only [TOP, TRAPFRAME, TRAMPOLINE, PGSIZE, MAXVA] at hva hnp ⊢
    omega
  have hlt : va / PGSIZE < 2 ^ 27 := Nat.lt_trans (Nat.lt_of_lt_of_le hva hnp) (by decide)
  rw [load_eq t r hmax, load_eq s r hmax, h.leaf _ hlt (.inl hva)]
  cases hl : s.leaf r (va / PGSIZE) with
  | none => rfl
  | some pte => rw [Option.map_some, Option.map_some, h.page _ hva pte hl]

theorem Space.isSome (h : Space s r np) {v : Nat} (hv : v < TOP) : (s.leaf r v).isSome ↔ v < np := by
  by_cases hlt : v < np
  · obtain ⟨pte, hl, -⟩ := h.leaf hlt
    simp [hl, hlt]
  · simp [h.rest v (Nat.not_lt.mp hlt) hv, hlt]

theorem lt_pgroundup {sz v : Nat} (h : pages sz < TOP) : v * PGSIZE < pgroundup sz ↔ v < pages sz := by
  rw [pgroundup_eq h, Nat.mul_lt_mul_right (by decide)]

theorem page_of_lt {sz : Nat} (h : va < sz) : va / PGSIZE < pages sz := by
  simp only [pages, PGSIZE]
  omega

theorem page_of_lt_pgroundup {sz : Nat} (h : pages sz < TOP) (hva : va < pgroundup sz) : va / PGSIZE < pages sz := by
  rw [pgroundup_eq h] at hva
  exact Nat.div_lt_of_lt_mul (by rwa [Nat.mul_comm])

/-- What uvmalloc() and uvmdealloc() do when they succeed is what growproc() reports. -/
theorem Space.done {p : Proc} {n : Int} {sz : Nat} (h : Space s p.pagetable (pages p.sz))
    (h' : Space t p.pagetable (pages sz)) (hsize : (sz : Int) = p.sz + n)
    (hk : Kept s t p.pagetable (min (pages p.sz) (pages sz)))
    (hz : NewPages t p.pagetable (PTE_R ||| PTE_U ||| PTE_W) (pages p.sz) (pages sz)) : SbrkDone s t p { p with sz := sz } n where
  size := hsize
  proc := ⟨rfl, rfl⟩
  mapped v hv := (h'.isSome hv).trans (lt_pgroundup h'.lt).symm
  bytes va hva := by
    have hlt := h'.lt
    have h1 := page_of_lt (show va < p.sz from Nat.lt_of_lt_of_le hva (Nat.min_le_left _ _))
    have h2 := page_of_lt (show va < sz from Nat.lt_of_lt_of_le hva (Nat.min_le_right _ _))
    exact hk.load (by omega) (by omega)
  zero v hv hv' := by
    have hge : pages p.sz ≤ v := Nat.not_lt.mp fun hlt => absurd hv (Nat.not_le.mpr ((lt_pgroundup h.lt).mpr hlt))
    obtain ⟨pte, hl, -, hz⟩ := hz v hge ((lt_pgroundup h'.lt).mp hv')
    exact ⟨pte, hl, hz⟩

theorem Rolls.fails {p : Proc} (h : Space s p.pagetable (pages p.sz))
    (hr : Rolls s t p.pagetable (pages p.sz)) : SbrkFails s t p p where
  proc := rfl
  leaf v hv := by
    by_cases hin : v < pages p.sz ∨ TOP ≤ v
    · exact hr.kept.leaf v (by omega) hin
    · rw [hr.space.rest v (by omega) (by omega), h.rest v (by omega) (by omega)]
  bytes va hva := hr.kept.load (page_of_lt_pgroundup h.lt hva) (Nat.le_of_lt h.lt)
  freed m hm := by
    rcases (hr.isLocal.held m).mpr (.inl hm) with hm' | hm' | ⟨v, hv, pte, hl, rfl⟩
    · exact .inl hm'
    · exact .inr hm'
    · have hlt : v < pages p.sz := (hr.space.isSome hv).mp (by simp [hl])
      obtain ⟨pte', hl', -, -, -, hfree⟩ := h.leaf hlt
      rw [hr.kept.leaf v (Nat.lt_trans hv (by decide)) (.inl hlt), hl'] at hl
      cases hl
      exact absurd hm hfree

/-- A growth. -/
theorem Space.grow {p : Proc} {n : Int} (h : Space s p.pagetable (pages p.sz)) (hn : 0 < n) (hn' : n < 2 ^ 31) :
    Runs (growproc p n) s (fun x t => SbrkDoes s t p n x ∧ Space t p.pagetable (pages x.2.sz)) := by
  have hb := h.bound
  have hsz : p.sz ≤ PHYSTOP := by
    simp only [pages, PGSIZE, PHYSTOP] at hb ⊢
    omega
  obtain ⟨k, rfl⟩ := Int.eq_ofNat_of_zero_le (Int.le_of_lt hn)
  have hnew : (((p.sz : Int) + (k : Int)) % 2 ^ 64).toNat = p.sz + k := by
    rw [PHYSTOP] at hsz
    omega
  rw [growproc, if_pos hn, hnew, uvmalloc, if_neg (by omega), pgroundup_eq h.lt]
  refine (h.uvmallocLoop (Nat.le_refl _) (pages_mono (by omega)) ?_ (by decide)).bind fun res t hres => ?_
  · simp only [pages, PGSIZE]
    omega
  · rcases hres with ⟨rfl, ht, hk, hz, -⟩ | ⟨rfl, hr⟩
    · rw [if_neg (by omega)]
      refine runs_pure ⟨.inr ⟨rfl, h.done ht (by simp) ?_ hz⟩, ht⟩
      exact hk.le (Nat.min_le_left _ _)
    · rw [if_pos rfl]
      exact runs_pure ⟨.inl ⟨rfl, hr.fails h⟩, hr.space⟩

/-- A shrinkage by no more than there is. -/
theorem Space.shrink {p : Proc} {n : Int} (h : Space s p.pagetable (pages p.sz)) (hn : n < 0) (hle : 0 ≤ p.sz + n) :
    Runs (growproc p n) s (fun x t => SbrkDoes s t p n x ∧ Space t p.pagetable (pages x.2.sz)) := by
  have hb := h.bound
  have hsz : p.sz ≤ PHYSTOP := by
    simp only [pages, PGSIZE, PHYSTOP] at hb ⊢
    omega
  obtain ⟨sz, hsum⟩ := Int.eq_ofNat_of_zero_le hle
  have hnew : (((p.sz : Int) + n) % 2 ^ 64).toNat = sz := by
    rw [PHYSTOP] at hsz
    omega
  rw [growproc, if_neg (by omega), if_pos hn, hnew]
  refine (h.uvmdealloc (show sz ≤ p.sz by omega)).bind fun res t hrt => ?_
  obtain ⟨hres, ht, hk, -⟩ := hrt
  subst hres
  have hpages := pages_mono (show res ≤ p.sz by omega)
  refine runs_pure ⟨.inr ⟨rfl, h.done ht hsum.symm (hk.le (Nat.min_le_right _ _)) fun w hw hw' => ?_⟩, ht⟩
  omega

/-- A shrinkage by more than there is: growproc() reports success and does nothing. -/
theorem growproc_wraps {p : Proc} {n : Int} (hsz : p.sz ≤ PHYSTOP) (hn : -2 ^ 31 ≤ n) (hlt : p.sz + n < 0) :
    growproc p n s = .ok (0, p) s := by
  have hwrap : (((p.sz : Int) + n) % 2 ^ 64).toNat ≥ p.sz := by
    rw [PHYSTOP] at hsz
    omega
  rw [growproc, if_neg (by omega), if_pos (by omega), uvmdealloc, if_pos hwrap]
  rfl

/-- growproc() does what it reports iff the size stays non-negative. -/
theorem sbrk_does_iff {p : Proc} {n : Int} (h : Space s p.pagetable (pages p.sz)) (hn : -2 ^ 31 ≤ n) (hn' : n < 2 ^ 31) :
    Runs (growproc p n) s (fun x t => Space t p.pagetable (pages x.2.sz) ∧ (SbrkDoes s t p n x ↔ 0 ≤ p.sz + n)) := by
  rcases lt_trichotomy n 0 with hneg | rfl | hpos
  · by_cases hle : 0 ≤ (p.sz : Int) + n
    · exact (h.shrink hneg hle).mono fun x t ht => ⟨ht.2, fun _ => hle, fun _ => ht.1⟩
    · have hb := h.bound
      have hsz : p.sz ≤ PHYSTOP := by
        simp only [pages, PGSIZE, PHYSTOP] at hb ⊢
        omega
      refine ⟨_, s, growproc_wraps hsz hn (by omega), h, fun hdoes => ?_, fun h0 => absurd h0 hle⟩
      rcases hdoes with ⟨h1, -⟩ | ⟨-, hdone⟩
      · cases h1
      · have := hdone.size
        omega
  · refine runs_pure ⟨h, fun _ => by omega, fun _ => .inr ⟨rfl, ?_⟩⟩
    exact h.done h (by simp) (.refl s _ _) fun w hw hw' => by omega
  · exact (h.grow hpos hn').mono fun x t ht => ⟨ht.2, fun _ => by omega, fun _ => ht.1⟩

end

theorem table_onlyPage {x : Nat} (hx : x < 2 ^ 64) : Table (onlyPage x) 0x80001 where
  proper p q n hp hq hn hn' := by
    obtain ⟨h1, hlen⟩ := node_onlyPage hx hp hn
    obtain ⟨h2, hlen'⟩ := node_onlyPage hx hq hn'
    rw [h1, h2, show p.length = q.length by omega]
  free _ _ := List.not_mem_nil
  ram n hn := by
    have hkend : (onlyPage x).kend = 0x80001000 := rfl
    rw [Ram.InRam, hkend]
    rcases inTable_onlyPage hx hn with rfl | rfl | rfl <;> decide
  inner p n i hp hn hV := by
    have hlen := (node_onlyPage hx (Nat.le_of_lt hp) hn).2
    rw [pte_onlyPage hx, if_neg (by omega)] at hV ⊢
    split at hV
    · rename_i h2
      rw [if_pos h2]
      decide
    · rename_i h2
      rw [if_neg h2]
      split at hV
      · rename_i h1
        rw [if_pos h1]
        decide
      · simp [has] at hV

theorem leaf_onlyPage {x v pte : Nat} (hx : x < 2 ^ 64) (hv : v < 2 ^ 27) (h : (onlyPage x).leaf 0x80001 v = some pte) :
    v = 0 ∧ pte = x := by
  obtain ⟨a, hn, hpte, hV⟩ := leaf_some h
  obtain ⟨hp, ha⟩ := node_onlyPage hx (by simp [path]) hn
  have h3 : a = 0x80003 := ha
  simp only [path, List.length_cons, List.length_nil, List.replicate, List.cons.injEq] at hp
  rw [pte_onlyPage hx, h3] at hpte
  split at hpte
  · exact ⟨by omega, hpte.symm⟩
  · simp only [show ¬ (0x80003 = 0x80002 ∧ v % 2 ^ 9 = 0) by omega, show ¬ (0x80003 = 0x80001 ∧ v % 2 ^ 9 = 0) by omega,
      if_false] at hpte
    rw [← hpte] at hV
    simp [has] at hV

theorem space_dataMapped : Space dataMapped 0x80001 1 where
  ok := ⟨List.nodup_nil, fun _ hn => absurd hn List.not_mem_nil⟩
  table := table_onlyPage (by decide)
  mapped v hv := by
    obtain rfl : v = 0 := by omega
    exact ⟨pa2pte 0x80004000 ||| (PTE_V ||| PTE_R ||| PTE_W ||| PTE_U), by decide +kernel, by decide, fun _ => by decide⟩
  sole := by
    refine ⟨fun w hb pte _ _ hl hin => ?_, fun _ _ _ _ _ _ => List.not_mem_nil, fun w _ w' _ _ _ _ _ _ _ _ _ _ => by omega⟩
    rw [(leaf_onlyPage (by decide) (by omega) hl).2] at hin
    have := inTable_onlyPage (by decide) hin
    revert this
    decide
  rest v hv hv' := by
    cases hl : dataMapped.leaf 0x80001 v with
    | none => rfl
    | some pte =>
      have hmax : TOP < 2 ^ 27 := by decide
      have := (leaf_onlyPage (by decide) (by omega) hl).1
      omega

theorem sbrk_frees_page : Runs (growproc ⟨PGSIZE, 0x80001, 0⟩ (-PGSIZE)) dataMapped (fun x t =>
    Space t 0x80001 (pages x.2.sz) ∧
      (SbrkDoes dataMapped t ⟨PGSIZE, 0x80001, 0⟩ (-PGSIZE) x ↔ 0 ≤ ((PGSIZE : Nat) : Int) + -PGSIZE)) :=
  sbrk_does_iff (p := ⟨PGSIZE, 0x80001, 0⟩) space_dataMapped (by decide) (by decide)

/-- A program of one page gives back one byte more than it has: success, and nothing has changed. -/
theorem sbrk_reports_too_much : Space dataMapped 0x80001 (pages PGSIZE) ∧
    growproc ⟨PGSIZE, 0x80001, 0⟩ (-4097) dataMapped = .ok (0, ⟨PGSIZE, 0x80001, 0⟩) dataMapped ∧
    ¬ SbrkDoes dataMapped dataMapped ⟨PGSIZE, 0x80001, 0⟩ (-4097) (0, ⟨PGSIZE, 0x80001, 0⟩) := by
  refine ⟨space_dataMapped, rfl, ?_⟩
  rintro (⟨h, -⟩ | ⟨-, h⟩)
  · cases h
  · exact absurd h.size (by decide)

end Xv6.Vm
