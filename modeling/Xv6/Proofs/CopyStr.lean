import Xv6.Proofs.CopyUser

namespace Xv6.Vm

/-- The string at `va`, of at most `max` bytes with its NUL, up to the first address that has no translation. -/
def loadStr (tr : Nat → Option Nat) (s : Ram) : Nat → Nat → List UInt8 × Int
  | _, 0 => ([], -1)
  | va, max + 1 =>
    match tr va with
    | none => ([], -1)
    | some pa =>
      if s.byte pa = 0 then ([0], 0)
      else (s.byte pa :: (loadStr tr s (va + 1) max).1, (loadStr tr s (va + 1) max).2)

section
variable {s : Ram} {r n off va max : Nat} {tr : Nat → Option Nat}

theorem loadStr_stuck (h : tr va = none) : loadStr tr s va max = ([], -1) := by
  cases max with
  | zero => rfl
  | succ max => rw [loadStr, h]

/-- The part of the string that is in one page. -/
theorem loadStr_page (max k : Nat) (hoff : off + k ≤ PGSIZE)
    (htr : ∀ i < k, tr (va + i) = some (n * PGSIZE + (off + i))) : loadStr tr s va (k + max) =
      if (copyUntilNul ((s.page n).get off k)).2 then ((copyUntilNul ((s.page n).get off k)).1, 0)
      else ((copyUntilNul ((s.page n).get off k)).1 ++ (loadStr tr s (va + k) max).1,
        (loadStr tr s (va + k) max).2) := by
  induction k generalizing va off with
  | zero => simp [ByteArr.get, copyUntilNul]
  | succ k ih =>
    have hfirst := htr 0 (Nat.succ_pos _)
    rw [Nat.add_zero, Nat.add_zero] at hfirst
    have hk : k + 1 + max = k + max + 1 := by omega
    have hva : va + (k + 1) = va + 1 + k := by omega
    have hrest : ∀ i < k, tr (va + 1 + i) = some (n * PGSIZE + (off + 1 + i)) := fun i hi => by
      rw [Nat.add_assoc, Nat.add_assoc, Nat.add_comm 1, htr (i + 1) (by omega)]
    rw [hk, hva, loadStr, hfirst]
    simp only [byte_page (show off < PGSIZE by omega)]
    rw [ih (by omega) hrest, ByteArr.get_succ, copyUntilNul]
    by_cases hnul : (s.page n).byteAt off = 0
    · simp only [hnul, if_true]
    · simp only [hnul, if_false]
      split
      · rfl
      · rfl

theorem copyinstrLoop_loads {fuel : Nat} (hz : s.NoZero r) (hfuel : max < fuel) :
    copyinstrLoop r fuel va max s = .ok (loadStr (s.readable r) s va max) s := by
  induction fuel generalizing va max with
  | zero => omega
  | succ fuel ih =>
    rw [copyinstrLoop]
    by_cases hmax : max > 0
    · rw [if_pos hmax]
      change (walkaddr r (va / PGSIZE * PGSIZE) >>= _) s = _
      rw [run_bind]
      rcases walkaddr_cases hz va with ⟨hw, hnone⟩ | ⟨n, hn0, hva, hw, hframe⟩
      · rw [hw, loadStr_stuck hnone]
        rfl
      · have hpa : n * PGSIZE ≠ 0 := Nat.mul_ne_zero hn0 (by decide)
        obtain ⟨k, hdef, hk⟩ : ∃ k, min (PGSIZE - (va - va / PGSIZE * PGSIZE)) max = k ∧ Chunk va max k :=
          ⟨_, rfl, chunk va max⟩
        simp only [hw, if_neg hpa, run_bind, getPage, Nat.mul_div_cancel n (show 0 < PGSIZE by decide), pgrounddown, hdef]
        have hpos := hk.pos hmax
        have hva0 : va / PGSIZE * PGSIZE < MAXVA := Nat.lt_of_le_of_lt (Nat.div_mul_le_self va PGSIZE) hva
        have htr : ∀ i < k, s.readable r (va + i) = some (n * PGSIZE + (va % PGSIZE + i)) := fun i hi =>
          userAddr_of_frame readable_flags hva hframe (by have := hk.page; omega)
        have hload := loadStr_page (s := s) (max - k) k hk.page htr
        rw [Nat.add_sub_cancel' hk.le] at hload
        rw [sub_pgrounddown, next_page hva0, hload]
        by_cases hnul : (copyUntilNul ((s.page n).get (va % PGSIZE) k)).2 = true
        · rw [if_pos hnul, if_pos hnul]
          rfl
        · rw [if_neg hnul, if_neg hnul, run_bind, ih (by omega)]
          rcases Nat.lt_or_ge k max with hlt | hge
          · rw [hk.next hlt]
            rfl
          · rw [Nat.sub_eq_zero_of_le hge]
            rfl
    · obtain rfl : max = 0 := by omega
      rfl

/-- The `k + 1` bytes from `va` on are mapped, and the last of them is the only NUL. -/
def StringAt (tr : Nat → Option Nat) (s : Ram) (va k : Nat) : Prop :=
  ∀ i ≤ k, ∃ pa, tr (va + i) = some pa ∧ (s.byte pa = 0 ↔ i = k)

theorem stringAt_zero {pa : Nat} (h : tr va = some pa) : StringAt tr s va 0 ↔ s.byte pa = 0 := by
  constructor
  · intro hs
    obtain ⟨pa', hpa, hz⟩ := hs 0 (Nat.le_refl 0)
    cases h.symm.trans hpa
    exact hz.mpr rfl
  · intro hz i hi
    obtain rfl : i = 0 := Nat.le_zero.mp hi
    exact ⟨pa, h, fun _ => rfl, fun _ => hz⟩

theorem stringAt_succ {pa k : Nat} (h : tr va = some pa) :
    StringAt tr s va (k + 1) ↔ s.byte pa ≠ 0 ∧ StringAt tr s (va + 1) k := by
  have hnext : ∀ i, va + (i + 1) = va + 1 + i := fun i => by omega
  constructor
  · intro hs
    refine ⟨fun hz => ?_, fun i hi => ?_⟩
    · obtain ⟨pa', hpa, hz'⟩ := hs 0 (Nat.zero_le _)
      cases h.symm.trans hpa
      exact absurd (hz'.mp hz) (Nat.succ_ne_zero k).symm
    · obtain ⟨pa', hpa, hz'⟩ := hs (i + 1) (Nat.succ_le_succ hi)
      exact ⟨pa', hnext i ▸ hpa, hz'.trans Nat.succ_inj⟩
  · rintro ⟨hne, hs⟩ i hi
    cases i with
    | zero => exact ⟨pa, h, fun hz => absurd hz hne, fun h0 => absurd h0 (Nat.succ_ne_zero k).symm⟩
    | succ i =>
      obtain ⟨pa', hpa, hz'⟩ := hs i (Nat.le_of_succ_le_succ hi)
      exact ⟨pa', (hnext i).symm ▸ hpa, hz'.trans Nat.succ_inj.symm⟩

/-- What loadStr() does: it answers 0 iff there is a string, and then it has read that string. -/
structure StrRead (tr : Nat → Option Nat) (s : Ram) (va max : Nat) (x : List UInt8 × Int) : Prop where
  answer : x.2 = 0 ∨ x.2 = -1
  iff : x.2 = 0 ↔ ∃ k < max, StringAt tr s va k
  string : ∀ k < max, StringAt tr s va k → x.1.length = k + 1
  bytes : Read tr s va x.1
  le : x.1.length ≤ max

theorem loadStr_read (tr : Nat → Option Nat) (s : Ram) (max va : Nat) :
    StrRead tr s va max (loadStr tr s va max) := by
  induction max generalizing va with
  | zero =>
    refine ⟨.inr rfl, ⟨nofun, fun ⟨k, hk, _⟩ => absurd hk (Nat.not_lt_zero k)⟩, fun k hk => absurd hk (Nat.not_lt_zero k),
      .nil tr s va, Nat.le_refl 0⟩
  | succ max ih =>
    cases htr : tr va with
    | none =>
      have hno : ∀ k, ¬ StringAt tr s va k := fun k hs => by
        obtain ⟨pa, hpa, -⟩ := hs 0 (Nat.zero_le k)
        cases htr.symm.trans hpa
      rw [loadStr_stuck htr]
      exact ⟨.inr rfl, ⟨nofun, fun ⟨k, _, hs⟩ => absurd hs (hno k)⟩, fun k _ hs => absurd hs (hno k), .nil tr s va,
        Nat.zero_le _⟩
    | some pa =>
      rw [loadStr, htr]
      simp only []
      by_cases hz : s.byte pa = 0
      · rw [if_pos hz]
        refine ⟨.inl rfl, ⟨fun _ => ⟨0, Nat.succ_pos max, (stringAt_zero htr).mpr hz⟩, fun _ => rfl⟩, fun k _ hs => ?_, ?_,
          Nat.succ_le_succ (Nat.zero_le max)⟩
        · cases k with
          | zero => rfl
          | succ k => exact absurd hz ((stringAt_succ htr).mp hs).1
        · rw [← hz]
          exact .cons htr (.nil tr s _)
      · rw [if_neg hz]
        have hr := ih (va + 1)
        refine ⟨hr.answer, hr.iff.trans ⟨?_, ?_⟩, fun k hk hs => ?_, .cons htr hr.bytes, Nat.succ_le_succ hr.le⟩
        · rintro ⟨k, hk, hs⟩
          exact ⟨k + 1, Nat.succ_lt_succ hk, (stringAt_succ htr).mpr ⟨hz, hs⟩⟩
        · rintro ⟨k, hk, hs⟩
          cases k with
          | zero => exact absurd ((stringAt_zero htr).mp hs) hz
          | succ k => exact ⟨k, Nat.lt_of_succ_lt_succ hk, ((stringAt_succ htr).mp hs).2⟩
        · cases k with
          | zero => exact absurd ((stringAt_zero htr).mp hs) hz
          | succ k =>
            rw [List.length_cons, hr.string k (Nat.lt_of_succ_lt_succ hk) ((stringAt_succ htr).mp hs).2]

/-- copyinstr() is exact, where no user page is physical page 0: it comes to its end without a change of memory, and
answers 0 iff there is a NUL-terminated string of at most `max` bytes, of which it needs no byte after the NUL to be mapped. -/
theorem copyinstr_exact (hz : s.NoZero r) (srcva max : Nat) :
    Runs (copyinstr r srcva max) s (fun x t => t = s ∧ StrRead (s.readable r) s srcva max x) :=
  ⟨_, s, copyinstrLoop_loads hz (Nat.lt_succ_self max), rfl, loadStr_read (s.readable r) s max srcva⟩

theorem copyinstr_two_bytes : Runs (copyinstr 0x80001 7 2) dataMapped (fun x t => t = dataMapped ∧
    StrRead (dataMapped.readable 0x80001) dataMapped 7 2 x) :=
  copyinstr_exact noZero_dataMapped 7 2

end

/-- The string at address 0 is empty and may be read, but copyinstr() finds nothing there. -/
theorem copyinstr_misses_page_zero : StringAt (zeroMapped.readable 0x80001) zeroMapped 0 0 ∧
    copyinstr 0x80001 0 1 zeroMapped = .ok ([], -1) zeroMapped := by
  have hread : zeroMapped.readable 0x80001 0 = some 0 := by decide +kernel
  have hframe : zeroMapped.userFrame 0x80001 [PTE_V, PTE_U] 0 = some 0 := by decide +kernel
  refine ⟨(stringAt_zero hread).mpr (by decide +kernel), ?_⟩
  have hw := walkaddr_frame zeroMapped 0x80001 0
  rw [if_pos (by decide), Nat.zero_div, hframe] at hw
  rw [copyinstr, copyinstrLoop, if_pos Nat.one_pos]
  change (walkaddr 0x80001 (0 / PGSIZE * PGSIZE) >>= _) zeroMapped = _
  rw [run_bind, Nat.zero_div, hw]
  rfl

end Xv6.Vm
