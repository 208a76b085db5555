import Xv6.UserSpace

namespace Xv6.UserSpace
variable {us : UserSpace} {va : Nat}

/- What copyout() does, byte by byte. -/

/-- copyout() can write the byte at `va`. -/
def accepts (us : UserSpace) (va : Nat) : Bool := decide (va < MAXVA) && us.mayWrite (va / PGSIZE)

/-- How many of `len` bytes at `va` it writes: all before the first that it cannot. -/
def stored (us : UserSpace) (va : Nat) : Nat → Nat
  | 0 => 0
  | len + 1 => if us.accepts va then us.stored (va + 1) len + 1 else 0

/-- The bytes at `va`, in as many pages as it takes. -/
def putBytes (us : UserSpace) (va : Nat) (bs : List UInt8) : UserSpace := fun pg =>
  (us pg).map (fun u => { u with
    data := fun i =>
      if va ≤ pg * PGSIZE + i ∧ pg * PGSIZE + i < va + bs.length then
        bs.getD (pg * PGSIZE + i - va) 0
      else u.data i })

theorem mayWrite_putBytes (bs : List UInt8) (pg : Nat) :
    (us.putBytes va bs).mayWrite pg = us.mayWrite pg := by
  unfold mayWrite putBytes
  cases us pg with
  | none => rfl
  | some u => rfl

theorem accepts_putBytes (bs : List UInt8) (a : Nat) :
    (us.putBytes va bs).accepts a = us.accepts a := by
  simp only [accepts, mayWrite_putBytes]

theorem stored_putBytes (bs : List UInt8) (a len : Nat) :
    (us.putBytes va bs).stored a len = us.stored a len := by
  induction len generalizing a with
  | zero => rfl
  | succ len ih => simp only [stored, accepts_putBytes, ih]

theorem stored_le (len : Nat) : us.stored va len ≤ len := by
  induction len generalizing va with
  | zero => exact Nat.le_refl 0
  | succ len ih =>
    simp only [stored]
    split
    · exact Nat.succ_le_succ ih
    · exact Nat.zero_le _

/-- The bytes before the first that is refused are all accepted. -/
theorem accepts_of_stored {len i : Nat} (h : i < us.stored va len) : us.accepts (va + i) = true := by
  induction len generalizing va i with
  | zero => exact absurd h (Nat.not_lt_zero i)
  | succ len ih =>
    simp only [stored] at h
    split at h
    · rename_i ha
      cases i with
      | zero => exact ha
      | succ i =>
        have hnext := ih (Nat.lt_of_succ_lt_succ h)
        rwa [show va + 1 + i = va + (i + 1) by omega] at hnext
    · exact absurd h (Nat.not_lt_zero i)

theorem stored_add {n m : Nat} (h : ∀ i < n, us.accepts (va + i) = true) :
    us.stored va (n + m) = n + us.stored (va + n) m := by
  induction n generalizing va with
  | zero => simp
  | succ n ih =>
    have h0 : us.accepts va = true := h 0 (Nat.succ_pos n)
    have hrest : ∀ i < n, us.accepts (va + 1 + i) = true := fun i hi => by
      rw [show va + 1 + i = va + (i + 1) by omega]
      exact h (i + 1) (Nat.succ_lt_succ hi)
    rw [show n + 1 + m = n + m + 1 by omega, stored, if_pos h0, ih hrest,
      show va + 1 + n = va + (n + 1) by omega]
    omega

theorem stored_eq {len : Nat} (h : ∀ i < len, us.accepts (va + i) = true) : us.stored va len = len := by
  simpa [stored] using us.stored_add (m := 0) h

theorem putBytes_nil : us.putBytes va [] = us := by
  funext pg
  unfold putBytes
  cases us pg with
  | none => rfl
  | some u =>
    simp only [Option.map_some, List.length_nil, Nat.add_zero]
    congr 2
    funext i
    rw [if_neg (by omega)]

theorem putBytes_append (as bs : List UInt8) :
    us.putBytes va (as ++ bs) = (us.putBytes va as).putBytes (va + as.length) bs := by
  funext pg
  unfold putBytes
  cases us pg with
  | none => rfl
  | some u =>
    simp only [Option.map_some, List.length_append]
    congr 2
    funext i
    by_cases h1 : va ≤ pg * PGSIZE + i ∧ pg * PGSIZE + i < va + as.length
    · rw [if_pos (by omega), if_neg (by omega), if_pos h1, List.getD_eq_getElem?_getD,
        List.getElem?_append_left (by omega), ← List.getD_eq_getElem?_getD]
    · by_cases h2 : va + as.length ≤ pg * PGSIZE + i ∧ pg * PGSIZE + i < va + as.length + bs.length
      · rw [if_pos (by omega), if_pos h2, List.getD_eq_getElem?_getD,
          List.getElem?_append_right (by omega), ← List.getD_eq_getElem?_getD,
          show pg * PGSIZE + i - va - as.length = pg * PGSIZE + i - (va + as.length) by omega]
      · rw [if_neg (by omega), if_neg h2, if_neg h1]

/-- A copy within one page. -/
theorem store_eq (bs : List UInt8) (h : va % PGSIZE + bs.length ≤ PGSIZE) :
    us.store (va / PGSIZE) (va % PGSIZE) bs = us.putBytes va bs := by
  have hva := Nat.div_add_mod' va PGSIZE
  funext pg
  unfold store putBytes
  by_cases hpg : pg = va / PGSIZE
  · subst hpg
    rw [setAt_same]
    cases us (va / PGSIZE) with
    | none => rfl
    | some u =>
      simp only [Option.map_some]
      congr 2
      funext i
      unfold ByteArr.put
      have hi := i.isLt
      by_cases hin : va % PGSIZE ≤ i.val ∧ i.val < va % PGSIZE + bs.length
      · rw [if_pos hin, if_pos (by omega)]
        congr 1
        omega
      · rw [if_neg hin, if_neg (by omega)]
  · rw [setAt_other _ _ _ hpg]
    cases us pg with
    | none => rfl
    | some u =>
      have hdata : (fun i : Fin PGSIZE => if va ≤ pg * PGSIZE + i ∧ pg * PGSIZE + i < va + bs.length then
          bs.getD (pg * PGSIZE + i - va) 0 else u.data i) = u.data := by
        funext i
        have hi := i.isLt
        rcases Nat.lt_or_gt_of_ne hpg with hlt | hgt
        · have := Nat.mul_le_mul_right PGSIZE (Nat.succ_le_of_lt hlt)
          rw [Nat.succ_mul] at this
          rw [if_neg (by omega)]
        · have := Nat.mul_le_mul_right PGSIZE (Nat.succ_le_of_lt hgt)
          rw [Nat.succ_mul] at this
          rw [if_neg (by omega)]
      simp only [Option.map_some, hdata]

/-- The addresses of one page are accepted together. -/
theorem accepts_page {i : Nat} (h : va % PGSIZE + i < PGSIZE) : us.accepts (va + i) = us.accepts va := by
  have hdiv : (va + i) / PGSIZE = va / PGSIZE := by
    simp only [PGSIZE] at h ⊢
    omega
  have hmax : va + i < MAXVA ↔ va < MAXVA := by
    simp only [PGSIZE, MAXVA] at h ⊢
    omega
  simp only [accepts, hdiv, hmax]

theorem copyoutLoop_eq {fuel : Nat} {src : List UInt8} (h : src.length ≤ fuel) :
    copyoutLoop fuel us va src = (us.putBytes va (src.take (us.stored va src.length)),
      decide (us.stored va src.length = src.length)) := by
  induction fuel generalizing us va src with
  | zero =>
    have hnil := List.eq_nil_of_length_eq_zero (Nat.le_zero.mp h)
    subst hnil
    simp [copyoutLoop, stored, putBytes_nil]
  | succ fuel ih =>
    rw [copyoutLoop]
    by_cases h0 : src.length = 0
    · have hnil := List.eq_nil_of_length_eq_zero h0
      subst hnil
      simp [stored, putBytes_nil]
    · rw [if_neg h0]
      have hva0 : va / PGSIZE * PGSIZE < MAXVA ↔ va < MAXVA := by
        simp only [PGSIZE, MAXVA]
        omega
      have hdiv := Nat.div_add_mod' va PGSIZE
      have hpg : va / PGSIZE * PGSIZE / PGSIZE = va / PGSIZE := Nat.mul_div_cancel _ (by decide)
      have hoff : va - va / PGSIZE * PGSIZE = va % PGSIZE := by omega
      simp only [hva0, hpg, hoff]
      by_cases hacc : va < MAXVA ∧ us.mayWrite (va / PGSIZE) = true
      · rw [if_pos hacc]
        have hmod : va % PGSIZE < PGSIZE := Nat.mod_lt _ (by decide)
        -- one turn copies `n` bytes, up to the end of the page
        generalize hn : min (PGSIZE - va % PGSIZE) src.length = n
        have hlen : (src.take n).length = n := by rw [List.length_take]; omega
        rw [us.store_eq _ (by rw [hlen]; omega), ih (by rw [List.length_drop]; omega)]
        have haccept : ∀ i < n, us.accepts (va + i) = true := fun i hi => by
          rw [accepts_page (by omega)]
          simp [accepts, hacc]
        have hsplit : us.stored va src.length = n + us.stored (va + n) (src.length - n) := by
          rw [← us.stored_add haccept, show n + (src.length - n) = src.length by omega]
        have hnext : us.stored (va / PGSIZE * PGSIZE + PGSIZE) (src.length - n) =
            us.stored (va + n) (src.length - n) := by
          by_cases hfull : n = src.length
          · rw [hfull, Nat.sub_self, stored, stored]
          · rw [show va / PGSIZE * PGSIZE + PGSIZE = va + n by omega]
        rw [stored_putBytes, List.length_drop, hsplit, hnext, List.take_add, putBytes_append, hlen]
        generalize us.stored (va + n) (src.length - n) = k
        by_cases hfull : n = src.length
        · simp [hfull, putBytes_nil]
        · rw [show va / PGSIZE * PGSIZE + PGSIZE = va + n by omega]
          congr 2
          simp only [eq_iff_iff]
          omega
      · rw [if_neg hacc]
        have hrefuse : us.accepts va = false := by simpa [accepts] using hacc
        obtain ⟨k, hk⟩ := Nat.exists_eq_succ_of_ne_zero h0
        simp [hk, stored, hrefuse, putBytes_nil]

theorem copyout_eq (us : UserSpace) (va : Nat) (src : List UInt8) :
    us.copyout va src = (us.putBytes va (src.take (us.stored va src.length)),
      decide (us.stored va src.length = src.length)) :=
  copyoutLoop_eq (Nat.le_refl _)

/-- An accepted address is mapped. -/
theorem mapped_of_accepts (h : us.accepts va = true) : (us (va / PGSIZE)).isSome = true := by
  simp only [accepts, Bool.and_eq_true, mayWrite] at h
  cases hu : us (va / PGSIZE) with
  | none => simp [hu] at h
  | some u => rfl

theorem lt_maxva_of_accepts (h : us.accepts va = true) : va < MAXVA := by
  simp only [accepts, Bool.and_eq_true, decide_eq_true_eq] at h
  exact h.1

theorem byte_putBytes (bs : List UInt8) (a : Nat) : (us.putBytes va bs).byte a =
    if (us (a / PGSIZE)).isSome ∧ va ≤ a ∧ a < va + bs.length then bs.getD (a - va) 0 else us.byte a := by
  unfold byte putBytes
  cases us (a / PGSIZE) with
  | none => simp
  | some u =>
    have hmod : a % PGSIZE < PGSIZE := Nat.mod_lt _ (by decide)
    simp only [Option.map_some, ByteArr.byteAt, hmod, dif_pos, Nat.div_add_mod', Option.isSome_some,
      true_and]

theorem byte_putBytes_outside {bs : List UInt8} {a : Nat} (h : a < va ∨ va + bs.length ≤ a) :
    (us.putBytes va bs).byte a = us.byte a := by
  rw [byte_putBytes, if_neg (by omega)]

/-- What has been stored is read back. -/
theorem bytes_putBytes (bs : List UInt8) (o len : Nat) (hlen : o + len ≤ bs.length)
    (h : ∀ i < bs.length, us.accepts (va + i) = true) :
    (us.putBytes va bs).bytes (va + o) len = (bs.drop o).take len := by
  refine List.ext_getElem (by simp [bytes]; omega) fun i h1 h2 => ?_
  simp only [bytes, List.length_map, List.length_range] at h1
  have hmap := mapped_of_accepts (h (o + i) (by omega))
  simp only [bytes, List.getElem_map, List.getElem_range, List.getElem_take, List.getElem_drop]
  rw [byte_putBytes, if_pos ⟨by rwa [Nat.add_assoc], by omega, by omega⟩,
    show va + o + i - va = o + i by omega, List.getD_eq_getElem?_getD,
    List.getElem?_eq_getElem (by omega), Option.getD_some]

/-- Bytes stored over others. -/
theorem putBytes_over (va : Nat) {as bs : List UInt8} (h : as.length ≤ bs.length) :
    (us.putBytes va as).putBytes va bs = us.putBytes va bs := by
  funext pg
  unfold putBytes
  cases us pg with
  | none => rfl
  | some u =>
    simp only [Option.map_some]
    congr 2
    funext i
    by_cases hin : va ≤ pg * PGSIZE + i ∧ pg * PGSIZE + i < va + bs.length
    · rw [if_pos hin, if_pos hin]
    · rw [if_neg hin, if_neg hin, if_neg (by omega)]

/-- Two lists of bytes that fit leave the same memory only if they are the same. -/
theorem putBytes_inj (as bs : List UInt8) (hlen : as.length = bs.length)
    (h : ∀ i < as.length, us.accepts (va + i) = true) :
    us.putBytes va as = us.putBytes va bs ↔ as = bs := by
  refine ⟨fun he => ?_, fun he => he ▸ rfl⟩
  have has := us.bytes_putBytes as 0 as.length (by omega) h
  have hbs := us.bytes_putBytes bs 0 as.length (by omega) (fun i hi => h i (by omega))
  rw [he, hbs] at has
  simpa [List.take_of_length_le (Nat.le_of_eq hlen.symm)] using has.symm

/-- When two copies to one place leave the same memory. -/
theorem copyout_inj {as bs : List UInt8} (hlen : as.length = bs.length) :
    us.copyout va as = us.copyout va bs ↔ ∀ i < us.stored va as.length, as[i]? = bs[i]? := by
  have hle : us.stored va as.length ≤ as.length := us.stored_le _
  rw [copyout_eq, copyout_eq, ← hlen, Prod.mk.injEq, and_iff_left rfl, us.putBytes_inj _ _]
  · constructor
    · intro h i hi
      have := congrArg (fun l : List UInt8 => l[i]?) h
      simpa [List.getElem?_take, hi] using this
    · intro h
      refine List.ext_getElem? fun i => ?_
      by_cases hi : i < us.stored va as.length
      · simpa [List.getElem?_take, hi] using h i hi
      · simp [List.getElem?_take, hi]
  · simp only [List.length_take]
    omega
  · intro i hi
    rw [List.length_take] at hi
    exact accepts_of_stored (show i < us.stored va as.length by omega)

end Xv6.UserSpace
