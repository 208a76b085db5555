import Xv6.Proofs.PageMap

namespace Xv6.Vm

/- copyout() and copyin(), byte by byte. -/

/-- The byte at the physical address `pa`. -/
def Ram.byte (s : Ram) (pa : Nat) : UInt8 := (s.page (pa / PGSIZE)).byteAt (pa % PGSIZE)

def Ram.store (s : Ram) (pa : Nat) (b : UInt8) : Ram :=
  s.setPage (pa / PGSIZE) ((s.page (pa / PGSIZE)).put (pa % PGSIZE) [b])

/-- The physical address of the virtual address `va`, if it is mapped with all of `flags`. -/
def Ram.userAddr (s : Ram) (r : Nat) (flags : List Nat) (va : Nat) : Option Nat :=
  (s.translate r va).bind (fun x => if flags.all (has x.2) then some x.1 else none)

/-- An address that a user program may read. -/
abbrev Ram.readable (s : Ram) (r : Nat) : Nat → Option Nat := s.userAddr r [PTE_V, PTE_U]

/-- An address that a user program may write. -/
abbrev Ram.writable (s : Ram) (r : Nat) : Nat → Option Nat := s.userAddr r [PTE_V, PTE_U, PTE_W]

/-- Store bytes from `va` on, up to the first address that has no translation. -/
def storeBytes (tr : Nat → Option Nat) : Nat → List UInt8 → Ram → Int × Ram
  | _, [], s => (0, s)
  | va, b :: bs, s =>
    match tr va with
    | none => (-1, s)
    | some pa => storeBytes tr (va + 1) bs (s.store pa b)

/-- The `len` bytes from `va` on, up to the first address that has no translation. -/
def loadBytes (tr : Nat → Option Nat) (s : Ram) : Nat → Nat → List UInt8 × Int
  | _, 0 => ([], 0)
  | va, len + 1 =>
    match tr va with
    | none => ([], -1)
    | some pa => (s.byte pa :: (loadBytes tr s (va + 1) len).1, (loadBytes tr s (va + 1) len).2)

section
variable {s t : Ram} {r n off va len : Nat} {tr : Nat → Option Nat} {bs : List UInt8}

theorem page_addr (h : off < PGSIZE) : (n * PGSIZE + off) / PGSIZE = n ∧ (n * PGSIZE + off) % PGSIZE = off := by
  simp only [PGSIZE] at h ⊢
  omega

theorem store_page {b : UInt8} (h : off < PGSIZE) :
    s.store (n * PGSIZE + off) b = s.setPage n ((s.page n).put off [b]) := by
  rw [Ram.store, (page_addr h).1, (page_addr h).2]

theorem byte_page (h : off < PGSIZE) : s.byte (n * PGSIZE + off) = (s.page n).byteAt off := by
  rw [Ram.byte, (page_addr h).1, (page_addr h).2]

theorem setPage_setPage (s : Ram) (n : Nat) (d d' : ByteArr PGSIZE) : (s.setPage n d).setPage n d' = s.setPage n d' := by
  simp only [Ram.setPage, setAt_setAt]

theorem setPage_self (s : Ram) (n : Nat) : s.setPage n (s.page n) = s := by
  simp only [Ram.setPage, setAt_self]

theorem storeBytes_stuck (h : tr va = none) (hbs : bs ≠ []) : storeBytes tr va bs s = (-1, s) := by
  cases bs with
  | nil => exact absurd rfl hbs
  | cons b bs => rw [storeBytes, h]

theorem loadBytes_stuck (h : tr va = none) (hlen : 0 < len) : loadBytes tr s va len = ([], -1) := by
  cases len with
  | zero => omega
  | succ len => rw [loadBytes, h]

/-- The stores to one page are one write. -/
theorem storeBytes_page (rest : List UInt8) (hoff : off + bs.length ≤ PGSIZE)
    (htr : ∀ i < bs.length, tr (va + i) = some (n * PGSIZE + (off + i))) : storeBytes tr va (bs ++ rest) s =
      storeBytes tr (va + bs.length) rest (s.setPage n ((s.page n).put off bs)) := by
  induction bs generalizing s va off with
  | nil => rw [ByteArr.put_nil, setPage_self, List.nil_append, List.length_nil, Nat.add_zero]
  | cons b bs ih =>
    rw [List.length_cons] at hoff htr
    have hfirst := htr 0 (Nat.succ_pos _)
    rw [Nat.add_zero, Nat.add_zero] at hfirst
    rw [List.cons_append, storeBytes, hfirst]
    simp only [store_page (show off < PGSIZE by omega)]
    have hrest : ∀ i < bs.length, tr (va + 1 + i) = some (n * PGSIZE + (off + 1 + i)) := fun i hi => by
      rw [Nat.add_assoc, Nat.add_assoc, Nat.add_comm 1, htr (i + 1) (by omega)]
    rw [ih (by omega) hrest, page_setPage, setPage_setPage, ByteArr.put_cons, List.length_cons, Nat.add_assoc,
      Nat.add_comm 1]

/-- The loads from one page are one read. -/
theorem loadBytes_page (len k : Nat) (hoff : off + k ≤ PGSIZE)
    (htr : ∀ i < k, tr (va + i) = some (n * PGSIZE + (off + i))) : loadBytes tr s va (k + len) =
      ((s.page n).get off k ++ (loadBytes tr s (va + k) len).1, (loadBytes tr s (va + k) len).2) := by
  induction k generalizing va off with
  | zero => simp [ByteArr.get]
  | succ k ih =>
    have hfirst := htr 0 (Nat.succ_pos _)
    rw [Nat.add_zero, Nat.add_zero] at hfirst
    have hk : k + 1 + len = k + len + 1 := by omega
    have hva : va + (k + 1) = va + 1 + k := by omega
    rw [hk, hva, loadBytes, hfirst]
    simp only [byte_page (show off < PGSIZE by omega)]
    have hrest : ∀ i < k, tr (va + 1 + i) = some (n * PGSIZE + (off + 1 + i)) := fun i hi => by
      rw [Nat.add_assoc, Nat.add_assoc, Nat.add_comm 1, htr (i + 1) (by omega)]
    rw [ih (by omega) hrest, ByteArr.get_succ, List.cons_append]

/-- The frame of the virtual page `v`, if it is mapped with all of `flags`. -/
def Ram.userFrame (s : Ram) (r : Nat) (flags : List Nat) (v : Nat) : Option Nat :=
  (s.leaf r v).bind (fun pte => if flags.all (has pte) then some (frame pte) else none)

theorem userAddr_eq {flags : List Nat} (hflags : ∀ f ∈ flags, f < 2 ^ 10) (hva : va < MAXVA) : s.userAddr r flags va =
    (s.userFrame r flags (va / PGSIZE)).map (fun n => n * PGSIZE + va % PGSIZE) := by
  rw [Ram.userAddr, translate_eq s r hva, Ram.userFrame]
  cases s.leaf r (va / PGSIZE) with
  | none => simp only [Option.map_none, Option.bind_none]
  | some pte =>
    have hall : flags.all (has (pteFlags pte)) = flags.all (has pte) := by
      rw [Bool.eq_iff_iff, List.all_eq_true, List.all_eq_true]
      exact forall₂_congr fun f hf => by rw [has_flags pte (hflags f hf)]
    simp only [Option.map_some, Option.bind_some, hall, pte2pa_frame]
    split
    · simp only [Option.map_some]
    · simp only [Option.map_none]

theorem userAddr_top (s : Ram) (r : Nat) (flags : List Nat) (hva : MAXVA ≤ va) : s.userAddr r flags va = none := by
  rw [Ram.userAddr, translate_top s r hva]
  rfl

theorem userAddr_none {flags : List Nat} (hflags : ∀ f ∈ flags, f < 2 ^ 10)
    (h : s.userFrame r flags (va / PGSIZE) = none) : s.userAddr r flags va = none := by
  by_cases hva : va < MAXVA
  · rw [userAddr_eq hflags hva, h]
    rfl
  · exact userAddr_top s r flags (Nat.not_lt.mp hva)

/-- The rest of the page that `va` is in. -/
theorem userAddr_of_frame {flags : List Nat} (hflags : ∀ f ∈ flags, f < 2 ^ 10) (hva : va < MAXVA)
    (hn : s.userFrame r flags (va / PGSIZE) = some n) {i : Nat} (hi : va % PGSIZE + i < PGSIZE) :
    s.userAddr r flags (va + i) = some (n * PGSIZE + (va % PGSIZE + i)) := by
  have hpage : (va + i) / PGSIZE = va / PGSIZE := by
    simp only [PGSIZE] at hi ⊢
    omega
  have hoff : (va + i) % PGSIZE = va % PGSIZE + i := by
    simp only [PGSIZE] at hi ⊢
    omega
  have hmax : va + i < MAXVA := by
    simp only [PGSIZE, MAXVA] at hi hva ⊢
    omega
  rw [userAddr_eq hflags hmax, hpage, hn, Option.map_some, hoff]

/-- No page of the table is mapped for the user to write. -/
def Ram.Closed (s : Ram) (r : Nat) : Prop :=
  ∀ v < 2 ^ 26, ∀ n, s.userFrame r [PTE_V, PTE_U, PTE_W] v = some n → ¬ s.InTable r n

/-- Nothing that the user may read is mapped to physical page 0. -/
def Ram.NoZero (s : Ram) (r : Nat) : Prop := ∀ v < 2 ^ 26, s.userFrame r [PTE_V, PTE_U] v ≠ some 0

theorem writable_flags : ∀ f ∈ [PTE_V, PTE_U, PTE_W], f < 2 ^ 10 := by decide

theorem readable_flags : ∀ f ∈ [PTE_V, PTE_U], f < 2 ^ 10 := by decide

theorem userFrame_of_node {flags : List Nat} {a v : Nat} (hV : PTE_V ∈ flags) (hn : s.node r (path v) = some a) :
    s.userFrame r flags v =
      if flags.all (has (s.pte a (v % 2 ^ 9))) then some (frame (s.pte a (v % 2 ^ 9))) else none := by
  rw [Ram.userFrame, leaf_of_node hn, valid]
  by_cases hv : has (s.pte a (v % 2 ^ 9)) PTE_V = true
  · rw [if_pos hv, Option.bind_some]
  · have hall : ¬ flags.all (has (s.pte a (v % 2 ^ 9))) = true := fun hall => hv (List.all_eq_true.mp hall _ hV)
    rw [if_neg hv, if_neg hall, Option.bind_none]

theorem userFrame_no_node {flags : List Nat} {v : Nat} (hn : s.node r (path v) = none) : s.userFrame r flags v = none := by
  rw [Ram.userFrame, Ram.leaf, hn]
  rfl

theorem all_writable (pte : Nat) : [PTE_V, PTE_U, PTE_W].all (has pte) = true ↔
    ¬ (has pte PTE_V = false ∨ has pte PTE_U = false ∨ has pte PTE_W = false) := by
  simp only [List.all_cons, List.all_nil, Bool.and_true, Bool.and_eq_true, not_or, Bool.not_eq_false]

theorem all_readable (pte : Nat) : [PTE_V, PTE_U].all (has pte) = true ↔
    ¬ (has pte PTE_V = false ∨ has pte PTE_U = false) := by
  simp only [List.all_cons, List.all_nil, Bool.and_true, Bool.and_eq_true, not_or, Bool.not_eq_false]

theorem sub_pgrounddown (va : Nat) : va - va / PGSIZE * PGSIZE = va % PGSIZE := by
  simp only [PGSIZE]
  omega

/-- The first page of a copy: `k` bytes of it are in the page of `va`. -/
structure Chunk (va len k : Nat) : Prop where
  pos : 0 < len → 0 < k
  le : k ≤ len
  page : va % PGSIZE + k ≤ PGSIZE
  next : k < len → va / PGSIZE * PGSIZE + PGSIZE = va + k

theorem chunk (va len : Nat) : Chunk va len (min (PGSIZE - (va - va / PGSIZE * PGSIZE)) len) := by
  have hoff := sub_pgrounddown va
  have hlt := Nat.mod_lt va (show PGSIZE > 0 by decide)
  rw [hoff]
  refine ⟨fun _ => by omega, by omega, by omega, fun hk => ?_⟩
  simp only [PGSIZE] at hk hlt ⊢
  omega

theorem next_page (h : va / PGSIZE * PGSIZE < MAXVA) :
    (va / PGSIZE * PGSIZE + PGSIZE) % 2 ^ 64 = va / PGSIZE * PGSIZE + PGSIZE := by
  simp only [PGSIZE, MAXVA] at h ⊢
  omega

theorem page_lt (h : va < MAXVA) : va / PGSIZE < 2 ^ 26 := by
  simp only [PGSIZE, MAXVA] at h ⊢
  omega

theorem lt_maxva (h : va / PGSIZE * PGSIZE < MAXVA) : va < MAXVA := by
  simp only [PGSIZE, MAXVA] at h ⊢
  omega

theorem copyoutLoop_stores {fuel : Nat} {src : List UInt8} (hc : s.Closed r)
    (hsame : ∀ n, s.InTable r n → t.page n = s.page n) (hfuel : src.length < fuel) :
    Runs (copyoutLoop r fuel va src) t (fun res u => storeBytes (s.writable r) va src t = (res, u)) := by
  induction fuel generalizing t va src with
  | zero => omega
  | succ fuel ih =>
    by_cases hsrc : src = []
    · subst hsrc
      exact runs_pure rfl
    have hlen : 0 < src.length := List.length_pos_of_ne_nil hsrc
    rw [copyoutLoop, if_pos hlen]
    change Runs (if va / PGSIZE * PGSIZE ≥ MAXVA then pure (-1) else _) t _
    refine .ite (fun hmax => runs_pure ?_) fun hmax => ?_
    · exact storeBytes_stuck (userAddr_top s r _ (Nat.le_trans hmax (Nat.div_mul_le_self va PGSIZE))) hsrc
    · have hva0 : va / PGSIZE * PGSIZE < MAXVA := Nat.not_le.mp hmax
      have hva := lt_maxva hva0
      have hw := walk_find t r hva0
      rw [Nat.mul_div_cancel _ (by decide), node_of_agree hsame (by simp [path])] at hw
      refine runs_step hw ?_
      cases hn : s.node r (path (va / PGSIZE)) with
      | none =>
        exact runs_pure (storeBytes_stuck (userAddr_none writable_flags (userFrame_no_node hn)) hsrc)
      | some a =>
        have hframe := userFrame_of_node (List.mem_cons_self (l := [PTE_U, PTE_W])) hn
        have hpte : t.pte a (va / PGSIZE % 2 ^ 9) = s.pte a (va / PGSIZE % 2 ^ 9) :=
          pte_of_page (hsame a ⟨_, by simp [path], hn⟩)
        refine runs_getPte ?_
        simp only [hpte]
        generalize s.pte a (va / PGSIZE % 2 ^ 9) = pte at hframe
        refine .ite (fun hbad => ?_) fun hgood => ?_
        · rw [if_neg (mt (all_writable pte).mp (not_not_intro hbad))] at hframe
          exact runs_pure (storeBytes_stuck (userAddr_none writable_flags hframe) hsrc)
        · rw [if_pos ((all_writable pte).mpr hgood)] at hframe
          refine runs_getPage (runs_setPage ?_)
          have hk := chunk va src.length
          have hoff : va - va / PGSIZE * PGSIZE = va % PGSIZE := sub_pgrounddown va
          change Runs (copyoutLoop r fuel ((va / PGSIZE * PGSIZE + PGSIZE) % 2 ^ 64)
            (src.drop (min (PGSIZE - (va - va / PGSIZE * PGSIZE)) src.length)))
            (t.setPage (frame pte) ((t.page (frame pte)).put (va - va / PGSIZE * PGSIZE)
              (src.take (min (PGSIZE - (va - va / PGSIZE * PGSIZE)) src.length)))) _
          generalize min (PGSIZE - (va - va / PGSIZE * PGSIZE)) src.length = k at hk
          rw [hoff, next_page hva0]
          have hpos := hk.pos hlen
          have htab := hc _ (page_lt hva) _ hframe
          have htake : (src.take k).length = k := by
            rw [List.length_take]
            exact Nat.min_eq_left hk.le
          refine (ih (fun n hn => ?_) ?_).mono fun res u hu => ?_
          · have hne : n ≠ frame pte := fun he => htab (he ▸ hn)
            rw [page_setPage_other hne, hsame n hn]
          · rw [List.length_drop]
            omega
          · have htr : ∀ i < (src.take k).length, s.writable r (va + i) = some (frame pte * PGSIZE + (va % PGSIZE + i)) :=
              fun i hi => userAddr_of_frame writable_flags hva hframe (by have := hk.page; omega)
            have hstore := storeBytes_page (s := t) (src.drop k) (by rw [htake]; exact hk.page) htr
            rw [List.take_append_drop, htake] at hstore
            rw [hstore, ← hu]
            rcases Nat.lt_or_ge k src.length with hlt | hge
            · rw [hk.next hlt]
            · rw [List.drop_eq_nil_of_le hge]
              rfl

/-- walkaddr() of the page of `va`. It answers 0 also for a page that is mapped to physical page 0. -/
theorem walkaddr_frame (s : Ram) (r va : Nat) : walkaddr r (va / PGSIZE * PGSIZE) s =
    .ok (if va < MAXVA then (s.userFrame r [PTE_V, PTE_U] (va / PGSIZE)).getD 0 * PGSIZE else 0) s := by
  by_cases hva : va < MAXVA
  · have hva0 : va / PGSIZE * PGSIZE < MAXVA := Nat.lt_of_le_of_lt (Nat.div_mul_le_self va PGSIZE) hva
    rw [walkaddr, if_neg (Nat.not_le.mpr hva0), if_pos hva, run_bind, walk_find s r hva0,
      Nat.mul_div_cancel _ (by decide)]
    cases hn : s.node r (path (va / PGSIZE)) with
    | none =>
      rw [userFrame_no_node hn]
      rfl
    | some a =>
      rw [userFrame_of_node List.mem_cons_self hn]
      simp only [Option.map_some, run_bind, getPte]
      generalize s.pte a (va / PGSIZE % 2 ^ 9) = pte
      by_cases hgood : has pte PTE_V = false ∨ has pte PTE_U = false
      · rw [if_pos hgood, if_neg (mt (all_readable pte).mp (not_not_intro hgood))]
        rfl
      · rw [if_neg hgood, if_pos ((all_readable pte).mpr hgood), Option.getD_some, ← pte2pa_frame]
        rfl
  · have hmax : va / PGSIZE * PGSIZE ≥ MAXVA := Nat.not_lt.mp fun h => hva (lt_maxva h)
    rw [walkaddr, if_pos hmax, if_neg hva]
    rfl

/-- The two outcomes of walkaddr() in copyin() and copyinstr(). -/
theorem walkaddr_cases (hz : s.NoZero r) (va : Nat) :
    (walkaddr r (va / PGSIZE * PGSIZE) s = .ok 0 s ∧ s.readable r va = none) ∨
    ∃ n, n ≠ 0 ∧ va < MAXVA ∧ walkaddr r (va / PGSIZE * PGSIZE) s = .ok (n * PGSIZE) s ∧
      s.userFrame r [PTE_V, PTE_U] (va / PGSIZE) = some n := by
  rw [walkaddr_frame]
  by_cases hva : va < MAXVA
  · rw [if_pos hva]
    cases hn : s.userFrame r [PTE_V, PTE_U] (va / PGSIZE) with
    | none => exact .inl ⟨by rw [Option.getD_none, Nat.zero_mul], userAddr_none readable_flags hn⟩
    | some n =>
      refine .inr ⟨n, fun h0 => ?_, hva, rfl, rfl⟩
      rw [h0] at hn
      exact hz _ (page_lt hva) hn
  · rw [if_neg hva]
    exact .inl ⟨rfl, userAddr_top s r _ (Nat.not_lt.mp hva)⟩

theorem copyinLoop_loads {fuel : Nat} (hz : s.NoZero r) (hfuel : len < fuel) :
    copyinLoop r fuel va len s = .ok (loadBytes (s.readable r) s va len) s := by
  induction fuel generalizing va len with
  | zero => omega
  | succ fuel ih =>
    rw [copyinLoop]
    by_cases hlen : len > 0
    · rw [if_pos hlen]
      change (walkaddr r (va / PGSIZE * PGSIZE) >>= _) s = _
      rw [run_bind]
      rcases walkaddr_cases hz va with ⟨hw, hnone⟩ | ⟨n, hn0, hva, hw, hframe⟩
      · rw [hw, loadBytes_stuck hnone hlen]
        rfl
      · have hpa : n * PGSIZE ≠ 0 := Nat.mul_ne_zero hn0 (by decide)
        have hk := chunk va len
        simp only [hw, if_neg hpa, run_bind, getPage, Nat.mul_div_cancel n (show 0 < PGSIZE by decide), pgrounddown]
        generalize min (PGSIZE - (va - va / PGSIZE * PGSIZE)) len = k at hk
        have hpos := hk.pos hlen
        have hva0 : va / PGSIZE * PGSIZE < MAXVA := Nat.lt_of_le_of_lt (Nat.div_mul_le_self va PGSIZE) hva
        rw [sub_pgrounddown, next_page hva0, ih (by omega)]
        have htr : ∀ i < k, s.readable r (va + i) = some (n * PGSIZE + (va % PGSIZE + i)) := fun i hi =>
          userAddr_of_frame readable_flags hva hframe (by have := hk.page; omega)
        have hload := loadBytes_page (s := s) (len - k) k hk.page htr
        rw [Nat.add_sub_cancel' hk.le] at hload
        rw [hload]
        rcases Nat.lt_or_ge k len with hlt | hge
        · rw [hk.next hlt]
          rfl
        · rw [Nat.sub_eq_zero_of_le hge]
          rfl
    · obtain rfl : len = 0 := by omega
      rfl

/- What the two references do. -/

/-- What a copy of `bs` to user addresses from `va` on has done when it stops after `k` bytes. -/
structure Stored (tr : Nat → Option Nat) (s t : Ram) (va : Nat) (bs : List UInt8) (k : Nat) : Prop where
  le : k ≤ bs.length
  mapped : ∀ i < k, (tr (va + i)).isSome
  /-- A byte that no later one has overwritten. -/
  bytes : ∀ i < k, ∀ pa, tr (va + i) = some pa → (∀ j < k, i < j → tr (va + j) ≠ some pa) → some (t.byte pa) = bs[i]?
  others : ∀ pa, (∀ i < k, tr (va + i) ≠ some pa) → t.byte pa = s.byte pa
  rest : t.freelist = s.freelist ∧ t.deny = s.deny ∧ t.kend = s.kend

theorem byte_store (s : Ram) (pa : Nat) (b : UInt8) (pa' : Nat) :
    (s.store pa b).byte pa' = if pa' = pa then b else s.byte pa' := by
  have hlt := Nat.mod_lt pa' (show PGSIZE > 0 by decide)
  by_cases hpage : pa' / PGSIZE = pa / PGSIZE
  · rw [Ram.byte, Ram.store, hpage, page_setPage, ByteArr.byteAt_put _ _ _ _ hlt, Ram.byte, hpage]
    by_cases he : pa' = pa
    · subst he
      rw [if_pos rfl, if_pos ⟨Nat.le_refl _, Nat.lt_succ_self _⟩, Nat.sub_self]
      rfl
    · rw [if_neg he, if_neg]
      simp only [List.length_singleton]
      intro hoff
      apply he
      simp only [PGSIZE] at hoff hpage
      omega
  · rw [Ram.byte, Ram.store, page_setPage_other hpage, if_neg (fun he => hpage (by rw [he]))]
    rfl

theorem storeBytes_stored (tr : Nat → Option Nat) (bs : List UInt8) (va : Nat) (s : Ram) :
    ∃ k, Stored tr s (storeBytes tr va bs s).2 va bs k ∧
      ((storeBytes tr va bs s).1 = 0 ∧ k = bs.length ∨
       (storeBytes tr va bs s).1 = -1 ∧ k < bs.length ∧ tr (va + k) = none) := by
  induction bs generalizing va s with
  | nil => exact ⟨0, ⟨Nat.le_refl 0, nofun, nofun, fun _ _ => rfl, rfl, rfl, rfl⟩, .inl ⟨rfl, rfl⟩⟩
  | cons b bs ih =>
    cases htr : tr va with
    | none =>
      rw [storeBytes_stuck htr (List.cons_ne_nil b bs)]
      exact ⟨0, ⟨Nat.zero_le _, nofun, nofun, fun _ _ => rfl, rfl, rfl, rfl⟩, .inr ⟨rfl, Nat.succ_pos _, htr⟩⟩
    | some pa =>
      have hstep : storeBytes tr va (b :: bs) s = storeBytes tr (va + 1) bs (s.store pa b) := by rw [storeBytes, htr]
      obtain ⟨k, hst, hres⟩ := ih (va + 1) (s.store pa b)
      rw [hstep]
      have hnext : ∀ i, va + (i + 1) = va + 1 + i := fun i => by omega
      refine ⟨k + 1, ⟨Nat.succ_le_succ hst.le, fun i hi => ?_, fun i hi pa' hpa hlater => ?_, fun pa' hpa => ?_, hst.rest⟩,
        ?_⟩
      · cases i with
        | zero => rw [Nat.add_zero, htr, Option.isSome_some]
        | succ i =>
          rw [hnext]
          exact hst.mapped i (Nat.lt_of_succ_lt_succ hi)
      · cases i with
        | zero =>
          obtain rfl : pa = pa' := Option.some.inj (htr.symm.trans hpa)
          have hkept := hst.others pa fun i hi => hnext i ▸ hlater (i + 1) (Nat.succ_lt_succ hi) (Nat.succ_pos i)
          rw [hkept, byte_store, if_pos rfl]
          rfl
        | succ i =>
          rw [hnext] at hpa
          exact hst.bytes i (Nat.lt_of_succ_lt_succ hi) pa' hpa fun j hj hij =>
            hnext j ▸ hlater (j + 1) (Nat.succ_lt_succ hj) (Nat.succ_lt_succ hij)
      · have hne : pa' ≠ pa := fun he => hpa 0 (Nat.succ_pos k) (he ▸ htr)
        rw [hst.others pa' fun i hi => hnext i ▸ hpa (i + 1) (Nat.succ_lt_succ hi), byte_store, if_neg hne]
      · rw [hnext k, List.length_cons]
        rcases hres with ⟨h0, hk⟩ | ⟨h1, hk, hnone⟩
        · exact .inl ⟨h0, by rw [hk]⟩
        · exact .inr ⟨h1, Nat.succ_lt_succ hk, hnone⟩

/-- What a copy of `len` bytes from user addresses has read when it stops. -/
structure Read (tr : Nat → Option Nat) (s : Ram) (va : Nat) (bs : List UInt8) : Prop where
  bytes : ∀ i < bs.length, ∃ pa, tr (va + i) = some pa ∧ bs[i]? = some (s.byte pa)

theorem Read.nil (tr : Nat → Option Nat) (s : Ram) (va : Nat) : Read tr s va [] := ⟨nofun⟩

theorem Read.cons {pa : Nat} {bs : List UInt8} (h : tr va = some pa) (hr : Read tr s (va + 1) bs) :
    Read tr s va (s.byte pa :: bs) := by
  refine ⟨fun i hi => ?_⟩
  cases i with
  | zero => exact ⟨pa, h, rfl⟩
  | succ i =>
    have hnext : va + (i + 1) = va + 1 + i := by omega
    rw [hnext, List.getElem?_cons_succ]
    exact hr.bytes i (Nat.lt_of_succ_lt_succ hi)

theorem loadBytes_read (tr : Nat → Option Nat) (s : Ram) (len va : Nat) :
    Read tr s va (loadBytes tr s va len).1 ∧
      ((loadBytes tr s va len).2 = 0 ∧ (loadBytes tr s va len).1.length = len ∨
       (loadBytes tr s va len).2 = -1 ∧ (loadBytes tr s va len).1.length < len ∧
        tr (va + (loadBytes tr s va len).1.length) = none) := by
  induction len generalizing va with
  | zero => exact ⟨.nil tr s va, .inl ⟨rfl, rfl⟩⟩
  | succ len ih =>
    cases htr : tr va with
    | none =>
      rw [loadBytes_stuck htr (Nat.succ_pos len)]
      exact ⟨.nil tr s va, .inr ⟨rfl, Nat.succ_pos len, htr⟩⟩
    | some pa =>
      obtain ⟨hread, hres⟩ := ih (va + 1)
      rw [loadBytes, htr]
      simp only [List.length_cons]
      refine ⟨.cons htr hread, ?_⟩
      have hnext : va + ((loadBytes tr s (va + 1) len).1.length + 1) =
          va + 1 + (loadBytes tr s (va + 1) len).1.length := by omega
      rw [hnext]
      rcases hres with ⟨h0, hk⟩ | ⟨h1, hk, hnone⟩
      · exact .inl ⟨h0, by rw [hk]⟩
      · exact .inr ⟨h1, Nat.succ_lt_succ hk, hnone⟩

theorem lt_maxva_of_userAddr {flags : List Nat} (h : (s.userAddr r flags va).isSome) : va < MAXVA := by
  by_contra hva
  rw [userAddr_top s r flags (Nat.not_lt.mp hva)] at h
  cases h

/-- copyout() and copyin() are the copies byte by byte: where no user page is a page of the table itself and no user page
is physical page 0. -/
theorem copies_byte_by_byte (s : Ram) (r : Nat) :
    (s.Closed r → ∀ dstva src, Runs (copyout r dstva src) s (fun res t =>
      storeBytes (s.writable r) dstva src s = (res, t) ∧
      (res = 0 ↔ ∀ i < src.length, dstva + i < MAXVA ∧ (s.writable r (dstva + i)).isSome) ∧
      ∃ k, Stored (s.writable r) s t dstva src k ∧ (res = 0 ∧ k = src.length ∨ res = -1 ∧ k < src.length))) ∧
    (s.NoZero r → ∀ srcva len, Runs (copyin r srcva len) s (fun x t => t = s ∧
      loadBytes (s.readable r) s srcva len = x ∧
      (x.2 = 0 ↔ ∀ i < len, srcva + i < MAXVA ∧ (s.readable r (srcva + i)).isSome) ∧
      Read (s.readable r) s srcva x.1 ∧ (x.2 = 0 ∧ x.1.length = len ∨ x.2 = -1 ∧ x.1.length < len))) := by
  constructor
  · intro hc dstva src
    refine (copyoutLoop_stores hc (fun _ _ => rfl) (Nat.lt_succ_self _)).mono fun res t ht => ?_
    obtain ⟨k, hst, hres⟩ := storeBytes_stored (s.writable r) src dstva s
    rw [ht] at hst hres
    refine ⟨ht, ?_, k, hst, ?_⟩
    · rcases hres with ⟨h0, rfl⟩ | ⟨h1, hk, hnone⟩
      · exact ⟨fun _ i hi => ⟨lt_maxva_of_userAddr (hst.mapped i hi), hst.mapped i hi⟩, fun _ => h0⟩
      · refine ⟨fun h0 => absurd (h1.symm.trans h0) (by decide), fun hall => ?_⟩
        have := (hall k hk).2
        rw [hnone] at this
        cases this
    · rcases hres with h0 | ⟨h1, hk, -⟩
      · exact .inl h0
      · exact .inr ⟨h1, hk⟩
  · intro hz srcva len
    refine ⟨_, s, copyinLoop_loads hz (Nat.lt_succ_self len), rfl, rfl, ?_⟩
    obtain ⟨hread, hres⟩ := loadBytes_read (s.readable r) s len srcva
    generalize loadBytes (s.readable r) s srcva len = x at hread hres
    refine ⟨?_, hread, ?_⟩
    · rcases hres with ⟨h0, hlen⟩ | ⟨h1, hlen, hnone⟩
      · refine ⟨fun _ i hi => ?_, fun _ => h0⟩
        obtain ⟨pa, hpa, -⟩ := hread.bytes i (by omega)
        have hsome : (s.readable r (srcva + i)).isSome := by rw [hpa, Option.isSome_some]
        exact ⟨lt_maxva_of_userAddr hsome, hsome⟩
      · refine ⟨fun h0 => absurd (h1.symm.trans h0) (by decide), fun hall => ?_⟩
        have := (hall _ hlen).2
        rw [hnone] at this
        cases this
    · rcases hres with h0 | ⟨h1, hlen, -⟩
      · exact .inl h0
      · exact .inr ⟨h1, hlen⟩

end

/-- A table at page 0x80001 in which only virtual page 0 is mapped, by the PTE `x`. -/
def onlyPage (x : Nat) : Ram :=
  (((⟨fun _ => .zero, [], [], 0x80001000⟩ : Ram).setPte 0x80001 0 (pa2pte 0x80002000 ||| PTE_V)).setPte 0x80002 0
    (pa2pte 0x80003000 ||| PTE_V)).setPte 0x80003 0 x

theorem pte_onlyPage {x : Nat} (hx : x < 2 ^ 64) (m i : Nat) : (onlyPage x).pte m i =
    if m = 0x80003 ∧ i = 0 then x else if m = 0x80002 ∧ i = 0 then pa2pte 0x80003000 ||| PTE_V
      else if m = 0x80001 ∧ i = 0 then pa2pte 0x80002000 ||| PTE_V else 0 := by
  rw [onlyPage, pte_setPte (by decide) hx, pte_setPte (by decide) (by decide), pte_setPte (by decide) (by decide),
    pte_zero rfl]

theorem node_onlyPage {x n : Nat} {p : List Nat} (hx : x < 2 ^ 64) (hp : p.length ≤ 2)
    (hn : (onlyPage x).node 0x80001 p = some n) : p = List.replicate p.length 0 ∧ n = 0x80001 + p.length := by
  have hkid : ∀ m i n, m ≠ 0x80003 → kid ((onlyPage x).pte m i) = some n →
      i = 0 ∧ ((m = 0x80002 ∧ n = 0x80003) ∨ (m = 0x80001 ∧ n = 0x80002)) := fun m i n hm hn => by
    rw [pte_onlyPage hx, if_neg (fun h => hm h.1)] at hn
    split at hn
    · exact ⟨And.right ‹_›, .inl ⟨And.left ‹_›, (Option.some.inj hn).symm⟩⟩
    · split at hn
      · exact ⟨And.right ‹_›, .inr ⟨And.left ‹_›, (Option.some.inj hn).symm⟩⟩
      · cases hn
  match p, hp with
  | [], _ => exact ⟨rfl, (Option.some.inj hn).symm⟩
  | [i], _ =>
    simp only [Ram.node, Radix.node, Option.bind_eq_some_iff] at hn
    obtain ⟨m, hm, hmn⟩ := hn
    rcases hkid _ _ _ (by decide) hm with ⟨rfl, ⟨h1, -⟩ | ⟨-, rfl⟩⟩
    · cases h1
    · exact ⟨rfl, (Option.some.inj hmn).symm⟩
  | [i, j], _ =>
    simp only [Ram.node, Radix.node, Option.bind_eq_some_iff] at hn
    obtain ⟨m, hm, k, hk, hkn⟩ := hn
    rcases hkid _ _ _ (by decide) hm with ⟨rfl, ⟨h1, -⟩ | ⟨-, rfl⟩⟩
    · cases h1
    rcases hkid _ _ _ (by decide) hk with ⟨rfl, ⟨-, rfl⟩ | ⟨h1, -⟩⟩
    · exact ⟨rfl, (Option.some.inj hkn).symm⟩
    · cases h1

theorem inTable_onlyPage {x n : Nat} (hx : x < 2 ^ 64) (h : (onlyPage x).InTable 0x80001 n) :
    n = 0x80001 ∨ n = 0x80002 ∨ n = 0x80003 := by
  obtain ⟨p, hp, hn⟩ := h
  have := (node_onlyPage hx hp hn).2
  omega

/-- Only `x` is for the user. -/
theorem userFrame_onlyPage {x v n : Nat} {flags : List Nat} (hx : x < 2 ^ 64) (hU : PTE_U ∈ flags)
    (h : (onlyPage x).userFrame 0x80001 flags v = some n) : n = frame x := by
  simp only [Ram.userFrame, Option.bind_eq_some_iff] at h
  obtain ⟨pte, hleaf, hn⟩ := h
  obtain ⟨a, -, hpte, -⟩ := leaf_some hleaf
  split at hn
  · have hu := List.all_eq_true.mp ‹_› _ hU
    rw [pte_onlyPage hx] at hpte
    split at hpte
    · rw [hpte]
      exact (Option.some.inj hn).symm
    · split at hpte
      · subst hpte
        exact absurd hu (by decide)
      · split at hpte <;> subst hpte <;> exact absurd hu (by decide)
  · cases hn

/-- Virtual page 0 is page 0x80004, for the user to read and write. -/
def dataMapped : Ram := onlyPage (pa2pte 0x80004000 ||| (PTE_V ||| PTE_R ||| PTE_W ||| PTE_U))

theorem closed_dataMapped : dataMapped.Closed 0x80001 := fun v _ n hn hin => by
  have hf := userFrame_onlyPage (by decide) (by decide) hn
  have := inTable_onlyPage (by decide) hin
  rw [hf] at this
  revert this
  decide

theorem noZero_dataMapped : dataMapped.NoZero 0x80001 := fun v _ hn =>
  absurd (userFrame_onlyPage (by decide) (by decide) hn) (by decide)

theorem copies_two_bytes :
    Runs (copyout 0x80001 7 [1, 2]) dataMapped (fun res t =>
      storeBytes (dataMapped.writable 0x80001) 7 [1, 2] dataMapped = (res, t) ∧
      (res = 0 ↔ ∀ i < 2, 7 + i < MAXVA ∧ (dataMapped.writable 0x80001 (7 + i)).isSome) ∧
      ∃ k, Stored (dataMapped.writable 0x80001) dataMapped t 7 [1, 2] k ∧ (res = 0 ∧ k = 2 ∨ res = -1 ∧ k < 2)) ∧
    Runs (copyin 0x80001 7 2) dataMapped (fun x t => t = dataMapped ∧
      loadBytes (dataMapped.readable 0x80001) dataMapped 7 2 = x ∧
      (x.2 = 0 ↔ ∀ i < 2, 7 + i < MAXVA ∧ (dataMapped.readable 0x80001 (7 + i)).isSome) ∧
      Read (dataMapped.readable 0x80001) dataMapped 7 x.1 ∧ (x.2 = 0 ∧ x.1.length = 2 ∨ x.2 = -1 ∧ x.1.length < 2)) :=
  ⟨(copies_byte_by_byte dataMapped 0x80001).1 closed_dataMapped 7 [1, 2],
    (copies_byte_by_byte dataMapped 0x80001).2 noZero_dataMapped 7 2⟩

/-- Virtual page 0 is physical page 0, for the user to read. -/
def zeroMapped : Ram := onlyPage (pa2pte 0 ||| (PTE_V ||| PTE_R ||| PTE_U))

/-- A table whose page 510 is the table itself, for the user to write. -/
def selfMapped : Ram :=
  (((⟨fun _ => .zero, [], [], 0x80001000⟩ : Ram).setPte 0x80001 0 (pa2pte 0x80001000 ||| PTE_V)).setPte 0x80001 510
    (pa2pte 0x80001000 ||| (PTE_V ||| PTE_U ||| PTE_W))).setPte 0x80001 511
      (pa2pte 0x80002000 ||| (PTE_V ||| PTE_U ||| PTE_W))

theorem copies_off_the_reference :
    (zeroMapped.readable 0x80001 0 = some 0 ∧ copyin 0x80001 0 1 zeroMapped = .ok ([], -1) zeroMapped) ∧
    ((∀ i < 9, (selfMapped.writable 0x80001 (510 * PGSIZE + 4088 + i)).isSome) ∧
      ∃ t, copyout 0x80001 (510 * PGSIZE + 4088) (List.replicate 9 0) selfMapped = .ok (-1) t) := by
  have hframe : zeroMapped.userFrame 0x80001 [PTE_V, PTE_U] 0 = some 0 := by decide +kernel
  have hcopy : copyin 0x80001 0 1 zeroMapped = .ok ([], -1) zeroMapped := by
    have hw := walkaddr_frame zeroMapped 0x80001 0
    rw [if_pos (by decide), Nat.zero_div, hframe] at hw
    rw [copyin, copyinLoop, if_pos Nat.one_pos]
    change (walkaddr 0x80001 (0 / PGSIZE * PGSIZE) >>= _) zeroMapped = _
    rw [run_bind, Nat.zero_div, hw]
    rfl
  exact ⟨⟨by decide +kernel, hcopy⟩, by decide +kernel, _, rfl⟩

end Xv6.Vm
