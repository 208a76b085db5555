import Xv6.Vm
import Xv6.Lib.Radix
import Mathlib.Data.Nat.Bitwise

namespace Xv6.Vm

/- PTEs. -/

theorem has_or (a b f : Nat) : has (a ||| b) f = (has a f || has b f) := by
  simp only [has, Nat.and_or_distrib_right]
  rw [Bool.eq_iff_iff]
  simp [Nat.or_eq_zero_iff]
  tauto

theorem has_flags {f : Nat} (pte : Nat) (hf : f < 2 ^ 10) : has (pteFlags pte) f = has pte f := by
  have hmask : (2 ^ 10 - 1) &&& f = f := by
    rw [Nat.and_comm, Nat.and_two_pow_sub_one_eq_mod, Nat.mod_eq_of_lt hf]
  rw [has, has, pteFlags, ← Nat.and_two_pow_sub_one_eq_mod, Nat.and_assoc, hmask]

/-- The PTE that mappages() makes of a page and flags. -/
theorem mkPte_eq {pa f : Nat} (hf : f < 2 ^ 10) : pa2pte pa ||| f = pa / 2 ^ 12 * 2 ^ 10 + f := by
  have h := Nat.shiftLeft_add_eq_or_of_lt hf (pa / 2 ^ 12)
  rw [Nat.shiftLeft_eq] at h
  exact h.symm

theorem mkPte_lt {pa f : Nat} (hpa : pa < 2 ^ 64) (hf : f < 2 ^ 10) : pa2pte pa ||| f < 2 ^ 64 := by
  rw [mkPte_eq hf]
  omega

theorem pteFlags_mkPte {pa f : Nat} (hf : f < 2 ^ 10) : pteFlags (pa2pte pa ||| f) = f := by
  rw [mkPte_eq hf, pteFlags]
  omega

theorem pte2pa_mkPte {pa f : Nat} (hpa : pa < 2 ^ 64) (hal : pa % PGSIZE = 0) (hf : f < 2 ^ 10) :
    pte2pa (pa2pte pa ||| f) = pa := by
  rw [mkPte_eq hf, pte2pa]
  rw [PGSIZE] at hal
  omega

/- Physical memory. -/

section
variable {s : Ram} {m n i j x : Nat} {d : ByteArr PGSIZE}

theorem pte_lt (s : Ram) (m i : Nat) : s.pte m i < 2 ^ 64 := by
  have h := Bytes.ofLe_lt ((s.page m).get (8 * i) 8)
  rwa [ByteArr.length_get] at h

@[simp] theorem page_setPage (s : Ram) (n : Nat) (d : ByteArr PGSIZE) : (s.setPage n d).page n = d := setAt_same _ _ _

theorem page_setPage_other (h : m ≠ n) : (s.setPage n d).page m = s.page m := setAt_other _ _ _ h

theorem pte_setPage_other (h : m ≠ n) : (s.setPage n d).pte m i = s.pte m i := by
  rw [Ram.pte, Ram.pte, page_setPage_other h]

theorem pte_of_page {t : Ram} (h : t.page m = s.page m) : t.pte m i = s.pte m i := by
  rw [Ram.pte, Ram.pte, h]

theorem pte_zero (h : s.page m = .zero) : s.pte m i = 0 := by
  simp [Ram.pte, h, ByteArr.get, Bytes.ofLe, List.range_succ]

/-- The memory after a PTE has been written. -/
def Ram.setPte (s : Ram) (n i x : Nat) : Ram := s.setPage n ((s.page n).put (8 * i) (Bytes.le 8 x))

theorem pte_setPte (hi : i < 512) (hx : x < 2 ^ 64) (m j : Nat) :
    (s.setPte n i x).pte m j = if m = n ∧ j = i then x else s.pte m j := by
  by_cases hm : m = n
  · subst hm
    rw [Ram.pte, Ram.setPte, page_setPage]
    by_cases hj : j = i
    · subst hj
      have hget := (s.page m).get_put (8 * j) (Bytes.le 8 x) (by rw [Bytes.length_le, PGSIZE]; omega)
      rw [Bytes.length_le] at hget
      rw [hget, if_pos ⟨rfl, rfl⟩, Bytes.ofLe_le_of_lt hx]
    · rw [if_neg (fun h => hj h.2), ByteArr.get_put_disjoint _ _ _ _ _ (by rw [Bytes.length_le]; omega)]
      rfl
  · rw [if_neg (fun h => hm h.1)]
    exact pte_setPage_other hm

end

/- Runs without panic. -/

/-- The code comes to its end, as `Q` says. -/
def Runs (m : VmM α) (s : Ram) (Q : α → Ram → Prop) : Prop := ∃ a t, m s = .ok a t ∧ Q a t

section
variable {s : Ram} {α β : Type} {Q : β → Ram → Prop} {m : VmM α} {f : α → VmM β}

theorem Runs.of_ok {m : VmM β} {b : β} {t : Ram} (h : Runs m s Q) (he : m s = .ok b t) : Q b t := by
  obtain ⟨b', t', he', hq⟩ := h
  rw [he] at he'
  cases he'
  exact hq

theorem Runs.mono {m : VmM β} {R : β → Ram → Prop} (h : Runs m s Q) (hqr : ∀ b t, Q b t → R b t) : Runs m s R := by
  obtain ⟨b, t, he, hq⟩ := h
  exact ⟨b, t, he, hqr b t hq⟩

theorem Runs.tracked {R : α → Ram → Prop} (h : Runs m s R) : Runs m s (fun a t => m s = .ok a t ∧ R a t) := by
  obtain ⟨a, t, ha, hr⟩ := h
  exact ⟨a, t, ha, ha, hr⟩

theorem runs_pure {b : β} (h : Q b s) : Runs (pure b) s Q := ⟨b, s, rfl, h⟩

theorem Runs.bind {R : α → Ram → Prop} (h : Runs m s R) (hf : ∀ a t, R a t → Runs (f a) t Q) :
    Runs (m >>= f) s Q := by
  obtain ⟨a, t, he, hr⟩ := h
  obtain ⟨b, u, he', hq⟩ := hf a t hr
  refine ⟨b, u, ?_, hq⟩
  change VmM.bind m f s = _
  rw [VmM.bind, he]
  exact he'

/-- A step whose outcome is known. -/
theorem runs_step {a : α} {t : Ram} (he : m s = .ok a t) (hf : Runs (f a) t Q) : Runs (m >>= f) s Q :=
  Runs.bind (R := fun b u => b = a ∧ u = t) ⟨a, t, he, rfl, rfl⟩ fun _ _ ⟨hb, hu⟩ => by
    subst hb hu
    exact hf

theorem runs_getPte {n i : Nat} {f : Nat → VmM β} (h : Runs (f (s.pte n i)) s Q) : Runs (getPte n i >>= f) s Q :=
  runs_step rfl h

theorem runs_getPage {n : Nat} {f : ByteArr PGSIZE → VmM β} (h : Runs (f (s.page n)) s Q) :
    Runs (getPage n >>= f) s Q :=
  runs_step rfl h

theorem runs_setPage {n : Nat} {d : ByteArr PGSIZE} {f : Unit → VmM β} (h : Runs (f ()) (s.setPage n d) Q) :
    Runs (setPage n d >>= f) s Q :=
  runs_step rfl h

theorem runs_setPte {n i x : Nat} {f : Unit → VmM β} (h : Runs (f ()) (s.setPte n i x) Q) :
    Runs (Vm.setPte n i x >>= f) s Q :=
  runs_step rfl h

theorem Runs.ite {c : Prop} [Decidable c] {m m' : VmM β} (ht : c → Runs m s Q) (hf : ¬ c → Runs m' s Q) :
    Runs (if c then m else m') s Q := by
  split
  · exact ht ‹_›
  · exact hf ‹_›

end

/- The tree. -/

/-- The page that a PTE leads to, if it is valid. -/
def kid (pte : Nat) : Option Nat := if has pte PTE_V then some (pte2pa pte / PGSIZE) else none

/-- The indices above the lowest level of the page with number `v`. -/
def path (v : Nat) : List Nat := [v / 2 ^ 18 % 2 ^ 9, v / 2 ^ 9 % 2 ^ 9]

def Ram.node (s : Ram) (r : Nat) (p : List Nat) : Option Nat := Radix.node kid s.pte r p

/-- The pages of the page table. -/
def Ram.InTable (s : Ram) (r n : Nat) : Prop := Radix.InTree kid s.pte r 2 n

def valid (pte : Nat) : Option Nat := if has pte PTE_V then some pte else none

/-- The valid PTE of the virtual page `v`, if it has one. -/
def Ram.leaf (s : Ram) (r v : Nat) : Option Nat := (s.node r (path v)).bind (fun a => valid (s.pte a (v % 2 ^ 9)))

theorem px_zero (va : Nat) : px 0 va = va / PGSIZE % 2 ^ 9 := rfl

theorem px_one (va : Nat) : px 1 va = va / PGSIZE / 2 ^ 9 % 2 ^ 9 := by
  rw [px, PGSIZE, Nat.div_div_eq_div_mul]
  rfl

theorem px_two (va : Nat) : px 2 va = va / PGSIZE / 2 ^ 18 % 2 ^ 9 := by
  rw [px, PGSIZE, Nat.div_div_eq_div_mul]
  rfl

/-- No two pages meet in one slot. -/
theorem path_inj {v w : Nat} (hv : v < 2 ^ 27) (hw : w < 2 ^ 27) (hp : path v = path w) (hi : v % 2 ^ 9 = w % 2 ^ 9) :
    v = w := by
  simp only [path, List.cons.injEq, and_true] at hp
  omega

theorem run_bind {α β : Type} (m : VmM α) (f : α → VmM β) (s : Ram) : (m >>= f) s =
    match m s with
    | .ok a s => f a s
    | .wait => .wait
    | .fail e => .fail e := rfl

theorem walkEntry_find (s : Ram) (n i : Nat) : walkEntry false n i s = .ok (kid (s.pte n i)) s := by
  rw [walkEntry, run_bind]
  change (if has (s.pte n i) PTE_V = true then pure (some (pte2pa (s.pte n i) / PGSIZE)) else pure none : VmM _) s = _
  rw [kid]
  split <;> rfl

/-- walk() without alloc: it finds a slot if the tables above are there, and changes nothing. -/
theorem walk_find (s : Ram) (r : Nat) {va : Nat} (hva : va < MAXVA) : walk r va false s =
    .ok ((s.node r (path (va / PGSIZE))).map (fun a => (a, va / PGSIZE % 2 ^ 9))) s := by
  rw [walk, if_neg (Nat.not_le.mpr hva), walkFrom, run_bind, walkEntry_find, px_two]
  simp only [Ram.node, path, Radix.node]
  cases kid (s.pte r (va / PGSIZE / 2 ^ 18 % 2 ^ 9)) with
  | none => rfl
  | some a =>
    simp only [Option.bind_some]
    rw [walkFrom, run_bind, walkEntry_find, px_one]
    cases kid (s.pte a (va / PGSIZE / 2 ^ 9 % 2 ^ 9)) with
    | none => rfl
    | some b =>
      simp only [Option.bind_some, Option.map_some, walkFrom, px_zero]
      rfl

/- Page tables that are trees. -/

/-- Page `n` is one that kfree() takes. -/
def Ram.InRam (s : Ram) (n : Nat) : Prop := s.kend ≤ n * PGSIZE ∧ n * PGSIZE < PHYSTOP
  deriving Decidable

structure Ram.Ok (s : Ram) : Prop where
  nodup : s.freelist.Nodup
  ram : ∀ n ∈ s.freelist, s.InRam n

/-- The pages of the table at `r` are distinct, none of them is free, and above the lowest level a valid entry has no
other flag. -/
structure Table (s : Ram) (r : Nat) : Prop where
  proper : Radix.Proper kid s.pte r 2
  free : ∀ n, s.InTable r n → n ∉ s.freelist
  ram : ∀ n, s.InTable r n → s.InRam n
  inner : ∀ p n i, p.length < 2 → s.node r p = some n → has (s.pte n i) PTE_V = true → pteFlags (s.pte n i) = PTE_V

/-- What may happen to memory while the table at `r` is built: it gets new pages from the free list, and nothing but
the pages of the table is written. -/
structure Keeps (s t : Ram) (r : Nat) : Prop where
  ok : t.Ok
  table : Table t r
  nodes : ∀ p n, p.length ≤ 2 → s.node r p = some n → t.node r p = some n
  fresh : ∀ n, t.InTable r n → s.InTable r n ∨ n ∈ s.freelist
  list : ∀ n ∈ t.freelist, n ∈ s.freelist
  used : ∀ n ∈ s.freelist, n ∈ t.freelist ∨ t.InTable r n
  page : ∀ n, ¬ s.InTable r n → n ∉ s.freelist → t.page n = s.page n
  kend : t.kend = s.kend

section
variable {s t u : Ram} {r a n i x : Nat} {p : List Nat}

theorem Keeps.refl (hs : s.Ok) (h : Table s r) : Keeps s s r :=
  ⟨hs, h, fun _ _ _ hn => hn, fun _ hn => .inl hn, fun _ hn => hn, fun _ hn => .inl hn, fun _ _ _ => rfl, rfl⟩

/-- A call of kalloc() that gets nothing. -/
theorem Keeps.deny (d : List Bool) (hs : s.Ok) (h : Table s r) : Keeps s { s with deny := d } r :=
  ⟨⟨hs.nodup, hs.ram⟩, ⟨h.proper, h.free, h.ram, h.inner⟩, fun _ _ _ hn => hn, fun _ hn => .inl hn, fun _ hn => hn,
    fun _ hn => .inl hn, fun _ _ _ => rfl, rfl⟩

theorem Keeps.inTable (h : Keeps s t r) (hn : s.InTable r n) : t.InTable r n := by
  obtain ⟨p, hlen, hp⟩ := hn
  exact ⟨p, hlen, h.nodes p n hlen hp⟩

theorem Keeps.trans (h : Keeps s t r) (h' : Keeps t u r) : Keeps s u r where
  ok := h'.ok
  table := h'.table
  nodes p n hlen hp := h'.nodes p n hlen (h.nodes p n hlen hp)
  fresh n hn := by
    rcases h'.fresh n hn with ht | ht
    · exact h.fresh n ht
    · exact .inr (h.list n ht)
  list n hn := h.list n (h'.list n hn)
  used n hn := by
    rcases h.used n hn with ht | ht
    · exact h'.used n ht
    · exact .inr (h'.inTable ht)
  page n htab hfree := by
    rw [h'.page n (fun ht => ?_) (fun ht => hfree (h.list n ht)), h.page n htab hfree]
    rcases h.fresh n ht with hs | hs
    · exact htab hs
    · exact hfree hs
  kend := h'.kend.trans h.kend

theorem node_snoc (s : Ram) (r : Nat) (p : List Nat) (i : Nat) :
    s.node r (p ++ [i]) = (s.node r p).bind (fun a => kid (s.pte a i)) := by
  rw [Ram.node, Ram.node, Radix.node_append]
  congr 1
  funext a
  simp [Radix.node]

theorem kid_mkPte (hn : n * PGSIZE < PHYSTOP) : kid (pa2pte (n * PGSIZE) ||| PTE_V) = some n := by
  have hlt : n * PGSIZE < 2 ^ 64 := Nat.lt_trans hn (by decide)
  have hV : has (pa2pte (n * PGSIZE) ||| PTE_V) PTE_V = true := by
    rw [has_or]
    simp [has]
  rw [kid, if_pos hV, pte2pa_mkPte hlt (Nat.mul_mod_left _ _) (by decide), Nat.mul_div_cancel _ (by decide)]

/-- Page `a` gets a child at index `i`: page `n`, which was free and has been zeroed. -/
structure Grafts (s t : Ram) (a i n : Nat) : Prop where
  free : n ∈ s.freelist
  list : t.freelist = s.freelist.erase n
  zero : ∀ j, t.pte n j = 0
  entry : t.pte a i = pa2pte (n * PGSIZE) ||| PTE_V
  pte : ∀ m j, m ≠ n → ¬ (m = a ∧ j = i) → t.pte m j = s.pte m j
  page : ∀ m, m ≠ n → m ≠ a → t.page m = s.page m
  kend : t.kend = s.kend

namespace Grafts
variable (hg : Grafts s t a i n) (hs : s.Ok) (h : Table s r) (hp : s.node r p = some a) (hlen : p.length < 2)
  (hkid : kid (s.pte a i) = none)
include hg hs h hp hlen hkid

theorem node_cases {q : List Nat} (hq : q.length ≤ 3) : (q = p ++ [i] ∧ t.node r q = some n) ∨
    (q ≠ p ++ [i] ∧ t.node r q = s.node r q) := by
  refine Radix.node_grow h.proper hp (Nat.le_of_lt hlen) hkid ?_ (fun m j hm hne => ?_) (fun j => ?_) hq
  · rw [hg.entry, kid_mkPte (hs.ram n hg.free).2]
  · exact hg.pte m j (fun he => h.free m hm (he ▸ hg.free)) hne
  · rw [hg.zero]
    rfl

theorem node_new : t.node r (p ++ [i]) = some n := by
  rcases hg.node_cases hs h hp hlen hkid (q := p ++ [i]) (by simp; omega) with ⟨-, hn⟩ | ⟨hne, -⟩
  · exact hn
  · exact absurd rfl hne

theorem inTable {m : Nat} (hm : t.InTable r m) : s.InTable r m ∨ m = n := by
  obtain ⟨q, hq, hnode⟩ := hm
  rcases hg.node_cases hs h hp hlen hkid (q := q) (Nat.le_succ_of_le hq) with ⟨-, hn⟩ | ⟨-, hn⟩
  · exact .inr (Option.some.inj (hnode.symm.trans hn))
  · exact .inl ⟨q, hq, hn.symm.trans hnode⟩

theorem table : Table t r where
  proper := by
    refine Radix.Proper.grow h.proper hp (Nat.le_of_lt hlen) hkid (n := n) ?_ (fun hin => h.free n hin hg.free)
      (fun m j hm hne => ?_) (fun j => ?_)
    · rw [hg.entry, kid_mkPte (hs.ram n hg.free).2]
    · exact hg.pte m j (fun he => h.free m hm (he ▸ hg.free)) hne
    · rw [hg.zero]
      rfl
  free m hm := by
    rw [hg.list]
    rcases hg.inTable hs h hp hlen hkid hm with hm | rfl
    · exact fun hin => h.free m hm (List.mem_of_mem_erase hin)
    · exact fun hin => (List.Nodup.mem_erase_iff hs.nodup).mp hin |>.1 rfl
  ram m hm := by
    rw [Ram.InRam, hg.kend]
    rcases hg.inTable hs h hp hlen hkid hm with hm | rfl
    · exact h.ram m hm
    · exact hs.ram m hg.free
  inner q m j hq hm hV := by
    rcases hg.node_cases hs h hp hlen hkid (q := q) (by omega) with ⟨-, hn⟩ | ⟨-, hn⟩
    · obtain rfl : n = m := Option.some.inj (hn.symm.trans hm)
      simp [hg.zero, has] at hV
    · have hm' := hn.symm.trans hm
      by_cases hai : m = a ∧ j = i
      · rw [hai.1, hai.2, hg.entry, pteFlags_mkPte (by decide)]
      · have hne : m ≠ n := fun he => h.free m ⟨q, Nat.le_of_lt hq, hm'⟩ (he ▸ hg.free)
        rw [hg.pte m j hne hai] at hV ⊢
        exact h.inner q m j hq hm' hV

theorem keeps : Keeps s t r where
  ok := by
    refine ⟨?_, fun m hm => ?_⟩
    · rw [hg.list]
      exact hs.nodup.erase n
    · rw [hg.list] at hm
      rw [Ram.InRam, hg.kend]
      exact hs.ram m (List.mem_of_mem_erase hm)
  table := hg.table hs h hp hlen hkid
  nodes q m hq hm := by
    rcases hg.node_cases hs h hp hlen hkid (q := q) (Nat.le_succ_of_le hq) with ⟨he, -⟩ | ⟨-, hn⟩
    · rw [he, node_snoc, hp, Option.bind_some, hkid] at hm
      cases hm
    · rw [hn, hm]
  fresh m hm := by
    rcases hg.inTable hs h hp hlen hkid hm with hm | rfl
    · exact .inl hm
    · exact .inr hg.free
  list m hm := by
    rw [hg.list] at hm
    exact List.mem_of_mem_erase hm
  used m hm := by
    by_cases hmn : m = n
    · refine .inr ⟨p ++ [i], ?_, ?_⟩
      · simp
        omega
      · rw [hmn]
        exact hg.node_new hs h hp hlen hkid
    · left
      rw [hg.list]
      exact (List.mem_erase_of_ne hmn).mpr hm
  page m hm hfree := by
    refine hg.page m (fun he => hfree (he ▸ hg.free)) (fun he => hm ?_)
    rw [he]
    exact ⟨p, Nat.le_of_lt hlen, hp⟩
  kend := hg.kend

theorem leaf (v : Nat) : t.leaf r v = s.leaf r v := by
  rcases hg.node_cases hs h hp hlen hkid (q := path v) (by simp [path]) with ⟨he, hn⟩ | ⟨-, hn⟩
  · have hnone : s.node r (path v) = none := by rw [he, node_snoc, hp, Option.bind_some, hkid]
    rw [Ram.leaf, Ram.leaf, hn, hnone, Option.bind_some, hg.zero]
    rfl
  · rw [Ram.leaf, Ram.leaf, hn]
    cases hm : s.node r (path v) with
    | none => simp only [Option.bind_none]
    | some m =>
      have hin : s.InTable r m := ⟨path v, by simp [path], hm⟩
      have hne : m ≠ n := fun he => h.free m hin (he ▸ hg.free)
      have hma : m ≠ a := fun he => by
        have := h.proper (path v) p m (by simp [path]) (Nat.le_of_lt hlen) hm (he ▸ hp)
        rw [← this] at hlen
        simp [path] at hlen
      simp only [Option.bind_some, hg.pte m _ hne (fun he => hma he.1)]

end Grafts

/-- What walk() may do: build tables, without a change of any translation. -/
structure Builds (s t : Ram) (r : Nat) : Prop where
  keeps : Keeps s t r
  leaf : ∀ v, t.leaf r v = s.leaf r v

theorem Builds.trans (h : Builds s t r) (h' : Builds t u r) : Builds s u r :=
  ⟨h.keeps.trans h'.keeps, fun v => (h'.leaf v).trans (h.leaf v)⟩

/-- The two outcomes of kalloc(). -/
theorem kalloc_cases (s : Ram) : (kalloc s = .ok none { s with deny := s.deny.tail }) ∨
    ∃ n rest, s.freelist = n :: rest ∧
      kalloc s = .ok (some n) { s.setPage n (fun _ => 5) with freelist := rest, deny := s.deny.tail } := by
  unfold kalloc
  split
  · rename_i n rest hl _
    exact .inr ⟨n, rest, hl, rfl⟩
  · exact .inl rfl

theorem walkEntry_builds (hs : s.Ok) (h : Table s r) (hp : s.node r p = some a) (hlen : p.length < 2) (hi : i < 512) :
    Runs (walkEntry true a i) s (fun o t => Builds s t r ∧ ∀ n, o = some n → t.node r (p ++ [i]) = some n) := by
  refine runs_getPte (.ite (fun hV => ?_) fun hV => ?_)
  · refine runs_pure ⟨⟨.refl hs h, fun _ => rfl⟩, fun n hn => ?_⟩
    cases hn
    rw [node_snoc, hp, Option.bind_some, kid, if_pos hV]
  · have hkid : kid (s.pte a i) = none := if_neg hV
    rw [if_neg (by decide)]
    rcases kalloc_cases s with hk | ⟨n, rest, hl, hk⟩
    · refine runs_step hk (runs_pure ⟨⟨?_, fun _ => rfl⟩, nofun⟩)
      exact Keeps.deny _ hs h
    · have hfree : n ∈ s.freelist := by rw [hl]; exact List.mem_cons_self
      have hna : a ≠ n := fun he => h.free a ⟨p, Nat.le_of_lt hlen, hp⟩ (he ▸ hfree)
      have hx : pa2pte (n * PGSIZE) ||| PTE_V < 2 ^ 64 :=
        mkPte_lt (Nat.lt_trans (hs.ram n hfree).2 (by decide)) (by decide)
      refine runs_step hk (runs_setPage (runs_setPte (runs_pure ?_)))
      generalize ht : Ram.setPte _ a i _ = t
      have hg : Grafts s t a i n := by
        subst ht
        refine ⟨hfree, ?_, fun j => ?_, ?_, fun m j hm hai => ?_, fun m hm hma => ?_, rfl⟩
        · rw [hl, List.erase_cons_head]
          rfl
        · rw [pte_setPte hi hx, if_neg (fun he => hna he.1.symm)]
          exact pte_zero (page_setPage _ _ _)
        · rw [pte_setPte hi hx, if_pos ⟨rfl, rfl⟩]
        · rw [pte_setPte hi hx, if_neg hai, pte_setPage_other hm]
          exact pte_setPage_other hm
        · rw [Ram.setPte, page_setPage_other hma, page_setPage_other hm]
          exact page_setPage_other hm
      refine ⟨⟨hg.keeps hs h hp hlen hkid, hg.leaf hs h hp hlen hkid⟩, fun m hm => ?_⟩
      cases hm
      exact hg.node_new hs h hp hlen hkid

/-- walk() with alloc. -/
theorem walk_builds (hs : s.Ok) (h : Table s r) {va : Nat} (hva : va < MAXVA) :
    Runs (walk r va true) s (fun o t => Builds s t r ∧
      ∀ a i, o = some (a, i) → t.node r (path (va / PGSIZE)) = some a ∧ i = va / PGSIZE % 2 ^ 9) := by
  rw [walk, if_neg (Nat.not_le.mpr hva)]
  refine (walkEntry_builds hs h (p := []) rfl (by decide) (Nat.mod_lt _ (by decide))).bind fun o t ⟨hb, ho⟩ => ?_
  cases o with
  | none => exact runs_pure ⟨hb, nofun⟩
  | some b =>
    have hnode := ho b rfl
    refine (walkEntry_builds hb.keeps.ok hb.keeps.table hnode (by simp) (Nat.mod_lt _ (by decide))).bind
      fun o u ⟨hb', ho'⟩ => ?_
    cases o with
    | none => exact runs_pure ⟨hb.trans hb', nofun⟩
    | some c =>
      refine runs_pure ⟨hb.trans hb', fun a i hai => ?_⟩
      cases hai
      refine ⟨?_, px_zero va⟩
      have hpath : path (va / PGSIZE) = [] ++ [px (1 + 1) va] ++ [px (0 + 1) va] := by
        rw [px_two, px_one]
        rfl
      rw [hpath]
      exact ho' c rfl

section
variable {v : Nat} (h : Table s r) (hp : s.node r (path v) = some a) (hx : x < 2 ^ 64)
include h hp hx

omit h hp in
theorem pte_setLeaf (m j : Nat) : (s.setPte a (v % 2 ^ 9) x).pte m j = if m = a ∧ j = v % 2 ^ 9 then x else s.pte m j :=
  pte_setPte (Nat.mod_lt _ (by decide)) hx m j

/-- A PTE of the lowest level is written. -/
theorem node_setPte {q : List Nat} (hq : q.length ≤ 2) : (s.setPte a (v % 2 ^ 9) x).node r q = s.node r q := by
  refine Radix.node_leaf h.proper hp (by simp [path]) (by simp [path]) (i := v % 2 ^ 9) (fun m j _ hne => ?_) hq
  rw [pte_setLeaf hx, if_neg hne]

theorem inTable_setPte {m : Nat} : (s.setPte a (v % 2 ^ 9) x).InTable r m ↔ s.InTable r m := by
  constructor
  · rintro ⟨q, hq, hm⟩
    exact ⟨q, hq, (node_setPte h hp hx hq).symm.trans hm⟩
  · rintro ⟨q, hq, hm⟩
    exact ⟨q, hq, (node_setPte h hp hx hq).trans hm⟩

theorem leaf_setPte (hv : v < 2 ^ 27) {w : Nat} (hw : w < 2 ^ 27) : (s.setPte a (v % 2 ^ 9) x).leaf r w =
    if w = v then valid x else s.leaf r w := by
  rw [Ram.leaf, Ram.leaf, node_setPte h hp hx (by simp [path])]
  split
  · rename_i hwv
    rw [hwv, hp, Option.bind_some, pte_setLeaf hx, if_pos ⟨rfl, rfl⟩]
  · rename_i hne
    cases hm : s.node r (path w) with
    | none => simp only [Option.bind_none]
    | some m =>
      rw [Option.bind_some, Option.bind_some, pte_setLeaf hx, if_neg]
      rintro ⟨rfl, hidx⟩
      have hpath := h.proper (path w) (path v) m (by simp [path]) (by simp [path]) hm hp
      exact hne (path_inj hw hv hpath hidx)

theorem keeps_setPte (hs : s.Ok) : Keeps s (s.setPte a (v % 2 ^ 9) x) r where
  ok := ⟨hs.nodup, hs.ram⟩
  table := by
    refine ⟨?_, fun n hn => h.free n ((inTable_setPte h hp hx).mp hn), fun n hn => h.ram n ((inTable_setPte h hp hx).mp hn),
      fun q n j hq hn hV => ?_⟩
    · refine Radix.Proper.leaf h.proper hp (by simp [path]) (by simp [path]) (i := v % 2 ^ 9) fun m j _ hne => ?_
      rw [pte_setLeaf hx, if_neg hne]
    · rw [node_setPte h hp hx (Nat.le_of_lt hq)] at hn
      have hne : ¬ (n = a ∧ j = v % 2 ^ 9) := fun he => by
        have hpath := h.proper q (path v) n (Nat.le_of_lt hq) (by simp [path]) hn (he.1 ▸ hp)
        rw [hpath] at hq
        simp [path] at hq
      rw [pte_setLeaf hx, if_neg hne] at hV ⊢
      exact h.inner q n j hq hn hV
  nodes q n hq hn := (node_setPte h hp hx hq).trans hn
  fresh n hn := .inl ((inTable_setPte h hp hx).mp hn)
  list _ hn := hn
  used _ hn := .inl hn
  page n hn _ := page_setPage_other fun he => hn (he ▸ ⟨path v, by simp [path], hp⟩)
  kend := rfl

end

/-- The PTE for the page at `pa` with the permissions `perm`. -/
def mkPte (pa perm : Nat) : Nat := pa2pte pa ||| perm ||| PTE_V

theorem mkPte_or (pa perm : Nat) : mkPte pa perm = pa2pte pa ||| (perm ||| PTE_V) := Nat.or_assoc _ _ _

theorem or_valid_lt {perm : Nat} (h : perm < 2 ^ 10) : perm ||| PTE_V < 2 ^ 10 := Nat.or_lt_two_pow h (by decide)

theorem has_mkPte (pa perm : Nat) : has (mkPte pa perm) PTE_V = true := by
  rw [mkPte, has_or]
  simp [has]

theorem valid_mkPte (pa perm : Nat) : valid (mkPte pa perm) = some (mkPte pa perm) := if_pos (has_mkPte pa perm)

/-- The range `[v, v + k + 1)` as its first page and the rest. -/
theorem mapped_cons {v w k pa perm : Nat} {o : Option Nat} (hpa : pa < 2 ^ 64) :
    (if v + 1 ≤ w ∧ w < v + 1 + k then some (mkPte (((pa + PGSIZE) % 2 ^ 64 + (w - (v + 1)) * PGSIZE) % 2 ^ 64) perm)
      else if w = v then some (mkPte pa perm) else o) =
    if v ≤ w ∧ w < v + (k + 1) then some (mkPte ((pa + (w - v) * PGSIZE) % 2 ^ 64) perm) else o := by
  by_cases hwv : w = v
  · subst hwv
    rw [if_neg (by omega), if_pos rfl, if_pos (by omega), Nat.sub_self, Nat.zero_mul, Nat.add_zero,
      Nat.mod_eq_of_lt hpa]
  · rw [if_neg hwv]
    by_cases hin : v + 1 ≤ w ∧ w < v + 1 + k
    · have hsum : ((pa + PGSIZE) % 2 ^ 64 + (w - (v + 1)) * PGSIZE) % 2 ^ 64 = (pa + (w - v) * PGSIZE) % 2 ^ 64 := by
        simp only [PGSIZE]
        omega
      rw [if_pos hin, if_pos (by omega), hsum]
    · rw [if_neg hin, if_neg (by omega)]

/-- One turn of the loop of mappages(), and the turns after it. -/
theorem mappagesLoop_maps (n : Nat) {v pa perm : Nat} (hs : s.Ok) (h : Table s r) (hn : 0 < n) (hv : v + n ≤ 2 ^ 26)
    (hpa : pa < 2 ^ 64) (hperm : perm < 2 ^ 10) (hfree : ∀ w, v ≤ w → w < v + n → s.leaf r w = none) :
    Runs (mappagesLoop r ((v + n - 1) * PGSIZE) perm n (v * PGSIZE) pa) s (fun res t => Keeps s t r ∧
      ∃ k ≤ n, (res = 0 ∧ k = n ∨ res = -1 ∧ k < n) ∧ ∀ w < 2 ^ 27, t.leaf r w =
        if v ≤ w ∧ w < v + k then some (mkPte ((pa + (w - v) * PGSIZE) % 2 ^ 64) perm) else s.leaf r w) := by
  induction n generalizing s v pa with
  | zero => omega
  | succ n ih =>
    rw [mappagesLoop]
    have hva : v * PGSIZE < MAXVA := by
      simp only [PGSIZE, MAXVA]
      omega
    have hdiv : v * PGSIZE / PGSIZE = v := Nat.mul_div_cancel _ (by decide)
    refine (walk_builds hs h hva).bind fun o t ⟨hb, ho⟩ => ?_
    cases o with
    | none =>
      refine runs_pure ⟨hb.keeps, 0, Nat.zero_le _, .inr ⟨rfl, Nat.succ_pos n⟩, fun w _ => ?_⟩
      rw [if_neg (by omega)]
      exact hb.leaf w
    | some ai =>
      obtain ⟨a, i⟩ := ai
      obtain ⟨hnode, hi⟩ := ho a i rfl
      rw [hdiv] at hnode hi
      subst hi
      have hleaf := hb.leaf v
      rw [hfree v (Nat.le_refl v) (by omega), Ram.leaf, hnode, Option.bind_some] at hleaf
      refine runs_getPte (.ite (fun hV => ?_) fun _ => runs_setPte ?_)
      · rw [valid, if_pos hV] at hleaf
        cases hleaf
      · have hx : mkPte pa perm < 2 ^ 64 := by
          rw [mkPte_or]
          exact mkPte_lt hpa (or_valid_lt hperm)
        have hk := hb.keeps.trans (keeps_setPte hb.keeps.table hnode hx hb.keeps.ok)
        have hset : ∀ w < 2 ^ 27, (t.setPte a (v % 2 ^ 9) (mkPte pa perm)).leaf r w =
            if w = v then some (mkPte pa perm) else s.leaf r w := fun w hw => by
          rw [leaf_setPte hb.keeps.table hnode hx (by omega) hw, valid_mkPte, hb.leaf]
        change Runs _ (t.setPte a (v % 2 ^ 9) (mkPte pa perm)) _
        generalize t.setPte a (v % 2 ^ 9) (mkPte pa perm) = u at hk hset ⊢
        refine .ite (fun hlast => runs_pure ⟨hk, n + 1, Nat.le_refl _, .inl ⟨rfl, rfl⟩, fun w hw => ?_⟩) fun hlast => ?_
        · have hn0 : n = 0 := by
            rw [PGSIZE] at hlast
            omega
          have hnone : ¬ (v + 1 ≤ w ∧ w < v + 1 + 0) := by omega
          rw [hset w hw, hn0, ← mapped_cons hpa, if_neg hnone]
        · have hn0 : 0 < n := Nat.pos_of_ne_zero fun h0 => hlast (by simp [h0])
          have hnext : (v * PGSIZE + PGSIZE) % 2 ^ 64 = (v + 1) * PGSIZE := by
            simp only [PGSIZE]
            omega
          have hend : v + (n + 1) - 1 = v + 1 + n - 1 := by omega
          rw [hnext, hend]
          refine (ih hk.ok hk.table hn0 (by omega) (Nat.mod_lt _ (by decide)) fun w hw hw' => ?_).mono
            fun res t' ⟨hk', k, hle, hres, hleaf'⟩ => ⟨hk.trans hk', k + 1, by omega, by omega, fun w hw => ?_⟩
          · rw [hset w (by omega), if_neg (by omega)]
            exact hfree w (by omega) (by omega)
          · rw [hleaf' w hw, hset w hw, mapped_cons hpa]

end

end Xv6.Vm
