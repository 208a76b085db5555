import Xv6.Proofs.PageMap

namespace Xv6.Vm

/- freewalk() -/

/-- The pages that `P` names have been freed. -/
structure Freed (s t : Ram) (P : Nat → Prop) : Prop where
  ok : t.Ok
  page : ∀ n, ¬ P n → t.page n = s.page n
  list : ∀ n, n ∈ t.freelist ↔ n ∈ s.freelist ∨ P n
  kend : t.kend = s.kend

/-- A tree of tables with no valid entry in its lowest level. -/
structure Bare (s : Ram) (r d : Nat) : Prop where
  proper : Radix.Proper kid s.pte r d
  ram : ∀ n, Radix.InTree kid s.pte r d n → s.InRam n
  inner : ∀ p n i, p.length < d → s.node r p = some n → has (s.pte n i) PTE_V = true → pteFlags (s.pte n i) = PTE_V
  bare : ∀ p n i, p.length = d → s.node r p = some n → has (s.pte n i) PTE_V = false

section
variable {s t u : Ram} {r d i c : Nat}

theorem kid_some (h : kid (s.pte r i) = some c) : has (s.pte r i) PTE_V = true ∧ frame (s.pte r i) = c := by
  rw [kid] at h
  split at h
  · exact ⟨‹_›, Option.some.inj h⟩
  · cases h

theorem Bare.child (h : Bare s r (d + 1)) (hc : kid (s.pte r i) = some c) : Bare s c d where
  proper := h.proper.child hc
  ram n hn := h.ram n (.child hc hn)
  inner p n j hp hn hV := by
    refine h.inner (i :: p) n j (Nat.succ_lt_succ hp) ?_ hV
    rw [Ram.node, Radix.node, hc]
    exact hn
  bare p n j hp hn := by
    refine h.bare (i :: p) n j (congrArg (· + 1) hp) ?_
    rw [Ram.node, Radix.node, hc]
    exact hn

theorem Bare.agree (h : Bare s r d) (hsame : ∀ n, Radix.InTree kid s.pte r d n → t.page n = s.page n)
    (hk : t.kend = s.kend) : Bare t r d := by
  have hpte : ∀ n, Radix.InTree kid s.pte r d n → t.pte n = s.pte n := fun n hn => funext fun _ => pte_of_page (hsame n hn)
  have hnode : ∀ q, q.length ≤ d → t.node r q = s.node r q := fun q hq =>
    Radix.node_of_same hpte (Nat.le_succ_of_le hq)
  refine ⟨h.proper.of_same hpte, fun n ⟨q, hq, hn⟩ => ?_, fun p n i hp hn hV => ?_, fun p n i hp hn => ?_⟩
  · rw [Ram.InRam, hk]
    exact h.ram n ⟨q, hq, (hnode q hq).symm.trans hn⟩
  · rw [hnode p (Nat.le_of_lt hp)] at hn
    rw [hpte n ⟨p, Nat.le_of_lt hp, hn⟩] at hV ⊢
    exact h.inner p n i hp hn hV
  · rw [hnode p (Nat.le_of_eq hp)] at hn
    rw [hpte n ⟨p, Nat.le_of_eq hp, hn⟩]
    exact h.bare p n i hp hn

theorem inTree_agree (hsame : ∀ n, Radix.InTree kid s.pte r d n → t.page n = s.page n) (n : Nat) :
    Radix.InTree kid t.pte r d n ↔ Radix.InTree kid s.pte r d n := by
  have hpte : ∀ n, Radix.InTree kid s.pte r d n → t.pte n = s.pte n := fun n hn => funext fun _ => pte_of_page (hsame n hn)
  refine exists_congr fun q => and_congr_right fun hq => ?_
  rw [Radix.node_of_same hpte (Nat.le_succ_of_le hq)]

/-- The pages below the first `i` entries of `r`. -/
def Below (s : Ram) (r d i n : Nat) : Prop :=
  ∃ j < i, ∃ c, kid (s.pte r j) = some c ∧ Radix.InTree kid s.pte c d n

/-- Where the loop of freewalk() is at entry `i`. -/
structure Walking (s t : Ram) (r d i : Nat) : Prop where
  ok : t.Ok
  page : ∀ n, n ≠ r → ¬ Below s r d i n → t.page n = s.page n
  pte : ∀ j, i ≤ j → t.pte r j = s.pte r j
  list : ∀ n, n ∈ t.freelist ↔ n ∈ s.freelist ∨ Below s r d i n
  kend : t.kend = s.kend

theorem below_succ {n : Nat} : Below s r d (i + 1) n ↔
    Below s r d i n ∨ ∃ c, kid (s.pte r i) = some c ∧ Radix.InTree kid s.pte c d n := by
  constructor
  · rintro ⟨j, hj, c, hc, hn⟩
    rcases Nat.lt_or_eq_of_le (Nat.le_of_lt_succ hj) with hlt | rfl
    · exact .inl ⟨j, hlt, c, hc, hn⟩
    · exact .inr ⟨c, hc, hn⟩
  · rintro (⟨j, hj, c, hc, hn⟩ | ⟨c, hc, hn⟩)
    · exact ⟨j, Nat.lt_succ_of_lt hj, c, hc, hn⟩
    · exact ⟨i, Nat.lt_succ_self i, c, hc, hn⟩

theorem Walking.skip (h : Walking s t r d i) (hk : kid (s.pte r i) = none) : Walking s t r d (i + 1) := by
  have hbelow : ∀ n, Below s r d (i + 1) n ↔ Below s r d i n := fun n => by
    rw [below_succ, hk]
    simp
  refine ⟨h.ok, fun n hr hn => h.page n hr (mt (hbelow n).mpr hn), fun j hj => h.pte j (Nat.le_of_succ_le hj), fun n => ?_,
    h.kend⟩
  rw [hbelow, h.list]

/-- Entry `i` leads to a table, which is freed; then the entry is cleared. -/
theorem Walking.clear (h : Walking s t r d i) (hr : Radix.Proper kid s.pte r (d + 1)) (hi : i < 512)
    (hc : kid (s.pte r i) = some c) (hf : Freed t u (Radix.InTree kid s.pte c d)) :
    Walking s (u.setPte r i 0) r d (i + 1) := by
  have hrc := hr.not_below hc
  have hlist : ∀ n, n ∈ (u.setPte r i 0).freelist ↔ n ∈ s.freelist ∨ Below s r d (i + 1) n := fun n => by
    change n ∈ u.freelist ↔ _
    rw [hf.list, h.list, below_succ, hc]
    simp [or_assoc]
  refine ⟨⟨hf.ok.nodup, hf.ok.ram⟩, fun n hn hb => ?_, fun j hj => ?_, hlist, hf.kend.trans h.kend⟩
  · rw [below_succ, hc] at hb
    rw [Ram.setPte, page_setPage_other hn, hf.page n fun hin => hb (.inr ⟨c, rfl, hin⟩), h.page n hn fun hin => hb (.inl hin)]
  · rw [pte_setPte hi (by decide), if_neg (by omega), pte_of_page (hf.page r hrc), h.pte j (by omega)]

theorem has_inner {pte : Nat} (h : pteFlags pte = PTE_V) : has pte (PTE_R ||| PTE_W ||| PTE_X) = false := by
  rw [← has_flags pte (by decide), h]
  decide

/-- The turns of freewalk(), when it frees the tables below. -/
theorem freewalkLoop_walks {freeChild : Nat → VmM Unit} (hb : Bare s r (d + 1))
    (hfree : ∀ n, Radix.InTree kid s.pte r (d + 1) n → n ∉ s.freelist)
    (hchild : ∀ c u, Bare u c d → u.Ok → (∀ n, Radix.InTree kid u.pte c d n → n ∉ u.freelist) →
      Runs (freeChild c) u (fun _ w => Freed u w (Radix.InTree kid u.pte c d)))
    (n : Nat) (hn : n + i = 512) (h : Walking s t r d i) :
    Runs (freewalkLoop freeChild r n i) t (fun _ u => Walking s u r d 512) := by
  induction n generalizing t i with
  | zero =>
    obtain rfl : i = 512 := by omega
    exact runs_pure h
  | succ n ih =>
    refine runs_getPte ?_
    rw [h.pte i (Nat.le_refl i)]
    cases hc : kid (s.pte r i) with
    | none =>
      have hV : ¬ has (s.pte r i) PTE_V = true := fun hV => by
        rw [kid, if_pos hV] at hc
        cases hc
      rw [if_neg (fun h => hV h.1), if_neg hV]
      exact ih (by omega) (h.skip hc)
    | some c =>
      obtain ⟨hV, hframe⟩ := kid_some hc
      have hflags := hb.inner [] r i (Nat.succ_pos d) rfl hV
      have hsame : ∀ m, Radix.InTree kid s.pte c d m → t.page m = s.page m := fun m hm => by
        refine h.page m (fun he => hb.proper.not_below hc (he ▸ hm)) ?_
        rintro ⟨j, hj, c', hc', hm'⟩
        exact hb.proper.kids_disjoint hc hc' (by omega) hm hm'
      have hbare := (hb.child hc).agree hsame h.kend
      have hnot : ∀ m, Radix.InTree kid t.pte c d m → m ∉ t.freelist := fun m hm hin => by
        rw [inTree_agree hsame] at hm
        rcases (h.list m).mp hin with hin | ⟨j, hj, c', hc', hm'⟩
        · exact hfree m (.child hc hm) hin
        · exact hb.proper.kids_disjoint hc hc' (by omega) hm hm'
      rw [if_pos ⟨hV, has_inner hflags⟩]
      change Runs (freeChild (frame (s.pte r i)) >>= _) t _
      rw [hframe]
      refine (hchild c t hbare h.ok hnot).bind fun _ u hf => runs_setPte (ih (by omega) ?_)
      refine h.clear hb.proper (by omega) hc ⟨hf.ok, fun m hm => hf.page m (mt (inTree_agree hsame m).mp hm), fun m => ?_, hf.kend⟩
      rw [hf.list, inTree_agree hsame]

/-- The turns of freewalk() in a table of the lowest level. -/
theorem freewalkLoop_idle {freeChild : Nat → VmM Unit} (hV : ∀ j, has (s.pte r j) PTE_V = false) (n : Nat) :
    freewalkLoop freeChild r n i s = .ok () s := by
  induction n generalizing i with
  | zero => rfl
  | succ n ih =>
    rw [freewalkLoop, run_bind]
    simp only [getPte, hV, Bool.false_eq_true, false_and, if_false]
    exact ih

theorem pte_high (s : Ram) (m : Nat) (hi : 512 ≤ i) : s.pte m i = 0 := by
  have hbyte : ∀ o, (s.page m).byteAt (8 * i + o) = 0 := fun o => dif_neg (by rw [PGSIZE]; omega)
  simp [Ram.pte, ByteArr.get, hbyte, Bytes.ofLe, List.range_succ]

theorem below_all {n : Nat} : Below s r d 512 n ↔ ∃ j c, kid (s.pte r j) = some c ∧ Radix.InTree kid s.pte c d n := by
  constructor
  · rintro ⟨j, -, c, hc, hn⟩
    exact ⟨j, c, hc, hn⟩
  · rintro ⟨j, c, hc, hn⟩
    refine ⟨j, ?_, c, hc, hn⟩
    by_contra hj
    rw [pte_high s r (Nat.not_lt.mp hj)] at hc
    simp [kid, has] at hc

/-- kfree() of the root, after the tables below it. -/
theorem freed_give {P : Nat → Prop} (hok : t.Ok) (hpage : ∀ n, n ≠ r → ¬ P n → t.page n = s.page n)
    (hlist : ∀ n, n ∈ t.freelist ↔ n ∈ s.freelist ∨ P n) (hkend : t.kend = s.kend) (hram : t.InRam r)
    (hr : r ∉ t.freelist) : Freed s (t.give r) (fun n => n = r ∨ P n) := by
  refine ⟨⟨List.nodup_cons.mpr ⟨hr, hok.nodup⟩, fun n hn => ?_⟩, fun n hn => ?_, fun n => ?_, hkend⟩
  · rcases List.mem_cons.mp hn with rfl | hn
    · exact hram
    · exact hok.ram n hn
  · rw [not_or] at hn
    exact (page_setPage_other hn.1).trans (hpage n hn.1 hn.2)
  · change n ∈ r :: t.freelist ↔ _
    rw [List.mem_cons, hlist, or_left_comm]

theorem Freed.congr {P Q : Nat → Prop} (h : Freed s t P) (hQ : ∀ n, Q n ↔ P n) : Freed s t Q :=
  ⟨h.ok, fun n hn => h.page n (mt (hQ n).mpr hn), fun n => by rw [h.list, hQ], h.kend⟩

end

/-- freewalk() frees every table of a tree that maps nothing. -/
theorem freewalkFrom_frees (d : Nat) {s : Ram} {r : Nat} (hb : Bare s r d) (hs : s.Ok)
    (hfree : ∀ n, Radix.InTree kid s.pte r d n → n ∉ s.freelist) :
    Runs (freewalkFrom (d + 1) r) s (fun _ t => Freed s t (Radix.InTree kid s.pte r d)) := by
  have hram := hb.ram r .root
  induction d generalizing s r with
  | zero =>
    refine runs_step (freewalkLoop_idle (fun j => hb.bare [] r j rfl rfl) 512) ?_
    refine ⟨_, _, kfree_gives hram, ?_⟩
    have hgive : Freed s (s.give r) (fun n => n = r ∨ False) :=
      freed_give hs (fun _ _ _ => rfl) (fun _ => by simp) rfl hram (hfree r .root)
    exact hgive.congr fun n => by rw [Radix.inTree_zero, or_false]
  | succ d ih =>
    have hstart : Walking s s r d 0 := by
      refine ⟨hs, fun _ _ _ => rfl, fun _ _ => rfl, fun n => ?_, rfl⟩
      simp [Below]
    refine (freewalkLoop_walks hb hfree (fun c u hbu hu hnot => ih hbu hu hnot (hbu.ram c .root)) 512 rfl hstart).bind
      fun _ t h => ?_
    have hramt : t.InRam r := by
      rw [Ram.InRam, h.kend]
      exact hram
    refine ⟨_, _, kfree_gives hramt, ?_⟩
    have hr : r ∉ t.freelist := fun hin => by
      rcases (h.list r).mp hin with hin | ⟨j, -, c, hc, hn⟩
      · exact hfree r .root hin
      · exact hb.proper.not_below hc hn
    refine (freed_give h.ok h.page h.list h.kend hramt hr).congr fun n => ?_
    rw [Radix.inTree_succ, below_all]

/-- A table with no valid entry in its lowest level. -/
theorem Table.bare {s : Ram} {r : Nat} (h : Table s r) (hleaf : ∀ v < 2 ^ 27, s.leaf r v = none) : Bare s r 2 := by
  refine ⟨h.proper, h.ram, h.inner, fun p n i hp hn => ?_⟩
  match p, hp with
  | [a, b], _ =>
    have hn' := hn
    simp only [Ram.node, Radix.node, Option.bind_eq_some_iff] at hn'
    obtain ⟨m, hm, k, hk, -⟩ := hn'
    have hlt : ∀ {x j c : Nat}, kid (s.pte x j) = some c → j < 512 := fun {x j c} hc => by
      by_contra hj
      rw [pte_high s x (Nat.not_lt.mp hj)] at hc
      simp [kid, has] at hc
    have ha := hlt hm
    have hb := hlt hk
    by_cases hi : i < 512
    · have hpath : path (a * 2 ^ 18 + b * 2 ^ 9 + i) = [a, b] := by
        simp only [path, List.cons.injEq, and_true]
        omega
      have hidx : (a * 2 ^ 18 + b * 2 ^ 9 + i) % 2 ^ 9 = i := by omega
      have hl := hleaf (a * 2 ^ 18 + b * 2 ^ 9 + i) (by omega)
      rw [leaf_of_node (hpath ▸ hn), hidx, valid] at hl
      cases hV : has (s.pte n i) PTE_V with
      | false => rfl
      | true =>
        rw [hV, if_pos rfl] at hl
        cases hl
    · rw [pte_high s n (Nat.not_lt.mp hi)]
      rfl

theorem freewalk_frees {s : Ram} {r : Nat} (hs : s.Ok) (h : Table s r) (hleaf : ∀ v < 2 ^ 27, s.leaf r v = none) :
    Runs (freewalk r) s (fun _ t => Freed s t (s.InTable r)) :=
  freewalkFrom_frees 2 (h.bare hleaf) hs h.free

end Xv6.Vm
