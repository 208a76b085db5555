import Xv6.Proofs.ProcSpace

namespace Xv6.Vm

/- Two address spaces. -/

/-- The spaces at `r` and `q` have no page in common. -/
def Apart (s : Ram) (r q : Nat) : Prop := ∀ n, s.Owns r n → ¬ s.Owns q n

section
variable {s t u : Ram} {r q np v : Nat}

theorem Space.fronts (h : Space s r np) {n : Nat} (hn : s.Fronts r n) : ∃ v < np, ∃ pte, s.leaf r v = some pte ∧ frame pte = n := by
  obtain ⟨v, hv, pte, hl, he⟩ := hn
  refine ⟨v, ?_, pte, hl, he⟩
  by_contra hnot
  rw [h.rest v (Nat.not_lt.mp hnot) hv] at hl
  cases hl

/-- What a process owns is not free. -/
theorem Space.not_free (h : Space s r np) {n : Nat} (hn : s.Owns r n) : n ∉ s.freelist := by
  rcases hn with hn | hn
  · exact h.table.free n hn
  · obtain ⟨v, hv, pte, hl, rfl⟩ := h.fronts hn
    obtain ⟨pte', hl', -, -, -, hfree⟩ := h.leaf hv
    cases hl.symm.trans hl'
    exact hfree

/-- What the space at `r` owns stays as it is while only the space at `q` changes. -/
structure Untouched (s t : Ram) (r : Nat) : Prop where
  page : ∀ n, s.Owns r n → t.page n = s.page n
  free : ∀ n, s.Owns r n → n ∉ t.freelist

theorem Local.untouched (hl : Local s t q) (h : Space s r np) (ha : Apart s r q) : Untouched s t r := by
  refine ⟨fun n hn => hl.page n (h.not_free hn) (ha n hn), fun n hn hin => ?_⟩
  rcases (hl.held n).mp (.inl hin) with hin | hin
  · exact h.not_free hn hin
  · exact ha n hn hin

namespace Untouched
variable (hu : Untouched s t r)
include hu

theorem leaf (v : Nat) : t.leaf r v = s.leaf r v := leaf_of_agree (fun n hn => hu.page n (.inl hn)) v

theorem owns (n : Nat) : t.Owns r n ↔ s.Owns r n := by
  have hfront : t.Fronts r n ↔ s.Fronts r n := exists_congr fun v => by rw [hu.leaf]
  rw [Ram.Owns, Ram.Owns, hfront, inTable_of_agree fun n hn => hu.page n (.inl hn)]

theorem space (h : Space s r np) (ht : t.Ok) (hk : t.kend = s.kend) : Space t r np where
  ok := ht
  table := table_of_agree (fun n hn => hu.page n (.inl hn)) h.table (fun n hn => hu.free n (.inl hn)) hk
  mapped v hv := by
    obtain ⟨pte, hl, hf, hram, -⟩ := h.leaf hv
    refine ⟨pte, (hu.leaf v).trans hl, hf, fun _ => ?_⟩
    rw [Ram.InRam, hk]
    exact hram
  sole := by
    have hlt := h.lt
    refine ⟨fun w hb pte hw hw' hl hin => ?_, fun w hb pte hw hw' hl hin => ?_,
      fun w hb w' hb' pte pte' hw hw' hx hx' hl hl' => ?_⟩
    · rw [hu.leaf] at hl
      exact h.sole.table w hb pte hw hw' hl ((inTable_of_agree fun n hn => hu.page n (.inl hn)).mp hin)
    · rw [hu.leaf] at hl
      exact hu.free _ (.inr ⟨w, by omega, pte, hl, rfl⟩) hin
    · rw [hu.leaf] at hl hl'
      exact h.sole.inj w hb w' hb' pte pte' hw hw' hx hx' hl hl'
  rest v hv hv' := (hu.leaf v).trans (h.rest v hv hv')

end Untouched

theorem Local.apart (hl : Local s t q) (h : Space s r np) (ha : Apart s r q) : Apart t r q := by
  intro n hn hn'
  have hu := hl.untouched h ha
  rw [hu.owns] at hn
  rcases (hl.held n).mp (.inr hn') with hin | hin
  · exact h.not_free hn hin
  · exact ha n hn hin

end

theorem Created.untouched {s t : Ram} {r q np : Nat} (hc : Created s t q) (h : Space s r np) : Untouched s t r :=
  ⟨fun n hn => hc.page n (h.not_free hn), fun n hn hin => h.not_free hn ((hc.held n).mp (.inl hin))⟩

theorem Created.apart {s t : Ram} {r q np : Nat} (hc : Created s t q) (h : Space s r np) : Apart t r q := fun n hn hn' =>
  h.not_free (((hc.untouched h).owns n).mp hn) ((hc.held n).mp (.inr hn'))

/- uvmcopy() -/

theorem or_valid {x : Nat} (h : has x PTE_V = true) : x ||| PTE_V = x := by
  refine Nat.eq_of_testBit_eq fun i => ?_
  rw [Nat.testBit_or]
  cases i with
  | zero =>
    have h0 : x.testBit 0 = true := by
      rw [Nat.testBit_zero, decide_eq_true_iff]
      simp only [has, PTE_V, bne_iff_ne, Nat.shiftLeft_zero, Nat.and_one_is_mod] at h
      omega
    rw [h0]
    rfl
  | succ i => simp [PTE_V, Nat.testBit_succ]

section
variable {s t u : Ram} {old new np v sz : Nat}

/-- The first `v` pages have been copied. -/
structure Copied (s t : Ram) (old new v : Nat) : Prop where
  child : Space t new v
  copies : ∀ w < v, ∀ pte, s.leaf old w = some pte → ∃ pte', t.leaf new w = some pte' ∧
    pteFlags pte' = pteFlags pte ∧ t.page (frame pte') = s.page (frame pte)
  top : ∀ w < 2 ^ 27, TOP ≤ w → t.leaf new w = s.leaf new w
  isLocal : Local s t new

/-- The copies have been given back. -/
structure Undone (s t : Ram) (new : Nat) : Prop where
  child : Space t new 0
  top : ∀ w < 2 ^ 27, TOP ≤ w → t.leaf new w = s.leaf new w
  isLocal : Local s t new

theorem Copied.undo (h : Copied s t old new v) :
    Runs (uvmunmap new 0 (v * PGSIZE / PGSIZE) true) t (fun _ u => Undone s u new) := by
  have hu := h.child.uvmunmap (Nat.zero_le v)
  rw [Nat.zero_mul, Nat.sub_zero] at hu
  rw [Nat.mul_div_cancel _ (by decide)]
  exact hu.mono fun _ u ⟨hsp, hk, hl⟩ =>
    ⟨hsp, fun w hw hw' => (hk.leaf w hw (.inr hw')).trans (h.top w hw hw'), h.isLocal.trans hl⟩

theorem Copied.of_step (h : Copied s t old new v) (hsp : Space u new v) (hk : Kept t u new v) (hl : Local t u new) :
    Copied s u old new v where
  child := hsp
  copies w hw pte hpte := by
    obtain ⟨pte', hl', hf, hp⟩ := h.copies w hw pte hpte
    exact ⟨pte', (hk.leaf w (Nat.lt_trans hw (Nat.lt_trans hsp.lt (by decide))) (.inl hw)).trans hl', hf,
      (hk.page w hw pte' hl').trans hp⟩
  top w hw hw' := (hk.leaf w hw (.inr hw')).trans (h.top w hw hw')
  isLocal := h.isLocal.trans hl

/-- One more page. -/
theorem Copied.snoc {mem pte : Nat} (h : Copied s t old new v) (ha : Adds t u new v mem (pteFlags pte))
    (hl : Local t u new) (hpte : s.leaf old v = some pte) (hram : mem * PGSIZE < PHYSTOP)
    (hpage : u.page mem = s.page (frame pte)) : Copied s u old new (v + 1) where
  child := ha.space
  copies w hw x hx := by
    by_cases hwv : w = v
    · subst hwv
      obtain rfl : pte = x := Option.some.inj (hpte.symm.trans hx)
      obtain ⟨-, -, -, hV⟩ := leaf_some hpte
      have hflags : pteFlags pte ||| PTE_V = pteFlags pte := or_valid ((has_flags pte (by decide)).trans hV)
      have hlt : pteFlags pte < 2 ^ 10 := Nat.mod_lt _ (by decide)
      refine ⟨_, ha.leaf, ?_, ?_⟩
      · rw [mkPte_or, pteFlags_mkPte (or_valid_lt hlt), hflags]
      · rw [frame_mkPte hram hlt, hpage]
    · have hlt := h.child.lt
      have hmax : TOP < 2 ^ 26 := by decide
      obtain ⟨pte', hl', hf, hp⟩ := h.copies w (by omega) x hx
      exact ⟨pte', (ha.kept.leaf w (by omega) (.inl (by omega))).trans hl', hf, (ha.kept.page w (by omega) pte' hl').trans hp⟩
  top w hw hw' := (ha.kept.leaf w hw (.inr hw')).trans (h.top w hw hw')
  isLocal := h.isLocal.trans hl

/-- The loop of uvmcopy(). -/
theorem uvmcopyLoop_copies {fuel : Nat} (hp : Space s old (pages sz)) (ha : Apart s old new) (h : Copied s t old new v)
    (hv : v ≤ pages sz) (hfuel : pages sz - v < fuel) :
    Runs (uvmcopyLoop old new sz fuel (v * PGSIZE)) t (fun res u =>
      res = 0 ∧ Copied s u old new (pages sz) ∨ res = -1 ∧ Undone s u new) := by
  induction fuel generalizing t v with
  | zero => omega
  | succ fuel ih =>
    have hlt := hp.lt
    have hmax : TOP < 2 ^ 26 := by decide
    rw [uvmcopyLoop]
    refine .ite (fun hmore => ?_) fun hdone => runs_pure (.inl ⟨rfl, ?_⟩)
    · have hvlt : v < pages sz := by
        simp only [pages, PGSIZE] at hmore ⊢
        omega
      have hun := h.isLocal.untouched hp ha
      have hparent := hun.space hp h.child.ok h.isLocal.kend
      obtain ⟨pte, hpl, hpf, -, -, hpfree⟩ := hparent.leaf hvlt
      have hspte : s.leaf old v = some pte := (hun.leaf v).symm.trans hpl
      have hpage : t.page (frame pte) = s.page (frame pte) := hun.page _ (.inr ⟨v, by omega, pte, hspte, rfl⟩)
      obtain ⟨a, hn, hpte, hV⟩ := leaf_some hpl
      have hva : v * PGSIZE < MAXVA := by
        simp only [PGSIZE, MAXVA]
        omega
      have hw := walk_find t old hva
      rw [Nat.mul_div_cancel _ (by decide), hn, Option.map_some] at hw
      refine runs_step hw (runs_getPte ?_)
      rw [hpte, if_neg (by rw [hV]; decide)]
      rcases kalloc_cases t with hk | ⟨mem, rest, hl, hk⟩
      · have hdeny : Copied s { t with deny := t.deny.tail } old new v :=
          ⟨h.child.deny _, h.copies, h.top, h.isLocal.page, h.isLocal.held, h.isLocal.kend⟩
        exact runs_step hk (hdeny.undo.bind fun _ u hu => runs_pure (.inr ⟨rfl, hu⟩))
      · have hmem : mem ∈ t.freelist := by
          rw [hl]
          exact List.mem_cons_self
        refine runs_step hk (runs_getPage (runs_setPage ?_))
        generalize htu : Ram.setPage _ mem _ = t'
        have hg : Gets t t' mem := by
          subst htu
          exact ⟨hl, fun n hn => (page_setPage_other hn).trans (page_setPage_other hn), rfl⟩
        have hcopy : t'.page mem = s.page (frame pte) := by
          subst htu
          have hne : frame pte ≠ mem := fun he => hpfree (he ▸ hmem)
          rw [page_setPage, ← hpage]
          exact page_setPage_other hne
        have hflt : pteFlags pte < 2 ^ 10 := Nat.mod_lt _ (by decide)
        have hflags : pteFlags pte ||| PTE_V ≠ PTE_V := by
          rw [or_valid ((has_flags pte (by decide)).trans hV)]
          exact hpf
        refine (h.child.mapPage hg hflt hflags).bind fun res u hu => ?_
        obtain ⟨hku, hres⟩ := hu
        rcases hres with ⟨rfl, hadd, hloc⟩ | ⟨rfl, hram, hsp, hkept, hloc⟩
        · have hnext : (v * PGSIZE + PGSIZE) % 2 ^ 64 = (v + 1) * PGSIZE := by
            simp only [PGSIZE]
            omega
          have hu : u.page mem = s.page (frame pte) := by
            rw [hku.page mem (hg.not_inTable h.child.table) (hg.not_free h.child.ok), hcopy]
          rw [if_neg (by decide), hnext]
          exact ih (h.snoc hadd hloc hspte (h.child.ok.ram mem hmem).2 hu) (by omega) (by omega)
        · rw [if_pos (by decide)]
          exact runs_step (kfree_gives hram) ((h.of_step hsp hkept hloc).undo.bind fun _ u hu => runs_pure (.inr ⟨rfl, hu⟩))
    · have hv' : v = pages sz := by
        refine Nat.le_antisymm hv ?_
        simp only [pages, PGSIZE] at hdone ⊢
        omega
      exact hv' ▸ h

/-- What fork() needs of memory: the space of the parent, a new one for the child, and the child's trapframe. -/
structure Forking (s : Ram) (old new sz tf : Nat) : Prop where
  parent : Space s old (pages sz)
  child : Layout s new 0 tf
  apart : Apart s old new
  kend : 0 < s.kend
  ram : s.InRam tf
  free : tf ∉ s.freelist
  own : ¬ s.Owns new tf

/-- The parent is as it was. -/
structure ParentSame (s t : Ram) (old : Nat) : Prop where
  leaf : ∀ v, t.leaf old v = s.leaf old v
  page : ∀ n, s.Owns old n → t.page n = s.page n

/-- The child has a copy of every page, with the same flags, in a page of its own. -/
structure ChildCopy (s t : Ram) (old new np : Nat) : Prop where
  space : Space t new np
  copies : ∀ v < np, ∃ pte pte', s.leaf old v = some pte ∧ t.leaf new v = some pte' ∧ pteFlags pte' = pteFlags pte ∧
    t.page (frame pte') = s.page (frame pte) ∧ ¬ t.Owns old (frame pte')
  inj : ∀ v < np, ∀ w < np, ∀ pte pte', t.leaf new v = some pte → t.leaf new w = some pte' → frame pte = frame pte' → v = w

/-- The child has no page, and the pages that were taken for copies are free again. -/
structure ChildEmpty (s t : Ram) (new : Nat) : Prop where
  leaf : ∀ v < TOP, t.leaf new v = none
  freed : ∀ n ∈ s.freelist, n ∈ t.freelist ∨ t.InTable new n

theorem Undone.freed (h : Undone s t new) (n : Nat) (hn : n ∈ s.freelist) : n ∈ t.freelist ∨ t.InTable new n := by
  rcases (h.isLocal.held n).mpr (.inl hn) with hn | hn | ⟨v, hv, pte, hl, -⟩
  · exact .inl hn
  · exact .inr hn
  · rw [h.child.rest v (Nat.zero_le v) hv] at hl
    cases hl

/-- freeproc() of the child after a copy that has failed. -/
theorem Forking.freeproc {tf : Nat} (h : Forking s old new sz tf) (hu : Undone s t new) :
    Runs (Vm.freeproc ⟨0, new, tf * PGSIZE⟩) t (fun p u => p = ⟨0, 0, 0⟩ ∧
      ∀ n, n ∈ u.freelist ↔ n ∈ s.freelist ∨ s.Owns new n ∨ n = tf) := by
  have hlay := h.child.of_top hu.child hu.top
  have hpos : ∀ n, s.InRam n → n ≠ 0 := by
    rintro n hn rfl
    have := hn.1
    have := h.kend
    omega
  have hnot := mt (hu.isLocal.held tf).mp (not_or_intro h.free h.own)
  have hram : t.InRam tf := by
    rw [Ram.InRam, hu.isLocal.kend]
    exact h.ram
  refine (Layout.freeproc (show Layout t new (pages 0) tf from hlay) (hpos new (h.child.space.table.ram new .root)) (hpos tf h.ram) hram
    (fun hin => hnot (.inl hin)) fun hin => hnot (.inr hin)).mono fun p u hpu => ?_
  obtain ⟨hp, hr⟩ := hpu
  refine ⟨hp, fun n => ?_⟩
  rw [hr.list, or_left_comm, hu.isLocal.held, or_comm, or_assoc]

end

/-- The answer of a run, and the memory after it. -/
def answer (m : VmM α) (s : Ram) : Option α :=
  match m s with
  | .ok a _ => some a
  | _ => none

def after (m : VmM α) (s : Ram) : Ram :=
  match m s with
  | .ok _ t => t
  | _ => s

theorem Runs.after {α : Type} {m : VmM α} {s : Ram} {Q : α → Ram → Prop} {a : α} (h : Runs m s Q)
    (ha : answer m s = some a) : Q a (after m s) := by
  obtain ⟨b, t, he, hq⟩ := h
  rw [answer, he] at ha
  rw [Vm.after, he]
  exact Option.some.inj ha ▸ hq

/-- Sixteen free pages, after the trapframes of a parent and a child. -/
def bootRam : Ram := ⟨fun _ => .zero, (List.range 16).map (· + 0x80002), [], 0x80000000⟩

theorem ok_bootRam : bootRam.Ok := ⟨by decide, by decide⟩

/-- The parent has a table, then also a page; then the child has a table. -/
def parentTable : Ram := after (procPagetable 0x80000000 (0x80000 * PGSIZE)) bootRam
def parentPage : Ram := after (uvmalloc 0x80002 0 PGSIZE PTE_W) parentTable
def childTable : Ram := after (procPagetable 0x80000000 (0x80001 * PGSIZE)) parentPage

theorem parentPage_space : Space parentPage 0x80002 1 := by
  have h1 := (procPagetable_creates ok_bootRam (show 0x80000000 < 2 ^ 64 by decide) (show 0x80000 * PGSIZE < PHYSTOP by decide)).after
    (a := some 0x80002) (by decide +kernel)
  have hrun := h1.1.space.uvmallocLoop (Nat.le_refl 0) (show 0 ≤ pages PGSIZE by decide) (show pages PGSIZE - 0 < 3 by decide)
    (show PTE_W < 2 ^ 10 by decide)
  rcases hrun.after (a := PGSIZE) (by decide +kernel) with ⟨-, hsp, -⟩ | ⟨h0, -⟩
  · exact hsp
  · cases h0

theorem forking_childTable : Forking childTable 0x80002 0x80008 PGSIZE 0x80001 := by
  have hc := (procPagetable_creates parentPage_space.ok (show 0x80000000 < 2 ^ 64 by decide) (show 0x80001 * PGSIZE < PHYSTOP by decide)).after
    (a := some 0x80008) (by decide +kernel)
  have hnot : 0x80001 ∉ parentPage.freelist := by decide +kernel
  refine ⟨?_, hc.1, hc.2.apart parentPage_space, by decide +kernel, by decide +kernel, by decide +kernel, fun hown => ?_⟩
  · exact (hc.2.untouched parentPage_space).space parentPage_space hc.1.space.ok hc.2.kend
  · exact hnot ((hc.2.held _).mp (.inr hown))

end Xv6.Vm
