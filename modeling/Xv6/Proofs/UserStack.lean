import Xv6.Exec
import Xv6.Proofs.Sbrk
import Xv6.Proofs.ProcSpace

namespace Xv6.Vm

/- copyout() in the space of a process. -/

/-- The program may write its page `v`. -/
def Ram.MayWrite (s : Ram) (r v : Nat) : Prop :=
  ∃ pte, s.leaf r v = some pte ∧ has pte PTE_U = true ∧ has pte PTE_W = true

section
variable {s t u : Ram} {r np tf va v n : Nat} {src : List UInt8}

theorem userFrame_some {flags : List Nat} (h : s.userFrame r flags v = some n) :
    ∃ pte, s.leaf r v = some pte ∧ (∀ f ∈ flags, has pte f = true) ∧ frame pte = n := by
  simp only [Ram.userFrame, Option.bind_eq_some_iff] at h
  obtain ⟨pte, hl, hn⟩ := h
  split at hn
  · exact ⟨pte, hl, List.all_eq_true.mp ‹_›, Option.some.inj hn⟩
  · cases hn

/-- The trapframe and the trampoline are not for the program. -/
theorem Layout.user_page {flags : List Nat} (h : Layout s r np tf) (hv : v < 2 ^ 26) (hU : PTE_U ∈ flags)
    (hn : s.userFrame r flags v = some n) : v < TOP ∧ s.Fronts r n := by
  obtain ⟨pte, hl, hflags, rfl⟩ := userFrame_some hn
  have hbit : has (pteFlags pte) PTE_U = true := (has_flags pte (by decide)).trans (hflags PTE_U hU)
  have hlast : TOP + 1 = 2 ^ 26 - 1 := by decide
  have hlt : v < TOP := by
    by_contra hge
    rcases Nat.eq_or_lt_of_le (Nat.not_lt.mp hge) with rfl | hgt
    · obtain ⟨pte', hl', -, hf⟩ := h.trapframe
      cases hl.symm.trans hl'
      rw [hf] at hbit
      exact absurd hbit (by decide)
    · obtain rfl : v = TOP + 1 := by omega
      obtain ⟨pte', hl', hf⟩ := h.trampoline
      cases hl.symm.trans hl'
      rw [hf] at hbit
      exact absurd hbit (by decide)
  exact ⟨hlt, v, hlt, pte, hl, rfl⟩

/-- The table of a process is not for the program. -/
theorem Layout.closed (h : Layout s r np tf) : s.Closed r := by
  intro v hv n hn hin
  obtain ⟨-, w, hlt, pte, hl, rfl⟩ := h.user_page hv (by decide) hn
  obtain ⟨pte', hl', -, -, htab, -⟩ := h.space.leaf ((h.space.isSome hlt).mp (by simp [hl]))
  cases hl.symm.trans hl'
  exact htab hin

theorem page_eq_of_bytes (h : ∀ off < PGSIZE, t.byte (n * PGSIZE + off) = s.byte (n * PGSIZE + off)) :
    t.page n = s.page n := by
  funext i
  have := h i.val i.isLt
  rw [byte_page i.isLt, byte_page i.isLt] at this
  simpa [ByteArr.byteAt] using this

/-- The physical address of a byte of the program. -/
theorem writable_eq {pte : Nat} (hva : va < MAXVA) (hl : s.leaf r (va / PGSIZE) = some pte) (hU : has pte PTE_U = true)
    (hW : has pte PTE_W = true) : s.writable r va = some (frame pte * PGSIZE + va % PGSIZE) := by
  obtain ⟨-, -, -, hV⟩ := leaf_some hl
  have hf : s.userFrame r [PTE_V, PTE_U, PTE_W] (va / PGSIZE) = some (frame pte) := by
    rw [Ram.userFrame, hl, Option.bind_some, if_pos]
    simp only [List.all_cons, List.all_nil, hV, hU, hW, Bool.and_true]
  have := userAddr_eq (s := s) (r := r) writable_flags hva
  rw [hf, Option.map_some] at this
  exact this

/-- A copy that reaches only pages of the program. -/
structure CopiedOut (s t : Ram) (r np va : Nat) (src : List UInt8) : Prop where
  leaf : ∀ v, t.leaf r v = s.leaf r v
  load : ∀ a < np * PGSIZE, t.load r a = if va ≤ a ∧ a < va + src.length then src[a - va]? else s.load r a
  isLocal : Local s t r

theorem Layout.of_frames (h : Layout s r np tf) (hpage : ∀ n, ¬ s.Fronts r n → t.page n = s.page n)
    (hlist : t.freelist = s.freelist) (hk : t.kend = s.kend) :
    Layout t r np tf ∧ (∀ v, t.leaf r v = s.leaf r v) ∧ Local s t r := by
  have hsame : ∀ n, s.InTable r n → t.page n = s.page n := fun n hn => hpage n fun hf => by
    obtain ⟨v, hv, pte, hl, rfl⟩ := hf
    obtain ⟨pte', hl', -, -, htab, -⟩ := h.space.leaf ((h.space.isSome hv).mp (by simp [hl]))
    cases hl.symm.trans hl'
    exact htab hn
  have hleaf := leaf_of_agree hsame
  have hfront : ∀ n, t.Fronts r n ↔ s.Fronts r n := fun n => exists_congr fun v => by rw [hleaf]
  have htable : Table t r := table_of_agree hsame h.space.table (fun n hn => hlist ▸ h.space.table.free n hn) hk
  have hok : t.Ok := ⟨hlist ▸ h.space.ok.nodup, fun n hn => by
    rw [Ram.InRam, hk]
    exact h.space.ok.ram n (hlist ▸ hn)⟩
  have hsp : Space t r np := h.space.transfer hok htable (fun v _ => hleaf v)
    (fun n hn => .inl ((inTable_of_agree hsame).mp hn)) (fun n hn => hlist ▸ hn) hk
  refine ⟨⟨hsp, ?_, ?_, fun v hv hv' => (hleaf v).trans (h.high v hv hv')⟩, hleaf, fun n _ hn => ?_, fun n => ?_, hk⟩
  · rw [hleaf]
    exact h.trapframe
  · rw [hleaf]
    exact h.trampoline
  · exact hpage n fun hf => hn (.inr hf)
  · rw [Ram.Owns, Ram.Owns, hfront, inTable_of_agree hsame, hlist]

/-- The code that writes for the program reaches only pages of the program. -/
theorem Layout.writable_fronts {pa : Nat} (h : Layout s r np tf) (hw : s.writable r va = some pa) : s.Fronts r (pa / PGSIZE) := by
  rw [Ram.writable] at hw
  by_cases hva : va < MAXVA
  · rw [userAddr_eq writable_flags hva, Option.map_eq_some_iff] at hw
    obtain ⟨n, hn, rfl⟩ := hw
    rw [(page_addr (Nat.mod_lt va (show PGSIZE > 0 by decide))).1]
    exact (h.user_page (Nat.div_lt_of_lt_mul hva) (by decide) hn).2
  · rw [userAddr_top s r _ (Nat.not_lt.mp hva)] at hw
    cases hw

theorem Layout.stored {k : Nat} (h : Layout s r np tf) (hst : Stored (s.writable r) s t va src k) :
    Layout t r np tf ∧ (∀ v, t.leaf r v = s.leaf r v) ∧ Local s t r := by
  refine h.of_frames (fun n hn => page_eq_of_bytes fun off hoff => hst.others _ fun i _ he => hn ?_) hst.rest.1 hst.rest.2.2
  have := h.writable_fronts he
  rwa [(page_addr hoff).1] at this

/-- copyout() of anything to anywhere. -/
theorem Layout.copyout_keeps (h : Layout s r np tf) (va : Nat) (src : List UInt8) :
    Runs (Vm.copyout r va src) s (fun _ t => Layout t r np tf ∧ Local s t r) := by
  refine (copyoutLoop_stores h.closed (fun _ _ => rfl) (Nat.lt_succ_self _)).mono fun res t ht => ?_
  obtain ⟨k, hst, -⟩ := storeBytes_stored (s.writable r) src va s
  rw [ht] at hst
  obtain ⟨hlay, -, hloc⟩ := h.stored hst
  exact ⟨hlay, hloc⟩

theorem Layout.copyout (h : Layout s r np tf) (hend : va + src.length ≤ np * PGSIZE)
    (hw : ∀ i < src.length, s.MayWrite r ((va + i) / PGSIZE)) :
    Runs (Vm.copyout r va src) s (fun res t => res = 0 ∧ Layout t r np tf ∧ CopiedOut s t r np va src) := by
  have hnp := h.space.lt
  have hmax : ∀ a < np * PGSIZE, a < MAXVA := fun a ha => by
    simp only [TOP, TRAPFRAME, TRAMPOLINE, PGSIZE, MAXVA] at hnp ha ⊢
    omega
  have hpg : ∀ a < np * PGSIZE, a / PGSIZE < np := fun a ha => Nat.div_lt_of_lt_mul (by rwa [Nat.mul_comm])
  have htr : ∀ i < src.length, ∃ pte, s.leaf r ((va + i) / PGSIZE) = some pte ∧
      s.writable r (va + i) = some (frame pte * PGSIZE + (va + i) % PGSIZE) := fun i hi => by
    obtain ⟨pte, hl, hU, hW⟩ := hw i hi
    exact ⟨pte, hl, writable_eq (hmax _ (by omega)) hl hU hW⟩
  refine (copyoutLoop_stores h.closed (fun _ _ => rfl) (Nat.lt_succ_self _)).mono fun res t ht => ?_
  obtain ⟨k, hst, hres⟩ := storeBytes_stored (s.writable r) src va s
  rw [ht] at hst hres
  obtain ⟨rfl, rfl⟩ : res = 0 ∧ k = src.length := by
    rcases hres with h0 | ⟨-, hk, hnone⟩
    · exact h0
    · obtain ⟨pte, -, hsome⟩ := htr k hk
      cases hnone.symm.trans hsome
  obtain ⟨hlay, hleaf, hloc⟩ := h.stored hst
  refine ⟨rfl, hlay, hleaf, fun a ha => ?_, hloc⟩
  obtain ⟨pte, hl, -⟩ := h.space.leaf (hpg a ha)
  have hoff := Nat.mod_lt a (show PGSIZE > 0 by decide)
  -- two addresses of the program never share a byte
  have hinj : ∀ i < src.length, s.writable r (va + i) = some (frame pte * PGSIZE + a % PGSIZE) → va + i = a := by
    intro i hi he
    obtain ⟨pte', hl', hsome⟩ := htr i hi
    have heq := Option.some.inj (hsome.symm.trans he)
    have hoff' := Nat.mod_lt (va + i) (show PGSIZE > 0 by decide)
    have hfr := congrArg (· / PGSIZE) heq
    have hmod := congrArg (· % PGSIZE) heq
    simp only [(page_addr hoff').1, (page_addr hoff).1] at hfr
    simp only [(page_addr hoff').2, (page_addr hoff).2] at hmod
    have hsame := h.space.inj (hpg _ (by omega)) (hpg a ha) hl' hl hfr
    rw [← Nat.div_add_mod (va + i) PGSIZE, hsame, hmod, Nat.div_add_mod]
  rw [load_eq t r (hmax a ha), load_eq s r (hmax a ha), hleaf, hl, Option.map_some, Option.map_some, ← byte_page hoff,
    ← byte_page hoff]
  by_cases hin : va ≤ a ∧ a < va + src.length
  · obtain ⟨i, rfl⟩ := Nat.exists_eq_add_of_le hin.1
    obtain ⟨pte', hl', hsome⟩ := htr i (by omega)
    cases hl.symm.trans hl'
    rw [if_pos hin, Nat.add_sub_cancel_left]
    exact hst.bytes i (by omega) _ hsome fun j hj hij he => by
      have := hinj j hj he
      omega
  · rw [if_neg hin, hst.others _ fun i hi he => hin ?_]
    have := hinj i hi he
    omega

end

/- The arguments on the stack. -/

/-- `n` rounded up to a multiple of 16. -/
def up16 (n : Nat) : Nat := (n + 15) / 16 * 16

/-- What the strings take. -/
def argRoom (argv : List (List UInt8)) : Nat := (argv.map (fun arg => up16 (arg.length + 1))).sum

/-- The strings and the array fit in the pages of the stack. -/
def Fits (argv : List (List UInt8)) : Prop := argRoom argv + up16 ((argv.length + 1) * 8) ≤ USERSTACK * PGSIZE

theorem pushDown_eq {sp n : Nat} (hsp : sp % 16 = 0) (hlt : sp < 2 ^ 64) (hn : n ≤ sp) : pushDown sp n = sp - up16 n := by
  simp only [pushDown, up16]
  omega

theorem pushDown_lt {sp n base : Nat} (hsp : sp % 16 = 0) (hlt : sp < 2 ^ 64) (hn : n ≤ sp) (hb : base % 16 = 0) :
    pushDown sp n < base ↔ sp < base + up16 n := by
  simp only [pushDown, up16]
  omega

/-- The bytes `bs` are at `va`. -/
def HoldsAt (t : Ram) (r va : Nat) (bs : List UInt8) : Prop := ∀ j < bs.length, t.load r (va + j) = bs[j]?

section
variable {s t u : Ram} {r np tf base : Nat}

/-- The stack, whose pages the program may write; the page below it is the guard. -/
structure Stack (s : Ram) (r np tf base : Nat) : Prop where
  layout : Layout s r np tf
  write : ∀ v, base / PGSIZE ≤ v → v < np → s.MayWrite r v
  guard : PGSIZE ≤ base
  align : base % 16 = 0

/-- Only the stack from `lo` to `hi` has been written. -/
structure Pushed (s t : Ram) (r np tf base lo hi : Nat) : Prop where
  stack : Stack t r np tf base
  load : ∀ a < np * PGSIZE, a < lo ∨ hi ≤ a → t.load r a = s.load r a
  leaf : ∀ v, t.leaf r v = s.leaf r v
  isLocal : Local s t r

theorem Pushed.refl {lo hi : Nat} (h : Stack s r np tf base) : Pushed s s r np tf base lo hi :=
  ⟨h, fun _ _ _ => rfl, fun _ => rfl, .refl s r⟩

theorem Pushed.trans {lo mid hi : Nat} (h : Pushed s t r np tf base mid hi) (h' : Pushed t u r np tf base lo mid)
    (hlo : lo ≤ mid) (hhi : mid ≤ hi) : Pushed s u r np tf base lo hi :=
  ⟨h'.stack, fun a ha hor => (h'.load a ha (by omega)).trans (h.load a ha (by omega)), fun v => (h'.leaf v).trans (h.leaf v),
    h.isLocal.trans h'.isLocal⟩

theorem Pushed.le {lo lo' hi : Nat} (h : Pushed s t r np tf base lo hi) (hlo : lo' ≤ lo) : Pushed s t r np tf base lo' hi :=
  ⟨h.stack, fun a ha hor => h.load a ha (by omega), h.leaf, h.isLocal⟩

theorem Pushed.holds {lo hi va : Nat} {bs : List UInt8} (h : Pushed s t r np tf base lo hi) (hb : HoldsAt s r va bs)
    (hva : hi ≤ va) (hend : va + bs.length ≤ np * PGSIZE) : HoldsAt t r va bs := fun j hj => by
  rw [h.load (va + j) (by omega) (.inr (by omega)), hb j hj]

/-- copyout() to the stack. -/
theorem Stack.copyout {va : Nat} (hi : Nat) {bs : List UInt8} (h : Stack s r np tf base) (hbase : base ≤ va)
    (hend : va + bs.length ≤ hi) (hhi : hi ≤ np * PGSIZE) :
    Runs (Vm.copyout r va bs) s (fun res t => res = 0 ∧ Pushed s t r np tf base va hi ∧ HoldsAt t r va bs) := by
  have hpg : ∀ i < bs.length, (va + i) / PGSIZE < np := fun i hi' => Nat.div_lt_of_lt_mul (by rw [Nat.mul_comm]; omega)
  refine (h.layout.copyout (Nat.le_trans hend hhi) fun i hi' =>
    h.write _ (Nat.div_le_div_right (by omega)) (hpg i hi')).mono fun res t ⟨hres, hlay, hc⟩ => ?_
  refine ⟨hres, ⟨⟨hlay, fun v hv hv' => ?_, h.guard, h.align⟩, fun a ha hor => ?_, hc.leaf, hc.isLocal⟩, fun j hj => ?_⟩
  · obtain ⟨pte, hl, hUW⟩ := h.write v hv hv'
    exact ⟨pte, (hc.leaf v).trans hl, hUW⟩
  · rw [hc.load a ha, if_neg (by omega)]
  · rw [hc.load (va + j) (by omega), if_pos (by omega), Nat.add_sub_cancel_left]

theorem argRoom_cons (arg : List UInt8) (argv : List (List UInt8)) :
    argRoom (arg :: argv) = up16 (arg.length + 1) + argRoom argv := by
  simp [argRoom]

theorem le_up16 (n : Nat) : n ≤ up16 n ∧ up16 n % 16 = 0 := by
  simp only [up16]
  omega

/-- The strings on the stack, at addresses that are multiples of 16, each below the one before it. -/
structure Strings (t : Ram) (r lo hi : Nat) (ptrs : List Nat) (argv : List (List UInt8)) : Prop where
  length : ptrs.length = argv.length
  holds : ∀ x ∈ List.zip ptrs argv, HoldsAt t r x.1 (x.2 ++ [0])
  align : ∀ p ∈ ptrs, p % 16 = 0
  apart : (List.zip ptrs argv).Pairwise (fun x y => y.1 + (y.2.length + 1) ≤ x.1)
  within : ∀ x ∈ List.zip ptrs argv, lo ≤ x.1 ∧ x.1 + (x.2.length + 1) ≤ hi

theorem Strings.cons {lo mid hi : Nat} {ptrs : List Nat} {arg : List UInt8} {argv : List (List UInt8)}
    (h : Strings t r lo mid ptrs argv) (hh : HoldsAt t r mid (arg ++ [0])) (hal : mid % 16 = 0) (hlo : lo ≤ mid)
    (hhi : mid + (arg.length + 1) ≤ hi) : Strings t r lo hi (mid :: ptrs) (arg :: argv) where
  length := congrArg (· + 1) h.length
  holds x hx := by
    rcases List.mem_cons.mp hx with rfl | hx
    · exact hh
    · exact h.holds x hx
  align p hp := by
    rcases List.mem_cons.mp hp with rfl | hp
    · exact hal
    · exact h.align p hp
  apart := List.pairwise_cons.mpr ⟨fun y hy => (h.within y hy).2, h.apart⟩
  within x hx := by
    rcases List.mem_cons.mp hx with rfl | hx
    · exact ⟨hlo, hhi⟩
    · have := h.within x hx
      exact ⟨this.1, by omega⟩

/-- Strings above what is written stay. -/
theorem Strings.pushed {lo hi lo' : Nat} {ptrs : List Nat} {argv : List (List UInt8)} (h : Strings s r lo hi ptrs argv)
    (hp : Pushed s t r np tf base lo' lo) (hhi : hi ≤ np * PGSIZE) : Strings t r lo hi ptrs argv := by
  refine ⟨h.length, fun x hx => ?_, h.align, h.apart, h.within⟩
  have := h.within x hx
  refine hp.holds (h.holds x hx) this.1 ?_
  rw [List.length_append, List.length_singleton]
  omega

theorem Strings.le {lo lo' hi : Nat} {ptrs : List Nat} {argv : List (List UInt8)} (h : Strings t r lo hi ptrs argv)
    (hlo : lo' ≤ lo) : Strings t r lo' hi ptrs argv :=
  ⟨h.length, h.holds, h.align, h.apart, fun x hx => ⟨Nat.le_trans hlo (h.within x hx).1, (h.within x hx).2⟩⟩

theorem argRoom_mod (argv : List (List UInt8)) : argRoom argv % 16 = 0 := by
  induction argv with
  | nil => rfl
  | cons arg argv ih =>
    have := (le_up16 (arg.length + 1)).2
    rw [argRoom_cons]
    omega

/-- The loop that pushes the strings. -/
theorem pushStrings_pushes {argv : List (List UInt8)} {argc sp : Nat} (h : Stack s r np tf base) (hsp : sp % 16 = 0)
    (hb : base ≤ sp) (hhi : sp ≤ np * PGSIZE) (hlen : ∀ arg ∈ argv, arg.length < PGSIZE) (hargc : argc + argv.length ≤ MAXARG) :
    Runs (pushStrings r base argv argc sp) s (fun o t => match o with
      | none => sp < base + argRoom argv ∧ Pushed s t r np tf base base sp
      | some (sp', ptrs) => base + argRoom argv ≤ sp ∧ sp' = sp - argRoom argv ∧ Pushed s t r np tf base sp' sp ∧
        Strings t r sp' sp ptrs argv) := by
  induction argv generalizing s sp argc with
  | nil =>
    refine runs_pure ⟨hb, rfl, .refl h, ⟨rfl, nofun, nofun, .nil, nofun⟩⟩
  | cons arg argv ih =>
    have hnp := h.layout.space.lt
    have hguard := h.guard
    have halign := h.align
    have harg := hlen arg List.mem_cons_self
    have h64 : sp < 2 ^ 64 := by
      simp only [TOP, TRAPFRAME, TRAMPOLINE, PGSIZE, MAXVA] at hnp hhi ⊢
      omega
    obtain ⟨hle, hmod⟩ := le_up16 (arg.length + 1)
    rw [List.length_cons] at hargc
    rw [pushStrings, if_neg (by omega), argRoom_cons]
    refine .ite (fun hlow => runs_pure ?_) fun hfit => ?_
    · rw [pushDown_lt hsp h64 (by omega) halign] at hlow
      exact ⟨by omega, .refl h⟩
    · rw [pushDown_lt hsp h64 (by omega) halign] at hfit
      rw [pushDown_eq hsp h64 (by omega)]
      generalize hw : up16 (arg.length + 1) = w at hle hmod hfit
      refine (h.copyout sp (show base ≤ sp - w by omega) ?_ hhi).bind fun res t ⟨hres, ht, hh⟩ => ?_
      · rw [List.length_append, List.length_singleton]
        omega
      · rw [hres, if_neg (by decide)]
        refine (ih ht.stack (by omega) (by omega) (by omega) (fun a ha => hlen a (List.mem_cons_of_mem _ ha)) (by omega)).bind
          fun o u hu => ?_
        cases o with
        | none => exact runs_pure ⟨by omega, ht.trans hu.2 (by omega) (by omega)⟩
        | some x =>
          obtain ⟨hroom, hsp', hpush, hstr⟩ := hu
          refine runs_pure ⟨by omega, by omega, ht.trans hpush (by omega) (by omega), ?_⟩
          refine hstr.cons ?_ (by omega) ?_ (by omega)
          · refine hpush.holds hh (Nat.le_refl _) ?_
            rw [List.length_append, List.length_singleton]
            omega
          · omega

/-- What exec() leaves on the stack: the array of the argument pointers at `sp` and the strings above it. -/
structure ArgStack (t : Ram) (r sp base top : Nat) (argv : List (List UInt8)) (ptrs : List Nat) : Prop where
  array : HoldsAt t r sp ((ptrs ++ [0]).flatMap (Bytes.le 8))
  strings : Strings t r (sp + 8 * (argv.length + 1)) top ptrs argv
  align : sp % 16 = 0
  base : base ≤ sp
  top : sp + 8 * (argv.length + 1) ≤ top

theorem length_array (ptrs : List Nat) : ((ptrs ++ [0]).flatMap (Bytes.le 8)).length = 8 * (ptrs.length + 1) := by
  rw [Bytes.length_words, List.length_append, List.length_singleton]

/-- The strings and the array. They fit, or nothing is written outside the stack. -/
theorem pushArgs_pushes {argv : List (List UInt8)} {top : Nat} (h : Stack s r np tf base) (htop : top % 16 = 0)
    (hb : base ≤ top) (hhi : top ≤ np * PGSIZE) (hlen : ∀ arg ∈ argv, arg.length < PGSIZE) (hargc : argv.length < MAXARG) :
    Runs (pushArgs r base top argv) s (fun o t => Pushed s t r np tf base base top ∧ match o with
      | none => top < base + (argRoom argv + up16 ((argv.length + 1) * 8))
      | some sp => base + (argRoom argv + up16 ((argv.length + 1) * 8)) ≤ top ∧
        ∃ ptrs, ArgStack t r sp base top argv ptrs) := by
  refine (pushStrings_pushes h htop hb hhi hlen (by omega)).bind fun o t ht => ?_
  cases o with
  | none => exact runs_pure ⟨ht.2, by omega⟩
  | some x =>
    obtain ⟨sp, ptrs⟩ := x
    obtain ⟨hroom, hsp, hpush, hstr⟩ := ht
    have hnp := h.layout.space.lt
    have hguard := h.guard
    have halign := h.align
    have hspal : sp % 16 = 0 := by
      have := argRoom_mod argv
      omega
    have h64 : sp < 2 ^ 64 := by
      simp only [TOP, TRAPFRAME, TRAMPOLINE, PGSIZE, MAXVA] at hnp hhi ⊢
      omega
    have hsmall : (argv.length + 1) * 8 ≤ sp := by
      simp only [MAXARG, PGSIZE] at hargc hguard
      omega
    obtain ⟨hle, hmod⟩ := le_up16 ((argv.length + 1) * 8)
    refine .ite (fun hlow => runs_pure ?_) fun hfit => ?_
    · rw [pushDown_lt hspal h64 hsmall halign] at hlow
      exact ⟨hpush.le (by omega), by omega⟩
    · rw [pushDown_lt hspal h64 hsmall halign] at hfit
      rw [pushDown_eq hspal h64 hsmall]
      generalize up16 ((argv.length + 1) * 8) = w at hle hmod hfit
      have harr := length_array ptrs
      rw [hstr.length] at harr
      refine (hpush.stack.copyout sp (show base ≤ sp - w by omega) (by omega) (by omega)).bind
        fun res u ⟨hres, hu, hh⟩ => ?_
      rw [hres, if_neg (by decide)]
      refine runs_pure ⟨(hpush.trans hu (by omega) (by omega)).le (by omega), by omega, ptrs, hh, ?_, by omega, by omega, by omega⟩
      exact (hstr.pushed hu hhi).le (by omega)

end

/- The guard page. -/

section
variable {s t u : Ram} {r np tf v pte : Nat}

/-- Without U the PTE points to the same page. -/
theorem clear_user (hf : pteFlags pte = PTE_R ||| PTE_U ||| PTE_W ||| PTE_V) : has pte PTE_U = true ∧
    pteFlags (pte - PTE_U) = PTE_R ||| PTE_W ||| PTE_V ∧ frame (pte - PTE_U) = frame pte ∧
    has (pte - PTE_U) PTE_V = true := by
  have hmod : pte % 2 ^ 10 = 23 := hf
  have hflags : pteFlags (pte - PTE_U) = PTE_R ||| PTE_W ||| PTE_V := by
    change (pte - 16) % 2 ^ 10 = 7
    omega
  refine ⟨?_, hflags, ?_, ?_⟩
  · rw [← has_flags pte (by decide), hf]
    decide
  · have hdiv : (pte - 16) / 2 ^ 10 = pte / 2 ^ 10 := by omega
    change (pte - 16) / 2 ^ 10 * 2 ^ 12 % 2 ^ 64 / PGSIZE = _
    rw [hdiv]
    rfl
  · rw [← has_flags _ (by decide), hflags]
    decide

/-- The PTEs of the program point to the same pages as before. -/
theorem Space.reflag (h : Space s r np) (hk : Keeps s t r) (hlist : t.freelist = s.freelist)
    (htab : ∀ n, t.InTable r n ↔ s.InTable r n)
    (hleaf : ∀ w < TOP, t.leaf r w = s.leaf r w ∨ ∃ x y, t.leaf r w = some x ∧ s.leaf r w = some y ∧ frame x = frame y ∧
      pteFlags x ≠ PTE_V) : Space t r np := by
  have hmax : TOP < 2 ^ 26 := by decide
  have hlt := h.lt
  have hold : ∀ w < TOP, ∀ x, t.leaf r w = some x → ∃ y, s.leaf r w = some y ∧ frame x = frame y := fun w hw x hx => by
    rcases hleaf w hw with he | ⟨x', y, hx', hy, hf, -⟩
    · exact ⟨x, he.symm.trans hx, rfl⟩
    · cases hx.symm.trans hx'
      exact ⟨y, hy, hf⟩
  refine ⟨hk.ok, hk.table, fun w hw => ?_, ⟨fun w hb x _ hw hx => ?_, fun w hb x _ hw hx => ?_,
    fun w hb w' hb' x x' _ hw _ hw' hx hx' he => ?_⟩, fun w hw hw' => ?_⟩
  · obtain ⟨y, hy, hf, hram, -⟩ := h.leaf hw
    have hram' : ∀ n, s.InRam n → t.InRam n := fun n hn => by
      rw [Ram.InRam, hk.kend]
      exact hn
    rcases hleaf w (by omega) with he | ⟨x, y', hx, hy', hfr, hx1⟩
    · exact ⟨y, he.trans hy, hf, fun _ => hram' _ hram⟩
    · cases hy.symm.trans hy'
      refine ⟨x, hx, hx1, fun _ => ?_⟩
      rw [hfr]
      exact hram' _ hram
  · obtain ⟨y, hy, hfr⟩ := hold w (by omega) x hx
    rw [hfr, htab]
    exact h.sole.table w hb y (Nat.zero_le w) hw hy
  · obtain ⟨y, hy, hfr⟩ := hold w (by omega) x hx
    rw [hfr, hlist]
    exact h.sole.free w hb y (Nat.zero_le w) hw hy
  · obtain ⟨y, hy, hfr⟩ := hold w (by omega) x hx
    obtain ⟨y', hy', hfr'⟩ := hold w' (by omega) x' hx'
    exact h.inj (by omega) (by omega) hy hy' (hfr.symm.trans (he.trans hfr'))
  · rcases hleaf w hw' with he | ⟨x, y, -, hy, -⟩
    · rw [he, h.rest w hw hw']
    · rw [h.rest w hw hw'] at hy
      cases hy

theorem Layout.uvmclear (h : Layout s r np tf) (hv : v < np) (hl : s.leaf r v = some pte)
    (hf : pteFlags pte = PTE_R ||| PTE_U ||| PTE_W ||| PTE_V) :
    Runs (Vm.uvmclear r (v * PGSIZE)) s (fun _ t => Layout t r np tf ∧ Local s t r ∧
      (∀ w < 2 ^ 27, t.leaf r w = if w = v then some (pte - PTE_U) else s.leaf r w) ∧
      ∀ a < np * PGSIZE, t.load r a = s.load r a) := by
  have hnp := h.space.lt
  have hmax : TOP + 1 < 2 ^ 26 := by decide
  obtain ⟨hU, hflags, hframe, hV⟩ := clear_user hf
  obtain ⟨a, hn, hpte, -⟩ := leaf_some hl
  have hva : v * PGSIZE < MAXVA := by
    simp only [TOP, TRAPFRAME, TRAMPOLINE, PGSIZE, MAXVA] at hnp ⊢
    omega
  have hw := walk_find s r hva
  rw [Nat.mul_div_cancel _ (by decide), hn, Option.map_some] at hw
  have hx : pte - PTE_U < 2 ^ 64 := Nat.lt_of_le_of_lt (Nat.sub_le _ _) (hpte ▸ pte_lt s a _)
  refine runs_step hw (runs_getPte ?_)
  rw [hpte, if_pos hU]
  refine ⟨(), s.setPte a (v % 2 ^ 9) (pte - PTE_U), rfl, ?_⟩
  have hk := keeps_setPte h.space.table hn hx h.space.ok
  have hleaf : ∀ w < 2 ^ 27, (s.setPte a (v % 2 ^ 9) (pte - PTE_U)).leaf r w =
      if w = v then some (pte - PTE_U) else s.leaf r w := fun w hw => by
    rw [leaf_setPte h.space.table hn hx (by omega) hw, valid, if_pos hV]
  have htab : ∀ n, (s.setPte a (v % 2 ^ 9) (pte - PTE_U)).InTable r n ↔ s.InTable r n := fun n =>
    inTable_setPte h.space.table hn hx
  have hpage : ∀ n, ¬ s.InTable r n → (s.setPte a (v % 2 ^ 9) (pte - PTE_U)).page n = s.page n := fun n hin =>
    page_setPage_other fun he => hin (he ▸ ⟨path v, by simp [path], hn⟩)
  have hlist : (s.setPte a (v % 2 ^ 9) (pte - PTE_U)).freelist = s.freelist := rfl
  generalize s.setPte a (v % 2 ^ 9) (pte - PTE_U) = t at *
  have hsame : ∀ w < 2 ^ 27, w ≠ v → t.leaf r w = s.leaf r w := fun w hw hne => by rw [hleaf w hw, if_neg hne]
  have hself : t.leaf r v = some (pte - PTE_U) := by rw [hleaf v (by omega), if_pos rfl]
  have hsp : Space t r np := h.space.reflag hk hlist htab fun w hw => by
    by_cases hwv : w = v
    · subst hwv
      exact .inr ⟨_, _, hself, hl, hframe, by rw [hflags]; decide⟩
    · exact .inl (hsame w (by omega) hwv)
  have hfront : ∀ n, t.Fronts r n ↔ s.Fronts r n := fun n => by
    refine exists_congr fun w => and_congr_right fun hw => ?_
    by_cases hwv : w = v
    · subst hwv
      simp only [hself, hl, Option.some.injEq, exists_eq_left', hframe]
    · rw [hsame w (by omega) hwv]
  refine ⟨⟨hsp, ?_, ?_, fun w hw hw' => ?_⟩, ⟨fun n _ hn => hpage n fun hin => hn (.inl hin), fun n => ?_, hk.kend⟩, hleaf,
    fun b hb => ?_⟩
  · rw [hsame TOP (by omega) (by omega)]
    exact h.trapframe
  · rw [hsame (TOP + 1) (by omega) (by omega)]
    exact h.trampoline
  · rw [hsame w hw (by omega)]
    exact h.high w hw hw'
  · rw [Ram.Owns, Ram.Owns, hfront, htab, hlist]
  · have hmaxb : b < MAXVA := by
      simp only [TOP, TRAPFRAME, TRAMPOLINE, PGSIZE, MAXVA] at hnp hb ⊢
      omega
    have hpg : b / PGSIZE < np := Nat.div_lt_of_lt_mul (by rwa [Nat.mul_comm])
    obtain ⟨y, hy, -, -, hnot, -⟩ := h.space.leaf hpg
    rw [load_eq t r hmaxb, load_eq s r hmaxb, hy]
    by_cases hwv : b / PGSIZE = v
    · rw [hwv] at hy ⊢
      cases hl.symm.trans hy
      rw [hself, Option.map_some, Option.map_some, hframe, hpage _ hnot]
    · rw [hsame _ (by omega) hwv, hy, Option.map_some, Option.map_some, hpage _ hnot]

/-- There is no memory for the stack. -/
def NoStack (s : Ram) (r sz : Nat) : Prop :=
  Runs (uvmalloc r (pgroundup sz) ((pgroundup sz + (USERSTACK + 1) * PGSIZE) % 2 ^ 64) PTE_W) s (fun sz1 _ => sz1 = 0)

/-- The new stack lies over the `np` pages of the program and the guard page. -/
structure StackMade (s t : Ram) (r np tf : Nat) (argv : List (List UInt8)) (sp : Option Nat) : Prop where
  layout : Layout t r (np + (USERSTACK + 1)) tf
  isLocal : Local s t r
  below : ∀ a < np * PGSIZE, t.load r a = s.load r a
  guard : ∀ a, np * PGSIZE ≤ a → a < (np + 1) * PGSIZE → t.load r a = some 0
  fits : sp = none ↔ ¬ Fits argv
  args : ∀ x, sp = some x → ∃ ptrs, ArgStack t r x ((np + 1) * PGSIZE) ((np + (USERSTACK + 1)) * PGSIZE) argv ptrs

theorem stack_sub (n : Nat) : (n + 2) * PGSIZE - (USERSTACK + 1) * PGSIZE = n * PGSIZE ∧
    (n + 2) * PGSIZE - USERSTACK * PGSIZE = (n + 1) * PGSIZE := by
  rw [← Nat.sub_mul, ← Nat.sub_mul]
  exact ⟨rfl, rfl⟩

/-- The pages of the stack and the guard page. -/
structure StackPages (s t : Ram) (r np tf : Nat) : Prop where
  layout : Layout t r (np + 2) tf
  kept : Kept s t r np
  fresh : NewPages t r (PTE_R ||| PTE_U ||| PTE_W) np (np + 2)
  isLocal : Local s t r

theorem Layout.stackPages {sz : Nat} (h : Layout s r (pages sz) tf) :
    Runs (Vm.uvmalloc r (pgroundup sz) ((pgroundup sz + (USERSTACK + 1) * PGSIZE) % 2 ^ 64) PTE_W) s (fun res t =>
      res = (pages sz + 2) * PGSIZE ∧ StackPages s t r (pages sz) tf ∨
      res = 0 ∧ Layout t r (pages sz) tf ∧ Local s t r) := by
  have hlt := h.space.lt
  have hb := h.space.bound
  have hround := pgroundup_eq hlt
  have hpg : pages (pgroundup sz) = pages sz := by rw [hround, pages_mul]
  have hround2 : pgroundup (pgroundup sz) = pages sz * PGSIZE := by rw [pgroundup_eq (hpg ▸ hlt), hpg]
  have hnew : (pgroundup sz + (USERSTACK + 1) * PGSIZE) % 2 ^ 64 = (pages sz + 2) * PGSIZE := by
    rw [hround]
    simp only [USERSTACK, PGSIZE, PHYSTOP] at hb ⊢
    omega
  have hmul := pages_mul (pages sz + 2)
  rw [hnew, Vm.uvmalloc, hround2, if_neg (by rw [hround]; simp only [PGSIZE]; omega)]
  refine (h.space.uvmallocLoop (Nat.le_refl _) (by omega) (by rw [hmul, Nat.mul_div_cancel _ (by decide)]; omega)
    (by decide)).mono fun res t hres => ?_
  rw [hmul] at hres
  rcases hres with ⟨rfl, hsp, hk, hnewp, hloc⟩ | ⟨rfl, hroll⟩
  · exact .inl ⟨rfl, h.of_top hsp fun w hw hw' => hk.leaf w hw (.inr hw'), hk, hnewp, hloc⟩
  · exact .inr ⟨rfl, h.of_top hroll.space fun w hw hw' => hroll.kept.leaf w hw (.inr hw'), hroll.isLocal⟩

theorem Layout.execStack {sz : Nat} {argv : List (List UInt8)} (h : Layout s r (pages sz) tf)
    (hlen : ∀ arg ∈ argv, arg.length < PGSIZE) (hargc : argv.length < MAXARG) :
    Runs (Vm.execStack r sz argv) s (fun x t =>
      (x = (none, pgroundup sz) ∧ NoStack s r sz ∧ Layout t r (pages sz) tf ∧ Local s t r) ∨
      (x.2 = pgroundup sz + (USERSTACK + 1) * PGSIZE ∧ StackMade s t r (pages sz) tf argv x.1)) := by
  have hlt := h.space.lt
  have hround := pgroundup_eq hlt
  rw [Vm.execStack]
  refine h.stackPages.tracked.bind fun res t hrt => ?_
  obtain ⟨hrun, hres⟩ := hrt
  rcases hres with ⟨rfl, hlay, hk, hnewp, hloc⟩ | ⟨rfl, hlay, hloc⟩
  · obtain ⟨hguard, hbase⟩ := stack_sub (pages sz)
    have hb1 : pages sz * PGSIZE ≤ (pages sz + 1) * PGSIZE := Nat.mul_le_mul_right _ (by omega)
    have hb2 : (pages sz + 1) * PGSIZE ≤ (pages sz + 2) * PGSIZE := Nat.mul_le_mul_right _ (by omega)
    obtain ⟨pte, hl, hf, hz⟩ := hnewp (pages sz) (Nat.le_refl _) (by omega)
    obtain ⟨pte', hl', hf', -⟩ := hnewp (pages sz + 1) (by omega) (by omega)
    have hne : (pages sz + 2) * PGSIZE ≠ 0 := Nat.mul_ne_zero (by omega) (by decide)
    have hsmall : pages sz + 2 < 2 ^ 27 := Nat.lt_trans hlay.space.lt (by decide)
    rw [if_neg hne, hguard, hbase]
    refine (hlay.uvmclear (by omega) hl hf).bind fun _ u hclear => ?_
    obtain ⟨hu, hlocu, hleafu, hloadu⟩ := hclear
    have hstack : Stack u r (pages sz + 2) tf ((pages sz + 1) * PGSIZE) := by
      refine ⟨hu, fun v hv hv' => ?_, ?_, ?_⟩
      · rw [Nat.mul_div_cancel _ (by decide)] at hv
        obtain rfl : v = pages sz + 1 := by omega
        refine ⟨pte', ?_, ?_, ?_⟩
        · rw [hleafu _ (by omega), if_neg (by omega), hl']
        · rw [← has_flags pte' (by decide), hf']
          decide
        · rw [← has_flags pte' (by decide), hf']
          decide
      · exact Nat.le_mul_of_pos_left _ (by omega)
      · rw [PGSIZE]
        omega
    have hfit : Fits argv ↔ (pages sz + 1) * PGSIZE + (argRoom argv + up16 ((argv.length + 1) * 8)) ≤ (pages sz + 2) * PGSIZE := by
      simp only [Fits, USERSTACK, PGSIZE]
      omega
    refine (pushArgs_pushes hstack (show (pages sz + 2) * PGSIZE % 16 = 0 by rw [PGSIZE]; omega)
      hb2 (Nat.le_refl _) hlen hargc).bind fun o w hargs => runs_pure (.inr ?_)
    obtain ⟨hpush, ho⟩ := hargs
    constructor
    · rw [hround, ← Nat.add_mul]
    · have hload : ∀ b < (pages sz + 1) * PGSIZE, w.load r b = t.load r b := fun b hb => by
        rw [hpush.load b (Nat.lt_of_lt_of_le hb hb2) (.inl hb), hloadu b (Nat.lt_of_lt_of_le hb hb2)]
      refine ⟨hpush.stack.layout, (hloc.trans hlocu).trans hpush.isLocal, fun b hb => ?_, fun b hb hb' => ?_, ?_, ?_⟩
      · rw [hload b (Nat.lt_of_lt_of_le hb hb1),
          hk.load (Nat.div_lt_of_lt_mul (by rwa [Nat.mul_comm])) (Nat.le_of_lt hlt)]
      · have hpage : b / PGSIZE = pages sz := by
          simp only [PGSIZE] at hb hb' ⊢
          omega
        have hmaxb : b < MAXVA := by
          simp only [TOP, TRAPFRAME, TRAMPOLINE, PGSIZE, MAXVA] at hlt hb' ⊢
          omega
        rw [hload b hb', load_eq t r hmaxb, hpage, hl, Option.map_some, hz, ByteArr.byteAt_zero]
      · cases o with
        | none => exact ⟨fun _ hfits => Nat.not_le.mpr ho (hfit.mp hfits), fun _ => rfl⟩
        | some x => exact ⟨fun hx => absurd hx (Option.some_ne_none x), fun hnot => absurd (hfit.mpr ho.1) hnot⟩
      · cases o with
        | none =>
          intro y hy
          cases hy
        | some x =>
          intro y hy
          obtain rfl : x = y := Option.some.inj hy
          exact ho.2
  · rw [if_pos rfl]
    exact runs_pure (.inl ⟨rfl, ⟨_, _, hrun, rfl⟩, hlay, hloc⟩)

/- Arguments of any number and length. -/

theorem pushStrings_keeps (h : Layout s r np tf) (base : Nat) (argv : List (List UInt8)) (argc sp : Nat) :
    Runs (pushStrings r base argv argc sp) s (fun _ t => Layout t r np tf ∧ Local s t r) := by
  induction argv generalizing s argc sp with
  | nil => exact runs_pure ⟨h, .refl s r⟩
  | cons arg rest ih =>
    rw [pushStrings]
    refine .ite (fun _ => runs_pure ⟨h, .refl s r⟩) fun _ => .ite (fun _ => runs_pure ⟨h, .refl s r⟩) fun _ => ?_
    refine (h.copyout_keeps _ _).bind fun res t ht => .ite (fun _ => runs_pure ht) fun _ => ?_
    refine (ih ht.1 _ _).bind fun o u hu => ?_
    cases o with
    | none => exact runs_pure ⟨hu.1, ht.2.trans hu.2⟩
    | some x => exact runs_pure ⟨hu.1, ht.2.trans hu.2⟩

theorem pushArgs_keeps (h : Layout s r np tf) (base sp : Nat) (argv : List (List UInt8)) :
    Runs (pushArgs r base sp argv) s (fun _ t => Layout t r np tf ∧ Local s t r) := by
  refine (pushStrings_keeps h base argv 0 sp).bind fun o t ht => ?_
  cases o with
  | none => exact runs_pure ht
  | some x =>
    refine .ite (fun _ => runs_pure ht) fun _ => ?_
    refine (ht.1.copyout_keeps _ _).bind fun res u hu => ?_
    have hkeep : Layout u r np tf ∧ Local s u r := ⟨hu.1, ht.2.trans hu.2⟩
    exact .ite (fun _ => runs_pure hkeep) fun _ => runs_pure hkeep

/-- The size that execStack() answers is that of what is mapped. -/
theorem Layout.execStack_keeps {sz : Nat} (h : Layout s r (pages sz) tf) (argv : List (List UInt8)) :
    Runs (Vm.execStack r sz argv) s (fun y t => Layout t r (pages y.2) tf ∧ Local s t r) := by
  rw [Vm.execStack]
  refine h.stackPages.bind fun res t hres => ?_
  rcases hres with ⟨rfl, hlay, hk, hnewp, hloc⟩ | ⟨rfl, hlay, hloc⟩
  · obtain ⟨pte, hl, hf, -⟩ := hnewp (pages sz) (Nat.le_refl _) (by omega)
    have hne : (pages sz + 2) * PGSIZE ≠ 0 := Nat.mul_ne_zero (by omega) (by decide)
    rw [if_neg hne, (stack_sub (pages sz)).1]
    refine (hlay.uvmclear (by omega) hl hf).bind fun _ u hu => ?_
    refine (pushArgs_keeps hu.1 _ _ argv).bind fun o w hw => runs_pure ?_
    rw [pages_mul]
    exact ⟨hw.1, (hloc.trans hu.2.1).trans hw.2⟩
  · rw [if_pos rfl]
    refine runs_pure ⟨?_, hloc⟩
    rwa [pgroundup_eq h.space.lt, pages_mul]

end

end Xv6.Vm
