import Xv6.Proofs.UserStack
import Xv6.Proofs.UvmCopy

namespace Xv6.Vm

section
variable {α β : Type} {s : Ram} {e : Exe} {Q : β × Exe → Ram → Prop}

theorem runs_exec {m : ExecM α} {f : α → ExecM β} {R : α × Exe → Ram → Prop} (h : Runs (m e) s R)
    (hf : ∀ a e' t, R (a, e') t → Runs (f a e') t Q) : Runs ((m >>= f) e) s Q :=
  Runs.bind h fun x t hx => hf x.1 x.2 t hx

theorem runs_lift {m : VmM α} {f : α → ExecM β} {R : α → Ram → Prop} (h : Runs m s R)
    (hf : ∀ a t, R a t → Runs (f a e) t Q) : Runs (((liftM m : ExecM α) >>= f) e) s Q :=
  Runs.bind (Runs.bind (Q := fun x t => x.2 = e ∧ R x.1 t) h fun _ _ ha => runs_pure ⟨rfl, ha⟩) fun x t ⟨hx, ha⟩ => by
    obtain ⟨a, e'⟩ := x
    cases hx
    exact hf a t ha

theorem runs_modify {g : Exe → Exe} {f : Unit → ExecM β} (h : Runs (f () (g e)) s Q) : Runs (((modify g : ExecM Unit) >>= f) e) s Q := h

theorem runs_if {c : Prop} [Decidable c] {a b : ExecM β} (ha : c → Runs (a e) s Q) (hb : ¬ c → Runs (b e) s Q) :
    Runs ((if c then a else b) e) s Q := by
  by_cases hc : c
  · rw [if_pos hc]
    exact ha hc
  · rw [if_neg hc]
    exact hb hc

theorem runs_namei {f : Bool → ExecM β} (hf : e.found = true → Runs (f true { e with refs := e.refs + 1 }) s Q)
    (hn : e.found = false → Runs (f false e) s Q) : Runs ((namei >>= f) e) s Q := by
  obtain ⟨file, found, ops, refs, locked⟩ := e
  cases found with
  | true => exact hf rfl
  | false => exact hn rfl

theorem runs_readi {off n : Nat} {f : List UInt8 → ExecM β} (h : Runs (f ((e.file off n).take n) e) s Q) :
    Runs ((readi off n >>= f) e) s Q :=
  h

end

section
variable {s t u : Ram} {r np tf n : Nat}

/-- A write to a page of the program. -/
theorem Layout.write (h : Layout s r np tf) (hf : s.Fronts r n) (d : ByteArr PGSIZE) :
    Layout (s.setPage n d) r np tf ∧ (∀ v, (s.setPage n d).leaf r v = s.leaf r v) ∧ Local s (s.setPage n d) r :=
  h.of_frames (fun _ hm => page_setPage_other fun he => hm (he ▸ hf)) rfl rfl

/-- The program may read all its pages. -/
def AllUser (s : Ram) (r np : Nat) : Prop := ∀ v < np, ∃ pte, s.leaf r v = some pte ∧ has pte PTE_U = true

/-- walkaddr() of an address of the program. -/
theorem Layout.walkaddr {va : Nat} (h : Layout s r np tf) (hk : 0 < s.kend) (hu : AllUser s r np) (hva : va / PGSIZE < np)
    (hal : va % PGSIZE = 0) : ∃ n, n ≠ 0 ∧ s.Fronts r n ∧ Vm.walkaddr r va s = .ok (n * PGSIZE) s := by
  have hnp := h.space.lt
  obtain ⟨pte, hl, hU⟩ := hu _ hva
  obtain ⟨pte', hl', -, hram, -⟩ := h.space.leaf hva
  cases hl.symm.trans hl'
  obtain ⟨-, -, -, hV⟩ := leaf_some hl
  have hmax : va < MAXVA := by
    simp only [TOP, TRAPFRAME, TRAMPOLINE, PGSIZE, MAXVA] at hnp hva ⊢
    omega
  have hf : s.userFrame r [PTE_V, PTE_U] (va / PGSIZE) = some (frame pte) := by
    rw [Ram.userFrame, hl, Option.bind_some, if_pos]
    simp only [List.all_cons, List.all_nil, hV, hU, Bool.and_true]
  refine ⟨frame pte, fun h0 => ?_, ⟨_, Nat.lt_trans hva hnp, pte, hl, rfl⟩, ?_⟩
  · rw [h0] at hram
    have := hram.1
    omega
  · have := walkaddr_frame s r va
    rw [Nat.div_mul_cancel (Nat.dvd_of_mod_eq_zero hal), if_pos hmax, hf, Option.getD_some] at this
    exact this

/-- What loading a segment leaves of the memory. -/
structure Loaded (s t : Ram) (r np tf : Nat) : Prop where
  layout : Layout t r np tf
  leaf : ∀ v, t.leaf r v = s.leaf r v
  isLocal : Local s t r

theorem Loaded.user (h : Loaded s t r np tf) (hu : AllUser s r np) : AllUser t r np := fun v hv => by
  rw [h.leaf]
  exact hu v hv

theorem Loaded.refl (h : Layout s r np tf) : Loaded s s r np tf := ⟨h, fun _ => rfl, .refl s r⟩

theorem Loaded.trans (h : Loaded s t r np tf) (h' : Loaded t u r np tf) : Loaded s u r np tf :=
  ⟨h'.layout, fun v => (h'.leaf v).trans (h.leaf v), h.isLocal.trans h'.isLocal⟩

/-- The turns of loadseg(). -/
theorem loadsegLoop_loads {v sz k fuel : Nat} {e : Exe} (off : Nat) (h : Layout s r np tf) (hk : 0 < s.kend) (hu : AllUser s r np)
    (hend : v * PGSIZE + sz ≤ np * PGSIZE) (hfuel : pages sz - k < fuel) :
    Runs (loadsegLoop r (v * PGSIZE) off sz fuel (k * PGSIZE) e) s (fun x t =>
      x.2 = e ∧ (x.1 = 0 ∨ x.1 = -1) ∧ Loaded s t r np tf) := by
  induction fuel generalizing s k with
  | zero => omega
  | succ fuel ih =>
    have hb : np ≤ 557056 := h.space.bound
    rw [loadsegLoop]
    by_cases hmore : k * PGSIZE < sz
    · have hsum : (v * PGSIZE + k * PGSIZE) % 2 ^ 64 = (v + k) * PGSIZE := by
        simp only [PGSIZE] at hmore hend ⊢
        omega
      have hpage : v + k < np := by
        simp only [PGSIZE] at hmore hend
        omega
      have hnext : (k * PGSIZE + PGSIZE) % 2 ^ 32 = (k + 1) * PGSIZE := by
        have hle : (k + 1) * PGSIZE ≤ 557056 * PGSIZE := Nat.mul_le_mul_right _ (by omega)
        rw [← Nat.succ_mul, Nat.mod_eq_of_lt (Nat.lt_of_le_of_lt hle (by decide))]
      obtain ⟨n, hn0, hfront, hw⟩ := h.walkaddr hk hu (by rwa [Nat.mul_div_cancel _ (by decide)]) (Nat.mul_mod_left _ _)
      rw [if_pos hmore, hsum, hnext]
      refine runs_lift (R := fun pa t => pa = n * PGSIZE ∧ t = s) ⟨_, _, hw, rfl, rfl⟩ fun pa t ⟨hpa, ht⟩ => ?_
      subst hpa ht
      rw [if_neg (Nat.mul_ne_zero hn0 (by decide)), Nat.mul_div_cancel _ (by decide)]
      refine runs_readi (runs_lift (R := fun d t' => d = t.page n ∧ t' = t) ⟨_, _, rfl, rfl, rfl⟩ fun d t' ⟨hd, ht'⟩ => ?_)
      subst hd ht'
      generalize (e.file _ _).take _ = bs
      obtain ⟨hlay, hleaf, hloc⟩ := h.write hfront ((t'.page n).put 0 bs)
      have hone : Loaded t' (t'.setPage n ((t'.page n).put 0 bs)) r np tf := ⟨hlay, hleaf, hloc⟩
      refine runs_lift (R := fun _ u => u = t'.setPage n ((t'.page n).put 0 bs)) ⟨_, _, rfl, rfl⟩ fun _ u hu' => ?_
      subst hu'
      by_cases hshort : bs.length ≠ min (sz - k * PGSIZE) PGSIZE
      · rw [if_pos hshort]
        exact runs_pure ⟨rfl, .inr rfl, hone⟩
      · rw [if_neg hshort]
        refine (ih hlay hk (hone.user hu) ?_).mono fun x u ⟨he, hx, hl⟩ => ⟨he, hx, hone.trans hl⟩
        simp only [pages, PGSIZE] at hmore hfuel ⊢
        omega
    · rw [if_neg hmore]
      exact runs_pure ⟨rfl, .inl rfl, .refl h⟩

theorem le_pages (sz : Nat) : sz ≤ pages sz * PGSIZE := by
  simp only [pages, PGSIZE]
  omega

/-- loadseg() of a segment inside the program. -/
theorem loadseg_loads {va off filesz : Nat} {e : Exe} (h : Layout s r np tf) (hk : 0 < s.kend) (hu : AllUser s r np)
    (hal : va % PGSIZE = 0) (hend : va + filesz ≤ np * PGSIZE) :
    Runs (loadseg r va off filesz e) s (fun x t => x.2 = e ∧ Loaded s t r np tf) := by
  have hb : np * PGSIZE ≤ PHYSTOP := Nat.mul_le_of_le_div PGSIZE np PHYSTOP h.space.bound
  have hlt : filesz < 2 ^ 32 := Nat.lt_of_le_of_lt (Nat.le_trans (Nat.le_add_left _ _) (Nat.le_trans hend hb)) (by decide)
  have hva : va = va / PGSIZE * PGSIZE := (Nat.div_mul_cancel (Nat.dvd_of_mod_eq_zero hal)).symm
  have hfuel : pages filesz - 0 < filesz / PGSIZE + 2 := by
    simp only [pages, PGSIZE]
    omega
  have hloop := loadsegLoop_loads (k := 0) (e := e) (off % 2 ^ 32) h hk hu (hva ▸ hend) hfuel
  rw [loadseg, Nat.mod_eq_of_lt hlt, hva]
  rw [Nat.zero_mul] at hloop
  exact hloop.mono fun _ _ hx => ⟨hx.1, hx.2.2⟩

theorem flags2perm_lt (flags : Nat) : flags2perm flags < 2 ^ 10 := by
  rw [flags2perm]
  cases has flags 1 <;> cases has flags 2 <;> decide

theorem flags2perm_user (flags : Nat) : has (PTE_R ||| PTE_U ||| flags2perm flags ||| PTE_V) PTE_U = true := by
  rw [flags2perm]
  cases has flags 1 <;> cases has flags 2 <;> decide

/-- uvmalloc() for a segment. -/
theorem Layout.uvmalloc {sz newsz flags : Nat} (h : Layout s r (pages sz) tf) (hu : AllUser s r (pages sz)) :
    Runs (Vm.uvmalloc r sz newsz (flags2perm flags)) s (fun res t => Local s t r ∧ (res = 0 → Layout t r (pages sz) tf) ∧
      (res ≠ 0 → newsz ≤ res ∧ Layout t r (pages res) tf ∧ AllUser t r (pages res))) := by
  have hlt := h.space.lt
  rw [Vm.uvmalloc]
  by_cases hle : newsz < sz
  · rw [if_pos hle]
    exact runs_pure ⟨.refl s r, fun h0 => by omega, fun _ => ⟨Nat.le_of_lt hle, h, hu⟩⟩
  · have hmono := pages_mono (Nat.not_lt.mp hle)
    rw [if_neg hle, pgroundup_eq hlt]
    refine (h.space.uvmallocLoop (Nat.le_refl _) hmono (by simp only [pages, PGSIZE]; omega) (flags2perm_lt flags)).mono
      fun res t hres => ?_
    rcases hres with ⟨rfl, hsp, hkept, hnew, hloc⟩ | ⟨rfl, hroll⟩
    · have hlay := h.of_top hsp fun w hw hw' => hkept.leaf w hw (.inr hw')
      refine ⟨hloc, fun h0 => ?_, fun _ => ⟨Nat.le_refl _, hlay, fun v hv => ?_⟩⟩
      · rwa [show sz = res by omega]
      · by_cases hold : v < pages sz
        · obtain ⟨pte, hl, hU⟩ := hu v hold
          exact ⟨pte, (hkept.leaf v (Nat.lt_trans hold (Nat.lt_trans hlt (by decide))) (.inl hold)).trans hl, hU⟩
        · obtain ⟨pte, hl, hf, -⟩ := hnew v (Nat.not_lt.mp hold) hv
          exact ⟨pte, hl, by rw [← has_flags pte (by decide), hf, flags2perm_user]⟩
    · exact ⟨hroll.isLocal, fun _ => h.of_top hroll.space fun w hw hw' => hroll.kept.leaf w hw (.inr hw'), fun h0 => absurd rfl h0⟩

theorem fieldAt_lt (bs : List UInt8) (off len : Nat) : fieldAt bs off len < 256 ^ len :=
  Nat.lt_of_lt_of_le (Bytes.ofLe_lt _) (Nat.pow_le_pow_right (by decide) (by rw [List.length_take]; omega))

/-- The size that loadSegs() answers is that of what is mapped, whatever the file has. -/
theorem loadSegs_loads {n off sz : Nat} {e : Exe} (h : Layout s r (pages sz) tf) (hk : 0 < s.kend) (hu : AllUser s r (pages sz)) :
    Runs (loadSegs r n off sz e) s (fun x t => x.2 = e ∧ Layout t r (pages x.1.2) tf ∧ Local s t r) := by
  induction n generalizing s off sz with
  | zero => exact runs_pure ⟨rfl, h, .refl s r⟩
  | succ n ih =>
    have hstop : Runs ((pure (false, sz) : ExecM (Bool × Nat)) e) s (fun x t => x.2 = e ∧ Layout t r (pages x.1.2) tf ∧ Local s t r) :=
      runs_pure ⟨rfl, h, .refl s r⟩
    rw [loadSegs]
    refine runs_readi ?_
    generalize (e.file _ _).take _ = bs
    have hv64 : (Proghdr.ofBytes bs).vaddr < 2 ^ 64 := fieldAt_lt bs 16 8
    have hm64 : (Proghdr.ofBytes bs).memsz < 2 ^ 64 := fieldAt_lt bs 40 8
    generalize Proghdr.ofBytes bs = ph at hv64 hm64
    refine runs_if (fun _ => hstop) fun _ => runs_if (fun _ => ih h hk hu) fun _ => runs_if (fun _ => hstop) fun hmem =>
      runs_if (fun _ => hstop) fun hwrap => runs_if (fun _ => hstop) fun hal => ?_
    have hsum : (ph.vaddr + ph.memsz) % 2 ^ 64 = ph.vaddr + ph.memsz := by
      generalize ph.vaddr = v at *
      generalize ph.memsz = m at *
      clear ih
      omega
    rw [hsum]
    refine runs_lift (h.uvmalloc hu) fun sz1 t ⟨hloc, hzero, hgrown⟩ => ?_
    refine runs_if (fun h0 => runs_pure ⟨rfl, hzero h0, hloc⟩) fun h0 => ?_
    obtain ⟨hle, hlay, hu1⟩ := hgrown h0
    have hend : ph.vaddr + ph.filesz ≤ pages sz1 * PGSIZE :=
      Nat.le_trans (Nat.le_trans (Nat.add_le_add_left (Nat.not_lt.mp hmem) _) hle) (le_pages sz1)
    refine runs_exec (loadseg_loads hlay (hloc.kend ▸ hk) hu1 (Nat.eq_zero_of_not_pos (by omega)) hend) fun res e' u ⟨he, hl⟩ => ?_
    cases he
    refine runs_if (fun _ => runs_pure ⟨rfl, hl.layout, hloc.trans hl.isLocal⟩) fun _ => ?_
    exact (ih hl.layout (hl.isLocal.kend ▸ hloc.kend ▸ hk) (hl.user hu1)).mono fun x w ⟨hx, hw, hlw⟩ =>
      ⟨hx, hw, (hloc.trans hl.isLocal).trans hlw⟩

end

/- exec() -/

/-- A process that calls exec(). -/
structure Caller (s : Ram) (tramp tf : Nat) (p : Proc) : Prop where
  layout : Layout s p.pagetable (pages p.sz) tf
  trapframe : p.trapframe = tf * PGSIZE
  ram : s.InRam tf
  free : tf ∉ s.freelist
  kend : 0 < s.kend
  tramp : tramp < 2 ^ 64

/-- The program's inode is found and locked. -/
def Exe.opened (e : Exe) : Exe := { e with ops := e.ops + 1, refs := e.refs + 1, locked := true }

def Exe.header (e : Exe) : List UInt8 := (e.file 0 Elfhdr.size).take Elfhdr.size

/-- exec() loads the program, and comes to the stack with the page table `pt`, the size `sz` and the memory `u`. -/
structure Reaches (tramp : Nat) (p : Image) (e : Exe) (s : Ram) (pt sz : Nat) (u : Ram) : Prop where
  found : e.found = true
  header : e.header.length = Elfhdr.size ∧ (Elfhdr.ofBytes e.header).magic = ELF_MAGIC
  loads : ∃ t, procPagetable tramp p.proc.trapframe s = .ok (some pt) t ∧
    loadSegs pt (Elfhdr.ofBytes e.header).phnum ((Elfhdr.ofBytes e.header).phoff % 2 ^ 32) 0 e.opened t =
      .ok ((true, sz), e.opened) u

section
variable {s t u : Ram} {tramp tf : Nat} {p : Image} {e : Exe}

/-- exec() has failed: the process has what it had, and there is as much free memory as before. -/
structure ExecFails (s t : Ram) (p : Image) (e : Exe) (x : (Int × Image) × Exe) : Prop where
  image : x.1 = (-1, p)
  exe : x.2 = e
  released : Released s t (fun _ => False)

/-- exec() has put `q` in place of `p`, whose pages are free. -/
structure ExecDone (s t : Ram) (tf : Nat) (p q : Image) : Prop where
  layout : Layout t q.proc.pagetable (pages q.proc.sz) tf
  trapframe : q.proc.trapframe = p.proc.trapframe
  a1 : q.a1 = q.sp
  held : ∀ n, (n ∈ t.freelist ∨ t.Owns q.proc.pagetable n) ↔ (n ∈ s.freelist ∨ s.Owns p.proc.pagetable n)
  page : ∀ n, n ∉ s.freelist → ¬ s.Owns p.proc.pagetable n → t.page n = s.page n

theorem Released.refl (hs : s.Ok) : Released s s (fun _ => False) := ⟨hs, fun _ _ _ => rfl, fun _ => (or_false _).symm ▸ Iff.rfl, rfl⟩

theorem Untouched.layout {r np : Nat} (hu : Untouched s t r) (h : Layout s r np tf) (ht : t.Ok) (hk : t.kend = s.kend) : Layout t r np tf :=
  h.of_top (hu.space h.space ht hk) fun w _ _ => hu.leaf w

theorem Released.untouched {r q np : Nat} (hr : Released s t (s.Owns q)) (h : Space s r np) (ha : Apart s r q) : Untouched s t r := by
  refine ⟨fun n hn => hr.page n (h.not_free hn) (ha n hn), fun n hn hin => ?_⟩
  rcases (hr.list n).mp hin with hin | hin
  · exact h.not_free hn hin
  · exact ha n hn hin

/-- The old program is released under the new one. -/
theorem ExecDone.of_released {q : Image} (hold : Untouched s u p.proc.pagetable) (hcr : Created s u q.proc.pagetable)
    (hr : Released u t (u.Owns p.proc.pagetable)) (hu : Untouched u t q.proc.pagetable)
    (hlay : Layout u q.proc.pagetable (pages q.proc.sz) tf) (htf : q.proc.trapframe = p.proc.trapframe) (ha : q.a1 = q.sp) :
    ExecDone s t tf p q where
  layout := hu.layout hlay hr.ok hr.kend
  trapframe := htf
  a1 := ha
  held n := by rw [hr.list, hu.owns, hold.owns, or_right_comm, hcr.held]
  page n hfree hn := by
    have hnot := mt (hcr.held n).mp hfree
    rw [hr.page n (fun hin => hnot (.inl hin)) (mt (hold.owns n).mp hn), hcr.page n hfree]

/-- The inode is let go of and the operation is over. -/
def Exe.closed (e : Exe) : Exe := { e with locked := false, refs := e.refs - 1, ops := e.ops - 1 }

theorem bad_runs {pt sz : Nat} {ip : Bool} (h : Layout s pt (pages sz) tf) :
    Runs (bad (some pt) sz ip e) s (fun x t => x.2 = (if ip then e.closed else e) ∧ Released s t (s.Owns pt)) := by
  refine runs_lift h.free fun _ t ht => ?_
  cases ip with
  | true => exact runs_pure ⟨rfl, ht⟩
  | false => exact runs_pure ⟨rfl, ht⟩

theorem exec_runs {path : List UInt8} {argv : List (List UInt8)} {R : Nat → Nat → Ram → Option Nat × Nat → Ram → Prop}
    (h : Caller s tramp tf p.proc) (he : e.locked = false)
    (hstack : ∀ pt sz u, Layout u pt (pages sz) tf → Runs (execStack pt sz argv) u (fun y v =>
      Layout v pt (pages y.2) tf ∧ Local u v pt ∧ R pt sz u y v)) :
    Runs (exec tramp p path argv e) s (fun x t =>
      (ExecFails s t p e x ∧ ∀ pt sz u, Reaches tramp p e s pt sz u → Runs (execStack pt sz argv) u (fun y v => y.1 = none ∧ R pt sz u y v)) ∨
      (x.1.1 = argv.length ∧ x.2 = e ∧ ExecDone s t tf p x.1.2 ∧ ∃ sz u v, R x.1.2.proc.pagetable sz u (some x.1.2.sp, x.1.2.proc.sz) v ∧
        Untouched v t x.1.2.proc.pagetable)) := by
  have hclosed : e.opened.closed = e := by
    rw [Exe.closed, Exe.opened, ← he]
    rfl
  have hnew := procPagetable_creates h.layout.space.ok h.tramp h.ram.2
  rw [← h.trapframe] at hnew
  rw [exec]
  refine runs_modify (runs_namei (fun hfound => runs_modify (runs_readi (runs_if (fun hbad => ?_) fun hgood => ?_))) fun hfound => ?_)
  · refine runs_pure (.inl ⟨⟨rfl, hclosed, .refl h.layout.space.ok⟩, fun pt sz u hr => ?_⟩)
    rcases hbad with hbad | hbad
    · exact absurd hr.header.1 hbad
    · exact absurd hr.header.2 hbad
  · rw [not_or, not_not, not_not] at hgood
    refine runs_lift hnew.tracked fun o t ⟨hrun, ht⟩ => ?_
    cases o with
    | none =>
      refine runs_pure (.inl ⟨⟨rfl, hclosed, ht⟩, fun pt sz u hr => ?_⟩)
      obtain ⟨t', ht', -⟩ := hr.loads
      cases hrun.symm.trans ht'
    | some pt =>
      obtain ⟨hlay, hcr⟩ := ht
      refine runs_exec (loadSegs_loads (show Layout t pt (pages 0) tf from hlay) (hcr.kend ▸ h.kend) nofun).tracked fun y e' u hy => ?_
      obtain ⟨loaded, sz⟩ := y
      obtain ⟨hrun', he', hlayu, hloc⟩ := hy
      cases he'
      have hsame : ∀ pt' sz' u', Reaches tramp p e s pt' sz' u' → pt' = pt ∧ loaded = true ∧ sz' = sz ∧ u' = u := fun pt' sz' u' hr => by
        obtain ⟨t', ht', hu'⟩ := hr.loads
        cases hrun.symm.trans ht'
        cases hrun'.symm.trans hu'
        exact ⟨rfl, rfl, rfl, rfl⟩
      have hcu := hcr.local_ hloc
      cases loaded with
      | false =>
        refine runs_exec (bad_runs hlayu) fun _ e' v ⟨he', hv⟩ => ?_
        cases he'
        exact runs_pure (.inl ⟨⟨rfl, hclosed, hcu.released hv⟩, fun pt' sz' u' hr => nomatch (hsame _ _ _ hr).2.1⟩)
      | true =>
        refine runs_modify (runs_modify (runs_lift (hstack pt sz u hlayu).tracked fun y v ⟨hrun2, hlayv, hlocv, hR⟩ => ?_))
        obtain ⟨o, sz1⟩ := y
        have hcv := hcu.local_ hlocv
        cases o with
        | none =>
          refine runs_exec (bad_runs hlayv) fun _ e' w ⟨he', hw⟩ => ?_
          cases he'
          refine runs_pure (.inl ⟨⟨rfl, hclosed, hcv.released hw⟩, fun pt' sz' u' hr => ?_⟩)
          obtain ⟨rfl, -, rfl, rfl⟩ := hsame _ _ _ hr
          exact ⟨_, _, hrun2, rfl, hR⟩
        | some sp =>
          have hold := hcv.untouched h.layout.space
          have hapart : Apart v pt p.proc.pagetable := fun n hn hn' => hcv.apart h.layout.space n hn' hn
          refine runs_lift (hold.layout h.layout hlayv.space.ok hcv.kend).free fun _ w hw => ?_
          have hun := hw.untouched hlayv.space hapart
          exact runs_pure (.inr ⟨rfl, hclosed, .of_released hold hcv hw hun hlayv rfl rfl, sz, u, v, hR, hun⟩)
  · refine runs_pure (.inl ⟨⟨rfl, rfl, .refl h.layout.space.ok⟩, fun pt sz u hr => ?_⟩)
    cases hfound.symm.trans hr.found

theorem Untouched.load {r a : Nat} (hu : Untouched s t r) (ha : a / PGSIZE < TOP) : t.load r a = s.load r a := by
  have hmax : a < MAXVA := by
    simp only [TOP, TRAPFRAME, TRAMPOLINE, PGSIZE, MAXVA] at ha ⊢
    omega
  rw [load_eq t r hmax, load_eq s r hmax, hu.leaf]
  cases hl : s.leaf r (a / PGSIZE) with
  | none => rfl
  | some pte => rw [Option.map_some, Option.map_some, hu.page _ (.inr ⟨_, ha, pte, hl, rfl⟩)]

theorem HoldsAt.load {r va hi : Nat} {bs : List UInt8} (h : HoldsAt s r va bs) (hload : ∀ a < hi, t.load r a = s.load r a)
    (hhi : va + bs.length ≤ hi) : HoldsAt t r va bs := fun j hj => by
  rw [hload _ (by omega), h j hj]

theorem ArgStack.load {r sp base top : Nat} {argv : List (List UInt8)} {ptrs : List Nat} (h : ArgStack s r sp base top argv ptrs)
    (hload : ∀ a < top, t.load r a = s.load r a) : ArgStack t r sp base top argv ptrs where
  array := h.array.load hload (by rw [length_array, h.strings.length]; exact h.top)
  strings := { h.strings with
    holds := fun x hx => (h.strings.holds x hx).load hload (by
      rw [List.length_append]
      exact (h.strings.within x hx).2) }
  align := h.align
  base := h.base
  top := h.top

/-- What execStack() comes to. -/
def StackOutcome (tf : Nat) (argv : List (List UInt8)) (pt sz : Nat) (u : Ram) (y : Option Nat × Nat) (v : Ram) : Prop :=
  y = (none, pgroundup sz) ∧ NoStack u pt sz ∨
  y.2 = pgroundup sz + (USERSTACK + 1) * PGSIZE ∧ StackMade u v pt (pages sz) tf argv y.1

theorem Layout.stackOutcome {argv : List (List UInt8)} {pt sz : Nat} (h : Layout u pt (pages sz) tf)
    (hlen : ∀ arg ∈ argv, arg.length < PGSIZE) (hargc : argv.length < MAXARG) :
    Runs (Vm.execStack pt sz argv) u (fun y v => Layout v pt (pages y.2) tf ∧ Local u v pt ∧ StackOutcome tf argv pt sz u y v) := by
  have hround := pgroundup_eq h.space.lt
  refine (h.execStack hlen hargc).mono fun y v hy => ?_
  rcases hy with ⟨rfl, hno, hlay, hloc⟩ | ⟨hsz, hmade⟩
  · refine ⟨?_, hloc, .inl ⟨rfl, hno⟩⟩
    rwa [hround, pages_mul]
  · refine ⟨?_, hmade.isLocal, .inr ⟨hsz, hmade⟩⟩
    rw [hsz, hround, ← Nat.add_mul, pages_mul]
    exact hmade.layout

/-- exec() of at most MAXARG - 1 strings below the size of a page. If it fails though it has loaded the program, then there
is no memory for the stack, or the strings and the array do not fit in it and nothing is written below it. -/
theorem exec_argument_stack {path : List UInt8} {argv : List (List UInt8)} (h : Caller s tramp tf p.proc) (he : e.locked = false)
    (hargc : argv.length < MAXARG) (hlen : ∀ arg ∈ argv, arg.length < PGSIZE) :
    Runs (exec tramp p path argv e) s (fun x t =>
      (x.1.1 = -1 ∧ ∀ pt sz u, Reaches tramp p e s pt sz u → NoStack u pt sz ∨
        ¬ Fits argv ∧ Runs (execStack pt sz argv) u (fun y v => StackMade u v pt (pages sz) tf argv none ∧ y.1 = none)) ∨
      (x.1.1 = argv.length ∧ Fits argv ∧ x.1.2.a1 = x.1.2.sp ∧ ∃ ptrs,
        ArgStack t x.1.2.proc.pagetable x.1.2.sp (x.1.2.proc.sz - USERSTACK * PGSIZE) x.1.2.proc.sz argv ptrs)) := by
  refine (exec_runs h he fun pt sz u hlay => hlay.stackOutcome hlen hargc).mono fun x t hx => ?_
  rcases hx with ⟨hfail, hstack⟩ | ⟨hret, -, hdone, sz, u, v, hout, hun⟩
  · refine .inl ⟨by rw [hfail.image], fun pt sz u hr => ?_⟩
    obtain ⟨y, v, hrun, hnone, hy⟩ := hstack pt sz u hr
    rcases hy with ⟨-, hno⟩ | ⟨-, hmade⟩
    · exact .inl hno
    · rw [hnone] at hmade
      exact .inr ⟨hmade.fits.mp rfl, y, v, hrun, hmade, hnone⟩
  · rcases hout with ⟨hnone, -⟩ | ⟨hsz, hmade⟩
    · cases hnone
    · obtain ⟨ptrs, hargs⟩ := hmade.args _ rfl
      have hfits : Fits argv := by
        by_contra hnot
        cases hmade.fits.mpr hnot
      have hlt := hmade.layout.space.lt
      have htop : x.1.2.proc.sz = (pages sz + (USERSTACK + 1)) * PGSIZE := by
        rw [Nat.add_mul, ← pgroundup_eq (Nat.lt_of_le_of_lt (Nat.le_add_right _ _) hlt)]
        exact hsz
      have hbase : x.1.2.proc.sz - USERSTACK * PGSIZE = (pages sz + 1) * PGSIZE := by
        rw [htop, ← Nat.sub_mul]
        rfl
      rw [← htop, ← hbase] at hargs
      refine .inr ⟨hret, hfits, hdone.a1, ptrs, hargs.load fun a ha => hun.load ?_⟩
      refine Nat.lt_trans (Nat.div_lt_of_lt_mul ?_) hlt
      rwa [Nat.mul_comm, ← htop]

/-- exec() of any file, with any arguments and with any allocation failing, comes to its end: it does not panic. -/
theorem exec_never_panics {path : List UInt8} {argv : List (List UInt8)} (h : Caller s tramp tf p.proc) (he : e.locked = false) :
    ∃ x t, exec tramp p path argv e s = .ok x t ∧ (x.1.1 = -1 ∨ x.1.1 = argv.length) := by
  have hrun : Runs (exec tramp p path argv e) s _ := exec_runs h he (R := fun _ _ _ _ _ => True) fun pt sz u hlay =>
    (hlay.execStack_keeps argv).mono fun _ _ hy => ⟨hy.1, hy.2, trivial⟩
  refine hrun.mono fun x t hx => ?_
  rcases hx with ⟨hfail, -⟩ | ⟨hret, -⟩
  · exact .inl (congrArg Prod.fst hfail.image)
  · exact .inr hret

end

/-- A program of no segments. -/
def emptyElf : Exe :=
  ⟨fun off n => ((([0x7F, 0x45, 0x4C, 0x46] : List UInt8) ++ List.replicate 60 0).drop off).take n, true, 0, 0, false⟩

def parentImage : Image := ⟨⟨0, 0x80002, 0x80000 * PGSIZE⟩, 0, 0, 0, []⟩

theorem caller_parentTable : Caller parentTable 0x80000000 0x80000 parentImage.proc := by
  have h := (procPagetable_creates ok_bootRam (show 0x80000000 < 2 ^ 64 by decide) (show 0x80000 * PGSIZE < PHYSTOP by decide)).after
    (a := some 0x80002) (by decide +kernel)
  exact ⟨h.1, rfl, by decide +kernel, by decide +kernel, by decide +kernel, by decide⟩

theorem exec_two_arguments : Caller parentTable 0x80000000 0x80000 parentImage.proc ∧
    Runs (exec 0x80000000 parentImage [105] [[104, 105], [33]] emptyElf) parentTable (fun x t =>
      (x.1.1 = -1 ∧ ∀ pt sz u, Reaches 0x80000000 parentImage emptyElf parentTable pt sz u → NoStack u pt sz ∨
        ¬ Fits [[104, 105], [33]] ∧ Runs (execStack pt sz [[104, 105], [33]]) u (fun y v =>
          StackMade u v pt (pages sz) 0x80000 [[104, 105], [33]] none ∧ y.1 = none)) ∨
      (x.1.1 = 2 ∧ Fits [[104, 105], [33]] ∧ x.1.2.a1 = x.1.2.sp ∧ ∃ ptrs, ArgStack t x.1.2.proc.pagetable x.1.2.sp
        (x.1.2.proc.sz - USERSTACK * PGSIZE) x.1.2.proc.sz [[104, 105], [33]] ptrs)) :=
  ⟨caller_parentTable, exec_argument_stack caller_parentTable rfl (by decide) (by decide)⟩

/-- A segment that ends at the last address but one, and one below it. -/
def hugeElf : Exe :=
  ⟨fun off n => if off = 0 then [0x7F, 0x45, 0x4C, 0x46] ++ List.replicate 28 0 ++ [64] ++ List.replicate 23 0 ++ [2] ++ List.replicate 7 0
    else [1] ++ List.replicate 39 0 ++ List.replicate (n - 40) 0xFE, true, 0, 0, false⟩

theorem exec_huge_segment : Caller parentTable 0x80000000 0x80000 parentImage.proc ∧
    ∃ x t, exec 0x80000000 parentImage [105] [[104, 105]] hugeElf parentTable = .ok x t ∧ (x.1.1 = -1 ∨ x.1.1 = 1) :=
  ⟨caller_parentTable, exec_never_panics caller_parentTable rfl⟩

end Xv6.Vm
