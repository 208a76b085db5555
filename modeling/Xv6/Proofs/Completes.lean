import Xv6.Proofs.Balance
import Xv6.Proofs.LogWrites

namespace Xv6

/-- The blocks in `W` can be logged one after the other. -/
structure Store.Room (s : Store) (W : Finset Nat) : Prop where
  header : s.lh.length + (W \ s.lh.toFinset).card < LOGSIZE
  area : s.lh.length + (W \ s.lh.toFinset).card + 1 < s.nlog

theorem Store.Room.of_le {s t : Store} {W V : Finset Nat} (h : s.Room W) (hn : t.nlog = s.nlog)
    (hle : t.lh.length + (V \ t.lh.toFinset).card ≤ s.lh.length + (W \ s.lh.toFinset).card) : t.Room V :=
  ⟨Nat.lt_of_le_of_lt hle h.header, by rw [hn]; exact Nat.lt_of_le_of_lt (Nat.succ_le_succ hle) h.area⟩

theorem Store.Room.subset {s : Store} {W V : Finset Nat} (h : s.Room W) (hv : V ⊆ W) : s.Room V :=
  h.of_le rfl (Nat.add_le_add_left (Finset.card_le_card (Finset.sdiff_subset_sdiff hv (Finset.Subset.refl _))) _)

theorem Store.Room.rest {s t : Store} {V W : Finset Nat} (h : s.Room (V ∪ W)) (hl : t.lh = s.lh)
    (hn : t.nlog = s.nlog) : t.Room W :=
  (h.subset Finset.subset_union_right).of_le hn (by rw [hl])

/-- Room for more than block `n` is room for the rest once `n` is logged. -/
theorem Store.Room.logWrite {s t : Store} {n : Nat} {W : Finset Nat} (h : s.Room (insert n W))
    (hs : s.logWrite n = .ok () t) : t.Room W := by
  simp only [Store.logWrite] at hs
  split at hs
  · cases hs
  · split at hs
    · cases hs
    · cases hs
      refine h.of_le rfl ?_
      dsimp only
      by_cases hn : n ∈ s.lh
      · rw [if_pos hn]
        exact Nat.add_le_add_left (Finset.card_le_card
          (Finset.sdiff_subset_sdiff (Finset.subset_insert n W) (Finset.Subset.refl _))) _
      · rw [if_neg hn, List.length_append, List.length_singleton, List.toFinset_append, Nat.add_assoc]
        apply Nat.add_le_add_left
        have hnew : n ∉ W \ (s.lh.toFinset ∪ [n].toFinset) := by simp
        rw [Nat.add_comm, ← Finset.card_insert_of_notMem hnew]
        apply Finset.card_le_card
        intro x hx
        simp only [Finset.mem_insert, Finset.mem_sdiff, Finset.mem_union, List.mem_toFinset,
          List.mem_singleton] at hx ⊢
        rcases hx with rfl | ⟨hx, hout⟩
        · exact ⟨.inl rfl, hn⟩
        · exact ⟨.inr hx, fun hin => hout (.inl hin)⟩

/-- A commit empties the log. -/
theorem Store.Room.endOp {s : Store} {W : Finset Nat} (h : s.Room W) : s.endOp.Room W := by
  refine h.of_le rfl ?_
  simp only [Store.endOp]
  split
  · have hcut : W.card ≤ (W \ s.lh.toFinset).card + s.lh.toFinset.card := by
      rw [← Finset.card_sdiff_add_card_inter W s.lh.toFinset]
      exact Nat.add_le_add_left (Finset.card_le_card Finset.inter_subset_right) _
    have := List.toFinset_card_le s.lh
    simp only [List.length_nil, List.toFinset_nil, Finset.sdiff_empty]
    omega
  · exact Nat.le_refl _

namespace Kern
variable {p : ProcId} {fs fs' : Fs} {α β : Type}

theorem run_room {c : Cmd β} {b : β} {W : Finset Nat} (hr : Fs.run p _ c fs = .ok b fs')
    (h : fs.st.Room (c.written.toList.toFinset ∪ W)) : fs'.st.Room W := by
  cases c with
  | bread n =>
    simp only [Fs.run, Store.bread] at hr
    split at hr
    · cases hr
    · cases hr
      exact h.rest rfl rfl
  | data n => cases hr; exact h.rest rfl rfl
  | modify n d => cases hr; exact h.rest rfl rfl
  | logWrite n =>
    simp only [Fs.run] at hr
    cases hs : fs.st.logWrite n with
    | ok a t =>
      rw [hs] at hr
      cases hr
      exact Store.Room.logWrite h hs
    | wait => rw [hs] at hr; cases hr
    | fail e => rw [hs] at hr; cases hr
  | brelse n => cases hr; exact h.rest rfl rfl
  | beginOp =>
    simp only [Fs.run, Store.beginOp] at hr
    split at hr
    · cases hr
    · cases hr
      exact h.rest rfl rfl
  | endOp =>
    cases hr
    exact (h.subset Finset.subset_union_right).endOp
  | mem f =>
    simp only [Fs.run] at hr
    cases hf : f p fs.mem with
    | ok a m =>
      rw [hf] at hr
      cases hr
      exact h.rest rfl rfl
    | wait => rw [hf] at hr; cases hr
    | fail e => rw [hf] at hr; cases hr

theorem exec_room {m : KernM α} {a : α} {W : Finset Nat} (he : m.exec (Fs.run p) fs = .ok a fs')
    (h : fs.st.Room ((logWrites p m fs).toFinset ∪ W)) : fs'.st.Room W := by
  induction m generalizing fs with
  | ret b =>
    cases he
    exact h.subset Finset.subset_union_right
  | cmd c k ih =>
    rw [Free.exec] at he
    cases hc : Fs.run p _ c fs with
    | ok b t =>
      rw [hc] at he
      rw [logWrites, Free.picks, hc, List.toFinset_append, Finset.union_assoc] at h
      exact ih b he (run_room hc h)
    | wait => rw [hc] at he; cases he
    | fail e => rw [hc] at he; cases he

/-- The log has room for what the run writes. -/
def Fits (p : ProcId) (m : KernM α) (fs : Fs) : Prop :=
  logWrites p m fs ≠ [] → fs.st.Room (logWrites p m fs).toFinset

theorem Fits.left {m : KernM α} {f : α → KernM β} (h : Fits p (m >>= f) fs) : Fits p m fs := by
  intro hne
  rw [Fits, logWrites, Free.picks_bind] at h
  refine (h fun hnil => hne (List.append_eq_nil_iff.mp hnil).1).subset ?_
  rw [List.toFinset_append]
  exact Finset.subset_union_left

theorem Fits.right {m : KernM α} {f : α → KernM β} {a : α} (h : Fits p (m >>= f) fs)
    (he : m.exec (Fs.run p) fs = .ok a fs') : Fits p (f a) fs' := by
  intro hne
  rw [Fits, logWrites, Free.picks_bind, he] at h
  refine exec_room he ?_
  rw [logWrites, logWrites, ← List.toFinset_append]
  exact h fun hnil => hne (List.append_eq_nil_iff.mp hnil).2

/-- A bound on the blocks that are written is enough room. -/
theorem Spends.fits {m : KernM α} {k : Nat} {Q : List Nat → α → Fs → Prop} (h : Spends [] p m fs k Q)
    (hheader : fs.st.lh.length + k < LOGSIZE) (harea : fs.st.lh.length + k + 1 < fs.st.nlog) : Fits p m fs := by
  obtain ⟨L, hlen, hin, -⟩ := h
  intro _
  have hcard : ((logWrites p m fs).toFinset \ fs.st.lh.toFinset).card ≤ k := by
    calc ((logWrites p m fs).toFinset \ fs.st.lh.toFinset).card
        ≤ (logWrites p m fs).toFinset.card := Finset.card_le_card Finset.sdiff_subset
      _ ≤ L.toFinset.card := Finset.card_le_card fun n hn => List.mem_toFinset.mpr (hin n (List.mem_toFinset.mp hn))
      _ ≤ k := Nat.le_trans (List.toFinset_card_le L) hlen
  exact ⟨by omega, by omega⟩

theorem Even.debt {m : KernM α} {a : α} (h : Even m) (he : m.exec (Fs.run p) fs = .ok a fs') :
    fs'.debt = fs.debt :=
  owes_sound (K := fun _ x => x = fs.debt) (h.owes fun _ => rfl) he

/-- The run comes to its end: it does not wait and it does not panic. -/
def Halts (p : ProcId) (m : KernM α) (fs : Fs) : Prop := ∃ a fs', m.exec (Fs.run p) fs = .ok a fs'

/-- The run comes to its end, provided for one that writes that the log has room. -/
def Completes (w : Prop) (p : ProcId) (m : KernM α) (fs : Fs) : Prop := (w → Fits p m fs) → Halts p m fs

/-- What a rule without exceptions says of a run that has come to its end. -/
theorem of_ok {m : KernM α} {Q : α → Fs → Prop} {a : α} {fs' : Fs} (h : m.Ensures (Fs.run p) (fun _ => True) Q fs)
    (he : m.exec (Fs.run p) fs = .ok a fs') : Q a fs' := h.ok_of_exec he

theorem Completes.ensures {w : Prop} {m : KernM α} {Q : α → Fs → Prop} (hm : Completes w p m fs)
    (hw : w → Fits p m fs) (h : m.Ensures (Fs.run p) (fun _ => True) Q fs) :
    ∃ a fs', m.exec (Fs.run p) fs = .ok a fs' ∧ Q a fs' := by
  obtain ⟨a, fs', he⟩ := hm hw
  exact ⟨a, fs', he, h.ok_of_exec he⟩

section Rules
variable {w : Prop} {n : Nat} {f : β → KernM α}

theorem completes_pure (a : α) : Completes w p (pure a : KernM α) fs := fun _ => ⟨a, fs, rfl⟩

theorem Completes.bind {m : KernM β} (hm : Completes w p m fs)
    (hf : ∀ b fs', m.exec (Fs.run p) fs = .ok b fs' → Completes w p (f b) fs') :
    Completes w p (m >>= f) fs := by
  intro hfit
  obtain ⟨b, fs', he⟩ := hm fun hw => (hfit hw).left
  obtain ⟨a, fs'', he'⟩ := hf b fs' he fun hw => (hfit hw).right he
  exact ⟨a, fs'', by rw [Free.exec_seq he, he']⟩

theorem Completes.ite {c : Prop} [Decidable c] {m m' : KernM α} (ht : c → Completes w p m fs)
    (hf : ¬ c → Completes w p m' fs) : Completes w p (if c then m else m') fs := by
  split
  · exact ht ‹_›
  · exact hf ‹_›

theorem Completes.when {c : Prop} [Decidable c] {m : KernM Unit} (h : c → Completes w p m fs) :
    Completes w p (when c m) fs := .ite h fun _ => completes_pure ()

/-- A command that answers in every state. -/
theorem completes_call {c : Cmd β} {b : β} {fs' : Fs} (hc : Fs.run p _ c fs = .ok b fs')
    (h : Completes w p (f b) fs') : Completes w p (Free.call c >>= f) fs := by
  have hrun : (Free.call c).exec (Fs.run p) fs = .ok b fs' := by rw [Free.exec_call, hc]
  refine Completes.bind (fun _ => ⟨b, fs', hrun⟩) fun b' fs'' he => ?_
  cases hrun.symm.trans he
  exact h

theorem completes_get {g : Mem → β} (h : Completes w p (f (g fs.mem)) fs) :
    Completes w p (get g >>= f) fs := completes_call rfl h

theorem completes_update {g : Mem → Mem} {f : Unit → KernM α} (h : Completes w p (f ()) { fs with mem := g fs.mem }) :
    Completes w p (update g >>= f) fs := completes_call rfl h

theorem completes_bdata {f : Block → KernM α} (h : Completes w p (f (fs.st.cur n)) fs) :
    Completes w p (bdata n >>= f) fs := completes_call rfl h

theorem completes_bmodify {d : Block} {f : Unit → KernM α}
    (h : Completes w p (f ()) { fs with st := fs.st.modify n d }) : Completes w p (bmodify n d >>= f) fs :=
  completes_call rfl h

theorem completes_brelse {f : Unit → KernM α} (h : Completes w p (f ()) { fs with st := fs.st.brelse n }) :
    Completes w p (brelse n >>= f) fs := completes_call rfl h

theorem completes_brelse_last : Completes w p (brelse n) fs := fun _ => ⟨(), _, rfl⟩

theorem completes_bread {f : Nat → KernM α} (hn : n ∉ fs.st.held)
    (h : ∀ st, st.held = n :: fs.st.held → st.outstanding = fs.st.outstanding → fs.st.Apart n st →
      Completes w p (f n) { fs with st := st }) : Completes w p (bread n >>= f) fs := by
  have hrun : (bread n).exec (Fs.run p) fs = .ok n { fs with st := { fs.st with
      cur := fs.st.refill n, held := n :: fs.st.held, evict := fs.st.evict.tail } } := by
    simp [bread, Free.exec_bind, Free.exec_call, Fs.run, Store.bread, hn, Fs.after, Free.exec_pure]
  refine Completes.bind (fun _ => ⟨_, _, hrun⟩) fun b fs' he => ?_
  cases hrun.symm.trans he
  exact h _ rfl rfl (fs.st.refill_apart n _ _)

/-- A block that nothing is missing from in the log is read as it is. -/
theorem completes_bread_calm {f : Nat → KernM α} (hn : n ∉ fs.st.held) (hc : fs.st.cur n = fs.st.logged n)
    (h : ∀ st, st.held = n :: fs.st.held → st.outstanding = fs.st.outstanding → fs.st.Same st →
      Completes w p (f n) { fs with st := st }) : Completes w p (bread n >>= f) fs := by
  have hrun : (bread n).exec (Fs.run p) fs = .ok n { fs with st := { fs.st with
      cur := fs.st.refill n, held := n :: fs.st.held, evict := fs.st.evict.tail } } := by
    simp [bread, Free.exec_bind, Free.exec_call, Fs.run, Store.bread, hn, Fs.after, Free.exec_pure]
  refine Completes.bind (fun _ => ⟨_, _, hrun⟩) fun b fs' he => ?_
  cases hrun.symm.trans he
  exact h _ rfl rfl ⟨Store.refill_calm hc, rfl⟩

end Rules

theorem logWrites_logWrite (n : Nat) : logWrites p (logWrite n) fs = [n] := by
  simp only [logWrites, logWrite, Free.call, Free.picks, Cmd.written, Option.toList_some]
  cases Fs.run p _ (Cmd.logWrite n) fs <;> rfl

theorem completes_logWrite {n : Nat} (ho : 1 ≤ fs.st.outstanding) : Completes True p (logWrite n) fs := by
  intro hfit
  have hroom := hfit trivial (by rw [logWrites_logWrite]; simp)
  have h₁ := hroom.header
  have h₂ := hroom.area
  have hrun : fs.st.logWrite n = .ok () { fs.st with
      logged := setAt fs.st.logged n (fs.st.cur n), lh := if n ∈ fs.st.lh then fs.st.lh else fs.st.lh ++ [n] } := by
    rw [Store.logWrite, if_neg (by omega), if_neg (by omega)]
  exact ⟨(), _, by rw [logWrite, Free.exec_call, Fs.run, hrun]; rfl⟩

/-- The end of a change of block `n`. -/
theorem completes_put {n : Nat} {d : Block} {m : KernM α} (ho : 1 ≤ fs.st.outstanding)
    (h : ∀ st, st.held = fs.st.held → st.outstanding = fs.st.outstanding → st.cur = setAt fs.st.cur n d →
      st.logged = setAt fs.st.logged n d → Completes True p m { fs with st := st }) :
    Completes True p (do bmodify n d; logWrite n; m) fs := by
  refine completes_bmodify (Completes.bind (completes_logWrite ho) fun _ fs' he => ?_)
  have hdebt := (even_logWrite n).debt he
  have hput : (logWrite n).Ensures (Fs.run p) (fun _ => True) (fun _ fs' => ∃ st, fs' = ⟨fs.mem, st⟩ ∧
      st.cur = setAt fs.st.cur n d ∧ st.logged = setAt fs.st.logged n d) { fs with st := fs.st.modify n d } := by
    apply ensures_logWrite fun _ _ _ _ _ => trivial
    exact fun st hc hl => ⟨st, rfl, hc, by rw [hl]; simp [Store.modify]⟩
  obtain ⟨st, rfl, hc, hl⟩ := hput.ok_of_exec he
  exact h st (congrArg Prod.fst hdebt) (congrArg Prod.snd hdebt) hc hl

/- The functions below writei() and readi(). -/

theorem completes_bzero {b : Nat} (hb : b ∉ fs.st.held) (ho : 1 ≤ fs.st.outstanding) :
    Completes True p (bzero b) fs := by
  refine completes_bread hb fun st _ ho₁ _ => completes_put (by rw [ho₁]; exact ho) fun st' _ _ _ _ => ?_
  exact completes_brelse_last

section Disk
variable {sb : Superblock} {ino : Nat → Dinode} {ahead loose : List Nat} {ip : InodePtr} {i : Nat}

/-- The buffers that are locked are of blocks in use, and none of them is a bitmap block. -/
def HoldsUsed (sb : Superblock) (fs : Fs) : Prop :=
  ∀ n ∈ fs.st.held, (∀ x < sb.size, n ≠ sb.bblock x) ∧ used sb fs.st.cur n

theorem HoldsUsed.of_nil (h : fs.st.held = []) : HoldsUsed sb fs := by
  intro n hn
  rw [h] at hn
  cases hn

theorem completes_ballocFrom (hcalm : ∀ x < sb.size, fs.st.cur (sb.bblock x) = fs.st.logged (sb.bblock x))
    (hh : HoldsUsed sb fs) (ho : 1 ≤ fs.st.outstanding) (fuel b : Nat) (hb : b % BPB = 0) :
    Completes True p (ballocFrom sb fuel b) fs := by
  induction fuel generalizing b fs with
  | zero => exact completes_pure 0
  | succ fuel ih =>
    refine .ite (fun hlt => ?_) (fun _ => completes_pure 0)
    have hbit : sb.bblock b ∉ fs.st.held := fun hin => (hh _ hin).1 b hlt rfl
    refine completes_bread_calm hbit (hcalm b hlt) fun st hheld hout hs => completes_bdata ?_
    split
    · rename_i bi hbi
      obtain ⟨-, hbi, hp, -⟩ := firstFrom_some hbi
      rw [Bool.and_eq_true] at hp
      have hblk : sb.bblock (b + bi) = sb.bblock b := by
        rw [bblock_eq_iff]
        rw [BPB_eq] at *
        omega
      have hmod : (b + bi) % BPB = bi := by
        rw [BPB_eq] at *
        omega
      -- a clear bit is not the bit of a locked buffer
      have hfree : b + bi ∉ fs.st.held := by
        intro hin
        have hu := (hh _ hin).2
        have hc := hp.2
        rw [used, hblk, hmod] at hu
        simp only [hs.cur, hu] at hc
        cases hc
      refine completes_put (by rw [hout]; exact ho) fun st₁ hheld₁ hout₁ _ _ => completes_brelse ?_
      refine Completes.bind (completes_bzero ?_ ?_) fun _ _ _ => completes_pure _
      · simpa [Store.brelse, hheld₁, hheld] using hfree
      · simpa [Store.brelse, hout₁, hout] using ho
    · have hs₁ := hs.trans (Store.brelse_same (by rw [hs.cur, hs.logged]; exact hcalm b hlt))
      have hheld₁ : (st.brelse (sb.bblock b)).held = fs.st.held := by simp [Store.brelse, hheld]
      have hcalm₁ : ∀ x < sb.size, (st.brelse (sb.bblock b)).cur (sb.bblock x) =
          (st.brelse (sb.bblock b)).logged (sb.bblock x) := fun x hx => by
        rw [hs₁.cur, hs₁.logged]
        exact hcalm x hx
      refine completes_brelse (ih hcalm₁ ?_ ?_ _ (by rw [Nat.add_mod_right]; exact hb))
      · intro n hn
        rw [hheld₁] at hn
        rw [hs₁.cur]
        exact hh n hn
      · simpa [Store.brelse, hout] using ho

theorem completes_balloc (hm : fs.mem.sb = sb) (hd : OnDisk sb ino ahead loose fs.st.cur fs.st.logged)
    (hh : HoldsUsed sb fs) (ho : 1 ≤ fs.st.outstanding) : Completes True p balloc fs := by
  subst hm
  exact completes_get (completes_ballocFrom (fun _ hx => hd.calm_meta (Superblock.Ok.bblock_lt hx)) hh ho _ 0
    (Nat.zero_mod _))

theorem completes_bmapIndirect (h : Backed sb ino ip i fs) (hheld : fs.st.held = [])
    (ho : 1 ≤ fs.st.outstanding) (ha : (ino i).addrs.getD NDIRECT 0 ≠ 0) (bn : Nat) :
    Completes True p (bmapIndirect ((ino i).addrs.getD NDIRECT 0) bn) fs := by
  generalize haddr : (ino i).addrs.getD NDIRECT 0 = a at *
  have hown : ptrs ino fs.st.cur (i, NDIRECT) = a := by
    rw [ptrs_live h.live, ptr_indirect, haddr]
  have hrange := h.disk.owned.range (i, NDIRECT) (by rw [hown]; exact ha)
  rw [hown] at hrange
  have hcalm := h.disk.calm a (.inr ⟨i, NDIRECT, hown, .inl rfl⟩)
  refine completes_bread_calm (by rw [hheld]; simp) hcalm fun st hst hout hs => completes_bdata ?_
  have h₁ := h.same hs
  refine .ite (fun _ => ?_) (fun _ => completes_brelse (completes_pure _))
  refine Completes.bind (completes_balloc h₁.super h₁.disk ?_ ?_) fun b fs₂ he => ?_
  · intro n hn
    rw [hst, hheld] at hn
    obtain rfl := List.mem_singleton.mp hn
    refine ⟨fun x hx he => ?_, (h₁.disk.owned.exact _ hrange.2).mpr (.inr (.inl ⟨(i, NDIRECT), ?_⟩))⟩
    · have := Superblock.Ok.bblock_lt hx
      omega
    · rw [hs.cur]
      exact hown
  · rw [hout]
    exact ho
  · have hout₂ : fs₂.st.outstanding = st.outstanding := congrArg Prod.snd (even_balloc.debt he)
    refine Completes.bind (.when fun _ => completes_bmodify (completes_logWrite ?_)) fun _ _ _ =>
      completes_brelse (completes_pure _)
    change 1 ≤ fs₂.st.outstanding
    rw [hout₂, hout]
    exact ho

theorem completes_setCopy {w : Prop} {g : Dinode → Dinode} : Completes w p (setCopy ip g) fs := fun _ => ⟨(), _, rfl⟩

theorem completes_bmap (hsb : sb.Ok) (h : Backed sb ino ip i fs) (hheld : fs.st.held = [])
    (ho : 1 ≤ fs.st.outstanding) {bn : Nat} (hbn : bn < MAXFILE) : Completes True p (bmap ip bn) fs := by
  have hballoc := completes_balloc (p := p) h.super h.disk (.of_nil hheld) ho
  refine .ite (fun _ => completes_get (.ite (fun _ => ?_) (fun _ => completes_pure _))) (fun hd => .ite ?_ ?_)
  · refine hballoc.bind fun b fs₁ _ => ?_
    exact Completes.bind (.when fun _ => completes_setCopy) fun _ _ _ => completes_pure _
  · intro hn
    refine completes_get ?_
    rw [h.copy]
    refine .ite (fun hz => hballoc.bind fun b fs₁ he => .ite (fun _ => completes_pure _) (fun hb₀ => ?_))
      (fun hne => completes_bmapIndirect h hheld ho hne _)
    have hdebt := even_balloc.debt he
    rcases (balloc_spec (fun _ _ _ _ _ => trivial) hsb h.super h.disk).ok_of_exec he with ⟨hz', -⟩ | ⟨-, hb⟩
    · exact absurd hz' hb₀
    · refine Completes.bind completes_setCopy fun _ fs₂ he₂ => ?_
      have hdebt₂ := (even_setCopy ip _).debt he₂
      obtain ⟨ino', h', -, -, -, hk⟩ :=
        of_ok (setAddr_spec hsb h hb (Nat.le_refl _) hz) he₂
      rw [ptr_indirect] at hk
      rw [← hk]
      refine completes_bmapIndirect h' ?_ ?_ (by rw [hk]; exact hb₀) _
      · exact ((congrArg Prod.fst hdebt₂).trans (congrArg Prod.fst hdebt)).trans hheld
      · have : fs₂.st.outstanding = fs.st.outstanding := (congrArg Prod.snd hdebt₂).trans (congrArg Prod.snd hdebt)
        omega
  · intro hn
    unfold MAXFILE at hbn
    omega

/-- The lookup of a block that is there. -/
theorem completes_bmap_there {w : Prop} (h : Backed sb ino ip i fs) (hheld : fs.st.held = []) {bn : Nat}
    (hne : (ino i).block fs.st.cur bn ≠ 0) : Completes w p (bmap ip bn) fs := by
  refine .ite (fun hd => completes_get (.ite (fun hz => ?_) (fun _ => completes_pure _))) (fun hd => ?_)
  · rw [h.copy, ← block_direct hd] at hz
    exact absurd hz hne
  · obtain ⟨hn, ha, hw⟩ := block_indirect hd hne
    rw [if_pos hn]
    refine completes_get ?_
    rw [h.copy, if_neg ha]
    have hcalm := h.disk.calm _ (.inr ⟨i, NDIRECT, by rw [ptrs_live h.live, ptr_indirect], .inl rfl⟩)
    refine completes_bread_calm (by rw [hheld]; simp) hcalm fun st _ _ hs => completes_bdata ?_
    simp only [hs.cur]
    rw [if_neg (hw ▸ hne)]
    exact completes_brelse (completes_pure _)

theorem completes_iupdate (ip : InodePtr) (hheld : fs.st.held = []) (ho : 1 ≤ fs.st.outstanding) :
    Completes True p (iupdate ip) fs := by
  refine completes_get (completes_get (completes_bread (by rw [hheld]; simp) fun st _ hout _ => ?_))
  exact completes_bdata (completes_put (by rw [hout]; exact ho) fun _ _ _ _ _ => completes_brelse_last)

end Disk
end Kern
end Xv6
