import Xv6.Store

namespace Xv6

/-- The panics these proofs are not about: all but four. -/
def Benign (ok : Panic → Prop) : Prop :=
  ∀ e, e ≠ .freeingFreeBlock → e ≠ .bmapOutOfRange → e ≠ .ilockNoType → e ≠ .unlinkNlink → ok e

/-- Two stores with the same blocks. -/
structure Store.Same (s t : Store) : Prop where
  cur : t.cur = s.cur
  logged : t.logged = s.logged

/-- Two stores that differ in block `b` at most. -/
structure Store.Apart (b : Nat) (s t : Store) : Prop where
  cur : ∀ n, n ≠ b → t.cur n = s.cur n
  logged : ∀ n, n ≠ b → t.logged n = s.logged n

namespace Store

theorem Same.refl (s : Store) : s.Same s := ⟨rfl, rfl⟩

theorem Same.trans {s t u : Store} (h : s.Same t) (h' : t.Same u) : s.Same u :=
  ⟨h'.cur.trans h.cur, h'.logged.trans h.logged⟩

/-- What they hold in block `b` does not matter once it is overwritten. -/
theorem Apart.setAt_cur {b : Nat} {s t : Store} (h : s.Apart b t) (d : Block) : setAt t.cur b d = setAt s.cur b d := by
  funext n
  by_cases hn : n = b
  · rw [hn, setAt_same, setAt_same]
  · rw [setAt_other _ _ _ hn, setAt_other _ _ _ hn, h.cur n hn]

theorem Apart.setAt_logged {b : Nat} {s t : Store} (h : s.Apart b t) (d : Block) :
    setAt t.logged b d = setAt s.logged b d := by
  funext n
  by_cases hn : n = b
  · rw [hn, setAt_same, setAt_same]
  · rw [setAt_other _ _ _ hn, setAt_other _ _ _ hn, h.logged n hn]

theorem Same.apart {s t : Store} (h : s.Same t) (b : Nat) : s.Apart b t :=
  ⟨fun n _ => congrFun h.cur n, fun n _ => congrFun h.logged n⟩

theorem refill_apart (s : Store) (b : Nat) (held : List Nat) (evict : List Bool) :
    s.Apart b { s with cur := s.refill b, held := held, evict := evict } where
  cur n hn := by
    simp only [refill]
    split
    · exact setAt_other _ _ _ hn
    · rfl
  logged _ _ := rfl

theorem refill_calm {s : Store} {b : Nat} (h : s.cur b = s.logged b) : s.refill b = s.cur := by
  unfold refill
  split
  · rw [← h, setAt_self]
  · rfl

theorem brelse_apart (s : Store) (b : Nat) : s.Apart b (s.brelse b) where
  cur _ _ := rfl
  logged n hn := by
    simp only [brelse]
    split
    · exact setAt_other _ _ _ hn
    · rfl

theorem brelse_same {s : Store} {b : Nat} (h : s.cur b = s.logged b) : s.Same (s.brelse b) where
  cur := rfl
  logged := by
    simp only [brelse]
    split
    · rw [h, setAt_self]
    · rfl

end Store

section
variable {p : ProcId} {ok : Panic → Prop} {fs : Fs} {α : Type}

/- Kernel memory. -/

theorem ensures_mem {f : ProcId → Mem → Out Panic Mem α} {Q : α → Fs → Prop} :
    (Free.call (Cmd.mem f)).Ensures (Fs.run p) ok Q fs ↔
      (f p fs.mem).Sat ok (fun a m => Q a { fs with mem := m }) := by
  rw [Free.ensures_call]
  simp only [Fs.run]
  cases f p fs.mem with
  | ok a m => rfl
  | wait => rfl
  | fail e => rfl

@[simp] theorem ensures_get {f : Mem → α} {Q : α → Fs → Prop} :
    (Kern.get f).Ensures (Fs.run p) ok Q fs ↔ Q (f fs.mem) fs := Iff.rfl

@[simp] theorem ensures_update {f : Mem → Mem} {Q : Unit → Fs → Prop} :
    (Kern.update f).Ensures (Fs.run p) ok Q fs ↔ Q () { fs with mem := f fs.mem } := Iff.rfl

theorem ensures_when {c : Prop} [Decidable c] {m : KernM Unit} {Q : Unit → Fs → Prop}
    (ht : c → m.Ensures (Fs.run p) ok Q fs) (hf : ¬ c → Q () fs) :
    (Kern.when c m).Ensures (Fs.run p) ok Q fs := by
  unfold Kern.when
  split
  · exact ht ‹_›
  · exact hf ‹_›

theorem ensures_ite {c : Prop} [Decidable c] {m n : KernM α} {Q : α → Fs → Prop}
    (ht : c → m.Ensures (Fs.run p) ok Q fs) (hf : ¬ c → n.Ensures (Fs.run p) ok Q fs) :
    (if c then m else n).Ensures (Fs.run p) ok Q fs := by
  split
  · exact ht ‹_›
  · exact hf ‹_›

/- Blocks. -/

theorem ensures_bread {b : Nat} {Q : Nat → Fs → Prop}
    (h : ∀ st, fs.st.Apart b st → Q b { fs with st := st }) :
    (Kern.bread b).Ensures (Fs.run p) ok Q fs := by
  unfold Kern.bread
  rw [Free.ensures_bind, Free.ensures_call]
  simp only [Fs.run, Store.bread]
  split
  · trivial
  · exact h _ (fs.st.refill_apart b _ _)

/-- A block that nothing is missing from in the log is read as it is. -/
theorem ensures_bread_calm {b : Nat} {Q : Nat → Fs → Prop} (hc : fs.st.cur b = fs.st.logged b)
    (h : ∀ st, fs.st.Same st → Q b { fs with st := st }) :
    (Kern.bread b).Ensures (Fs.run p) ok Q fs := by
  unfold Kern.bread
  rw [Free.ensures_bind, Free.ensures_call]
  simp only [Fs.run, Store.bread]
  split
  · trivial
  · exact h _ ⟨Store.refill_calm hc, rfl⟩

@[simp] theorem ensures_bdata {b : Nat} {Q : Block → Fs → Prop} :
    (Kern.bdata b).Ensures (Fs.run p) ok Q fs ↔ Q (fs.st.cur b) fs := Iff.rfl

@[simp] theorem ensures_bmodify {b : Nat} {d : Block} {Q : Unit → Fs → Prop} :
    (Kern.bmodify b d).Ensures (Fs.run p) ok Q fs ↔
      Q () { fs with st := fs.st.modify b d } := Iff.rfl

@[simp] theorem ensures_brelse {b : Nat} {Q : Unit → Fs → Prop} :
    (Kern.brelse b).Ensures (Fs.run p) ok Q fs ↔ Q () { fs with st := fs.st.brelse b } := Iff.rfl

theorem ensures_brelse_calm {b : Nat} {Q : Unit → Fs → Prop} (hc : fs.st.cur b = fs.st.logged b)
    (h : ∀ st, fs.st.Same st → Q () { fs with st := st }) :
    (Kern.brelse b).Ensures (Fs.run p) ok Q fs :=
  h _ (Store.brelse_same hc)

theorem ensures_logWrite (hok : Benign ok) {b : Nat} {Q : Unit → Fs → Prop}
    (h : ∀ st, st.cur = fs.st.cur → st.logged = setAt fs.st.logged b (fs.st.cur b) →
      Q () { fs with st := st }) :
    (Kern.logWrite b).Ensures (Fs.run p) ok Q fs := by
  unfold Kern.logWrite
  rw [Free.ensures_call]
  simp only [Fs.run, Store.logWrite]
  split
  · exact hok _ (by decide) (by decide) (by decide) (by decide)
  · split
    · exact hok _ (by decide) (by decide) (by decide) (by decide)
    · exact h _ rfl rfl

/-- The pair that changes a block in the log. -/
theorem ensures_modify (hok : Benign ok) {b : Nat} {d : Block} {Q : Unit → Fs → Prop}
    (h : ∀ st, st.cur = setAt fs.st.cur b d → st.logged = setAt fs.st.logged b d →
      Q () { fs with st := st }) :
    (do Kern.bmodify b d; Kern.logWrite b : KernM Unit).Ensures (Fs.run p) ok Q fs := by
  rw [Free.ensures_bind, ensures_bmodify]
  apply ensures_logWrite hok
  intro st hc hl
  apply h st hc
  rw [hl]
  simp [Store.modify]

theorem ensures_put (hok : Benign ok) {b : Nat} {d : Block} {m : KernM α} {Q : α → Fs → Prop}
    (h : ∀ st, st.cur = setAt fs.st.cur b d → st.logged = setAt fs.st.logged b d →
      m.Ensures (Fs.run p) ok Q { fs with st := st }) :
    (do Kern.bmodify b d; Kern.logWrite b; m : KernM α).Ensures (Fs.run p) ok Q fs := by
  have := ensures_modify (p := p) hok (Q := fun _ fs' => m.Ensures (Fs.run p) ok Q fs') h
  simpa only [Free.ensures_bind] using this

/-- The three steps that end most changes of a block. -/
theorem ensures_put_brelse (hok : Benign ok) {b : Nat} {d : Block} {m : KernM α}
    {Q : α → Fs → Prop}
    (h : ∀ st, st.cur = setAt fs.st.cur b d → st.logged = setAt fs.st.logged b d →
      m.Ensures (Fs.run p) ok Q { fs with st := st }) :
    (do Kern.bmodify b d; Kern.logWrite b; Kern.brelse b; m : KernM α).Ensures (Fs.run p) ok Q fs := by
  apply ensures_put hok
  intro st hc hl
  rw [Free.ensures_bind]
  apply ensures_brelse_calm
  · simp [hc, hl]
  · intro st' hs
    exact h st' (hs.cur.trans hc) (hs.logged.trans hl)

theorem ensures_beginOp {Q : Unit → Fs → Prop} (h : ∀ st, fs.st.Same st → Q () { fs with st := st }) :
    Kern.beginOp.Ensures (Fs.run p) ok Q fs := by
  unfold Kern.beginOp
  rw [Free.ensures_call]
  simp only [Fs.run, Store.beginOp]
  split
  · trivial
  · exact h _ ⟨rfl, rfl⟩

theorem ensures_endOp {Q : Unit → Fs → Prop} (h : ∀ st, fs.st.Same st → Q () { fs with st := st }) :
    Kern.endOp.Ensures (Fs.run p) ok Q fs :=
  h _ ⟨rfl, rfl⟩

end
end Xv6
