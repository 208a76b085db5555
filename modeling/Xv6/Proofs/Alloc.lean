import Xv6.Proofs.OnDisk

namespace Xv6
variable {p : ProcId} {ok : Panic → Prop} {sb : Superblock} {ino : Nat → Dinode}
  {ahead loose : List Nat} {fs : Fs}

/-- What balloc() has done when it answers `b`. -/
structure Balloced (sb : Superblock) (ino : Nat → Dinode) (ahead loose : List Nat) (fs : Fs)
    (b : Nat) (fs' : Fs) : Prop where
  mem : fs'.mem = fs.mem
  disk : OnDisk sb ino ahead (b :: loose) fs'.st.cur fs'.st.logged
  zero : fs'.st.cur b = .zero
  calm : fs'.st.logged b = .zero
  keeps : ∀ n, sb.nmeta ≤ n → n ≠ b → fs'.st.cur n = fs.st.cur n
  still : ∀ n, fs.st.cur n = fs.st.logged n → fs'.st.cur n = fs'.st.logged n

/-- No block from `b` on is free. -/
def NoneFrom (sb : Superblock) (cur : Disk) (b : Nat) : Prop := ∀ x, b ≤ x → x < sb.size → used sb cur x

/-- The new block was nobody's, so all pointers lead where they did. -/
theorem Balloced.ptrs_eq {fs' : Fs} {b : Nat} (hb : Balloced sb ino ahead loose fs b fs')
    (h : OnDisk sb ino ahead loose fs.st.cur fs.st.logged) :
    ptrs ino fs'.st.cur = ptrs ino fs.st.cur := by
  apply ptrs_congr
  intro i hi
  refine hb.keeps _ (h.ptr_ge hi) (fun he => ?_)
  -- the indirect address is in the inode itself
  exact (hb.disk.owned.apart b List.mem_cons_self).2.2 (i, NDIRECT) he

theorem bzero_spec (hok : Benign ok) (hsb : sb.Ok)
    (hd : OnDisk sb ino ahead loose fs.st.cur fs.st.logged) {b : Nat} (hb : b ∈ loose) :
    (Kern.bzero b).Ensures (Fs.run p) ok (fun _ fs' => fs'.mem = fs.mem ∧
      OnDisk sb ino ahead loose fs'.st.cur fs'.st.logged ∧
      fs'.st.cur b = .zero ∧ fs'.st.logged b = .zero ∧
      ∀ n, n ≠ b → fs'.st.cur n = fs.st.cur n ∧ fs'.st.logged n = fs.st.logged n) fs := by
  unfold Kern.bzero
  rw [Free.ensures_bind]
  apply ensures_bread
  intro st hst
  apply ensures_put hok
  intro st₁ hc hl
  apply ensures_brelse_calm (by simp [hc, hl])
  intro st₂ hs
  have hc₂ : st₂.cur = setAt fs.st.cur b .zero := by rw [hs.cur, hc, hst.setAt_cur]
  have hl₂ : st₂.logged = setAt fs.st.logged b .zero := by rw [hs.logged, hl, hst.setAt_logged]
  refine ⟨rfl, ?_, ?_, ?_, ?_⟩
  · rw [hc₂, hl₂]
    exact hd.fill hsb hb .zero
  · rw [hc₂, setAt_same]
  · rw [hl₂, setAt_same]
  · intro n hn
    rw [hc₂, hl₂, setAt_other _ _ _ hn, setAt_other _ _ _ hn]
    exact ⟨rfl, rfl⟩

/-- What one bitmap block without a clear bit says. -/
theorem noneFrom_step {cur : Disk} {b : Nat} (hb : b % BPB = 0)
    (hn : firstFrom (fun bi => decide (b + bi < sb.size) && bitClear (cur (sb.bblock b)) bi) BPB 0 = none)
    (h : NoneFrom sb cur (b + BPB)) : NoneFrom sb cur b := by
  intro x hx hlt
  by_cases hnext : b + BPB ≤ x
  · exact h x hnext hlt
  · have hbit := firstFrom_none hn (x - b) (Nat.zero_le _) (by omega)
    have hblk : sb.bblock b = sb.bblock x := by
      rw [bblock_eq_iff]
      rw [BPB_eq] at *
      omega
    have hmod : x - b = x % BPB := by
      rw [BPB_eq] at *
      omega
    rw [show b + (x - b) = x by omega, hblk, hmod] at hbit
    simpa [used, hlt] using hbit

theorem ballocFrom_spec (hok : Benign ok) (hsb : sb.Ok)
    (hd : OnDisk sb ino ahead loose fs.st.cur fs.st.logged) (fuel b : Nat) (hb : b % BPB = 0)
    (hfuel : sb.size ≤ b + fuel * BPB) :
    (Kern.ballocFrom sb fuel b).Ensures (Fs.run p) ok
      (fun r fs' => (r = 0 ∧ fs'.mem = fs.mem ∧ fs.st.Same fs'.st ∧ NoneFrom sb fs.st.cur b) ∨
        (r ≠ 0 ∧ Balloced sb ino ahead loose fs r fs')) fs := by
  induction fuel generalizing b fs with
  | zero => exact .inl ⟨rfl, rfl, .refl _, fun x hx hlt => by omega⟩
  | succ fuel ih =>
    unfold Kern.ballocFrom
    apply ensures_ite
    · intro hlt
      have hm := Superblock.Ok.bblock_lt hlt
      rw [Free.ensures_bind]
      apply ensures_bread_calm (hd.calm_meta hm)
      intro st hs
      rw [Free.ensures_bind, ensures_bdata]
      split
      · rename_i bi hbi
        obtain ⟨-, hbi, hp, -⟩ := firstFrom_some hbi
        rw [Bool.and_eq_true, decide_eq_true_eq] at hp
        have hblk : sb.bblock (b + bi) = sb.bblock b := by
          rw [bblock_eq_iff]
          rw [BPB_eq] at *
          omega
        have hmod : (b + bi) % BPB = bi := by
          rw [BPB_eq] at *
          omega
        have hd₁ := (hd.same hs).setBit hsb hp.1 (by
          unfold used
          rw [hblk, hmod, hp.2]
          simp)
        rw [hblk, hmod] at hd₁
        apply ensures_put_brelse hok
        intro st₁ hc hl
        rw [← hc, ← hl] at hd₁
        apply Free.Ensures.seq (bzero_spec hok hsb hd₁ List.mem_cons_self)
        rintro - fs₂ ⟨hmem, hd₂, hz, hzl, hn⟩
        obtain ⟨hlo, -⟩ := hd₂.owned.apart _ List.mem_cons_self
        have hpos := hd.owned.pos
        refine .inr ⟨by omega, hmem, hd₂, hz, hzl, ?_, ?_⟩
        · intro n hn₁ hn₂
          rw [(hn n hn₂).1, hc, setAt_other _ _ _ (by omega), hs.cur]
        · intro n hcalm
          by_cases hne : n = b + bi
          · rw [hne, hz, hzl]
          · rw [(hn n hne).1, (hn n hne).2, hc, hl]
            simp only [setAt_apply, hs.cur, hs.logged, hcalm]
      · rename_i hnone
        rw [Free.ensures_bind]
        apply ensures_brelse_calm
        · rw [hs.cur, hs.logged]
          exact hd.calm_meta hm
        · intro st₁ hs₁
          have hs₂ := hs.trans hs₁
          refine Free.Ensures.mono (ih (hd.same hs₂) (b + BPB)
            (by rw [Nat.add_mod_right]; exact hb) (by rw [Nat.succ_mul] at hfuel; omega)) ?_
          rintro r fs' (⟨h₁, h₂, h₃, h₄⟩ | ⟨h₁, h₂⟩)
          · rw [hs.cur] at hnone
            rw [show ({ fs with st := st₁ } : Fs).st.cur = fs.st.cur from hs₂.cur] at h₄
            exact .inl ⟨h₁, h₂, hs₂.trans h₃, noneFrom_step hb hnone h₄⟩
          · refine .inr ⟨h₁, h₂.mem, h₂.disk, h₂.zero, h₂.calm, fun n hn₁ hn₂ => ?_, fun n hn => h₂.still n ?_⟩
            · rw [h₂.keeps n hn₁ hn₂, hs₂.cur]
            · rw [hs₂.cur, hs₂.logged, hn]
    · intro hge
      exact .inl ⟨rfl, rfl, .refl _, fun x hx hlt => by omega⟩

theorem balloc_spec (hok : Benign ok) (hsb : sb.Ok) (hm : fs.mem.sb = sb)
    (hd : OnDisk sb ino ahead loose fs.st.cur fs.st.logged) :
    Kern.balloc.Ensures (Fs.run p) ok
      (fun r fs' => (r = 0 ∧ fs'.mem = fs.mem ∧ fs.st.Same fs'.st ∧ NoneFrom sb fs.st.cur 0) ∨
        (r ≠ 0 ∧ Balloced sb ino ahead loose fs r fs')) fs := by
  subst hm
  have hfuel : fs.mem.sb.size ≤ 0 + (fs.mem.sb.size / BPB + 1) * BPB := by
    rw [BPB_eq]
    omega
  exact ballocFrom_spec hok hsb hd _ 0 (Nat.zero_mod _) hfuel

theorem bfree_spec (hok : Benign ok) (hsb : sb.Ok) (hm : fs.mem.sb = sb) {b : Nat}
    (hd : OnDisk sb ino ahead (b :: loose) fs.st.cur fs.st.logged) :
    (Kern.bfree b).Ensures (Fs.run p) ok (fun _ fs' => fs'.mem = fs.mem ∧
      OnDisk sb ino ahead loose fs'.st.cur fs'.st.logged ∧
      ∀ n, sb.nmeta ≤ n → fs'.st.cur n = fs.st.cur n ∧ fs'.st.logged n = fs.st.logged n) fs := by
  subst hm
  have hb : b < fs.mem.sb.size := (hd.owned.apart b List.mem_cons_self).2.1
  have hmeta := Superblock.Ok.bblock_lt hb
  have hused : used fs.mem.sb fs.st.cur b := hd.owned.loose_used List.mem_cons_self
  unfold Kern.bfree Kern.getSb
  rw [Free.ensures_bind, ensures_get, Free.ensures_bind]
  apply ensures_bread_calm (hd.calm_meta hmeta)
  intro st hs
  rw [Free.ensures_bind, ensures_bdata]
  apply ensures_ite
  · intro hclear
    rw [hs.cur] at hclear
    exact absurd hclear (by rw [hused]; decide)
  · intro _
    apply ensures_put hok
    intro st₁ hc hl
    apply ensures_brelse_calm (by simp [hc, hl])
    intro st₂ hs₂
    have hd₁ := (hd.same hs).clearBit hsb
    rw [← hc, ← hl] at hd₁
    refine ⟨rfl, hd₁.same hs₂, fun n hn => ⟨?_, ?_⟩⟩
    · rw [hs₂.cur, hc, setAt_other _ _ _ (by omega), hs.cur]
    · rw [hs₂.logged, hl, setAt_other _ _ _ (by omega), hs.logged]

end Xv6
