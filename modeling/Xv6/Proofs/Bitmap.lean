import Xv6.Allocs
import Xv6.Proofs.Completes

namespace Xv6
variable {p : ProcId} {sb : Superblock} {fs : Fs} {b : Nat}

/-- Block `n` has been set to `d`, in its buffer and for the log, and nothing else has changed. -/
structure Puts (fs : Fs) (n : Nat) (d : Block) (fs' : Fs) : Prop where
  mem : fs'.mem = fs.mem
  cur : fs'.st.cur = setAt fs.st.cur n d
  logged : fs'.st.logged = setAt fs.st.logged n d

theorem bzero_puts (b : Nat) :
    (Kern.bzero b).Ensures (Fs.run p) (fun _ => True) (fun _ fs' => Puts fs b .zero fs') fs := by
  unfold Kern.bzero
  rw [Free.ensures_bind]
  apply ensures_bread
  intro st hst
  apply ensures_put (fun _ _ _ _ _ => trivial)
  intro st₁ hc hl
  apply ensures_brelse_calm (by simp [hc, hl])
  intro st₂ hs
  exact ⟨rfl, by rw [hs.cur, hc, hst.setAt_cur], by rw [hs.logged, hl, hst.setAt_logged]⟩

/-- `x` is the first free block from `b` on. -/
structure FirstFree (sb : Superblock) (cur : Disk) (b x : Nat) : Prop where
  ge : b ≤ x
  lt : x < sb.size
  free : ¬ used sb cur x
  first : ∀ y, b ≤ y → y < x → used sb cur y

/-- The bit of `y` in the bitmap block that has the bit of `b` first. -/
theorem used_at {cur : Disk} {y : Nat} (hb : b % BPB = 0) (hy : b ≤ y) (hlt : y < b + BPB) :
    used sb cur y ↔ bitClear (cur (sb.bblock b)) (y - b) = false := by
  have hblk : sb.bblock y = sb.bblock b := by
    rw [bblock_eq_iff]
    rw [BPB_eq] at *
    omega
  have hmod : y % BPB = y - b := by
    rw [BPB_eq] at *
    omega
  rw [used, hblk, hmod]

theorem ballocBlock_finds (hb : b % BPB = 0) (hc : fs.st.cur (sb.bblock b) = fs.st.logged (sb.bblock b)) :
    (Kern.ballocBlock sb b).Ensures (Fs.run p) (fun _ => True) (fun r fs' =>
      match r with
      | some x => x < b + BPB ∧ FirstFree sb fs.st.cur b x ∧
          Puts fs (sb.bblock x) (setBit (fs.st.cur (sb.bblock x)) (x % BPB)) fs'
      | none => (∀ y, b ≤ y → y < b + BPB → y < sb.size → used sb fs.st.cur y) ∧
          fs'.mem = fs.mem ∧ fs.st.Same fs'.st) fs := by
  unfold Kern.ballocBlock
  rw [Free.ensures_bind]
  apply ensures_bread_calm hc
  intro st hs
  rw [Free.ensures_bind, ensures_bdata]
  dsimp only
  rw [hs.cur]
  split
  · rename_i bi hbi
    obtain ⟨-, hlt, hp, hfirst⟩ := firstFrom_some hbi
    rw [Bool.and_eq_true, decide_eq_true_eq] at hp
    have hblk : sb.bblock (b + bi) = sb.bblock b := by
      rw [bblock_eq_iff]
      rw [BPB_eq] at *
      omega
    have hmod : (b + bi) % BPB = bi := by
      rw [BPB_eq] at *
      omega
    apply ensures_put_brelse (fun _ _ _ _ _ => trivial)
    intro st₁ hcur hlog
    refine ⟨by omega, ⟨by omega, hp.1, ?_, fun y hy hyx => ?_⟩, rfl, ?_, ?_⟩
    · rw [used_at hb (by omega) (by omega), Nat.add_sub_cancel_left, hp.2]
      decide
    · have hbit := hfirst (y - b) (Nat.zero_le _) (by omega)
      have hsize : b + (y - b) < sb.size := by omega
      rw [used_at hb hy (by omega)]
      simpa [hsize] using hbit
    · rw [hblk, hmod, hcur, hs.cur]
    · rw [hblk, hmod, hlog, hs.logged]
  · rename_i hnone
    rw [Free.ensures_bind]
    apply ensures_brelse_calm (by rw [hs.cur, hs.logged]; exact hc)
    intro st₁ hs₁
    refine ⟨fun y hy hlt hsize => ?_, rfl, hs.trans hs₁⟩
    have hbit := firstFrom_none hnone (y - b) (Nat.zero_le _) (by omega)
    have hsize' : b + (y - b) < sb.size := by omega
    rw [used_at hb hy hlt]
    simpa [hsize'] using hbit

theorem bfree_clears (hsb : fs.mem.sb = sb) (hc : fs.st.cur (sb.bblock b) = fs.st.logged (sb.bblock b)) :
    (Kern.bfree b).Ensures (Fs.run p) (fun _ => True) (fun _ fs' => used sb fs.st.cur b ∧
      Puts fs (sb.bblock b) (clearBit (fs.st.cur (sb.bblock b)) (b % BPB)) fs') fs := by
  subst hsb
  unfold Kern.bfree Kern.getSb
  rw [Free.ensures_bind, ensures_get, Free.ensures_bind]
  apply ensures_bread_calm hc
  intro st hs
  rw [Free.ensures_bind, ensures_bdata]
  dsimp only
  rw [hs.cur]
  apply ensures_ite
  · intro _
    trivial
  · intro hused
    apply ensures_put (fun _ _ _ _ _ => trivial)
    intro st₁ hcur hlog
    apply ensures_brelse_calm (by simp [hcur, hlog])
    intro st₂ hs₂
    refine ⟨by simpa [used] using hused, rfl, ?_, ?_⟩
    · rw [hs₂.cur, hcur, hs.cur]
    · rw [hs₂.logged, hlog, hs.logged]

open Allocs (InBitmap)

/-- The bitmap is as it is on the disk or in the log, and has its own blocks marked. -/
structure Bitmapped (sb : Superblock) (fs : Fs) : Prop where
  super : fs.mem.sb = sb
  calm : ∀ n, InBitmap sb n → fs.st.cur n = fs.st.logged n
  own : ∀ n, InBitmap sb n → n < sb.size → used sb fs.st.cur n

theorem inBitmap_of_lt (h : b < sb.size) : InBitmap sb (sb.bblock b) := ⟨b, h, rfl⟩

namespace Bitmapped

theorem same {fs' : Fs} (h : Bitmapped sb fs) (hm : fs'.mem = fs.mem) (hs : fs.st.Same fs'.st) : Bitmapped sb fs' where
  super := by rw [hm, h.super]
  calm n hn := by rw [hs.cur, hs.logged, h.calm n hn]
  own n hn hlt := by
    rw [hs.cur]
    exact h.own n hn hlt

theorem mark {fs' : Fs} {x : Nat} (h : Bitmapped sb fs)
    (hp : Puts fs (sb.bblock x) (setBit (fs.st.cur (sb.bblock x)) (x % BPB)) fs') : Bitmapped sb fs' where
  super := by rw [hp.mem, h.super]
  calm n hn := by
    rw [hp.cur, hp.logged, setAt_apply, setAt_apply, h.calm n hn]
  own n hn hlt := by
    rw [hp.cur, used_setBit]
    exact .inr (h.own n hn hlt)

/-- A free block is not one of the bitmap. -/
theorem not_inBitmap {x : Nat} (h : Bitmapped sb fs) (hlt : x < sb.size) (hx : ¬ used sb fs.st.cur x) :
    ¬ InBitmap sb x := fun hin => hx (h.own x hin hlt)

theorem clear {fs' : Fs} (h : Bitmapped sb fs) (hb : ¬ InBitmap sb b)
    (hp : Puts fs (sb.bblock b) (clearBit (fs.st.cur (sb.bblock b)) (b % BPB)) fs') : Bitmapped sb fs' where
  super := by rw [hp.mem, h.super]
  calm n hn := by
    rw [hp.cur, hp.logged, setAt_apply, setAt_apply, h.calm n hn]
  own n hn hlt := by
    rw [hp.cur, used_clearBit]
    exact ⟨fun he => hb (he ▸ hn), h.own n hn hlt⟩

end Bitmapped

/-- A change of a block outside the bitmap leaves the bits alone. -/
theorem used_outside {fs' : Fs} {r x : Nat} {d : Block} (hp : Puts fs r d fs') (hr : sb.bblock x ≠ r) :
    used sb fs'.st.cur x ↔ used sb fs.st.cur x := by
  rw [used, used, hp.cur, setAt_other _ _ _ hr]

theorem Bitmapped.zero {fs' : Fs} {r : Nat} (h : Bitmapped sb fs) (hr : ¬ InBitmap sb r) (hp : Puts fs r .zero fs') :
    Bitmapped sb fs' where
  super := by rw [hp.mem, h.super]
  calm n hn := by
    rw [hp.cur, hp.logged, setAt_apply, setAt_apply, h.calm n hn]
  own n hn hlt := (used_outside hp fun he => hr (he ▸ inBitmap_of_lt hlt)).mpr (h.own n hn hlt)

/-- balloc() has returned `r`, the first free block: it has set the bit of `r`, zeroed `r` and changed nothing else. -/
structure Takes (sb : Superblock) (cur : Disk) (r : Nat) (cur' : Disk) : Prop where
  free : FirstFree sb cur 0 r
  marks : ∀ x, InBitmap sb (sb.bblock x) → (used sb cur' x ↔ used sb cur x ∨ x = r)
  zero : cur' r = .zero
  rest : ∀ n, n ≠ r → n ≠ sb.bblock r → cur' n = cur n

/-- bfree() has cleared the bit of `b` and changed nothing else. -/
structure Gives (sb : Superblock) (cur : Disk) (b : Nat) (cur' : Disk) : Prop where
  marks : ∀ x, used sb cur' x ↔ used sb cur x ∧ x ≠ b
  rest : ∀ n, n ≠ sb.bblock b → cur' n = cur n

theorem takes_of_puts {fs₁ fs₂ : Fs} {r : Nat} (h : Bitmapped sb fs) (hfree : FirstFree sb fs.st.cur 0 r)
    (h₁ : Puts fs (sb.bblock r) (setBit (fs.st.cur (sb.bblock r)) (r % BPB)) fs₁) (h₂ : Puts fs₁ r .zero fs₂) :
    Takes sb fs.st.cur r fs₂.st.cur where
  free := hfree
  marks x hx := by
    have hout := h.not_inBitmap hfree.lt hfree.free
    rw [used_outside h₂ fun he => hout (he ▸ hx), h₁.cur, used_setBit, or_comm]
  zero := by rw [h₂.cur, setAt_same]
  rest n hn hne := by rw [h₂.cur, setAt_other _ _ _ hn, h₁.cur, setAt_other _ _ _ hne]

theorem gives_of_puts {fs' : Fs} (h : Puts fs (sb.bblock b) (clearBit (fs.st.cur (sb.bblock b)) (b % BPB)) fs') :
    Gives sb fs.st.cur b fs'.st.cur where
  marks x := by rw [h.cur, used_clearBit, and_comm]
  rest n hn := by rw [h.cur, setAt_other _ _ _ hn]

/-- The outer loop of balloc(), when no block before `b` is free. -/
theorem ballocFrom_takes (h : Bitmapped sb fs) (fuel : Nat) (hb : b % BPB = 0) (hfuel : sb.size ≤ b + fuel * BPB)
    (hpast : ∀ y < b, y < sb.size → used sb fs.st.cur y) :
    (Kern.ballocFrom sb fuel b).Ensures (Fs.run p) (fun _ => True) (fun r fs' => fs'.mem = fs.mem ∧
      (r = 0 ∧ NoneFrom sb fs.st.cur 0 ∧ fs'.st.cur = fs.st.cur ∨ Takes sb fs.st.cur r fs'.st.cur)) fs := by
  induction fuel generalizing b fs with
  | zero => exact ⟨rfl, .inl ⟨rfl, fun x _ hlt => hpast x (by omega) hlt, rfl⟩⟩
  | succ fuel ih =>
    rw [Kern.ballocFrom_succ]
    apply ensures_ite
    · intro hlt
      apply Free.Ensures.seq (ballocBlock_finds hb (h.calm _ (inBitmap_of_lt hlt)))
      intro r fs₁ hr
      cases r with
      | some x =>
        obtain ⟨-, hfree, hp⟩ := hr
        have hfirst : FirstFree sb fs.st.cur 0 x :=
          ⟨Nat.zero_le x, hfree.lt, hfree.free, fun y _ hyx => by
            by_cases hyb : y < b
            · exact hpast y hyb (Nat.lt_trans hyx hfree.lt)
            · exact hfree.first y (Nat.le_of_not_lt hyb) hyx⟩
        apply Free.Ensures.seq (bzero_puts x)
        intro _ fs₂ hz
        exact ⟨hz.mem.trans hp.mem, .inr (takes_of_puts h hfirst hp hz)⟩
      | none =>
        obtain ⟨hall, hm, hs⟩ := hr
        have hih := ih (h.same hm hs) (b := b + BPB) (by rw [Nat.add_mod_right]; exact hb)
          (by rw [Nat.succ_mul] at hfuel; omega) (fun y hy hsize => by
            rw [hs.cur]
            by_cases hyb : y < b
            · exact hpast y hyb hsize
            · exact hall y (Nat.le_of_not_lt hyb) hy hsize)
        rw [hm, hs.cur] at hih
        exact hih
    · intro hge
      exact ⟨rfl, .inl ⟨rfl, fun x _ hlt => hpast x (by omega) hlt, rfl⟩⟩

/- Processes side by side. -/

namespace Allocs

/-- `r` has been returned and not been freed since. -/
def Out (r : Nat) (hist : List Event) : Prop := ∃ h₁ h₂, hist = h₁ ++ .returned r :: h₂ ∧ .freed r ∉ h₂

theorem Out.of_append {r : Nat} {hist : List Event} {e : Event} (h : Out r (hist ++ [e])) :
    e = .returned r ∨ Out r hist ∧ e ≠ .freed r := by
  obtain ⟨h₁, h₂, heq, hfree⟩ := h
  rcases List.eq_nil_or_concat h₂ with rfl | ⟨h₂, e', rfl⟩
  · left
    exact (List.concat_inj.mp (by simpa using heq)).2
  · have hcat : hist ++ [e] = (h₁ ++ .returned r :: h₂) ++ [e'] := by simpa using heq
    obtain ⟨rfl, rfl⟩ := List.append_singleton_inj.mp hcat
    simp only [List.concat_eq_append, List.mem_append, List.mem_singleton, not_or] at hfree
    exact .inr ⟨⟨h₁, h₂, rfl, hfree.1⟩, fun he => hfree.2 he.symm⟩

theorem NoneTwice.append {hist : List Event} (h : NoneTwice hist) {e : Event} (he : ∀ r, e = .returned r → ¬ Out r hist) :
    NoneTwice (hist ++ [e]) := by
  intro r h₁ h₂ h₃ heq
  rcases List.eq_nil_or_concat h₃ with rfl | ⟨h₃, e', rfl⟩
  · obtain ⟨rfl, rfl⟩ := List.append_singleton_inj.mp heq
    by_contra hfree
    exact he r rfl ⟨h₁, h₂, rfl, hfree⟩
  · have hcat : hist ++ [e] = (h₁ ++ .returned r :: h₂ ++ .returned r :: h₃) ++ [e'] := by simpa using heq
    obtain ⟨rfl, rfl⟩ := List.append_singleton_inj.mp hcat
    exact h r h₁ h₂ h₃ rfl

/-- What holds in every state: a block that some process is about to return, or has returned and nobody has freed, is
marked; no two processes are about to return the same one. -/
structure Inv (sb : Superblock) (s : State) : Prop where
  map : Bitmapped sb s.fs
  scan : ∀ p b, s.stage p = .scan b → b % BPB = 0
  flying : ∀ p r, s.stage p = .zero r → ¬ InBitmap sb r ∧ used sb s.fs.st.cur r ∧ r < sb.size ∧ ¬ Out r s.hist ∧
    ∀ q, s.stage q = .zero r → q = p
  out : ∀ r, Out r s.hist → r < sb.size ∧ used sb s.fs.st.cur r
  once : NoneTwice s.hist

theorem stage_cases {f : ProcId → Stage} {p q : ProcId} {st x : Stage} (h : setAt f p st q = x) :
    q = p ∧ st = x ∨ q ≠ p ∧ f q = x := by
  by_cases hq : q = p
  · rw [hq, setAt_same] at h
    exact .inl ⟨hq, h⟩
  · rw [setAt_other _ _ _ hq] at h
    exact .inr ⟨hq, h⟩

section
variable {s s' : State}

/-- A step that takes no bit back and after which the process has no block in hand. -/
theorem Inv.settle (h : Inv sb s) {fs : Fs} (p : ProcId) {st : Stage} (hmap : Bitmapped sb fs)
    (hused : ∀ x < sb.size, used sb s.fs.st.cur x → used sb fs.st.cur x) (hscan : ∀ b, st = .scan b → b % BPB = 0)
    (hzero : ∀ r, st ≠ .zero r) : Inv sb { s with fs := fs, stage := setAt s.stage p st } where
  map := hmap
  scan q b hq := by
    rcases stage_cases hq with ⟨-, hst⟩ | ⟨-, hq⟩
    · exact hscan b hst
    · exact h.scan q b hq
  flying q r hq := by
    rcases stage_cases hq with ⟨-, hst⟩ | ⟨-, hq⟩
    · exact absurd hst (hzero r)
    · obtain ⟨hin, hu, hlt, hout, huniq⟩ := h.flying q r hq
      refine ⟨hin, hused r hlt hu, hlt, hout, fun q' hq' => ?_⟩
      rcases stage_cases hq' with ⟨-, hst⟩ | ⟨-, hq'⟩
      · exact absurd hst (hzero r)
      · exact huniq q' hq'
  out r hr := ⟨(h.out r hr).1, hused r (h.out r hr).1 (h.out r hr).2⟩
  once := h.once

theorem inv_mark (h : Inv sb s) {p : ProcId} {r : Nat} {fs : Fs} (hfree : FirstFree sb s.fs.st.cur b r)
    (hp : Puts s.fs (sb.bblock r) (setBit (s.fs.st.cur (sb.bblock r)) (r % BPB)) fs) :
    Inv sb { s with fs := fs, stage := setAt s.stage p (.zero r) } where
  map := h.map.mark hp
  scan q b hq := by
    rcases stage_cases hq with ⟨-, hst⟩ | ⟨-, hq⟩
    · cases hst
    · exact h.scan q b hq
  flying q r' hq := by
    -- nobody had the block in hand, for it was free
    have hnew : ∀ q, s.stage q ≠ .zero r := fun q hq => hfree.free (h.flying q r hq).2.1
    rcases stage_cases hq with ⟨rfl, hst⟩ | ⟨hqp, hq⟩
    · cases hst
      refine ⟨h.map.not_inBitmap hfree.lt hfree.free, ?_, hfree.lt, fun ho => hfree.free (h.out r ho).2, fun q' hq' => ?_⟩
      · rw [hp.cur, used_setBit]
        exact .inl rfl
      · rcases stage_cases hq' with ⟨hqp, -⟩ | ⟨-, hq'⟩
        · exact hqp
        · exact absurd hq' (hnew q')
    · obtain ⟨hin, hu, hlt, hout, huniq⟩ := h.flying q r' hq
      refine ⟨hin, ?_, hlt, hout, fun q' hq' => ?_⟩
      · rw [hp.cur, used_setBit]
        exact .inr hu
      · rcases stage_cases hq' with ⟨-, hst⟩ | ⟨-, hq'⟩
        · cases hst
          exact absurd hq (hnew q)
        · exact huniq q' hq'
  out r' hr' := by
    obtain ⟨hlt, hu⟩ := h.out r' hr'
    refine ⟨hlt, ?_⟩
    rw [hp.cur, used_setBit]
    exact .inr hu
  once := h.once

theorem inv_finish (h : Inv sb s) {p : ProcId} {r : Nat} {fs : Fs} (hr : s.stage p = .zero r)
    (hp : Puts s.fs r .zero fs) :
    Inv sb { fs := fs, stage := setAt s.stage p .idle, hist := s.hist ++ [.returned r] } := by
  obtain ⟨hin, hu, hlt, hout, huniq⟩ := h.flying p r hr
  have hsame : ∀ x < sb.size, used sb s.fs.st.cur x → used sb fs.st.cur x := fun x hx hux =>
    (used_outside hp fun he => hin (he ▸ inBitmap_of_lt hx)).mpr hux
  have hset : Inv sb { s with fs := fs, stage := setAt s.stage p .idle } :=
    h.settle p (h.map.zero hin hp) hsame nofun nofun
  refine ⟨hset.map, hset.scan, fun q r' hq => ?_, fun r' hr' => ?_, h.once.append fun r' he => ?_⟩
  · obtain ⟨hin', hu', hlt', hout', huniq'⟩ := hset.flying q r' hq
    refine ⟨hin', hu', hlt', fun ho => ?_, huniq'⟩
    rcases ho.of_append with he | ⟨ho, -⟩
    · cases he
      rcases stage_cases hq with ⟨-, hst⟩ | ⟨hqp, hq⟩
      · cases hst
      · exact hqp (huniq q hq)
    · exact hout' ho
  · rcases hr'.of_append with he | ⟨ho, -⟩
    · cases he
      exact ⟨hlt, hsame r hlt hu⟩
    · exact hset.out r' ho
  · cases he
    exact hout

theorem inv_free (h : Inv sb s) {fs : Fs} (hmap : ¬ InBitmap sb b) (hback : ∀ q, s.stage q ≠ .zero b)
    (hp : Puts s.fs (sb.bblock b) (clearBit (s.fs.st.cur (sb.bblock b)) (b % BPB)) fs) :
    Inv sb { s with fs := fs, hist := s.hist ++ [.freed b] } := by
  have hused : ∀ x, x ≠ b → used sb s.fs.st.cur x → used sb fs.st.cur x := fun x hx hux => by
    rw [hp.cur, used_clearBit]
    exact ⟨hx, hux⟩
  refine ⟨h.map.clear hmap hp, h.scan, fun q r hq => ?_, fun r hr => ?_, h.once.append nofun⟩
  · obtain ⟨hin, hu, hlt, hout, huniq⟩ := h.flying q r hq
    refine ⟨hin, hused r (fun he => hback q (he ▸ hq)) hu, hlt, fun ho => ?_, huniq⟩
    rcases ho.of_append with he | ⟨ho, -⟩
    · cases he
    · exact hout ho
  · rcases hr.of_append with he | ⟨ho, hne⟩
    · cases he
    · obtain ⟨hlt, hu⟩ := h.out r ho
      exact ⟨hlt, hused r (fun he => hne (he ▸ rfl)) hu⟩

theorem inv_step (h : Inv sb s) (hs : Step sb s s') : Inv sb s' := by
  cases hs with
  | call p hp => exact h.settle p h.map (fun _ _ hu => hu) (fun b hb => by cases hb; rfl) nofun
  | mark hp hb hrun =>
    obtain ⟨-, hfree, hput⟩ := Kern.of_ok (ballocBlock_finds (h.scan _ _ hp) (h.map.calm _ (inBitmap_of_lt hb))) hrun
    exact inv_mark h hfree hput
  | next hp hb hrun =>
    obtain ⟨-, hm, hsame⟩ := Kern.of_ok (ballocBlock_finds (h.scan _ _ hp) (h.map.calm _ (inBitmap_of_lt hb))) hrun
    refine h.settle _ (h.map.same hm hsame) (fun x _ hu => by rwa [hsame.cur]) (fun b' hb' => ?_) nofun
    cases hb'
    rw [Nat.add_mod_right]
    exact h.scan _ _ hp
  | none hp hb => exact h.settle _ h.map (fun _ _ hu => hu) nofun nofun
  | finish hp hrun =>
    have hput := Kern.of_ok (bzero_puts _) hrun
    exact inv_finish h hp hput
  | free hp hlt hmap hback hrun =>
    obtain ⟨-, hput⟩ := Kern.of_ok (bfree_clears h.map.super (h.map.calm _ (inBitmap_of_lt hlt))) hrun
    exact inv_free h hmap hback hput
  | @other fs hsb hmap =>
    have hused : ∀ x < sb.size, used sb s.fs.st.cur x → used sb fs.st.cur x := fun x hx hux => by
      rw [used, (hmap _ (inBitmap_of_lt hx)).1]
      exact hux
    refine ⟨⟨hsb.trans h.map.super, fun n hn => ?_, fun n hn hlt => hused n hlt (h.map.own n hn hlt)⟩, h.scan,
      fun q r hq => ?_, fun r hr => ⟨(h.out r hr).1, hused r (h.out r hr).1 (h.out r hr).2⟩, h.once⟩
    · rw [(hmap n hn).1, (hmap n hn).2]
      exact h.map.calm n hn
    · obtain ⟨hin, hu, hlt, hrest⟩ := h.flying q r hq
      exact ⟨hin, hused r hlt hu, hlt, hrest⟩

theorem inv_start {fs : Fs} (h : Bitmapped sb fs) : Inv sb ⟨fs, fun _ => .idle, []⟩ where
  map := h
  scan _ _ hq := by cases hq
  flying _ _ hq := by cases hq
  out _ hr := by
    obtain ⟨h₁, h₂, heq, -⟩ := hr
    simp at heq
  once _ h₁ _ _ heq := by simp at heq

theorem inv_run (h : Inv sb s) (hs : Relation.ReflTransGen (Step sb) s s') : Inv sb s' := by
  induction hs with
  | refl => exact h
  | tail _ hstep ih => exact inv_step ih hstep

end

end Allocs

namespace Kern

theorem completes_bfree (hsb : fs.mem.sb = sb) (hc : fs.st.cur (sb.bblock b) = fs.st.logged (sb.bblock b))
    (hu : used sb fs.st.cur b) (hheld : fs.st.held = []) (ho : 1 ≤ fs.st.outstanding) : Completes True p (bfree b) fs := by
  subst hsb
  refine completes_get (completes_bread_calm (by rw [hheld]; simp) hc fun st hst hout hs => completes_bdata ?_)
  dsimp only
  rw [hs.cur]
  refine .ite (fun hclear => ?_) fun _ => ?_
  · rw [used] at hu
    rw [hu] at hclear
    cases hclear
  · exact completes_put (by rw [hout]; exact ho) fun st' _ _ _ _ => completes_brelse_last

end Kern

/-- A file system in a transaction. -/
def inTransaction (disk : Disk) : Fs :=
  let fs := Fs.boot mkfsSb disk
  { fs with st := { fs.st with outstanding := 1 } }

theorem inBitmap_mkfs {n : Nat} (h : InBitmap mkfsSb n) : n = 45 := by
  obtain ⟨x, hx, rfl⟩ := h
  have hdiv : x / BPB = 0 := by
    have hsize : mkfsSb.size = 2000 := rfl
    rw [BPB_eq]
    omega
  rw [Superblock.bblock, hdiv]
  rfl

theorem bitmapped_mkfs : Bitmapped mkfsSb (inTransaction fileImage) where
  super := rfl
  calm _ _ := rfl
  own n hn _ := by
    rw [inBitmap_mkfs hn]
    show bitClear (fileImage 45) 45 = false
    decide +kernel

/-- The disk whose bitmap says that its own block is free. -/
def unownedBitmap : Disk := fun n => if n = 45 then ByteArr.zero.put 0 [255, 255, 255, 255, 255, 31] else .zero

end Xv6
