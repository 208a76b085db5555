import Xv6.Proofs.Completes

namespace Xv6

/-- The bytes of a file; a free inode has none. -/
def Dinode.bytes (d : Dinode) (cur : Disk) : List UInt8 :=
  if d.type = 0 then [] else (List.range d.size).map (d.byte cur)

/-- The bytes of file `i`, as they are on disk seen through the cache. -/
def Fs.bytes (fs : Fs) (i : Nat) : List UInt8 := (dinodes fs.mem.sb fs.st.cur i).bytes fs.st.cur

/-- All copies from the source succeed, and what is copied is `data`. -/
def Src.Gives (src : Src) (data : List UInt8) : Prop :=
  ∀ tot m, tot + m ≤ data.length → src.copyin tot m = ((data.drop tot).take m, true)

/-- The list with `new` in the place of what it had from `off` on. -/
def splice (old : List UInt8) (off : Nat) (new : List UInt8) : List UInt8 :=
  old.take off ++ new ++ old.drop (off + new.length)

section
variable {p : ProcId} {ok : Panic → Prop} {sb : Superblock} {ino ino₀ ino₁ : Nat → Dinode} {fs : Fs}
  {ip : InodePtr} {i bn b : Nat}

/-- Byte `o` after `new` has been written at offset `off`. -/
def spliceAt (g : Nat → UInt8) (off : Nat) (new : List UInt8) (o : Nat) : UInt8 :=
  if off ≤ o ∧ o < off + new.length then new.getD (o - off) 0 else g o

theorem map_spliceAt (g : Nat → UInt8) {size off : Nat} (new : List UInt8) (h : off ≤ size) :
    (List.range (max size (off + new.length))).map (spliceAt g off new) =
      splice ((List.range size).map g) off new := by
  apply List.ext_getElem
  · simp only [splice, List.length_map, List.length_range, List.length_append, List.length_take, List.length_drop]
    omega
  · intro o h₁ h₂
    simp only [List.length_map, List.length_range] at h₁
    by_cases hlo : o < off
    · simp [splice, spliceAt, hlo, Nat.lt_of_lt_of_le hlo h, Nat.lt_add_right]
    · by_cases hhi : o < off + new.length
      · have hin : off ≤ o ∧ o < off + new.length := by omega
        have hnew : o - off < new.length := by omega
        simp [splice, spliceAt, hin, h, List.getD, hnew]
      · have hnew : ¬ o - off < new.length := by omega
        have hback : off + new.length + (o - off - new.length) = o := by omega
        simp [splice, spliceAt, List.getElem_append, hhi, h, hnew, hback]

/-- The blocks of the first `len` bytes of file `i` are there and in the log or on disk, and `g` is what
they hold. -/
structure Holds (ino : Nat → Dinode) (i len : Nat) (g : Nat → UInt8) (s : Store) : Prop where
  filled : Filled (ino i) s.cur len
  clean : ∀ bn, bn * BSIZE < len → s.cur ((ino i).block s.cur bn) = s.logged ((ino i).block s.cur bn)
  bytes : ∀ o < len, (ino i).byte s.cur o = g o

theorem div_mul_lt {o len : Nat} (h : o < len) : o / BSIZE * BSIZE < len :=
  Nat.lt_of_le_of_lt (Nat.div_mul_le_self o BSIZE) h

theorem Holds.spared {len : Nat} {g : Nat → UInt8} {s s' : Store} (h : Holds ino i len g s)
    (ht : (ino i).type ≠ 0) (hs : Spared ino ino₁ s s') : Holds ino₁ i len g s' := by
  refine ⟨fun bn hbn => ?_, fun bn hbn => ?_, fun o ho => ?_⟩
  · rw [hs.block i bn ht (h.filled bn hbn)]
    exact h.filled bn hbn
  · rw [hs.block i bn ht (h.filled bn hbn)]
    exact hs.still _ (h.clean bn hbn)
  · have hne := h.filled _ (div_mul_lt ho)
    rw [← h.bytes o ho, Dinode.byte, Dinode.byte, hs.block i _ ht hne, hs.data i _ ht hne]

/-- One block of a file is written, in the middle or at its end. -/
theorem Holds.put {len off : Nat} {g : Nat → UInt8} {s s' : Store} {old : Block} {new : List UInt8}
    (h : Holds ino i len g s) (hp : ptrs ino s'.cur = ptrs ino s.cur)
    (hinj : ∀ bn, (ino i).block s.cur bn = b → bn = off / BSIZE)
    (hb : DataBlock ino s.cur i (off / BSIZE) b) (hoff : off ≤ len) (hnew : off % BSIZE + new.length ≤ BSIZE)
    (hold : off / BSIZE * BSIZE < len → old = s.cur b)
    (hc : s'.cur = setAt s.cur b (old.put (off % BSIZE) new))
    (hl : s'.logged = setAt s.logged b (old.put (off % BSIZE) new)) :
    Holds ino i (max len (off + new.length)) (spliceAt g off new) s' := by
  have hblock : ∀ bn, (ino i).block s'.cur bn = (ino i).block s.cur bn := block_of_ptrs hp hb.live
  -- a block before the new end is the one written, or was there before
  have hcase : ∀ bn, bn * BSIZE < max len (off + new.length) → bn = off / BSIZE ∨ bn * BSIZE < len := by
    intro bn hbn
    by_cases he : bn = off / BSIZE
    · exact .inl he
    · refine .inr ?_
      rw [BSIZE_eq] at *
      omega
  refine ⟨fun bn hbn => ?_, fun bn hbn => ?_, fun o ho => ?_⟩
  · rw [hblock]
    rcases hcase bn hbn with rfl | hlt
    · rw [hb.block]
      exact hb.pos
    · exact h.filled bn hlt
  · rw [hblock, hc, hl]
    by_cases he : (ino i).block s.cur bn = b
    · rw [he, setAt_same, setAt_same]
    · rw [setAt_other _ _ _ he, setAt_other _ _ _ he]
      rcases hcase bn hbn with rfl | hlt
      · exact absurd hb.block he
      · exact h.clean bn hlt
  · rw [Dinode.byte, hblock, hc]
    by_cases he : o / BSIZE = off / BSIZE
    · have hmod : o % BSIZE < BSIZE := Nat.mod_lt _ (by decide)
      rw [he, hb.block, setAt_same, ByteArr.byteAt_put _ _ _ _ hmod, spliceAt]
      by_cases hin : off ≤ o ∧ o < off + new.length
      · rw [if_pos hin, if_pos (by rw [BSIZE_eq] at *; omega)]
        congr 1
        rw [BSIZE_eq] at *
        omega
      · have hlt : o < len := by omega
        rw [if_neg hin, if_neg (by rw [BSIZE_eq] at *; omega), hold (by rw [← he]; exact div_mul_lt hlt),
          ← h.bytes o hlt, Dinode.byte, he, hb.block]
    · have hin : ¬ (off ≤ o ∧ o < off + new.length) := by
        rw [BSIZE_eq] at *
        omega
      have hlt : o < len := by omega
      rw [spliceAt, if_neg hin, setAt_other _ _ _ (fun hx => he (hinj _ hx)), ← h.bytes o hlt, Dinode.byte]

theorem spliceAt_nil (g : Nat → UInt8) (off : Nat) : spliceAt g off [] = g := by
  funext o
  have hout : ¬ (off ≤ o ∧ o < off) := by omega
  simp [spliceAt, hout]

theorem spliceAt_append (g : Nat → UInt8) (off : Nat) (x y : List UInt8) :
    spliceAt (spliceAt g off x) (off + x.length) y = spliceAt g off (x ++ y) := by
  funext o
  simp only [spliceAt, List.length_append, List.getD, List.getElem?_append]
  by_cases hx : off ≤ o ∧ o < off + x.length
  · rw [if_neg (by omega), if_pos hx, if_pos (by omega), if_pos (by omega)]
  · by_cases hy : off + x.length ≤ o ∧ o < off + x.length + y.length
    · rw [if_pos hy, if_pos (by omega), if_neg (by omega), Nat.sub_sub]
    · rw [if_neg hy, if_neg hx, if_neg (by omega)]

theorem bytes_congr {d : Dinode} {cur cur' : Disk} (h : d.type ≠ 0 → ∀ bn, bn * BSIZE < d.size →
    cur' (d.block cur' bn) = cur (d.block cur bn)) : d.bytes cur' = d.bytes cur := by
  unfold Dinode.bytes
  split
  · rfl
  · rename_i ht
    refine List.map_congr_left fun o ho => ?_
    rw [Dinode.byte, Dinode.byte, h ht _ (div_mul_lt (List.mem_range.mp ho))]

/-- The first `k` bytes of `data` have been written at offset `off` of a file that had the bytes `g`,
`len` of them. If they are not all, no block was free. -/
structure Spliced (sb : Superblock) (ip : InodePtr) (i len off : Nat) (g : Nat → UInt8) (data : List UInt8)
    (ino : Nat → Dinode) (fs : Fs) (k : Nat) (ino' : Nat → Dinode) (fs' : Fs) : Prop where
  backed : Backed sb ino' ip i fs'
  mem : fs'.mem = fs.mem.setInode ip (fun x => { x with copy := ino' i })
  fields : ino' i = { ino i with addrs := (ino' i).addrs }
  others : ∀ j, j ≠ i → ino' j = ino j ∧ (ino' j).bytes fs'.st.cur = (ino j).bytes fs.st.cur
  holds : Holds ino' i (max len (off + k)) (spliceAt g off (data.take k)) fs'.st
  none : k < data.length → NoneFrom sb fs'.st.cur 0

theorem Mapped.bytes_other {r j : Nat} {fs' : Fs} (hm : Mapped sb ip i bn ino fs r ino₁ fs')
    (h : Backed sb ino ip i fs) (hj : j ≠ i) : (ino₁ j).bytes fs'.st.cur = (ino j).bytes fs.st.cur := by
  rw [hm.grown.other j hj]
  refine bytes_congr fun ht bn hbn => ?_
  have hne := h.disk.full j bn ht hbn
  have hblock := hm.spared.block j bn ht hne
  rw [hm.grown.other j hj] at hblock
  rw [hblock, hm.spared.data j bn ht hne]

theorem Mapped.spliced {len off r : Nat} {g : Nat → UInt8} {fs' : Fs} (hm : Mapped sb ip i bn ino fs r ino₁ fs')
    (h : Backed sb ino ip i fs) (hh : Holds ino i len g fs.st) (hoff : off ≤ len) (data : List UInt8)
    (hnone : 0 < data.length → r = 0) : Spliced sb ip i len off g data ino fs 0 ino₁ fs' where
  backed := hm.backed
  mem := hm.mem
  fields := hm.grown.fields
  others j hj := ⟨hm.grown.other j hj, hm.bytes_other h hj⟩
  holds := by
    rw [List.take_zero, spliceAt_nil, Nat.add_zero, Nat.max_eq_left hoff]
    exact hh.spared h.live hm.spared
  none hlt := hm.none (hnone hlt)

theorem Spliced.trans {len off k : Nat} {g : Nat → UInt8} {x y : List UInt8} {fs₁ fs₂ : Fs} {ino₂ : Nat → Dinode}
    (h₁ : Spliced sb ip i len off g x ino fs x.length ino₁ fs₁)
    (h₂ : Spliced sb ip i (max len (off + x.length)) (off + x.length) (spliceAt g off x) y ino₁ fs₁ k ino₂ fs₂) :
    Spliced sb ip i len off g (x ++ y) ino fs (x.length + k) ino₂ fs₂ where
  backed := h₂.backed
  mem := by rw [h₂.mem, h₁.mem, setInode_setInode]
  fields := by rw [h₂.fields, h₁.fields]
  others j hj := ⟨(h₂.others j hj).1.trans (h₁.others j hj).1, (h₂.others j hj).2.trans (h₁.others j hj).2⟩
  holds := by
    have hh := h₂.holds
    rwa [spliceAt_append, ← List.take_length_add_append, Nat.add_assoc, Nat.max_assoc,
      Nat.max_eq_right (Nat.add_le_add_left (Nat.le_add_right _ _) _)] at hh
  none hlt := h₂.none (by rw [List.length_append] at hlt; omega)

/-- One block of file `i` gets a new content, which goes to the log. -/
theorem Backed.put {m : Mem} {s s' : Store} {len off : Nat} {g : Nat → UInt8} {old : Block} {new : List UInt8}
    (h : Backed sb ino ip i ⟨m, s⟩) (hsb : sb.Ok) (hh : Holds ino i len g s)
    (hb : DataBlock ino s.cur i (off / BSIZE) b) (hoff : off ≤ len) (hnew : off % BSIZE + new.length ≤ BSIZE)
    (hold : off / BSIZE * BSIZE < len → old = s.cur b)
    (hc : s'.cur = setAt s.cur b (old.put (off % BSIZE) new))
    (hl : s'.logged = setAt s.logged b (old.put (off % BSIZE) new)) :
    Spliced sb ip i len off g new ino ⟨m, s⟩ new.length ino ⟨m, s'⟩ := by
  have hap : s.Apart b s' :=
    ⟨fun n hn => by rw [hc, setAt_other _ _ _ hn], fun n hn => by rw [hl, setAt_other _ _ _ hn]⟩
  obtain ⟨hd, hp⟩ := h.disk.touch hsb hb hap (fun _ => by rw [hc, hl, setAt_same, setAt_same])
  have honly : ∀ j bn, (ino j).type ≠ 0 → (ino j).block s.cur bn = b → j = i ∧ bn = off / BSIZE := by
    intro j bn hj hx
    obtain ⟨h₁, h₂⟩ := Prod.mk.inj (hb.only (o := (j, posOf bn)) h.disk ((ptrs_live hj _ _).trans hx))
    exact ⟨h₁, posOf_inj h₂⟩
  refine ⟨⟨h.super, h.inum, h.copy, h.live, hd⟩, h.setCopy_self.symm, rfl, fun j hj => ⟨rfl, ?_⟩, ?_,
    fun hlt => absurd hlt (Nat.lt_irrefl _)⟩
  · refine bytes_congr fun ht bn _ => ?_
    rw [block_of_ptrs hp ht]
    exact hap.cur _ (fun hx => hj (honly j bn ht hx).1)
  · rw [List.take_length]
    exact hh.put hp (fun bn hx => (honly i bn h.live hx).2) hb hoff hnew hold hc hl

theorem fillBlock_gives {src : Src} {addr tot off m : Nat} {rest : KernM (Nat × Nat)} {new : List UInt8}
    (h : src.copyin tot m = (new, true)) : Kern.fillBlock src addr tot off m rest = (do
      let bp ← Kern.bread addr
      let d ← Kern.bdata bp
      Kern.bmodify bp (d.put (off % BSIZE) new)
      Kern.logWrite bp
      Kern.brelse bp
      rest) := by
  simp [Kern.fillBlock, h]

/-- What a turn of the loop of writei() reads of the block it changes. -/
theorem bread_holds {len off : Nat} {g : Nat → UInt8} (hh : Holds ino i len g fs.st)
    (hb : DataBlock ino fs.st.cur i (off / BSIZE) b) :
    (Kern.bread b).Ensures (Fs.run p) ok (fun r fs' => r = b ∧ fs'.mem = fs.mem ∧ fs.st.Apart b fs'.st ∧
      (off / BSIZE * BSIZE < len → fs'.st.cur b = fs.st.cur b)) fs := by
  by_cases hlt : off / BSIZE * BSIZE < len
  · have hc := hh.clean _ hlt
    rw [hb.block] at hc
    exact ensures_bread_calm hc fun st hs => ⟨rfl, rfl, hs.apart b, fun _ => congrFun hs.cur b⟩
  · exact ensures_bread fun st hs => ⟨rfl, rfl, hs, fun hx => absurd hx hlt⟩

theorem fillBlock_spec (hok : Benign ok) (hsb : sb.Ok) (h : Backed sb ino ip i fs) {src : Src} {tot off m len : Nat}
    {g : Nat → UInt8} {rest : KernM (Nat × Nat)} {new : List UInt8} {Q : Nat × Nat → Fs → Prop}
    (hsrc : src.copyin tot m = (new, true)) (hh : Holds ino i len g fs.st)
    (hb : DataBlock ino fs.st.cur i (off / BSIZE) b) (hoff : off ≤ len) (hnew : off % BSIZE + new.length ≤ BSIZE)
    (hr : ∀ fs', Spliced sb ip i len off g new ino fs new.length ino fs' → rest.Ensures (Fs.run p) ok Q fs') :
    (Kern.fillBlock src b tot off m rest).Ensures (Fs.run p) ok Q fs := by
  rw [fillBlock_gives hsrc]
  refine Free.Ensures.seq (bread_holds hh hb) ?_
  rintro _ ⟨m', st⟩ ⟨rfl, rfl, hap, hold⟩
  rw [Free.ensures_bind, ensures_bdata]
  apply ensures_put_brelse hok
  intro st' hc hl
  rw [hap.setAt_cur] at hc
  rw [hap.setAt_logged] at hl
  exact hr _ (Backed.put h hsb hh hb hoff hnew hold hc hl)

/-- bmap() comes before the write of a block and is not seen in the file. -/
theorem Spliced.after_bmap {len off r k : Nat} {g : Nat → UInt8} {data : List UInt8} {fs₁ fs₂ : Fs}
    {ino₂ : Nat → Dinode} (hm : Mapped sb ip i bn ino fs r ino₁ fs₁) (h : Backed sb ino ip i fs)
    (h₂ : Spliced sb ip i len off g data ino₁ fs₁ k ino₂ fs₂) :
    Spliced sb ip i len off g data ino fs k ino₂ fs₂ where
  backed := h₂.backed
  mem := by rw [h₂.mem, hm.mem, setInode_setInode]
  fields := by rw [h₂.fields, hm.grown.fields]
  others j hj := by
    obtain ⟨hino, hbytes⟩ := h₂.others j hj
    exact ⟨hino.trans (hm.grown.other j hj), hbytes.trans (hm.bytes_other h hj)⟩
  holds := h₂.holds
  none := h₂.none

theorem Backed.spliced_nil (h : Backed sb ino ip i fs) {len off : Nat} {g : Nat → UInt8}
    (hh : Holds ino i len g fs.st) (hoff : off ≤ len) : Spliced sb ip i len off g [] ino fs 0 ino fs where
  backed := h
  mem := h.setCopy_self.symm
  fields := rfl
  others j _ := ⟨rfl, rfl⟩
  holds := by
    rw [List.take_zero, spliceAt_nil, Nat.add_zero, Nat.max_eq_left hoff]
    exact hh
  none hlt := absurd hlt (Nat.lt_irrefl 0)

theorem writeiLoop_splices (hok : Benign ok) (hsb : sb.Ok) {src : Src} {data : List UInt8} (hsrc : src.Gives data)
    (fuel : Nat) {tot off len : Nat} {g : Nat → UInt8} (htot : tot ≤ data.length)
    (hfuel : data.length - tot ≤ fuel) (h : Backed sb ino ip i fs) (hh : Holds ino i len g fs.st)
    (hoff : off ≤ len) (hmax : off + (data.length - tot) ≤ MAXFILE * BSIZE) :
    (Kern.writeiLoop ip src data.length fuel tot off).Ensures (Fs.run p) ok (fun r fs' => ∃ ino' k,
      r = (tot + k, off + k) ∧ k ≤ data.length - tot ∧
      Spliced sb ip i len off g (data.drop tot) ino fs k ino' fs') fs := by
  induction fuel generalizing ino fs tot off len g with
  | zero =>
    have hnil : data.drop tot = [] := List.drop_eq_nil_of_le (by omega)
    rw [hnil]
    exact ⟨ino, 0, rfl, Nat.zero_le _, h.spliced_nil hh hoff⟩
  | succ fuel ih =>
    rw [Kern.writeiLoop_succ]
    apply ensures_ite
    · intro hlt
      have hbn : off / BSIZE < MAXFILE := by
        rw [Nat.div_lt_iff_lt_mul (by decide)]
        omega
      apply Free.Ensures.seq (bmap_mapped hok hsb h hbn)
      rintro addr fs₁ ⟨ino₁, hm⟩
      apply ensures_ite
      · rintro rfl
        exact ⟨ino₁, 0, rfl, Nat.zero_le _, hm.spliced h hh hoff _ (fun _ => rfl)⟩
      · intro hne
        generalize hmdef : min (data.length - tot) (BSIZE - off % BSIZE) = m
        have hmod : off % BSIZE < BSIZE := Nat.mod_lt _ (by decide)
        have hchunk : ((data.drop tot).take m).length = m := by
          rw [List.length_take, List.length_drop]
          omega
        have hb : DataBlock ino₁ fs₁.st.cur i (off / BSIZE) addr := ⟨hm.backed.live, hm.block hne, hne⟩
        refine fillBlock_spec hok hsb hm.backed (hsrc tot m (by omega)) (hh.spared h.live hm.spared) hb hoff
          (by omega) fun fs₂ h₂ => ?_
        rw [hchunk] at h₂
        have hh₂ := h₂.holds
        rw [List.take_of_length_le (Nat.le_of_eq hchunk)] at hh₂
        refine (ih (by omega) (by omega) h₂.backed hh₂ (Nat.le_max_right _ _) (by omega)).mono ?_
        rintro r fs₃ ⟨ino₃, k, rfl, hk, h₃⟩
        have hsplit : data.drop tot = (data.drop tot).take m ++ data.drop (tot + m) := by
          rw [← List.drop_drop, List.take_append_drop]
        refine ⟨ino₃, m + k, by rw [Nat.add_assoc, Nat.add_assoc], by omega, .after_bmap hm h ?_⟩
        rw [hsplit]
        have htrans := Spliced.trans (x := (data.drop tot).take m) (y := data.drop (tot + m)) (k := k)
          (by rw [hchunk]; exact h₂) (by rw [hchunk]; exact h₃)
        rwa [hchunk] at htrans
    · intro hge
      have hnil : data.drop tot = [] := List.drop_eq_nil_of_le (by omega)
      rw [hnil]
      exact ⟨ino, 0, rfl, Nat.zero_le _, h.spliced_nil hh hoff⟩

/- The whole of writei(). -/

/-- In-memory inode `ip` is the inode `i` of the blocks, and all blocks of the file are in the log or
on disk with the content they have. -/
structure Loaded (sb : Superblock) (ino : Nat → Dinode) (ip : InodePtr) (i : Nat) (fs : Fs) : Prop where
  super : fs.mem.sb = sb
  inum : (fs.mem.inode ip).inum = i
  copy : (fs.mem.inode ip).copy = ino i
  live : (ino i).type ≠ 0
  disk : OnDisk sb ino [] [] fs.st.cur fs.st.logged
  clean : ∀ bn, bn * BSIZE < (ino i).size →
    fs.st.cur ((ino i).block fs.st.cur bn) = fs.st.logged ((ino i).block fs.st.cur bn)

namespace Loaded

theorem backed (h : Loaded sb ino ip i fs) : Backed sb ino ip i fs :=
  ⟨h.super, h.inum, h.copy, h.live, h.disk.later i⟩

theorem holds (h : Loaded sb ino ip i fs) : Holds ino i (ino i).size ((ino i).byte fs.st.cur) fs.st :=
  ⟨fun bn hbn => h.disk.full i bn h.live hbn, h.clean, fun _ _ => rfl⟩

theorem lt (h : Loaded sb ino ip i fs) : i < sb.ninodes := (h.disk.range i h.live).2

theorem bytes_eq (h : Loaded sb ino ip i fs) {j : Nat} (hj : j < sb.ninodes) :
    fs.bytes j = (ino j).bytes fs.st.cur := by
  rw [Fs.bytes, h.super, dinodes, if_pos hj, h.disk.disk j hj (by simp)]

theorem same {m : Mem} {s s' : Store} (h : Loaded sb ino ip i ⟨m, s⟩) (hs : s.Same s') :
    Loaded sb ino ip i ⟨m, s'⟩ := by
  refine ⟨h.super, h.inum, h.copy, h.live, h.disk.same hs, ?_⟩
  rw [show s'.cur = s.cur from hs.cur, show s'.logged = s.logged from hs.logged]
  exact h.clean

end Loaded

theorem Loaded.solid (h : Loaded sb ino ip i fs) : Kern.Solid ip fs := by
  have ha : Kern.addrsOf ip fs = (ino i).addrs := by rw [Kern.addrsOf, h.copy]
  refine ⟨by rw [ha, (h.disk.fields i).length], fun bn hbn => ?_, fun _ => ?_⟩
  · rw [h.copy] at hbn ⊢
    exact h.disk.full i bn h.live hbn
  · rw [Kern.indirectOf, ha]
    exact h.disk.calm _ (.inr ⟨i, NDIRECT, by rw [ptrs_live h.live, ptr_indirect], .inl rfl⟩)

/-- iupdate() leaves nothing behind that is not in the log. -/
theorem iupdate_still (hok : Benign ok) : (Kern.iupdate ip).Ensures (Fs.run p) ok
    (fun _ fs' => ∀ n, fs.st.cur n = fs.st.logged n → fs'.st.cur n = fs'.st.logged n) fs := by
  unfold Kern.iupdate Kern.getSb Kern.inodeOf
  rw [Free.ensures_bind, ensures_get, Free.ensures_bind, ensures_get, Free.ensures_bind]
  apply ensures_bread
  intro st hs
  rw [Free.ensures_bind, ensures_bdata]
  apply ensures_put hok
  intro st₁ hc hl
  rw [hs.setAt_cur] at hc
  rw [hs.setAt_logged] at hl
  apply ensures_brelse_calm (by simp [hc, hl])
  intro st₂ hs₂ n hn
  simp only [hs₂.cur, hs₂.logged, hc, hl, setAt_apply, hn]

/-- What writei() of `data` at offset `off` has done when `k` bytes were written. -/
structure Written (sb : Superblock) (ip : InodePtr) (i off : Nat) (data : List UInt8) (ino : Nat → Dinode) (fs : Fs)
    (k : Nat) (ino' : Nat → Dinode) (fs' : Fs) : Prop where
  loaded : Loaded sb ino' ip i fs'
  mem : fs'.mem = fs.mem.setInode ip (fun x => { x with copy := ino' i })
  fields : ino' i = { ino i with size := max (ino i).size (off + k), addrs := (ino' i).addrs }
  bytes : (ino' i).bytes fs'.st.cur = splice ((ino i).bytes fs.st.cur) off (data.take k)
  others : ∀ j, j ≠ i → ino' j = ino j ∧ (ino' j).bytes fs'.st.cur = (ino j).bytes fs.st.cur
  none : k < data.length → NoneFrom sb fs'.st.cur 0

theorem block_meta (h : Backed sb ino ip i fs) {cur' : Disk} (hk : ∀ n, sb.nmeta ≤ n → cur' n = fs.st.cur n)
    {j : Nat} (ht : (ino j).type ≠ 0) (bn : Nat) : (ino j).block cur' bn = (ino j).block fs.st.cur bn := by
  refine ptr_congr (fun hne => hk _ ?_) _
  have hptr : ptrs ino fs.st.cur (j, NDIRECT) = (ino j).addrs.getD NDIRECT 0 := by rw [ptrs_live ht, ptr_indirect]
  rw [← hptr] at hne ⊢
  exact h.disk.ptr_ge hne

theorem Backed.block_ge (h : Backed sb ino ip i fs) {j : Nat} (ht : (ino j).type ≠ 0) (hb : (ino j).block fs.st.cur bn ≠ 0) :
    sb.nmeta ≤ (ino j).block fs.st.cur bn := by
  have hptr : ptrs ino fs.st.cur (j, posOf bn) = (ino j).block fs.st.cur bn := ptrs_live ht _ _
  rw [← hptr] at hb ⊢
  exact h.disk.ptr_ge hb

/-- The blocks before the data do not show in the files. -/
theorem bytes_meta (h : Backed sb ino ip i fs) {cur' : Disk} (hk : ∀ n, sb.nmeta ≤ n → cur' n = fs.st.cur n) (j : Nat) :
    (ino j).bytes cur' = (ino j).bytes fs.st.cur := by
  refine bytes_congr fun ht bn hbn => ?_
  rw [block_meta h hk ht, hk]
  exact h.block_ge ht (h.disk.full j bn ht hbn)

/-- The size goes to `sz`, in memory and then on disk. What is known of the first `len` bytes stays. -/
theorem resize_holds (hok : Benign ok) (hsb : sb.Ok) (h : Backed sb ino ip i fs) (sz : Nat) {len : Nat} {g : Nat → UInt8}
    (f : Dinode → Dinode) (hf : f (ino i) = { ino i with size := sz }) (hmax : sz ≤ MAXFILE * BSIZE)
    (hfill : Filled (ino i) fs.st.cur sz) (hh : Holds ino i len g fs.st) :
    (do Kern.setCopy ip f; Kern.iupdate ip : KernM Unit).Ensures (Fs.run p) ok (fun _ fs' =>
      OnDisk sb (setAt ino i { ino i with size := sz }) [] [] fs'.st.cur fs'.st.logged ∧
      fs'.mem = fs.mem.setInode ip (fun x => { x with copy := { ino i with size := sz } }) ∧
      Holds (setAt ino i { ino i with size := sz }) i len g fs'.st ∧
      (∀ j, j ≠ i → (ino j).bytes fs'.st.cur = (ino j).bytes fs.st.cur) ∧
      (NoneFrom sb fs.st.cur 0 → NoneFrom sb fs'.st.cur 0)) fs := by
  have hmem : fs.mem.setInode ip (fun x => { x with copy := f x.copy }) =
      fs.mem.setInode ip (fun x => { x with copy := { ino i with size := sz } }) := by
    apply setInode_congr
    rw [h.copy, hf]
  unfold Kern.setCopy Kern.setInode
  rw [Free.ensures_bind, ensures_update, hmem]
  generalize hino : setAt ino i { ino i with size := sz } = ino₂
  have hi₂ : ino₂ i = { ino i with size := sz } := by rw [← hino, setAt_same]
  have h₂ : Backed sb ino₂ ip i { fs with mem := fs.mem.setInode ip (fun x => { x with copy := ino₂ i }) } := by
    refine ⟨h.super, ?_, ?_, ?_, ?_⟩
    · rw [setInode_same]
      exact h.inum
    · rw [setInode_same]
    · rw [hi₂]
      exact h.live
    · rw [← hino]
      exact h.disk.resize h.live hmax hfill
  rw [← hi₂]
  refine ((iupdate_disk hok hsb h₂.super h₂.inum h₂.copy (h₂.disk.range i h₂.live).2 h₂.disk).and
    (iupdate_still hok)).mono ?_
  rintro - fs₃ ⟨⟨hm, hd, hk⟩, hstill⟩
  have hother : ∀ j, j ≠ i → ino₂ j = ino j := fun j hj => by rw [← hino, setAt_other _ _ _ hj]
  have hblock : ∀ bn, (ino₂ i).block fs₃.st.cur bn = (ino i).block fs.st.cur bn := by
    intro bn
    rw [block_meta h₂ hk h₂.live, hi₂]
    rfl
  refine ⟨hd, hm, ⟨fun bn hbn => ?_, fun bn hbn => ?_, fun o ho => ?_⟩, fun j hj => ?_, fun hnone x hx hlt => ?_⟩
  · rw [hblock]
    exact hh.filled bn hbn
  · rw [hblock]
    exact hstill _ (hh.clean bn hbn)
  · rw [← hh.bytes o ho, Dinode.byte, Dinode.byte, hblock, hk]
    exact h.block_ge h.live (hh.filled _ (div_mul_lt ho))
  · have hb := bytes_meta h₂ hk j
    rwa [hother j hj] at hb
  · have hptrs : ptrs ino₂ fs₃.st.cur = ptrs ino₂ fs.st.cur := ptrs_congr fun j hj => hk _ (h₂.disk.ptr_ge hj)
    have hex := hd.owned.exact x hlt
    rw [hptrs] at hex
    exact hex.mpr ((h₂.disk.owned.exact x hlt).mp (hnone x hx hlt))

/-- In-memory inode `ip` is the inode `i` of the blocks. -/
structure Seated (sb : Superblock) (ino : Nat → Dinode) (ip : InodePtr) (i : Nat) (fs : Fs) : Prop where
  super : fs.mem.sb = sb
  inum : (fs.mem.inode ip).inum = i
  copy : (fs.mem.inode ip).copy = ino i
  live : (ino i).type ≠ 0
  disk : OnDisk sb ino [] [] fs.st.cur fs.st.logged

/-- What writei() has done when `k` bytes were written, to a file of which the first `len` bytes were known. -/
structure Extended (sb : Superblock) (ip : InodePtr) (i len off : Nat) (g : Nat → UInt8) (data : List UInt8) (ino : Nat → Dinode)
    (fs : Fs) (k : Nat) (ino' : Nat → Dinode) (fs' : Fs) : Prop where
  seated : Seated sb ino' ip i fs'
  mem : fs'.mem = fs.mem.setInode ip (fun x => { x with copy := ino' i })
  fields : ino' i = { ino i with size := max (ino i).size (off + k), addrs := (ino' i).addrs }
  others : ∀ j, j ≠ i → ino' j = ino j ∧ (ino' j).bytes fs'.st.cur = (ino j).bytes fs.st.cur
  holds : Holds ino' i (max len (off + k)) (spliceAt g off (data.take k)) fs'.st
  none : k < data.length → NoneFrom sb fs'.st.cur 0

theorem writei_extends (hok : Benign ok) (hsb : sb.Ok) (h : Seated sb ino ip i fs) {len off : Nat} {g : Nat → UInt8}
    (hh : Holds ino i len g fs.st) (hlen : len ≤ (ino i).size) (hoff : off ≤ len) {src : Src} {data : List UInt8} (hsrc : src.Gives data)
    (hmax : off + data.length ≤ MAXFILE * BSIZE) :
    (Kern.writei ip src off data.length).Ensures (Fs.run p) ok (fun r fs' => ∃ ino', ∃ k : Nat,
      r = k ∧ k ≤ data.length ∧ Extended sb ip i len off g data ino fs k ino' fs') fs := by
  have hbig := MAXFILE_BSIZE
  have hback : Backed sb ino ip i fs := ⟨h.super, h.inum, h.copy, h.live, h.disk.later i⟩
  unfold Kern.writei Kern.inodeOf
  rw [Free.ensures_bind, ensures_get, h.copy, if_neg (by omega), if_neg (by omega)]
  refine Free.Ensures.seq (writeiLoop_splices hok hsb hsrc data.length (Nat.zero_le _) (Nat.le_refl _) hback hh hoff hmax) ?_
  rintro r fs₁ ⟨ino₁, k, rfl, hk, hs⟩
  rw [List.drop_zero] at hs
  have hsize : (ino₁ i).size = (ino i).size := by rw [hs.fields]
  have hsz : (if off + k > (ino₁ i).size then off + k else (ino₁ i).size) = max (ino i).size (off + k) := by
    rw [hsize]
    split <;> omega
  have hle : max (ino i).size (off + k) ≤ MAXFILE * BSIZE := by
    have := h.disk.fits i h.live
    omega
  have hfill : Filled (ino₁ i) fs₁.st.cur (max (ino i).size (off + k)) := by
    intro bn hbn
    by_cases hlt : bn * BSIZE < (ino i).size
    · exact hs.backed.disk.full i bn hs.backed.live (by omega)
    · exact hs.holds.filled bn (by omega)
  have hre := resize_holds (p := p) hok hsb hs.backed (max (ino i).size (off + k))
    (fun c => { c with size := if off + k > c.size then off + k else c.size }) (by rw [hsz]) hle hfill hs.holds
  rw [Free.ensures_bind] at hre ⊢
  refine hre.mono fun _ fs₂ hup => ?_
  rw [Free.ensures_bind]
  refine hup.mono ?_
  rintro - fs₃ ⟨hd, hm, hh₃, ho, hn⟩
  rw [Nat.zero_add]
  refine ⟨_, k, rfl, hk, ⟨?_, ?_, ?_, ?_, hd⟩, ?_, ?_, fun j hj => ?_, hh₃, fun hlt => hn (hs.none hlt)⟩
  · rw [hm]
    exact hs.backed.super
  · rw [hm, setInode_same]
    exact hs.backed.inum
  · rw [hm, setInode_same, setAt_same]
  · rw [setAt_same]
    exact hs.backed.live
  · rw [setAt_same, hm, hs.mem, setInode_setInode]
  · rw [setAt_same, hs.fields]
  · rw [setAt_other _ _ _ hj]
    exact ⟨(hs.others j hj).1, (ho j hj).trans (hs.others j hj).2⟩

theorem writei_written (hok : Benign ok) (hsb : sb.Ok) (h : Loaded sb ino ip i fs) {src : Src} {data : List UInt8}
    (hsrc : src.Gives data) {off : Nat} (hoff : off ≤ (ino i).size) (hmax : off + data.length ≤ MAXFILE * BSIZE) :
    (Kern.writei ip src off data.length).Ensures (Fs.run p) ok (fun r fs' => ∃ ino', ∃ k : Nat,
      r = k ∧ k ≤ data.length ∧ Written sb ip i off data ino fs k ino' fs') fs := by
  refine (writei_extends hok hsb ⟨h.super, h.inum, h.copy, h.live, h.disk⟩ h.holds (Nat.le_refl _) hoff hsrc hmax).mono ?_
  rintro r fs' ⟨ino', k, rfl, hk, he⟩
  have hsize : (ino' i).size = max (ino i).size (off + k) := by rw [he.fields]
  have hs := he.seated
  have hclean := he.holds.clean
  rw [← hsize] at hclean
  refine ⟨ino', k, rfl, hk, ⟨hs.super, hs.inum, hs.copy, hs.live, hs.disk, hclean⟩, he.mem, he.fields, ?_, he.others, he.none⟩
  have htake : (data.take k).length = k := by rw [List.length_take, Nat.min_eq_left hk]
  rw [Dinode.bytes, if_neg hs.live, Dinode.bytes, if_neg h.live, ← map_spliceAt _ _ hoff, htake, hsize]
  exact List.map_congr_left fun o ho => he.holds.bytes o (List.mem_range.mp ho)

/- writei() gets to its end. -/

/-- A data block of file `i` is changed in the log. -/
theorem Backed.touch {m : Mem} {s s' : Store} {d : Block} (h : Backed sb ino ip i ⟨m, s⟩) (hsb : sb.Ok)
    (hb : DataBlock ino s.cur i bn b) (hc : s'.cur = setAt s.cur b d) (hl : s'.logged = setAt s.logged b d) :
    Backed sb ino ip i ⟨m, s'⟩ := by
  have hap : s.Apart b s' :=
    ⟨fun n hn => by rw [hc, setAt_other _ _ _ hn], fun n hn => by rw [hl, setAt_other _ _ _ hn]⟩
  exact ⟨h.super, h.inum, h.copy, h.live,
    (h.disk.touch hsb hb hap (fun _ => by rw [hc, hl, setAt_same, setAt_same])).1⟩

open Kern in
theorem completes_writeiLoop (hsb : sb.Ok) (h : Backed sb ino ip i fs) (hheld : fs.st.held = [])
    (ho : 1 ≤ fs.st.outstanding) (src : Src) {n : Nat} (fuel tot off : Nat)
    (hmax : off + (n - tot) ≤ MAXFILE * BSIZE) : Completes True p (writeiLoop ip src n fuel tot off) fs := by
  induction fuel generalizing ino fs tot off with
  | zero => exact completes_pure _
  | succ fuel ih =>
    rw [writeiLoop_succ]
    refine .ite (fun hlt => ?_) (fun _ => completes_pure _)
    have hbn : off / BSIZE < MAXFILE := by
      rw [Nat.div_lt_iff_lt_mul (by decide)]
      omega
    refine (completes_bmap hsb h hheld ho hbn).bind fun addr fs₁ he => .ite (fun _ => completes_pure _) (fun hne => ?_)
    have hdebt := (even_bmap ip _).debt he
    have hheld₁ : fs₁.st.held = [] := (congrArg Prod.fst hdebt).trans hheld
    have hout₁ : fs₁.st.outstanding = fs.st.outstanding := congrArg Prod.snd hdebt
    obtain ⟨ino₁, hm⟩ := (bmap_mapped (fun _ _ _ _ _ => trivial) hsb h hbn).ok_of_exec he
    have hb : DataBlock ino₁ fs₁.st.cur i (off / BSIZE) addr := ⟨hm.backed.live, hm.block hne, hne⟩
    refine completes_bread (by rw [hheld₁]; simp) fun st hst hout hap => completes_bdata ?_
    by_cases hcopied : (src.copyin tot (min (n - tot) (BSIZE - off % BSIZE))).2 = true
    · rw [if_pos hcopied]
      refine completes_put (by rw [hout, hout₁]; exact ho) fun st' hst' hout' hc hl => completes_brelse ?_
      rw [hap.setAt_cur] at hc
      rw [hap.setAt_logged] at hl
      have h' : Backed sb ino₁ ip i ⟨fs₁.mem, st'⟩ := Backed.touch hm.backed hsb hb hc hl
      refine ih (h'.same (Store.brelse_same (by rw [hc, hl, setAt_same, setAt_same]))) ?_ ?_ _ _ (by omega)
      · simp [Store.brelse, hst', hst, hheld₁]
      · change 1 ≤ st'.outstanding
        rw [hout', hout, hout₁]
        exact ho
    · rw [if_neg hcopied]
      exact completes_bmodify (completes_brelse (completes_pure _))

open Kern in
theorem completes_writei (hsb : sb.Ok) (h : Loaded sb ino ip i fs) (hheld : fs.st.held = [])
    (ho : 1 ≤ fs.st.outstanding) (src : Src) (off n : Nat) : Completes True p (writei ip src off n) fs := by
  refine completes_get (.ite (fun _ => completes_pure _) fun _ => .ite (fun _ => completes_pure _) fun hmax => ?_)
  refine (completes_writeiLoop hsb h.backed hheld ho src n 0 off (by omega)).bind fun r fs₁ he => ?_
  have hdebt := (even_writeiLoop ip src n n 0 off).debt he
  refine completes_update (Completes.bind (completes_iupdate ip ?_ ?_) fun _ _ _ => completes_pure _)
  · exact (congrArg Prod.fst hdebt).trans hheld
  · have : fs₁.st.outstanding = fs.st.outstanding := congrArg Prod.snd hdebt
    change 1 ≤ fs₁.st.outstanding
    omega

/- readi(). -/

/-- The bytes from `off` on, read block by block. -/
theorem bytes_of_block {d : Dinode} {cur : Disk} {off m : Nat} (hm : off % BSIZE + m ≤ BSIZE) :
    (cur (d.block cur (off / BSIZE))).get (off % BSIZE) m = (List.range m).map (fun k => d.byte cur (off + k)) := by
  unfold ByteArr.get
  refine List.map_congr_left fun k hk => ?_
  have hlt := List.mem_range.mp hk
  have hdiv : (off + k) / BSIZE = off / BSIZE := by
    rw [BSIZE_eq] at *
    omega
  have hmod : (off + k) % BSIZE = off % BSIZE + k := by
    rw [BSIZE_eq] at *
    omega
  rw [Dinode.byte, hdiv, hmod]

/-- What `n` bytes from `off` on are. -/
def Dinode.run (d : Dinode) (cur : Disk) (off n : Nat) : List UInt8 := (List.range n).map (fun k => d.byte cur (off + k))

theorem run_add (d : Dinode) (cur : Disk) (off m n : Nat) : d.run cur off (m + n) = d.run cur off m ++ d.run cur (off + m) n := by
  simp [Dinode.run, List.range_add, Nat.add_assoc]

theorem Loaded.clean_at (h : Loaded sb ino ip i fs) (off : Nat) (ho : off < (ino i).size) :
    (ino i).block fs.st.cur (off / BSIZE) ≠ 0 ∧ fs.st.cur ((ino i).block fs.st.cur (off / BSIZE)) =
      fs.st.logged ((ino i).block fs.st.cur (off / BSIZE)) :=
  ⟨h.disk.full i _ h.live (div_mul_lt ho), h.clean _ (div_mul_lt ho)⟩

theorem readiLoop_reads (h : Loaded sb ino ip i fs) {dst : Dst} (hdst : ∀ tot m, dst.copyout tot m = true) {n : Nat}
    (fuel tot off : Nat) (acc : List UInt8) (htot : tot ≤ n) (hfuel : n - tot ≤ fuel)
    (hle : off + (n - tot) ≤ (ino i).size) :
    (Kern.readiLoop ip dst n fuel tot off acc).Ensures (Fs.run p) ok (fun r fs' =>
      r = ((n : Int), acc ++ (ino i).run fs.st.cur off (n - tot)) ∧ fs'.mem = fs.mem ∧ fs.st.Same fs'.st) fs := by
  induction fuel generalizing fs tot off acc with
  | zero =>
    obtain rfl : tot = n := by omega
    refine ⟨?_, rfl, .refl _⟩
    simp [Dinode.run]
  | succ fuel ih =>
    unfold Kern.readiLoop
    apply ensures_ite
    · intro hlt
      obtain ⟨hne, hclean⟩ := h.clean_at off (by omega)
      apply Free.Ensures.seq (h.backed.bmap_there hne)
      rintro addr ⟨m₁, st₁⟩ ⟨rfl, rfl, hs₁⟩
      apply ensures_ite
      · exact fun hz => absurd hz hne
      · intro _
        rw [Free.ensures_bind]
        apply ensures_bread_calm (by rw [hs₁.cur, hs₁.logged]; exact hclean)
        intro st₂ hs₂
        have hs := hs₁.trans hs₂
        rw [Free.ensures_bind, ensures_bdata]
        dsimp only
        rw [hdst, if_pos rfl, Free.ensures_bind]
        apply ensures_brelse_calm (by rw [hs.cur, hs.logged]; exact hclean)
        intro st₃ hs₃
        have hs' := hs.trans hs₃
        generalize hmdef : min (n - tot) (BSIZE - off % BSIZE) = m
        have hmod : off % BSIZE < BSIZE := Nat.mod_lt _ (by decide)
        refine (ih (Loaded.same h hs') _ _ _ (by omega) (by omega) (by omega)).mono ?_
        rintro r fs' ⟨rfl, hm, hsame⟩
        refine ⟨?_, hm, hs'.trans hsame⟩
        rw [hs'.cur, hs.cur, bytes_of_block (by omega), List.append_assoc,
          show n - tot = m + (n - (tot + m)) by omega, run_add]
        rfl
    · intro hge
      obtain rfl : tot = n := by omega
      refine ⟨?_, rfl, .refl _⟩
      simp [Dinode.run]

theorem run_eq_bytes {d : Dinode} (ht : d.type ≠ 0) (cur : Disk) (off n : Nat) :
    d.run cur off (min n (d.size - off)) = ((d.bytes cur).drop off).take n := by
  rw [Dinode.bytes, if_neg ht]
  apply List.ext_getElem
  · simp [Dinode.run]
  · intro k h₁ h₂
    simp [Dinode.run]

/-- The answer of readi() with the bytes it has copied. -/
def counted (l : List UInt8) : Int × List UInt8 := (l.length, l)

theorem readi_reads (h : Loaded sb ino ip i fs) {dst : Dst} (hdst : ∀ tot m, dst.copyout tot m = true) {off n : Nat}
    (hsum : off + n < 2 ^ 32) : (Kern.readi ip dst off n).Ensures (Fs.run p) ok (fun r fs' =>
      r = counted ((((ino i).bytes fs.st.cur).drop off).take n) ∧
      fs'.mem = fs.mem ∧ fs.st.Same fs'.st) fs := by
  have hlen : ((ino i).bytes fs.st.cur).length = (ino i).size := by simp [Dinode.bytes, h.live]
  unfold Kern.readi Kern.inodeOf
  rw [Free.ensures_bind, ensures_get, h.copy]
  apply ensures_ite
  · intro hc
    have hnil : ((ino i).bytes fs.st.cur).drop off = [] := List.drop_eq_nil_of_le (by omega)
    rw [hnil, List.take_nil]
    exact ⟨rfl, rfl, .refl _⟩
  · intro hc
    have hmin : (if off + n > (ino i).size then (ino i).size - off else n) = min n ((ino i).size - off) := by
      split <;> omega
    dsimp only
    rw [hmin]
    refine (readiLoop_reads h hdst _ 0 off [] (Nat.zero_le _) (by omega) (by omega)).mono ?_
    rintro r fs' ⟨rfl, hm, hs⟩
    refine ⟨?_, hm, hs⟩
    rw [List.nil_append, Nat.sub_zero, run_eq_bytes h.live, counted, List.length_take, List.length_drop, hlen]

open Kern in
theorem completes_readiLoop {w : Prop} (h : Loaded sb ino ip i fs) (hheld : fs.st.held = []) (dst : Dst) {n : Nat}
    (fuel tot off : Nat) (acc : List UInt8) (hle : off + (n - tot) ≤ (ino i).size) :
    Completes w p (readiLoop ip dst n fuel tot off acc) fs := by
  induction fuel generalizing fs tot off acc with
  | zero => exact completes_pure _
  | succ fuel ih =>
    refine .ite (fun hlt => ?_) (fun _ => completes_pure _)
    obtain ⟨hne, hclean⟩ := h.clean_at off (by omega)
    refine (completes_bmap_there h.backed hheld hne).bind fun addr fs₁ he => .ite (fun _ => completes_pure _) (fun _ => ?_)
    have hheld₁ : fs₁.st.held = [] := (congrArg Prod.fst ((even_bmap ip _).debt he)).trans hheld
    obtain ⟨m₁, st₁⟩ := fs₁
    obtain ⟨rfl, rfl, hs₁⟩ := of_ok (h.backed.bmap_there hne) he
    have hclean₁ : st₁.cur ((ino i).block fs.st.cur (off / BSIZE)) =
        st₁.logged ((ino i).block fs.st.cur (off / BSIZE)) := by
      rw [hs₁.cur, hs₁.logged]
      exact hclean
    refine completes_bread_calm (by rw [hheld₁]; simp) hclean₁ fun st₂ hst₂ _ hs₂ => completes_bdata ?_
    refine .ite (fun _ => completes_brelse ?_) (fun _ => completes_brelse (completes_pure _))
    have hs₃ := (hs₁.trans hs₂).trans (Store.brelse_same (by rw [hs₂.cur, hs₂.logged]; exact hclean₁))
    refine ih (Loaded.same h hs₃) ?_ _ _ _ (by omega)
    simpa [Store.brelse, hst₂] using hheld₁

open Kern in
theorem completes_readi {w : Prop} (h : Loaded sb ino ip i fs) (hheld : fs.st.held = []) (dst : Dst) (off n : Nat) :
    Completes w p (readi ip dst off n) fs := by
  refine completes_get (.ite (fun _ => completes_pure _) fun hc => ?_)
  rw [h.copy] at hc ⊢
  apply completes_readiLoop h hheld
  split <;> omega

end
end Xv6
