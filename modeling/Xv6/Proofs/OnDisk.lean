import Xv6.Namespace
import Xv6.Lib.Owned
import Xv6.Proofs.Codec
import Xv6.Proofs.Rules

namespace Xv6

/-- The blocks whose newest content is always in the log or on disk: all but the data
blocks of files, which a write can leave half changed, and the unused blocks. -/
def Sited (sb : Superblock) (ino : Nat → Dinode) (cur : Disk) (b : Nat) : Prop :=
  b < sb.nmeta ∨ ∃ i k, ptrs ino cur (i, k) = b ∧ (k = NDIRECT ∨ (ino i).type = T_DIR)

/-- The blocks hold the inodes `ino`. Those in `ahead` have a newer copy in memory, and the
blocks in `loose` are allocated without a pointer to them. -/
structure OnDisk (sb : Superblock) (ino : Nat → Dinode) (ahead loose : List Nat)
    (cur logged : Disk) : Prop where
  fields : ∀ i, (ino i).Ok
  range : ∀ i, (ino i).type ≠ 0 → 0 < i ∧ i < sb.ninodes
  disk : ∀ i, i < sb.ninodes → i ∉ ahead → dinodeAt (cur (sb.iblock i)) i = ino i
  owned : Owned sb.nmeta sb.size (ptrs ino cur) loose (used sb cur)
  fits : ∀ i, (ino i).type ≠ 0 → (ino i).size ≤ MAXFILE * BSIZE
  full : ∀ i bn, (ino i).type ≠ 0 → bn * BSIZE < (ino i).size → (ino i).block cur bn ≠ 0
  calm : ∀ b, Sited sb ino cur b → cur b = logged b

/- Where things are. -/

namespace Superblock.Ok
variable {sb : Superblock}

theorem iblock_lt (h : sb.Ok) {i : Nat} (hi : i < sb.ninodes) : sb.iblock i < sb.bmapstart := by
  have := h.bmapstart
  simp only [iblock, IPB_eq] at *
  omega

theorem bblock_ge (sb : Superblock) (b : Nat) : sb.bmapstart ≤ sb.bblock b := Nat.le_add_left _ _

theorem bblock_lt {b : Nat} (hb : b < sb.size) : sb.bblock b < sb.nmeta := by
  have : b / BPB ≤ sb.size / BPB := Nat.div_le_div_right (Nat.le_of_lt hb)
  unfold bblock nmeta
  omega

theorem iblock_lt_nmeta (h : sb.Ok) {i : Nat} (hi : i < sb.ninodes) : sb.iblock i < sb.nmeta := by
  have := h.iblock_lt hi
  rw [nmeta, BPB_eq]
  omega

theorem iblock_ne_bblock (h : sb.Ok) {i : Nat} (hi : i < sb.ninodes) (b : Nat) :
    sb.iblock i ≠ sb.bblock b := by
  have h₁ := h.iblock_lt hi
  have h₂ := bblock_ge sb b
  omega

end Superblock.Ok

/- Pointers and nodes read few blocks. -/

theorem ptr_congr {d : Dinode} {cur cur' : Disk}
    (h : d.addrs.getD NDIRECT 0 ≠ 0 →
      cur' (d.addrs.getD NDIRECT 0) = cur (d.addrs.getD NDIRECT 0)) (k : Nat) :
    d.ptr cur' k = d.ptr cur k := by
  unfold Dinode.ptr
  split
  · rfl
  · split
    · rename_i hc
      rw [h hc.1]
    · rfl

theorem ptrs_live {ino : Nat → Dinode} {i : Nat} (h : (ino i).type ≠ 0) (cur : Disk) (k : Nat) :
    ptrs ino cur (i, k) = (ino i).ptr cur k := if_neg h

theorem ptrs_free {ino : Nat → Dinode} {i : Nat} (h : (ino i).type = 0) (cur : Disk) (k : Nat) :
    ptrs ino cur (i, k) = 0 := if_pos h

theorem ptr_indirect (d : Dinode) (cur : Disk) : d.ptr cur NDIRECT = d.addrs.getD NDIRECT 0 :=
  if_pos (Nat.le_refl _)

theorem ptrs_congr {ino : Nat → Dinode} {cur cur' : Disk}
    (h : ∀ i, ptrs ino cur (i, NDIRECT) ≠ 0 →
      cur' (ptrs ino cur (i, NDIRECT)) = cur (ptrs ino cur (i, NDIRECT))) :
    ptrs ino cur' = ptrs ino cur := by
  funext ⟨i, k⟩
  by_cases ht : (ino i).type = 0
  · rw [ptrs_free ht, ptrs_free ht]
  · have hi := h i
    rw [ptrs_live ht, ptr_indirect] at hi
    rw [ptrs_live ht, ptrs_live ht, ptr_congr hi]

theorem node_live {d : Dinode} (h : d.type ≠ 0) (cur : Disk) :
    d.node cur = ⟨d.type, d.major, d.minor, d.nlink, d.size,
      fun s => if d.type = T_DIR ∧ 16 * s < d.size then d.dirent cur s else .empty,
      fun o => if d.type ≠ T_DIR ∧ o < d.size then d.byte cur o else 0⟩ := if_neg h

theorem node_free {d : Dinode} (h : d.type = 0) (cur : Disk) : d.node cur = .free := if_pos h

/-- A node does not depend on where its blocks are. -/
theorem node_moved {d d' : Dinode} {cur cur' : Disk} (hs : d' = { d with addrs := d'.addrs })
    (hb : d.type ≠ 0 → ∀ bn, bn * BSIZE < d.size →
      cur' (d'.block cur' bn) = cur (d.block cur bn)) : d'.node cur' = d.node cur := by
  by_cases ht : d.type = 0
  · rw [node_free ht, node_free (by rw [hs]; exact ht)]
  · have ht' : d'.type ≠ 0 := by rw [hs]; exact ht
    have h₁ : d'.type = d.type := by rw [hs]
    have h₂ : d'.size = d.size := by rw [hs]
    rw [node_live ht, node_live ht', Node.mk.injEq, h₁, h₂]
    refine ⟨rfl, by rw [hs], by rw [hs], by rw [hs], rfl, ?_, ?_⟩
    · funext s
      split
      · rename_i hc
        have := Nat.div_mul_le_self (16 * s) BSIZE
        unfold Dinode.dirent
        rw [hb ht _ (by omega)]
      · rfl
    · funext o
      split
      · rename_i hc
        have := Nat.div_mul_le_self o BSIZE
        unfold Dinode.byte
        rw [hb ht _ (by omega)]
      · rfl

theorem node_congr {ino : Nat → Dinode} {cur cur' : Disk} {i : Nat}
    (hf : ∀ bn, (ino i).type ≠ 0 → bn * BSIZE < (ino i).size → (ino i).block cur bn ≠ 0)
    (h : ∀ k, ptrs ino cur (i, k) ≠ 0 → cur' (ptrs ino cur (i, k)) = cur (ptrs ino cur (i, k))) :
    (ino i).node cur' = (ino i).node cur := by
  refine node_moved rfl (fun ht bn hbn => ?_)
  have hptr : ∀ k, (ino i).ptr cur' k = (ino i).ptr cur k := by
    apply ptr_congr
    have hk := h NDIRECT
    rwa [ptrs_live ht, ptr_indirect] at hk
  have hk := h (posOf bn)
  rw [ptrs_live ht] at hk
  unfold Dinode.block
  rw [hptr]
  exact hk (hf bn ht hbn)

/- Changes of the bitmap. -/

theorem bblock_eq_iff {sb : Superblock} {x b : Nat} :
    sb.bblock x = sb.bblock b ↔ x / BPB = b / BPB := by
  unfold Superblock.bblock
  omega

theorem used_setBit {sb : Superblock} {cur : Disk} {b : Nat} (x : Nat) :
    used sb (setAt cur (sb.bblock b) (setBit (cur (sb.bblock b)) (b % BPB))) x ↔
      x = b ∨ used sb cur x := by
  have hx : x % BPB < BPB := Nat.mod_lt _ (by decide)
  unfold used
  rw [setAt_apply]
  split
  · rename_i h
    have hiff : x % BPB = b % BPB ↔ x = b := by
      have := bblock_eq_iff.mp h
      rw [BPB_eq] at *
      omega
    rw [← Bool.not_eq_true, ← Bool.not_eq_true, bitClear_setBit _ hx, h, ← hiff]
    constructor
    · intro hn
      by_cases he : x % BPB = b % BPB
      · exact .inl he
      · exact .inr (fun hc => hn ⟨he, hc⟩)
    · rintro (he | hn) ⟨h₁, h₂⟩
      · exact h₁ he
      · exact hn h₂
  · rename_i h
    have hne : x ≠ b := fun he => h (by rw [he])
    simp [hne]

theorem used_clearBit {sb : Superblock} {cur : Disk} {b : Nat} (x : Nat) :
    used sb (setAt cur (sb.bblock b) (clearBit (cur (sb.bblock b)) (b % BPB))) x ↔
      x ≠ b ∧ used sb cur x := by
  have hx : x % BPB < BPB := Nat.mod_lt _ (by decide)
  unfold used
  rw [setAt_apply]
  split
  · rename_i h
    have hiff : x % BPB = b % BPB ↔ x = b := by
      have := bblock_eq_iff.mp h
      rw [BPB_eq] at *
      omega
    rw [← Bool.not_eq_true, ← Bool.not_eq_true, bitClear_clearBit _ hx, h, not_or, hiff]
  · rename_i h
    have hne : x ≠ b := fun he => h (by rw [he])
    simp [hne]

namespace OnDisk
variable {sb : Superblock} {ino : Nat → Dinode} {ahead loose loose' : List Nat}
  {cur logged : Disk} {b : Nat}

theorem same {s t : Store} (h : OnDisk sb ino ahead loose s.cur s.logged) (hs : s.Same t) :
    OnDisk sb ino ahead loose t.cur t.logged := by
  rw [hs.cur, hs.logged]
  exact h

theorem ptr_ge (h : OnDisk sb ino ahead loose cur logged) {o : Nat × Nat}
    (ho : ptrs ino cur o ≠ 0) : sb.nmeta ≤ ptrs ino cur o := (h.owned.range o ho).1

/-- A block that no pointer leads to can be overwritten. -/
theorem overwrite (h : OnDisk sb ino ahead loose cur logged) {d : Block} {ahead' : List Nat}
    (hb : ∀ o, ptrs ino cur o ≠ 0 → ptrs ino cur o ≠ b)
    (hdisk : ∀ i, i < sb.ninodes → i ∉ ahead' → dinodeAt (setAt cur b d (sb.iblock i)) i = ino i)
    (hown : Owned sb.nmeta sb.size (ptrs ino cur) loose' (used sb (setAt cur b d))) :
    OnDisk sb ino ahead' loose' (setAt cur b d) (setAt logged b d) := by
  have hp : ptrs ino (setAt cur b d) = ptrs ino cur :=
    ptrs_congr (fun i hi => setAt_other _ _ _ (hb _ hi))
  refine ⟨h.fields, h.range, hdisk, by rw [hp]; exact hown, h.fits, ?_, ?_⟩
  · intro i bn ht hbn
    have hk := congrFun hp (i, posOf bn)
    rw [ptrs_live ht, ptrs_live ht] at hk
    unfold Dinode.block
    rw [hk]
    exact h.full i bn ht hbn
  · intro b' hs
    by_cases he : b' = b
    · rw [he, setAt_same, setAt_same]
    · rw [setAt_other _ _ _ he, setAt_other _ _ _ he]
      unfold Sited at hs
      rw [hp] at hs
      exact h.calm b' hs

/-- The same, for a block that holds no inode. -/
theorem overwrite_noninode (h : OnDisk sb ino ahead loose cur logged) {d : Block}
    (hb : ∀ o, ptrs ino cur o ≠ 0 → ptrs ino cur o ≠ b)
    (hi : ∀ i, i < sb.ninodes → sb.iblock i ≠ b)
    (hown : Owned sb.nmeta sb.size (ptrs ino cur) loose' (used sb (setAt cur b d))) :
    OnDisk sb ino ahead loose' (setAt cur b d) (setAt logged b d) := by
  refine h.overwrite hb (fun i hlt ha => ?_) hown
  rw [setAt_other _ _ _ (hi i hlt)]
  exact h.disk i hlt ha

theorem meta_free (h : OnDisk sb ino ahead loose cur logged) (hb : b < sb.nmeta) :
    ∀ o, ptrs ino cur o ≠ 0 → ptrs ino cur o ≠ b := by
  intro o ho he
  have := h.ptr_ge ho
  omega

theorem calm_meta (h : OnDisk sb ino ahead loose cur logged) (hb : b < sb.nmeta) :
    cur b = logged b := h.calm b (.inl hb)

/-- balloc() sets a clear bit. -/
theorem setBit (h : OnDisk sb ino ahead loose cur logged) (hsb : sb.Ok) (hb : b < sb.size)
    (hclear : ¬ used sb cur b) :
    OnDisk sb ino ahead (b :: loose)
      (setAt cur (sb.bblock b) (Xv6.setBit (cur (sb.bblock b)) (b % BPB)))
      (setAt logged (sb.bblock b) (Xv6.setBit (cur (sb.bblock b)) (b % BPB))) := by
  apply h.overwrite_noninode (h.meta_free (Superblock.Ok.bblock_lt hb))
    (fun i hi => hsb.iblock_ne_bblock hi b)
  exact h.owned.take hb hclear (fun x _ => used_setBit x)

/-- bfree() clears the bit of a block that nothing points to any more. -/
theorem clearBit (h : OnDisk sb ino ahead (b :: loose) cur logged) (hsb : sb.Ok) :
    OnDisk sb ino ahead loose
      (setAt cur (sb.bblock b) (Xv6.clearBit (cur (sb.bblock b)) (b % BPB)))
      (setAt logged (sb.bblock b) (Xv6.clearBit (cur (sb.bblock b)) (b % BPB))) := by
  have hb : b < sb.size := (h.owned.apart b List.mem_cons_self).2.1
  apply h.overwrite_noninode (h.meta_free (Superblock.Ok.bblock_lt hb))
    (fun i hi => hsb.iblock_ne_bblock hi b)
  exact h.owned.release (fun x _ => used_clearBit x)

/-- A loose block can be filled with anything. -/
theorem fill (h : OnDisk sb ino ahead loose cur logged) (hsb : sb.Ok) (hb : b ∈ loose) (d : Block) :
    OnDisk sb ino ahead loose (setAt cur b d) (setAt logged b d) := by
  obtain ⟨hlo, hhi, hfree⟩ := h.owned.apart b hb
  apply h.overwrite_noninode (fun o _ => hfree o)
  · intro i hi
    have := hsb.iblock_lt_nmeta hi
    omega
  · refine h.owned.congr (fun _ => rfl) ?_
    intro x hx
    have := Superblock.Ok.bblock_lt hx
    unfold used
    rw [setAt_other _ _ _ (by omega)]

/- Changes of inodes. -/

theorem later (h : OnDisk sb ino ahead loose cur logged) (i : Nat) :
    OnDisk sb ino (i :: ahead) loose cur logged where
  fields := h.fields
  range := h.range
  disk j hj ha := h.disk j hj (fun hm => ha (List.mem_cons_of_mem _ hm))
  owned := h.owned
  fits := h.fits
  full := h.full
  calm := h.calm

/-- Changing an inode in memory that keeps its pointers. -/
theorem setIno (h : OnDisk sb ino ahead loose cur logged) {i : Nat} (hi : i ∈ ahead) {c : Dinode}
    (hok : c.Ok) (hr : c.type ≠ 0 → 0 < i ∧ i < sb.ninodes)
    (hp : ∀ k, ptrs (setAt ino i c) cur (i, k) = ptrs ino cur (i, k))
    (hfits : c.type ≠ 0 → c.size ≤ MAXFILE * BSIZE)
    (hfull : ∀ bn, c.type ≠ 0 → bn * BSIZE < c.size → c.block cur bn ≠ 0)
    (hdir : c.type = T_DIR → (ino i).type = T_DIR ∨ ∀ k, ptrs ino cur (i, k) = 0) :
    OnDisk sb (setAt ino i c) ahead loose cur logged := by
  have hptrs : ptrs (setAt ino i c) cur = ptrs ino cur := by
    funext ⟨j, k⟩
    by_cases hj : j = i
    · rw [hj, hp]
    · simp only [ptrs, setAt_other _ _ _ hj]
  refine ⟨?_, ?_, ?_, by rw [hptrs]; exact h.owned, ?_, ?_, ?_⟩
  · intro j
    by_cases hj : j = i
    · rw [hj, setAt_same]; exact hok
    · rw [setAt_other _ _ _ hj]; exact h.fields j
  · intro j
    by_cases hj : j = i
    · rw [hj, setAt_same]; exact hr
    · rw [setAt_other _ _ _ hj]; exact h.range j
  · intro j hlt ha
    have hj : j ≠ i := fun he => ha (he ▸ hi)
    rw [setAt_other _ _ _ hj]
    exact h.disk j hlt ha
  · intro j
    by_cases hj : j = i
    · rw [hj, setAt_same]; exact hfits
    · rw [setAt_other _ _ _ hj]; exact h.fits j
  · intro j bn
    by_cases hj : j = i
    · rw [hj, setAt_same]; exact hfull bn
    · rw [setAt_other _ _ _ hj]; exact h.full j bn
  · intro b hs
    apply h.calm b
    rcases hs with hs | ⟨j, k, hk, hc⟩
    · exact .inl hs
    · rw [hptrs] at hk
      by_cases hj : j = i
      · subst hj
        rw [setAt_same] at hc
        rcases hc with hc | hc
        · exact .inr ⟨j, k, hk, .inl hc⟩
        · rcases hdir hc with hc | hz
          · exact .inr ⟨j, k, hk, .inr hc⟩
          · exact .inl (by rw [← hk, hz]; exact h.owned.pos)
      · rw [setAt_other _ _ _ hj] at hc
        exact .inr ⟨j, k, hk, hc⟩

/-- The inode is written to its block. -/
theorem writeInode {i : Nat} (h : OnDisk sb ino (i :: ahead) loose cur logged) (hsb : sb.Ok)
    (hi : i < sb.ninodes) {bs : List UInt8} (hlen : bs.length ≤ 64)
    (hbs : dinodeAt ((cur (sb.iblock i)).put (i % IPB * 64) bs) i = ino i) :
    OnDisk sb ino ahead loose
      (setAt cur (sb.iblock i) ((cur (sb.iblock i)).put (i % IPB * 64) bs))
      (setAt logged (sb.iblock i) ((cur (sb.iblock i)).put (i % IPB * 64) bs)) := by
  apply h.overwrite (h.meta_free (hsb.iblock_lt_nmeta hi))
  · intro j hj ha
    by_cases he : j = i
    · rw [he, setAt_same, hbs]
    · have hd := h.disk j hj (by simp [he, ha])
      rw [setAt_apply]
      split
      · rename_i hb
        rw [dinodeAt_put_other _ hlen ?_ he, ← hb, hd]
        unfold Superblock.iblock at hb
        omega
      · exact hd
  · refine h.owned.congr (fun _ => rfl) ?_
    intro x _
    unfold used
    rw [setAt_other _ _ _ (hsb.iblock_ne_bblock hi x).symm]

theorem node_meta (h : OnDisk sb ino ahead loose cur logged) {cur' : Disk}
    (hk : ∀ n, sb.nmeta ≤ n → cur' n = cur n) (i : Nat) :
    (ino i).node cur' = (ino i).node cur :=
  node_congr (h.full i) (fun _ hp => hk _ (h.ptr_ge hp))

end OnDisk
end Xv6
