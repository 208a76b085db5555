import Xv6.Fs

namespace Xv6

/- The sizes as numbers. -/

theorem BSIZE_eq : BSIZE = 1024 := rfl
theorem BPB_eq : BPB = 8192 := rfl
theorem IPB_eq : IPB = 16 := rfl
theorem NDIRECT_eq : NDIRECT = 10 := rfl
theorem NINDIRECT_eq : NINDIRECT = 256 := rfl

/- Bits. -/

theorem bitMask_and (j k : Nat) :
    bitMask j &&& bitMask k = if j % 8 = k % 8 then bitMask k else 0 := by
  have h : ∀ a b : Fin 8, (1 <<< UInt8.ofNat a.val) &&& (1 <<< UInt8.ofNat b.val) =
      if a.val = b.val then (1 : UInt8) <<< UInt8.ofNat b.val else 0 := by decide
  exact h ⟨j % 8, by omega⟩ ⟨k % 8, by omega⟩

theorem bitMask_ne_zero (k : Nat) : bitMask k ≠ 0 := by
  have h : ∀ a : Fin 8, (1 : UInt8) <<< UInt8.ofNat a.val ≠ 0 := by decide
  exact h ⟨k % 8, by omega⟩

theorem or_bitMask (x : UInt8) (j k : Nat) :
    (x ||| bitMask j) &&& bitMask k = 0 ↔ j % 8 ≠ k % 8 ∧ x &&& bitMask k = 0 := by
  have hd : (x ||| bitMask j) &&& bitMask k = (x &&& bitMask k) ||| (bitMask j &&& bitMask k) := by
    apply UInt8.eq_of_toBitVec_eq
    simp only [UInt8.toBitVec_and, UInt8.toBitVec_or, BitVec.and_comm _ (bitMask k).toBitVec,
      BitVec.and_or_distrib_left]
  rw [hd, UInt8.or_eq_zero_iff, bitMask_and]
  by_cases h : j % 8 = k % 8
  · simp [h, bitMask_ne_zero]
  · simp [h]

theorem and_not_bitMask (x : UInt8) (j k : Nat) :
    (x &&& ~~~ bitMask j) &&& bitMask k = 0 ↔ j % 8 = k % 8 ∨ x &&& bitMask k = 0 := by
  have h : ∀ a b : Fin 8, ~~~ ((1 : UInt8) <<< UInt8.ofNat a.val) &&& (1 <<< UInt8.ofNat b.val) =
      if a.val = b.val then 0 else (1 : UInt8) <<< UInt8.ofNat b.val := by decide
  have hm : ~~~ bitMask j &&& bitMask k = if j % 8 = k % 8 then 0 else bitMask k :=
    h ⟨j % 8, by omega⟩ ⟨k % 8, by omega⟩
  rw [UInt8.and_assoc, hm]
  by_cases he : j % 8 = k % 8
  · simp [he]
  · simp [he]

theorem byteAt_put_byte (d : Block) (i j : Nat) (x : UInt8) (hj : j < BSIZE) :
    (d.put i [x]).byteAt j = if j = i then x else d.byteAt j := by
  rw [ByteArr.byteAt_put d i [x] j hj, List.length_singleton]
  by_cases h : j = i
  · subst h; simp
  · rw [if_neg (by omega), if_neg h]

theorem bitClear_setBit (d : Block) {j k : Nat} (hk : k < BPB) :
    bitClear (setBit d j) k = true ↔ k ≠ j ∧ bitClear d k = true := by
  have hk' : k / 8 < BSIZE := by rw [BPB_eq] at hk; rw [BSIZE_eq]; omega
  simp only [bitClear, setBit, beq_iff_eq, byteAt_put_byte d _ (k / 8) _ hk']
  by_cases h : k / 8 = j / 8
  · rw [if_pos h, or_bitMask, h]
    constructor
    · exact fun ⟨h₁, h₂⟩ => ⟨by omega, h₂⟩
    · exact fun ⟨h₁, h₂⟩ => ⟨by omega, h₂⟩
  · rw [if_neg h]
    exact ⟨fun h₁ => ⟨by omega, h₁⟩, fun h₁ => h₁.2⟩

theorem bitClear_clearBit (d : Block) {j k : Nat} (hk : k < BPB) :
    bitClear (clearBit d j) k = true ↔ k = j ∨ bitClear d k = true := by
  have hk' : k / 8 < BSIZE := by rw [BPB_eq] at hk; rw [BSIZE_eq]; omega
  simp only [bitClear, clearBit, beq_iff_eq, byteAt_put_byte d _ (k / 8) _ hk']
  by_cases h : k / 8 = j / 8
  · rw [if_pos h, and_not_bitMask, h]
    constructor
    · exact fun h₁ => h₁.imp (by omega) id
    · exact fun h₁ => h₁.imp (by omega) id
  · rw [if_neg h]
    constructor
    · exact .inr
    · rintro (rfl | h₁)
      · exact absurd rfl h
      · exact h₁

/- Words. -/

theorem wordAt_setWord (d : Block) {j k a : Nat} (hj : j < NINDIRECT) (ha : a < 2 ^ 32) :
    wordAt (setWord d j a) k = if k = j then a else wordAt d k := by
  unfold wordAt setWord
  by_cases h : k = j
  · subst h
    have hg := d.get_put (4 * k) (Bytes.le 4 a) (by
      rw [Bytes.length_le, BSIZE_eq]; rw [NINDIRECT_eq] at hj; omega)
    rw [Bytes.length_le] at hg
    rw [if_pos rfl, hg, Bytes.ofLe_le_of_lt ha]
  · rw [if_neg h, ByteArr.get_put_disjoint]
    rw [Bytes.length_le]
    omega

theorem get_zero (n off len : Nat) :
    (ByteArr.zero : ByteArr n).get off len = List.replicate len 0 := by
  apply List.ext_getElem
  · simp
  · intro i _ _
    simp [ByteArr.get, ByteArr.byteAt, ByteArr.zero]

@[simp] theorem wordAt_zero (j : Nat) : wordAt .zero j = 0 := by
  unfold wordAt
  rw [get_zero]
  rfl

/- Inodes. -/

/-- A disk inode whose fields fit into their C types. -/
structure Dinode.Ok (d : Dinode) : Prop where
  type : toShort d.type = d.type
  major : toShort d.major = d.major
  minor : toShort d.minor = d.minor
  nlink : toShort d.nlink = d.nlink
  size : d.size < 2 ^ 32
  length : d.addrs.length = NDIRECT + 1
  addrs : ∀ a ∈ d.addrs, a < 2 ^ 32

theorem toShort_toShort (x : Int) : toShort (toShort x) = toShort x := by
  unfold toShort
  omega

theorem ofLe_toUshort (x : Int) :
    toShort (Bytes.ofLe (Bytes.le 2 (toUshort x)) : Nat) = toShort x := by
  have h : toUshort x < 256 ^ 2 := by unfold toUshort; omega
  rw [Bytes.ofLe_le_of_lt h]
  unfold toShort toUshort
  omega

theorem dinodeAt_ok (d : Block) (inum : Nat) : (dinodeAt d inum).Ok where
  type := toShort_toShort _
  major := toShort_toShort _
  minor := toShort_toShort _
  nlink := toShort_toShort _
  size := by
    have h := Bytes.ofLe_lt (d.get (inum % IPB * 64 + 8) 4)
    rwa [ByteArr.length_get] at h
  length := by simp [dinodeAt]
  addrs := by
    intro a ha
    obtain ⟨k, _, rfl⟩ := List.mem_map.mp ha
    have h := Bytes.ofLe_lt (d.get (inum % IPB * 64 + 12 + 4 * k) 4)
    rwa [ByteArr.length_get] at h

theorem length_dinode_encode {d : Dinode} (h : d.addrs.length = NDIRECT + 1) :
    d.encode.length = 56 := by
  rw [Dinode.encode, List.length_append, Bytes.length_words, List.length_cons, h]
  rfl

/-- The bytes of one field, read back from the 64 bytes of its inode. -/
theorem get_field (d : Block) (inum : Nat) (bs : List UInt8) (o len : Nat)
    (ho : o + len ≤ bs.length) (hb : bs.length ≤ 64) :
    (d.put (inum % IPB * 64) bs).get (inum % IPB * 64 + o) len = (bs.drop o).take len := by
  have hlt : inum % IPB < IPB := Nat.mod_lt _ (by decide)
  apply ByteArr.get_put_within _ _ _ _ _ ho
  rw [IPB_eq] at hlt ⊢
  rw [BSIZE_eq]
  omega

theorem encode_addr {d : Dinode} {k : Nat} (hk : k < d.addrs.length) :
    (d.encode.drop (12 + 4 * k)).take 4 = Bytes.le 4 d.addrs[k] := by
  have hw := Bytes.words_at 4 (d.size :: d.addrs) (k + 1) (by simpa using hk)
  have hd : d.encode.drop (12 + 4 * k) =
      ((d.size :: d.addrs).flatMap (Bytes.le 4)).drop (4 * (k + 1)) := by
    rw [show 12 + 4 * k = 8 + 4 * (k + 1) by omega, ← List.drop_drop]
    rfl
  rw [hd, hw, List.getElem_cons_succ]

theorem dinodeAt_putDinode (d : Block) (inum : Nat) {ino : Dinode} (h : ino.Ok) :
    dinodeAt (putDinode d inum ino) inum = ino := by
  have hlen := length_dinode_encode h.length
  have hf := fun o len ho => get_field d inum ino.encode o len ho (by omega)
  have hshort : ∀ o x, o + 2 ≤ 8 → (ino.encode.drop o).take 2 = Bytes.le 2 (toUshort x) →
      toShort x = x →
      toShort (Bytes.ofLe ((putDinode d inum ino).get (inum % IPB * 64 + o) 2) : Nat) = x := by
    intro o x ho he hx
    rw [putDinode, hf o 2 (by omega), he, ofLe_toUshort, hx]
  apply Dinode.ext
  · exact hshort 0 ino.type (by omega) rfl h.type
  · exact hshort 2 ino.major (by omega) rfl h.major
  · exact hshort 4 ino.minor (by omega) rfl h.minor
  · exact hshort 6 ino.nlink (by omega) rfl h.nlink
  · change Bytes.ofLe ((putDinode d inum ino).get (inum % IPB * 64 + 8) 4) = ino.size
    rw [putDinode, hf 8 4 (by omega)]
    exact Bytes.ofLe_le_of_lt (k := 4) h.size
  · apply List.ext_getElem
    · simp [dinodeAt, h.length]
    · intro k h₁ h₂
      have hk : k < 11 := by rw [h.length] at h₂; exact h₂
      simp only [dinodeAt, List.getElem_map, List.getElem_range, Nat.add_assoc]
      rw [putDinode, hf (12 + 4 * k) 4 (by omega), encode_addr h₂,
        Bytes.ofLe_le_of_lt (k := 4) (h.addrs _ (List.getElem_mem h₂))]

/-- An inode is the first 56 of its bytes. -/
theorem dinodeAt_congr {d d' : Block} {inum : Nat}
    (h : ∀ o len, o + len ≤ 56 → d'.get (inum % IPB * 64 + o) len = d.get (inum % IPB * 64 + o) len) :
    dinodeAt d' inum = dinodeAt d inum := by
  apply Dinode.ext
  all_goals simp only [dinodeAt]
  · rw [h 0 2 (by omega)]
  · rw [h 2 2 (by omega)]
  · rw [h 4 2 (by omega)]
  · rw [h 6 2 (by omega)]
  · rw [h 8 4 (by omega)]
  · apply List.map_congr_left
    intro k hk
    rw [List.mem_range, NDIRECT_eq] at hk
    rw [Nat.add_assoc, h (12 + 4 * k) 4 (by omega)]

/-- A write into one inode leaves the others in the block alone. -/
theorem dinodeAt_put_other (d : Block) {inum j : Nat} {bs : List UInt8} (hb : bs.length ≤ 64)
    (hij : inum / IPB = j / IPB) (hne : j ≠ inum) :
    dinodeAt (d.put (inum % IPB * 64) bs) j = dinodeAt d j := by
  rw [IPB_eq] at hij
  have hmod : j % 16 ≠ inum % 16 := by omega
  refine dinodeAt_congr fun o len ho => ?_
  apply ByteArr.get_put_disjoint
  rw [IPB_eq]
  omega

theorem dinodeAt_freshDinode (d : Block) (inum : Nat) (type : Int) :
    dinodeAt (freshDinode d inum type) inum = .fresh type := by
  have hf := fun o len ho => get_field d inum
    (Bytes.le 2 (toUshort type) ++ List.replicate 62 0) o len ho (by simp)
  have hlen : (Bytes.le 2 (toUshort type) ++ List.replicate 62 0).length = 64 := by simp
  have hz : ∀ o len, 2 ≤ o → o + len ≤ 64 →
      (freshDinode d inum type).get (inum % IPB * 64 + o) len = List.replicate len 0 := by
    intro o len h₁ h₂
    have ho : o = (Bytes.le 2 (toUshort type)).length + (o - 2) := by
      rw [Bytes.length_le]
      omega
    rw [freshDinode, hf o len (by omega), ho, List.drop_length_add_append, List.drop_replicate,
      List.take_replicate]
    congr 1
    omega
  apply Dinode.ext
  · change toShort (Bytes.ofLe ((freshDinode d inum type).get (inum % IPB * 64 + 0) 2) : Nat) = _
    rw [freshDinode, hf 0 2 (by omega)]
    exact ofLe_toUshort type
  all_goals simp only [dinodeAt]
  · rw [hz 2 2 (by omega) (by omega)]; simp [Bytes.ofLe, toShort, Dinode.fresh]
  · rw [hz 4 2 (by omega) (by omega)]; simp [Bytes.ofLe, toShort, Dinode.fresh]
  · rw [hz 6 2 (by omega) (by omega)]; simp [Bytes.ofLe, toShort, Dinode.fresh]
  · rw [hz 8 4 (by omega) (by omega)]; simp [Bytes.ofLe, Dinode.fresh]
  · apply List.ext_getElem
    · simp [Dinode.fresh]
    · intro k h₁ h₂
      have hk : k < NDIRECT + 1 := by simpa only [List.length_map, List.length_range] using h₁
      have hk : k < 11 := hk
      simp only [List.getElem_map, List.getElem_range, Nat.add_assoc]
      rw [hz (12 + 4 * k) 4 (by omega) (by omega)]
      simp [Dinode.fresh, Bytes.ofLe]

/- Entries of directories. -/

theorem direntOf_encode {de : Dirent} (h : de.inum < 2 ^ 16) : direntOf de.encode = de := by
  have hb : Bytes.ofLe (Bytes.le 2 de.inum) = de.inum := Bytes.ofLe_le_of_lt h
  simp only [direntOf, Dirent.encode]
  rw [List.take_left' (Bytes.length_le 2 _), List.drop_left' (Bytes.length_le 2 _), hb]

theorem length_strncpy (s : List UInt8) : (strncpy s).length = DIRSIZ := by
  have h : (cstr s).length ≤ DIRSIZ :=
    Nat.le_trans (List.takeWhile_sublist _).length_le (List.length_take_le _ _)
  rw [strncpy, List.length_append, List.length_replicate]
  omega

theorem length_encode_strncpy (i : Nat) (s : List UInt8) :
    (Dirent.encode ⟨i, strncpy s⟩).length = 16 := by
  rw [Dirent.encode, List.length_append, Bytes.length_le, length_strncpy]
  rfl

theorem cstr_strncpy (s : List UInt8) : cstr (strncpy s) = cstr s := by
  have hnz : ∀ c ∈ cstr s, (c != 0) = true := List.all_eq_true.mp List.all_takeWhile
  have hfull : (strncpy s).take DIRSIZ = strncpy s :=
    List.take_of_length_le (Nat.le_of_eq (length_strncpy s))
  rw [cstr, hfull, strncpy, List.takeWhile_append_of_pos hnz]
  cases DIRSIZ - (cstr s).length with
  | zero => simp
  | succ n => simp [List.replicate_succ]

end Xv6
