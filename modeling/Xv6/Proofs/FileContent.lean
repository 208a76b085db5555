import Xv6.Proofs.FileData
import Xv6.Proofs.Mkfs

namespace Xv6
variable {p : ProcId} {sb : Superblock} {fs : Fs} {ip : InodePtr} {i : Nat}

/-- A process in a transaction, between two steps on buffers, with in-memory inode `ip` of file `i` of a sound
file system. -/
structure Editing (sb : Superblock) (ip : InodePtr) (i : Nat) (fs : Fs) : Prop where
  loaded : ∃ ino, Loaded sb ino ip i fs
  held : fs.st.held = []
  outstanding : 1 ≤ fs.st.outstanding

/-- readi() finds the bytes `l`, wherever and however many it is asked for. -/
def ReadsAs (p : ProcId) (ip : InodePtr) (fs : Fs) (l : List UInt8) : Prop :=
  ∀ off n, off + n < 2 ^ 32 → ∃ fs', (Kern.readi ip .kernel off n).exec (Fs.run p) fs =
    .ok (counted ((l.drop off).take n)) fs'

theorem Editing.readsAs (h : Editing sb ip i fs) : ReadsAs p ip fs (fs.bytes i) := by
  obtain ⟨ino, hl⟩ := h.loaded
  intro off n hsum
  rw [hl.bytes_eq hl.lt]
  obtain ⟨a, fs', he, rfl, -⟩ := (completes_readi (w := False) hl h.held .kernel off n).ensures (p := p) nofun
    (readi_reads hl (fun _ _ => rfl) hsum)
  exact ⟨fs', he⟩

theorem Editing.length (h : Editing sb ip i fs) : (fs.bytes i).length = (fs.mem.inode ip).copy.size := by
  obtain ⟨ino, hl⟩ := h.loaded
  rw [hl.bytes_eq hl.lt, hl.copy]
  simp [Dinode.bytes, hl.live]

/-- writei() of `data` at offset `off` refuses what does not fit in a file, and otherwise puts as much of `data` in
its place as there are blocks for. -/
def WritesAt (p : ProcId) (sb : Superblock) (ip : InodePtr) (i off : Nat) (src : Src) (data : List UInt8) (fs : Fs) :
    Prop :=
  ∃ r fs', (Kern.writei ip src off data.length).exec (Fs.run p) fs = .ok r fs' ∧
    (r = -1 ↔ (fs.bytes i).length < off ∨ 2 ^ 32 ≤ off + data.length ∨ MAXFILE * BSIZE < off + data.length) ∧
    (r = -1 → fs' = fs) ∧
    (r ≠ -1 → ∃ k : Nat, r = k ∧ k ≤ data.length ∧ (k < data.length → NoneFrom sb fs'.st.cur 0) ∧
      (fs'.bytes i).length = max (fs.bytes i).length (off + k) ∧ (fs'.mem.inode ip).copy.size = (fs'.bytes i).length ∧
      fs'.bytes i = splice (fs.bytes i) off (data.take k) ∧ ReadsAs p ip fs' (fs'.bytes i) ∧
      ∀ j, j ≠ i → fs'.bytes j = fs.bytes j)

theorem Written.bytes_eq {ino ino' : Nat → Dinode} {off k : Nat} {data : List UInt8} {fs' : Fs}
    (hw : Written sb ip i off data ino fs k ino' fs') (h : Loaded sb ino ip i fs) :
    fs'.bytes i = splice (fs.bytes i) off (data.take k) ∧ ∀ j, j ≠ i → fs'.bytes j = fs.bytes j := by
  refine ⟨?_, fun j hj => ?_⟩
  · rw [hw.loaded.bytes_eq h.lt, h.bytes_eq h.lt, hw.bytes]
  · by_cases hlt : j < sb.ninodes
    · rw [hw.loaded.bytes_eq hlt, h.bytes_eq hlt]
      exact (hw.others j hj).2
    · rw [Fs.bytes, Fs.bytes, hw.loaded.super, h.super, dinodes, dinodes, if_neg hlt, if_neg hlt]
      rfl

theorem writei_refuses {src : Src} {off n : Nat} (h : (fs.mem.inode ip).copy.size < off ∨
    (off + n) % 2 ^ 32 < off ∨ MAXFILE * BSIZE < off + n) :
    (Kern.writei ip src off n).exec (Fs.run p) fs = .ok (-1) fs := by
  have hget : (Kern.inodeOf ip).exec (Fs.run p) fs = .ok (fs.mem.inode ip) fs := rfl
  rw [Kern.writei, Free.exec_seq hget]
  split
  · rfl
  · rw [if_pos (by omega)]
    rfl

/-- If the log has room for the blocks that writei() changes, it writes as it should. -/
theorem writei_writes_at (hsb : sb.Ok) (h : Editing sb ip i fs) {src : Src} {data : List UInt8} (hsrc : src.Gives data)
    {off : Nat} (hoff : off < 2 ^ 32) (hn : data.length < 2 ^ 32)
    (hfit : Kern.Fits p (Kern.writei ip src off data.length) fs) :
    ReadsAs p ip fs (fs.bytes i) ∧ WritesAt p sb ip i off src data fs := by
  refine ⟨h.readsAs, ?_⟩
  have hlen := h.length
  obtain ⟨ino, hl⟩ := h.loaded
  have hbig := MAXFILE_BSIZE
  by_cases hbad : (fs.bytes i).length < off ∨ 2 ^ 32 ≤ off + data.length ∨ MAXFILE * BSIZE < off + data.length
  · refine ⟨-1, fs, ?_, ⟨fun _ => hbad, fun _ => rfl⟩, fun _ => rfl, fun hne => absurd rfl hne⟩
    exact writei_refuses (by omega)
  · obtain ⟨r, fs', he, ino', k, rfl, hk, hw⟩ := (completes_writei hsb hl h.held h.outstanding src off data.length).ensures
      (fun _ => hfit) (writei_written (fun _ _ _ _ _ => trivial) hsb hl hsrc (by rw [hl.copy] at hlen; omega) (by omega))
    have hdebt := (Kern.even_writei ip src off data.length).debt he
    have hed : Editing sb ip i fs' := by
      refine ⟨⟨ino', hw.loaded⟩, (congrArg Prod.fst hdebt).trans h.held, ?_⟩
      have : fs'.st.outstanding = fs.st.outstanding := congrArg Prod.snd hdebt
      have := h.outstanding
      omega
    obtain ⟨hb, ho⟩ := hw.bytes_eq hl
    refine ⟨k, fs', he, ⟨fun hk => by omega, fun hx => absurd hx hbad⟩, fun hk => by omega, fun _ =>
      ⟨k, rfl, hk, hw.none, ?_, hed.length.symm, hb, hed.readsAs, ho⟩⟩
    rw [hed.length, hlen, hw.loaded.copy, hw.fields, hl.copy]

/-- The file system of one file of eight bytes, in a transaction. -/
def editing : Fs := { Kern.eightBytes with st := { Kern.eightBytes.st with outstanding := 1 } }

theorem editing_inode : dinodes mkfsSb fileImage 2 = (editing.mem.inode 0).copy := by decide +kernel

theorem editing_loaded : Loaded mkfsSb (dinodes mkfsSb fileImage) 0 2 editing where
  super := rfl
  inum := rfl
  copy := editing_inode.symm
  live := by
    rw [editing_inode]
    decide
  disk := fileImage_wellFormed.onDisk
  clean _ _ := rfl

theorem editing_editing : Editing mkfsSb 0 2 editing := ⟨⟨_, editing_loaded⟩, rfl, Int.le_refl 1⟩

theorem kernel_gives (data : List UInt8) : (Src.kernel data).Gives data := fun _ _ _ => rfl

/-- A write that goes beyond the end of the file, in one block. -/
theorem writei_writes_at_end : WritesAt 0 mkfsSb 0 2 8 (.kernel [1, 2, 3]) [1, 2, 3] editing := by
  have hsolid := editing_loaded.solid
  refine (writei_writes_at fileImage_wellFormed.super editing_editing (kernel_gives _) (by decide) (by decide) ?_).2
  exact (hsolid.spends_writei _ _ (by decide)).fits (by decide) (by decide)

set_option maxRecDepth 100000 in
/-- Thirty blocks at once are too much for the log. -/
theorem writei_too_big : Editing mkfsSb 0 2 editing ∧
    (Src.kernel (List.replicate 30720 0)).Gives (List.replicate 30720 0) ∧
    (Kern.writei 0 (.kernel (List.replicate 30720 0)) 0 (List.replicate 30720 (0 : UInt8)).length).exec (Fs.run 0)
      editing = .fail .tooBigTransaction := by
  refine ⟨editing_editing, kernel_gives _, ?_⟩
  rw [List.length_replicate]
  have hrun : (match (Kern.writei 0 (.kernel (List.replicate 30720 0)) 0 30720).exec (Fs.run 0) editing with
      | .fail e => decide (e = .tooBigTransaction)
      | _ => false) = true := by
    decide +kernel
  split at hrun
  · rename_i e he
    rw [he, of_decide_eq_true hrun]
  · cases hrun

end Xv6
