import Xv6.Proofs.FileContent

namespace Xv6
variable {p : ProcId} {sb : Superblock} {ino : Nat → Dinode} {fs : Fs} {ip : InodePtr} {i c off : Nat} {fd : Fd} {f : FilePtr}
  {out : List UInt8}

/- Writes from the start of a file on. -/

/-- Descriptor `fd` of the process is file `f`, open for writing at offset `off` of in-memory inode `ip`. -/
structure Output (p : ProcId) (fd : Fd) (f : FilePtr) (ip : InodePtr) (off : Nat) (m : Mem) : Prop where
  ofile : (m.proc p).bind (fun pr => pr.ofile fd) = some f
  type : (m.file f).type = .inode
  inode : (m.file f).ip = ip
  writable : (m.file f).writable = true
  off : (m.file f).off = off
  valid : (m.inode ip).valid = true

/-- The file, which had `c` bytes, now begins with `out`. -/
def Sent (sb : Superblock) (ip : InodePtr) (i c : Nat) (out : List UInt8) (fs : Fs) : Prop :=
  ∃ ino, Seated sb ino ip i fs ∧ (ino i).size = max c out.length ∧ Holds ino i out.length (fun o => out.getD o 0) fs.st

theorem Sent.same {st : Store} (h : Sent sb ip i c out fs) (hs : fs.st.Same st) : Sent sb ip i c out { fs with st := st } := by
  obtain ⟨ino, hseat, hsize, hh⟩ := h
  refine ⟨ino, ⟨hseat.super, hseat.inum, hseat.copy, hseat.live, hseat.disk.same hs⟩, hsize, ?_⟩
  have hcur : st.cur = fs.st.cur := hs.cur
  have hlog : st.logged = fs.st.logged := hs.logged
  refine ⟨?_, ?_, ?_⟩
  · rw [show ({ fs with st := st } : Fs).st.cur = fs.st.cur from hcur]
    exact hh.filled
  · rw [show ({ fs with st := st } : Fs).st.cur = fs.st.cur from hcur, show ({ fs with st := st } : Fs).st.logged = fs.st.logged from hlog]
    exact hh.clean
  · rw [show ({ fs with st := st } : Fs).st.cur = fs.st.cur from hcur]
    exact hh.bytes

/-- A change of kernel memory outside the inode and the superblock. -/
theorem Sent.setMem {m : Mem} (h : Sent sb ip i c out fs) (hsb : m.sb = fs.mem.sb) (hinum : (m.inode ip).inum = (fs.mem.inode ip).inum)
    (hcopy : (m.inode ip).copy = (fs.mem.inode ip).copy) : Sent sb ip i c out { fs with mem := m } := by
  obtain ⟨ino, hseat, hsize, hh⟩ := h
  exact ⟨ino, ⟨hsb.trans hseat.super, hinum.trans hseat.inum, hcopy.trans hseat.copy, hseat.live, hseat.disk⟩, hsize, hh⟩

/-- The lock of the inode does not matter. -/
theorem Sent.setLock (h : Sent sb ip i c out fs) (x : Option ProcId) :
    Sent sb ip i c out { fs with mem := fs.mem.setInode ip (fun i => { i with lock := x }) } := by
  refine h.setMem rfl ?_ ?_
  · rw [setInode_same]
  · rw [setInode_same]

theorem Output.setLock {m : Mem} (h : Output p fd f ip off m) (x : Option ProcId) :
    Output p fd f ip off (m.setInode ip (fun i => { i with lock := x })) := by
  refine ⟨h.ofile, h.type, h.inode, h.writable, h.off, ?_⟩
  rw [setInode_same]
  exact h.valid

theorem Output.advance {m : Mem} (h : Output p fd f ip off m) (off' : Nat) :
    Output p fd f ip off' (m.setFile f (fun f => { f with off := off' })) := by
  have hfile : (m.setFile f (fun f => { f with off := off' })).file f = { m.file f with off := off' } := setAt_same _ _ _
  refine ⟨h.ofile, ?_, ?_, ?_, ?_, h.valid⟩
  · rw [hfile]
    exact h.type
  · rw [hfile]
    exact h.inode
  · rw [hfile]
    exact h.writable
  · rw [hfile]

/-- ilock() of an inode that has been read. -/
theorem ensures_ilock_valid {Q : Unit → Fs → Prop} (hv : (fs.mem.inode ip).valid = true)
    (h : Q () { fs with mem := fs.mem.setInode ip (fun i => { i with lock := some p }) }) :
    (Kern.ilock ip).Ensures (Fs.run p) (fun _ => True) Q fs := by
  unfold Kern.ilock Kern.inodeOf
  rw [Free.ensures_bind, ensures_get]
  refine ensures_ite (fun _ => trivial) fun _ => ?_
  unfold Kern.acquiresleep
  rw [Free.ensures_bind, ensures_mem]
  split
  · rw [Out.sat_ok, Free.ensures_bind, ensures_get]
    refine ensures_when (fun hf => ?_) fun _ => h
    rw [setInode_same] at hf
    exact absurd (hv.symm.trans hf) (by decide)
  · trivial

theorem ensures_iunlock {Q : Unit → Fs → Prop} (h : Q () { fs with mem := fs.mem.setInode ip (fun i => { i with lock := none }) }) :
    (Kern.iunlock ip).Ensures (Fs.run p) (fun _ => True) Q fs := by
  unfold Kern.iunlock
  rw [ensures_mem]
  split
  · trivial
  · exact h

theorem Output.setCopy {m : Mem} (h : Output p fd f ip off m) (d : Dinode) :
    Output p fd f ip off (m.setInode ip (fun x => { x with copy := d })) := by
  refine ⟨h.ofile, h.type, h.inode, h.writable, h.off, ?_⟩
  rw [setInode_same]
  exact h.valid

theorem spliceAt_end (x y : List UInt8) : spliceAt (fun o => x.getD o 0) x.length y = fun o => (x ++ y).getD o 0 := by
  funext o
  rw [spliceAt]
  by_cases hlt : o < x.length
  · simp [List.getElem?_append, hlt, Nat.not_le.mpr hlt]
  · split
    · simp [List.getElem?_append, hlt]
    · have hy : y[o - x.length]? = none := List.getElem?_eq_none (by omega)
      simp [List.getElem?_append, Nat.not_lt.mp hlt, hlt, hy]

/-- writei() at the end of what was sent. -/
theorem Sent.extend {ino' : Nat → Dinode} {g : Nat → UInt8} {data : List UInt8} {fs' : Fs} {k : Nat} (hsize : (ino i).size = max c out.length)
    (hg : g = fun o => out.getD o 0) (hk : k = data.length) (h : Extended sb ip i out.length out.length g data ino fs k ino' fs') : Sent sb ip i c (out ++ data) fs' := by
  subst hk
  have hfield : (ino' i).size = max (ino i).size (out.length + data.length) := by rw [h.fields]
  have hh := h.holds
  rw [hg, List.take_length, spliceAt_end, Nat.max_eq_right (Nat.le_add_right _ _), ← List.length_append] at hh
  refine ⟨ino', h.seated, ?_, hh⟩
  rw [hfield, hsize, List.length_append]
  omega

theorem Src.Gives.part {um : UserMem} {addr : Nat} {data : List UInt8} (h : (Src.user um addr).Gives data) {k m : Nat} (hk : k + m ≤ data.length) :
    (Src.user um ((addr + k) % 2 ^ 64)).Gives ((data.drop k).take m) := by
  intro tot n hn
  have hlen : ((data.drop k).take m).length = m := by
    rw [List.length_take, List.length_drop]
    omega
  have hcopy := h (k + tot) n (by omega)
  have haddr : (((addr + k) % 2 ^ 64 + tot) % 2 ^ 64) = (addr + (k + tot)) % 2 ^ 64 := by omega
  simp only [Src.copyin] at hcopy ⊢
  rw [haddr, hcopy, List.drop_take, List.drop_drop, List.take_take, Nat.min_eq_left (by omega)]

/-- The loop of filewrite() puts the bytes behind those sent before, if it comes to its end. -/
theorem filewriteLoop_sends (hsb : sb.Ok) {um : UserMem} {addr : Nat} {data : List UInt8} (hsrc : (Src.user um addr).Gives data)
    (hmax : out.length + data.length ≤ MAXFILE * BSIZE) (fuel : Nat) {k : Nat} (hk : k ≤ data.length)
    (ho : Output p fd f ip (out.length + k) fs.mem) (hs : Sent sb ip i c (out ++ data.take k) fs) :
    (Kern.filewriteLoop f ip um addr data.length fuel k).Ensures (Fs.run p) (fun _ => True) (fun j fs' => j = data.length →
      Output p fd f ip (out.length + data.length) fs'.mem ∧ Sent sb ip i c (out ++ data) fs') fs := by
  have hbig := MAXFILE_BSIZE
  induction fuel generalizing k fs with
  | zero =>
    intro hj
    obtain rfl : k = data.length := by omega
    rw [List.take_length] at hs
    exact ⟨ho, hs⟩
  | succ fuel ih =>
    unfold Kern.filewriteLoop
    refine ensures_ite (fun hlt => ?_) fun hge hj => ?_
    · dsimp only
      obtain ⟨m, hm, hpos, hle⟩ : ∃ m : Nat, (if (data.length : Int) - k > Kern.maxWrite then Kern.maxWrite else (data.length : Int) - k) = m ∧ 0 < m ∧
          k + m ≤ data.length := by
        have hmw : Kern.maxWrite = 3072 := rfl
        rw [hmw]
        split
        · exact ⟨3072, rfl, by omega, by omega⟩
        · exact ⟨data.length - k, by omega, by omega, by omega⟩
      rw [hm]
      have hlen : ((data.drop k).take m).length = m := by
        rw [List.length_take, List.length_drop]
        omega
      have hout : (out ++ data.take k).length = out.length + k := by
        rw [List.length_append, List.length_take, Nat.min_eq_left hk]
      have huint : toUint (m : Int) = ((data.drop k).take m).length := by
        rw [hlen, toUint]
        omega
      rw [Free.ensures_bind]
      refine ensures_beginOp fun st₀ hs₀ => ?_
      rw [Free.ensures_bind]
      refine ensures_ilock_valid ho.valid ?_
      have ho₁ := ho.setLock (some p)
      obtain ⟨ino, hseat, hsize, hh⟩ := (hs.same hs₀).setLock (some p)
      unfold Kern.fileOf
      rw [Free.ensures_bind, ensures_get, show (fs.mem.setInode ip fun i => { i with lock := some p }).file f = fs.mem.file f from rfl, ho.off,
        Int.toNat_natCast, huint, ← hout]
      refine Free.Ensures.seq (writei_extends (fun _ _ _ _ _ => trivial) hsb hseat hh (by omega) (Nat.le_refl _) (hsrc.part hle) (by omega)) ?_
      rintro r fs₂ ⟨ino', n, rfl, hn, hext⟩
      rw [hlen] at hn
      have ho₂ : Output p fd f ip (out.length + k) fs₂.mem := by
        rw [hext.mem]
        exact ho₁.setCopy _
      -- a turn that writes less than it should ends the loop before the end of the data
      have hend : ∀ fs₃, Output p fd f ip (out.length + k + n) fs₃.mem → (n = m → Sent sb ip i c (out ++ data.take (k + m)) fs₃) →
          (do
            Kern.iunlock ip
            Kern.endOp
            if (n : Int) ≠ m then return (k : Int)
            else Kern.filewriteLoop f ip um addr data.length fuel (k + n) : KernM Int).Ensures (Fs.run p) (fun _ => True) (fun j fs' =>
              j = data.length → Output p fd f ip (out.length + data.length) fs'.mem ∧ Sent sb ip i c (out ++ data) fs') fs₃ := by
        intro fs₃ ho₃ hs₃
        rw [Free.ensures_bind]
        refine ensures_iunlock ?_
        rw [Free.ensures_bind]
        refine ensures_endOp fun st₄ hs₄ => ensures_ite (fun _ hj => ?_) fun heq => ?_
        · omega
        · obtain rfl : n = m := by omega
          rw [Nat.add_assoc] at ho₃
          exact ih hle (ho₃.setLock none) (((hs₃ rfl).setLock none).same hs₄)
      have hsent : n = m → Sent sb ip i c (out ++ data.take (k + m)) fs₂ := by
        rintro rfl
        rw [List.take_add, ← List.append_assoc]
        exact Sent.extend hsize rfl hlen.symm hext
      rw [Free.ensures_bind]
      refine ensures_when (fun _ => ?_) fun hz => ?_
      · unfold Kern.setFile
        rw [ensures_update]
        have hoff : ((fs₂.mem.file f).off + toUint (n : Int)) % 2 ^ 32 = out.length + k + n := by
          rw [ho₂.off, toUint]
          omega
        have hset : fs₂.mem.setFile f (fun f => { f with off := (f.off + toUint (n : Int)) % 2 ^ 32 }) =
            fs₂.mem.setFile f (fun f => { f with off := out.length + k + n }) := by
          rw [Mem.setFile, Mem.setFile, hoff]
        rw [hset]
        exact hend _ (ho₂.advance _) fun h => (hsent h).setMem rfl rfl rfl
      · obtain rfl : n = 0 := by omega
        exact hend fs₂ ho₂ hsent
    · obtain rfl : k = data.length := by omega
      rw [List.take_length] at hs
      exact ⟨ho, hs⟩

theorem sysWrite_sends (hsb : sb.Ok) {um : UserMem} {addr : Nat} {data : List UInt8} (hsrc : (Src.user um addr).Gives data)
    (hmax : out.length + data.length ≤ MAXFILE * BSIZE) (ho : Output p fd f ip out.length fs.mem) (hs : Sent sb ip i c out fs) :
    (Kern.sysWrite fd.val um addr data.length 0).Ensures (Fs.run p) (fun _ => True) (fun r fs' => r = data.length →
      Output p fd f ip (out ++ data).length fs'.mem ∧ Sent sb ip i c (out ++ data) fs') fs := by
  have hfd : 0 ≤ (fd.val : Int) ∧ (fd.val : Int).toNat < NOFILE := ⟨by omega, by simp⟩
  unfold Kern.sysWrite Kern.argfd
  rw [Free.ensures_bind, ensures_mem, dif_pos hfd, Out.sat_ok]
  simp only [Int.toNat_natCast, Fin.eta, ho.ofile, Option.map_some]
  unfold Kern.filewrite Kern.fileOf
  rw [Free.ensures_bind, ensures_get, ho.writable, ho.type, ho.inode, if_neg (by decide)]
  dsimp only
  have hloop := filewriteLoop_sends hsb hsrc hmax data.length (Nat.zero_le _) ho (by simpa using hs)
  rw [List.length_append, Int.toNat_natCast]
  refine Free.Ensures.seq hloop fun j fs' hj hr => hj ?_
  by_cases hjn : j = data.length
  · exact hjn
  · rw [if_neg hjn] at hr
    omega

/-- A call of write(): where its bytes are, and which they are. -/
structure Write where
  um : UserMem
  addr : Nat
  data : List UInt8

/-- The writes of a program to a descriptor; the answer is whether each has returned its count. -/
def Kern.writeAll (fd : Int) : List Write → KernM Bool
  | [] => return true
  | w :: ws => do
    let r ← sysWrite fd w.um w.addr w.data.length 0
    if r = w.data.length then writeAll fd ws else return false

theorem writeAll_sends (hsb : sb.Ok) {ws : List Write} (hsrc : ∀ w ∈ ws, (Src.user w.um w.addr).Gives w.data)
    (hmax : out.length + (ws.flatMap Write.data).length ≤ MAXFILE * BSIZE) (ho : Output p fd f ip out.length fs.mem)
    (hs : Sent sb ip i c out fs) :
    (Kern.writeAll fd.val ws).Ensures (Fs.run p) (fun _ => True) (fun r fs' => r = true → Sent sb ip i c (out ++ ws.flatMap Write.data) fs') fs := by
  induction ws generalizing out fs with
  | nil =>
    intro _
    simpa using hs
  | cons w ws ih =>
    rw [List.flatMap_cons, List.length_append] at hmax
    unfold Kern.writeAll
    refine Free.Ensures.seq (sysWrite_sends hsb (hsrc w List.mem_cons_self) (by omega) ho hs) fun r fs' hr => ?_
    refine ensures_ite (fun hall => ?_) fun _ h => absurd h (by decide)
    obtain ⟨ho', hs'⟩ := hr hall
    rw [List.flatMap_cons, ← List.append_assoc]
    exact ih (fun x hx => hsrc x (List.mem_cons_of_mem w hx)) (by rw [List.length_append]; omega) ho' hs'

theorem Sent.bytes (h : Sent sb ip i c out fs) : (fs.bytes i).length = max c out.length ∧ (fs.bytes i).take out.length = out := by
  obtain ⟨ino, hseat, hsize, hh⟩ := h
  have hlt := (hseat.disk.range i hseat.live).2
  have hbytes : fs.bytes i = (List.range (ino i).size).map ((ino i).byte fs.st.cur) := by
    rw [Fs.bytes, hseat.super, dinodes, if_pos hlt, hseat.disk.disk i hlt (by simp), Dinode.bytes, if_neg hseat.live]
  rw [hbytes]
  refine ⟨by simp [hsize], List.ext_getElem (by simp [hsize]) fun o h₁ h₂ => ?_⟩
  simp [hh.bytes o h₂, h₂]

end Xv6
