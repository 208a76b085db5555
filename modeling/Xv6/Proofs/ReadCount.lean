import Xv6.Proofs.FileContent
import Xv6.Proofs.PipeRead
import Xv6.Proofs.Reading

namespace Xv6

namespace UserSpace
variable {us us' : UserSpace}

/-- The same pages are mapped, with the same flags. -/
def SameMap (us us' : UserSpace) : Prop :=
  ∀ pg, (us pg).map (fun u => (u.user, u.writable)) = (us' pg).map (fun u => (u.user, u.writable))

theorem SameMap.refl (us : UserSpace) : us.SameMap us := fun _ => rfl

theorem SameMap.accepts (h : us.SameMap us') (va : Nat) : us.accepts va = us'.accepts va := by
  have hpg := h (va / PGSIZE)
  unfold UserSpace.accepts mayWrite
  cases hu : us (va / PGSIZE) <;> cases hu' : us' (va / PGSIZE) <;> simp_all

theorem SameMap.stored (h : us.SameMap us') (va len : Nat) : us.stored va len = us'.stored va len := by
  induction len generalizing va with
  | zero => rfl
  | succ len ih => simp only [UserSpace.stored, h.accepts, ih]

theorem SameMap.putBytes (h : us.SameMap us') (va : Nat) (bs : List UInt8) : (us.putBytes va bs).SameMap us' := by
  intro pg
  rw [← h pg]
  unfold UserSpace.putBytes
  cases us pg <;> rfl

end UserSpace

namespace UserCalls
variable {p : ProcId} {w : World} {a : Nat} {α β : Type}

def World.withUser (w : World) (us : UserSpace) : World := { w with user := us }

def World.withFs (w : World) (fs : Fs) : World := { w with kernel := { w.kernel with fs := fs } }

@[simp] theorem World.withFs_fs (fs : Fs) : (w.withFs fs).kernel.fs = fs := rfl
@[simp] theorem World.withFs_user (fs : Fs) : (w.withFs fs).user = w.user := rfl
@[simp] theorem World.withFs_withFs (fs fs' : Fs) : (w.withFs fs).withFs fs' = w.withFs fs' := rfl

/-- Code that takes no notice of the caller's memory and does not panic. -/
structure Quiet (m : CallM α) : Prop where
  deaf : ∀ w us, m (w.withUser us) = (m w).view (fun v => v.withUser us)
  calm : ∀ w e, m w ≠ .fail e

theorem Quiet.pure (b : α) : Quiet (pure b) := ⟨fun _ _ => rfl, nofun⟩

theorem Quiet.bind {m : CallM α} {f : α → CallM β} (hm : Quiet m) (hf : ∀ b, Quiet (f b)) : Quiet (m >>= f) where
  deaf w us := by
    rw [run_bind, run_bind, hm.deaf w us]
    cases m w with
    | ok b v => exact (hf b).deaf v us
    | wait => rfl
    | fail e => rfl
  calm w e := by
    rw [run_bind]
    cases hw : m w with
    | ok b v => exact (hf b).calm v e
    | wait => exact nofun
    | fail e => exact absurd hw (hm.calm w e)

theorem Quiet.ite {c : Prop} [Decidable c] {m m' : CallM α} (h : Quiet m) (h' : Quiet m') :
    Quiet (if c then m else m') := by
  split
  · exact h
  · exact h'

theorem quiet_get (f : Kernel → α) : Quiet (get f) := ⟨fun _ _ => rfl, nofun⟩

theorem quiet_sleep : Quiet sleep where
  deaf w us := by
    unfold sleep World.withUser
    cases w.others <;> rfl
  calm w e := by
    unfold sleep
    cases w.others <;> exact nofun

theorem Quiet.sleepLoop {round : CallM (Option α)} (h : Quiet round) (fuel : Nat) : Quiet (sleepLoop round fuel) := by
  induction fuel with
  | zero => exact ⟨fun _ _ => rfl, nofun⟩
  | succ fuel ih =>
    refine h.bind fun b => ?_
    cases b with
    | some b => exact .pure b
    | none => exact quiet_sleep.bind fun _ => ih

theorem Quiet.untilSome {round : CallM (Option α)} (h : Quiet round) : Quiet (untilSome round) where
  deaf w us := (h.sleepLoop (w.others.length + 1)).deaf w us
  calm w e := (h.sleepLoop (w.others.length + 1)).calm w e

/-- The wait of piperead() and consoleread(). -/
theorem quiet_ready (empty : Kernel → Bool) : Quiet (untilSome do
    if ← get empty then
      if ← get (fun k => (k.row p).killed) then return some false else return none
    else return some true) :=
  .untilSome <| (quiet_get _).bind fun _ => .ite ((quiet_get _).bind fun _ => .ite (.pure _) (.pure _)) (.pure _)

/-- Whatever the caller's memory holds, the run waits, if `c` allows that, or it stores the same bytes at `a` and ends in
the same way, as `Q` says. -/
def Copies (c : Prop) (m : CallM α) (w : World) (a : Nat) (Q : α → List UInt8 → World → Prop) : Prop :=
  (c ∧ ∀ us : UserSpace, us.SameMap w.user → m (w.withUser us) = .wait) ∨
  ∃ r bs w', Q r bs w' ∧
    ∀ us : UserSpace, us.SameMap w.user → m (w.withUser us) = .ok r (w'.withUser (us.putBytes a bs))

namespace Copies
variable {c : Prop} {Q : β → List UInt8 → World → Prop} {f : α → CallM β}

theorem pure {b : β} (h : Q b [] w) : Copies c (pure b) w a Q :=
  .inr ⟨b, [], w, h, fun us _ => by rw [UserSpace.putBytes_nil]; rfl⟩

theorem of_quiet {m : CallM α} (hm : Quiet m) (h : ∀ b w₁, w₁.user = w.user → Copies True (f b) w₁ a Q) :
    Copies True (m >>= f) w a Q := by
  cases hw : m w with
  | ok b w₁ =>
    have hself := hm.deaf w w.user
    have huser : w₁.user = w.user := by
      rw [show w.withUser w.user = w from rfl, hw] at hself
      injection hself with _ hw₁
      rw [hw₁]
      rfl
    have hrun : ∀ us, m (w.withUser us) = .ok b (w₁.withUser us) := fun us => by
      rw [hm.deaf w us, hw]
      rfl
    have hf := h b w₁ huser
    simp only [Copies, run_bind, hrun, huser] at hf ⊢
    exact hf
  | wait =>
    refine .inl ⟨trivial, fun us _ => ?_⟩
    rw [run_bind, hm.deaf w us, hw]
    rfl
  | fail e => exact absurd hw (hm.calm w e)

/-- A step of the kernel. -/
theorem step {m : CallM α} {b : α} {k : Kernel} (hm : ∀ us, m (w.withUser us) = .ok b { w.withUser us with kernel := k })
    (h : Copies c (f b) { w with kernel := k } a Q) : Copies c (m >>= f) w a Q := by
  simp only [Copies, run_bind, hm] at h ⊢
  exact h

theorem get {g : Kernel → α} (h : Copies c (f (g w.kernel)) w a Q) : Copies c (UserCalls.get g >>= f) w a Q :=
  step (fun _ => rfl) h

theorem update {g : Kernel → Kernel} {f : Unit → CallM β} (h : Copies c (f ()) { w with kernel := g w.kernel } a Q) :
    Copies c (UserCalls.update g >>= f) w a Q :=
  step (fun _ => rfl) h

theorem onFs {m : KernM α} {b : α} {fs : Fs} (he : m.exec (Fs.run p) w.kernel.fs = .ok b fs)
    (h : Copies c (f b) (w.withFs fs) a Q) : Copies c (onFs p m >>= f) w a Q :=
  step (fun us => by simp only [UserCalls.onFs, World.withUser, he]) h

theorem look {g : Mem → α} (h : Copies c (f (g w.kernel.fs.mem)) w a Q) : Copies c (UserCalls.onFs p (Kern.get g) >>= f) w a Q :=
  step (fun _ => rfl) h

/-- A copy that goes on where the bytes before have ended. -/
theorem copyout {va : Nat} {src : List UInt8} {f : Bool → CallM β} (hva : va % 2 ^ 64 = a)
    (h : Copies c (f (decide (w.user.stored a src.length = src.length))) w (a + w.user.stored a src.length)
      (fun r bs w' => Q r (src.take (w.user.stored a src.length) ++ bs) w')) :
    Copies c (UserCalls.copyout va src >>= f) w a Q := by
  have hlen : (src.take (w.user.stored a src.length)).length = w.user.stored a src.length :=
    List.length_take_of_le (UserSpace.stored_le _)
  have hrun : ∀ us : UserSpace, us.SameMap w.user → (UserCalls.copyout va src >>= f) (w.withUser us) =
      f (decide (w.user.stored a src.length = src.length))
        (w.withUser (us.putBytes a (src.take (w.user.stored a src.length)))) := fun us hs => by
    rw [run_bind, run_copyout, hva]
    simp only [World.withUser, World.put, hs.stored]
  rcases h with ⟨hc, h⟩ | ⟨r, bs, w', hq, h⟩
  · exact .inl ⟨hc, fun us hs => (hrun us hs).trans (h _ (hs.putBytes _ _))⟩
  · refine .inr ⟨r, _, w', hq, fun us hs => ?_⟩
    rw [hrun us hs, h _ (hs.putBytes _ _), UserSpace.putBytes_append, hlen]

theorem bind {m : CallM α} {R : α → List UInt8 → World → Prop} (hm : Copies c m w a R)
    (hf : ∀ r bs w', R r bs w' → Copies c (f r) (w'.withUser w.user) (a + bs.length)
      (fun r' bs' w'' => Q r' (bs ++ bs') w'')) : Copies c (m >>= f) w a Q := by
  rcases hm with ⟨hc, hm⟩ | ⟨r, bs, w₁, hr, hm⟩
  · refine .inl ⟨hc, fun us hs => ?_⟩
    rw [run_bind, hm us hs]
  · have hrun : ∀ us : UserSpace, us.SameMap w.user → (m >>= f) (w.withUser us) =
        f r ((w₁.withUser w.user).withUser (us.putBytes a bs)) := fun us hs => by
      rw [run_bind, hm us hs]
      rfl
    rcases hf r bs w₁ hr with ⟨hc, hf⟩ | ⟨r', bs', w', hq, hf⟩
    · exact .inl ⟨hc, fun us hs => (hrun us hs).trans (hf _ (hs.putBytes _ _))⟩
    · refine .inr ⟨r', bs ++ bs', w', hq, fun us hs => ?_⟩
      rw [hrun us hs, hf _ (hs.putBytes _ _), UserSpace.putBytes_append]

theorem mono {m : CallM β} {R : β → List UInt8 → World → Prop} (h : Copies c m w a Q)
    (hqr : ∀ r bs w', Q r bs w' → R r bs w') : Copies c m w a R := by
  rcases h with h | ⟨r, bs, w', hq, h⟩
  · exact .inl h
  · exact .inr ⟨r, bs, w', hqr _ _ _ hq, h⟩

theorem byte {va : Nat} {ch : UInt8} {f : Bool → CallM β} (hva : va % 2 ^ 64 = a)
    (ht : w.user.accepts a = true → Copies c (f true) w (a + 1) (fun r bs w' => Q r (ch :: bs) w'))
    (hf : Copies c (f false) w a Q) : Copies c (UserCalls.copyout va [ch] >>= f) w a Q := by
  apply copyout hva
  rw [List.length_singleton, stored_one]
  cases hacc : w.user.accepts a with
  | true => exact ht hacc
  | false => exact hf

end Copies

/- The reads that may sleep. -/

theorem copies_pipeCopy (pi addr fuel i : Nat) (w : World) : Copies True (pipeCopy pi addr fuel i) w ((addr + i) % 2 ^ 64)
    (fun r bs _ => bs.length ≤ fuel ∧ r ≤ i + fuel) := by
  induction fuel generalizing i w with
  | zero => exact .pure ⟨Nat.le_refl 0, by omega⟩
  | succ fuel ih =>
    refine .get ?_
    split
    · exact .pure ⟨Nat.zero_le _, by omega⟩
    · refine .get (.byte rfl (fun hacc => ?_) ?_)
      · refine .update ?_
        have hnext := wrap_succ hacc
        rw [← hnext, Nat.add_assoc]
        refine (ih (i + 1) _).mono fun r bs _ hb => ?_
        rw [List.length_cons]
        omega
      · exact .update (.pure ⟨Nat.zero_le _, by omega⟩)

theorem copies_piperead (pi addr : Nat) (n : Int) (w : World) : Copies True (piperead p pi addr n) w (addr % 2 ^ 64)
    (fun r bs _ => bs.length ≤ n.toNat ∧ r ≤ n.toNat) := by
  refine .of_quiet (quiet_ready _) fun b w₁ _ => ?_
  cases b with
  | false => exact .pure ⟨Nat.zero_le _, by omega⟩
  | true =>
    refine (copies_pipeCopy pi addr n.toNat 0 w₁).mono fun r bs _ hb => ?_
    omega

theorem copies_consoleLoop (dst : Nat) (n : Int) (fuel : Nat) (bytes : List UInt8) (w : World) :
    Copies True (consoleLoop p dst n fuel bytes) w ((dst + bytes.length) % 2 ^ 64)
      (fun r bs _ => bs.length ≤ fuel ∧ r ≤ bytes.length + fuel) := by
  induction fuel generalizing bytes w with
  | zero => exact .pure ⟨Nat.le_refl 0, by omega⟩
  | succ fuel ih =>
    refine .of_quiet (quiet_ready _) fun b w₁ _ => ?_
    cases b with
    | false => exact .pure ⟨Nat.zero_le _, by omega⟩
    | true =>
      refine .get ?_
      split
      · exact .update (.pure ⟨Nat.zero_le _, by omega⟩)
      · refine .byte rfl (fun hacc => ?_) ?_
        · refine .update ?_
          rw [if_neg (by decide)]
          split
          · exact .pure ⟨by simp, by omega⟩
          · have hnext := wrap_succ hacc
            rw [← hnext, Nat.add_assoc]
            have ih := ih (bytes ++ [w₁.kernel.cons.buf (w₁.kernel.cons.r.toNat % Console.INPUT_BUF_SIZE)])
            rw [List.length_append] at ih
            refine (ih _).mono fun r bs _ hb => ?_
            rw [List.length_cons]
            rw [List.length_singleton] at hb
            omega
        · exact .update (.pure ⟨Nat.zero_le _, by omega⟩)

theorem copies_consoleread (dst : Nat) (n : Int) (w : World) : Copies True (consoleread p dst n) w (dst % 2 ^ 64)
    (fun r bs _ => bs.length ≤ n.toNat ∧ r ≤ n.toNat) :=
  (copies_consoleLoop dst n n.toNat [] w).mono fun r bs _ hb => by
    rw [List.length_nil] at hb
    omega

/- The read of a file. -/

section
variable {sb : Superblock} {ino : Nat → Dinode} {ip : InodePtr} {i : Nat} {fs : Fs}

/-- The steps by which readi() gets at the block of `off`. -/
theorem fetch (h : Loaded sb ino ip i fs) (hheld : fs.st.held = []) (off : Nat) (ho : off < (ino i).size) :
    ∃ b fs₁ fs₂ fs₃, (Kern.bmap ip (off / BSIZE)).exec (Fs.run p) fs = .ok b fs₁ ∧ b ≠ 0 ∧
      (Kern.bread b).exec (Fs.run p) fs₁ = .ok b fs₂ ∧ (Kern.bdata b).exec (Fs.run p) fs₂ = .ok (fs₂.st.cur b) fs₂ ∧
      (Kern.brelse b).exec (Fs.run p) fs₂ = .ok () fs₃ ∧
      Loaded sb ino ip i fs₃ ∧ fs₃.st.held = [] ∧ fs₃.mem = fs.mem := by
  obtain ⟨hne, hclean⟩ := h.clean_at off ho
  obtain ⟨b, ⟨m₁, st₁⟩, hbmap, rfl, rfl, hs₁⟩ :=
    (Kern.completes_bmap_there (w := False) (p := p) h.backed hheld hne).ensures nofun (h.backed.bmap_there hne)
  generalize hbdef : (ino i).block fs.st.cur (off / BSIZE) = b at *
  have hheld₁ : st₁.held = [] := (congrArg Prod.fst ((Kern.even_bmap ip _).debt hbmap)).trans hheld
  have hbread : (Kern.bread b).exec (Fs.run p) ⟨fs.mem, st₁⟩ = .ok b ⟨fs.mem, { st₁ with
      cur := st₁.refill b, held := [b], evict := st₁.evict.tail }⟩ := by
    simp [Kern.bread, Free.exec_bind, Free.exec_call, Fs.run, Store.bread, hheld₁, Fs.after, Free.exec_pure]
  have hclean₁ : st₁.cur b = st₁.logged b := by
    rw [hs₁.cur, hs₁.logged]
    exact hclean
  generalize hst₂ : ({ st₁ with cur := st₁.refill b, held := [b], evict := st₁.evict.tail } : Store) = st₂ at hbread
  have hs₂ : st₁.Same st₂ := by
    rw [← hst₂]
    exact ⟨Store.refill_calm hclean₁, rfl⟩
  have hs₃ : st₂.Same (st₂.brelse b) := Store.brelse_same (by rw [hs₂.cur, hs₂.logged]; exact hclean₁)
  refine ⟨b, _, _, ⟨fs.mem, st₂.brelse b⟩, hbmap, hne, hbread, rfl, rfl, Loaded.same h ((hs₁.trans hs₂).trans hs₃), ?_, rfl⟩
  simp [Store.brelse, ← hst₂]

theorem wrap_of_stored {us : UserSpace} {x m : Nat} (hm : 0 < m) (h : us.stored (x % 2 ^ 64) m = m) :
    x % 2 ^ 64 + m = (x + m) % 2 ^ 64 := by
  have hlast : us.accepts (x % 2 ^ 64 + (m - 1)) = true := UserSpace.accepts_of_stored (by rw [h]; omega)
  have hlast := UserSpace.lt_maxva_of_accepts hlast
  rw [MAXVA] at hlast
  omega

/-- What the loop of readi() does with `n` bytes to be read to where `first` says whether the first can be stored. -/
structure LoopReads (n tot : Nat) (first : Bool) (r : Int) (bs : List UInt8) : Prop where
  len : bs.length ≤ n - tot
  answer : r = n ∨ r = -1
  stops : first = false → tot < n → r = -1
  starts : tot < n → (bs = [] ↔ first = false)

theorem copies_readiLoop {dst n fuel tot off : Nat} (h : Loaded sb ino ip i w.kernel.fs)
    (hheld : w.kernel.fs.st.held = []) (htot : tot ≤ n) (hfuel : n - tot ≤ fuel) (hle : off + (n - tot) ≤ (ino i).size) :
    Copies False (readiLoop p ip dst n fuel tot off) w ((dst + tot) % 2 ^ 64) (fun r bs w' =>
      w'.kernel.fs.mem = w.kernel.fs.mem ∧ LoopReads n tot (w.user.accepts ((dst + tot) % 2 ^ 64)) r bs) := by
  induction fuel generalizing w tot off with
  | zero =>
    obtain rfl : tot = n := by omega
    exact .pure ⟨rfl, Nat.zero_le _, .inl rfl, by omega, by omega⟩
  | succ fuel ih =>
    unfold readiLoop
    split
    · obtain ⟨b, fs₁, fs₂, fs₃, hbmap, hb, hbread, hbdata, hbrelse, hl, hheld₃, hmem⟩ := fetch (p := p) h hheld off (by omega)
      refine .onFs hbmap ?_
      rw [if_neg hb]
      refine .onFs hbread (.onFs hbdata ?_)
      generalize hm : min (n - tot) (BSIZE - off % BSIZE) = m
      have hmod : off % BSIZE < BSIZE := Nat.mod_lt _ (by decide)
      refine .copyout rfl (.onFs hbrelse ?_)
      simp only [World.withFs_user, World.withFs_withFs, ByteArr.length_get]
      have hfirst : w.user.stored ((dst + tot) % 2 ^ 64) m = 0 ↔ w.user.accepts ((dst + tot) % 2 ^ 64) = false := by
        obtain ⟨l, rfl⟩ : ∃ l, m = l + 1 := ⟨m - 1, by omega⟩
        rw [UserSpace.stored]
        cases w.user.accepts ((dst + tot) % 2 ^ 64) <;> simp
      have hk := @UserSpace.stored_le w.user ((dst + tot) % 2 ^ 64) m
      by_cases hall : w.user.stored ((dst + tot) % 2 ^ 64) m = m
      · rw [if_pos (decide_eq_true hall), hall, wrap_of_stored (by omega) hall, Nat.add_assoc]
        refine (ih hl hheld₃ (by omega) (by omega) (by omega)).mono fun r bs w' hw' => ?_
        obtain ⟨hm', hr⟩ := hw'
        have hlen := hr.len
        refine ⟨hm'.trans hmem, ?_, hr.answer, fun hf => absurd (hfirst.mpr hf) (by omega), fun _ => ?_⟩
        · rw [List.length_append, List.length_take, ByteArr.length_get]
          omega
        · rw [← hfirst, hall, List.append_eq_nil_iff, List.take_eq_nil_iff, ← List.length_eq_zero_iff, ByteArr.length_get]
          omega
      · rw [if_neg (by simpa using hall)]
        refine .pure ⟨hmem, ?_, .inr rfl, fun _ _ => rfl, fun _ => ?_⟩
        · rw [List.append_nil, List.length_take, ByteArr.length_get]
          omega
        · rw [← hfirst, List.append_nil, List.take_eq_nil_iff, ← List.length_eq_zero_iff, ByteArr.length_get]
          omega
    · obtain rfl : tot = n := by omega
      exact .pure ⟨rfl, Nat.zero_le _, .inl rfl, by omega, by omega⟩

/-- How many bytes readi() sets out to read. -/
def readGoal (off n size : Nat) : Nat := if off > size ∨ (off + n) % 2 ^ 32 < off then 0 else min n (size - off)

theorem copies_readi {dst off n : Nat} (h : Loaded sb ino ip i w.kernel.fs) (hheld : w.kernel.fs.st.held = []) :
    Copies False (readi p ip dst off n) w (dst % 2 ^ 64) (fun r bs w' => w'.kernel.fs.mem = w.kernel.fs.mem ∧
      LoopReads (readGoal off n (ino i).size) 0 (w.user.accepts (dst % 2 ^ 64)) r bs) := by
  refine .onFs rfl ?_
  rw [h.copy]
  unfold readGoal
  split
  · exact .pure ⟨rfl, Nat.zero_le _, .inl rfl, by omega, by omega⟩
  · have hmin : (if off + n > (ino i).size then (ino i).size - off else n) = min n ((ino i).size - off) := by
      split <;> omega
    rw [hmin]
    exact copies_readiLoop h hheld (Nat.zero_le _) (by omega) (by omega)

/-- File `f` is open on an inode of a sound file system, which open() has read and nobody has locked. -/
structure OpenInode (f : FilePtr) (fs : Fs) : Prop where
  loaded : ∃ sb ino i, Loaded sb ino (fs.mem.file f).ip i fs
  held : fs.st.held = []
  ref : 1 ≤ (fs.mem.inode (fs.mem.file f).ip).ref
  lock : (fs.mem.inode (fs.mem.file f).ip).lock = none
  valid : (fs.mem.inode (fs.mem.file f).ip).valid = true
  off : (fs.mem.file f).off < 2 ^ 32

theorem exec_ilock_valid (href : 1 ≤ (fs.mem.inode ip).ref) (hlock : (fs.mem.inode ip).lock = none)
    (hvalid : (fs.mem.inode ip).valid = true) : (Kern.ilock ip).exec (Fs.run p) fs =
      .ok () (Kern.onInode fs ip (fun i => { i with lock := some p })) := by
  have hacq : (Kern.acquiresleep ip).exec (Fs.run p) fs = .ok () (Kern.onInode fs ip (fun i => { i with lock := some p })) := by
    rw [Kern.acquiresleep, Free.exec_call]
    simp only [Fs.run, hlock]
    rfl
  rw [Kern.ilock, Kern.inodeOf, Free.exec_seq (Kern.exec_get _), if_neg (Int.not_lt.mpr href), Free.exec_seq hacq,
    Free.exec_seq (Kern.exec_get _), Kern.onInode_same, Kern.when, if_neg (by rw [hvalid]; decide)]
  rfl

theorem loaded_locked (h : Loaded sb ino ip i fs) (p : ProcId) :
    Loaded sb ino ip i (Kern.onInode fs ip (fun i => { i with lock := some p })) where
  super := h.super
  inum := by
    rw [Kern.onInode_same]
    exact h.inum
  copy := by
    rw [Kern.onInode_same]
    exact h.copy
  live := h.live
  disk := h.disk
  clean := h.clean

theorem readGoal_le (off n size : Nat) : readGoal off n size ≤ size - off := by
  unfold readGoal
  split <;> omega

theorem copies_fileread_inode (p : ProcId) {f : FilePtr} (addr : Nat) (n : Int) (h : OpenInode f w.kernel.fs)
    (ht : (w.kernel.fs.mem.file f).type = .inode) (hr : (w.kernel.fs.mem.file f).readable = true) :
    Copies False (fileread p f addr n) w (addr % 2 ^ 64) (fun r bs w' => LoopReads
      (readGoal (w.kernel.fs.mem.file f).off (toUint n) (w.kernel.fs.mem.inode (w.kernel.fs.mem.file f).ip).copy.size) 0
      (w.user.accepts (addr % 2 ^ 64)) r bs ∧
      (w'.kernel.fs.mem.file f).off = (w.kernel.fs.mem.file f).off + r.toNat) := by
  obtain ⟨sb, ino, i, hl⟩ := h.loaded
  have hoff := h.off
  have hsize : (w.kernel.fs.mem.inode (w.kernel.fs.mem.file f).ip).copy.size ≤ MAXFILE * BSIZE := by
    rw [hl.copy]
    exact hl.disk.fits i hl.live
  have hbig := MAXFILE_BSIZE
  obtain ⟨-, hheld, href, hlock, hvalid, -⟩ := h
  have hilock : (Kern.ilock (w.kernel.fs.mem.file f).ip).exec (Fs.run p) w.kernel.fs =
      .ok () (Kern.onInode w.kernel.fs (w.kernel.fs.mem.file f).ip (fun i => { i with lock := some p })) :=
    exec_ilock_valid href hlock hvalid
  have hl' := loaded_locked hl p
  refine .look ?_
  rw [hr, if_neg (by decide), ht]
  refine .onFs hilock (.look ?_)
  change Copies False (readi p (w.kernel.fs.mem.file f).ip addr (w.kernel.fs.mem.file f).off (toUint n) >>= _) _ _ _
  refine .bind (copies_readi (w := w.withFs _) hl' hheld) fun r bs w' ⟨hmem, hreads⟩ => ?_
  rw [← hl.copy] at hreads
  have hlen := readGoal_le (w.kernel.fs.mem.file f).off (toUint n)
    (w.kernel.fs.mem.inode (w.kernel.fs.mem.file f).ip).copy.size
  have hlocked : (w'.kernel.fs.mem.inode (w.kernel.fs.mem.file f).ip).lock = some p ∧
      (w'.kernel.fs.mem.inode (w.kernel.fs.mem.file f).ip).ref ≥ 1 := by
    rw [hmem, World.withFs_fs, Kern.onInode_same]
    exact ⟨rfl, href⟩
  have hsame : w'.kernel.fs.mem.file f = w.kernel.fs.mem.file f := by
    rw [hmem]
    rfl
  by_cases hr0 : r > 0
  · rw [Kern.when, if_pos hr0]
    refine .onFs (Kern.exec_update _) (.onFs (Kern.exec_iunlock hlocked.1 hlocked.2) (.pure ⟨?_, ?_⟩))
    · rwa [List.append_nil]
    · change (setAt w'.kernel.fs.mem.file f { w'.kernel.fs.mem.file f with
        off := ((w'.kernel.fs.mem.file f).off + toUint r) % 2 ^ 32 } f).off = _
      rw [setAt_same, hsame, toUint]
      have hans := hreads.answer
      dsimp only
      omega
  · rw [Kern.when, if_neg hr0]
    refine .onFs rfl (.onFs (Kern.exec_iunlock hlocked.1 hlocked.2) (.pure ⟨?_, ?_⟩))
    · rwa [List.append_nil]
    · rw [Int.toNat_of_nonpos (Int.not_lt.mp hr0)]
      exact congrArg File.off hsame

end

/-- A run that leaves the caller's memory alone, whatever it holds, stores nothing. -/
theorem nil_of_leaves {m : CallM α} {r r' : α} {bs : List UInt8} {w' w'' : World} (hacc : w.user.accepts a = true)
    (h : ∀ us : UserSpace, us.SameMap w.user → m (w.withUser us) = .ok r (w'.withUser (us.putBytes a bs)))
    (h' : ∀ us : UserSpace, us.SameMap w.user → m (w.withUser us) = .ok r' (w''.withUser us)) : bs = [] := by
  cases bs with
  | nil => rfl
  | cons b bs =>
    -- the memory in which the first byte is another one
    have hs := (UserSpace.SameMap.refl w.user).putBytes a [b + 1]
    have heq := (h _ hs).symm.trans (h' _ hs)
    injection heq with _ heq
    have hbyte := congrArg (fun v : World => v.user.byte a) heq
    have hmap := UserSpace.mapped_of_accepts hacc
    have hmap' := UserSpace.mapped_of_accepts ((hs.accepts a).trans hacc)
    simp only [World.withUser] at hbyte
    rw [UserSpace.byte_putBytes, if_pos ⟨hmap', Nat.le_refl _, by simp⟩, UserSpace.byte_putBytes,
      if_pos ⟨hmap, Nat.le_refl _, by simp⟩, Nat.sub_self] at hbyte
    have hne : b ≠ b + 1 := by simp
    exact absurd hbyte hne

/-- A read of `n` bytes ends, whatever the caller's memory holds, with no more than `n` bytes copied and no more
reported, and the position of a file goes on by what is reported. -/
def RespectsCount (p : ProcId) (f : FilePtr) (addr : Nat) (n : Int) (w : World) : Prop :=
  Copies False (fileread p f addr n) w (addr % 2 ^ 64) (fun r bs w' => (bs.length : Int) ≤ max n 0 ∧ r ≤ max n 0 ∧
    ((w.kernel.fs.mem.file f).type = .inode →
      (w'.kernel.fs.mem.file f).off = (w.kernel.fs.mem.file f).off + r.toNat))

/-- The read of a file of `size` bytes at `off` is one in which a negative count does no harm. -/
def CountHarmless (n : Int) (off size : Nat) (first : Bool) : Prop :=
  0 ≤ n ∨ size ≤ off ∨ -n ≤ off ∨ first = false

theorem LoopReads.harmless {n : Int} {off size : Nat} {first : Bool} {r : Int} {bs : List UInt8}
    (h : LoopReads (readGoal off (toUint n) size) 0 first r bs) (hn : -2 ^ 31 ≤ n ∧ n < 2 ^ 31)
    (hoff : off < 2 ^ 32) (hc : CountHarmless n off size first) : (bs.length : Int) ≤ max n 0 ∧ r ≤ max n 0 := by
  have hlen := h.len
  have hans := h.answer
  by_cases hgoal : readGoal off (toUint n) size = 0
  · omega
  · have hstart := h.starts (Nat.pos_of_ne_zero hgoal)
    have hstop := fun hf => h.stops hf (Nat.pos_of_ne_zero hgoal)
    by_cases h0 : 0 ≤ n
    · have hle : readGoal off (toUint n) size ≤ n := by
        unfold readGoal toUint
        split <;> omega
      omega
    · rcases hc with hc | hc | hc | hc
      · exact absurd hc h0
      · have := readGoal_le off (toUint n) size
        omega
      · refine absurd (if_pos (.inr ?_)) hgoal
        unfold toUint
        omega
      · rw [hstart.mpr hc, hstop hc]
        exact ⟨Int.le_max_right n 0, by omega⟩

theorem LoopReads.starts_of_harm {n : Int} {off size : Nat} {r : Int} {bs : List UInt8}
    (h : LoopReads (readGoal off (toUint n) size) 0 true r bs) (hn : -2 ^ 31 ≤ n)
    (hc : ¬ CountHarmless n off size true) : bs ≠ [] := by
  unfold CountHarmless at hc
  have hgoal : 0 < readGoal off (toUint n) size := by
    unfold readGoal toUint
    rw [if_neg (by omega)]
    omega
  intro hnil
  exact Bool.noConfusion ((h.starts hgoal).mp hnil)

/-- File `f` is open. -/
structure IsOpen (f : FilePtr) (fs : Fs) : Prop where
  type : (fs.mem.file f).type ≠ .none
  inode : (fs.mem.file f).type = .inode → OpenInode f fs

/-- fileread() sleeps for ever, as it may on a pipe and on the console, or it keeps to its count if and only if it does
not come to a negative count that is taken for a large one. -/
theorem fileread_respects_count_iff {f : FilePtr} {addr : Nat} {n : Int} (hn : -2 ^ 31 ≤ n ∧ n < 2 ^ 31)
    (hopen : IsOpen f w.kernel.fs) :
    ((w.kernel.fs.mem.file f).type ≠ .inode ∧
      ∀ us : UserSpace, us.SameMap w.user → fileread p f addr n (w.withUser us) = .wait) ∨
    (RespectsCount p f addr n w ↔
      ((w.kernel.fs.mem.file f).type = .inode → (w.kernel.fs.mem.file f).readable = true →
        CountHarmless n (w.kernel.fs.mem.file f).off (w.kernel.fs.mem.inode (w.kernel.fs.mem.file f).ip).copy.size
          (w.user.accepts (addr % 2 ^ 64)))) := by
  have hmax : (n.toNat : Int) = max n 0 := by omega
  -- what is not a file may wait, and keeps to its count otherwise
  have hother : ∀ c : Prop, (w.kernel.fs.mem.file f).type ≠ .inode →
      Copies True (fileread p f addr n) w (addr % 2 ^ 64) (fun r bs _ => bs.length ≤ n.toNat ∧ r ≤ n.toNat) →
      ((w.kernel.fs.mem.file f).type ≠ .inode ∧
        ∀ us : UserSpace, us.SameMap w.user → fileread p f addr n (w.withUser us) = .wait) ∨
      (RespectsCount p f addr n w ↔ ((w.kernel.fs.mem.file f).type = .inode → c)) := by
    intro c ht hc
    rcases hc with ⟨-, hwait⟩ | ⟨r, bs, w', ⟨hlen, hr⟩, hrun⟩
    · exact .inl ⟨ht, hwait⟩
    · refine .inr (iff_of_true (.inr ⟨r, bs, w', ⟨?_, ?_, fun h => absurd h ht⟩, hrun⟩) (fun h => absurd h ht))
      · omega
      · omega
  cases hr : (w.kernel.fs.mem.file f).readable with
  | false =>
    refine .inr (iff_of_true (.look ?_) nofun)
    rw [hr, if_pos rfl]
    exact .pure ⟨Int.le_max_right n 0, by omega, fun _ => rfl⟩
  | true =>
    cases ht : (w.kernel.fs.mem.file f).type with
    | none => exact absurd ht hopen.type
    | pipe =>
      rw [ht] at hother
      refine hother _ nofun (.look ?_)
      rw [hr, if_neg (by decide), ht]
      exact .get (copies_piperead _ addr n w)
    | device =>
      rw [ht] at hother
      refine hother _ nofun (.look ?_)
      rw [hr, if_neg (by decide), ht]
      dsimp only
      split
      · exact copies_consoleread addr n w
      · exact .pure ⟨Nat.zero_le _, by omega⟩
    | inode =>
      have hin := hopen.inode ht
      rcases copies_fileread_inode p addr n hin ht hr with ⟨hno, -⟩ | ⟨r, bs, w', ⟨hreads, hoff⟩, hrun⟩
      · exact hno.elim
      · refine .inr ⟨fun hc _ _ => ?_, fun hc => .inr ⟨r, bs, w', ?_, hrun⟩⟩
        · rcases hc with ⟨hno, -⟩ | ⟨r', bs', w'', ⟨hlen', -⟩, hrun'⟩
          · exact hno.elim
          · cases hacc : w.user.accepts (addr % 2 ^ 64) with
            | false => exact .inr (.inr (.inr rfl))
            | true =>
              rw [hacc] at hreads
              by_contra hharm
              have hneg : ¬ 0 ≤ n := fun h0 => hharm (.inl h0)
              obtain rfl : bs' = [] := List.eq_nil_of_length_eq_zero (by omega)
              simp only [UserSpace.putBytes_nil] at hrun'
              exact hreads.starts_of_harm hn.1 hharm (nil_of_leaves hacc hrun hrun')
        · obtain ⟨hlen, hle⟩ := hreads.harmless hn hin.off (hc rfl rfl)
          exact ⟨hlen, hle, fun _ => hoff⟩

/-- The first process with a file of eight zeros open as `file[0]`, at its start, and sevens in its memory. -/
def reading : World :=
  let mem := Kern.eightBytes.mem.setInode 0 (fun i => { i with ref := 1, lock := none })
  let w := lone.withFs { Kern.eightBytes with mem := mem.setFile 0 (fun _ => ⟨.inode, 1, true, true, 0, 0, 0⟩) }
  w.withUser (fun _ => some ⟨true, true, fun _ => 7⟩)

theorem reading_open : IsOpen 0 reading.kernel.fs where
  type := nofun
  inode _ :=
    { loaded := by
        refine ⟨mkfsSb, dinodes mkfsSb fileImage, 2, rfl, rfl, editing_inode.symm, ?_, fileImage_wellFormed.onDisk,
          fun _ _ => rfl⟩
        rw [editing_inode]
        decide
      held := rfl
      ref := by decide
      lock := rfl
      valid := rfl
      off := by decide }

/-- read(fd, 4096, 5). -/
theorem fileread_five : RespectsCount 0 0 4096 5 reading := by
  rcases fileread_respects_count_iff (p := 0) (w := reading) (f := 0) (n := 5) (by decide) reading_open with
    ⟨hno, -⟩ | hiff
  · exact absurd rfl hno
  · exact hiff.mpr fun _ _ => .inl (by decide)

/-- read(fd, 4096, -1) reads all of the file. -/
theorem fileread_minus_one : ∃ w', fileread 0 0 4096 (-1) reading = .ok 8 w' ∧
    (reading.kernel.fs.mem.file 0).off = 0 ∧ (w'.kernel.fs.mem.file 0).off = 8 ∧
    reading.user.bytes 4096 8 = List.replicate 8 7 ∧ w'.user.bytes 4096 8 = List.replicate 8 0 := by
  have hrun : (fileread 0 0 4096 (-1) reading).check (fun r w' =>
      decide (r = 8 ∧ (w'.kernel.fs.mem.file 0).off = 8 ∧ w'.user.bytes 4096 8 = List.replicate 8 0)) = true := by
    decide +kernel
  obtain ⟨r, w', he, hr⟩ := Out.check_iff.mp hrun
  obtain ⟨rfl, hoff, hbytes⟩ := of_decide_eq_true hr
  exact ⟨w', he, rfl, hoff, by decide, hbytes⟩

end UserCalls
end Xv6
