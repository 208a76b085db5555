import Xv6.Proofs.Creating

namespace Xv6

/- How the file table and the process table hold inodes. -/

section
variable (file : FilePtr → File) (proc : ProcId → Option Proc) (ip : InodePtr)

theorem held_file (f : FilePtr) (g : File) :
    held (setAt file f g) proc ip + ((file f).opens ip).toNat =
      held file proc ip + (g.opens ip).toNat := by
  have := countRows_update (p := fun f => (file f).opens ip)
    (q := fun h => (setAt file f g h).opens ip) (i := f)
    (fun h hh => by rw [setAt_other _ _ _ hh])
  rw [setAt_same] at this
  unfold held
  omega

theorem held_proc (q : ProcId) (pr : Option Proc) :
    held file (setAt proc q pr) ip + (cwdIs (proc q) ip).toNat =
      held file proc ip + (cwdIs pr ip).toNat := by
  have := countRows_update (p := fun q => cwdIs (proc q) ip)
    (q := fun r => cwdIs (setAt proc q pr r) ip) (i := q)
    (fun r hr => by rw [setAt_other _ _ _ hr])
  rw [setAt_same] at this
  unfold held
  omega

end

namespace Holders
variable (t : Holders)

def setFile (f : FilePtr) (g : File) : Holders := { t with file := setAt t.file f g }

def setProc (q : ProcId) (pr : Option Proc) : Holders := { t with proc := setAt t.proc q pr }

@[simp] theorem file_setFile (f : FilePtr) (g : File) : (t.setFile f g).file f = g :=
  setAt_same _ _ _

theorem file_setFile_other {f f' : FilePtr} (g : File) (h : f' ≠ f) :
    (t.setFile f g).file f' = t.file f' := setAt_other _ _ _ h

@[simp] theorem proc_setProc (q : ProcId) (pr : Option Proc) : (t.setProc q pr).proc q = pr :=
  setAt_same _ _ _

/-- The tables hold `ip` as inode `i`. -/
def setBase (ip : InodePtr) (i : Nat) : Holders := { t with base := setAt t.base ip i }

theorem held_setFile (f : FilePtr) (g : File) (ip : InodePtr) :
    (t.setFile f g).held ip + ((t.file f).opens ip).toNat = t.held ip + (g.opens ip).toNat :=
  held_file t.file t.proc ip f g

theorem held_setProc (q : ProcId) (pr : Option Proc) (ip : InodePtr) :
    (t.setProc q pr).held ip + (cwdIs (t.proc q) ip).toNat = t.held ip + (cwdIs pr ip).toNat :=
  held_proc t.file t.proc ip q pr

end Holders

variable {p : ProcId} {sb : Superblock} {ino : Nat → Dinode} {away : List Nat} {t t' : Holders}
  {m m' : Mem} {ip : InodePtr} {i : Nat} {f : FilePtr} {g : File}

/-- The file table and the process table change, the inode table does not. -/
structure Retabled (p : ProcId) (t : Holders) (m m' : Mem) (t' : Holders) : Prop where
  inode : m'.inode = m.inode
  super : m'.sb = m.sb
  file : m'.file = t'.file
  proc : t'.proc = if t'.moving then setAt m'.proc p ((m'.proc p).map Proc.leave) else m'.proc
  agree : ∀ ip, t.Agree t' ip
  locked : t'.locked = t.locked
  fresh : t'.fresh = t.fresh

theorem InMem.retable (h : InMem p sb ino away t m) (hr : Retabled p t m m' t')
    (hlive : ∀ ip, 0 < t'.held ip → (ino (t'.base ip)).type ≠ 0)
    (hclosed : ∀ f, (t'.file f).ref ≤ 0 → (t'.file f).type = .none)
    (hw : ∀ f ip, (t'.file f).opens ip = true → (t'.file f).writable = true →
      (ino (t'.base ip)).type ≠ T_DIR) : InMem p sb ino away t' m' := by
  refine ⟨hr.super.trans h.super, hr.file, hr.proc, fun ip => ?_, ?_, ?_, ?_, hlive, hclosed, hw⟩
  · rw [hr.inode]
    exact (h.slot ip).congr (hr.agree ip) (fun _ => rfl)
  · rw [hr.inode]
    exact h.unique
  · rw [hr.locked]
    exact h.nodup
  · rw [hr.inode, hr.fresh]
    exact h.orphan

/-- The holders stay the same, but for what they say of `f`. -/
theorem agree_of_held (hh : ∀ jp, t'.held jp = t.held jp) (hr : t'.refs = t.refs)
    (hl : t'.locked = t.locked) (hb : t'.base = t.base) (jp : InodePtr) : t.Agree t' jp where
  count := by unfold Holders.count; rw [hh, hr]
  names j hn := by
    unfold Holders.Names at hn ⊢
    rwa [hh, hr, hl, hb] at hn
  locks := by unfold Holders.Locks; rw [hl]

/-- A change of an entry of the file table that concerns no inode. -/
theorem InMem.setFile (h : InMem p sb ino away t m) (ho : ∀ jp, g.opens jp = (t.file f).opens jp)
    (hc : g.ref ≤ 0 → g.type = .none)
    (hw : ∀ jp, g.opens jp = true → g.writable = true → (ino (t.base jp)).type ≠ T_DIR) :
    InMem p sb ino away (t.setFile f g) { m with file := setAt m.file f g } := by
  have hheld : ∀ jp, (t.setFile f g).held jp = t.held jp := by
    intro jp
    have := t.held_setFile f g jp
    rw [ho] at this
    omega
  refine h.retable ⟨rfl, rfl, by rw [h.file]; rfl, h.proc, agree_of_held hheld rfl rfl rfl, rfl, rfl⟩
    (fun jp hj => h.live jp (hheld jp ▸ hj)) ?_ ?_
  · intro f'
    change (setAt t.file f g f').ref ≤ 0 → (setAt t.file f g f').type = .none
    by_cases hf : f' = f
    · rw [hf, setAt_same]
      exact hc
    · rw [setAt_other _ _ _ hf]
      exact h.closed f'
  · intro f' jp
    change (setAt t.file f g f').opens jp = true → (setAt t.file f g f').writable = true → _
    by_cases hf : f' = f
    · rw [hf, setAt_same]
      exact hw jp
    · rw [setAt_other _ _ _ hf]
      exact h.writable f' jp

/-- A change of a process that keeps its working directory. -/
theorem InMem.setProc (h : InMem p sb ino away t m) (hm : t.moving = false) {q : ProcId}
    {pr : Option Proc} (ho : ∀ jp, cwdIs pr jp = cwdIs (t.proc q) jp) :
    InMem p sb ino away (t.setProc q pr) { m with proc := setAt m.proc q pr } := by
  have hheld : ∀ jp, (t.setProc q pr).held jp = t.held jp := by
    intro jp
    have := t.held_setProc q pr jp
    rw [ho] at this
    omega
  have hproc := h.proc
  rw [hm, if_neg (by decide)] at hproc
  refine h.retable ⟨rfl, rfl, h.file, ?_, agree_of_held hheld rfl rfl rfl, rfl, rfl⟩
    (fun jp hj => h.live jp (hheld jp ▸ hj)) h.closed h.writable
  rw [show (t.setProc q pr).moving = false from hm, if_neg (by decide), ← hproc]
  rfl

/-- The tables take over a reference of the call. -/
theorem agree_give (hh : ∀ jp, t'.held jp = t.held jp + (decide (jp = ip)).toNat)
    (hr : t'.refs = t.refs) (hl : t'.locked = t.locked) (hb : t'.base = setAt t.base ip i)
    (jp : InodePtr) : (t.take ip i).Agree t' jp where
  count := by
    have := hh jp
    unfold Holders.count
    rw [hr]
    by_cases he : jp = ip
    · have hc := t.count_take ip i
      subst he
      unfold Holders.count at hc
      simp at this
      omega
    · have hc := t.count_take_other i he
      unfold Holders.count at hc
      simp [he] at this
      omega
  names j hn := by
    rw [t.names_take]
    rcases hn with hn | hn | ⟨hn, hj⟩
    · exact .inr (.inl (hr ▸ hn))
    · exact .inr (.inr (.inl (hl ▸ hn)))
    · by_cases he : jp = ip
      · rw [hb, he, setAt_same] at hj
        exact .inl ⟨he, hj.symm⟩
      · rw [hb, setAt_other _ _ _ he] at hj
        rw [hh, decide_eq_false he] at hn
        exact .inr (.inr (.inr ⟨hn, hj⟩))
  locks := by
    unfold Holders.Locks
    rw [hl]
    rfl

/-- Nothing changes for the inodes that the tables already held. -/
theorem InMem.base_eq (h : InMem p sb ino away (t.take ip i) m) {jp : InodePtr}
    (hj : 0 < t.held jp) : setAt t.base ip i jp = t.base jp := by
  by_cases he : jp = ip
  · subst he
    rw [setAt_same, ← h.inum_eq (t.names_take.mpr (.inl ⟨rfl, rfl⟩)),
      h.inum_eq (i := t.base jp) (t.names_take.mpr (.inr (.inr (.inr ⟨hj, rfl⟩))))]
  · exact setAt_other _ _ _ he

theorem InMem.giveFile (h : InMem p sb ino away (t.take ip i) m) (ht : (ino i).type ≠ 0)
    (hf : (t.file f).type = .none) (hg : g.type = .inode ∨ g.type = .device) (hip : g.ip = ip)
    (href : 0 < g.ref) (hw : g.writable = true → (ino i).type ≠ T_DIR) :
    InMem p sb ino away ((t.setFile f g).setBase ip i) { m with file := setAt m.file f g } := by
  have hold : ∀ jp, (t.file f).opens jp = false := by
    intro jp
    simp [File.opens, hf]
  have hnew : ∀ jp, g.opens jp = decide (jp = ip) := by
    intro jp
    unfold File.opens
    rw [hip]
    exact decide_eq_decide.mpr ⟨fun hc => hc.2.symm, fun he => ⟨hg, he.symm⟩⟩
  have hheld : ∀ jp, ((t.setFile f g).setBase ip i).held jp =
      t.held jp + (decide (jp = ip)).toNat := by
    intro jp
    have := t.held_setFile f g jp
    rw [hold, hnew] at this
    exact this
  refine h.retable ⟨rfl, rfl, by rw [h.file]; rfl, h.proc, agree_give hheld rfl rfl rfl, rfl, rfl⟩
    ?_ ?_ ?_
  · intro jp hj
    change (ino (setAt t.base ip i jp)).type ≠ 0
    by_cases he : jp = ip
    · rw [he, setAt_same]
      exact ht
    · rw [hheld, decide_eq_false he] at hj
      rw [setAt_other _ _ _ he]
      exact h.live jp hj
  · intro f'
    change (setAt t.file f g f').ref ≤ 0 → (setAt t.file f g f').type = .none
    by_cases hf' : f' = f
    · rw [hf', setAt_same]
      omega
    · rw [setAt_other _ _ _ hf']
      exact h.closed f'
  · intro f' jp
    change (setAt t.file f g f').opens jp = true → (setAt t.file f g f').writable = true →
      (ino (setAt t.base ip i jp)).type ≠ T_DIR
    by_cases hf' : f' = f
    · rw [hf', setAt_same, hnew]
      intro he
      rw [of_decide_eq_true he, setAt_same]
      exact hw
    · rw [setAt_other _ _ _ hf']
      intro ho
      rw [h.base_eq (held_pos.mpr (.inl ⟨f', ho⟩))]
      exact h.writable f' jp ho

theorem cwdIs_some (pr : Proc) (hp : pr.cwd = some ip) (jp : InodePtr) :
    cwdIs (some pr) jp = decide (jp = ip) := by
  unfold cwdIs
  rw [Option.bind_some, hp]
  exact decide_eq_decide.mpr ⟨fun h => (Option.some.inj h).symm, fun h => by rw [h]⟩

theorem cwdIs_none {pr : Option Proc} (hp : pr.bind Proc.cwd = none) (jp : InodePtr) :
    cwdIs pr jp = false := by
  unfold cwdIs
  rw [hp]
  rfl

/-- A process without a working directory gets one. -/
theorem InMem.giveProc (h : InMem p sb ino away (t.take ip i) m) (ht : (ino i).type ≠ 0)
    (q : ProcId) (pr : Proc) (m' : Mem) (mv : Bool) (hq : (t.proc q).bind Proc.cwd = none)
    (hp : pr.cwd = some ip) (hm' : m'.inode = m.inode ∧ m'.sb = m.sb ∧ m'.file = m.file)
    (hproc : setAt t.proc q (some pr) =
      if mv then setAt m'.proc p ((m'.proc p).map Proc.leave) else m'.proc) :
    InMem p sb ino away { (t.setProc q (some pr)).setBase ip i with moving := mv } m' := by
  have hheld : ∀ jp, (Holders.held { (t.setProc q (some pr)).setBase ip i with moving := mv } jp) =
      t.held jp + (decide (jp = ip)).toNat := by
    intro jp
    have := t.held_setProc q (some pr) jp
    rw [cwdIs_none hq, cwdIs_some pr hp] at this
    exact this
  refine h.retable ⟨hm'.1, hm'.2.1, by rw [hm'.2.2, h.file]; rfl, hproc,
    agree_give hheld rfl rfl rfl, rfl, rfl⟩ ?_ h.closed ?_
  · intro jp hj
    change (ino (setAt t.base ip i jp)).type ≠ 0
    by_cases he : jp = ip
    · rw [he, setAt_same]
      exact ht
    · rw [hheld, decide_eq_false he] at hj
      rw [setAt_other _ _ _ he]
      exact h.live jp hj
  · intro f' jp ho
    change _ → (ino (setAt t.base ip i jp)).type ≠ T_DIR
    rw [h.base_eq (held_pos.mpr (.inl ⟨f', ho⟩))]
    exact h.writable f' jp ho

/-- The call takes a reference away from the tables. -/
theorem agree_takeBack (hh : ∀ jp, t'.held jp + (decide (jp = ip)).toNat = t.held jp)
    (hr : t'.refs = t.refs) (hl : t'.locked = t.locked) (hb : t'.base = t.base) (jp : InodePtr) :
    t.Agree (t'.take ip (t.base ip)) jp where
  count := by
    have := hh jp
    by_cases he : jp = ip
    · subst he
      rw [t'.count_take]
      unfold Holders.count
      rw [hr]
      simp at this
      omega
    · rw [t'.count_take_other _ he]
      unfold Holders.count
      rw [hr]
      simp [he] at this
      omega
  names j hn := by
    rcases t'.names_take.mp hn with ⟨rfl, rfl⟩ | hn | hn | ⟨hn, hj⟩
    · have := hh jp
      simp at this
      exact .inr (.inr ⟨by omega, rfl⟩)
    · exact .inl (hr ▸ hn)
    · exact .inr (.inl (hl ▸ hn))
    · have := hh jp
      exact .inr (.inr ⟨by omega, hb ▸ hj⟩)
  locks := by
    change t'.Locks jp ↔ _
    unfold Holders.Locks
    rw [hl]

/-- The last reference to an open file goes. -/
theorem InMem.closeFile (h : InMem p sb ino away t m) (ho : (t.file f).opens ip = true)
    (hg : g.type = .none) :
    InMem p sb ino away ((t.setFile f g).take ip (t.base ip))
      { m with file := setAt m.file f g } := by
  have hip : (t.file f).ip = ip := (of_decide_eq_true ho).2
  have hold : ∀ jp, (t.file f).opens jp = decide (jp = ip) := by
    intro jp
    unfold File.opens
    rw [hip]
    exact decide_eq_decide.mpr ⟨fun hc => hc.2.symm, fun he => ⟨(of_decide_eq_true ho).1, he.symm⟩⟩
  have hnew : ∀ jp, g.opens jp = false := by
    intro jp
    simp [File.opens, hg]
  have hheld : ∀ jp, (t.setFile f g).held jp + (decide (jp = ip)).toNat = t.held jp := by
    intro jp
    have := t.held_setFile f g jp
    rw [hold, hnew] at this
    exact this
  refine h.retable ⟨rfl, rfl, by rw [h.file]; rfl, h.proc, agree_takeBack hheld rfl rfl rfl, rfl, rfl⟩
    ?_ ?_ ?_
  · intro jp hj
    have hle := hheld jp
    change 0 < (t.setFile f g).held jp at hj
    exact h.live jp (by omega)
  · intro f'
    change (setAt t.file f g f').ref ≤ 0 → (setAt t.file f g f').type = .none
    by_cases hf' : f' = f
    · rw [hf', setAt_same]
      exact fun _ => hg
    · rw [setAt_other _ _ _ hf']
      exact h.closed f'
  · intro f' jp
    change (setAt t.file f g f').opens jp = true → (setAt t.file f g f').writable = true → _
    by_cases hf' : f' = f
    · rw [hf', setAt_same, hnew]
      nofun
    · rw [setAt_other _ _ _ hf']
      exact h.writable f' jp

/-- The process is about to drop its working directory. -/
theorem InMem.leave (h : InMem p sb ino away t m) (hm : t.moving = false) {pr : Proc}
    (hp : t.proc p = some pr) (hc : pr.cwd = some ip) :
    InMem p sb ino away
      ({ t.setProc p (some pr.leave) with moving := true }.take ip (t.base ip)) m := by
  have hproc := h.proc
  rw [hm, if_neg (by decide)] at hproc
  have hheld : ∀ jp, Holders.held { t.setProc p (some pr.leave) with moving := true } jp +
      (decide (jp = ip)).toNat = t.held jp := by
    intro jp
    have := t.held_setProc p (some pr.leave) jp
    rw [hp, cwdIs_some pr hc, cwdIs_none rfl] at this
    exact this
  refine h.retable ⟨rfl, rfl, h.file, ?_, agree_takeBack hheld rfl rfl rfl, rfl, rfl⟩ ?_ h.closed
    h.writable
  · change setAt t.proc p (some pr.leave) = if true = true then _ else _
    rw [if_pos rfl, ← hproc, hp]
    rfl
  · intro jp hj
    have hle := hheld jp
    change 0 < Holders.held { t.setProc p (some pr.leave) with moving := true } jp at hj
    exact h.live jp (by omega)

end Xv6
