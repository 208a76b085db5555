import Xv6.Proofs.ProcStat

namespace Xv6.UserCalls
variable {p : ProcId} {w : World}

/- Which calls depend on what the stack held. -/

def World.withStack (w : World) (s : Stack) : World := { w with stack := s }

/-- What the caller has of a call: its answer and its memory. -/
def answer (m : CallM Int) (w : World) : Out Panic UserSpace Int := (m w).view World.user

/-- The program does not depend on the stack. -/
def Blind (m : CallM α) : Prop := ∀ w s, m (w.withStack s) = (m w).view (fun v => v.withStack s)

theorem Blind.answer_eq {m : CallM Int} (h : Blind m) (s : Stack) :
    answer m (w.withStack s) = answer m w := by
  rw [answer, h, answer]
  cases m w with
  | ok a v => rfl
  | wait => rfl
  | fail e => rfl

theorem Blind.pure (a : α) : Blind (pure a) := fun _ _ => rfl

theorem Blind.bind {m : CallM α} {f : α → CallM β} (hm : Blind m) (hf : ∀ a, Blind (f a)) :
    Blind (m >>= f) := by
  intro w s
  rw [run_bind, run_bind, hm]
  cases m w with
  | ok a v => exact hf a v s
  | wait => rfl
  | fail e => rfl

theorem Blind.ite {c : Prop} [Decidable c] {m m' : CallM α} (h : Blind m) (h' : Blind m') :
    Blind (if c then m else m') := by
  split
  · exact h
  · exact h'

theorem blind_onKernel (f : Kernel → α × Kernel) : Blind (onKernel f) := fun _ _ => rfl
theorem blind_get (f : Kernel → α) : Blind (get f) := blind_onKernel _
theorem blind_update (f : Kernel → Kernel) : Blind (update f) := blind_onKernel _
theorem blind_copyout (va : Nat) (src : List UInt8) : Blind (copyout va src) := fun _ _ => rfl

theorem blind_onFs (m : KernM α) : Blind (onFs p m) := by
  intro w s
  have hfs : (w.withStack s).kernel.fs = w.kernel.fs := rfl
  unfold onFs
  rw [hfs]
  cases m.exec (Fs.run p) w.kernel.fs with
  | ok a fs => rfl
  | wait => rfl
  | fail e => rfl

theorem blind_sleep : Blind sleep := by
  intro w s
  have hothers : (w.withStack s).others = w.others := rfl
  unfold sleep
  rw [hothers]
  cases w.others with
  | nil => rfl
  | cons f rest => rfl

theorem Blind.sleepLoop {round : CallM (Option α)} (h : Blind round) (fuel : Nat) :
    Blind (UserCalls.sleepLoop round fuel) := by
  induction fuel with
  | zero => exact fun _ _ => rfl
  | succ fuel ih =>
    refine Blind.bind h fun r => ?_
    cases r with
    | some a => exact .pure a
    | none => exact Blind.bind blind_sleep fun _ => ih

theorem Blind.untilSome {round : CallM (Option α)} (h : Blind round) :
    Blind (UserCalls.untilSome round) :=
  fun w s => h.sleepLoop (w.others.length + 1) w s

theorem blind_waitScan (addr : Nat) (pps : List ProcId) (kids : Bool) :
    Blind (waitScan p addr pps kids) := by
  induction pps generalizing kids with
  | nil => exact .pure _
  | cons pp pps ih =>
    refine Blind.bind (blind_get _) fun r => .ite (.ite ?_ (ih true)) (ih kids)
    refine Blind.bind (m := copyStatus _ _) (.ite (blind_copyout _ _) (.pure _)) fun ok => ?_
    exact .ite (Blind.bind (blind_update _) fun _ => .pure _) (.pure _)

theorem blind_wait (addr : Nat) : Blind (wait p addr) := by
  refine Blind.untilSome (Blind.bind (blind_waitScan _ _ _) fun r => ?_)
  cases r with
  | inl r => exact .pure _
  | inr kids => exact Blind.bind (blind_get _) fun killed => .ite (.pure _) (.pure _)

theorem blind_pipealloc : Blind (pipealloc p) := by
  refine Blind.bind (blind_get _) fun pages => Blind.bind (blind_onFs _) fun r => ?_
  cases r with
  | none => exact .pure _
  | some x => exact Blind.bind (blind_update _) fun _ => .pure _

theorem blind_closeBoth (rf wf : FilePtr) : Blind (closeBoth p rf wf) :=
  Blind.bind (blind_onFs _) fun _ => Blind.bind (blind_onFs _) fun _ => blind_update _

theorem blind_sysPipe (fdarray : Nat) : Blind (sysPipe p fdarray) := by
  have hfail : ∀ rf wf, Blind (do closeBoth p rf wf; return (-1 : Int)) := fun rf wf =>
    Blind.bind (blind_closeBoth rf wf) fun _ => .pure _
  refine Blind.bind blind_pipealloc fun r => ?_
  cases r with
  | none => exact .pure _
  | some x =>
    refine Blind.bind (blind_onFs _) fun fd0 => ?_
    cases fd0 with
    | none => exact hfail _ _
    | some fd0 =>
      refine Blind.bind (blind_onFs _) fun fd1 => ?_
      cases fd1 with
      | none => exact Blind.bind (blind_onFs _) fun _ => hfail _ _
      | some fd1 =>
        have hcopy : Blind (copyFds fdarray fd0.val fd1.val) :=
          Blind.bind (blind_copyout _ _) fun ok => .ite (blind_copyout _ _) (.pure _)
        refine Blind.bind hcopy fun ok => ?_
        refine .ite (.pure _) (Blind.bind (blind_onFs _) fun _ => ?_)
        exact Blind.bind (blind_onFs _) fun _ => hfail _ _

theorem blind_readiLoop (ip : InodePtr) (dst n fuel tot off : Nat) :
    Blind (readiLoop p ip dst n fuel tot off) := by
  induction fuel generalizing tot off with
  | zero => exact .pure _
  | succ fuel ih =>
    refine .ite (Blind.bind (blind_onFs _) fun addr => .ite (.pure _) ?_) (.pure _)
    refine Blind.bind (blind_onFs _) fun bp => Blind.bind (blind_onFs _) fun d => ?_
    refine Blind.bind (blind_copyout _ _) fun ok => Blind.bind (blind_onFs _) fun _ => ?_
    exact .ite (ih _ _) (.pure _)

theorem blind_readi (ip : InodePtr) (dst off n : Nat) : Blind (readi p ip dst off n) :=
  Blind.bind (blind_onFs _) fun _ => .ite (.pure _) (blind_readiLoop _ _ _ _ _ _)

/-- The test at the head of both waiting loops. -/
theorem blind_ready (empty : Kernel → Bool) :
    Blind (UserCalls.untilSome do
      if ← get empty then
        if ← get (fun k => (k.row p).killed) then return some false else return none
      else return some true) :=
  Blind.untilSome (Blind.bind (blind_get _) fun _ =>
    .ite (Blind.bind (blind_get _) fun _ => .ite (.pure _) (.pure _)) (.pure _))

theorem blind_pipeCopy (pi addr fuel i : Nat) : Blind (pipeCopy pi addr fuel i) := by
  induction fuel generalizing i with
  | zero => exact .pure _
  | succ fuel ih =>
    refine Blind.bind (blind_get _) fun e => .ite (.pure _) (Blind.bind (blind_get _) fun ch => ?_)
    refine Blind.bind (blind_copyout _ _) fun ok => Blind.bind (blind_update _) fun _ => ?_
    exact .ite (ih _) (.pure _)

theorem blind_consoleLoop (dst : Nat) (n : Int) (fuel : Nat) (bytes : List UInt8) :
    Blind (consoleLoop p dst n fuel bytes) := by
  induction fuel generalizing bytes with
  | zero => exact .pure _
  | succ fuel ih =>
    refine Blind.bind (blind_ready _) fun ready => .ite ?_ (.pure _)
    refine Blind.bind (blind_get _) fun c => .ite ?_ ?_
    · exact Blind.bind (blind_update _) fun _ => .pure _
    · refine Blind.bind (blind_copyout _ _) fun ok => Blind.bind (blind_update _) fun _ => ?_
      exact .ite (.pure _) (.ite (.pure _) (ih _))

theorem blind_fileread (f : FilePtr) (addr : Nat) (n : Int) : Blind (fileread p f addr n) := by
  refine Blind.bind (blind_onFs _) fun ff => .ite (.pure _) ?_
  cases ff.type with
  | pipe =>
    refine Blind.bind (blind_get _) fun pi => ?_
    exact Blind.bind (blind_ready _) fun ready => .ite (blind_pipeCopy _ _ _ _) (.pure _)
  | device => exact .ite (blind_consoleLoop _ _ _ _) (.pure _)
  | inode =>
    refine Blind.bind (blind_onFs _) fun _ => Blind.bind (blind_onFs _) fun ff => ?_
    refine Blind.bind (blind_readi _ _ _ _) fun r => Blind.bind (blind_onFs _) fun _ => ?_
    exact Blind.bind (blind_onFs _) fun _ => .pure _
  | none => exact fun _ _ => rfl

theorem blind_sysRead (fd : Int) (addr : Nat) (n : Int) : Blind (sysRead p fd addr n) := by
  refine Blind.bind (blind_onFs _) fun r => ?_
  cases r with
  | none => exact .pure _
  | some x => exact blind_fileread _ _ _

/- fstat. -/

/-- filestat() up to stati(): the inode, if the descriptor has one. -/
def statted (p : ProcId) (fd : Int) : CallM (Option Inode) := do
  match ← onFs p (Kern.argfd fd) with
  | none => return none
  | some (_, f) =>
    let ff ← onFs p (Kern.fileOf f)
    if ff.type = .inode ∨ ff.type = .device then
      onFs p (Kern.ilock ff.ip)
      let i ← onFs p (Kern.inodeOf ff.ip)
      onFs p (Kern.iunlock ff.ip)
      return some i
    else return none

theorem blind_statted (fd : Int) : Blind (statted p fd) := by
  refine Blind.bind (blind_onFs _) fun r => ?_
  cases r with
  | none => exact .pure _
  | some x =>
    refine Blind.bind (blind_onFs _) fun ff => .ite ?_ (.pure _)
    refine Blind.bind (blind_onFs _) fun _ => Blind.bind (blind_onFs _) fun i => ?_
    exact Blind.bind (blind_onFs _) fun _ => .pure _

/-- The program leaves user memory and the stack alone. -/
def Inner (m : CallM α) : Prop := ∀ w a v, m w = .ok a v → v.user = w.user ∧ v.stack = w.stack

theorem Inner.pure (a : α) : Inner (pure a) := fun w b v h => by
  cases h
  exact ⟨rfl, rfl⟩

theorem inner_onFs (m : KernM α) : Inner (onFs p m) := by
  intro w a v h
  unfold onFs at h
  cases he : m.exec (Fs.run p) w.kernel.fs with
  | ok b fs =>
    rw [he] at h
    cases h
    exact ⟨rfl, rfl⟩
  | wait => rw [he] at h; cases h
  | fail e => rw [he] at h; cases h

theorem Inner.bind {m : CallM α} {f : α → CallM β} (hm : Inner m) (hf : ∀ a, Inner (f a)) :
    Inner (m >>= f) := by
  intro w b v h
  rw [run_bind] at h
  cases he : m w with
  | ok a u =>
    rw [he] at h
    have h1 := hm w a u he
    have h2 := hf a u b v h
    exact ⟨h2.1.trans h1.1, h2.2.trans h1.2⟩
  | wait => rw [he] at h; cases h
  | fail e => rw [he] at h; cases h

theorem inner_statted (fd : Int) : Inner (statted p fd) := by
  refine Inner.bind (inner_onFs _) fun r => ?_
  cases r with
  | none => exact .pure _
  | some x =>
    refine Inner.bind (inner_onFs _) fun ff => ?_
    split
    · refine Inner.bind (inner_onFs _) fun _ => Inner.bind (inner_onFs _) fun i => ?_
      exact Inner.bind (inner_onFs _) fun _ => .pure _
    · exact .pure _

/-- struct stat as the stack has it. -/
def rawStat (s : Stack) : List UInt8 := (List.range 32).map (s .st)

/-- fstat() is these steps and then one copyout(). -/
theorem sysFstat_eq (fd : Int) (addr : Nat) (w : World) : sysFstat p fd addr w =
    match statted p fd w with
    | .ok (some i) v => (copyout addr (stati i (rawStat w.stack)) >>= fun ok =>
        pure (if ok then 0 else -1)) v
    | .ok none v => .ok (-1) v
    | .wait => .wait
    | .fail e => .fail e := by
  rw [sysFstat, statted, run_bind, run_bind]
  cases h1 : onFs p (Kern.argfd fd) w with
  | wait => rfl
  | fail e => rfl
  | ok r u =>
    cases r with
    | none => rfl
    | some x =>
      dsimp only
      rw [filestat, run_bind, run_bind]
      cases h2 : onFs p (Kern.fileOf x.2) u with
      | wait => rfl
      | fail e => rfl
      | ok ff v =>
        have hstack : v.stack = w.stack := (inner_onFs _ _ _ _ h2).2.trans (inner_onFs _ _ _ _ h1).2
        dsimp only
        split
        · simp only [run_bind, run_uninit, hstack, rawStat]
          cases onFs p (Kern.ilock ff.ip) v with
          | wait => rfl
          | fail e => rfl
          | ok _ v =>
            dsimp only
            cases onFs p (Kern.inodeOf ff.ip) v with
            | wait => rfl
            | fail e => rfl
            | ok i v =>
              dsimp only
              cases onFs p (Kern.iunlock ff.ip) v with
              | wait => rfl
              | fail e => rfl
              | ok _ v => rfl
        · rfl

/-- The bytes of struct stat that stati() does not set. -/
def Unset (n : Nat) : Prop := 12 ≤ n ∧ n < 16 ∨ 24 ≤ n

instance : DecidablePred Unset := fun _ => inferInstanceAs (Decidable (_ ∨ _))

theorem length_stati (i : Inode) {st : List UInt8} (h : st.length = 32) : (stati i st).length = 32 := by
  simp [stati, h]

theorem stati_at (i : Inode) {st st' : List UInt8} (h : st.length = 32) (h' : st'.length = 32) (n : Nat) :
    (stati i st)[n]? = if Unset n then st[n]? else (stati i st')[n]? := by
  have hsplit : ∀ st : List UInt8, stati i st = (Bytes.le 4 i.dev ++ Bytes.le 4 i.inum ++
      Bytes.le 2 (toUshort i.copy.type) ++ Bytes.le 2 (toUshort i.copy.nlink)) ++
      ((st.drop 12).take 4 ++ (Bytes.le 8 i.copy.size ++ st.drop 24)) := fun st => by simp [stati]
  rw [hsplit, hsplit]
  generalize hA : Bytes.le 4 i.dev ++ Bytes.le 4 i.inum ++
      Bytes.le 2 (toUshort i.copy.type) ++ Bytes.le 2 (toUshort i.copy.nlink) = A
  have hlen : A.length = 12 := by simp [← hA]
  simp only [List.getElem?_append, hlen, List.length_take, List.length_drop, h, h', Bytes.length_le,
    List.getElem?_take, List.getElem?_drop, Unset]
  by_cases h1 : n < 12
  · rw [if_pos h1, if_neg (by omega), if_pos h1]
  · rw [if_neg h1, if_neg h1]
    by_cases h2 : n < 16
    · rw [if_pos (by omega), if_pos (by omega), if_pos (by omega), show 12 + (n - 12) = n by omega]
    · rw [if_neg (show ¬ n - 12 < min 4 (32 - 12) by omega)]
      by_cases h3 : n < 24
      · rw [if_pos (show n - 12 - min 4 (32 - 12) < 8 by omega), if_neg (by omega),
          if_neg (by omega), if_pos (by omega)]
      · rw [if_neg (show ¬ n - 12 - min 4 (32 - 12) < 8 by omega), if_pos (by omega)]
        congr 1
        omega

/- getprocs. -/

theorem procStat_at (ticks : UInt32) (r : Row) {old old' : List UInt8} (h : old.length = 32)
    (h' : old'.length = 32) (n : Nat) : (procStat ticks r old)[n]? =
      if 16 + nameSet r ≤ n then old[n]? else (procStat ticks r old')[n]? := by
  have hsplit : ∀ old : List UInt8, procStat ticks r old = (Bytes.le 4 r.pid.toUInt32.toNat ++
      Bytes.le 4 (stateCode r.state) ++ Bytes.le 4 ticks.toNat ++ Bytes.le 4 (r.sz.toNat % 2 ^ 32) ++
      safestrcpyBytes 15 (r.name.get 0 16)) ++ (old.drop 16).drop (nameSet r) := fun old => by
    simp [procStat, safestrcpy, nameSet]
  rw [hsplit, hsplit]
  generalize hA : Bytes.le 4 r.pid.toUInt32.toNat ++ Bytes.le 4 (stateCode r.state) ++
    Bytes.le 4 ticks.toNat ++ Bytes.le 4 (r.sz.toNat % 2 ^ 32) ++
    safestrcpyBytes 15 (r.name.get 0 16) = A
  have hlen : A.length = 16 + nameSet r := by
    simp [← hA, nameSet]
    omega
  simp only [List.getElem?_append, hlen, List.getElem?_drop]
  by_cases hn : n < 16 + nameSet r
  · rw [if_pos hn, if_neg (by omega), if_pos hn]
  · rw [if_neg hn, if_pos (by omega)]
    congr 1
    omega

/-- Which bytes two reports may differ in. -/
theorem records_eq_iff (k : Kernel) {rows : List ProcId} (hr : rows.length ≤ NPROC)
    {stats stats' : List UInt8} (hs : stats.length = 32 * NPROC) (hs' : stats'.length = 32 * NPROC)
    {n : Nat} (hn : n ≤ 32 * rows.length) :
    (∀ i < n, (records k stats rows 0)[i]? = (records k stats' rows 0)[i]?) ↔
      ∀ i < n, ∀ q, rows[i / 32]? = some q → 16 + nameSet (k.row q) ≤ i % 32 → stats[i]? = stats'[i]? := by
  have hat : ∀ {stats : List UInt8}, stats.length = 32 * NPROC → ∀ i < 32 * rows.length, ∀ q,
      rows[i / 32]? = some q → (records k stats rows 0)[i]? =
        (procStat k.ticks (k.row q) ((stats.drop (32 * (i / 32))).take 32))[i % 32]? := by
    intro stats hs i hi q hq
    obtain ⟨hlt, rfl⟩ := List.getElem?_eq_some_iff.mp hq
    rw [← records_at hs hr hlt, List.getElem?_take, if_pos (Nat.mod_lt _ (by decide)),
      List.getElem?_drop, Nat.div_add_mod]
  have hold : ∀ {stats : List UInt8}, stats.length = 32 * NPROC → ∀ i < 32 * rows.length,
      ((stats.drop (32 * (i / 32))).take 32).length = 32 ∧
        ((stats.drop (32 * (i / 32))).take 32)[i % 32]? = stats[i]? := by
    intro stats hs i hi
    refine ⟨by rw [List.length_take, List.length_drop, hs]; omega, ?_⟩
    rw [List.getElem?_take, if_pos (Nat.mod_lt _ (by decide)), List.getElem?_drop, Nat.div_add_mod]
  refine forall₂_congr fun i hi => ?_
  have hlt : i / 32 < rows.length := by omega
  have hq : rows[i / 32]? = some rows[i / 32] := List.getElem?_eq_getElem hlt
  have h1 := hold hs i (by omega)
  have h2 := hold hs' i (by omega)
  rw [hat hs i (by omega) _ hq, hat hs' i (by omega) _ hq, procStat_at _ _ h1.1 h2.1, h1.2]
  by_cases hset : 16 + nameSet (k.row rows[i / 32]) ≤ i % 32
  · rw [if_pos hset, procStat_at _ _ h2.1 h2.1, if_pos hset, h2.2]
    exact ⟨fun h _ _ _ => h, fun h => h _ hq hset⟩
  · rw [if_neg hset]
    refine ⟨fun _ q hq' h => ?_, fun _ => rfl⟩
    cases hq.symm.trans hq'
    exact absurd h hset

/-- The bytes of uninitialised variables that a call puts into user memory. -/
inductive Exposed (p : ProcId) (w : World) : Call → Local → Nat → Prop where
  | stat {fd : Int} {addr n : Nat} {i : Inode} {v : World} : statted p fd w = .ok (some i) v →
      n < w.user.stored (addr % 2 ^ 64) 32 → Unset n → Exposed p w (.fstat fd addr) .st n
  | name {addr n : Nat} {max : Int} {q : ProcId} : 0 < max → max ≤ NPROC →
      n < w.user.stored (addr % 2 ^ 64) (32 * (reported w.kernel max).length) →
      (reported w.kernel max)[n / 32]? = some q → 16 + nameSet (w.kernel.row q) ≤ n % 32 →
      Exposed p w (.getprocs addr max) .localStats n
  | test {addr : Nat} {max : Int} : 0 < max → max ≤ NPROC → w.user.accepts (addr % 2 ^ 64) = true →
      reported w.kernel max = [] → Exposed p w (.getprocs addr max) .test 0

theorem rawStat_at (s : Stack) {n : Nat} (h : n < 32) : (rawStat s)[n]? = some (s .st n) := by
  simp [rawStat, h]

theorem length_rawStat (s : Stack) : (rawStat s).length = 32 := by simp [rawStat]

theorem rawStats_at (s : Stack) {n : Nat} (h : n < 32 * NPROC) :
    (rawStats s)[n]? = some (s .localStats n) := by
  simp [rawStats, h]

/-- What fstat() leaves, by what it found. -/
theorem answer_fstat {fd : Int} {addr : Nat} {i : Inode} {v : World}
    (h : statted p fd w = .ok (some i) v) (s : Stack) :
    answer (sysFstat p fd addr) (w.withStack s) =
      let r := w.user.copyout (addr % 2 ^ 64) (stati i (rawStat s))
      .ok (if r.2 then 0 else -1) r.1 := by
  have hv := (inner_statted fd _ _ _ h).1
  rw [answer, sysFstat_eq, blind_statted, h]
  dsimp only [Out.view]
  rw [run_bind, copyout]
  simp only [World.withStack, hv]
  rfl

/-- Two copies of equally many bytes succeed together. -/
theorem copyout_answer_iff {us : UserSpace} {va : Nat} {as bs : List UInt8} {a b : Int}
    (hlen : as.length = bs.length) :
    (Out.ok (if (us.copyout va as).2 then a else b) (us.copyout va as).1 : Out Panic UserSpace Int) =
      .ok (if (us.copyout va bs).2 then a else b) (us.copyout va bs).1 ↔
      ∀ i < us.stored va as.length, as[i]? = bs[i]? := by
  have hboth : (us.copyout va as).2 = (us.copyout va bs).2 := by
    rw [us.copyout_eq, us.copyout_eq, hlen]
  rw [← us.copyout_inj hlen]
  refine ⟨fun h => ?_, fun h => by rw [h]⟩
  injection h with _ h
  exact Prod.ext h hboth

theorem fstat_exposes_iff (fd : Int) (addr : Nat) (s s' : Stack) :
    answer (sysFstat p fd addr) (w.withStack s) = answer (sysFstat p fd addr) (w.withStack s') ↔
      ∀ l n, Exposed p w (.fstat fd addr) l n → s l n = s' l n := by
  -- without an inode nothing is copied
  have hother : (∀ i v, statted p fd w ≠ .ok (some i) v) → ∀ o,
      (∀ s, answer (sysFstat p fd addr) (w.withStack s) = o) →
      (answer (sysFstat p fd addr) (w.withStack s) = answer (sysFstat p fd addr) (w.withStack s') ↔
        ∀ l n, Exposed p w (.fstat fd addr) l n → s l n = s' l n) := by
    intro hno o heq
    refine ⟨fun _ l n h => ?_, fun _ => (heq s).trans (heq s').symm⟩
    cases h with
    | stat h => exact absurd h (hno _ _)
  cases h : statted p fd w with
  | wait =>
    refine hother (by simp [h]) .wait fun s => ?_
    rw [answer, sysFstat_eq, blind_statted, h]
    rfl
  | fail e =>
    refine hother (by simp [h]) (.fail e) fun s => ?_
    rw [answer, sysFstat_eq, blind_statted, h]
    rfl
  | ok r v =>
    cases r with
    | none =>
      refine hother (by simp [h]) (.ok (-1) v.user) fun s => ?_
      rw [answer, sysFstat_eq, blind_statted, h]
      rfl
    | some i =>
      have hlen : ∀ s, (stati i (rawStat s)).length = 32 := fun s => length_stati i (length_rawStat s)
      rw [answer_fstat h, answer_fstat h, copyout_answer_iff ((hlen s).trans (hlen s').symm), hlen]
      have hle : w.user.stored (addr % 2 ^ 64) 32 ≤ 32 := UserSpace.stored_le _
      constructor
      · intro heq l n he
        cases he with
        | stat _ hn hu =>
          have hbyte := heq n hn
          rw [stati_at i (length_rawStat s) (length_rawStat s'), if_pos hu,
            stati_at i (length_rawStat s') (length_rawStat s'), if_pos hu, rawStat_at _ (by omega),
            rawStat_at _ (by omega)] at hbyte
          exact Option.some.inj hbyte
      · intro hagree n hn
        rw [stati_at i (length_rawStat s) (length_rawStat s')]
        split
        · rename_i hu
          rw [stati_at i (length_rawStat s') (length_rawStat s'), if_pos hu, rawStat_at _ (by omega),
            rawStat_at _ (by omega), hagree .st n (.stat h hn hu)]
        · rfl

theorem stored_pos {us : UserSpace} {va len : Nat} (h : us.accepts va = true) (hlen : 0 < len) :
    0 < us.stored va len := by
  cases len with
  | zero => exact absurd hlen (Nat.lt_irrefl 0)
  | succ len =>
    rw [UserSpace.stored, if_pos h]
    exact Nat.succ_pos _

/-- What getprocs() leaves when there is somebody to report: the records cover the test byte. -/
theorem answer_getprocs {addr : Nat} {max : Int} (hmax : 0 < max ∧ max ≤ NPROC)
    (h : w.user.accepts (addr % 2 ^ 64) = true) (hrows : reported w.kernel max ≠ []) (s : Stack) :
    answer (sysGetprocs addr max) (w.withStack s) =
      let r := w.user.copyout (addr % 2 ^ 64) (records w.kernel (rawStats s) (reported w.kernel max) 0)
      .ok (if r.2 then ((reported w.kernel max).length : Int) else -1) r.1 := by
  have hlen := length_records (k := w.kernel) (length_rawStats s) (reported_length_le w.kernel max)
  have hpos := List.length_pos_iff.mpr hrows
  have hstored : 0 < w.user.stored (addr % 2 ^ 64)
      (records w.kernel (rawStats s) (reported w.kernel max) 0).length := stored_pos h (by omega)
  have hover : [s .test 0].length ≤ ((records w.kernel (rawStats s) (reported w.kernel max) 0).take
      (w.user.stored (addr % 2 ^ 64)
        (records w.kernel (rawStats s) (reported w.kernel max) 0).length)).length := by
    rw [List.length_take, List.length_singleton]
    omega
  rw [answer, sysGetprocs_eq (w := w.withStack s) hmax h, w.user.copyout_eq]
  simp only [Out.view, World.put, World.withStack, reportBytes, w.user.putBytes_over _ hover,
    decide_eq_true_eq]
  rfl

/-- With nobody to report, the test byte stays. -/
theorem answer_getprocs_nil {addr : Nat} {max : Int} (hmax : 0 < max ∧ max ≤ NPROC)
    (h : w.user.accepts (addr % 2 ^ 64) = true) (hrows : reported w.kernel max = []) (s : Stack) :
    answer (sysGetprocs addr max) (w.withStack s) =
      .ok 0 (w.user.putBytes (addr % 2 ^ 64) [s .test 0]) := by
  rw [answer, sysGetprocs_eq (w := w.withStack s) hmax h]
  simp [Out.view, World.put, World.withStack, reportBytes, hrows, records, UserSpace.stored,
    UserSpace.putBytes_nil]

theorem getprocs_exposes_iff (addr : Nat) (max : Int) (s s' : Stack) :
    answer (sysGetprocs addr max) (w.withStack s) = answer (sysGetprocs addr max) (w.withStack s') ↔
      ∀ l n, Exposed p w (.getprocs addr max) l n → s l n = s' l n := by
  by_cases hmax : 0 < max ∧ max ≤ NPROC
  · cases hacc : w.user.accepts (addr % 2 ^ 64) with
    | false =>
      have hans : ∀ s, answer (sysGetprocs addr max) (w.withStack s) = .ok (-1) w.user := fun s => by
        rw [answer, sysGetprocs_refused (w := w.withStack s) hacc]
        rfl
      refine ⟨fun _ l n h => ?_, fun _ => (hans s).trans (hans s').symm⟩
      cases h with
      | name _ _ hn _ _ =>
        have hfirst := UserSpace.accepts_of_stored (Nat.lt_of_le_of_lt (Nat.zero_le n) hn)
        rw [Nat.add_zero, hacc] at hfirst
        cases hfirst
      | test _ _ h _ =>
        rw [hacc] at h
        cases h
    | true =>
      by_cases hrows : reported w.kernel max = []
      · have hinj := w.user.putBytes_inj [s .test 0] [s' .test 0] rfl
          (show ∀ i < 1, w.user.accepts (addr % 2 ^ 64 + i) = true by simpa using hacc)
        rw [answer_getprocs_nil hmax hacc hrows, answer_getprocs_nil hmax hacc hrows]
        simp only [Out.ok.injEq, true_and, hinj, List.cons.injEq, and_true]
        refine ⟨fun heq l n h => ?_, fun h => h _ _ (.test hmax.1 hmax.2 hacc hrows)⟩
        cases h with
        | name _ _ _ hq _ => simp [hrows] at hq
        | test => exact heq
      · have hlen := fun s => length_records (k := w.kernel) (length_rawStats s)
          (reported_length_le w.kernel max)
        have hle := reported_length_le w.kernel max
        rw [answer_getprocs hmax hacc hrows, answer_getprocs hmax hacc hrows,
          copyout_answer_iff ((hlen s).trans (hlen s').symm), hlen,
          records_eq_iff w.kernel hle (length_rawStats s) (length_rawStats s') (UserSpace.stored_le _)]
        have hbound : ∀ n < w.user.stored (addr % 2 ^ 64) (32 * (reported w.kernel max).length),
            n < 32 * NPROC := fun n hn =>
          Nat.lt_of_lt_of_le hn (Nat.le_trans (UserSpace.stored_le _) (Nat.mul_le_mul_left 32 hle))
        constructor
        · intro heq l n h
          cases h with
          | name _ _ hn hq hset =>
            have hbyte := heq n hn _ hq hset
            rw [rawStats_at _ (hbound n hn), rawStats_at _ (hbound n hn)] at hbyte
            exact Option.some.inj hbyte
          | test _ _ _ h => exact absurd h hrows
        · intro hagree n hn q hq hset
          rw [rawStats_at _ (hbound n hn), rawStats_at _ (hbound n hn),
            hagree .localStats n (.name hmax.1 hmax.2 hn hq hset)]
  · have hans : ∀ s, answer (sysGetprocs addr max) (w.withStack s) = .ok (-1) w.user := fun s => by
      rw [answer, sysGetprocs, if_pos (by omega)]
      rfl
    refine ⟨fun _ l n h => ?_, fun _ => (hans s).trans (hans s').symm⟩
    cases h with
    | name h1 h2 _ _ _ => exact absurd ⟨h1, h2⟩ hmax
    | test h1 h2 _ _ => exact absurd ⟨h1, h2⟩ hmax

/-- In two runs that differ in the stack alone a call gives the same answer and leaves the same
user memory if and only if the stacks agree on the bytes that it exposes. -/
theorem call_exposes_iff (p : ProcId) (w : World) (c : Call) (s s' : Stack) :
    answer (c.prog p) (w.withStack s) = answer (c.prog p) (w.withStack s') ↔
      ∀ l n, Exposed p w c l n → s l n = s' l n := by
  have hblind : ∀ {m : CallM Int}, Blind m → answer m (w.withStack s) = answer m (w.withStack s') :=
    fun h => (h.answer_eq s).trans (h.answer_eq s').symm
  cases c with
  | fstat fd addr => exact fstat_exposes_iff fd addr s s'
  | getprocs addr max => exact getprocs_exposes_iff addr max s s'
  | wait addr => exact ⟨fun _ => nofun, fun _ => hblind (blind_wait addr)⟩
  | pipe fdarray => exact ⟨fun _ => nofun, fun _ => hblind (blind_sysPipe fdarray)⟩
  | read fd addr n => exact ⟨fun _ => nofun, fun _ => hblind (blind_sysRead fd addr n)⟩

/-- `lone` with descriptor 0 open on inode 2, which is in the inode table. -/
def loneOpen : World :=
  let fs := lone.kernel.fs
  let node : Inode := ⟨ROOTDEV, 2, 1, none, true, ⟨T_FILE, 0, 0, 1, 5, .replicate (NDIRECT + 1) 0⟩⟩
  let mem := { fs.mem with
    inode := setAt fs.mem.inode 1 node
    file := setAt fs.mem.file 0 ⟨.inode, 1, true, false, 1, 0, 0⟩
    proc := setAt fs.mem.proc 0 (some ⟨setAt (fun _ => none) 0 (some 0), some 0⟩) }
  { lone with kernel := { lone.kernel with fs := { fs with mem := mem } } }

/-- The byte at `a` after a call that returned. -/
def byteAfter (m : CallM Int) (w : World) (a : Nat) : Option (Int × UInt8) :=
  match m w with
  | .ok r w' => some (r, w'.user.byte a)
  | _ => none

/-- fstat() returns 0 and shows the caller the stack in st.mode, and getprocs() shows it behind
the name of init. -/
theorem stack_bytes_reach_user :
    byteAfter (sysFstat 0 0 4096) (loneOpen.withStack (fun _ _ => 1)) 4120 = some (0, 1) ∧
    byteAfter (sysFstat 0 0 4096) (loneOpen.withStack (fun _ _ => 2)) 4120 = some (0, 2) ∧
    byteAfter (sysGetprocs 4096 64) (lone.withStack (fun _ _ => 1)) 4127 = some (1, 1) ∧
    byteAfter (sysGetprocs 4096 64) (lone.withStack (fun _ _ => 2)) 4127 = some (1, 2) := by
  decide +kernel

end Xv6.UserCalls
