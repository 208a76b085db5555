import Xv6.Proofs.ProcTable

namespace Xv6.Sched
open Machine

variable {t : Tid} {p : ProcId} {c : CpuId} {s u : Kern}

/-- Whoever is marked as killed was named by kill() or by setkilled(), and a free slot is
not marked and has no pid. -/
structure Blamed (s : Kern) : Prop where
  cause : ∀ q, (s.proc q).killed = true →
    (s.proc q).blame = some (.kill (s.proc q).pid) ∨ (s.proc q).blame = some .setkilled
  idle : ∀ q, (s.proc q).state = .unused → (s.proc q).killed = false ∧ (s.proc q).pid = 0

/-- No process is marked, named anew or freed. -/
def Quiet (s u : Kern) : Prop :=
  ∀ q, (u.proc q).killed = (s.proc q).killed ∧ (u.proc q).pid = (s.proc q).pid ∧
    (u.proc q).blame = (s.proc q).blame ∧
    ((u.proc q).state = .unused → (s.proc q).state = .unused)

theorem Blamed.quiet (h : Blamed s) (hq : Quiet s u) : Blamed u where
  cause q hk := by
    obtain ⟨h1, h2, h3, -⟩ := hq q
    rw [h2, h3]
    exact h.cause q (h1 ▸ hk)
  idle q hs := by
    obtain ⟨h1, h2, -, h4⟩ := hq q
    rw [h1, h2]
    exact h.idle q (h4 hs)

/-- One process is changed, and the rules hold of it. -/
theorem Blamed.set (h : Blamed s) {q : ProcId} (hu : ∀ r, r ≠ q → u.proc r = s.proc r)
    (hc : (u.proc q).killed = true →
      (u.proc q).blame = some (.kill (u.proc q).pid) ∨ (u.proc q).blame = some .setkilled)
    (hi : (u.proc q).state = .unused → (u.proc q).killed = false ∧ (u.proc q).pid = 0) :
    Blamed u where
  cause r := by
    by_cases hr : r = q
    · exact hr ▸ hc
    · rw [hu r hr]
      exact h.cause r
  idle r := by
    by_cases hr : r = q
    · exact hr ▸ hi
    · rw [hu r hr]
      exact h.idle r

theorem Blamed.freeproc (h : Blamed s) (q : ProcId) : Blamed (s.freeproc q) :=
  h.set (q := q) (fun r hr => by simp [Kern.freeproc, hr]) (by simp [Kern.freeproc])
    (by simp [Kern.freeproc])

theorem Blamed.forkAt (h : Blamed s) (mem : Memory) (q : ProcId) :
    Blamed (s.forkAt mem p q).2 := by
  have hfree : ∀ v : Kern, (∀ r, r ≠ q → v.proc r = s.proc r) → Blamed (v.freeproc q) :=
    fun v hv => h.set (q := q) (fun r hr => by simp [Kern.freeproc, hr, hv r hr])
      (by simp [Kern.freeproc]) (by simp [Kern.freeproc])
  unfold Kern.forkAt
  by_cases hs : (s.proc q).state = .unused
  · simp only [hs, if_true]
    have hk := (h.idle q hs).1
    split
    · exact hfree _ (fun r hr => by simp [hr])
    · split
      · exact hfree _ (fun r hr => by simp [hr])
      · split
        · exact hfree _ (fun r hr => by simp [hr])
        · exact h.set (q := q) (fun r hr => by simp [hr]) (by simp [hk]) (by simp)
  · simpa only [hs, if_false] using h

/-- kill() of a pid that is not 0 marks a process and not a free slot. -/
theorem Blamed.killed (h : Blamed s) {pid : Int32} (hpid : pid ≠ 0) {q : ProcId}
    (hq : (s.proc q).pid = pid) :
    Blamed (s.setProc q (fun x => { x with
      killed := true
      state := if x.state = .sleeping then .runnable else x.state
      blame := some (.kill pid) })) := by
  have hused : (s.proc q).state ≠ .unused := fun hs => hpid (hq ▸ (h.idle q hs).2)
  refine h.set (q := q) (fun r hr => by simp [hr]) (by simp [hq]) ?_
  simp only [Kern.setProc_proc, if_true]
  split
  · simp
  · exact fun hs => (hused hs).elim

/-- The thread's program keeps the rules, whatever the others do in between. -/
def Tame (t : Tid) : SchedM α → Prop
  | .ret _ => True
  | .act g k => ∀ c s, Inv s → Blamed s → s.thread c = t →
      ∀ b x, g (c, s) = .ok b x → Blamed x.2 ∧ Tame t (k b)

theorem Tame.bind {m : SchedM α} {f : α → SchedM β} (hm : Tame t m) (hf : ∀ a, Tame t (f a)) :
    Tame t (m >>= f) := by
  induction m with
  | ret a => exact hf a
  | act g k ih =>
    intro c s hi hb hc b x hg
    obtain ⟨h1, h2⟩ := hm c s hi hb hc b x hg
    exact ⟨h1, ih b h2⟩

theorem tame_onCpu {f : CpuId → Kern → Out Panic Kern β}
    (h : ∀ c s, Inv s → Blamed s → s.thread c = t → ∀ b u, f c s = .ok b u → Blamed u) :
    Tame t (onCpu f) := by
  intro c s hi hb hc b x hg
  refine ⟨?_, trivial⟩
  simp only at hg
  cases hf : f c s with
  | ok b' u =>
    rw [hf] at hg
    cases hg
    exact h c s hi hb hc b u hf
  | wait => rw [hf] at hg; cases hg
  | fail e => rw [hf] at hg; cases hg

theorem tame_quiet {f : CpuId → Kern → Out Panic Kern β}
    (h : ∀ c s b u, f c s = .ok b u → Quiet s u) : Tame t (onCpu f) :=
  tame_onCpu fun c s _ hb _ b u hf => hb.quiet (h c s b u hf)

theorem tame_withLock {f : CpuId → Kern → β × Kern}
    (h : ∀ c s, Inv s → Blamed s → s.thread c = t → s.lock (.proc p) = none → Blamed (f c s).2) :
    Tame t (withLock p f) := by
  refine tame_onCpu fun c s hi hb hc b u hf => ?_
  cases hl : s.lock (.proc p) with
  | none =>
    simp only [hl] at hf
    cases hf
    exact h c s hi hb hc hl
  | some d =>
    simp only [hl] at hf
    split at hf <;> cases hf

theorem tame_myproc : Tame t myproc := by
  refine tame_quiet fun c s b u hf => ?_
  split at hf <;> cases hf
  exact fun q => ⟨rfl, rfl, rfl, id⟩

theorem tame_acquire (lk : Lock) : Tame t (acquire lk) := by
  refine tame_quiet fun c s b u hf => ?_
  split at hf
  · cases hf
    exact fun q => ⟨rfl, rfl, rfl, id⟩
  · split at hf <;> cases hf

theorem tame_release (lk : Lock) : Tame t (release lk) := by
  refine tame_quiet fun c s b u hf => ?_
  split at hf
  · cases hf
  · split at hf <;> cases hf
    exact fun q => ⟨rfl, rfl, rfl, id⟩

theorem tame_lockInto {give : Option Lock} {f : Kern → Kern} (h : ∀ s, Quiet s (f s)) :
    Tame t (lockInto p give f) := by
  refine tame_quiet fun c s b u hf => ?_
  split at hf
  · cases give with
    | none =>
      cases hf
      exact h s
    | some lk =>
      simp only at hf
      split at hf <;> cases hf
      exact h s
  · split at hf <;> cases hf

theorem tame_unlockFrom {f : Proc → Proc} (h : ∀ x, (f x).killed = x.killed ∧ (f x).pid = x.pid ∧
    (f x).blame = x.blame ∧ (f x).state = x.state) : Tame t (unlockFrom p f) := by
  refine tame_quiet fun c s b u hf => ?_
  split at hf
  · cases hf
  · split at hf <;> cases hf
    intro q
    obtain ⟨h1, h2, h3, h4⟩ := h (s.proc p)
    by_cases hq : q = p
    · subst hq
      simp [h1, h2, h3, h4]
    · simp [hq]

theorem tame_sched : Tame t sched := by
  refine tame_quiet fun c s b u hf => ?_
  split at hf
  · cases hf
  · split at hf
    · cases hf
    · split at hf
      · cases hf
      · split at hf <;> cases hf
        intro q
        simp only [Kern.setCpu_proc, Kern.setProc_proc]
        split <;> simp_all

/-- A process gets another state, but is not freed. -/
theorem quiet_setState {q : ProcId} {f : Proc → Proc} (h : ∀ x, (f x).killed = x.killed ∧
    (f x).pid = x.pid ∧ (f x).blame = x.blame ∧ ((f x).state = .unused → x.state = .unused)) :
    Quiet s (s.setProc q f) := by
  intro r
  by_cases hr : r = q
  · subst hr
    simpa using h (s.proc r)
  · simp [hr]

theorem tame_yield : Tame t yield :=
  tame_myproc.bind fun _ => (tame_lockInto fun _ => quiet_setState (by simp)).bind fun _ =>
    tame_sched.bind fun _ => tame_unlockFrom (by simp)

theorem tame_sleep (ch : Chan) (lk : Lock) : Tame t (sleep ch lk) :=
  tame_myproc.bind fun _ => (tame_lockInto fun _ => quiet_setState (by simp)).bind fun _ =>
    tame_sched.bind fun _ => (tame_unlockFrom (by simp)).bind fun _ => tame_acquire lk

theorem tame_wakeupOne (ch : Option Chan) (p : ProcId) : Tame t (wakeupOne ch p) := by
  refine tame_quiet fun c s b u hf => ?_
  split at hf
  · cases hf
    exact fun q => ⟨rfl, rfl, rfl, id⟩
  · split at hf
    · split at hf <;> cases hf
      · exact quiet_setState (by simp)
      · exact fun q => ⟨rfl, rfl, rfl, id⟩
    · split at hf <;> cases hf

theorem tame_wakeup (ch : Option Chan) : Tame t (wakeup ch) := by
  show Tame t (wakeupFrom ch slots)
  induction slots with
  | nil => trivial
  | cons p ps ih => exact (tame_wakeupOne ch p).bind fun _ => ih

theorem tame_kill {pid : Int32} (hpid : pid ≠ 0) : Tame t (kill pid) := by
  show Tame t (killFrom pid slots)
  induction slots with
  | nil => trivial
  | cons p ps ih =>
    refine (tame_withLock fun c s _ hb _ _ => ?_).bind fun b => ?_
    · split
      · rename_i hq
        exact hb.killed hpid hq
      · exact hb
    · cases b with
      | true => trivial
      | false => exact ih

/-- setkilled() of the caller: it is running. -/
theorem tame_setkilled : Tame (.proc p) (setkilled p) := by
  refine tame_withLock fun c s hi hb hc hl => ?_
  have hon := hi.placed.stack c p (thread_proc.mp hc)
  have hrun := (hi.placed.on p c hl hon).1
  exact hb.set (q := p) (fun r hr => by simp [hr]) (by simp) (by simp [hrun])

theorem tame_allocproc (mem : Memory) (p : ProcId) (nps : List ProcId) :
    Tame t (allocproc mem p nps) := by
  induction nps with
  | nil => trivial
  | cons np nps ih =>
    refine (tame_withLock fun c s _ hb _ _ => hb.forkAt mem np).bind fun r => ?_
    cases r with
    | inUse => exact ih
    | failed => trivial
    | child pid => trivial

theorem tame_fork (mem : Memory) : Tame t (fork mem) := by
  refine tame_myproc.bind fun p => (tame_allocproc mem p slots).bind fun r => ?_
  cases r with
  | none => trivial
  | some x =>
    refine (tame_acquire _).bind fun _ => Tame.bind ?_ fun _ => (tame_release _).bind fun _ =>
      Tame.bind (tame_withLock fun c s _ hb _ _ => ?_) fun _ => trivial
    · refine tame_quiet fun c s b u hf => ?_
      cases hf
      exact quiet_setState (by simp)
    · exact hb.quiet (quiet_setState
        (f := fun x => { x with state := .runnable, maker := none }) (by simp))

theorem tame_reparent (p : ProcId) : Tame t (reparent p) := by
  show Tame t (reparentFrom p slots)
  induction slots with
  | nil => trivial
  | cons q qs ih =>
    refine Tame.bind ?_ fun b => ?_
    · refine tame_quiet fun c s b u hf => ?_
      split at hf <;> cases hf
      · exact quiet_setState (by simp)
      · exact fun q => ⟨rfl, rfl, rfl, id⟩
    · cases b with
      | true => exact (tame_wakeup _).bind fun _ => ih
      | false => exact ih

theorem tame_sleepOn (n k : Nat) : Tame t (sleepOn n k) :=
  (tame_acquire _).bind fun _ => (tame_sleep _ _).bind fun _ => tame_release _

theorem tame_sleeps (xs : List (Nat × Nat)) : Tame t (sleeps xs) := by
  induction xs with
  | nil => trivial
  | cons x xs ih => exact (tame_sleepOn _ _).bind fun _ => ih

theorem tame_panic (e : Panic) : Tame t (panic e : SchedM α) :=
  tame_quiet fun _ _ _ _ hf => by cases hf

theorem tame_exit (status : Int32) (xs : List (Nat × Nat)) :
    Tame t (exit status xs : SchedM α) := by
  refine tame_myproc.bind fun p => ?_
  split
  · exact tame_panic _
  · refine (tame_sleeps xs).bind fun _ => (tame_acquire _).bind fun _ =>
      (tame_reparent p).bind fun _ => Tame.bind ?_ fun _ => (tame_wakeup _).bind fun _ =>
        (tame_lockInto fun s => ?_).bind fun _ => tame_sched.bind fun _ => tame_panic _
    · refine tame_quiet fun c s b u hf => ?_
      cases hf
      exact fun q => ⟨rfl, rfl, rfl, id⟩
    · exact quiet_setState (s := s) (q := p)
        (f := fun x => { x with xstate := status, state := .zombie }) (by simp)

theorem tame_waitOne (bad : Bool) (p q : ProcId) : Tame t (waitOne bad p q) := by
  refine tame_onCpu fun c s _ hb _ b u hf => ?_
  split at hf
  · split at hf
    · split at hf <;> cases hf
    · split at hf
      · split at hf <;> cases hf
        · exact hb
        · exact (hb.freeproc q).quiet fun r => ⟨rfl, rfl, rfl, id⟩
      · cases hf
        exact hb
  · cases hf
    exact hb

theorem tame_waitFrom (bad : Bool) (p : ProcId) (qs : List ProcId) (kids : Bool) :
    Tame t (waitFrom bad p qs kids) := by
  induction qs generalizing kids with
  | nil => trivial
  | cons q qs ih =>
    refine (tame_waitOne bad p q).bind fun r => ?_
    cases r with
    | notChild => exact ih kids
    | alive => exact ih true
    | badAddress => trivial
    | reaped pid => trivial

theorem tame_killed (p : ProcId) : Tame t (killed p) := tame_withLock fun _ _ _ hb _ _ => hb

theorem tame_waitLoop (bad : Bool) : Tame t (waitLoop bad) := by
  refine tame_myproc.bind fun p => (tame_waitFrom bad p slots false).bind fun r => ?_
  cases r with
  | inl v => exact (tame_release _).bind fun _ => trivial
  | inr kids =>
    dsimp only
    split
    · exact (tame_release _).bind fun _ => trivial
    · refine (tame_killed p).bind fun b => ?_
      split
      · exact (tame_release _).bind fun _ => trivial
      · exact (tame_sleep _ _).bind fun _ => trivial

theorem tame_devintr (n k : Nat) : Tame t (devintr n k) :=
  (tame_acquire _).bind fun _ => (tame_wakeup _).bind fun _ => tame_release _

theorem tame_pick (p : ProcId) : Tame t (pick p) := by
  refine tame_quiet fun c s b u hf => ?_
  split at hf
  · split at hf <;> cases hf
  · split at hf <;> cases hf
    · exact quiet_setState (s := s) (f := fun x => { x with state := .running }) (by simp)
    · exact fun q => ⟨rfl, rfl, rfl, id⟩

theorem tame_putBack (p : ProcId) : Tame t (putBack p) := by
  refine tame_quiet fun c s b u hf => ?_
  split at hf
  · cases hf
  · split at hf <;> cases hf
    exact fun q => ⟨rfl, rfl, rfl, id⟩

theorem tame_swtch (p : ProcId) : Tame t (swtch p) := by
  refine tame_quiet fun c s b u hf => ?_
  cases hf
  exact fun q => ⟨rfl, rfl, rfl, id⟩

theorem tame_scheduler : Tame t scheduler := by
  refine Tame.bind ?_ fun _ => trivial
  induction slots with
  | nil => trivial
  | cons p ps ih =>
    refine (tame_pick p).bind fun b => ?_
    cases b with
    | true => exact (tame_swtch p).bind fun _ => (tame_putBack p).bind fun _ => ih
    | false => exact ih

theorem tame_forkret : Tame t forkret :=
  tame_myproc.bind fun _ => (tame_unlockFrom (by simp)).bind fun _ => trivial

/-- Every call but kill(0). -/
def Call.Named : Call → Prop
  | .kill pid => pid ≠ 0
  | _ => True

theorem tame_call {x : Call} (hx : x.Named) : Tame (.proc p) x.prog := by
  cases x with
  | fork mem => exact (tame_fork mem).bind fun _ => trivial
  | exit status xs => exact tame_exit status xs
  | wait bad => exact (tame_acquire _).bind fun _ => tame_waitLoop bad
  | kill pid => exact (tame_kill hx).bind fun _ => trivial
  | setkilled =>
    intro c s hi hb hc b x hg
    have hon := hi.placed.stack c p (thread_proc.mp hc)
    simp only [hon] at hg
    cases hg
    exact ⟨hb, tame_setkilled.bind fun _ => trivial⟩
  | sleep n k => exact (tame_sleepOn n k).bind fun _ => trivial
  | wakeup n k => exact (tame_devintr n k).bind fun _ => trivial

/-- The rules hold, and every thread's program keeps them. -/
structure Machine.Tamed (m : Machine) : Prop where
  blamed : Blamed m.kern
  tame : ∀ t, Tame t (m.rest t)

def Action.Named : Action → Prop
  | .call _ x => x.Named
  | _ => True

namespace Machine
variable {m m' : Machine}

theorem Tamed.setRest (h : m.Tamed) {r : SchedM Next} (hr : Tame t r) :
    Tamed { m with rest := setAt m.rest t r } where
  blamed := h.blamed
  tame t' := by
    show Tame t' (setAt m.rest t r t')
    rw [setAt_apply]
    split
    · subst t'
      exact hr
    · exact h.tame t'

theorem tame_load {rest : Tid → SchedM Next} (h : ∀ t, Tame t (rest t)) (t : Tid) :
    Tame t (load rest s u c t) := by
  by_cases hl : Loads s u c t
  · rw [load_of_loads hl]
    exact tame_forkret
  · rw [load_of_not hl]
    exact h t

theorem tame_onward {a : Next} {r : SchedM Next} (hr : onward t a = some r) : Tame t r := by
  cases t with
  | sched d =>
    cases hr
    exact tame_scheduler
  | proc p =>
    cases a with
    | user v => cases hr
    | again bad =>
      cases hr
      exact tame_waitLoop bad

theorem Tamed.run (h : m.Tamed) (hi : Inv m.kern) (hs : m.run c = some m') : m'.Tamed := by
  unfold Machine.run at hs
  have ht := h.tame (m.kern.thread c)
  cases hrest : m.rest (m.kern.thread c) with
  | ret a =>
    simp only [hrest, Option.map_eq_some_iff] at hs
    obtain ⟨r, hr, rfl⟩ := hs
    exact h.setRest (tame_onward hr)
  | act g k =>
    rw [hrest] at ht
    simp only [hrest] at hs
    cases hg : g (c, m.kern) with
    | wait => simp [hg] at hs
    | fail e =>
      simp only [hg, Option.some.injEq] at hs
      subst hs
      exact ⟨h.blamed, h.tame⟩
    | ok b x =>
      simp only [hg, Option.some.injEq] at hs
      subst hs
      obtain ⟨hb, hk⟩ := ht c m.kern hi h.blamed rfl b x hg
      exact ⟨hb, tame_load (h.setRest hk).tame⟩

theorem Tamed.interrupt (h : m.Tamed) {handler : SchedM Unit}
    (hh : Tame (m.kern.thread c) handler) (hs : m.interrupt c handler = some m') : m'.Tamed := by
  simp only [Machine.interrupt] at hs
  split at hs <;> cases hs
  exact h.setRest (hh.bind fun _ => h.tame _)

theorem Tamed.step (h : m.Tamed) (hi : Inv m.kern) {a : Action} (ha : a.Named)
    (hs : m.step a = some m') : m'.Tamed := by
  simp only [Machine.step] at hs
  split at hs
  · cases a with
    | run c => exact h.run hi hs
    | call c x =>
      simp only [Machine.act, Machine.call] at hs
      split at hs
      · cases hs
      · split at hs <;> cases hs
        exact h.setRest (tame_call ha)
    | timer c =>
      simp only [Machine.act] at hs
      split at hs
      · cases hs
      · exact h.interrupt tame_yield hs
    | device c n k => exact h.interrupt (tame_devintr n k) hs
  · cases hs

theorem boot_tamed : boot.Tamed where
  blamed := by
    refine ⟨fun q hk => ?_, fun q hs => ?_⟩
    · simp [boot_proc] at hk
    · by_cases hq : q = initproc
      · simp [boot_proc, hq] at hs
      · simp [boot_proc, hq]
  tame t := by
    cases t with
    | sched d => exact tame_scheduler
    | proc p => trivial

/-- A run in which kill(0) is not called. -/
def NamedRun (as : List Action) (m : Machine) : Prop :=
  runAll step boot as = some m ∧ ∀ a ∈ as, a.Named

theorem NamedRun.tamed {as : List Action} (h : NamedRun as m) : m.Ok ∧ m.Tamed :=
  runAll_invariant h.1 h.2 (p := fun m => m.Ok ∧ m.Tamed) ⟨boot_ok, boot_tamed⟩
    fun _ _ _ hm ha hs => ⟨hm.1.step hs, hm.2.step hm.1.inv ha hs⟩

end Machine

/-- A new process is marked only if its slot was. -/
theorem Move.born {q : ProcId} (hm : Move t s u) (hs : (s.proc q).state = .unused)
    (hu : (u.proc q).state ≠ .unused) : (u.proc q).killed = (s.proc q).killed := by
  cases hm <;> grind [Kern.freeproc, Poked]

/-- Whatever others do between its steps, as long as each step finds a state with `p`, the
program leaves every state as it finds it and returns `r`. -/
def Answers (p : Kern → Prop) (r : α) : SchedM α → Prop
  | .ret a => a = r
  | .act g k => ∀ c s, p s → ∀ b x, g (c, s) = .ok b x → x = (c, s) ∧ Answers p r (k b)

theorem answers_kill {p : Kern → Prop} {pid : Int32}
    (hp : ∀ s, p s → ∀ q, (s.proc q).pid ≠ pid) : Answers p (-1) (kill pid) := by
  show Answers p (-1) (killFrom pid slots)
  induction slots with
  | nil => rfl
  | cons q qs ih =>
    intro c s hs b x hg
    have hne := hp s hs q
    cases hl : s.lock (.proc q) with
    | none =>
      simp only [hl, hne, if_false] at hg
      cases hg
      exact ⟨rfl, ih⟩
    | some d =>
      simp only [hl] at hg
      by_cases hd : d = c
      · simp [hd] at hg
      · simp [hd] at hg

/-- In every run without kill(0): a marked process was named by kill() with its pid, or by
setkilled(), in its own life; kill() of a pid that no process has returns -1 and does nothing;
and a new process is not marked. -/
theorem kill_hits_its_target {as : List Action} {m : Machine} (h : NamedRun as m) :
    (∀ q, (m.kern.proc q).killed = true → (m.kern.proc q).state ≠ .unused ∧
      ((m.kern.proc q).blame = some (.kill (m.kern.proc q).pid) ∨
        (m.kern.proc q).blame = some .setkilled)) ∧
    (∀ pid, pid ≠ 0 → Answers (fun s => (∃ as m, NamedRun as m ∧ m.kern = s) ∧
      ∀ q, (s.proc q).state ≠ .unused → (s.proc q).pid ≠ pid) (-1) (kill pid)) ∧
    ∀ a m' q, a.Named → m.step a = some m' → (m.kern.proc q).state = .unused →
      (m'.kern.proc q).state ≠ .unused → (m'.kern.proc q).killed = false := by
  obtain ⟨hok, ht⟩ := h.tamed
  refine ⟨fun q hk => ⟨fun hs => ?_, ht.blamed.cause q hk⟩, fun pid hpid => ?_,
    fun a m' q _ hs h0 h1 => ?_⟩
  · simp [(ht.blamed.idle q hs).1] at hk
  · refine answers_kill fun s hs q => ?_
    obtain ⟨⟨bs, m', hrun, rfl⟩, hq⟩ := hs
    by_cases hu : (m'.kern.proc q).state = .unused
    · rw [(hrun.tamed.2.blamed.idle q hu).2]
      exact hpid.symm
    · exact hq q hu
  · have hfree := (ht.blamed.idle q h0).1
    rcases hok.moves hs with he | ⟨t, hm⟩
    · rw [he] at h1
      exact (h1 h0).elim
    · rw [hm.born h0 h1, hfree]

/-- The first process comes up and kills itself. -/
def killSelf : List Action := List.replicate 4 (.run 0) ++ [.call 0 (.kill 1), .run 0]

theorem killSelf_named : ∀ a ∈ killSelf, a.Named := by
  simp [killSelf, Action.Named, Call.Named]

set_option maxRecDepth 100000 in
theorem kill_hits_its_target_self : ∃ m, NamedRun killSelf m ∧
    (m.kern.proc initproc).killed = true ∧
    ((m.kern.proc initproc).blame = some (.kill (m.kern.proc initproc).pid) ∨
      (m.kern.proc initproc).blame = some .setkilled) := by
  have hrun : (runAll step boot killSelf).any (fun m => (m.kern.proc initproc).killed) = true := by
    decide +kernel
  obtain ⟨m, hm, hk⟩ := (Option.any_eq_true _ _).mp hrun
  have hn : NamedRun killSelf m := ⟨hm, killSelf_named⟩
  exact ⟨m, hn, hk, ((kill_hits_its_target hn).1 initproc hk).2⟩

/-- The first process comes up, calls kill(0) and forks. -/
def killZeroAndFork : List Action :=
  List.replicate 4 (.run 0) ++ [.call 0 (.kill 0), .run 0, .run 0] ++
    [.call 0 (.fork ⟨true, true, true⟩)] ++ List.replicate 7 (.run 0)

set_option maxRecDepth 100000 in
/-- kill(0) finds a free slot, marks it and returns 0 though no process has pid 0, and the
next child starts out killed. -/
theorem kill_zero_marks_the_unborn :
    (∀ q, (boot.kern.proc q).state ≠ .unused → (boot.kern.proc q).pid ≠ 0) ∧
    (∃ s, (kill 0).exec (0, boot.kern) = .ok 0 (0, s) ∧ (s.proc 1).killed = true) ∧
    ∃ m, Reaches step boot m ∧ (m.kern.proc 1).state = .runnable ∧ (m.kern.proc 1).pid = 2 ∧
      (m.kern.proc 1).killed = true ∧ (m.kern.proc 1).blame = none := by
  refine ⟨by decide +kernel, ⟨_, rfl, rfl⟩, ?_⟩
  have hrun : (runAll step boot killZeroAndFork).any (fun m =>
      decide ((m.kern.proc 1).state = .runnable ∧ (m.kern.proc 1).pid = 2 ∧
        (m.kern.proc 1).killed = true ∧ (m.kern.proc 1).blame = none)) = true := by
    decide +kernel
  obtain ⟨m, hm, hp⟩ := Reaches.of_any hrun
  exact ⟨m, hm, of_decide_eq_true hp⟩

end Xv6.Sched
