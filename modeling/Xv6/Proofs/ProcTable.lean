import Xv6.Lib.Run
import Xv6.Proofs.SchedExit

namespace Xv6.Sched

variable {p : ProcId} {c : CpuId} {s u : Kern}

theorem Calm.poked {t : Tid} (h : Calm t s) (hk : Poked s u) : Calm t u := by
  obtain ⟨c, hc, hn, hs⟩ := h
  obtain ⟨he, -⟩ := hk.cpu
  exact ⟨c, by rw [← hc, Kern.thread, he, Kern.thread], by rw [he]; exact hn, by rw [he]; exact hs⟩

theorem safe_killFrom {pid : Int32} {qs : List ProcId} (hs : Calm (.proc p) s)
    (hr : Settled p s) :
    team.Safe (.proc p) (killFrom pid qs) (fun _ u => Calm (.proc p) u ∧ Settled p u) s := by
  induction qs generalizing s with
  | nil => exact ⟨hs, hr⟩
  | cons q qs ih =>
    have hone : team.Safe (.proc p) (killOne pid q)
        (fun _ u => Calm (.proc p) u ∧ Settled p u) s := by
      refine safe_withLock ((calm_stable _).and (settled_stable p)) ⟨hs, hr⟩
        (fun c s hi hp hc => hp.1.lock_ne hi hc _) ?_
      rintro c s hi ⟨hs, hr⟩ hc hl
      by_cases hp : (s.proc q).pid = pid
      · rw [if_pos hp]
        have hk : Poked s (s.setProc q (fun x => { x with
            killed := true
            state := if x.state = .sleeping then .runnable else x.state
            blame := some (.kill pid) })) := by
          refine ⟨q, _, hl, rfl, ?_, rfl⟩
          by_cases hz : (s.proc q).state = .sleeping
          · exact .inr ⟨hz, if_pos hz⟩
          · exact .inl (if_neg hz)
        exact ⟨.inr (.poke hk), hs.poked hk, hr.poked hk⟩
      · rw [if_neg hp]
        exact ⟨.inl rfl, hs, hr⟩
    refine hone.seq ?_
    rintro (_ | _) u ⟨hu, hr⟩
    · exact ih hu hr
    · exact ⟨hu, hr⟩

theorem safe_setkilled (hs : Calm (.proc p) s) (hr : Settled p s) :
    team.Safe (.proc p) (setkilled p) (fun _ u => Calm (.proc p) u ∧ Settled p u) s := by
  refine safe_withLock ((calm_stable _).and (settled_stable p)) ⟨hs, hr⟩
    (fun c s hi hp hc => hp.1.lock_ne hi hc _) ?_
  rintro c s hi ⟨hs, hr⟩ hc hl
  have hk : Poked s (s.setProc p (fun x => { x with killed := true, blame := some .setkilled })) :=
    ⟨p, { s.proc p with killed := true, blame := some .setkilled }, hl, rfl, .inl rfl, rfl⟩
  exact ⟨.inr (.poke hk), hs.poked hk, hr.poked hk⟩

/-- Every system call keeps to the protocol. -/
theorem safe_call (x : Call) (hs : Calm (.proc p) s) (hr : Settled p s) :
    team.Safe (.proc p) x.prog (After p) s := by
  have hS := settled_stable p
  cases x with
  | fork mem =>
    exact (safe_fork hs hr).seq (fun _ _ h => ⟨h.2, h.1⟩)
  | exit status xs => exact safe_exit hs hr
  | wait bad => exact safe_wait hs hr
  | kill pid => exact (safe_killFrom hs hr).seq (fun _ _ h => ⟨h.2, h.1⟩)
  | setkilled =>
    refine (safe_myproc ((calm_stable _).and hS) ⟨hs, hr⟩).seq ?_
    rintro q u ⟨rfl, hu, hr⟩
    exact (safe_setkilled hu hr).seq (fun _ _ h => ⟨h.2, h.1⟩)
  | sleep n m => exact (safe_sleepOn hs hr).seq (fun _ _ h => ⟨h.2, h.1⟩)
  | wakeup n m =>
    refine (safe_devintr hs).seq ?_
    rintro - u ⟨-, hu, hk⟩
    exact ⟨fun q hq => hr q ((hk p q rfl).1.mp hq), hu⟩

/-- The first code of a new process. -/
theorem safe_forkret (hs : Away p s) (hr : Settled p s) :
    team.Safe (.proc p) forkret (After p) s := by
  refine (safe_myproc ((away_stable p).and (settled_stable p)) ⟨hs, hr⟩).seq ?_
  rintro q u ⟨rfl, hu, hr⟩
  exact (safe_unlockFrom (settled_stable q) (settled_ofKin q) (fun _ => rfl) hu hr).seq
    (fun _ _ h => ⟨h.2, h.1⟩)

/-- The scheduler has switched to `q`, or `q` is about to be put back. -/
def Lent (c : CpuId) (q : ProcId) (s : Kern) : Prop :=
  (s.cpu c).proc = some q ∧ ((s.cpu c).stack = some q ∨
    (s.cpu c).stack = none ∧ s.lock (.proc q) = some c ∧ (s.proc q).state ≠ .running)

/-- The scheduler is about to switch to `q`. -/
def Picked (c : CpuId) (q : ProcId) (s : Kern) : Prop :=
  (s.cpu c).proc = some q ∧ (s.cpu c).stack = none ∧ s.lock (.proc q) = some c ∧
    (s.proc q).state = .running

theorem Calm.sched (h : Calm (.sched c) s) :
    (s.cpu c).stack = none ∧ (s.cpu c).noff = 0 ∧ (s.cpu c).proc = none := by
  obtain ⟨d, hd, hn, hs⟩ := h
  obtain ⟨rfl, hst⟩ := thread_sched.mp hd
  exact ⟨hst, hn, hs rfl⟩

theorem picked_stable (c : CpuId) (q : ProcId) : team.Stable (.sched c) (Picked c q) where
  move := by
    rintro j s u hi hj hm ⟨h1, h2, h3, h4⟩
    have hj' : j ≠ s.thread c := (thread_sched.mpr ⟨rfl, h2⟩).symm ▸ hj
    obtain ⟨he, hk⟩ := hm.elsewhere hi.placed hj'
    exact ⟨by rw [he]; exact h1, by rw [he]; exact h2, hk _ h3,
      by rw [hm.locked hi.placed h3 hj']; exact h4⟩
  pause := by
    rintro s u - hp ⟨h1, -⟩
    rw [hp.1.sched.2.2] at h1
    cases h1

/-- A process on a hart gives it back by swtch() with its lock held. -/
theorem Move.lent {j : Tid} {q : ProcId} (hm : Move j s u) (hp : Placed s) (hj : j ≠ .sched c)
    (hs : (s.cpu c).stack = some q) : (u.cpu c).proc = some q ∧ ((u.cpu c).stack = some q ∨
      (u.cpu c).stack = none ∧ u.lock (.proc q) = some c ∧ (u.proc q).state ≠ .running) := by
  have hst := hp.stack
  cases hm <;> grind [Kern.freeproc, Poked]

theorem lent_stable (c : CpuId) (q : ProcId) : team.Stable (.sched c) (Lent c q) where
  move := by
    rintro j s u hi hj hm ⟨h1, h2 | ⟨h2, h3, h4⟩⟩
    · exact hm.lent hi.placed hj h2
    · have hj' : j ≠ s.thread c := (thread_sched.mpr ⟨rfl, h2⟩).symm ▸ hj
      obtain ⟨he, hk⟩ := hm.elsewhere hi.placed hj'
      exact ⟨by rw [he]; exact h1, .inr ⟨by rw [he]; exact h2, hk _ h3,
        by rw [hm.locked hi.placed h3 hj']; exact h4⟩⟩
  pause := by
    rintro s u - hp ⟨h1, -⟩
    rw [hp.1.sched.2.2] at h1
    cases h1

theorem safe_pick {q : ProcId} (hs : Calm (.sched c) s) :
    team.Safe (.sched c) (pick q) (fun b u =>
      if b then Picked c q u else Calm (.sched c) u) s := by
  refine safe_onCpu (calm_stable _) hs ?_
  intro d s hi hs hd
  obtain ⟨rfl, hst⟩ := thread_sched.mp hd
  obtain ⟨-, hn, hp⟩ := hs.sched
  cases hl : s.lock (.proc q) with
  | some e =>
    have he : e ≠ d := by
      rintro rfl
      have := hi.placed.one _ e hl
      omega
    simp only [he, if_false]
    trivial
  | none =>
    by_cases hr : (s.proc q).state = .runnable
    · simp only [hr, if_true]
      exact ⟨.inr (.pick d q hp hn hl hr), by simp, by simpa using hst, by simp, by simp⟩
    · simp only [hr, if_false]
      exact ⟨.inl rfl, hs⟩

theorem safe_swtch {q : ProcId} (hs : Picked c q s) :
    team.Safe (.sched c) (swtch q) (fun _ u => Lent c q u) s := by
  refine safe_onCpu (picked_stable c q) hs ?_
  rintro d s hi ⟨h1, h2, h3, h4⟩ hd
  obtain ⟨rfl, -⟩ := thread_sched.mp hd
  exact ⟨.inr (.enter d q h2 h1 h3 h4), by simpa using h1, .inl (by simp)⟩

theorem safe_putBack {q : ProcId} (hs : Lent c q s) :
    team.Safe (.sched c) (putBack q) (fun _ u => Calm (.sched c) u) s := by
  refine safe_onCpu (lent_stable c q) hs ?_
  rintro d s hi ⟨h1, h2⟩ hd
  obtain ⟨rfl, hst⟩ := thread_sched.mp hd
  obtain ⟨-, h3, h4⟩ := h2.resolve_left (by rw [hst]; simp)
  have hn := hi.placed.one _ d h3
  simp only [h3, hn, ne_eq, not_true_eq_false, if_false, Nat.lt_irrefl]
  refine ⟨.inr (.putBack d q hst h3 h4), d, thread_sched.mpr ⟨rfl, ?_⟩, ?_, ?_⟩
  · simpa using hst
  · simp [hn]
  · simp

theorem safe_schedulerFrom {qs : List ProcId} (hs : Calm (.sched c) s) :
    team.Safe (.sched c) (schedulerFrom qs) (fun _ u => Calm (.sched c) u) s := by
  induction qs generalizing s with
  | nil => exact hs
  | cons q qs ih =>
    refine (safe_pick hs).seq ?_
    rintro (_ | _) u hu
    · exact ih hu
    · refine (safe_swtch hu).seq (fun _ v hv => ?_)
      exact (safe_putBack hv).seq (fun _ w hw => ih hw)

theorem safe_scheduler (hs : Calm (.sched c) s) :
    team.Safe (.sched c) scheduler (fun _ u => Calm (.sched c) u) s :=
  (safe_schedulerFrom hs).seq (fun _ _ h => h)


/-- What a thread knows when its program has ended. -/
def Done (t : Tid) (a : Next) (s : Kern) : Prop :=
  match t with
  | .sched c => Calm (.sched c) s
  | .proc p => After p a s

theorem done_stable (t : Tid) (a : Next) : team.Stable t (Done t a) := by
  cases t with
  | sched c => exact calm_stable _
  | proc p =>
    cases a with
    | user r => exact (settled_stable p).and (calm_stable _)
    | again b => exact (settled_stable p).and (watching_stable ofWait_rested)

/-- The thread may go on with its program; a slot whose process is dead, or has not run yet,
needs none. -/
def Ready (t : Tid) (rest : SchedM Next) (s : Kern) : Prop :=
  match t with
  | .sched c => team.Safe (.sched c) rest (Done (.sched c)) s
  | .proc p => Dead p s ∧ Settled p s ∨
      ((∃ c, (s.cpu c).stack = some p) ∨ (s.proc p).context = .saved) ∧
        team.Safe (.proc p) rest (Done (.proc p)) s

/-- Others do not bring a dead process to life, except at forkret(). -/
theorem Dead.move {j : Tid} (h : Dead p s) (hi : Inv s) (hm : Move j s u) (hj : j ≠ .proc p) :
    Dead p u ∨ (s.proc p).context = .forkret ∧ (u.proc p).context = .forkret ∧
      ∃ c, j = .sched c ∧ (u.cpu c).stack = some p := by
  obtain ⟨hoff, hst⟩ := h
  by_cases hx : ∃ c, (u.cpu c).stack = some p
  · obtain ⟨c, hc⟩ := hx
    obtain ⟨rfl, he, -, hrun⟩ := hm.entered hoff hc
    rw [he] at hrun
    have hctx : (s.proc p).context = .forkret := by
      rcases hst with h | h | h
      · rw [hrun] at h; cases h
      · rw [hrun] at h; cases h
      · exact h
    exact .inr ⟨hctx, he ▸ hctx, c, rfl, hc⟩
  · refine .inl ⟨fun c hc => hx ⟨c, hc⟩, ?_⟩
    have hmade := hi.related.made
    cases hm <;> grind [Kern.freeproc, Poked]

/-- A process that has run is known to the harts, or has saved its context, until it dies. -/
theorem Move.known {j : Tid} (hm : Move j s u) (hp : Placed s) (hj : j ≠ .proc p)
    (hd : ¬ Dead p s) (h : (∃ c, (s.cpu c).stack = some p) ∨ (s.proc p).context = .saved) :
    (∃ c, (u.cpu c).stack = some p) ∨ (u.proc p).context = .saved := by
  by_cases hx : ∃ c, (s.cpu c).stack = some p
  · obtain ⟨c, hc⟩ := hx
    exact .inl ⟨c, by rw [(hm.elsewhere hp ((thread_proc.mpr hc).symm ▸ hj)).1]; exact hc⟩
  · have hctx := h.resolve_left hx
    have hun : (s.proc p).state ≠ .unused := fun hu => hd ⟨fun c hc => hx ⟨c, hc⟩, .inr (.inl hu)⟩
    refine .inr ?_
    cases hm <;> grind [Kern.freeproc, Poked]

theorem Ready.move {t j : Tid} {rest : SchedM Next} (hi : Inv s) (h : Ready t rest s)
    (hm : Move j s u) (hj : j ≠ t) : Ready t rest u ∨ ∃ p c, t = .proc p ∧ j = .sched c ∧
      (u.cpu c).stack = some p ∧ (u.proc p).context = .forkret ∧ Away p u ∧ Settled p u := by
  cases t with
  | sched c =>
    refine .inl (h.others (done_stable _) (.move j .rest ?_ hi hj hm))
    rintro ⟨p, hp, -⟩
    cases hp
  | proc p =>
    have hdead : Dead p s → Settled p s → Ready (.proc p) rest u ∨ ∃ q c, Tid.proc p = .proc q ∧
        j = .sched c ∧ (u.cpu c).stack = some q ∧ (u.proc q).context = .forkret ∧ Away q u ∧
          Settled q u := by
      intro hd hr
      have hr' := (settled_stable p).move hi hj hm hr
      rcases hd.move hi hm hj with hd' | ⟨-, hctx, c, rfl, hc⟩
      · exact .inl (.inl ⟨hd', hr'⟩)
      · exact .inr ⟨p, c, rfl, rfl, hc, hctx, (away_stable p).move hi hj hm (.inl hd.1), hr'⟩
    rcases h with ⟨hd, hr⟩ | ⟨hk, hsafe⟩
    · exact hdead hd hr
    · by_cases hd : Dead p s
      · refine hdead hd (fun q hq => ?_)
        have hm := hi.related.maker q p hq
        have hctx := hk.resolve_left (fun ⟨c, hc⟩ => hd.1 c hc)
        rcases hd.2 with h | h | h
        · exact hm.2 h
        · exact hm.1 h
        · rw [hctx] at h
          cases h
      · refine .inl (.inr ⟨hm.known hi.placed hj hd hk, ?_⟩)
        refine hsafe.others (done_stable _) (.move j .rest ?_ hi hj hm)
        rintro ⟨q, hq, hd'⟩
        cases hq
        exact hd hd'

/-- A thread on a hart has a program to go on with. -/
theorem Ready.on {t : Tid} {rest : SchedM Next} (h : Ready t rest s) (hc : s.thread c = t) :
    ¬ team.ended t s ∧ team.Safe t rest (Done t) s := by
  cases t with
  | sched d =>
    refine ⟨?_, h⟩
    rintro ⟨p, hp, -⟩
    cases hp
  | proc p =>
    have hon := thread_proc.mp hc
    refine ⟨?_, ?_⟩
    · rintro ⟨q, hq, hd⟩
      cases hq
      exact hd.1 c hon
    · rcases h with ⟨hd, -⟩ | ⟨-, hs⟩
      · exact (hd.1 c hon).elim
      · exact hs

theorem Ready.of_safe {t : Tid} {rest : SchedM Next}
    (hk : ∀ p, t = .proc p → (∃ c, (s.cpu c).stack = some p) ∨ (s.proc p).context = .saved)
    (h : team.Safe t rest (Done t) s) : Ready t rest s := by
  cases t with
  | sched d => exact h
  | proc p => exact .inr ⟨hk p rfl, h⟩

/-- Every thread may go on, and the only panic is "init exiting". -/
structure Machine.Ok (m : Machine) : Prop where
  inv : Inv m.kern
  ready : ∀ t, Ready t (m.rest t) m.kern
  panic : ∀ e, m.panicked = some e → e = .initExiting

namespace Machine
variable {m m' : Machine}

/-- The thread on a hart gets another program, and nothing else happens. -/
theorem Ok.setRest (h : m.Ok) {t : Tid} {r : SchedM Next} (hc : m.kern.thread c = t)
    (hr : team.Safe t r (Done t) m.kern) : Ok { m with rest := setAt m.rest t r } where
  inv := h.inv
  ready t' := by
    show Ready t' (setAt m.rest t r t') m.kern
    rw [setAt_apply]
    split
    · subst t'
      exact .of_safe (fun p hp => .inl ⟨c, thread_proc.mp (hc.trans hp)⟩) hr
    · exact h.ready t'
  panic := h.panic

/-- swtch() has just started the thread at forkret(). -/
def Loads (s u : Kern) (c : CpuId) (t : Tid) : Prop :=
  ∃ p, t = .proc p ∧ (s.cpu c).stack = none ∧ (u.cpu c).stack = some p ∧
    (u.proc p).context = .forkret

theorem load_of_not {rest : Tid → SchedM Next} {t : Tid} (h : ¬ Loads s u c t) :
    load rest s u c t = rest t := by
  cases hs : (s.cpu c).stack with
  | some q => simp [load, hs]
  | none =>
    cases hu : (u.cpu c).stack with
    | none => simp [load, hs, hu]
    | some p =>
      by_cases hctx : (u.proc p).context = .forkret
      · simp only [load, hs, hu, hctx, if_true]
        exact setAt_other _ _ _ (fun ht => h ⟨p, ht, hs, hu, hctx⟩)
      · simp [load, hs, hu, hctx]

theorem load_of_loads {rest : Tid → SchedM Next} {t : Tid} (h : Loads s u c t) :
    load rest s u c t = forkret := by
  obtain ⟨p, rfl, hs, hu, hctx⟩ := h
  simp [load, hs, hu, hctx]

theorem off_of_enter {j : Tid} (hm : Move j s u) (hp : Placed s) (hs : (s.cpu c).stack = none)
    (hu : (u.cpu c).stack = some p) (d : CpuId) : (s.cpu d).stack ≠ some p := by
  have hst := hp.stack
  have halone := hp.alone
  cases hm <;> grind [Kern.freeproc, Poked]

/-- After a step of the thread on a hart, every other one is ready again. -/
theorem Ok.ready_load (h : m.Ok) {t : Tid} (hc : m.kern.thread c = t) {r : SchedM Next}
    (hm : Move t m.kern u) {t' : Tid} (ht : t' ≠ t) :
    Ready t' (load (setAt m.rest t r) m.kern u c t') u := by
  by_cases hl : Loads m.kern u c t'
  · rw [load_of_loads hl]
    obtain ⟨p, rfl, hs, hu, hctx⟩ := hl
    have hoff := off_of_enter hm h.inv.placed hs hu
    have hsame : (m.kern.proc p).context = .forkret := by
      rw [← (hm.entered hoff hu).2.1]
      exact hctx
    have hset : Settled p m.kern := by
      rcases h.ready (.proc p) with ⟨-, hr⟩ | ⟨⟨d, hd⟩ | hk, -⟩
      · exact hr
      · exact (hoff d hd).elim
      · rw [hsame] at hk
        cases hk
    have haway := (away_stable p).move h.inv ht.symm hm (.inl hoff)
    exact .of_safe (fun q hq => by cases hq; exact .inl ⟨c, hu⟩)
      (safe_forkret haway ((settled_stable p).move h.inv ht.symm hm hset))
  · rw [load_of_not hl, setAt_other _ _ _ ht]
    rcases (h.ready t').move h.inv hm ht.symm with hr | ⟨p, d, rfl, rfl, hu, hctx, -⟩
    · exact hr
    · obtain ⟨rfl, hs⟩ := thread_sched.mp hc
      exact (hl ⟨p, rfl, hs, hu, hctx⟩).elim

/-- A process leaves its hart only by swtch(), which saves its context. -/
theorem saves {t : Tid} (hm : Move t s u) (hp : Placed s) (ht : t = .proc p)
    (hc : (s.cpu c).stack = some p) :
    (u.cpu c).stack = some p ∨ (u.proc p).context = .saved := by
  have hst := hp.stack
  have halone := hp.alone
  cases hm <;> grind [Kern.freeproc, Poked]

/-- What a thread does next is as safe as what it did. -/
theorem safe_onward {t : Tid} {a : Next} {r : SchedM Next} (h : Done t a s)
    (hr : onward t a = some r) : team.Safe t r (Done t) s := by
  cases t with
  | sched d =>
    cases hr
    exact safe_scheduler h
  | proc p =>
    cases a with
    | user v => cases hr
    | again bad =>
      cases hr
      exact safe_waitLoop h.2 h.1

/-- The thread on a hart makes one step. -/
theorem Ok.run (h : m.Ok) (hs : m.run c = some m') : m'.Ok := by
  obtain ⟨hover, hsafe⟩ := (h.ready (m.kern.thread c)).on rfl
  unfold Machine.run at hs
  cases hrest : m.rest (m.kern.thread c) with
  | ret a =>
    rw [hrest] at hsafe
    simp only [hrest, Option.map_eq_some_iff] at hs
    obtain ⟨r, hr, rfl⟩ := hs
    exact h.setRest rfl (safe_onward hsafe hr)
  | act g k =>
    rw [hrest] at hsafe
    have hacc := hsafe m.kern .rest h.inv (c, m.kern) ⟨rfl, rfl⟩
    simp only [hrest] at hs
    cases hg : g (c, m.kern) with
    | wait => simp [hg] at hs
    | fail e =>
      rw [hg] at hacc
      simp only [hg, Option.some.injEq] at hs
      subst hs
      exact ⟨h.inv, h.ready, fun e' he => by cases he; exact hacc⟩
    | ok b x =>
      rw [hg] at hacc
      simp only [hg, Option.some.injEq] at hs
      subst hs
      obtain ⟨hmove, hk⟩ := hacc
      have hself : ∀ u, ¬ Loads m.kern u c (m.kern.thread c) := by
        rintro u ⟨p, hp, hs, -⟩
        rw [thread_proc.mp hp] at hs
        cases hs
      rcases hmove with he | hm
      · -- nothing happened
        have he : x.2 = m.kern := he
        have hno : ∀ t', ¬ Loads m.kern x.2 c t' := by
          rintro t' ⟨p, -, hs, hu, -⟩
          rw [he, hs] at hu
          cases hu
        have hr : load (setAt m.rest (m.kern.thread c) (k b)) m.kern x.2 c =
            setAt m.rest (m.kern.thread c) (k b) := funext fun t' => load_of_not (hno t')
        rw [hr, he]
        exact h.setRest rfl (he ▸ hk)
      · have hm : Move (m.kern.thread c) m.kern x.2 := hm
        refine ⟨h.inv.move hm, fun t' => ?_, h.panic⟩
        by_cases ht : t' = m.kern.thread c
        · subst ht
          show Ready _ (load _ m.kern x.2 c _) x.2
          rw [load_of_not (hself x.2), setAt_same]
          refine .of_safe (fun p hp => ?_) hk
          rcases saves hm h.inv.placed hp (thread_proc.mp hp) with h1 | h1
          · exact .inl ⟨c, h1⟩
          · exact .inr h1
        · exact h.ready_load rfl hm ht

theorem Ok.call (h : m.Ok) {x : Call} (hs : m.call c x = some m') : m'.Ok := by
  unfold Machine.call at hs
  split at hs
  · cases hs
  · rename_i p hp
    split at hs
    · rename_i r hr
      cases hs
      have hsafe := ((h.ready (.proc p)).on hp).2
      rw [hr] at hsafe
      exact h.setRest hp (safe_call x hsafe.2 hsafe.1)
    · cases hs

/-- With interrupts on, the thread on a hart holds no lock. -/
theorem calm_of_noff (hi : Inv s) (hn : (s.cpu c).noff = 0) : Calm (s.thread c) s := by
  refine ⟨c, rfl, hn, fun ht => ?_⟩
  obtain ⟨-, hst⟩ := thread_sched.mp ht
  cases hq : (s.cpu c).proc with
  | none => rfl
  | some q =>
    cases hl : s.lock (.proc q) with
    | none =>
      have := (hi.placed.on q c hl hq).2
      rw [hst] at this
      cases this
    | some d =>
      obtain rfl := hi.placed.alone c d q hq (hi.placed.owner q d hl)
      have := hi.placed.one _ c hl
      omega

theorem Ok.interrupt (h : m.Ok) {handler : SchedM Unit} (hs : m.interrupt c handler = some m')
    (hh : Calm (m.kern.thread c) m.kern →
      team.Safe (m.kern.thread c) handler (fun _ u => team.pause (m.kern.thread c) m.kern u) m.kern) :
    m'.Ok := by
  simp only [Machine.interrupt] at hs
  split at hs
  · rename_i hn
    cases hs
    obtain ⟨hover, hsafe⟩ := (h.ready (m.kern.thread c)).on rfl
    refine h.setRest rfl ((hh (calm_of_noff h.inv hn)).seq (fun _ u hu => ?_))
    exact hsafe.others (done_stable _) (.pause .rest hover h.inv hu)
  · cases hs

theorem Ok.step (h : m.Ok) {a : Action} (hs : m.step a = some m') : m'.Ok := by
  simp only [Machine.step] at hs
  split at hs
  · cases a with
    | run c => exact h.run hs
    | call c x => exact h.call hs
    | timer c =>
      simp only [Machine.act] at hs
      split at hs
      · cases hs
      · rename_i hp
        refine h.interrupt hs (fun hcalm => ?_)
        cases ht : m.kern.thread c with
        | sched d =>
          rw [ht] at hcalm
          obtain ⟨rfl, -⟩ := thread_sched.mp ht
          exact (hp hcalm.sched.2.2).elim
        | proc p =>
          rw [ht] at hcalm
          exact safe_yield hcalm
    | device c n k => exact h.interrupt hs safe_devintr
  · cases hs

/-- What a step does to the process table is by the rules of the protocol. -/
theorem Ok.moves (h : m.Ok) {a : Action} (hs : m.step a = some m') :
    m'.kern = m.kern ∨ ∃ t, Move t m.kern m'.kern := by
  simp only [Machine.step] at hs
  split at hs
  · cases a with
    | run c =>
      simp only [Machine.act, Machine.run] at hs
      obtain ⟨-, hsafe⟩ := (h.ready (m.kern.thread c)).on rfl
      split at hs
      · obtain ⟨r, -, rfl⟩ := Option.map_eq_some_iff.mp hs
        exact .inl rfl
      · rename_i g k hrest
        rw [hrest] at hsafe
        have hacc := hsafe m.kern .rest h.inv (c, m.kern) ⟨rfl, rfl⟩
        split at hs
        · rename_i b x hg
          rw [hg] at hacc
          cases hs
          exact hacc.1.imp id (fun hm => ⟨_, hm⟩)
        · cases hs
        · cases hs
          exact .inl rfl
    | call c x =>
      simp only [Machine.act, Machine.call] at hs
      split at hs
      · cases hs
      · split at hs
        · cases hs; exact .inl rfl
        · cases hs
    | timer c =>
      simp only [Machine.act, Machine.interrupt] at hs
      split at hs
      · cases hs
      · split at hs
        · cases hs; exact .inl rfl
        · cases hs
    | device c n k =>
      simp only [Machine.act, Machine.interrupt] at hs
      split at hs
      · cases hs; exact .inl rfl
      · cases hs
  · cases hs

theorem boot_proc (q : ProcId) : boot.kern.proc q =
    { state := if q = initproc then .runnable else .unused
      chan := none
      killed := false
      xstate := 0
      pid := if q = initproc then 1 else 0
      parent := none
      context := if q = initproc then .forkret else .saved
      life := 0
      maker := none
      blame := none } := rfl

theorem boot_inv : Inv boot.kern := by
  have hlock : ∀ lk, boot.kern.lock lk = none := fun _ => rfl
  have hcpu : ∀ c, boot.kern.cpu c = ⟨none, 0, none⟩ := fun _ => rfl
  have hev : boot.kern.events = [.forked initproc 0 1] := rfl
  have hlives : boot.kern.lives = 1 := rfl
  have hproc := boot_proc
  refine ⟨?_, ?_, ?_⟩
  · constructor <;> grind
  · constructor <;> grind [Kern.Rested, Kern.Waits]
  · have hx : ∀ l, ¬ Exited boot.kern.events l := by simp [Exited, hev]
    have hw : ∀ l, ¬ Waited boot.kern.events l := by simp [Waited, hev]
    constructor
    · simp [hev, Orderly, Event.Due]
    all_goals grind [Event.life]

theorem boot_ok : boot.Ok where
  inv := boot_inv
  ready t := by
    cases t with
    | sched c => exact safe_scheduler ⟨c, by simp [Kern.thread, boot], rfl, fun _ => rfl⟩
    | proc p =>
      refine .inl ⟨⟨fun c => by simp [boot], ?_⟩, fun q => by simp [boot]⟩
      by_cases hp : p = initproc
      · exact .inr (.inr (by simp [boot, hp]))
      · exact .inr (.inl (by simp [boot, hp]))
  panic e he := by cases he

theorem ok_of_reaches (h : Reaches step boot m) : m.Ok :=
  h.invariant boot_ok (fun _ _ _ h hs => h.step hs)

end Machine
end Xv6.Sched
