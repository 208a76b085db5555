import Xv6.Proofs.SchedThreads

namespace Xv6.Sched

variable {p : ProcId} {c : CpuId} {s u : Kern}

/-- The process is not in the middle of a fork(). -/
def Settled (p : ProcId) (s : Kern) : Prop := ∀ q, (s.proc q).maker ≠ some p

theorem settled_stable (p : ProcId) : team.Stable (.proc p) (Settled p) where
  move hi hj hm h q hq := h q (((hm.keeps hi.related hj) p q rfl).1.mp hq)
  pause _ hp h q hq := h q ((hp.2.2 p q rfl).1.mp hq)

theorem settled_ofKin (p : ProcId) : OfKin (Settled p) := by
  intro s u h hs q
  rw [(h q).1]
  exact hs q

/-- The section of sleep() that ends in sched(). -/
theorem safe_doze {R : Kern → Prop} (hR : team.Stable (.proc p) R) (hK : OfKin R) {chan : Chan}
    {lk : Lock} (hlk : ∀ q, lk ≠ .proc q) {P : Kern → Prop} (hP : team.Stable (.proc p) P)
    (hch : ∀ s, P s → chan = .proc p ∧ lk = .wait ∧ s.Rested ∧
        (∀ q, (s.proc q).parent = some p → (s.proc q).state ≠ .zombie) ∨
      (∃ n, chan = .object n) ∧ lk ≠ .wait)
    (hs : Holds (.proc p) lk s) (hr : R s) (hp : P s) :
    team.Safe (.proc p) (lockInto p (some lk) (fun s => s.setProc p (fun x => { x with
      chan := some chan, state := .sleeping }))) (fun _ u => Parked p u ∧ R u) s := by
  refine safe_onCpu (((holds_stable _ lk).and hR).and hP) ⟨⟨hs, hr⟩, hp⟩ ?_
  rintro c s hi ⟨⟨⟨d, hd, hl, -⟩, hr⟩, hp⟩ hc
  obtain rfl := hi.placed.hart_eq hd hc
  have hst := thread_proc.mp hd
  obtain ⟨hf, hrun⟩ := hi.placed.holding hst hl hlk
  simp only [hf, hl, ne_eq, not_true_eq_false, if_false]
  have hne : Lock.proc p ≠ lk := fun h => hlk p h.symm
  refine ⟨.inr (.doze d p chan lk hst hlk hl (hch s hp)), ⟨d, ?_, ?_, by simp⟩, hK s _ ?_ hr⟩
  · simpa using hst
  · simp [hne]
  · intro q
    grind

theorem safe_sleep_object {R : Kern → Prop} (hR : team.Stable (.proc p) R) (hK : OfKin R)
    {n m : Nat} (hs : Holds (.proc p) (.object m) s) (hr : R s) :
    team.Safe (.proc p) (sleep (.object n) (.object m))
      (fun _ u => Holds (.proc p) (.object m) u ∧ R u) s := by
  have hobj : ∀ q, Lock.object m ≠ .proc q := by simp
  refine (safe_myproc ((holds_stable _ _).and hR) ⟨hs, hr⟩).seq ?_
  rintro q u ⟨rfl, hu, hr⟩
  refine (safe_doze hR hK hobj hR (fun _ _ => .inr ⟨⟨n, rfl⟩, by simp⟩) hu hr hr).seq ?_
  rintro - v ⟨hv, hr⟩
  have hsw := safe_switch hR hK (f := fun x => { x with chan := none }) (fun x => rfl) hv hr
  refine hsw.seq (fun _ w hw => ?_)
  exact (safe_acquire hR hK.ofTable hobj hw.1 hw.2).mono (fun _ x hx => ⟨hx.1, hx.2.1⟩)

/-- While a process holds wait_lock nobody else changes a parent, makes a zombie or goes to
sleep in wait(). -/
theorem Move.held {j : Tid} (hm : Move j s u) (hi : Inv s) (hh : Holds (.proc p) .wait s)
    (hj : j ≠ .proc p) : (∀ q, (u.proc q).parent = (s.proc q).parent) ∧
      (∀ q, (u.proc q).state = .zombie → (s.proc q).state = .zombie) ∧
      ∀ q, u.Waits q → s.Waits q := by
  obtain ⟨d, hd, hl, -⟩ := hh
  have hst := thread_proc.mp hd
  have hun := hi.related.unused
  unfold Kern.Waits
  cases hm <;> grind [Kern.freeproc, Poked]

/-- Holding wait_lock with a fact that only parents, zombies and sleepers bear on. -/
def Watching (p : ProcId) (R : Kern → Prop) (s : Kern) : Prop := Holds (.proc p) .wait s ∧ R s

/-- An assertion that survives if parents stay, and zombies and sleepers in wait() become
fewer. -/
def OfWait (R : Kern → Prop) : Prop :=
  ∀ s u : Kern, (∀ q, (u.proc q).parent = (s.proc q).parent) →
    (∀ q, (u.proc q).state = .zombie → (s.proc q).state = .zombie) →
    (∀ q, u.Waits q → s.Waits q) → R s → R u

theorem watching_stable {R : Kern → Prop} (hR : OfWait R) :
    team.Stable (.proc p) (Watching p R) where
  move := by
    rintro j s u hi hj hm ⟨hh, hr⟩
    obtain ⟨h1, h2, h3⟩ := hm.held hi hh hj
    exact ⟨(holds_stable _ _).move hi hj hm hh, hR s u h1 h2 h3 hr⟩
  pause hi hp h := (h.1.not_calm hi.placed hp.1).elim

theorem Watching.poked {R : Kern → Prop} (hR : OfWait R) (h : Watching p R s) (hk : Poked s u) :
    Watching p R u := by
  refine ⟨h.1.poked hk, hR s u ?_ ?_ ?_ h.2⟩
  all_goals
    obtain ⟨q, x, -, hx, hs, rfl⟩ := hk
    intro r
    grind [Kern.Waits]

theorem ofWait_rested : OfWait Kern.Rested := by
  intro s u h1 h2 h3 h r q hw hq hz
  exact h r q (h3 r hw) (h1 q ▸ hq) (h2 q hz)

/-- No zombie among the children of `p` in a part of the table. -/
def Scanned (p : ProcId) (qs : List ProcId) (s : Kern) : Prop :=
  ∀ q ∈ qs, (s.proc q).parent = some p → (s.proc q).state ≠ .zombie

theorem ofWait_scanned (p : ProcId) (qs : List ProcId) : OfWait (Scanned p qs) := by
  intro s u h1 h2 h3 h q hq hp hz
  exact h q hq (h1 q ▸ hp) (h2 q hz)

theorem OfWait.and {R R' : Kern → Prop} (h : OfWait R) (h' : OfWait R') :
    OfWait (fun s => R s ∧ R' s) :=
  fun s u h1 h2 h3 hr => ⟨h s u h1 h2 h3 hr.1, h' s u h1 h2 h3 hr.2⟩

/-- sleep() in wait(). -/
theorem safe_sleep_wait (hs : Watching p (fun s => s.Rested ∧ Scanned p slots s) s)
    (hr : Settled p s) :
    team.Safe (.proc p) (sleep (.proc p) .wait)
      (fun _ u => Watching p Kern.Rested u ∧ Settled p u) s := by
  have hwait : ∀ q, Lock.wait ≠ .proc q := by simp
  have hS := settled_stable p
  have hP : team.Stable (.proc p) (Watching p (fun s => s.Rested ∧ Scanned p slots s)) :=
    watching_stable (ofWait_rested.and (ofWait_scanned p slots))
  refine (safe_myproc (hP.and hS) ⟨hs, hr⟩).seq ?_
  rintro q u ⟨rfl, hu, hr⟩
  have hch : ∀ s, Watching q (fun s => s.Rested ∧ Scanned q slots s) s →
      Chan.proc q = .proc q ∧ Lock.wait = .wait ∧ s.Rested ∧
        (∀ r, (s.proc r).parent = some q → (s.proc r).state ≠ .zombie) ∨
      (∃ n, Chan.proc q = .object n) ∧ Lock.wait ≠ .wait :=
    fun s h => .inl ⟨rfl, rfl, h.2.1, fun r => h.2.2 r (List.mem_finRange r)⟩
  refine (safe_doze hS (settled_ofKin q) hwait hP hch hu.1 hr hu).seq ?_
  rintro - v ⟨hv, hr⟩
  have hsw := safe_switch hS (settled_ofKin q) (f := fun x => { x with chan := none })
    (fun x => rfl) hv hr
  refine hsw.seq (fun _ w hw => ?_)
  refine (safe_acquire hS (settled_ofKin q).ofTable hwait hw.1 hw.2).mono ?_
  rintro - x ⟨hx, hr, hrest⟩
  exact ⟨⟨hx, hrest rfl⟩, hr⟩

/-- A round of the scan in wait(). -/
theorem safe_waitOne {bad : Bool} {pp : ProcId} {qs : List ProcId}
    (hs : Watching p (fun s => s.Rested ∧ Scanned p qs s) s) (hr : Settled p s) :
    team.Safe (.proc p) (waitOne bad p pp) (fun r u => Settled p u ∧ match r with
      | .notChild | .alive => Watching p (fun s => s.Rested ∧ Scanned p (pp :: qs) s) u
      | .badAddress | .reaped _ => Watching p Kern.Rested u) s := by
  refine safe_onCpu ((watching_stable (ofWait_rested.and (ofWait_scanned p qs))).and
    (settled_stable p)) ⟨hs, hr⟩ ?_
  rintro c s hi ⟨⟨hh, hrest, hscan⟩, hr⟩ hc
  obtain ⟨d, hd, hl, -⟩ := id hh
  obtain rfl := hi.placed.hart_eq hd hc
  have hmore (h : (s.proc pp).parent = some p → (s.proc pp).state ≠ .zombie) :
      Scanned p (pp :: qs) s := by
    intro q hq
    rcases List.mem_cons.mp hq with rfl | hq
    · exact h
    · exact hscan q hq
  by_cases hp : (s.proc pp).parent = some p
  · rw [if_pos hp]
    cases hlp : s.lock (.proc pp) with
    | some e =>
      have he : e ≠ d := by
        rintro rfl
        have := hi.placed.only _ _ e hl hlp
        cases this
      simp only [he, if_false]
      trivial
    | none =>
      by_cases hz : (s.proc pp).state = .zombie
      · cases bad with
        | true => simp only [hz, if_true]; exact ⟨.inl rfl, hr, hh, hrest⟩
        | false =>
          simp only [hz, if_true, Bool.false_eq_true, if_false]
          refine ⟨.inr (.reap d p pp (thread_proc.mp hd) hl hlp hp hz), ?_, ⟨d, hd, hl, by simp⟩, ?_⟩
          · intro q
            have := hr q
            grind [Kern.freeproc]
          · intro r q hw hq
            have := hrest r q
            grind [Kern.freeproc, Kern.Waits]
      · simp only [hz, if_false]
        exact ⟨.inl rfl, hr, hh, hrest, hmore (fun _ => hz)⟩
  · rw [if_neg hp]
    exact ⟨.inl rfl, hr, hh, hrest, hmore (fun h => absurd h hp)⟩

theorem safe_waitFrom {bad : Bool} {pps : List ProcId} {havekids : Bool} (qs : List ProcId)
    (hs : Watching p (fun s => s.Rested ∧ Scanned p qs s) s) (hr : Settled p s) :
    team.Safe (.proc p) (waitFrom bad p pps havekids) (fun r u => Settled p u ∧ match r with
      | .inl _ => Watching p Kern.Rested u
      | .inr _ => Watching p (fun s => s.Rested ∧ Scanned p (pps ++ qs) s) u) s := by
  induction pps generalizing s qs havekids with
  | nil => exact ⟨hr, hs⟩
  | cons pp pps ih =>
    have hmem : ∀ u : Kern, Scanned p (pps ++ pp :: qs) u → Scanned p (pp :: pps ++ qs) u := by
      intro u h q hq
      simp only [List.cons_append, List.mem_cons, List.mem_append] at hq
      exact h q (List.mem_append.mpr (by grind))
    have hgo : ∀ (k : Bool) (u : Kern), Settled p u →
        Watching p (fun s => s.Rested ∧ Scanned p (pp :: qs) s) u →
        team.Safe (.proc p) (waitFrom bad p pps k) (fun r u => Settled p u ∧ match r with
          | .inl _ => Watching p Kern.Rested u
          | .inr _ => Watching p (fun s => s.Rested ∧ Scanned p (pp :: pps ++ qs) s) u) u := by
      intro k u hr hu
      refine (ih _ hu hr).mono ?_
      rintro (r | r) v ⟨hr, hv⟩
      · exact ⟨hr, hv⟩
      · exact ⟨hr, hv.1, hv.2.1, hmem v hv.2.2⟩
    refine (safe_waitOne hs hr).seq ?_
    rintro (_ | _ | _ | pid) u ⟨hr, hu⟩
    · exact hgo havekids u hr hu
    · exact hgo true u hr hu
    · exact ⟨hr, hu⟩
    · exact ⟨hr, hu⟩

/-- What a process knows when a piece of its kernel code is done. -/
def After (p : ProcId) (a : Next) (s : Kern) : Prop :=
  Settled p s ∧ match a with
    | .user _ => Calm (.proc p) s
    | .again _ => Watching p Kern.Rested s

theorem Holds.lock_ne {lk : Lock} (hi : Inv s) (h : Holds (.proc p) lk s) (hlk : ∀ q, lk ≠ .proc q)
    (hc : s.thread c = .proc p) (q : ProcId) : s.lock (.proc q) ≠ some c := by
  obtain ⟨d, hd, hl, -⟩ := h
  obtain rfl := hi.placed.hart_eq hd hc
  exact fun hq => hlk q (hi.placed.only _ _ d hl hq)

theorem Calm.lock_ne (hi : Inv s) (h : Calm (.proc p) s) (hc : s.thread c = .proc p) (lk : Lock) :
    s.lock lk ≠ some c := by
  obtain ⟨d, hd, hn, -⟩ := h
  obtain rfl := hi.placed.hart_eq hd hc
  intro hq
  have := hi.placed.one _ d hq
  omega

theorem safe_killed {P : Kern → Prop} (hP : team.Stable (.proc p) P) {lk : Lock}
    (hh : ∀ s, P s → Holds (.proc p) lk s) (hlk : ∀ q, lk ≠ .proc q) (hs : P s) :
    team.Safe (.proc p) (killed p) (fun _ => P) s :=
  safe_withLock hP hs (fun _ s hi hp hc => (hh s hp).lock_ne hi hlk hc p)
    (fun _ _ _ hp _ _ => ⟨.inl rfl, hp⟩)

theorem safe_waitLoop {bad : Bool} (hs : Watching p Kern.Rested s) (hr : Settled p s) :
    team.Safe (.proc p) (waitLoop bad) (After p) s := by
  have hwait : ∀ q, Lock.wait ≠ .proc q := by simp
  have hS := settled_stable p
  have hW : team.Stable (.proc p) (Watching p Kern.Rested) := watching_stable ofWait_rested
  have hend : ∀ (r : Int32) (u : Kern), Settled p u → Watching p Kern.Rested u →
      team.Safe (.proc p) (do release .wait; return Next.user r) (After p) u := by
    intro r u hr hu
    refine (safe_release (hW.and hS) hwait (fun _ h => h.1.1) (fun _ h => h.2)
      (settled_ofKin p).ofTable (fun _ h _ => h.1.2) ⟨hu, hr⟩).seq ?_
    rintro - v ⟨hv, hr⟩
    exact ⟨hr, hv⟩
  refine (safe_myproc (hW.and hS) ⟨hs, hr⟩).seq ?_
  rintro q u ⟨rfl, hu, hr⟩
  refine (safe_waitFrom [] ⟨hu.1, hu.2, fun q hq => by cases hq⟩ hr).seq ?_
  rintro (r | havekids) v ⟨hr, hv⟩
  · exact hend r v hr hv
  · have hv : Watching q (fun s => s.Rested ∧ Scanned q slots s) v := by
      simpa only [List.append_nil] using hv
    cases havekids with
    | false => exact hend (-1) v hr ⟨hv.1, hv.2.1⟩
    | true =>
      have hP := (watching_stable (p := q) (ofWait_rested.and (ofWait_scanned q slots))).and hS
      refine (safe_killed hP (fun _ h => h.1.1) hwait ⟨hv, hr⟩).seq ?_
      rintro (_ | _) w ⟨hw, hr⟩
      · refine (safe_sleep_wait hw hr).seq ?_
        rintro - x ⟨hx, hr⟩
        exact ⟨hr, hx⟩
      · exact hend (-1) w hr ⟨hw.1, hw.2.1⟩

theorem safe_wait {bad : Bool} (hs : Calm (.proc p) s) (hr : Settled p s) :
    team.Safe (.proc p) (wait bad) (After p) s := by
  refine (safe_acquire (settled_stable p) (settled_ofKin p).ofTable (by simp) hs hr).seq ?_
  rintro - u ⟨hu, hr, hrest⟩
  exact safe_waitLoop ⟨hu, hrest rfl⟩ hr

/-- The process is setting up one child, whose parent field is `r` so far. -/
def Making (p np : ProcId) (r : Option ProcId) (s : Kern) : Prop :=
  (s.proc np).parent = r ∧ ∀ q, (s.proc q).maker = some p ↔ q = np

theorem making_stable (p np : ProcId) (r : Option ProcId) :
    team.Stable (.proc p) (Making p np r) := by
  have key : ∀ s u, Keeps (.proc p) s u → Making p np r s → Making p np r u := by
    intro s u hk h
    refine ⟨((hk p np rfl).2 ((h.2 np).mpr rfl)).trans h.1, fun q => ?_⟩
    exact (hk p q rfl).1.trans (h.2 q)
  exact { move := fun hi hj hm h => key _ _ (hm.keeps hi.related hj) h
          pause := fun _ hp h => key _ _ hp.2.2 h }

theorem making_ofTable (p np : ProcId) (r : Option ProcId) : OfTable (Making p np r) := by
  intro s u hu h
  unfold Making
  rw [hu]
  exact h

/-- allocproc() and the copying in fork() at a free slot: memory runs out, or there is a child. -/
theorem forkAt_unused (mem : Memory) {np : ProcId} (hu : (s.proc np).state = .unused) :
    (∃ x : Proc, (x.state = .unused ∧ x.parent = none ∧ x.maker = none) ∧
      s.forkAt mem p np = (.failed, { s.setProc np (fun _ => x) with nextpid := s.nextpid + 1 })) ∨
    s.forkAt mem p np = (.child s.nextpid, { s.setProc np (fun x => { x with
        pid := s.nextpid
        state := .used
        context := .forkret
        life := s.lives
        maker := some p
        blame := none }) with
      nextpid := s.nextpid + 1
      lives := s.lives + 1 }.record (.forked np s.lives s.nextpid)) := by
  have hfail : ∀ x : Proc, ∃ y : Proc, (y.state = .unused ∧ y.parent = none ∧ y.maker = none) ∧
      ({ s.setProc np (fun _ => x) with nextpid := s.nextpid + 1 } : Kern).freeproc np =
        { s.setProc np (fun _ => y) with nextpid := s.nextpid + 1 } := by
    intro x
    refine ⟨{ x with
      pid := 0, parent := none, chan := none, killed := false, xstate := 0, state := .unused,
      maker := none }, ⟨rfl, rfl, rfl⟩, ?_⟩
    simp [Kern.setProc, Kern.freeproc]
  simp only [Kern.forkAt, hu, if_true]
  split
  · obtain ⟨y, hy, he⟩ := hfail { s.proc np with pid := s.nextpid, state := .used }
    exact .inl ⟨y, hy, congrArg _ he⟩
  · split
    · obtain ⟨y, hy, he⟩ := hfail { s.proc np with pid := s.nextpid, state := .used }
      exact .inl ⟨y, hy, congrArg _ he⟩
    · split
      · obtain ⟨y, hy, he⟩ := hfail { s.proc np with
          pid := s.nextpid, state := .used, context := .forkret }
        refine .inl ⟨y, hy, ?_⟩
        rw [← he]
        simp [Kern.setProc]
      · refine .inr ?_
        simp [Kern.setProc, Kern.record]

theorem safe_forkAt {mem : Memory} {np : ProcId} (hs : Calm (.proc p) s) (hr : Settled p s) :
    team.Safe (.proc p) (withLock np fun _ s => s.forkAt mem p np) (fun r u => Calm (.proc p) u ∧
      match r with
      | .inUse | .failed => Settled p u
      | .child _ => Making p np none u) s := by
  refine safe_withLock ((calm_stable _).and (settled_stable p)) ⟨hs, hr⟩
    (fun c s hi hp hc => hp.1.lock_ne hi hc _) ?_
  rintro c s hi ⟨⟨d, hd, hn, hsch⟩, hr⟩ hc hl
  by_cases hu : (s.proc np).state = .unused
  · have hrun := (hi.placed.idle (thread_proc.mp hd) hn).2
    rcases forkAt_unused (p := p) mem hu with ⟨x, hx, he⟩ | he
    · rw [he]
      refine ⟨.inr (.allocFail np x _ hl hu hx), ⟨d, hd, hn, hsch⟩, fun q => ?_⟩
      have := hr q
      have := hx.2.2
      grind
    · rw [he]
      refine ⟨.inr (.alloc p np _ hl hu hrun), ⟨d, hd, hn, hsch⟩, ?_, fun q => ?_⟩
      · simpa using hi.related.unused np hu
      · have := hr q
        grind
  · have he : s.forkAt mem p np = (.inUse, s) := by simp only [Kern.forkAt, hu, if_false]
    rw [he]
    exact ⟨.inl rfl, ⟨d, hd, hn, hsch⟩, hr⟩

theorem safe_allocproc {mem : Memory} {nps : List ProcId} (hs : Calm (.proc p) s)
    (hr : Settled p s) :
    team.Safe (.proc p) (allocproc mem p nps) (fun r u => Calm (.proc p) u ∧
      match r with
      | none => Settled p u
      | some x => Making p x.1 none u) s := by
  induction nps generalizing s with
  | nil => exact ⟨hs, hr⟩
  | cons np nps ih =>
    refine (safe_forkAt hs hr).seq ?_
    rintro (_ | _ | pid) u ⟨hu, hr⟩
    · exact ih hu hr
    · exact ⟨hu, hr⟩
    · exact ⟨hu, hr⟩

theorem safe_fork {mem : Memory} (hs : Calm (.proc p) s) (hr : Settled p s) :
    team.Safe (.proc p) (fork mem) (fun _ u => Calm (.proc p) u ∧ Settled p u) s := by
  have hwait : ∀ q, Lock.wait ≠ .proc q := by simp
  refine (safe_myproc ((calm_stable _).and (settled_stable p)) ⟨hs, hr⟩).seq ?_
  rintro q u ⟨rfl, hu, hr⟩
  refine (safe_allocproc hu hr).seq ?_
  rintro (_ | ⟨np, pid⟩) v ⟨hv, hr⟩
  · exact ⟨hv, hr⟩
  have hM := making_stable q np none
  have hM' := making_stable q np (some q)
  have hW : team.Stable (.proc q) (Watching q Kern.Rested) := watching_stable ofWait_rested
  refine (safe_acquire hM (making_ofTable q np none) hwait hv hr).seq ?_
  rintro - w ⟨hw, hr, hrest⟩
  have hadopt : team.Safe (.proc q) (setParent np q)
      (fun _ x => Watching q Kern.Rested x ∧ Making q np (some q) x) w := by
    refine safe_onCpu (hW.and hM) ⟨⟨hw, hrest rfl⟩, hr⟩ ?_
    rintro c s hi ⟨⟨⟨d, hd, hl, hd'⟩, hrest⟩, hr⟩ hc
    have hk := (hr.2 np).mpr rfl
    have hused := (hi.related.made np q hk).1
    refine ⟨.inr (.adopt d q np (thread_proc.mp hd) hl hk), ⟨⟨d, hd, hl, hd'⟩, ?_⟩, ?_, ?_⟩
    · intro r x hx
      have := hrest r x
      grind [Kern.Waits]
    · simp
    · intro x
      have := hr.2 x
      grind
  refine hadopt.seq ?_
  rintro - x ⟨hx, hr⟩
  refine (safe_release (hW.and hM') hwait (fun _ h => h.1.1) (fun _ h => h.2)
    (making_ofTable q np (some q)) (fun _ h _ => h.1.2) ⟨hx, hr⟩).seq ?_
  rintro - y ⟨hy, hr⟩
  refine Team.Safe.seq (safe_withLock ((calm_stable _).and hM') ⟨hy, hr⟩
    (fun c s hi hp hc => hp.1.lock_ne hi hc _) ?_) (fun _ _ h => h)
  rintro c s hi ⟨⟨d, hd, hn, hd'⟩, hr⟩ hc hl
  refine ⟨.inr (.launch q np hl ((hr.2 np).mpr rfl) hr.1), ⟨d, hd, hn, hd'⟩, fun z => ?_⟩
  have := hr.2 z
  grind

theorem safe_sleepOn {n m : Nat} (hs : Calm (.proc p) s) (hr : Settled p s) :
    team.Safe (.proc p) (sleepOn n m) (fun _ u => Calm (.proc p) u ∧ Settled p u) s := by
  have hobj : ∀ q, Lock.object m ≠ .proc q := by simp
  have hS := settled_stable p
  have hT := (settled_ofKin p).ofTable
  refine (safe_acquire hS hT hobj hs hr).seq ?_
  rintro - u ⟨hu, hr, -⟩
  refine (safe_sleep_object hS (settled_ofKin p) hu hr).seq ?_
  rintro - v hv
  exact safe_release ((holds_stable _ _).and hS) hobj (fun _ h => h.1) (fun _ h => h.2) hT
    (by simp) hv

theorem safe_sleeps {xs : List (Nat × Nat)} (hs : Calm (.proc p) s) (hr : Settled p s) :
    team.Safe (.proc p) (sleeps xs) (fun _ u => Calm (.proc p) u ∧ Settled p u) s := by
  induction xs generalizing s with
  | nil => exact ⟨hs, hr⟩
  | cons x xs ih => exact (safe_sleepOn hs hr).seq (fun _ u hu => ih hu.1 hu.2)

end Xv6.Sched
