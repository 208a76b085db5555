import Xv6.Proofs.SchedCalls

namespace Xv6.Sched

variable {p : ProcId} {c : CpuId} {s u : Kern}

/-- Nobody asleep in wait(), except perhaps `r`, has a zombie child. -/
def RestedBut (r : ProcId) (s : Kern) : Prop :=
  ∀ p q, p ≠ r → s.Waits p → (s.proc q).parent = some p → (s.proc q).state ≠ .zombie

/-- No child of `p` in a part of the table. -/
def Childless (p : ProcId) (qs : List ProcId) (s : Kern) : Prop :=
  ∀ q ∈ qs, (s.proc q).parent ≠ some p

theorem ofWait_restedBut (r : ProcId) : OfWait (RestedBut r) := by
  intro s u h1 h2 h3 h p q hp hw hq hz
  exact h p q hp (h3 p hw) (h1 q ▸ hq) (h2 q hz)

theorem ofWait_childless (p : ProcId) (qs : List ProcId) : OfWait (Childless p qs) := by
  intro s u h1 _ _ h q hq
  rw [h1]
  exact h q hq

theorem ofWait_awake (r : ProcId) : OfWait (fun s => ¬ s.Waits r) :=
  fun _ _ _ _ h3 h hw => h (h3 r hw)

theorem ofWait_parent (p : ProcId) (r : Option ProcId) : OfWait (fun s => (s.proc p).parent = r) := by
  intro s u h1 _ _ h
  rw [h1]
  exact h

theorem RestedBut.rested {r : ProcId} (h : RestedBut r s) (hr : ¬ s.Waits r) : s.Rested := by
  intro p q hw
  by_cases hp : p = r
  · exact absurd (hp ▸ hw) hr
  · exact h p q hp hw

theorem Settled.poked (h : Settled p s) (hk : Poked s u) : Settled p u := by
  obtain ⟨q, x, -, hx, -, rfl⟩ := hk
  intro r
  have := h r
  grind

/-- wakeup() of a process under wait_lock: it cannot go back to sleep in wait(). -/
theorem safe_wakeup_watching {R : Kern → Prop} (hR : OfWait R) (r : ProcId) (hs : Watching p R s)
    (hr : Settled p s) :
    team.Safe (.proc p) (wakeup (some (.proc r))) (fun _ u =>
      Watching p (fun s => R s ∧ ¬ s.Waits r) u ∧ Settled p u) s := by
  have hstable := (watching_stable (p := p) (hR.and (ofWait_awake r))).and (settled_stable p)
  have hcomm : ∀ s, (Watching p R s ∧ Settled p s) ∧ ¬ s.Waits r ↔
      Watching p (fun s => R s ∧ ¬ s.Waits r) s ∧ Settled p s := by
    intro s
    unfold Watching
    constructor
    · rintro ⟨⟨⟨h1, h2⟩, h3⟩, h4⟩
      exact ⟨⟨h1, h2, h4⟩, h3⟩
    · rintro ⟨⟨h1, h2, h4⟩, h3⟩
      exact ⟨⟨⟨h1, h2⟩, h3⟩, h4⟩
  have hwake := safe_wakeup_proc ((watching_stable (p := p) hR).and (settled_stable p))
    (by simp) (fun _ h => h.1.1) (fun _ _ hk h => ⟨h.1.poked hR hk, h.2.poked hk⟩)
    (r := r) (by simpa only [hcomm] using hstable) ⟨hs, hr⟩
  exact hwake.mono (fun _ u h => (hcomm u).mp h)

/-- The test and assignment for one slot in reparent(). -/
theorem safe_reparentOne {pp : ProcId} {qs : List ProcId} (hi : p ≠ initproc)
    (hs : Watching p (fun s => s.Rested ∧ Childless p qs s) s) (hr : Settled p s) :
    team.Safe (.proc p) (reparentOne p pp) (fun b u => Settled p u ∧
      Watching p (fun s => RestedBut initproc s ∧ Childless p (pp :: qs) s) u ∧
        (b = false → u.Rested)) s := by
  refine safe_onCpu ((watching_stable (ofWait_rested.and (ofWait_childless p qs))).and
    (settled_stable p)) ⟨hs, hr⟩ ?_
  rintro c s hI ⟨⟨⟨d, hd, hl, hd'⟩, hrest, hkids⟩, hr⟩ hc
  by_cases hp : (s.proc pp).parent = some p
  · rw [if_pos hp]
    refine ⟨.inr (.orphan d p pp (thread_proc.mp hd) hl hp (hr pp)), ?_, ⟨⟨d, hd, hl, hd'⟩, ?_, ?_⟩,
      by simp⟩
    · intro q
      have := hr q
      grind
    · intro r q hne hw
      have := hrest r q
      grind [Kern.Waits]
    · intro q hq
      have := hkids q
      grind
  · rw [if_neg hp]
    refine ⟨.inl rfl, hr, ⟨⟨d, hd, hl, hd'⟩, fun r q _ => hrest r q, fun q hq => ?_⟩, fun _ => hrest⟩
    rcases List.mem_cons.mp hq with rfl | hq
    · exact hp
    · exact hkids q hq

theorem safe_reparentFrom {pps : List ProcId} (qs : List ProcId) (hi : p ≠ initproc)
    (hs : Watching p (fun s => s.Rested ∧ Childless p qs s) s) (hr : Settled p s) :
    team.Safe (.proc p) (reparentFrom p pps) (fun _ u =>
      Watching p (fun s => s.Rested ∧ Childless p (pps ++ qs) s) u ∧ Settled p u) s := by
  induction pps generalizing s qs with
  | nil => exact ⟨hs, hr⟩
  | cons pp pps ih =>
    have hgo : ∀ u, Watching p (fun s => s.Rested ∧ Childless p (pp :: qs) s) u → Settled p u →
        team.Safe (.proc p) (reparentFrom p pps) (fun _ u =>
          Watching p (fun s => s.Rested ∧ Childless p (pp :: pps ++ qs) s) u ∧ Settled p u) u := by
      intro u hu hr
      refine (ih (pp :: qs) hu hr).mono ?_
      rintro - v ⟨hv, hr⟩
      refine ⟨⟨hv.1, hv.2.1, fun q hq => hv.2.2 q ?_⟩, hr⟩
      simp only [List.cons_append, List.mem_cons, List.mem_append] at hq
      exact List.mem_append.mpr (by grind)
    refine (safe_reparentOne hi hs hr).seq ?_
    rintro b u ⟨hr, hu, hb⟩
    cases b with
    | false => exact hgo u ⟨hu.1, hb rfl, hu.2.2⟩ hr
    | true =>
      -- init may be asleep in wait() with a zombie child until this wakeup() is over
      have hW := (ofWait_restedBut initproc).and (ofWait_childless p (pp :: qs))
      refine (safe_wakeup_watching hW initproc hu hr).seq ?_
      rintro - v ⟨⟨hv, ⟨hrest, hkids⟩, ha⟩, hr⟩
      exact hgo v ⟨hv, hrest.rested ha, hkids⟩ hr

theorem safe_parentOf {R : Kern → Prop} (hR : OfWait R) (hs : Watching p R s) (hr : Settled p s) :
    team.Safe (.proc p) (parentOf p) (fun r u =>
      Watching p (fun s => R s ∧ (s.proc p).parent = r) u ∧ Settled p u) s := by
  refine safe_onCpu ((watching_stable hR).and (settled_stable p)) ⟨hs, hr⟩ ?_
  rintro c s - ⟨⟨hh, hr⟩, hset⟩ -
  exact ⟨.inl rfl, ⟨hh, hr, rfl⟩, hset⟩

/-- The section of exit() that ends in sched(). -/
theorem safe_die {status : Int32} {r : Option ProcId} (hi : p ≠ initproc)
    (hs : Watching p (fun s => ((s.Rested ∧ Childless p slots s) ∧ (s.proc p).parent = r) ∧
      ∀ x, r = some x → ¬ s.Waits x) s) (hr : Settled p s) :
    team.Safe (.proc p) (lockInto p (some .wait) (fun s =>
      (s.setProc p (fun x => { x with xstate := status, state := .zombie })).record
        (.exited p (s.proc p).life (s.proc p).pid status)))
      (fun _ u => Parked p u ∧ (u.proc p).state = .zombie) s := by
  have hW : OfWait (fun s : Kern => ((s.Rested ∧ Childless p slots s) ∧ (s.proc p).parent = r) ∧
      ∀ x, r = some x → ¬ s.Waits x) :=
    ((ofWait_rested.and (ofWait_childless p slots)).and (ofWait_parent p r)).and
      (fun s u h1 h2 h3 h x hx => ofWait_awake x s u h1 h2 h3 (h x hx))
  refine safe_onCpu ((watching_stable hW).and (settled_stable p)) ⟨hs, hr⟩ ?_
  rintro c s hI ⟨⟨⟨d, hd, hl, -⟩, ⟨⟨hrest, hkids⟩, hpar⟩, hawake⟩, hr⟩ hc
  obtain rfl := hI.placed.hart_eq hd hc
  have hst := thread_proc.mp hd
  obtain ⟨hf, hrun⟩ := hI.placed.holding hst hl (by simp)
  simp only [hf, hl, ne_eq, not_true_eq_false, if_false]
  refine ⟨.inr (.die d p status hst hl hi hrest (fun q => hkids q (List.mem_finRange q)) hr
    (fun x hx => hawake x (hpar.symm.trans hx))), ⟨d, ?_, by simp, by simp⟩, by simp⟩
  simpa using hst

/-- sched() in exit() does not come back. -/
theorem safe_last {α : Type} {post : α → Kern → Prop} (hs : Parked p s)
    (hz : (s.proc p).state = .zombie) :
    team.Safe (.proc p) (sched >>= fun _ => panic .zombieExit) post s := by
  have hstable : team.Stable (.proc p) (fun s => Parked p s ∧ (s.proc p).state = .zombie) :=
    { move := fun {j s u} hi hj hm h => by
        refine ⟨(parked_stable p).move hi hj hm h.1, ?_⟩
        obtain ⟨c, hc, hl, -⟩ := h.1
        rw [hm.locked hi.placed hl ((thread_proc.mpr hc).symm ▸ hj)]
        exact h.2
      pause := fun {s u} hi hp h => by
        obtain ⟨c, hc, hl, -⟩ := h.1
        exact (hp.1.not_locked hi.placed hc hl).elim }
  refine (safe_sched hstable (fun s c h => by simpa using h) hs hz).seq ?_
  rintro - u ⟨hu, hz⟩
  refine Team.Safe.of_over ⟨p, rfl, hu, .inl hz⟩ ?_
  rintro ⟨c, v⟩ ⟨rfl, hc⟩
  exact hu c (thread_proc.mp hc)

theorem safe_exit {α : Type} {post : α → Kern → Prop} {status : Int32} {xs : List (Nat × Nat)}
    (hs : Calm (.proc p) s) (hr : Settled p s) :
    team.Safe (.proc p) (exit status xs) post s := by
  refine (safe_myproc ((calm_stable _).and (settled_stable p)) ⟨hs, hr⟩).seq ?_
  rintro q u ⟨rfl, hu, hr⟩
  by_cases hi : q = initproc
  · rw [if_pos hi]
    exact safe_onCpu (calm_stable _) hu (fun _ _ _ _ _ => rfl)
  rw [if_neg hi]
  have hS := settled_stable q
  refine (safe_sleeps hu hr).seq ?_
  rintro - v ⟨hv, hr⟩
  refine (safe_acquire hS (settled_ofKin q).ofTable (by simp) hv hr).seq ?_
  rintro - w ⟨hw, hr, hrest⟩
  refine (safe_reparentFrom [] hi ⟨hw, hrest rfl, fun q hq => by cases hq⟩ hr).seq ?_
  rintro - x ⟨hx, hr⟩
  have hW := ofWait_rested.and (ofWait_childless q (slots ++ []))
  refine (safe_parentOf hW hx hr).seq ?_
  rintro r y ⟨hy, hr⟩
  have hW := hW.and (ofWait_parent q r)
  have hend : ∀ z, Watching q (fun s => ((s.Rested ∧ Childless q (slots ++ []) s) ∧
      (s.proc q).parent = r) ∧ ∀ x, r = some x → ¬ s.Waits x) z → Settled q z →
      team.Safe (.proc q) (do
        lockInto q (some .wait) (fun s =>
          (s.setProc q (fun x => { x with xstate := status, state := .zombie })).record
            (.exited q (s.proc q).life (s.proc q).pid status))
        sched
        panic .zombieExit) post z := by
    intro z hz hr
    rw [List.append_nil] at hz
    exact (safe_die hi hz hr).seq (fun _ _ h => safe_last h.1 h.2)
  cases r with
  | none =>
    refine (safe_wakeup ((watching_stable hW).and hS) (by simp) (fun _ h => h.1.1)
      (fun _ _ hk h => ⟨h.1.poked hW hk, h.2.poked hk⟩) ⟨hy, hr⟩).seq ?_
    rintro - z ⟨⟨hz, hR⟩, hr⟩
    exact hend z ⟨hz, hR, by simp⟩ hr
  | some r =>
    refine (safe_wakeup_watching hW r hy hr).seq ?_
    rintro - z ⟨⟨hz, hR, ha⟩, hr⟩
    exact hend z ⟨hz, hR, fun x hx => by cases hx; exact ha⟩ hr

end Xv6.Sched
