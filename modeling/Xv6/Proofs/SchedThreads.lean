import Xv6.Lib.Team
import Xv6.Proofs.Protocol

namespace Xv6.Sched

variable {t : Tid} {p : ProcId} {c : CpuId} {s u : Kern}

/-- The thread is on a hart with no lock held; a scheduler has no process then. -/
def Calm (t : Tid) (s : Kern) : Prop :=
  ∃ c, s.thread c = t ∧ (s.cpu c).noff = 0 ∧ (t = .sched c → (s.cpu c).proc = none)

/-- The thread is on a hart that holds a lock. -/
def Holds (t : Tid) (lk : Lock) (s : Kern) : Prop :=
  ∃ c, s.thread c = t ∧ s.lock lk = some c ∧ (t = .sched c → (s.cpu c).proc = none)

/-- The children that a process is setting up are as they were. -/
def Keeps (t : Tid) (s u : Kern) : Prop :=
  ∀ p q, t = .proc p → ((u.proc q).maker = some p ↔ (s.proc q).maker = some p) ∧
    ((s.proc q).maker = some p → (u.proc q).parent = (s.proc q).parent)

/-- The slot's process has left its last swtch(), or has not come out of its first: when it
runs next it starts at forkret(). -/
def Dead (p : ProcId) (s : Kern) : Prop :=
  (∀ c, (s.cpu c).stack ≠ some p) ∧ ((s.proc p).state = .zombie ∨ (s.proc p).state = .unused ∨
    (s.proc p).context = .forkret)

/-- Threads as they take turns on the harts, by the rules of the protocol. Between two actions
of a thread that holds no lock, interrupts may have run on top of it. -/
def team : Team Panic (CpuId × Kern) Kern Tid where
  sees t s x := x.2 = s ∧ s.thread x.1 = t
  put _ x := x.2
  inv := Inv
  move := Move
  pause t s u := Calm t s ∧ Calm t u ∧ Keeps t s u
  ended t s := ∃ p, t = .proc p ∧ Dead p s
  fails e := e = .initExiting
  keeps h hm := h.move hm

theorem thread_proc : s.thread c = .proc p ↔ (s.cpu c).stack = some p := by
  unfold Kern.thread
  cases (s.cpu c).stack <;> simp

theorem thread_sched {d : CpuId} : s.thread c = .sched d ↔ c = d ∧ (s.cpu c).stack = none := by
  unfold Kern.thread
  cases (s.cpu c).stack <;> simp

/-- A hart is touched by the thread on it only. -/
theorem Move.elsewhere {j : Tid} (hm : Move j s u) (hp : Placed s) (hj : j ≠ s.thread c) :
    u.cpu c = s.cpu c ∧ ∀ lk, s.lock lk = some c → u.lock lk = some c := by
  have hst := hp.stack
  have hown := hp.owner
  have halone := hp.alone
  unfold Kern.thread at hj
  cases hm <;> grind [Kern.freeproc, Poked, Kern.thread]

theorem thread_eq (h : u.cpu c = s.cpu c) : u.thread c = s.thread c := by
  unfold Kern.thread
  rw [h]

theorem Move.keeps {j : Tid} (hm : Move j s u) (hr : Related s) (hj : j ≠ t) : Keeps t s u := by
  intro p q ht
  subst ht
  have hmade := hr.made q
  have hun := hr.unused
  cases hm <;> grind [Kern.freeproc, Poked]

theorem Keeps.refl (t : Tid) (s : Kern) : Keeps t s s := fun _ _ _ => ⟨Iff.rfl, fun _ => rfl⟩

theorem Keeps.trans {v : Kern} (h : Keeps t s u) (h' : Keeps t u v) : Keeps t s v := by
  intro p q ht
  obtain ⟨h1, h2⟩ := h p q ht
  obtain ⟨h3, h4⟩ := h' p q ht
  exact ⟨h3.trans h1, fun hk => (h4 (h1.mpr hk)).trans (h2 hk)⟩

theorem calm_stable (t : Tid) : team.Stable t (Calm t) where
  move := by
    rintro j s u hi hj hm ⟨c, hc, hn, hs⟩
    obtain ⟨he, -⟩ := hm.elsewhere hi.placed (hc ▸ hj)
    exact ⟨c, by rw [thread_eq he, hc], by rw [he]; exact hn, by rw [he]; exact hs⟩
  pause _ h _ := h.2.1

/-- A thread is on one hart at most. -/
theorem Placed.hart_eq (hp : Placed s) {d : CpuId} (hc : s.thread c = t) (hd : s.thread d = t) :
    c = d := by
  cases t with
  | sched e => exact (thread_sched.mp hc).1.trans (thread_sched.mp hd).1.symm
  | proc p =>
    exact hp.alone c d p (hp.stack c p (thread_proc.mp hc)) (hp.stack d p (thread_proc.mp hd))

theorem Holds.not_calm {lk : Lock} (hp : Placed s) (h : Holds t lk s) (h' : Calm t s) : False := by
  obtain ⟨c, hc, hl, -⟩ := h
  obtain ⟨d, hd, hn, -⟩ := h'
  obtain rfl := hp.hart_eq hc hd
  have := hp.one lk c hl
  omega

theorem holds_stable (t : Tid) (lk : Lock) : team.Stable t (Holds t lk) where
  move := by
    rintro j s u hi hj hm ⟨c, hc, hl, hs⟩
    obtain ⟨he, hk⟩ := hm.elsewhere hi.placed (hc ▸ hj)
    exact ⟨c, by rw [thread_eq he, hc], hk lk hl, by rw [he]; exact hs⟩
  pause hi h hh := (hh.not_calm hi.placed h.1).elim

theorem keeps_stable (t : Tid) (s₀ : Kern) : team.Stable t (Keeps t s₀) where
  move hi hj hm h := h.trans (hm.keeps hi.related hj)
  pause _ hp h := h.trans hp.2.2

/-- The outcome of an action of thread `t` is acceptable. -/
def Good (t : Tid) (s : Kern) (post : β → Kern → Prop) : Out Panic Kern β → Prop
  | .ok b u => (u = s ∨ Move t s u) ∧ post b u
  | .wait => True
  | .fail e => e = .initExiting

/-- The rule for one action on a hart. -/
theorem safe_onCpu {P : Kern → Prop} {f : CpuId → Kern → Out Panic Kern β}
    {post : β → Kern → Prop} (hP : team.Stable t P) (hs : P s)
    (h : ∀ c s, Inv s → P s → s.thread c = t → Good t s post (f c s)) :
    team.Safe t (onCpu f) post s := by
  refine Team.Safe.step hP hs ?_
  rintro s ⟨c, s'⟩ hi hp ⟨rfl, hc⟩
  have hg := h c s' hi hp hc
  show Team.Accepts team t s' post (match f c s' with
    | .ok b v => .ok b (c, v)
    | .wait => .wait
    | .fail e => .fail e)
  cases hf : f c s' with
  | ok b v => rw [hf] at hg; exact hg
  | wait => trivial
  | fail e => rw [hf] at hg; exact hg

/-- The rule for a section under a process's lock, by a thread that does not have it yet. -/
theorem safe_withLock {P : Kern → Prop} {q : ProcId} {f : CpuId → Kern → β × Kern}
    {post : β → Kern → Prop} (hP : team.Stable t P) (hs : P s)
    (hn : ∀ c s, Inv s → P s → s.thread c = t → s.lock (.proc q) ≠ some c)
    (h : ∀ c s, Inv s → P s → s.thread c = t → s.lock (.proc q) = none →
      ((f c s).2 = s ∨ Move t s (f c s).2) ∧ post (f c s).1 (f c s).2) :
    team.Safe t (withLock q f) post s := by
  refine safe_onCpu hP hs ?_
  intro c s hi hp hc
  cases hl : s.lock (.proc q) with
  | none => exact h c s hi hp hc hl
  | some e =>
    have he : e ≠ c := fun he => hn c s hi hp hc (he ▸ hl)
    simp only [he, if_false]
    trivial

/-- An assertion about the process table alone. -/
def OfTable (R : Kern → Prop) : Prop := ∀ s u : Kern, u.proc = s.proc → R s → R u

/-- An assertion about who makes whom and who is whose parent. -/
def OfKin (R : Kern → Prop) : Prop :=
  ∀ s u : Kern, (∀ q, (u.proc q).maker = (s.proc q).maker ∧ (u.proc q).parent = (s.proc q).parent) →
    R s → R u

theorem keeps_ofKin (t : Tid) (s₀ : Kern) : OfKin (Keeps t s₀) := by
  intro s u h hk p q ht
  rw [(h q).1, (h q).2]
  exact hk p q ht

theorem OfKin.ofTable {R : Kern → Prop} (h : OfKin R) : OfTable R :=
  fun s u hu => h s u (fun q => by rw [hu]; exact ⟨rfl, rfl⟩)

theorem safe_myproc {P : Kern → Prop} (hP : team.Stable (.proc p) P) (hs : P s) :
    team.Safe (.proc p) myproc (fun q u => q = p ∧ P u) s := by
  refine safe_onCpu hP hs ?_
  intro c s hi hp hc
  rw [hi.placed.stack c p (thread_proc.mp hc)]
  exact ⟨.inl rfl, rfl, hp⟩

theorem safe_acquire {R : Kern → Prop} (hR : team.Stable t R) (hT : OfTable R) {lk : Lock}
    (hlk : ∀ p, lk ≠ .proc p) (hs : Calm t s) (hr : R s) :
    team.Safe t (acquire lk) (fun _ u => Holds t lk u ∧ R u ∧ (lk = .wait → u.Rested)) s := by
  refine safe_onCpu ((calm_stable t).and hR) ⟨hs, hr⟩ ?_
  rintro c s hi ⟨⟨d, hd, hn, hd'⟩, hr⟩ hc
  obtain rfl := hi.placed.hart_eq hd hc
  cases hl : s.lock lk with
  | none =>
    refine ⟨.inr (.acquire d lk hc hlk hl hn), ⟨d, ?_, by simp, fun ht => ?_⟩,
      hT s _ rfl hr, fun hw => ?_⟩
    · simpa [Kern.thread] using hc
    · simpa using hd' ht
    · subst hw
      exact hi.related.rested hl
  | some e =>
    have he : e ≠ d := by
      rintro rfl
      have := hi.placed.one lk e hl
      omega
    simp only [he, if_false]
    trivial

theorem safe_release {P R : Kern → Prop} (hP : team.Stable t P) {lk : Lock}
    (hlk : ∀ p, lk ≠ .proc p) (hh : ∀ s, P s → Holds t lk s) (hr : ∀ s, P s → R s)
    (hT : OfTable R) (hw : ∀ s, P s → lk = .wait → s.Rested) (hs : P s) :
    team.Safe t (release lk) (fun _ u => Calm t u ∧ R u) s := by
  refine safe_onCpu hP hs ?_
  intro c s hi hp hc
  obtain ⟨d, hd, hl, hd'⟩ := hh s hp
  obtain rfl := hi.placed.hart_eq hd hc
  have hn := hi.placed.one lk d hl
  simp only [hl, hn, ne_eq, not_true_eq_false, if_false, Nat.lt_irrefl]
  refine ⟨.inr (.release d lk hc hlk hl (hw s hp)), ⟨d, ?_, by simp [hn], fun ht => ?_⟩,
    hT s _ rfl (hr s hp)⟩
  · simpa [Kern.thread] using hc
  · simpa using hd' ht

/-- Pokes keep what a thread knows about its place. -/
theorem Poked.cpu (h : Poked s u) : u.cpu = s.cpu ∧ u.lock = s.lock := by
  obtain ⟨q, x, -, -, -, rfl⟩ := h
  exact ⟨rfl, rfl⟩

theorem Holds.poked {lk : Lock} (h : Holds t lk s) (hp : Poked s u) : Holds t lk u := by
  obtain ⟨c, hc, hl, hs⟩ := h
  obtain ⟨he, hk⟩ := hp.cpu
  exact ⟨c, by rw [← hc, Kern.thread, he, Kern.thread], by rw [hk]; exact hl, by rw [he]; exact hs⟩

theorem Keeps.poked {s₀ : Kern} (h : Keeps t s₀ s) (hp : Poked s u) : Keeps t s₀ u := by
  refine h.trans ?_
  obtain ⟨q, x, -, hx, -, rfl⟩ := hp
  intro p r ht
  grind

/-- A thread that holds a lock is not the process asleep on a channel. -/
theorem Holds.awake {lk : Lock} (h : Holds t lk s) (hi : Inv s) (hlk : ∀ p, lk ≠ .proc p)
    {q : ProcId} (hc : s.thread c = t) (hq : (s.cpu c).proc = some q) :
    (s.proc q).state = .running := by
  obtain ⟨d, hd, hl, hd'⟩ := h
  obtain rfl := hi.placed.hart_eq hd hc
  cases t with
  | sched e =>
    obtain ⟨rfl, -⟩ := thread_sched.mp hd
    rw [hd' rfl] at hq
    cases hq
  | proc p =>
    have hst := thread_proc.mp hd
    rw [hi.placed.stack d p hst] at hq
    cases hq
    exact (hi.placed.holding hst hl hlk).2

section
variable {R : Kern → Prop} {lk : Lock} (hR : team.Stable t R) (hlk : ∀ p, lk ≠ .proc p)
  (hh : ∀ s, R s → Holds t lk s) (hpoke : ∀ s u, Poked s u → R s → R u)
include hR hlk hh hpoke

theorem safe_wakeupOne {chan : Option Chan} {q : ProcId} (hs : R s) :
    team.Safe t (wakeupOne chan q) (fun _ u => R u ∧
      ¬ ((u.proc q).state = .sleeping ∧ (u.proc q).chan = chan)) s := by
  refine safe_onCpu hR hs ?_
  intro c s hi hr hc
  by_cases hq : (s.cpu c).proc = some q
  · rw [if_pos hq]
    refine ⟨.inl rfl, hr, fun hz => ?_⟩
    rw [(hh s hr).awake hi hlk hc hq] at hz
    cases hz.1
  · rw [if_neg hq]
    cases hl : s.lock (.proc q) with
    | some e =>
      have he : e ≠ c := fun he => hq (hi.placed.owner q c (he ▸ hl))
      simp only [he, if_false]
      trivial
    | none =>
      by_cases hz : (s.proc q).state = .sleeping ∧ (s.proc q).chan = chan
      · have hk : Poked s (s.setProc q (fun x => { x with state := .runnable })) :=
          ⟨q, { s.proc q with state := .runnable }, hl, rfl, .inr ⟨hz.1, rfl⟩, rfl⟩
        simp only [hz, and_self, if_true]
        exact ⟨.inr (.poke hk), hpoke s _ hk hr, by simp⟩
      · simp only [hz, if_false]
        exact ⟨.inl rfl, hr, hz⟩

theorem safe_wakeupFrom {chan : Option Chan} {qs : List ProcId} (hs : R s) :
    team.Safe t (wakeupFrom chan qs) (fun _ => R) s := by
  induction qs generalizing s with
  | nil => exact hs
  | cons q qs ih =>
    exact (safe_wakeupOne hR hlk hh hpoke hs).seq (fun _ u hu => ih hu.1)

theorem safe_wakeup {chan : Option Chan} (hs : R s) : team.Safe t (wakeup chan) (fun _ => R) s :=
  safe_wakeupFrom hR hlk hh hpoke hs

/-- wakeup() on a process's own channel, as long as it cannot go back to sleep there. -/
theorem safe_wakeup_proc {r : ProcId} (hst : team.Stable t (fun s => R s ∧ ¬ s.Waits r))
    (hs : R s) :
    team.Safe t (wakeup (some (.proc r))) (fun _ u => R u ∧ ¬ u.Waits r) s := by
  have hpoke' : ∀ s u, Poked s u → (R s ∧ ¬ s.Waits r) → (R u ∧ ¬ u.Waits r) := by
    intro s u hk h
    refine ⟨hpoke s u hk h.1, ?_⟩
    obtain ⟨q, x, -, hx, hstate, rfl⟩ := hk
    have hw := h.2
    unfold Kern.Waits at hw ⊢
    grind
  have hafter : ∀ {qs : List ProcId} {s : Kern}, R s ∧ ¬ s.Waits r →
      team.Safe t (wakeupFrom (some (.proc r)) qs) (fun _ u => R u ∧ ¬ u.Waits r) s :=
    fun h => safe_wakeupFrom hst hlk (fun s h => hh s h.1) hpoke' h
  have hfrom : ∀ (qs : List ProcId) (s : Kern), r ∈ qs → R s →
      team.Safe t (wakeupFrom (some (.proc r)) qs) (fun _ u => R u ∧ ¬ u.Waits r) s := by
    intro qs
    induction qs with
    | nil => intro s hr; cases hr
    | cons q qs ih =>
      intro s hr hs
      refine (safe_wakeupOne hR hlk hh hpoke hs).seq (fun _ u hu => ?_)
      by_cases hq : q = r
      · subst hq
        exact hafter hu
      · exact ih u ((List.mem_cons.mp hr).resolve_left (fun h => hq h.symm)) hu.1
  exact hfrom slots s (List.mem_finRange r) hs

end

/-- An interrupt handler on top of a thread without locks. -/
theorem safe_devintr {n m : Nat} (hs : Calm t s) :
    team.Safe t (devintr n m) (fun _ u => team.pause t s u) s := by
  have hobj : ∀ p, Lock.object m ≠ .proc p := by simp
  have hk := keeps_stable t s
  refine (safe_acquire hk (keeps_ofKin t s).ofTable hobj hs (Keeps.refl t s)).seq ?_
  rintro - u ⟨hu, hr, -⟩
  refine (safe_wakeup ((holds_stable t (.object m)).and hk) hobj (fun _ h => h.1)
    (fun _ _ hp h => ⟨h.1.poked hp, h.2.poked hp⟩) ⟨hu, hr⟩).seq ?_
  rintro - v hv
  refine (safe_release ((holds_stable t (.object m)).and hk) hobj (fun _ h => h.1)
    (fun _ h => h.2) (keeps_ofKin t s).ofTable (by simp) hv).mono ?_
  rintro - w ⟨hw, hr⟩
  exact ⟨hs, hw, hr⟩

/-- While a hart holds p->lock, only the thread on it changes p's state. -/
theorem Move.locked {j : Tid} (hm : Move j s u) (hp : Placed s) (hl : s.lock (.proc p) = some c)
    (hj : j ≠ s.thread c) : (u.proc p).state = (s.proc p).state := by
  have hst := hp.stack
  have hown := hp.owner
  have halone := hp.alone
  unfold Kern.thread at hj
  cases hm <;> grind [Kern.freeproc, Poked, Kern.thread]

/-- Only a scheduler that has picked the process switches to it. -/
theorem Move.entered {j : Tid} (hm : Move j s u) (hp : ∀ c, (s.cpu c).stack ≠ some p)
    (hc : (u.cpu c).stack = some p) : j = .sched c ∧ u.proc p = s.proc p ∧
      u.lock (.proc p) = some c ∧ (u.proc p).state = .running := by
  have hpc := hp c
  cases hm <;> grind [Kern.freeproc, Poked]

/-- The process is about to call swtch() in sched(). -/
def Parked (p : ProcId) (s : Kern) : Prop :=
  ∃ c, (s.cpu c).stack = some p ∧ s.lock (.proc p) = some c ∧ (s.proc p).state ≠ .running

/-- The process has called swtch() in sched(): it is off the harts, or back with its lock. -/
def Away (p : ProcId) (s : Kern) : Prop :=
  (∀ c, (s.cpu c).stack ≠ some p) ∨
    ∃ c, (s.cpu c).stack = some p ∧ s.lock (.proc p) = some c ∧ (s.proc p).state = .running

theorem Calm.not_locked (h : Calm (.proc p) s) (hp : Placed s) (hc : (s.cpu c).stack = some p)
    (hl : s.lock (.proc p) = some c) : False := by
  obtain ⟨d, hd, hn, -⟩ := h
  obtain rfl := hp.hart_eq hd (thread_proc.mpr hc)
  have := hp.one _ d hl
  omega

theorem parked_stable (p : ProcId) : team.Stable (.proc p) (Parked p) where
  move := by
    rintro j s u hi hj hm ⟨c, hc, hl, hs⟩
    have hj' : j ≠ s.thread c := (thread_proc.mpr hc).symm ▸ hj
    obtain ⟨he, hk⟩ := hm.elsewhere hi.placed hj'
    exact ⟨c, by rw [he]; exact hc, hk _ hl, by rw [hm.locked hi.placed hl hj']; exact hs⟩
  pause := by
    rintro s u hi hp ⟨c, hc, hl, -⟩
    exact (hp.1.not_locked hi.placed hc hl).elim

theorem away_stable (p : ProcId) : team.Stable (.proc p) (Away p) where
  move := by
    rintro j s u hi hj hm (h | ⟨c, hc, hl, hs⟩)
    · by_cases hx : ∃ c, (u.cpu c).stack = some p
      · obtain ⟨c, hc⟩ := hx
        exact .inr ⟨c, hc, (hm.entered h hc).2.2⟩
      · exact .inl (fun c hc => hx ⟨c, hc⟩)
    · have hj' : j ≠ s.thread c := (thread_proc.mpr hc).symm ▸ hj
      obtain ⟨he, hk⟩ := hm.elsewhere hi.placed hj'
      exact .inr ⟨c, by rw [he]; exact hc, hk _ hl, by rw [hm.locked hi.placed hl hj']; exact hs⟩
  pause := by
    rintro s u hi hp (h | ⟨c, hc, hl, -⟩)
    · obtain ⟨c, hc, -⟩ := hp.1
      exact (h c (thread_proc.mp hc)).elim
    · exact (hp.1.not_locked hi.placed hc hl).elim

/-- sched(), up to its swtch(). -/
theorem safe_sched {R : Kern → Prop} (hR : team.Stable (.proc p) (fun s => Parked p s ∧ R s))
    (hC : ∀ s c, R s → R ((s.setProc p (fun x => { x with context := .saved })).setCpu c
      (fun x => { x with stack := none }))) (hs : Parked p s) (hr : R s) :
    team.Safe (.proc p) sched (fun _ u => (∀ c, (u.cpu c).stack ≠ some p) ∧ R u) s := by
  refine safe_onCpu hR ⟨hs, hr⟩ ?_
  rintro c s hi ⟨⟨d, hd, hl, hst⟩, hr⟩ hc
  obtain rfl := hi.placed.hart_eq (thread_proc.mpr hd) hc
  have hn := hi.placed.one _ d hl
  simp only [hi.placed.stack d p hd, hl, hn, hst, ne_eq, not_true_eq_false, if_false]
  refine ⟨.inr (.leave d p hd hl hst), fun e he => ?_, hC s d hr⟩
  have halone := hi.placed.alone
  have hstack := hi.placed.stack
  grind

/-- The release() after swtch(). -/
theorem safe_unlockFrom {R : Kern → Prop} (hR : team.Stable (.proc p) R) (hK : OfKin R)
    {f : Proc → Proc} (hf : ∀ x, f x = { x with chan := (f x).chan }) (hs : Away p s) (hr : R s) :
    team.Safe (.proc p) (unlockFrom p f) (fun _ u => Calm (.proc p) u ∧ R u) s := by
  refine safe_onCpu ((away_stable p).and hR) ⟨hs, hr⟩ ?_
  rintro c s hi ⟨h | ⟨d, hd, hl, hst⟩, hr⟩ hc
  · exact (h c (thread_proc.mp hc)).elim
  · obtain rfl := hi.placed.hart_eq (thread_proc.mpr hd) hc
    have hn := hi.placed.one _ d hl
    have hset : s.setProc p f = s.setProc p (fun x => { x with chan := (f (s.proc p)).chan }) := by
      unfold Kern.setProc
      rw [hf (s.proc p)]
    simp only [hl, hn, ne_eq, not_true_eq_false, if_false, Nat.lt_irrefl, hset]
    refine ⟨.inr (.resume d p _ hd hl hst), ⟨d, thread_proc.mpr ?_, ?_, by simp⟩, hK s _ ?_ hr⟩
    · simpa using hd
    · simp [hn]
    · intro q
      grind

theorem safe_switch {R : Kern → Prop} (hR : team.Stable (.proc p) R) (hK : OfKin R)
    {f : Proc → Proc} (hf : ∀ x, f x = { x with chan := (f x).chan }) (hs : Parked p s) (hr : R s) :
    team.Safe (.proc p) (sched >>= fun _ => unlockFrom p f)
      (fun _ u => Calm (.proc p) u ∧ R u) s := by
  refine (safe_sched ((parked_stable p).and hR) (fun s c => hK s _ (fun q => by grind)) hs hr).seq ?_
  rintro - u ⟨hu, hr⟩
  exact safe_unlockFrom hR hK hf (.inl hu) hr

theorem safe_yield (hs : Calm (.proc p) s) :
    team.Safe (.proc p) yield (fun _ u => team.pause (.proc p) s u) s := by
  have hk := keeps_stable (.proc p) s
  refine (safe_myproc ((calm_stable _).and hk) ⟨hs, Keeps.refl _ s⟩).seq ?_
  rintro q u ⟨rfl, hu⟩
  have hpark : team.Safe (.proc q)
      (lockInto q none (fun s => s.setProc q (fun x => { x with state := .runnable })))
      (fun _ v => Parked q v ∧ Keeps (.proc q) s v) u := by
    refine safe_onCpu ((calm_stable _).and hk) hu ?_
    rintro c s hi ⟨⟨d, hd, hn, -⟩, hr⟩ hc
    obtain rfl := hi.placed.hart_eq hd hc
    have hst := thread_proc.mp hd
    obtain ⟨hl, hrun⟩ := hi.placed.idle hst hn
    simp only [hl]
    refine ⟨.inr (.pause d q hst hn), ⟨d, by simpa using hst, by simp, by simp⟩, ?_⟩
    exact keeps_ofKin _ _ _ _ (fun r => by grind) hr
  refine hpark.seq ?_
  rintro - v ⟨hv, hr⟩
  refine (safe_switch hk (keeps_ofKin _ _) (fun x => rfl) hv hr).mono ?_
  rintro - w ⟨hw, hr⟩
  exact ⟨hs, hw, hr⟩

end Xv6.Sched
