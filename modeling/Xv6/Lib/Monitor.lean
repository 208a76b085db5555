import Xv6.Lib.Pool

/-- Data under one spinlock, with the threads that sleep on a channel until someone wakes it, and
those that have been killed. -/
structure Monitor (ι χ δ : Type) where
  lock : Option ι
  asleep : ι → Option χ
  killed : ι → Bool
  data : δ

/-- Everyone on channel `ch` is woken. -/
def wake {ι χ : Type} [DecidableEq χ] (ch : χ) (a : ι → Option χ) : ι → Option χ :=
  fun i => if a i = some ch then none else a i

namespace Monitor
variable {ε ι χ δ β : Type}

def start (d : δ) : Monitor ι χ δ := ⟨none, fun _ => none, fun _ => false, d⟩

section
variable [DecidableEq ι]

/-- acquire(); `e` is the panic of a thread that already holds the lock. -/
def acquire (e : ε) (i : ι) : Prog ε (Monitor ι χ δ) Unit :=
  .atomic fun s =>
    match s.lock with
    | none => .ok () { s with lock := some i }
    | some j => if j = i then .fail e else .wait

/-- release(), after a last change of the data; `e` is the panic of a thread that does not hold
the lock. -/
def releaseWith (e : ε) (i : ι) (f : δ → δ) : Prog ε (Monitor ι χ δ) Unit :=
  .atomic fun s =>
    if s.lock = some i then .ok () { s with lock := none, data := f s.data } else .fail e

def release (e : ε) (i : ι) : Prog ε (Monitor ι χ δ) Unit := releaseWith e i id

/-- The first half of sleep(): the thread is asleep when the lock is free again. -/
def doze (e : ε) (i : ι) (ch : χ) : Prog ε (Monitor ι χ δ) Unit :=
  .atomic fun s =>
    if s.lock = some i then .ok () { s with lock := none, asleep := setAt s.asleep i (some ch) }
    else .fail e

def awake (i : ι) : Prog ε (Monitor ι χ δ) Unit :=
  .atomic fun s => if (s.asleep i).isNone then .ok () s else .wait

/-- sleep(); the lock is held again when it returns. -/
def sleep (e e' : ε) (i : ι) (ch : χ) : Prog ε (Monitor ι χ δ) Unit := do
  doze e i ch
  awake i
  acquire e' i

/-- kill() of thread `j`, which wakes it up. -/
def kill (j : ι) : Prog ε (Monitor ι χ δ) Unit :=
  .atomic fun s =>
    .ok () { s with killed := setAt s.killed j true, asleep := setAt s.asleep j none }

end

/-- wakeup(). Its callers hold the lock, so nobody falls asleep on the channel meanwhile, and the
whole scan is one step. -/
def wakeup [DecidableEq χ] (ch : χ) : Prog ε (Monitor ι χ δ) Unit :=
  .atomic fun s => .ok () { s with asleep := wake ch s.asleep }

def killedOf (i : ι) : Prog ε (Monitor ι χ δ) Bool :=
  .atomic fun s => .ok (s.killed i) s

/-- A step on the data. -/
def onData (f : δ → β × δ) : Prog ε (Monitor ι χ δ) β :=
  .atomic fun s => .ok (f s.data).1 { s with data := (f s.data).2 }

/-- A piece of code on the data as one step. -/
def onProg (p : Prog ε δ β) : Prog ε (Monitor ι χ δ) β :=
  .atomic fun s =>
    match p.exec s.data with
    | .ok b d => .ok b { s with data := d }
    | .wait => .wait
    | .fail e => .fail e

def read (f : δ → β) : Prog ε (Monitor ι χ δ) β := onData fun d => (f d, d)
def write (f : δ → δ) : Prog ε (Monitor ι χ δ) Unit := onData fun d => ((), f d)

end Monitor

/-- How the threads of a monitor use its data: what holds of it always, what holds of it and the
sleepers while the lock is free, what a thread may do to it with the lock, and what without. -/
structure Rules (ι χ δ : Type) [DecidableEq ι] where
  always : δ → Prop
  free : (ι → Option χ) → δ → Prop
  guar : ι → δ → δ → Prop
  env : ι → δ → δ → Prop
  wakes : ∀ {a d j}, free a d → free (setAt a j none) d
  env_always : ∀ {i d d'}, always d → env i d d' → always d'
  env_free : ∀ {i a d d'}, always d → free a d → env i d d' → free a d'

namespace Rules
variable {ε ι χ δ β : Type} [DecidableEq ι] (w : Rules ι χ δ)

inductive Move (i : ι) (s : Monitor ι χ δ) : Monitor ι χ δ → Prop where
  | acquire (hl : s.lock = none) : Move i s { s with lock := some i }
  | work {a : ι → Option χ} {d : δ} (hl : s.lock = some i) (ha : a i = s.asleep i)
      (hw : ∀ j, a j = s.asleep j ∨ a j = none) (hd : w.always d) (hg : d = s.data ∨ w.guar i s.data d) :
      Move i s { s with asleep := a, data := d }
  | release {d : δ} (hl : s.lock = some i) (hd : w.always d) (hf : w.free s.asleep d)
      (hg : d = s.data ∨ w.guar i s.data d) : Move i s { s with lock := none, data := d }
  | doze (ch : χ) (hl : s.lock = some i) (hf : w.free (setAt s.asleep i (some ch)) s.data) :
      Move i s { s with lock := none, asleep := setAt s.asleep i (some ch) }
  | kill (j : ι) :
      Move i s { s with killed := setAt s.killed j true, asleep := setAt s.asleep j none }
  | env {d : δ} (he : w.env i s.data d) : Move i s { s with data := d }

structure Inv (s : Monitor ι χ δ) : Prop where
  always : w.always s.data
  free : s.lock = none → w.free s.asleep s.data

variable {w}

theorem Inv.move {i : ι} {s t : Monitor ι χ δ} (h : w.Inv s) (hm : w.Move i s t) : w.Inv t := by
  cases hm with
  | acquire hl => exact ⟨h.always, fun hn => by cases hn⟩
  | work hl ha hw hd hg =>
    refine ⟨hd, fun hn => ?_⟩
    rw [hl] at hn
    cases hn
  | release hl hd hf hg => exact ⟨hd, fun _ => hf⟩
  | doze ch hl hf => exact ⟨h.always, fun _ => hf⟩
  | kill j => exact ⟨h.always, fun hn => w.wakes (h.free hn)⟩
  | env he => exact ⟨w.env_always h.always he, fun hn => w.env_free h.always (h.free hn) he⟩

/-- The data changes only as the rules allow. -/
theorem Move.data {i : ι} {s t : Monitor ι χ δ} (hm : w.Move i s t) :
    t.data = s.data ∨ w.guar i s.data t.data ∨ w.env i s.data t.data := by
  cases hm with
  | work hl ha hw hd hg => exact hg.imp id .inl
  | release hl hd hf hg => exact hg.imp id .inl
  | env he => exact .inr (.inr he)
  | acquire hl => exact .inl rfl
  | doze ch hl hf => exact .inl rfl
  | kill j => exact .inl rfl

variable (w)

/-- The threads as a team; `fails` are the panics they may run into. -/
def conduct (fails : ε → Prop) : Conduct ε (Monitor ι χ δ) ι where
  inv := w.Inv
  move := w.Move
  fails := fails
  keeps := Inv.move

/-- An assertion about the sleepers and the data that others cannot break while thread `i` has
the lock. -/
structure Firm (i : ι) (p : (ι → Option χ) → δ → Prop) : Prop where
  kill : ∀ {a d} j, p a d → p (setAt a j none) d
  env : ∀ {j a d d'}, j ≠ i → w.always d → p a d → w.env j d d' → p a d'

/-- An assertion about the data that others cannot break at all. -/
structure Lasting (i : ι) (q : δ → Prop) : Prop where
  guar : ∀ {j d d'}, j ≠ i → w.always d → q d → w.guar j d d' → q d'
  env : ∀ {j d d'}, j ≠ i → w.always d → q d → w.env j d d' → q d'

variable {w} {i : ι}

theorem lasting_true : w.Lasting i (fun _ => True) := ⟨fun _ _ _ _ => trivial, fun _ _ _ _ => trivial⟩

/-- Thread `i` has the lock. -/
structure Inside (i : ι) (p : (ι → Option χ) → δ → Prop) (s : Monitor ι χ δ) : Prop where
  lock : s.lock = some i
  awake : s.asleep i = none
  holds : p s.asleep s.data

/-- Thread `i` does not have the lock, and is not asleep. -/
structure Outside (i : ι) (q : δ → Prop) (s : Monitor ι χ δ) : Prop where
  lock : s.lock ≠ some i
  awake : s.asleep i = none
  holds : q s.data

/-- Thread `i` does not have the lock, and may be asleep. -/
structure Napping (i : ι) (q : δ → Prop) (s : Monitor ι χ δ) : Prop where
  lock : s.lock ≠ some i
  holds : q s.data

section
variable {fails : ε → Prop}

theorem Inside.stable {p : (ι → Option χ) → δ → Prop} (hp : w.Firm i p) :
    (w.conduct fails).team.Stable i (Inside i p) := by
  refine Conduct.stable fun j s t hi hj hm h => ?_
  have hne : s.lock ≠ some j := by
    rw [h.lock]
    exact fun he => hj (Option.some.inj he).symm
  cases hm with
  | acquire hl =>
    rw [h.lock] at hl
    cases hl
  | work hl => exact (hne hl).elim
  | release hl => exact (hne hl).elim
  | doze ch hl => exact (hne hl).elim
  | kill k =>
    refine ⟨h.lock, ?_, hp.kill k h.holds⟩
    show setAt s.asleep k none i = none
    rw [setAt_apply]
    split
    · rfl
    · exact h.awake
  | env he => exact ⟨h.lock, h.awake, hp.env hj hi.always h.holds he⟩

/-- What others do to someone who does not have the lock: they never put that thread to sleep. -/
theorem Move.outside {j : ι} {s t : Monitor ι χ δ} (hm : w.Move j s t) (hi : w.Inv s) (hj : j ≠ i)
    (hl : s.lock ≠ some i) {q : δ → Prop} (hq : w.Lasting i q) (h : q s.data) :
    t.lock ≠ some i ∧ (s.asleep i = none → t.asleep i = none) ∧ q t.data := by
  have hsome : some j ≠ some i := fun he => hj (Option.some.inj he)
  have hdata : ∀ d, d = s.data ∨ w.guar j s.data d → q d := by
    intro d hd
    rcases hd with rfl | hg
    · exact h
    · exact hq.guar hj hi.always h hg
  cases hm with
  | acquire _ => exact ⟨hsome, id, h⟩
  | work hl' ha hw hd hg =>
    refine ⟨hl, fun hn => ?_, hdata _ hg⟩
    rcases hw i with he | he
    · exact he.trans hn
    · exact he
  | release hl' hd hf hg => exact ⟨by simp, id, hdata _ hg⟩
  | doze ch hl' hf =>
    refine ⟨by simp, fun hn => ?_, h⟩
    show setAt s.asleep j (some ch) i = none
    rw [setAt_other _ _ _ (Ne.symm hj)]
    exact hn
  | kill k =>
    refine ⟨hl, fun hn => ?_, h⟩
    show setAt s.asleep k none i = none
    rw [setAt_apply]
    split
    · rfl
    · exact hn
  | env he => exact ⟨hl, id, hq.env hj hi.always h he⟩

theorem Outside.stable {q : δ → Prop} (hq : w.Lasting i q) :
    (w.conduct fails).team.Stable i (Outside i q) :=
  Conduct.stable fun j s t hi hj hm h => by
    obtain ⟨h1, h2, h3⟩ := hm.outside hi hj h.lock hq h.holds
    exact ⟨h1, h2 h.awake, h3⟩

theorem Napping.stable {q : δ → Prop} (hq : w.Lasting i q) :
    (w.conduct fails).team.Stable i (Napping i q) :=
  Conduct.stable fun j s t hi hj hm h => by
    obtain ⟨h1, -, h3⟩ := hm.outside hi hj h.lock hq h.holds
    exact ⟨h1, h3⟩

variable {s : Monitor ι χ δ} {e e' : ε} {p : (ι → Option χ) → δ → Prop} {q : δ → Prop}

/-- acquire() gives the thread what holds while the lock is free. -/
theorem safe_acquire (hq : w.Lasting i q) (h : Outside i q s) :
    (w.conduct fails).team.Safe i (Monitor.acquire e i)
      (fun _ => Inside i (fun a d => w.free a d ∧ q d)) s := by
  refine Conduct.safe (Outside.stable hq) h ?_
  intro s hi h
  cases hl : s.lock with
  | none =>
    dsimp only
    exact ⟨.inr (.acquire hl), rfl, h.awake, hi.free hl, h.holds⟩
  | some j =>
    have hj : j ≠ i := fun he => h.lock (he ▸ hl)
    simp only [hj, if_false]
    trivial

/-- release() asks for it back. -/
theorem safe_releaseWith {f : δ → δ} (hp : w.Firm i p) (h : Inside i p s)
    (hf : ∀ a d, w.always d → p a d → w.free a (f d) ∧ w.always (f d) ∧
      (f d = d ∨ w.guar i d (f d)) ∧ q (f d)) :
    (w.conduct fails).team.Safe i (Monitor.releaseWith e i f) (fun _ => Outside i q) s := by
  refine Conduct.safe (Inside.stable hp) h ?_
  intro s hi h
  obtain ⟨h1, h2, h3, h4⟩ := hf _ _ hi.always h.holds
  simp only [h.lock, if_true]
  exact ⟨.inr (.release h.lock h2 h1 h3), by simp [Conduct.team], h.awake, h4⟩

theorem safe_release (hp : w.Firm i p) (h : Inside i p s)
    (hf : ∀ a d, w.always d → p a d → w.free a d ∧ q d) :
    (w.conduct fails).team.Safe i (Monitor.release e i) (fun _ => Outside i q) s :=
  safe_releaseWith hp h fun a d hd hpd =>
    ⟨(hf a d hd hpd).1, hd, .inl rfl, (hf a d hd hpd).2⟩

/-- sleep() gives the lock up with the thread asleep, and comes back with it. -/
theorem safe_sleep {ch : χ} (hp : w.Firm i p) (hq : w.Lasting i q) (h : Inside i p s)
    (hf : ∀ a d, w.always d → p a d → w.free (setAt a i (some ch)) d ∧ q d) :
    (w.conduct fails).team.Safe i (Monitor.sleep e e' i ch)
      (fun _ => Inside i (fun a d => w.free a d ∧ q d)) s := by
  have hdoze : (w.conduct fails).team.Safe i (Monitor.doze e i ch) (fun _ => Napping i q) s := by
    refine Conduct.safe (Inside.stable hp) h ?_
    intro s hi h
    obtain ⟨h1, h2⟩ := hf _ _ hi.always h.holds
    simp only [h.lock, if_true]
    exact ⟨.inr (.doze ch h.lock h1), by simp [Conduct.team], h2⟩
  have hawake : ∀ u, Napping i q u → (w.conduct fails).team.Safe i
      (Monitor.awake i : Prog ε (Monitor ι χ δ) Unit) (fun _ => Outside i q) u := by
    intro u hu
    refine Conduct.safe (Napping.stable hq) hu ?_
    intro s hi h
    cases ha : s.asleep i with
    | none =>
      simp only [Option.isNone_none, if_true]
      exact ⟨.inl rfl, h.lock, ha, h.holds⟩
    | some c =>
      simp only [Option.isNone_some, Bool.false_eq_true, if_false]
      trivial
  exact hdoze.seq fun _ u hu => (hawake u hu).seq fun _ v hv => safe_acquire hq hv

theorem safe_wakeup [DecidableEq χ] {ch : χ} {p' : (ι → Option χ) → δ → Prop} (hp : w.Firm i p)
    (h : Inside i p s) (hf : ∀ a d, w.always d → p a d → p' (wake ch a) d) :
    (w.conduct fails).team.Safe i (Monitor.wakeup ch : Prog ε (Monitor ι χ δ) Unit)
      (fun _ => Inside i p') s := by
  refine Conduct.safe (Inside.stable hp) h ?_
  intro s hi h
  have hself : wake ch s.asleep i = s.asleep i := by simp [wake, h.awake]
  refine ⟨.inr (.work h.lock hself (fun j => ?_) hi.always (.inl rfl)), h.lock,
    hself.trans h.awake, hf _ _ hi.always h.holds⟩
  simp only [wake]
  split
  · exact .inr rfl
  · exact .inl rfl

theorem safe_killedOf (hp : w.Firm i p) (h : Inside i p s) :
    (w.conduct fails).team.Safe i (Monitor.killedOf i : Prog ε (Monitor ι χ δ) Bool)
      (fun _ => Inside i p) s :=
  Conduct.safe (Inside.stable hp) h fun _ _ h => ⟨.inl rfl, h⟩

/-- A step on the data by the thread that has the lock. -/
theorem safe_onData {f : δ → β × δ} {p' : β → (ι → Option χ) → δ → Prop} (hp : w.Firm i p)
    (h : Inside i p s) (hf : ∀ a d, w.always d → p a d → w.always (f d).2 ∧
      ((f d).2 = d ∨ w.guar i d (f d).2) ∧ p' (f d).1 a (f d).2) :
    (w.conduct fails).team.Safe i (Monitor.onData f : Prog ε (Monitor ι χ δ) β)
      (fun b => Inside i (p' b)) s := by
  refine Conduct.safe (Inside.stable hp) h ?_
  intro s hi h
  obtain ⟨h1, h2, h3⟩ := hf _ _ hi.always h.holds
  exact ⟨.inr (.work h.lock rfl (fun _ => .inl rfl) h1 h2), h.lock, h.awake, h3⟩

/-- A step on the data by a thread without the lock. -/
theorem safe_env {f : Prog ε δ β} {q' : β → δ → Prop} (hq : w.Lasting i q) (h : Outside i q s)
    (hf : ∀ d, w.always d → q d →
      match f.exec d with
      | .ok b d' => (d' = d ∨ w.env i d d') ∧ q' b d'
      | .wait => True
      | .fail e => fails e) :
    (w.conduct fails).team.Safe i (Monitor.onProg f : Prog ε (Monitor ι χ δ) β)
      (fun b => Outside i (q' b)) s := by
  refine Conduct.safe (Outside.stable hq) h ?_
  intro s hi h
  have hexec := hf _ hi.always h.holds
  cases ho : f.exec s.data with
  | ok b d =>
    rw [ho] at hexec
    obtain ⟨h1, h2⟩ := hexec
    dsimp only
    refine ⟨?_, h.lock, h.awake, h2⟩
    rcases h1 with rfl | he
    · exact .inl rfl
    · exact .inr (.env he)
  | wait =>
    dsimp only
    trivial
  | fail e =>
    rw [ho] at hexec
    dsimp only
    exact hexec

theorem safe_read {f : δ → β} (hp : w.Firm i p) (h : Inside i p s) :
    (w.conduct fails).team.Safe i (Monitor.read f : Prog ε (Monitor ι χ δ) β)
      (fun b => Inside i (fun a d => p a d ∧ f d = b)) s :=
  safe_onData hp h fun _ _ hd hpd => ⟨hd, .inl rfl, hpd, rfl⟩

theorem safe_write {f : δ → δ} {p' : (ι → Option χ) → δ → Prop} (hp : w.Firm i p)
    (h : Inside i p s) (hf : ∀ a d, w.always d → p a d → w.always (f d) ∧
      (f d = d ∨ w.guar i d (f d)) ∧ p' a (f d)) :
    (w.conduct fails).team.Safe i (Monitor.write f : Prog ε (Monitor ι χ δ) Unit)
      (fun _ => Inside i p') s :=
  safe_onData hp h hf

theorem safe_kill (j : ι) (h : Outside i q s) (hq : w.Lasting i q) :
    (w.conduct fails).team.Safe i (Monitor.kill j : Prog ε (Monitor ι χ δ) Unit)
      (fun _ => Outside i q) s := by
  refine Conduct.safe (Outside.stable hq) h ?_
  intro s hi h
  refine ⟨.inr (.kill j), h.lock, ?_, h.holds⟩
  show setAt s.asleep j none i = none
  rw [setAt_apply]
  split
  · rfl
  · exact h.awake

end
end Rules
