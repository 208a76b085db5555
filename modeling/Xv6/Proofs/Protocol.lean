import Xv6.Protocol
namespace Xv6.Sched

namespace Kern
variable (s : Kern) (p q : ProcId) (c d : CpuId) (lk l : Lock)

@[simp, grind =] theorem setProc_proc (f : Proc → Proc) :
    (s.setProc p f).proc q = if q = p then f (s.proc p) else s.proc q := rfl
@[simp, grind =] theorem setProc_cpu (f : Proc → Proc) : (s.setProc p f).cpu c = s.cpu c := rfl
@[simp, grind =] theorem setProc_lock (f : Proc → Proc) : (s.setProc p f).lock l = s.lock l := rfl

@[simp, grind =] theorem setCpu_proc (f : Cpu → Cpu) : (s.setCpu c f).proc q = s.proc q := rfl
@[simp, grind =] theorem setCpu_cpu (f : Cpu → Cpu) :
    (s.setCpu c f).cpu d = if d = c then f (s.cpu c) else s.cpu d := rfl
@[simp, grind =] theorem setCpu_lock (f : Cpu → Cpu) : (s.setCpu c f).lock l = s.lock l := rfl

@[simp, grind =] theorem acquire_proc : (s.acquire c lk).proc q = s.proc q := rfl
@[simp, grind =] theorem acquire_cpu : (s.acquire c lk).cpu d =
    if d = c then { s.cpu c with noff := (s.cpu c).noff + 1 } else s.cpu d := rfl
@[simp, grind =] theorem acquire_lock :
    (s.acquire c lk).lock l = if l = lk then some c else s.lock l := rfl

@[simp, grind =] theorem release_proc : (s.release c lk).proc q = s.proc q := rfl
@[simp, grind =] theorem release_cpu : (s.release c lk).cpu d =
    if d = c then { s.cpu c with noff := (s.cpu c).noff - 1 } else s.cpu d := rfl
@[simp, grind =] theorem release_lock :
    (s.release c lk).lock l = if l = lk then none else s.lock l := rfl

@[simp, grind =] theorem record_proc (e : Event) : (s.record e).proc q = s.proc q := rfl
@[simp, grind =] theorem record_cpu (e : Event) : (s.record e).cpu c = s.cpu c := rfl
@[simp, grind =] theorem record_lock (e : Event) : (s.record e).lock l = s.lock l := rfl

end Kern


/-- A process that runs with its lock free is on a hart. -/
theorem Placed.runs_move {t : Tid} {s u : Kern} (h : Placed s) (hr : Related s) (hm : Move t s u)
    (q : ProcId) (hl : u.lock (.proc q) = none) (hs : (u.proc q).state = .running) :
    ∃ c, (u.cpu c).proc = some q := by
  have hmade := hr.made
  have hown := h.owner
  -- it was on one before: with its lock free, or held by that hart
  have hat : ∃ c, (s.cpu c).proc = some q := by
    cases h0 : s.lock (.proc q) with
    | none =>
      refine h.runs q h0 ?_
      cases hm <;> grind [Kern.freeproc, Poked]
    | some c => exact ⟨c, hown q c h0⟩
  obtain ⟨c, hc⟩ := hat
  have halone := h.alone
  have honly := h.only
  refine ⟨c, ?_⟩
  cases hm <;> grind [Kern.freeproc, Poked]

theorem Placed.move {t : Tid} {s u : Kern} (h : Placed s) (hr : Related s) (hm : Move t s u) :
    Placed u := by
  have hruns := h.runs_move hr hm
  have h8 := hr.made
  clear hr
  obtain ⟨h1, h2, h3, h4, h5, h6, h7⟩ := h
  refine ⟨?_, ?_, ?_, ?_, ?_, ?_, hruns⟩ <;> clear hruns h7 <;> cases hm <;> grind [Kern.freeproc, Poked]

/-- A process whose own code is running, without its lock, is RUNNING. -/
theorem Placed.running {s : Kern} (h : Placed s) {c : CpuId} {p : ProcId}
    (hc : (s.cpu c).stack = some p) (hl : s.lock (.proc p) ≠ some c) :
    s.lock (.proc p) = none ∧ (s.proc p).state = .running := by
  have hp := h.stack c p hc
  have hf : s.lock (.proc p) = none := by
    cases h0 : s.lock (.proc p) with
    | none => rfl
    | some d => exact absurd (h.alone c d p hp (h.owner p d h0) ▸ h0) hl
  exact ⟨hf, (h.on p c hf hp).1⟩

theorem Placed.holding {s : Kern} (h : Placed s) {c : CpuId} {p : ProcId} {lk : Lock}
    (hc : (s.cpu c).stack = some p) (hl : s.lock lk = some c) (hp : ∀ q, lk ≠ .proc q) :
    s.lock (.proc p) = none ∧ (s.proc p).state = .running :=
  h.running hc (fun h0 => hp p (h.only _ _ c hl h0))

theorem Placed.idle {s : Kern} (h : Placed s) {c : CpuId} {p : ProcId}
    (hc : (s.cpu c).stack = some p) (hn : (s.cpu c).noff = 0) :
    s.lock (.proc p) = none ∧ (s.proc p).state = .running :=
  h.running hc (fun h0 => by have := h.one _ c h0; omega)

section
variable {t : Tid} {s u : Kern} (h : Related s) (hp : Placed s) (hm : Move t s u)
include h hm

theorem Related.unused_move (q : ProcId) (hu : (u.proc q).state = .unused) :
    (u.proc q).parent = none := by
  have hun := h.unused
  have hmade := h.made
  have hpar := h.parent
  cases hm <;> grind [Kern.freeproc, Poked]

theorem Related.init_move : (u.proc initproc).state ≠ .unused ∧ (u.proc initproc).state ≠ .used ∧
    (u.proc initproc).state ≠ .zombie := by
  have hinit := h.init
  have hmade := h.made
  cases hm <;> grind [Kern.freeproc, Poked]

theorem Related.chan_move (q r : ProcId) (hs : (u.proc q).state = .sleeping)
    (hc : (u.proc q).chan = some (.proc r)) : r = q := by
  have hchan := h.chan
  cases hm <;> grind [Kern.freeproc, Poked]

theorem Related.maker_move (q p : ProcId) (hk : (u.proc q).maker = some p) :
    (u.proc p).state ≠ .unused ∧ (u.proc p).state ≠ .zombie := by
  have hmaker := h.maker
  have hmade := h.made
  cases hm <;> grind [Kern.freeproc, Poked]

include hp

theorem Related.parent_move (q r : ProcId) (hq : (u.proc q).parent = some r) :
    (u.proc r).state ≠ .unused ∧ (u.proc r).state ≠ .zombie := by
  have hpar := h.parent
  have hmade := h.made
  have hinit := h.init
  have hold := @Placed.holding s hp
  cases hm <;> grind [Kern.freeproc, Poked]

theorem Related.orphan_move (q : ProcId) (hi : q ≠ initproc) (hu : (u.proc q).state ≠ .unused)
    (hs : (u.proc q).state ≠ .used) : (u.proc q).parent ≠ none := by
  have horph := h.orphan
  have hold := @Placed.holding s hp
  have hidle := @Placed.idle s hp
  cases hm <;> grind [Kern.freeproc, Poked]

theorem Related.made_move (q p : ProcId) (hk : (u.proc q).maker = some p) :
    (u.proc q).state = .used ∧ ((u.proc q).parent = none ∨ (u.proc q).parent = some p) := by
  have hmade := h.made
  have hun := h.unused
  have hold := @Placed.holding s hp
  have hidle := @Placed.idle s hp
  cases hm <;> grind [Kern.freeproc, Poked]

theorem Related.rested_move (hl : u.lock .wait = none) : u.Rested := by
  have hrest := h.rested
  have hun := h.unused
  have hold := @Placed.holding s hp
  cases hm <;> grind [Kern.freeproc, Poked, Kern.Rested, Kern.Waits]

theorem Related.move : Related u where
  parent := h.parent_move hp hm
  orphan := h.orphan_move hp hm
  unused := h.unused_move hm
  made := h.made_move hp hm
  maker := h.maker_move hm
  init := h.init_move hm
  chan := h.chan_move hm
  rested := h.rested_move hp hm

end

theorem exited_cons (e : Event) (es : List Event) (l : Nat) :
    Exited (e :: es) l ↔ (∃ p pid st, e = .exited p l pid st) ∨ Exited es l := by
  simp only [Exited, List.mem_cons, ← exists_or, eq_comm]

theorem waited_cons (e : Event) (es : List Event) (l : Nat) :
    Waited (e :: es) l ↔ (∃ c r p pid st, e = .waited c r p l pid st) ∨ Waited es l := by
  simp only [Waited, List.mem_cons, ← exists_or, eq_comm]

theorem Chronicle.same {s u : Kern} (h : Chronicle s) (he : u.events = s.events)
    (hl : u.lives = s.lives) (hq : ∀ q, (s.proc q).state ≠ .unused → (u.proc q).life = (s.proc q).life)
    (hu : ∀ q, (u.proc q).state = .unused ↔ (s.proc q).state = .unused)
    (hz : ∀ q, (u.proc q).state = .zombie ↔ (s.proc q).state = .zombie)
    (hp : ∀ q, (s.proc q).state ≠ .unused → (u.proc q).pid = (s.proc q).pid)
    (hx : ∀ q, (s.proc q).state = .zombie → (u.proc q).xstate = (s.proc q).xstate) :
    Chronicle u := by
  obtain ⟨h1, h2, h3, h4, h5, h6, h7⟩ := h
  constructor
  · rw [he]; exact h1
  · rw [he, hl]; exact h2
  all_goals grind


theorem Chronicle.alloc {s u : Kern} (h : Chronicle s) (q : ProcId)
    (hu : (s.proc q).state = .unused) (hl : u.lives = s.lives + 1)
    (he : u.events = .forked q s.lives (u.proc q).pid :: s.events)
    (hp : ∀ r, r ≠ q → u.proc r = s.proc r)
    (hq : (u.proc q).state = .used ∧ (u.proc q).life = s.lives) : Chronicle u := by
  obtain ⟨h1, h2, h3, h4, h5, h6, h7⟩ := h
  have hx : ∀ l, Exited u.events l ↔ Exited s.events l := by
    intro l; rw [he, exited_cons]; simp
  have hw : ∀ l, Waited u.events l ↔ Waited s.events l := by
    intro l; rw [he, waited_cons]; simp
  have hxl : ∀ l, Exited s.events l → l < s.lives := fun l ⟨_, _, _, he⟩ => h2 _ he
  have hwl : ∀ l, Waited s.events l → l < s.lives := fun l ⟨_, _, _, _, _, he⟩ => h2 _ he
  have hlt : ∀ q, (s.proc q).state ≠ .unused → (s.proc q).life < s.lives :=
    fun q hq => h2 _ (h3 q hq).1
  constructor
  · rw [he]
    refine ⟨⟨h2, fun l pid st hm => ?_⟩, h1⟩
    exact (h7 q l pid st hm).resolve_right (fun hz => by rw [hu] at hz; cases hz.1)
  all_goals grind [Event.life]

theorem Chronicle.die {s u : Kern} (h : Chronicle s) (p : ProcId) (status : Int32)
    (hs : (s.proc p).state = .running) (hl : u.lives = s.lives)
    (he : u.events = .exited p (s.proc p).life (s.proc p).pid status :: s.events)
    (hp : ∀ q, u.proc q = if q = p then { s.proc p with xstate := status, state := .zombie } else s.proc q) :
    Chronicle u := by
  obtain ⟨h1, h2, h3, h4, h5, h6, h7⟩ := h
  have hx : ∀ l, Exited u.events l ↔ l = (s.proc p).life ∨ Exited s.events l := by
    intro l; rw [he, exited_cons]; grind
  have hw : ∀ l, Waited u.events l ↔ Waited s.events l := by
    intro l; rw [he, waited_cons]; simp
  constructor
  · rw [he]
    exact ⟨⟨(h3 p (by simp [hs])).1, h4 p (by simp [hs]) (by simp [hs])⟩, h1⟩
  all_goals grind [Event.life]

theorem Chronicle.reap {s u : Kern} (h : Chronicle s) (c q : ProcId)
    (hs : (s.proc q).state = .zombie) (hc : (s.proc q).parent = some c) (hl : u.lives = s.lives)
    (he : u.events = .waited c (s.proc q).parent q (s.proc q).life (s.proc q).pid (s.proc q).xstate :: s.events)
    (hp : ∀ r, r ≠ q → u.proc r = s.proc r) (hq : (u.proc q).state = .unused) :
    Chronicle u := by
  obtain ⟨h1, h2, h3, h4, h5, h6, h7⟩ := h
  have hx : ∀ l, Exited u.events l ↔ Exited s.events l := by
    intro l; rw [he, exited_cons]; simp
  have hw : ∀ l, Waited u.events l ↔ l = (s.proc q).life ∨ Waited s.events l := by
    intro l; rw [he, waited_cons]; grind
  constructor
  · rw [he]
    exact ⟨⟨h5 q hs, (h3 q (by simp [hs])).2, hc⟩, h1⟩
  all_goals grind [Event.life]

theorem Chronicle.move {t : Tid} {s u : Kern} (h : Chronicle s) (hp : Placed s) (hr : Related s)
    (hm : Move t s u) : Chronicle u := by
  have hmade := hr.made
  cases hm with
  | alloc p q n hl hu hs =>
    refine h.alloc q hu rfl ?_ (fun r hr => by simp [hr]) (by simp)
    simp [Kern.record, Kern.setProc]
  | die c p status hc hl hi hr hk hm hw =>
    exact h.die p status (hp.holding hc hl (by simp)).2 rfl rfl (fun q => by simp)
  | reap c p q hc hw hl hp hz =>
    exact h.reap p q hz hp rfl rfl (fun r hr => by simp [Kern.freeproc, hr]) (by simp [Kern.freeproc])
  | pause c p hc hn =>
    have := hp.idle hc hn
    refine h.same rfl rfl ?_ ?_ ?_ ?_ ?_ <;> grind
  | doze c p chan lk hc hl' hl hch =>
    have := hp.holding hc hl hl'
    refine h.same rfl rfl ?_ ?_ ?_ ?_ ?_ <;> grind
  | poke hk =>
    obtain ⟨q, x, hl, hx, hs, rfl⟩ := hk
    refine h.same rfl rfl ?_ ?_ ?_ ?_ ?_ <;> grind
  | _ => refine h.same rfl rfl ?_ ?_ ?_ ?_ ?_ <;> grind

theorem Inv.move {t : Tid} {s u : Kern} (h : Inv s) (hm : Move t s u) : Inv u where
  placed := h.placed.move h.related hm
  related := h.related.move h.placed hm
  chronicle := h.chronicle.move h.placed h.related hm

end Xv6.Sched
