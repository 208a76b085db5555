import Xv6.Lib.Run
import Xv6.Lib.Table
import Xv6.Lib.Team

/-- Threads that make calls on one shared state, each one call at a time: what is left of
everyone's call, and why the machine stopped, if it did. -/
structure Pool (ε σ ι α : Type) : Type 1 where
  state : σ
  rest : ι → Prog ε σ α
  failed : Option ε

/-- What a call runs, how a thread whose program ended in an `α` goes on with its call (a loop
is a program per round), and when one that is done with it may make the next. -/
structure Calls (ε σ ι α κ : Type) where
  prog : ι → κ → Prog ε σ α
  onward : ι → α → Option (Prog ε σ α)
  may : ι → α → κ → σ → Bool

/-- A thread takes one step of its call, or makes one. -/
inductive PoolAction (ι κ : Type) where
  | run (i : ι)
  | call (i : ι) (c : κ)

namespace Pool
variable {ε σ ι α κ : Type} [DecidableEq ι]

def run (w : Calls ε σ ι α κ) (m : Pool ε σ ι α) (i : ι) : Option (Pool ε σ ι α) :=
  match m.rest i with
  | .ret a => (w.onward i a).map (fun r => { m with rest := setAt m.rest i r })
  | .act g k =>
    match g m.state with
    | .ok b s => some { m with state := s, rest := setAt m.rest i (k b) }
    | .wait => none
    | .fail e => some { m with failed := some e }

def call (w : Calls ε σ ι α κ) (m : Pool ε σ ι α) (i : ι) (c : κ) : Option (Pool ε σ ι α) :=
  match m.rest i with
  | .ret a =>
    if (w.onward i a).isNone && w.may i a c m.state then
      some { m with rest := setAt m.rest i (w.prog i c) }
    else none
  | .act _ _ => none

def step (w : Calls ε σ ι α κ) (m : Pool ε σ ι α) (a : PoolAction ι κ) : Option (Pool ε σ ι α) :=
  if m.failed.isSome then none
  else
    match a with
    | .run i => m.run w i
    | .call i c => m.call w i c

/-- Nobody is in a call. -/
def start (s : σ) (a : α) : Pool ε σ ι α := ⟨s, fun _ => .ret a, none⟩

end Pool

/-- How the threads of a pool behave: what they keep, what they may do to the state, and with
what they may stop. -/
structure Conduct (ε σ ι : Type) where
  inv : σ → Prop
  move : ι → σ → σ → Prop
  fails : ε → Prop
  keeps : ∀ {i s t}, inv s → move i s t → inv t

/-- The threads as a team: each sees the whole state, and is not interrupted. -/
def Conduct.team {ε σ ι : Type} (w : Conduct ε σ ι) : Team ε σ σ ι where
  sees _ s x := x = s
  put _ x := x
  inv := w.inv
  move := w.move
  pause _ _ _ := False
  ended _ _ := False
  fails := w.fails
  keeps := w.keeps

section
variable {ε σ ι α κ : Type} {w : Conduct ε σ ι} {i : ι} {s : σ}

theorem Conduct.stable {p : σ → Prop} (h : ∀ j s t, w.inv s → j ≠ i → w.move j s t → p s → p t) :
    w.team.Stable i p :=
  ⟨fun hi hj hm hp => h _ _ _ hi hj hm hp, fun _ hf _ => hf.elim⟩

/-- The rule for one action of a member. -/
theorem Conduct.safe {p : σ → Prop} {g : σ → Out ε σ β} {post : β → σ → Prop}
    (hp : w.team.Stable i p) (hs : p s)
    (h : ∀ s, w.inv s → p s → w.team.Accepts i s post (g s)) :
    w.team.Safe i (Prog.atomic g) post s := by
  refine Team.Safe.step hp hs ?_
  intro s t hi hps ht
  obtain rfl : t = s := ht
  exact h t hi hps

/-- The invariant holds, every thread may go on with its call, and knows `pre` when it is done
with it. -/
structure Pool.Ok (w : Conduct ε σ ι) (pre : ι → α → σ → Prop) (m : Pool ε σ ι α) : Prop where
  inv : w.inv m.state
  safe : ∀ i, w.team.Safe i (m.rest i) (pre i) m.state
  failed : ∀ e, m.failed = some e → w.fails e

/-- What a conduct has to say about the calls: the threads know `pre` between two programs,
nobody else can break that, and both a call with `ok` and the next round of one may run from
there. -/
structure Pool.Obey (w : Conduct ε σ ι) (calls : Calls ε σ ι α κ) (pre : ι → α → σ → Prop)
    (ok : κ → Prop) : Prop where
  stable : ∀ i a, w.team.Stable i (pre i a)
  onward : ∀ i a r s, calls.onward i a = some r → w.inv s → pre i a s → w.team.Safe i r (pre i) s
  call : ∀ i a c s, ok c → calls.onward i a = none → w.inv s → pre i a s →
    calls.may i a c s = true → w.team.Safe i (calls.prog i c) (pre i) s

/-- Every call that the action makes is one with `ok`. -/
def PoolAction.All (ok : κ → Prop) : PoolAction ι κ → Prop
  | .run _ => True
  | .call _ c => ok c

namespace Pool
variable [DecidableEq ι] {pre : ι → α → σ → Prop} {m m' : Pool ε σ ι α} {calls : Calls ε σ ι α κ}
  {ok : κ → Prop}

omit [DecidableEq ι] in
theorem Ok.start {a : α} (h0 : w.inv s) (hp : ∀ i, pre i a s) : Ok w pre (Pool.start s a) :=
  ⟨h0, hp, fun e he => by cases he⟩

/-- A thread gets another program. -/
theorem Ok.setRest (h : Ok w pre m) {r : Prog ε σ α} (hr : w.team.Safe i r (pre i) m.state) :
    Ok w pre { m with rest := setAt m.rest i r } := by
  refine ⟨h.inv, fun j => ?_, h.failed⟩
  show w.team.Safe j (setAt m.rest i r j) (pre j) m.state
  by_cases hj : j = i
  · subst hj
    rw [setAt_same]
    exact hr
  · rw [setAt_other _ _ _ hj]
    exact h.safe j

/-- One step of a thread's call is one of its moves, or changes nothing. -/
theorem Ok.run (h : Ok w pre m) (hw : Obey w calls pre ok) (hs : m.run calls i = some m') :
    Ok w pre m' ∧ (m'.state = m.state ∨ w.move i m.state m'.state) := by
  unfold Pool.run at hs
  have hsafe := h.safe i
  cases hrest : m.rest i with
  | ret a =>
    rw [hrest] at hsafe
    simp only [hrest, Option.map_eq_some_iff] at hs
    obtain ⟨r, hr, rfl⟩ := hs
    exact ⟨h.setRest (hw.onward i a r m.state hr h.inv hsafe), .inl rfl⟩
  | act g k =>
    rw [hrest] at hsafe
    simp only [hrest] at hs
    have hacc := hsafe m.state .rest h.inv m.state rfl
    cases hg : g m.state with
    | wait => simp [hg] at hs
    | fail e =>
      rw [hg] at hacc
      simp only [hg, Option.some.injEq] at hs
      subst hs
      exact ⟨⟨h.inv, h.safe, fun e' he => by cases he; exact hacc⟩, .inl rfl⟩
    | ok b t =>
      rw [hg] at hacc
      simp only [hg, Option.some.injEq] at hs
      subst hs
      obtain ⟨hmove, hk⟩ := hacc
      have hmove : t = m.state ∨ w.move i m.state t := hmove
      have hinv : w.inv t := by
        rcases hmove with rfl | hm
        · exact h.inv
        · exact w.keeps h.inv hm
      refine ⟨⟨hinv, fun j => ?_, h.failed⟩, hmove⟩
      show w.team.Safe j (setAt m.rest i (k b) j) (pre j) t
      by_cases hj : j = i
      · subst hj
        rw [setAt_same]
        exact hk
      · rw [setAt_other _ _ _ hj]
        rcases hmove with rfl | hm
        · exact h.safe j
        · exact (h.safe j).others (hw.stable j) (.move i .rest id h.inv (Ne.symm hj) hm)

theorem Ok.call {c : κ} (h : Ok w pre m) (hw : Obey w calls pre ok) (hc : ok c)
    (hs : m.call calls i c = some m') :
    Ok w pre m' ∧ m'.state = m.state := by
  unfold Pool.call at hs
  have hsafe := h.safe i
  cases hrest : m.rest i with
  | act g k => simp [hrest] at hs
  | ret a =>
    rw [hrest] at hsafe
    simp only [hrest] at hs
    split at hs
    · rename_i hmay
      cases hs
      obtain ⟨hdone, hmay⟩ := Bool.and_eq_true_iff.mp hmay
      have hnone := Option.isNone_iff_eq_none.mp hdone
      exact ⟨h.setRest (hw.call i a c m.state hc hnone h.inv hsafe hmay), rfl⟩
    · cases hs

/-- What every member's calls keep holds in every state of the pool, and every step is a move. -/
theorem Ok.step {a : PoolAction ι κ} (h : Ok w pre m) (hw : Obey w calls pre ok)
    (ha : a.All ok) (hs : m.step calls a = some m') :
    Ok w pre m' ∧ (m'.state = m.state ∨ ∃ i, w.move i m.state m'.state) := by
  unfold Pool.step at hs
  split at hs
  · cases hs
  · cases a with
    | run i =>
      obtain ⟨h1, h2⟩ := h.run hw hs
      exact ⟨h1, h2.imp id (fun hm => ⟨i, hm⟩)⟩
    | call i c =>
      obtain ⟨h1, h2⟩ := h.call hw ha hs
      exact ⟨h1, .inl h2⟩

theorem Ok.of_run {a : α} {as : List (PoolAction ι κ)} (hw : Obey w calls pre ok)
    (h0 : w.inv s) (hp : ∀ i, pre i a s) (hall : ∀ x ∈ as, x.All ok)
    (h : runAll (Pool.step calls) (Pool.start s a) as = some m) : Ok w pre m :=
  runAll_invariant h hall (.start h0 hp) fun _ _ _ hm ha hs => (hm.step hw ha hs).1

theorem Ok.of_reaches {a : α} (hw : Obey w calls pre (fun _ => True)) (h0 : w.inv s)
    (hp : ∀ i, pre i a s) (h : Reaches (Pool.step calls) (Pool.start s a) m) : Ok w pre m :=
  h.invariant (.start h0 hp) fun _ x _ hm hs => (hm.step hw (by cases x <;> trivial) hs).1

/-- A thread that nobody interrupts finishes its program. -/
theorem reaches_alone (calls : Calls ε σ ι α κ) {p : Prog ε σ α} {a : α} {t : σ} (hf : m.failed = none) (hr : m.rest i = p) (he : p.exec m.state = .ok a t) :
    Reaches (Pool.step calls) m { m with state := t, rest := setAt m.rest i (.ret a) } := by
  induction p generalizing m with
  | ret b =>
    cases he
    rw [← hr, setAt_self]
    exact .start
  | act g k ih =>
    simp only [Prog.exec] at he
    cases hg : g m.state with
    | ok b u =>
      rw [hg] at he
      have hstep : Pool.step calls m (.run i) = some { m with state := u, rest := setAt m.rest i (k b) } := by
        simp [Pool.step, Pool.run, hf, hr, hg]
      have hrest := ih b (m := { m with state := u, rest := setAt m.rest i (k b) }) hf (setAt_same _ _ _) he
      rw [setAt_setAt] at hrest
      exact (Reaches.next _ .start hstep).trans hrest
    | wait =>
      rw [hg] at he
      cases he
    | fail e =>
      rw [hg] at he
      cases he

/-- A round of its call. -/
theorem reaches_round {p : Prog ε σ α} {a b : α} {t : σ} (hf : m.failed = none) (hr : m.rest i = .ret a) (ho : calls.onward i a = some p)
    (he : p.exec m.state = .ok b t) : Reaches (Pool.step calls) m { m with state := t, rest := setAt m.rest i (.ret b) } := by
  have hstep : Pool.step calls m (.run i) = some { m with rest := setAt m.rest i p } := by
    simp [Pool.step, Pool.run, hf, hr, ho]
  have hrest := reaches_alone calls (m := { m with rest := setAt m.rest i p }) hf (setAt_same _ _ _) he
  rw [setAt_setAt] at hrest
  exact (Reaches.next _ .start hstep).trans hrest

/-- A call's first program. -/
theorem reaches_call {c : κ} {a b : α} {t : σ} (hf : m.failed = none) (hr : m.rest i = .ret a) (ho : calls.onward i a = none)
    (hmay : calls.may i a c m.state = true) (he : (calls.prog i c).exec m.state = .ok b t) :
    Reaches (Pool.step calls) m { m with state := t, rest := setAt m.rest i (.ret b) } := by
  have hstep : Pool.step calls m (.call i c) = some { m with rest := setAt m.rest i (calls.prog i c) } := by
    simp [Pool.step, Pool.call, hf, hr, ho, hmay]
  have hrest := reaches_alone calls (m := { m with rest := setAt m.rest i (calls.prog i c) }) hf (setAt_same _ _ _) he
  rw [setAt_setAt] at hrest
  exact (Reaches.next _ .start hstep).trans hrest

end Pool
end
