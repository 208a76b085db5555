import Xv6.Lib.Prog

/-- Programs over commands `C` whose meaning is given later; a command in `C β`
answers with a `β`. -/
inductive Free (C : Type → Type 1) (α : Type) : Type 1 where
  | ret (value : α)
  | cmd {β : Type} (c : C β) (next : β → Free C α)

/-- A meaning of the commands on the states `σ`. -/
abbrev Handler (C : Type → Type 1) (ε : Type) (σ : Type u) :=
  (β : Type) → C β → σ → Out ε σ β

/-- The outcome is one `Q` accepts, a wait, or a failure for a reason in `ok`. -/
def Out.Sat {ε : Type} {σ : Type u} {α : Type} (o : Out ε σ α) (ok : ε → Prop)
    (Q : α → σ → Prop) : Prop :=
  match o with
  | .ok a s => Q a s
  | .wait => True
  | .fail e => ok e

namespace Out
variable {ε : Type} {σ : Type u} {α : Type} {ok : ε → Prop} {Q : α → σ → Prop}

@[simp] theorem sat_ok {a : α} {s : σ} : (Out.ok a s : Out ε σ α).Sat ok Q ↔ Q a s := Iff.rfl
@[simp] theorem sat_wait : (Out.wait : Out ε σ α).Sat ok Q ↔ True := Iff.rfl
@[simp] theorem sat_fail {e : ε} : (Out.fail e : Out ε σ α).Sat ok Q ↔ ok e := Iff.rfl

end Out

namespace Free
variable {C : Type → Type 1} {ε : Type} {σ : Type u} {α β γ : Type}

def bind (m : Free C α) (f : α → Free C β) : Free C β :=
  match m with
  | .ret a => f a
  | .cmd c k => .cmd c (fun b => (k b).bind f)

instance : Monad (Free C) where
  pure := .ret
  bind := Free.bind

/-- One command as a program. -/
def call (c : C α) : Free C α := .cmd c .ret

/-- The program run from start to end, with nobody else touching the state. -/
def exec (h : Handler C ε σ) (m : Free C α) (s : σ) : Out ε σ α :=
  match m with
  | .ret a => .ok a s
  | .cmd c k =>
    match h _ c s with
    | .ok b t => (k b).exec h t
    | .wait => .wait
    | .fail e => .fail e

/-- The first `n` commands of a program. -/
def take : Nat → Free C α → Free C Unit
  | 0, _ => .ret ()
  | _ + 1, .ret _ => .ret ()
  | n + 1, .cmd c k => .cmd c (fun b => take n (k b))

/-- What `sel` picks of the commands that a run issues, the one it stops at included. -/
def picks (h : Handler C ε σ) (sel : (β : Type) → C β → Option γ) (m : Free C α) (s : σ) : List γ :=
  match m with
  | .ret _ => []
  | .cmd c k =>
    (sel _ c).toList ++
      match h _ c s with
      | .ok b t => (k b).picks h sel t
      | _ => []

/-- `for(i = start; i < start + n; i++) body`. -/
def forUp (body : Nat → Free C Unit) : Nat → Nat → Free C Unit
  | 0, _ => return ()
  | n + 1, start => do
    body start
    forUp body n (start + 1)

/-- From `s` the program, run alone, either ends as `Q` says, waits, or fails for a
reason in `ok`. -/
def Ensures (h : Handler C ε σ) (ok : ε → Prop) (m : Free C α) (Q : α → σ → Prop) (s : σ) : Prop :=
  match m with
  | .ret a => Q a s
  | .cmd c k => (h _ c s).Sat ok (fun b t => (k b).Ensures h ok Q t)

section Rules
variable {h : Handler C ε σ} {ok : ε → Prop}

@[simp] theorem ensures_ret {a : α} {Q : α → σ → Prop} {s : σ} :
    (Free.ret a).Ensures h ok Q s ↔ Q a s := Iff.rfl

@[simp] theorem ensures_pure {a : α} {Q : α → σ → Prop} {s : σ} :
    (pure a : Free C α).Ensures h ok Q s ↔ Q a s := Iff.rfl

theorem ensures_cmd {c : C β} {k : β → Free C α} {Q : α → σ → Prop} {s : σ} :
    (Free.cmd c k).Ensures h ok Q s ↔ (h _ c s).Sat ok (fun b t => (k b).Ensures h ok Q t) :=
  Iff.rfl

theorem ensures_call {c : C α} {Q : α → σ → Prop} {s : σ} :
    (call c).Ensures h ok Q s ↔ (h _ c s).Sat ok Q := Iff.rfl

@[simp] theorem ensures_bind {m : Free C α} {f : α → Free C β} {Q : β → σ → Prop} {s : σ} :
    (m >>= f).Ensures h ok Q s ↔ m.Ensures h ok (fun a t => (f a).Ensures h ok Q t) s := by
  induction m generalizing s with
  | ret a => rfl
  | cmd c k ih =>
    change (Free.cmd c (fun b => k b >>= f)).Ensures h ok Q s ↔ _
    simp only [ensures_cmd]
    cases h _ c s with
    | ok b t => exact ih b
    | wait => rfl
    | fail e => rfl

theorem Ensures.mono {m : Free C α} {P Q : α → σ → Prop} {s : σ} (hm : m.Ensures h ok P s)
    (hpq : ∀ a t, P a t → Q a t) : m.Ensures h ok Q s := by
  induction m generalizing s with
  | ret a => exact hpq a s hm
  | cmd c k ih =>
    rw [ensures_cmd] at hm ⊢
    cases hc : h _ c s with
    | ok b t => rw [hc] at hm; exact ih b hm
    | wait => trivial
    | fail e => rw [hc] at hm; exact hm

theorem Ensures.and {m : Free C α} {P Q : α → σ → Prop} {s : σ} (hp : m.Ensures h ok P s)
    (hq : m.Ensures h ok Q s) : m.Ensures h ok (fun a t => P a t ∧ Q a t) s := by
  induction m generalizing s with
  | ret a => exact ⟨hp, hq⟩
  | cmd c k ih =>
    rw [ensures_cmd] at hp hq ⊢
    cases hc : h _ c s with
    | ok b t =>
      rw [hc] at hp hq
      exact ih b hp hq
    | wait => trivial
    | fail e => rw [hc] at hp; exact hp

/-- The rule of sequencing with the intermediate assertion given. -/
theorem Ensures.seq {m : Free C α} {f : α → Free C β} {P : α → σ → Prop} {Q : β → σ → Prop} {s : σ}
    (hm : m.Ensures h ok P s) (hf : ∀ a t, P a t → (f a).Ensures h ok Q t) :
    (m >>= f).Ensures h ok Q s :=
  ensures_bind.mpr (hm.mono hf)

/-- The loop rule: `I i` is what holds when the counter is `i`. -/
theorem Ensures.forUp {body : Nat → Free C Unit} {n start : Nat} {s : σ} (I : Nat → σ → Prop)
    (hb : ∀ i t, start ≤ i → i < start + n → I i t →
      (body i).Ensures h ok (fun _ u => I (i + 1) u) t)
    (hs : I start s) : (forUp body n start).Ensures h ok (fun _ t => I (start + n) t) s := by
  induction n generalizing start s with
  | zero => exact hs
  | succ n ih =>
    apply Ensures.seq (hb start s (Nat.le_refl _) (by omega) hs)
    intro _ t ht
    have hrest : (Free.forUp body n (start + 1)).Ensures h ok (fun _ u => I (start + 1 + n) u) t :=
      ih (fun i u h₁ h₂ => hb i u (by omega) (by omega)) ht
    rwa [show start + 1 + n = start + (n + 1) by omega] at hrest

theorem Ensures.ok_of_exec {m : Free C α} {Q : α → σ → Prop} {s t : σ} {a : α}
    (hm : m.Ensures h ok Q s) (he : m.exec h s = .ok a t) : Q a t := by
  induction m generalizing s with
  | ret b =>
    cases he
    exact hm
  | cmd c k ih =>
    rw [ensures_cmd] at hm
    rw [exec] at he
    cases hc : h _ c s with
    | ok b u => rw [hc] at hm he; exact ih b hm he
    | wait => rw [hc] at he; cases he
    | fail e => rw [hc] at he; cases he

theorem Ensures.fail_of_exec {m : Free C α} {Q : α → σ → Prop} {s : σ} {e : ε}
    (hm : m.Ensures h ok Q s) (he : m.exec h s = .fail e) : ok e := by
  induction m generalizing s with
  | ret b => cases he
  | cmd c k ih =>
    rw [ensures_cmd] at hm
    rw [exec] at he
    cases hc : h _ c s with
    | ok b u => rw [hc] at hm he; exact ih b hm he
    | wait => rw [hc] at he; cases he
    | fail e' =>
      rw [hc] at hm he
      cases he
      exact hm

theorem exec_pure {a : α} {s : σ} : (pure a : Free C α).exec h s = .ok a s := rfl

theorem exec_call {c : C α} {s : σ} : (call c).exec h s = h _ c s := by
  rw [call, exec]
  cases h _ c s <;> rfl

theorem exec_bind {m : Free C α} {f : α → Free C β} {s : σ} : (m >>= f).exec h s =
    match m.exec h s with
    | .ok a t => (f a).exec h t
    | .wait => .wait
    | .fail e => .fail e := by
  induction m generalizing s with
  | ret a => rfl
  | cmd c k ih =>
    change (Free.cmd c (fun b => k b >>= f)).exec h s = _
    rw [exec, exec]
    cases h _ c s with
    | ok b t => exact ih b
    | wait => rfl
    | fail e => rfl

/-- A program whose first part is known to return. -/
theorem exec_seq {m : Free C α} {f : α → Free C β} {s t : σ} {a : α} (hm : m.exec h s = .ok a t) :
    (m >>= f).exec h s = (f a).exec h t := by
  rw [exec_bind, hm]

/-- A program that returns has come past its first part. -/
theorem exec_bind_ok {m : Free C α} {f : α → Free C β} {s t : σ} {b : β}
    (he : (m >>= f).exec h s = .ok b t) : ∃ a u, m.exec h s = .ok a u ∧ (f a).exec h u = .ok b t := by
  induction m generalizing s with
  | ret a => exact ⟨a, s, rfl, he⟩
  | cmd c k ih =>
    change (Free.cmd c (fun b => k b >>= f)).exec h s = _ at he
    rw [exec] at he ⊢
    cases hc : h _ c s with
    | ok b u => rw [hc] at he; exact ih b he
    | wait => rw [hc] at he; cases he
    | fail e => rw [hc] at he; cases he

/-- A property of states that every command keeps holds wherever the program gets. -/
theorem exec_keeps {P : σ → Prop} (hc : ∀ (β : Type) (c : C β) s b t, P s → h β c s = .ok b t → P t)
    {m : Free C α} {s t : σ} {a : α} (hs : P s) (he : m.exec h s = .ok a t) : P t := by
  induction m generalizing s with
  | ret b =>
    cases he
    exact hs
  | cmd c k ih =>
    rw [exec] at he
    cases hr : h _ c s with
    | ok b u =>
      rw [hr] at he
      exact ih b (hc _ c s b u hs hr) he
    | wait => rw [hr] at he; cases he
    | fail e => rw [hr] at he; cases he

theorem picks_bind {sel : (β : Type) → C β → Option γ} {m : Free C α} {f : α → Free C β} {s : σ} :
    (m >>= f).picks h sel s = m.picks h sel s ++
      match m.exec h s with
      | .ok a t => (f a).picks h sel t
      | _ => [] := by
  induction m generalizing s with
  | ret a => rfl
  | cmd c k ih =>
    change (Free.cmd c (fun b => k b >>= f)).picks h sel s = _
    rw [picks, picks, exec, List.append_assoc]
    cases h _ c s with
    | ok b t => exact congrArg _ (ih b)
    | wait => rfl
    | fail e => rfl

end Rules
end Free
