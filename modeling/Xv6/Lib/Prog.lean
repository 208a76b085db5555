/-- What one atomic action does to a shared state: it returns a value, it has to
wait for another party, or it stops the machine for a reason `ε`. -/
inductive Out (ε : Type) (σ : Type u) (α : Type) where
  | ok (value : α) (state : σ)
  | wait
  | fail (why : ε)

/-- The code comes to its end, as `P` finds. -/
def Out.check {ε : Type} {σ : Type u} {α : Type} (P : α → σ → Bool) : Out ε σ α → Bool
  | .ok a s => P a s
  | _ => false

theorem Out.check_iff {ε : Type} {σ : Type u} {α : Type} {P : α → σ → Bool} {o : Out ε σ α} :
    o.check P = true ↔ ∃ a s, o = .ok a s ∧ P a s = true := by
  cases o with
  | ok a s =>
    constructor
    · intro h
      exact ⟨a, s, rfl, h⟩
    · rintro ⟨_, _, he, h⟩
      cases he
      exact h
  | wait => simp [Out.check]
  | fail why => simp [Out.check]

/-- The outcome with its state seen through `f`. -/
def Out.view {ε : Type} {σ : Type u} {τ : Type v} {α : Type} (f : σ → τ) : Out ε σ α → Out ε τ α
  | .ok a s => .ok a (f s)
  | .wait => .wait
  | .fail e => .fail e

/-- A sequential program as a resumption: atomic actions on a state `σ`, with the
rest of the program waiting for each action's answer. Between two actions other
parties may change the state. -/
inductive Prog (ε σ α : Type) : Type 1 where
  | ret (value : α)
  | act {β : Type} (action : σ → Out ε σ β) (next : β → Prog ε σ α)

namespace Prog

def bind (m : Prog ε σ α) (f : α → Prog ε σ β) : Prog ε σ β :=
  match m with
  | .ret a => f a
  | .act g k => .act g (fun b => (k b).bind f)

instance : Monad (Prog ε σ) where
  pure := .ret
  bind := Prog.bind

/-- One atomic action as a program. -/
def atomic (g : σ → Out ε σ α) : Prog ε σ α := .act g .ret

@[simp] theorem pure_eq (a : α) : (pure a : Prog ε σ α) = .ret a := rfl

@[simp] theorem bind_ret (a : α) (f : α → Prog ε σ β) : (Prog.ret a >>= f) = f a := rfl

@[simp] theorem bind_act (g : σ → Out ε σ γ) (k : γ → Prog ε σ α) (f : α → Prog ε σ β) :
    (Prog.act g k >>= f) = .act g (fun c => k c >>= f) := rfl

@[simp] theorem bind_atomic (g : σ → Out ε σ α) (f : α → Prog ε σ β) :
    (atomic g >>= f) = .act g f := rfl

/-- The program run alone: nobody else touches the state between its actions. -/
def exec (m : Prog ε σ α) (s : σ) : Out ε σ α :=
  match m with
  | .ret a => .ok a s
  | .act g k =>
    match g s with
    | .ok b t => (k b).exec t
    | .wait => .wait
    | .fail e => .fail e

end Prog
