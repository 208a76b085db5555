import Xv6.Lib.Prog

/-- The surroundings of one program among others. The program acts on a part `τ`
of the world `σ`; `put` may also keep ghost history. Others move as `rely` allows,
`inv` holds whenever the program is suspended, and `fails` lists the accepted stops. -/
structure Surroundings (ε τ : Type) (σ : Type u) where
  get : σ → τ
  put : σ → τ → σ
  inv : σ → Prop
  rely : σ → σ → Prop
  fails : ε → Prop

namespace Surroundings
variable {ε τ α β : Type} {σ : Type u} (w : Surroundings ε τ σ)

/-- An action's outcome is acceptable: the rest is as wanted, or the action waits
(and nothing happened), or it stops in an accepted way. -/
def Accepts (s : σ) (rest : β → σ → Prop) : Out ε τ β → Prop
  | .ok b t => rest b (w.put s t)
  | .wait => True
  | .fail e => w.fails e

/-- The program keeps the invariant and ends in `post`, whatever the others do
before each of its actions. -/
def Safe : Prog ε τ α → (α → σ → Prop) → σ → Prop
  | .ret a, post, s => post a s
  | .act g k, post, s => w.inv s ∧ ∀ s', w.rely s s' →
      w.Accepts s' (fun b => Safe (k b) post) (g (w.get s'))

/-- An assertion no move of the others can break. -/
def Stable (p : σ → Prop) : Prop := ∀ s s', w.rely s s' → p s → p s'

theorem Accepts.mono {s : σ} {rest rest' : β → σ → Prop} {o : Out ε τ β}
    (h : w.Accepts s rest o) (hr : ∀ b s, rest b s → rest' b s) : w.Accepts s rest' o := by
  cases o with
  | ok b t => exact hr _ _ h
  | wait => trivial
  | fail e => exact h

theorem Safe.bind {m : Prog ε τ α} {f : α → Prog ε τ β} {post : β → σ → Prop} {s : σ}
    (h : w.Safe m (fun a => w.Safe (f a) post) s) : w.Safe (m >>= f) post s := by
  induction m generalizing s with
  | ret a => exact h
  | act g k ih => exact ⟨h.1, fun s' hs => (h.2 s' hs).mono w (fun b t ht => ih b ht)⟩

theorem Safe.mono {m : Prog ε τ α} {post post' : α → σ → Prop} {s : σ}
    (h : w.Safe m post s) (hp : ∀ a s, post a s → post' a s) : w.Safe m post' s := by
  induction m generalizing s with
  | ret a => exact hp a s h
  | act g k ih => exact ⟨h.1, fun s' hs => (h.2 s' hs).mono w (fun b t ht => ih b ht)⟩

/-- A suspended program stays safe while the others move. -/
theorem Safe.others (ht : ∀ a b c, w.rely a b → w.rely b c → w.rely a c)
    (hi : ∀ a b, w.rely a b → w.inv b) {g : τ → Out ε τ β} {k : β → Prog ε τ α}
    {post : α → σ → Prop} {s s' : σ} (h : w.Safe (.act g k) post s) (hs : w.rely s s') :
    w.Safe (.act g k) post s' :=
  ⟨hi s s' hs, fun t hr => h.2 t (ht s s' t hs hr)⟩

/-- The rule for one action: a stable assertion still holds when it runs. -/
theorem Safe.step {p : σ → Prop} (hp : w.Stable p) (hi : ∀ s, p s → w.inv s)
    {g : τ → Out ε τ β} {post : β → σ → Prop} {s : σ} (hs : p s)
    (h : ∀ s, p s → w.Accepts s post (g (w.get s))) : w.Safe (Prog.atomic g) post s :=
  ⟨hi s hs, fun s' hr => (h s' (hp s s' hr hs)).mono w (fun _ _ ht => ht)⟩

end Surroundings
