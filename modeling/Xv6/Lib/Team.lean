import Mathlib.Logic.Relation
import Xv6.Lib.Prog

/-- Parties that act in turn on a shared state `σ`. When party `i` acts it sees a `τ`,
and `put` is the state after its action. Every action is one of the party's moves or
changes nothing; the moves keep `inv`. `pause i` relates the states before and after an
interruption of party `i` by a program of its own, `ended i` says that party `i` will be given
a new program before it acts again, and `fails` lists the accepted stops. -/
structure Team (ε τ : Type) (σ : Type u) (ι : Type v) where
  sees : ι → σ → τ → Prop
  put : σ → τ → σ
  inv : σ → Prop
  move : ι → σ → σ → Prop
  pause : ι → σ → σ → Prop
  ended : ι → σ → Prop
  fails : ε → Prop
  keeps : ∀ {i s t}, inv s → move i s t → inv t

namespace Team
variable {ε τ α β : Type} {σ : Type u} {ι : Type v} (w : Team ε τ σ ι)

/-- What may happen to party `i` between two of its actions. -/
inductive Others (i : ι) (s : σ) : σ → Prop where
  | rest : Others i s s
  | move {t u : σ} (j : ι) (h : Others i s t) (ho : ¬ w.ended i t) (hi : w.inv t) (hj : j ≠ i)
      (hm : w.move j t u) : Others i s u
  | pause {t u : σ} (h : Others i s t) (ho : ¬ w.ended i t) (hi : w.inv t) (hp : w.pause i t u) :
      Others i s u

/-- An action's outcome is acceptable: the party moved and the rest is as wanted, or it
has to wait (and nothing happened), or it stops in an accepted way. -/
def Accepts (i : ι) (s : σ) (rest : β → σ → Prop) : Out ε τ β → Prop
  | .ok b t => (w.put s t = s ∨ w.move i s (w.put s t)) ∧ rest b (w.put s t)
  | .wait => True
  | .fail e => w.fails e

/-- Party `i` may run the program from here: each of its actions is a move, whatever the
others do before it, and it ends in `post`. -/
def Safe (i : ι) : Prog ε τ α → (α → σ → Prop) → σ → Prop
  | .ret a, post, s => post a s
  | .act g k, post, s => ∀ s', w.Others i s s' → w.inv s' → ∀ t, w.sees i s' t →
      w.Accepts i s' (fun b => Safe i (k b) post) (g t)

/-- An assertion that neither the others nor an interruption can break. -/
structure Stable (i : ι) (p : σ → Prop) : Prop where
  move : ∀ {j s t}, w.inv s → j ≠ i → w.move j s t → p s → p t
  pause : ∀ {s t}, w.inv s → w.pause i s t → p s → p t

variable {w} {i : ι}

theorem Others.trans {s t u : σ} (h : w.Others i s t) (h' : w.Others i t u) : w.Others i s u := by
  induction h' with
  | rest => exact h
  | move j _ ho hi hj hm ih => exact .move j ih ho hi hj hm
  | pause _ ho hi hp ih => exact .pause ih ho hi hp

theorem Others.eq_of_over {s t : σ} (h : w.Others i s t) (hs : w.ended i s) : t = s := by
  induction h with
  | rest => rfl
  | move j _ ho _ _ _ ih => exact (ho (ih ▸ hs)).elim
  | pause _ ho _ _ ih => exact (ho (ih ▸ hs)).elim

theorem Stable.others {p : σ → Prop} (hp : w.Stable i p) {s t : σ} (h : w.Others i s t)
    (h0 : p s) : p t := by
  induction h with
  | rest => exact h0
  | move j _ _ hi hj hm ih => exact hp.move hi hj hm ih
  | pause _ _ hi hq ih => exact hp.pause hi hq ih

theorem Stable.and {p q : σ → Prop} (hp : w.Stable i p) (hq : w.Stable i q) :
    w.Stable i (fun s => p s ∧ q s) where
  move hi hj hm h := ⟨hp.move hi hj hm h.1, hq.move hi hj hm h.2⟩
  pause hs hm h := ⟨hp.pause hs hm h.1, hq.pause hs hm h.2⟩

theorem Accepts.mono {s : σ} {rest rest' : β → σ → Prop} {o : Out ε τ β}
    (h : w.Accepts i s rest o) (hr : ∀ b s, rest b s → rest' b s) : w.Accepts i s rest' o := by
  cases o with
  | ok b t => exact ⟨h.1, hr _ _ h.2⟩
  | wait => trivial
  | fail e => exact h

theorem Safe.bind {m : Prog ε τ α} {f : α → Prog ε τ β} {post : β → σ → Prop} {s : σ}
    (h : w.Safe i m (fun a => w.Safe i (f a) post) s) : w.Safe i (m >>= f) post s := by
  induction m generalizing s with
  | ret a => exact h
  | act g k ih =>
    intro s' ho hi t ht
    exact (h s' ho hi t ht).mono (fun b u hu => ih b hu)

theorem Safe.mono {m : Prog ε τ α} {post post' : α → σ → Prop} {s : σ}
    (h : w.Safe i m post s) (hp : ∀ a s, post a s → post' a s) : w.Safe i m post' s := by
  induction m generalizing s with
  | ret a => exact hp a s h
  | act g k ih =>
    intro s' ho hi t ht
    exact (h s' ho hi t ht).mono (fun b u hu => ih b hu)

theorem Safe.seq {m : Prog ε τ α} {f : α → Prog ε τ β} {mid : α → σ → Prop}
    {post : β → σ → Prop} {s : σ} (h : w.Safe i m mid s)
    (hf : ∀ a s, mid a s → w.Safe i (f a) post s) : w.Safe i (m >>= f) post s :=
  (h.mono hf).bind

/-- The rule for one action: a stable assertion still holds when it runs. -/
theorem Safe.step {p : σ → Prop} (hp : w.Stable i p) {g : τ → Out ε τ β} {post : β → σ → Prop}
    {s : σ} (hs : p s) (h : ∀ s t, w.inv s → p s → w.sees i s t →
      w.Accepts i s post (g t)) : w.Safe i (Prog.atomic g) post s := by
  intro s' ho hi' t ht
  exact (h s' t hi' (hp.others ho hs) ht).mono (fun _ _ hu => hu)

/-- What is left of a program that is over does not matter. -/
theorem Safe.of_over {g : τ → Out ε τ β} {k : β → Prog ε τ α} {post : α → σ → Prop} {s : σ}
    (ho : w.ended i s) (hs : ∀ t, ¬ w.sees i s t) : w.Safe i (.act g k) post s := by
  intro s' h _ t ht
  obtain rfl := h.eq_of_over ho
  exact (hs t ht).elim

/-- A suspended program stays safe while the others move or the party is interrupted. -/
theorem Safe.others {m : Prog ε τ α} {post : α → σ → Prop} (hp : ∀ a, w.Stable i (post a))
    {s t : σ} (h : w.Safe i m post s) (ho : w.Others i s t) : w.Safe i m post t := by
  cases m with
  | ret a => exact (hp a).others ho h
  | act g k => exact fun s' ho' hi u hu => h s' (ho.trans ho') hi u hu

end Team
