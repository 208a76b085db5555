/-- The states a step function reaches, with any actions in any order. -/
inductive Reaches {σ : Type u} {ι : Type v} (step : σ → ι → Option σ) (s : σ) : σ → Prop where
  | start : Reaches step s s
  | next {t u : σ} (a : ι) : Reaches step s t → step t a = some u → Reaches step s u

namespace Reaches
variable {σ : Type u} {ι : Type v} {step : σ → ι → Option σ} {s t u : σ}

/-- What holds at the start and survives every step holds in every state reached. -/
theorem invariant {p : σ → Prop} (h : Reaches step s t) (h0 : p s)
    (hs : ∀ t a u, p t → step t a = some u → p u) : p t := by
  induction h with
  | start => exact h0
  | next a _ ha ih => exact hs _ a _ ih ha

theorem trans (h : Reaches step s t) (h' : Reaches step t u) : Reaches step s u := by
  induction h' with
  | start => exact h
  | next a _ ha ih => exact .next a ih ha

end Reaches

/-- The state after a list of actions, if every one of them can be taken. -/
def runAll {σ : Type u} {ι : Type v} (step : σ → ι → Option σ) : σ → List ι → Option σ
  | s, [] => some s
  | s, a :: as =>
    match step s a with
    | some t => runAll step t as
    | none => none

theorem Reaches.of_run {σ : Type u} {ι : Type v} {step : σ → ι → Option σ} {s t : σ}
    {as : List ι} (h : runAll step s as = some t) : Reaches step s t := by
  induction as generalizing s with
  | nil => cases h; exact .start
  | cons a as ih =>
    simp only [runAll] at h
    split at h
    · rename_i u hu
      exact (Reaches.next a .start hu).trans (ih h)
    · cases h

/-- The same for one list of actions that are all allowed. -/
theorem runAll_invariant {σ : Type u} {ι : Type v} {step : σ → ι → Option σ} {s t : σ}
    {as : List ι} {ok : ι → Prop} {p : σ → Prop} (h : runAll step s as = some t)
    (hok : ∀ a ∈ as, ok a) (h0 : p s)
    (hs : ∀ t a u, p t → ok a → step t a = some u → p u) : p t := by
  induction as generalizing s with
  | nil => cases h; exact h0
  | cons a as ih =>
    simp only [runAll] at h
    split at h
    · rename_i u hu
      exact ih h (fun b hb => hok b (List.mem_cons_of_mem a hb))
        (hs s a u h0 (hok a List.mem_cons_self) hu)
    · cases h

/-- What a run on a concrete list of actions shows. -/
theorem Reaches.of_any {σ : Type u} {ι : Type v} {step : σ → ι → Option σ} {s : σ} {as : List ι}
    {p : σ → Bool} (h : (runAll step s as).any p = true) : ∃ t, Reaches step s t ∧ p t = true := by
  obtain ⟨t, ht, hp⟩ := (Option.any_eq_true _ _).mp h
  exact ⟨t, .of_run ht, hp⟩

/-- The states reached by steps that `ok` all allows. -/
inductive ReachesBy {σ : Type u} {ι : Type v} (step : σ → ι → Option σ) (ok : σ → σ → Prop) (s : σ) :
    σ → Prop where
  | start : ReachesBy step ok s s
  | next {t u : σ} (a : ι) : ReachesBy step ok s t → step t a = some u → ok t u →
      ReachesBy step ok s u

namespace ReachesBy
variable {σ : Type u} {ι : Type v} {step : σ → ι → Option σ} {ok ok' : σ → σ → Prop} {s t : σ}

theorem invariant {p : σ → Prop} (h : ReachesBy step ok s t) (h0 : p s)
    (hs : ∀ t a u, p t → step t a = some u → ok t u → p u) : p t := by
  induction h with
  | start => exact h0
  | next a _ ha ho ih => exact hs _ a _ ih ha ho

theorem mono (h : ReachesBy step ok s t) (hok : ∀ s t, ok s t → ok' s t) : ReachesBy step ok' s t := by
  induction h with
  | start => exact .start
  | next a _ ha ho ih => exact .next a ih ha (hok _ _ ho)

end ReachesBy
