import Mathlib.Data.List.Forall2

/-! Two runs that may throw, side by side: rules for what holds of both results. -/
namespace TwoRuns

universe u v w

variable {ε : Type u} {ε' : Type w} {α β σ : Type v} {α' β' σ' : Type v}
  {R : α → α' → Prop} {S : β → β' → Prop}

/-- Both runs throw, or both return and the results are related. -/
inductive Related (R : α → α' → Prop) : Except ε α → Except ε' α' → Prop
  | throws (e : ε) (e' : ε') : Related R (.error e) (.error e')
  | returns {a : α} {a' : α'} (h : R a a') : Related R (.ok a) (.ok a')

theorem related_self (x : Except ε α) : Related (· = ·) x x := by
  cases x with
  | error e => exact .throws e e
  | ok a => exact .returns rfl

/-- The results of the first steps are all that the second steps may depend on. -/
theorem Related.bind {x : Except ε α} {x' : Except ε' α'} {f : α → Except ε β}
    {f' : α' → Except ε' β'} (h : Related R x x')
    (hcont : ∀ a a', R a a' → Related S (f a) (f' a')) : Related S (x >>= f) (x' >>= f') := by
  cases h with
  | throws e e' => exact .throws e e'
  | returns h => exact hcont _ _ h

/-- A relation that every turn keeps holds after the loops over related lists. -/
theorem Related.foldlM {γ γ' : Type*} {T : γ → γ' → Prop} {f : α → γ → Except ε α}
    {f' : α' → γ' → Except ε' α'} {l : List γ} {l' : List γ'}
    (hstep : ∀ a a' c c', R a a' → T c c' → Related R (f a c) (f' a' c'))
    (hl : List.Forall₂ T l l') {a : α} {a' : α'} (h : R a a') :
    Related R (l.foldlM f a) (l'.foldlM f' a') := by
  induction hl generalizing a a' with
  | nil => exact .returns h
  | cons hc _ ih =>
    rw [List.foldlM_cons, List.foldlM_cons]
    exact (hstep _ _ _ _ h hc).bind fun _ _ hnext => ih hnext

end TwoRuns
