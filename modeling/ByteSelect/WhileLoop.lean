import Mathlib.Order.Basic

/-! Loops as iterated partial steps: a step that returns nothing leaves the loop. -/
namespace WhileLoop

variable {σ τ : Type*} {step : σ → Option σ} {step' : τ → Option τ}

/-- At most `n` turns of the loop. -/
def run (step : σ → Option σ) : ℕ → σ → σ
  | 0, s => s
  | n + 1, s =>
    match step s with
    | none => s
    | some s' => run step n s'

theorem run_of_halted {s : σ} (h : step s = none) (n : ℕ) : run step n s = s := by
  cases n <;> simp [run, h]

theorem run_succ {s s' : σ} (h : step s = some s') (n : ℕ) :
    run step (n + 1) s = run step n s' := by
  simp [run, h]

/-- What every turn preserves holds when the loop stops. -/
theorem run_invariant {Inv : σ → Prop} (hstep : ∀ s s', Inv s → step s = some s' → Inv s')
    (n : ℕ) {s : σ} (hs : Inv s) : Inv (run step n s) := by
  induction n generalizing s with
  | zero => exact hs
  | succ n ih =>
    cases h : step s with
    | none => rwa [run_of_halted h]
    | some s' =>
      rw [run_succ h]
      exact ih (hstep s s' hs h)

/-- A measure that every turn decreases bounds the number of turns. -/
theorem run_halts {Inv : σ → Prop} (hstep : ∀ s s', Inv s → step s = some s' → Inv s')
    (μ : σ → ℕ) (hμ : ∀ s s', Inv s → step s = some s' → μ s' < μ s)
    {n : ℕ} {s : σ} (hs : Inv s) (hn : μ s ≤ n) : step (run step n s) = none := by
  induction n generalizing s with
  | zero =>
    cases h : step s with
    | none => exact h
    | some s' =>
      have := hμ s s' hs h
      omega
  | succ n ih =>
    cases h : step s with
    | none => rwa [run_of_halted h]
    | some s' =>
      rw [run_succ h]
      have := hμ s s' hs h
      exact ih (hstep s s' hs h) (by omega)

theorem run_add (n m : ℕ) (s : σ) : run step (n + m) s = run step m (run step n s) := by
  induction n generalizing s with
  | zero => rw [Nat.zero_add, run]
  | succ n ih =>
    rw [Nat.succ_add]
    cases h : step s with
    | none => simp [run_of_halted h]
    | some s' => rw [run_succ h, run_succ h, ih]

/-- Two bounds that both let the loop stop give the same final state. -/
theorem run_eq_of_halted {n m : ℕ} {s : σ} (hn : step (run step n s) = none)
    (hm : step (run step m s) = none) : run step n s = run step m s := by
  rcases Nat.le_total n m with h | h
  · obtain ⟨k, rfl⟩ := Nat.exists_eq_add_of_le h
    rw [run_add, run_of_halted hn]
  · obtain ⟨k, rfl⟩ := Nat.exists_eq_add_of_le h
    rw [run_add, run_of_halted hm]

/-- A turn matched by at most one turn of another loop keeps the two loops related. -/
theorem run_simulates {R : σ → τ → Prop}
    (hsim : ∀ s t s', R s t → step s = some s' →
      R s' t ∨ ∃ t', step' t = some t' ∧ R s' t')
    (n : ℕ) {s : σ} {t : τ} (h : R s t) : ∃ m, R (run step n s) (run step' m t) := by
  induction n generalizing s t with
  | zero => exact ⟨0, h⟩
  | succ n ih =>
    cases hs : step s with
    | none => exact ⟨0, by rwa [run_of_halted hs]⟩
    | some s' =>
      rw [run_succ hs]
      rcases hsim s t s' h hs with hstay | ⟨t', ht, hmove⟩
      · exact ih hstay
      · obtain ⟨m, hm⟩ := ih hmove
        exact ⟨m + 1, by rwa [run_succ ht]⟩

/-- If the second loop is over whenever the first one is, the final states are related. -/
theorem run_related {R : σ → τ → Prop}
    (hsim : ∀ s t s', R s t → step s = some s' →
      R s' t ∨ ∃ t', step' t = some t' ∧ R s' t')
    (hhalt : ∀ s t, R s t → step s = none → step' t = none)
    {n m : ℕ} {s : σ} {t : τ} (h : R s t) (hn : step (run step n s) = none)
    (hm : step' (run step' m t) = none) : R (run step n s) (run step' m t) := by
  obtain ⟨k, hk⟩ := run_simulates hsim n h
  have hk' := hhalt _ _ hk hn
  rwa [run_eq_of_halted hk' hm] at hk

/-- Two loops whose turns match one for one stay related. -/
theorem run_lockstep {R : σ → τ → Prop}
    (hstep : ∀ s t, R s t → Option.Rel R (step s) (step' t))
    (n : ℕ) {s : σ} {t : τ} (h : R s t) : R (run step n s) (run step' n t) := by
  induction n generalizing s t with
  | zero => exact h
  | succ n ih =>
    have hrel := hstep s t h
    unfold run
    cases hs : step s with
    | none =>
      cases ht : step' t with
      | none => exact h
      | some t' => simp [hs, ht] at hrel
    | some s' =>
      cases ht : step' t with
      | none => simp [hs, ht] at hrel
      | some t' =>
        rw [hs, ht, Option.rel_some_some] at hrel
        exact ih hrel

end WhileLoop
