import Mathlib.Data.List.GetD

/-! Runs that may leave the defined behaviour of their language: an index or a shift out of range
is an outcome of its own. -/
namespace Guarded

/-- How a run ends that does not return. -/
inductive Stop (ε : Type) where
  | thrown (e : ε)
  | undefined
  deriving DecidableEq

abbrev Run (ε α : Type) := Except (Stop ε) α

variable {ε α β σ : Type}

/-- A run whose every step is defined. -/
def lift : Except ε α → Run ε α
  | .ok a => .ok a
  | .error e => .error (.thrown e)

/-- A step that is only defined under a condition. -/
def demand (c : Prop) [Decidable c] (a : α) : Run ε α := if c then .ok a else .error .undefined

def index (l : List α) (i : ℕ) : Run ε α :=
  match l[i]? with
  | some a => .ok a
  | none => .error .undefined

/-- A step of a shift of a value of `width` bits by `count`. -/
def shift (width count : ℕ) (a : α) : Run ε α := demand (count < width) a

theorem ok_bind (a : α) (f : α → Run ε β) : ((Except.ok a : Run ε α) >>= f) = f a := rfl

/-! Runs that stay defined. -/

/-- The run stays defined, and what it returns has the property. -/
inductive Safe (post : α → Prop) : Run ε α → Prop
  | returns {a : α} (h : post a) : Safe post (.ok a)
  | throws (e : ε) : Safe post (.error (.thrown e))

variable {p p' : α → Prop} {x : Run ε α}

theorem Safe.mono (h : Safe p x) (himp : ∀ a, p a → p' a) : Safe p' x := by
  cases h with
  | returns h => exact .returns (himp _ h)
  | throws e => exact .throws e

theorem Safe.bind {last : β → Prop} {f : α → Run ε β} (h : Safe p x)
    (hf : ∀ a, p a → Safe last (f a)) : Safe last (x >>= f) := by
  cases h with
  | returns h => exact hf _ h
  | throws e => exact .throws e

/-- A safe run throws or returns. -/
theorem safe_iff : Safe p x ↔ (∃ e, x = .error (.thrown e)) ∨ ∃ a, x = .ok a ∧ p a := by
  constructor
  · intro h
    cases h with
    | returns h => exact Or.inr ⟨_, rfl, h⟩
    | throws e => exact Or.inl ⟨e, rfl⟩
  · rintro (⟨e, rfl⟩ | ⟨a, rfl, h⟩)
    · exact .throws e
    · exact .returns h

theorem safe_lift {y : Except ε α} (h : ∀ a, y = .ok a → p a) : Safe p (lift y) := by
  cases y with
  | ok a => exact .returns (h a rfl)
  | error e => exact .throws e

theorem safe_demand {c : Prop} [Decidable c] {a : α} (hc : c) (h : p a) :
    Safe p (demand c a : Run ε α) := by
  rw [demand, if_pos hc]
  exact .returns h

theorem safe_shift {width count : ℕ} {a : α} (hc : count < width) :
    Safe (fun b => b = a) (shift width count a : Run ε α) :=
  safe_demand hc rfl

theorem safe_index {l : List α} {i : ℕ} (h : i < l.length) :
    Safe (fun a => l[i]? = some a) (index l i : Run ε α) := by
  rw [index, List.getElem?_eq_getElem h]
  exact .returns rfl

theorem index_eq_ok {l : List α} {i : ℕ} (h : i < l.length) (d : α) :
    (index l i : Run ε α) = .ok (l.getD i d) := by
  rw [index, List.getElem?_eq_getElem h, List.getD_eq_getElem _ _ h]

/-- A loop over indices keeps what each turn keeps. -/
theorem safe_foldlM_range {f : β → ℕ → Run ε β} {b : β} {n : ℕ} (inv : ℕ → β → Prop)
    (hstart : inv 0 b) (hstep : ∀ i s, i < n → inv i s → Safe (inv (i + 1)) (f s i)) :
    Safe (inv n) ((List.range n).foldlM f b) := by
  induction n with
  | zero => exact .returns hstart
  | succ n ih =>
    rw [List.range_succ, List.foldlM_append]
    refine (ih fun i s hi => hstep i s (Nat.lt_succ_of_lt hi)).bind fun s hs => ?_
    rw [List.foldlM_cons]
    exact (hstep n s (Nat.lt_succ_self n) hs).bind fun s' hs' => .returns hs'

/-- A loop over indices that always goes on returns. -/
theorem returns_foldlM_range {f : β → ℕ → Run ε β} {b : β} {n : ℕ} (inv : ℕ → β → Prop)
    (hstart : inv 0 b) (hstep : ∀ i s, i < n → inv i s → ∃ s', f s i = .ok s' ∧ inv (i + 1) s') :
    ∃ s, (List.range n).foldlM f b = .ok s ∧ inv n s := by
  induction n with
  | zero => exact ⟨b, rfl, hstart⟩
  | succ n ih =>
    obtain ⟨s, hrun, hs⟩ := ih fun i s hi => hstep i s (Nat.lt_succ_of_lt hi)
    obtain ⟨s', hlast, hs'⟩ := hstep n s (Nat.lt_succ_self n) hs
    refine ⟨s', ?_, hs'⟩
    rw [List.range_succ, List.foldlM_append, hrun, ok_bind, List.foldlM_cons, hlast]
    rfl

/-! Runs and the same runs without the checks. -/

/-- A checked run is the run without the checks, unless a check fails. -/
inductive Checks (y : Except ε α) : Run ε α → Prop
  | same : Checks y (lift y)
  | fails : Checks y (.error .undefined)

variable {y : Except ε α}

theorem Checks.bind {f : α → Except ε β} {g : α → Run ε β} (h : Checks y x)
    (hf : ∀ a, Checks (f a) (g a)) : Checks (y >>= f) (x >>= g) := by
  cases h with
  | same =>
    cases y with
    | ok a => exact hf a
    | error e => exact .same
  | fails => exact .fails

/-- A check before a step. -/
theorem Checks.after {a : α} {w : Except ε β} {g : α → Run ε β}
    (h : Checks (.ok a : Except ε α) x) (hg : Checks w (g a)) : Checks w (x >>= g) := by
  cases h with
  | same => exact hg
  | fails => exact .fails

theorem checks_demand {c : Prop} [Decidable c] (a : α) :
    Checks (.ok a : Except ε α) (demand c a) := by
  unfold demand
  split
  · exact .same
  · exact .fails

theorem checks_shift (width count : ℕ) (a : α) :
    Checks (.ok a : Except ε α) (shift width count a) :=
  checks_demand a

theorem checks_index (l : List α) (i : ℕ) (d : α) :
    Checks (.ok (l.getD i d) : Except ε α) (index l i) := by
  rw [index, List.getD_eq_getElem?_getD]
  cases l[i]? with
  | some a => exact .same
  | none => exact .fails

theorem checks_foldlM {f : β → α → Except ε β} {g : β → α → Run ε β} (l : List α) (b : β)
    (h : ∀ s a, Checks (f s a) (g s a)) : Checks (l.foldlM f b) (l.foldlM g b) := by
  induction l generalizing b with
  | nil => exact .same
  | cons a l ih =>
    rw [List.foldlM_cons, List.foldlM_cons]
    exact (h b a).bind fun s => ih s

/-- A loop whose turns only have checks to fail. -/
theorem checks_foldl {f : β → α → β} {g : β → α → Run ε β} (l : List α) (b : β)
    (h : ∀ s a, Checks (.ok (f s a)) (g s a)) : Checks (.ok (l.foldl f b)) (l.foldlM g b) := by
  induction l generalizing b with
  | nil => exact .same
  | cons a l ih =>
    rw [List.foldl_cons, List.foldlM_cons]
    exact (h b a).after (ih (f b a))

/-- A loop whose turns only have checks to fail fails when the check of some turn does. -/
theorem foldlM_undefined {f : β → α → β} {g : β → α → Run ε β} {l : List α} {a : α} (b : β)
    (h : ∀ s a, Checks (.ok (f s a)) (g s a)) (hmem : a ∈ l)
    (ha : ∀ s, g s a = .error .undefined) : l.foldlM g b = .error .undefined := by
  induction l generalizing b with
  | nil => cases hmem
  | cons a' l ih =>
    rw [List.foldlM_cons]
    rcases List.mem_cons.mp hmem with rfl | hmem
    · rw [ha]
      rfl
    · have hfirst := h b a'
      generalize g b a' = first at hfirst
      cases hfirst with
      | same => exact ih _ hmem
      | fails => rfl

/-- A run that stays defined is the run without the checks. -/
theorem Checks.eq_lift (h : Checks y x) (hsafe : Safe p x) : x = lift y := by
  cases h with
  | same => rfl
  | fails => cases hsafe

/-- What a safe run returns is what the run without the checks returns. -/
theorem Checks.safe (h : Checks y x) (hsafe : Safe p x) : Safe (fun a => y = .ok a ∧ p a) x := by
  cases h with
  | same =>
    refine safe_lift fun a ha => ⟨ha, ?_⟩
    rw [ha] at hsafe
    cases hsafe with
    | returns hp => exact hp
  | fails => cases hsafe

theorem checks_mapM {f : α → β} {g : α → Run ε β} (l : List α)
    (h : ∀ a, Checks (.ok (f a)) (g a)) : Checks (.ok (l.map f)) (l.mapM g) := by
  induction l with
  | nil => exact .same
  | cons a l ih =>
    rw [List.mapM_cons, List.map_cons]
    exact (h a).after (ih.after .same)

theorem safe_mapM {g : α → Run ε β} {l : List α} (h : ∀ a ∈ l, Safe (fun _ => True) (g a)) :
    Safe (fun out => out.length = l.length) (l.mapM g) := by
  induction l with
  | nil => exact .returns rfl
  | cons a l ih =>
    rw [List.mapM_cons]
    refine (h a List.mem_cons_self).bind fun b _ =>
      (ih fun a' ha' => h a' (List.mem_cons_of_mem a ha')).bind fun out hout => .returns ?_
    rw [List.length_cons, List.length_cons, hout]

/-! Runs that carry a state. -/

/-- From every state the run stays defined, and what it returns has the property. -/
def Stays (post : α → Prop) (m : StateT σ (Run ε) α) : Prop :=
  ∀ s, Safe (fun r : α × σ => post r.1) (m s)

/-- From every state with the invariant the run stays defined and keeps the invariant, and what it
returns has the property. -/
def Keeps (inv : σ → Prop) (post : α → Prop) (m : StateT σ (Run ε) α) : Prop :=
  ∀ s, inv s → Safe (fun r : α × σ => post r.1 ∧ inv r.2) (m s)

/-- From every state, a checked run is the run without the checks. -/
def ChecksState (p : StateT σ (Except ε) α) (m : StateT σ (Run ε) α) : Prop :=
  ∀ s, Checks (p s) (m s)

variable {m : StateT σ (Run ε) α} {prog : StateT σ (Except ε) α}

theorem stays_pure {a : α} (h : p a) : Stays p (pure a : StateT σ (Run ε) α) :=
  fun _ => .returns h

theorem stays_throw (e : ε) : Stays p (throw (.thrown e) : StateT σ (Run ε) α) :=
  fun _ => .throws e

theorem stays_lift (h : Safe p x) : Stays p (liftM x : StateT σ (Run ε) α) :=
  fun _ => h.bind fun _ ha => .returns ha

theorem Stays.mono (h : Stays p m) (himp : ∀ a, p a → p' a) : Stays p' m :=
  fun s => (h s).mono fun r => himp r.1

theorem Stays.bind {last : β → Prop} {f : α → StateT σ (Run ε) β} (h : Stays p m)
    (hf : ∀ a, p a → Stays last (f a)) : Stays last (m >>= f) :=
  fun s => (h s).bind fun r hr => hf r.1 hr r.2

variable {inv : σ → Prop}

theorem keeps_pure {a : α} (h : p a) : Keeps inv p (pure a : StateT σ (Run ε) α) :=
  fun _ hs => .returns ⟨h, hs⟩

theorem keeps_throw (e : ε) : Keeps inv p (throw (.thrown e) : StateT σ (Run ε) α) :=
  fun _ _ => .throws e

theorem keeps_lift (h : Safe p x) : Keeps inv p (liftM x : StateT σ (Run ε) α) :=
  fun _ hs => h.bind fun _ ha => .returns ⟨ha, hs⟩

theorem Keeps.mono (h : Keeps inv p m) (himp : ∀ a, p a → p' a) : Keeps inv p' m :=
  fun s hs => (h s hs).mono fun r hr => ⟨himp r.1 hr.1, hr.2⟩

theorem Keeps.bind {last : β → Prop} {f : α → StateT σ (Run ε) β} (h : Keeps inv p m)
    (hf : ∀ a, p a → Keeps inv last (f a)) : Keeps inv last (m >>= f) :=
  fun s hs => (h s hs).bind fun r hr => hf r.1 hr.1 r.2 hr.2

theorem checksState_pure (a : α) :
    ChecksState (pure a : StateT σ (Except ε) α) (pure a) := fun _ => .same

theorem checksState_throw (e : ε) :
    ChecksState (throw e : StateT σ (Except ε) α) (throw (.thrown e)) := fun _ => .same

theorem ChecksState.bind {f : α → StateT σ (Except ε) β} {g : α → StateT σ (Run ε) β}
    (h : ChecksState prog m) (hf : ∀ a, ChecksState (f a) (g a)) :
    ChecksState (prog >>= f) (m >>= g) :=
  fun s => (h s).bind fun r => hf r.1 r.2

/-- A check before a step. -/
theorem ChecksState.after {a : α} {q : StateT σ (Except ε) β} {g : α → StateT σ (Run ε) β}
    (h : Checks (.ok a : Except ε α) x) (hg : ChecksState q (g a)) :
    ChecksState q (liftM x >>= g) := by
  intro s
  cases h with
  | same => exact hg s
  | fails => exact .fails

theorem checksState_lift (h : Checks y x) :
    ChecksState (liftM y : StateT σ (Except ε) α) (liftM x) := by
  intro s
  exact Checks.bind h fun a => .same

theorem ChecksState.lift {a : α} (h : Checks (.ok a : Except ε α) x) :
    ChecksState (pure a : StateT σ (Except ε) α) (liftM x) := by
  intro s
  cases h with
  | same => exact .same
  | fails => exact .fails

end Guarded
