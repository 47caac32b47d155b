import Mathlib.Order.Basic

/-! Unformatted input streams, and readers whose results survive longer inputs. -/
namespace ByteStream

variable {β ε α γ : Type} {e : ε}

/-- A stream that is not at fault; `failed` is what `!stream` tests. -/
structure Input (β : Type) where
  rest : List β
  failed : Bool := false
  deriving DecidableEq

abbrev Reader (β ε : Type) := StateT (Input β) (Except ε)

/-- `get`: the next element, or nothing at the end and then the stream has failed. -/
def get : Reader β ε (Option β) := fun input =>
  match input.failed, input.rest with
  | false, b :: rest => .ok (some b, ⟨rest, false⟩)
  | _, _ => .ok (none, { input with failed := true })

/-- `read` into a buffer of `n` elements; a short read fills what it can and fails. -/
def read (buffer : β) (n : ℕ) : Reader β ε (List β) := fun input =>
  if input.failed then .ok (List.replicate n buffer, input)
  else if n ≤ input.rest.length then .ok (input.rest.take n, ⟨input.rest.drop n, false⟩)
  else .ok (input.rest ++ List.replicate (n - input.rest.length) buffer, ⟨[], true⟩)

/-- `peek`: the next element, which stays in the stream. -/
def peek (input : Input β) : Option β := if input.failed then none else input.rest.head?

/-- `!stream`. -/
def failed : Reader β ε Bool := fun input => .ok (input.failed, input)

theorem bind_eq_ok {r : Reader β ε α} {f : α → Reader β ε γ} {s s' : Input β} {c : γ} :
    (r >>= f) s = .ok (c, s') ↔ ∃ a s₁, r s = .ok (a, s₁) ∧ f a s₁ = .ok (c, s') := by
  have hrun : (r >>= f) s = (r s).bind fun x => f x.1 x.2 := rfl
  rw [hrun]
  cases h : r s with
  | error e => simp [Except.bind]
  | ok x =>
    obtain ⟨a, s₁⟩ := x
    simp only [Except.bind, Except.ok.injEq, Prod.mk.injEq]
    constructor
    · intro hf
      exact ⟨a, s₁, ⟨rfl, rfl⟩, hf⟩
    · rintro ⟨a', s₂, ⟨rfl, rfl⟩, hf⟩
      exact hf

theorem lift_eq_ok {x : Except ε α} {s s' : Input β} {a : α} :
    (liftM x : Reader β ε α) s = .ok (a, s') ↔ x = .ok a ∧ s' = s := by
  cases x with
  | error e =>
    constructor
    · intro h
      cases h
    · rintro ⟨h, -⟩
      cases h
  | ok b =>
    constructor
    · intro h
      cases h
      exact ⟨rfl, rfl⟩
    · rintro ⟨h, rfl⟩
      cases h
      rfl

/-! Reading back what was written. -/

/-- Reading `t` gives `x` and leaves whatever follows `t`. -/
def Yields (r : Reader β ε α) (t : List β) (x : Except ε α) : Prop :=
  ∀ u, r ⟨t ++ u, false⟩ = x.map fun a => (a, ⟨u, false⟩)

theorem Yields.bind {r : Reader β ε α} {f : α → Reader β ε γ} {t t' : List β} {x : Except ε α}
    {y : α → Except ε γ} (hr : Yields r t x) (hf : ∀ a, x = .ok a → Yields (f a) t' (y a)) :
    Yields (r >>= f) (t ++ t') (x >>= y) := by
  intro u
  have hrun : ∀ s, (r >>= f) s = (r s).bind fun z => f z.1 z.2 := fun _ => rfl
  rw [hrun, List.append_assoc, hr]
  cases x with
  | error e => rfl
  | ok a => exact hf a rfl u

/-- A step that reads a known value. -/
theorem Yields.step {r : Reader β ε α} {f : α → Reader β ε γ} {t t' : List β} {a : α}
    {y : Except ε γ} (hr : Yields r t (.ok a)) (hf : Yields (f a) t' y) :
    Yields (r >>= f) (t ++ t') y := by
  have hbind := hr.bind (y := fun _ => y) fun b hb => by
    cases hb
    exact hf
  exact hbind

theorem yields_pure (a : α) : Yields (pure a : Reader β ε α) [] (.ok a) := fun _ => rfl

/-- The last read; what follows it reads nothing. -/
theorem Yields.last {r : Reader β ε α} {f : α → Reader β ε γ} {t : List β} {a : α}
    {y : Except ε γ} (hr : Yields r t (.ok a)) (hf : Yields (f a) [] y) :
    Yields (r >>= f) t y := by
  have hstep := hr.step hf
  rwa [List.append_nil] at hstep

theorem yields_lift (x : Except ε α) : Yields (liftM x : Reader β ε α) [] x := by
  intro u
  cases x <;> rfl

theorem Yields.lift_bind {x : Except ε α} {f : α → Reader β ε γ} {t : List β}
    {y : α → Except ε γ} (hf : ∀ a, x = .ok a → Yields (f a) t (y a)) :
    Yields (liftM x >>= f) t (x >>= y) :=
  (yields_lift x).bind hf

/-- A check that passes reads nothing. -/
theorem Yields.lift_ok {a : α} {f : α → Reader β ε γ} {t : List β} {y : Except ε γ}
    (hf : Yields (f a) t y) : Yields (liftM (.ok a : Except ε α) >>= f) t y :=
  (yields_lift (.ok a)).step hf

/-- A check that throws reads nothing either. -/
theorem yields_error {f : α → Reader β ε γ} (t : List β) :
    Yields (liftM (.error e : Except ε α) >>= f) t (.error e) := fun _ => rfl

theorem yields_get (b : β) : Yields (get : Reader β ε (Option β)) [b] (.ok (some b)) :=
  fun _ => rfl

theorem yields_failed : Yields (failed : Reader β ε Bool) [] (.ok false) := fun _ => rfl

/-- A look at a stream that has not failed. -/
theorem Yields.failed_bind {f : Bool → Reader β ε γ} {t : List β} {y : Except ε γ}
    (hf : Yields (f false) t y) : Yields (failed >>= f) t y :=
  yields_failed.step hf

theorem yields_read (buffer : β) (t : List β) :
    Yields (read buffer t.length : Reader β ε (List β)) t (.ok t) := by
  intro u
  simp [read, Except.map]

/-- What is left when a whole input was one that is read back. -/
theorem Yields.rest_eq {r : Reader β ε α} {t : List β} {x : Except ε α} (h : Yields r t x)
    {a : α} {s' : Input β} (hrun : r ⟨t, false⟩ = .ok (a, s')) : s'.rest = [] := by
  have hnil := h []
  rw [List.append_nil, hrun] at hnil
  cases x with
  | error e => cases hnil
  | ok b =>
    cases hnil
    rfl

/-! Longer inputs. -/

/-- A run that ends without failure ends the same way when more input follows. -/
def Extends (r : Reader β ε α) : Prop :=
  ∀ s a s', r s = .ok (a, s') → s'.failed = false →
    s.failed = false ∧ ∀ u, r ⟨s.rest ++ u, false⟩ = .ok (a, ⟨s'.rest ++ u, false⟩)

theorem Extends.bind {r : Reader β ε α} {f : α → Reader β ε γ} (hr : Extends r)
    (hf : ∀ a, Extends (f a)) : Extends (r >>= f) := by
  intro s c s' hrun hok
  obtain ⟨a, s₁, ha, hc⟩ := bind_eq_ok.mp hrun
  obtain ⟨hok₁, hext₁⟩ := hf a s₁ c s' hc hok
  obtain ⟨hok₀, hext₀⟩ := hr s a s₁ ha hok₁
  exact ⟨hok₀, fun u => bind_eq_ok.mpr ⟨a, _, hext₀ u, hext₁ u⟩⟩

theorem extends_pure (a : α) : Extends (pure a : Reader β ε α) := by
  intro s b s' hrun hok
  cases hrun
  exact ⟨hok, fun _ => rfl⟩

theorem extends_lift (x : Except ε α) : Extends (liftM x : Reader β ε α) := by
  intro s b s' hrun hok
  cases x with
  | error e => cases hrun
  | ok a =>
    cases hrun
    exact ⟨hok, fun _ => rfl⟩

theorem extends_get : Extends (get : Reader β ε (Option β)) := by
  rintro ⟨rest, f⟩ a s' hrun hok
  cases f with
  | true =>
    cases hrun
    cases hok
  | false =>
    cases rest with
    | nil =>
      cases hrun
      cases hok
    | cons b rest =>
      cases hrun
      exact ⟨rfl, fun _ => rfl⟩

theorem extends_failed : Extends (failed : Reader β ε Bool) := by
  rintro ⟨rest, f⟩ a s' hrun hok
  cases hrun
  obtain rfl : f = false := hok
  exact ⟨rfl, fun _ => rfl⟩

theorem extends_read (buffer : β) (n : ℕ) : Extends (read buffer n : Reader β ε (List β)) := by
  rintro ⟨rest, f⟩ a s' hrun hok
  cases f with
  | true =>
    cases hrun
    cases hok
  | false =>
    unfold read at hrun ⊢
    dsimp only at hrun ⊢
    rw [if_neg (by simp)] at hrun
    by_cases hn : n ≤ rest.length
    · rw [if_pos hn] at hrun
      cases hrun
      refine ⟨rfl, fun u => ?_⟩
      have hn' : n ≤ (rest ++ u).length := by
        rw [List.length_append]
        omega
      rw [if_neg (by simp), if_pos hn', List.take_append_of_le_length hn,
        List.drop_append_of_le_length hn]
    · rw [if_neg hn] at hrun
      cases hrun
      cases hok

/-! What was consumed. -/

/-- A run from a stream that has not failed leaves it so, and its result determines what it
has consumed. -/
def Consumes (r : Reader β ε α) (P : α → List β → Prop) : Prop :=
  ∀ rest a s', r ⟨rest, false⟩ = .ok (a, s') →
    ∃ t rest', s' = ⟨rest', false⟩ ∧ rest = t ++ rest' ∧ P a t

theorem Consumes.bind {r : Reader β ε α} {f : α → Reader β ε γ} {P : α → List β → Prop}
    {Q : γ → List β → Prop} (hr : Consumes r P)
    (hf : ∀ a t, P a t → Consumes (f a) fun c u => Q c (t ++ u)) : Consumes (r >>= f) Q := by
  intro rest c s' hrun
  obtain ⟨a, s₁, ha, hc⟩ := bind_eq_ok.mp hrun
  obtain ⟨t, rest₁, rfl, rfl, hP⟩ := hr _ _ _ ha
  obtain ⟨u, rest₂, rfl, rfl, hQ⟩ := hf a t hP _ _ _ hc
  exact ⟨t ++ u, rest₂, rfl, (List.append_assoc t u rest₂).symm, hQ⟩

theorem consumes_pure {a : α} {P : α → List β → Prop} (h : P a []) :
    Consumes (pure a : Reader β ε α) P := by
  intro rest b s' hrun
  cases hrun
  exact ⟨[], rest, rfl, rfl, h⟩

/-- A check that passes consumes nothing. -/
theorem Consumes.check {x : Except ε α} {f : α → Reader β ε γ} {Q : γ → List β → Prop}
    (hf : ∀ a, x = .ok a → Consumes (f a) Q) : Consumes (liftM x >>= f) Q := by
  intro rest c s' hrun
  obtain ⟨a, s₁, ha, hc⟩ := bind_eq_ok.mp hrun
  obtain ⟨hx, rfl⟩ := lift_eq_ok.mp ha
  exact hf a hx _ _ _ hc

/-- An element whose absence is an error. -/
theorem consumes_get {f : Option β → Reader β ε γ} {Q : γ → List β → Prop}
    (hnone : ∀ s, ∃ e, f none s = .error e)
    (hf : ∀ b, Consumes (f (some b)) fun c u => Q c (b :: u)) : Consumes (get >>= f) Q := by
  intro rest c s' hrun
  obtain ⟨a, s₁, ha, hc⟩ := bind_eq_ok.mp hrun
  cases rest with
  | nil =>
    cases ha
    obtain ⟨e, he⟩ := hnone ⟨[], true⟩
    rw [he] at hc
    cases hc
  | cons b rest =>
    cases ha
    obtain ⟨t, rest', rfl, rfl, hQ⟩ := hf b _ _ _ hc
    exact ⟨b :: t, rest', rfl, rfl, hQ⟩

/-- A block of elements after which a failed stream is an error. -/
theorem consumes_read {buffer : β} {n : ℕ} {f : List β → Bool → Reader β ε γ}
    {Q : γ → List β → Prop} (hfailed : ∀ t s, ∃ e, f t true s = .error e)
    (hf : ∀ t, t.length = n → Consumes (f t false) fun c u => Q c (t ++ u)) :
    Consumes (read buffer n >>= fun t => failed >>= f t) Q := by
  intro rest c s' hrun
  obtain ⟨t, s₁, ht, hc⟩ := bind_eq_ok.mp hrun
  obtain ⟨bad, s₂, hbad, hc⟩ := bind_eq_ok.mp hc
  cases hbad
  by_cases hn : n ≤ rest.length
  · have hread : (read buffer n : Reader β ε (List β)) ⟨rest, false⟩ =
        .ok (rest.take n, ⟨rest.drop n, false⟩) := if_pos hn
    rw [hread] at ht
    cases ht
    obtain ⟨u, rest', rfl, hrest, hQ⟩ := hf (rest.take n) (List.length_take_of_le hn) _ _ _ hc
    refine ⟨rest.take n ++ u, rest', rfl, ?_, hQ⟩
    rw [List.append_assoc, ← hrest, List.take_append_drop]
  · have hread : (read buffer n : Reader β ε (List β)) ⟨rest, false⟩ =
        .ok (rest ++ List.replicate (n - rest.length) buffer, ⟨[], true⟩) := if_neg hn
    rw [hread] at ht
    cases ht
    obtain ⟨e, he⟩ := hfailed (rest ++ List.replicate (n - rest.length) buffer) ⟨[], true⟩
    rw [he] at hc
    cases hc

/-- A reader that ends with a look at `!stream` never returns from a failed one. -/
def Settles (r : Reader β ε α) : Prop := ∀ s a s', r s = .ok (a, s') → s'.failed = false

theorem Settles.bind {r : Reader β ε α} {f : α → Reader β ε γ} (hf : ∀ a, Settles (f a)) :
    Settles (r >>= f) := by
  intro s c s' hrun
  obtain ⟨a, s₁, -, hc⟩ := bind_eq_ok.mp hrun
  exact hf a s₁ c s' hc

/-- If a run over a whole input could only leave nothing, then no proper prefix of that
input is read without an error. -/
theorem Extends.truncated {r : Reader β ε α} (hext : Extends r) (hset : Settles r)
    {t u : List β} (hfull : ∀ a s', r ⟨t ++ u, false⟩ = .ok (a, s') → s'.rest = [])
    (hu : u ≠ []) : ∃ e, r ⟨t, false⟩ = .error e := by
  cases h : r ⟨t, false⟩ with
  | error e => exact ⟨e, rfl⟩
  | ok x =>
    obtain ⟨a, s'⟩ := x
    obtain ⟨-, hlong⟩ := hext _ _ _ h (hset _ _ _ h)
    have hnil := hfull _ _ (hlong u)
    exact absurd (List.append_eq_nil_iff.mp hnil).2 hu

end ByteStream
