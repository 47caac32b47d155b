import ByteSelect.Widths
import Mathlib.Data.Fin.Basic

/-! Machine integers, vectors and exceptions shared by the translated units. -/
namespace ByteSelect

abbrev Byte := Fin (2 ^ 8)
abbrev Symbol := Fin (2 ^ 16)
abbrev SizeT := Fin (2 ^ 64)
abbrev Block := List Byte

/-- A `std::vector` where its length matters: no vector is longer than `PTRDIFF_MAX`. -/
structure Vec (α : Type) where
  toList : List α
  size_lt : toList.length < 2 ^ 63
  deriving DecidableEq

def Vec.size {α : Type} (v : Vec α) : ℕ := v.toList.length

theorem Vec.empty_lt {α : Type} : ([] : List α).length < 2 ^ 63 := Nat.two_pow_pos 63

/-- The standard exceptions the code throws, each with its text. -/
inductive Error where
  | invalidArgument (what : String)
  | runtimeError (what : String)
  | lengthError (what : String)
  deriving DecidableEq

def throwIf (c : Prop) [Decidable c] (e : Error) : Except Error Unit :=
  if c then .error e else .ok ()

@[simp] theorem throwIf_eq_ok {c : Prop} [Decidable c] {e : Error} {u : Unit} :
    throwIf c e = .ok u ↔ ¬ c := by
  unfold throwIf
  split <;> simp_all

theorem throwIf_neg {c : Prop} [Decidable c] {e : Error} (h : ¬ c) : throwIf c e = .ok () :=
  if_neg h

/-- A sequence of two steps succeeds when both do. -/
theorem bind_eq_ok {α β : Type} {x : Except Error α} {f : α → Except Error β} {b : β} :
    (x >>= f) = .ok b ↔ ∃ a, x = .ok a ∧ f a = .ok b := by
  cases x <;> simp [bind, Except.bind]

/-- A check before a step leaves the check as a conjunct. -/
theorem check_bind_eq_ok {β : Type} {x : Except Error Unit} {f : Unit → Except Error β} {b : β} :
    (x >>= f) = .ok b ↔ x = .ok () ∧ f () = .ok b := by
  cases x <;> simp [bind, Except.bind]

@[simp] theorem ok_bind {α β : Type} (a : α) (f : α → Except Error β) :
    (Except.ok a >>= f) = f a := rfl

/-- A sequence of two stateful steps succeeds when both do. -/
theorem run_bind_eq_ok {σ α β : Type} {r : StateT σ (Except Error) α}
    {f : α → StateT σ (Except Error) β} {s s' : σ} {b : β} :
    (r >>= f) s = .ok (b, s') ↔ ∃ a s₁, r s = .ok (a, s₁) ∧ f a s₁ = .ok (b, s') := by
  have hrun : (r >>= f) s = r s >>= fun x => f x.1 x.2 := rfl
  rw [hrun, bind_eq_ok, Prod.exists]

/-- A loop over indices that never throws keeps what each turn keeps. -/
theorem foldlM_range_ok {β : Type} {f : β → ℕ → Except Error β} {b : β} {n : ℕ}
    (inv : ℕ → β → Prop) (hstart : inv 0 b)
    (hstep : ∀ i s, i < n → inv i s → ∃ s', f s i = .ok s' ∧ inv (i + 1) s') :
    ∃ s, (List.range n).foldlM f b = .ok s ∧ inv n s := by
  induction n with
  | zero => exact ⟨b, rfl, hstart⟩
  | succ n ih =>
    obtain ⟨s, hrun, hs⟩ := ih fun i s hi => hstep i s (Nat.lt_succ_of_lt hi)
    obtain ⟨s', hlast, hs'⟩ := hstep n s (Nat.lt_succ_self n) hs
    refine ⟨s', ?_, hs'⟩
    rw [List.range_succ, List.foldlM_append, hrun, ok_bind, List.foldlM_cons, hlast]
    rfl

/-- Mathlib's `Except` has no name for a call that throws. -/
def Throws {α : Type} (x : Except Error α) : Prop := ∃ e, x = .error e

end ByteSelect
