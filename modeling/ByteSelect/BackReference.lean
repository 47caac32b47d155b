import Mathlib.Data.List.TakeDrop
import Mathlib.Data.List.GetD

/-! Back references: copying from a distance behind the end, one element at a time. -/
namespace BackReference

variable {α : Type*} {d : α} {offset n p : ℕ} {l : List α}

/-- `n` elements more, each a copy of the one `offset` places before it. -/
def copyBack (d : α) (offset : ℕ) : ℕ → List α → List α
  | 0, l => l
  | n + 1, l => copyBack d offset n (l ++ [l.getD (l.length - offset) d])

@[simp] theorem length_copyBack (d : α) (offset n : ℕ) (l : List α) :
    (copyBack d offset n l).length = l.length + n := by
  induction n generalizing l with
  | zero => rfl
  | succ n ih =>
    rw [copyBack, ih, List.length_append, List.length_singleton]
    omega

/-- A list that repeats itself at a distance is continued by copying, also where the copy
overlaps what it copies from. -/
theorem copyBack_take (hpos : 0 < offset) (hle : offset ≤ p) (hlen : p + n ≤ l.length)
    (hmatch : ∀ k < n, l[p - offset + k]? = l[p + k]?) :
    copyBack d offset n (l.take p) = l.take (p + n) := by
  induction n generalizing p with
  | zero => rfl
  | succ n ih =>
    have hp : p < l.length := by omega
    have hsize : (l.take p).length = p := List.length_take_of_le (Nat.le_of_lt hp)
    have hfirst := hmatch 0 (Nat.succ_pos n)
    rw [Nat.add_zero, Nat.add_zero, List.getElem?_eq_getElem hp] at hfirst
    have hcopy : (l.take p).getD ((l.take p).length - offset) d = l[p] := by
      rw [hsize, List.getD_eq_getElem?_getD, List.getElem?_take_of_lt (by omega), hfirst]
      rfl
    have hrest := @ih (p + 1) (by omega) (by omega) fun k hk => by
      have hnext := hmatch (k + 1) (by omega)
      rwa [show p - offset + (k + 1) = p + 1 - offset + k by omega,
        show p + (k + 1) = p + 1 + k by omega] at hnext
    rw [copyBack, hcopy, ← List.take_succ_eq_append_getElem hp, hrest]
    congr 1
    omega

end BackReference
