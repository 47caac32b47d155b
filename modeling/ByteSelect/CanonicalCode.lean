import ByteSelect.BitStream
import Mathlib.Algebra.BigOperators.Group.List.Basic

/-! Canonical prefix codes: code words counted up through lengths that do not decrease. -/
namespace CanonicalCode

open BitStream

variable {α : Type*}

/-- The symbols with their code values and lengths, the highest bit of a word first. -/
def assign (code previous : ℕ) : List (ℕ × α) → List (α × ℕ × ℕ)
  | [] => []
  | (length, symbol) :: rest =>
    let value := code * 2 ^ (length - previous)
    (symbol, value, length) :: assign (value + 1) length rest

/-- The bits of a code word as they are sent. -/
def word (value length : ℕ) : List Bool := (bitsOf value length).reverse

/-- What words of these lengths take of all words of length `D`. -/
def kraft (D : ℕ) (lengths : List ℕ) : ℕ := (lengths.map fun length => 2 ^ (D - length)).sum

variable {D code previous value value' length length' : ℕ} {symbol : α}
  {ordered : List (ℕ × α)} {entry : α × ℕ × ℕ}

theorem length_word (value length : ℕ) : (word value length).length = length := by
  rw [word, List.length_reverse, length_bitsOf]

theorem map_symbol_assign (code previous : ℕ) (ordered : List (ℕ × α)) :
    (assign code previous ordered).map (fun entry => (entry.2.2, entry.1)) = ordered := by
  induction ordered generalizing code previous with
  | nil => rfl
  | cons first rest ih =>
    rw [assign, List.map_cons, ih]

/-- Scaled to length `D`, the words of the entries from here on start at `code` and end where
the lengths are used up. -/
theorem assign_bounds (hsorted : (ordered.map Prod.fst).Pairwise (· ≤ ·))
    (hprevious : ∀ x ∈ ordered, previous ≤ x.1) (hD : ∀ x ∈ ordered, x.1 ≤ D)
    (h : entry ∈ assign code previous ordered) :
    code * 2 ^ (D - previous) ≤ entry.2.1 * 2 ^ (D - entry.2.2) ∧
      (entry.2.1 + 1) * 2 ^ (D - entry.2.2) ≤
        code * 2 ^ (D - previous) + kraft D (ordered.map Prod.fst) := by
  induction ordered generalizing code previous with
  | nil => cases h
  | cons first rest ih =>
    obtain ⟨length, symbol⟩ := first
    have hle : previous ≤ length := hprevious _ List.mem_cons_self
    have hlength : length ≤ D := hD _ List.mem_cons_self
    have hscale :
        code * 2 ^ (length - previous) * 2 ^ (D - length) = code * 2 ^ (D - previous) := by
      rw [Nat.mul_assoc, ← Nat.pow_add]
      congr 2
      omega
    have hkraft : kraft D (((length, symbol) :: rest).map Prod.fst) =
        2 ^ (D - length) + kraft D (rest.map Prod.fst) := by
      simp [kraft]
    rw [hkraft]
    cases List.mem_cons.mp h with
    | inl hfirst =>
      subst hfirst
      dsimp only
      rw [Nat.add_mul, hscale]
      omega
    | inr hrest =>
      rw [List.map_cons, List.pairwise_cons] at hsorted
      have hbounds := ih hsorted.2 (fun x hx => hsorted.1 _ (List.mem_map_of_mem hx))
        (fun x hx => hD x (List.mem_cons_of_mem _ hx)) hrest
      dsimp only at hbounds
      rw [Nat.add_mul, hscale] at hbounds
      omega

/-- A word fits its length when the lengths are not used up. -/
theorem assign_lt (hsorted : (ordered.map Prod.fst).Pairwise (· ≤ ·))
    (hD : ∀ x ∈ ordered, x.1 ≤ D) (hkraft : kraft D (ordered.map Prod.fst) ≤ 2 ^ D)
    (h : entry ∈ assign 0 0 ordered) : entry.2.1 < 2 ^ entry.2.2 := by
  obtain ⟨-, hend⟩ := assign_bounds hsorted (fun _ _ => Nat.zero_le _) hD h
  rw [Nat.zero_mul, Nat.zero_add] at hend
  have hmem : (entry.2.2, entry.1) ∈ ordered := by
    have hmap := List.mem_map_of_mem (f := fun entry : α × ℕ × ℕ => (entry.2.2, entry.1)) h
    rwa [map_symbol_assign] at hmap
  have hlength := hD _ hmem
  have hsplit : 2 ^ D = 2 ^ entry.2.2 * 2 ^ (D - entry.2.2) := by
    rw [← Nat.pow_add]
    congr 1
    dsimp only at hlength
    omega
  have hall := hend.trans hkraft
  rw [hsplit] at hall
  exact Nat.le_of_mul_le_mul_right hall (Nat.two_pow_pos _)

/-- Scaled to length `D`, a word ends before every later word starts. -/
theorem pairwise_assign (hsorted : (ordered.map Prod.fst).Pairwise (· ≤ ·))
    (hprevious : ∀ x ∈ ordered, previous ≤ x.1) (hD : ∀ x ∈ ordered, x.1 ≤ D) :
    (assign code previous ordered).Pairwise fun entry entry' =>
      (entry.2.1 + 1) * 2 ^ (D - entry.2.2) ≤ entry'.2.1 * 2 ^ (D - entry'.2.2) := by
  induction ordered generalizing code previous with
  | nil => exact .nil
  | cons first rest ih =>
    rw [List.map_cons, List.pairwise_cons] at hsorted
    have hmore : ∀ x ∈ rest, first.1 ≤ x.1 := fun x hx => hsorted.1 _ (List.mem_map_of_mem hx)
    have hD' : ∀ x ∈ rest, x.1 ≤ D := fun x hx => hD x (List.mem_cons_of_mem _ hx)
    refine List.pairwise_cons.mpr ⟨fun entry hentry => ?_, ih hsorted.2 hmore hD'⟩
    exact (assign_bounds hsorted.2 hmore hD' hentry).1

/-- A word that begins another covers it. -/
theorem bounds_of_prefix (hvalue : value < 2 ^ length) (hvalue' : value' < 2 ^ length')
    (hD : length' ≤ D) (h : word value length <+: word value' length') :
    length ≤ length' ∧ value * 2 ^ (D - length) ≤ value' * 2 ^ (D - length') ∧
      value' * 2 ^ (D - length') < (value + 1) * 2 ^ (D - length) := by
  have hlen := h.length_le
  rw [length_word, length_word] at hlen
  obtain ⟨u, hu⟩ := h
  have hrest : u.length = length' - length := by
    have hsum := congrArg List.length hu
    rw [List.length_append, length_word, length_word] at hsum
    omega
  have hreverse := congrArg (fun l => ofBits l.reverse) hu
  simp only [word, List.reverse_append, List.reverse_reverse, ofBits_append, ofBits_bitsOf,
    List.length_reverse, hrest, Nat.mod_eq_of_lt hvalue, Nat.mod_eq_of_lt hvalue'] at hreverse
  have hlow := ofBits_lt u.reverse
  rw [List.length_reverse, hrest] at hlow
  have hscale : ∀ v, v * 2 ^ (D - length) = v * 2 ^ (length' - length) * 2 ^ (D - length') := by
    intro v
    rw [Nat.mul_assoc, ← Nat.pow_add]
    congr 2
    omega
  have hpos := Nat.two_pow_pos (D - length')
  have hcover : value' < (value + 1) * 2 ^ (length' - length) := by
    rw [← hreverse, Nat.add_mul, Nat.mul_comm value]
    omega
  have hstart : value * 2 ^ (length' - length) ≤ value' := by
    rw [← hreverse, Nat.mul_comm value]
    omega
  rw [hscale value, hscale (value + 1)]
  exact ⟨hlen, Nat.mul_le_mul_right _ hstart, Nat.mul_lt_mul_of_pos_right hcover hpos⟩

/-- No word begins the word of another symbol. -/
theorem eq_of_prefix (hsorted : (ordered.map Prod.fst).Pairwise (· ≤ ·))
    (hD : ∀ x ∈ ordered, x.1 ≤ D) (hkraft : kraft D (ordered.map Prod.fst) ≤ 2 ^ D)
    {entry' : α × ℕ × ℕ} (h : entry ∈ assign 0 0 ordered) (h' : entry' ∈ assign 0 0 ordered)
    (hword : word entry.2.1 entry.2.2 <+: word entry'.2.1 entry'.2.2) : entry = entry' := by
  have hlt := assign_lt hsorted hD hkraft h
  have hlt' := assign_lt hsorted hD hkraft h'
  have hlength : ∀ e ∈ assign 0 0 ordered, e.2.2 ≤ D := by
    intro e he
    have hmap := List.mem_map_of_mem (f := fun entry : α × ℕ × ℕ => (entry.2.2, entry.1)) he
    rw [map_symbol_assign] at hmap
    exact hD _ hmap
  obtain ⟨-, hstart, hend⟩ := bounds_of_prefix hlt hlt' (hlength _ h') hword
  have hapart := @pairwise_assign _ D 0 0 _ hsorted (fun _ _ => Nat.zero_le _) hD
  by_contra hne
  have hpos := Nat.two_pow_pos (D - entry'.2.2)
  obtain ⟨i, hi, rfl⟩ := List.getElem_of_mem h
  obtain ⟨j, hj, rfl⟩ := List.getElem_of_mem h'
  rcases Nat.lt_trichotomy i j with hij | rfl | hij
  · have hbefore := List.pairwise_iff_getElem.mp hapart i j hi hj hij
    omega
  · exact hne rfl
  · have hbefore := List.pairwise_iff_getElem.mp hapart j i hj hi hij
    rw [Nat.add_mul, Nat.one_mul] at hbefore
    omega

end CanonicalCode
