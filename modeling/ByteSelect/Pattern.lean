import ByteSelect.Machine
import ByteSelect.SlotTable
import Mathlib.Data.List.Sort
import Mathlib.Data.Fintype.Card
import Mathlib.Data.Nat.Bitwise

/-! Patterns of equal bytes: canonical numbering, the described blocks and the lattice order. -/
namespace ByteSelect

open ListKernel SlotTable

/-- The `emplace` loop of the three numberings: a new key takes the 16-bit counter's value. -/
def numberFrom {κ : Type} [DecidableEq κ] (mapping : List (κ × Symbol)) (next : Symbol) :
    List κ → List Symbol
  | [] => []
  | key :: keys =>
    match mapping.lookup key with
    | some symbol => symbol :: numberFrom mapping next keys
    | none => next :: numberFrom ((key, next) :: mapping) (next + 1) keys

def canonicalize (symbols : List Symbol) : List Symbol := numberFrom [] 0 symbols

section Numbering

variable {κ : Type} [DecidableEq κ] {l : List κ}

theorem numberFrom_eq_renumber {mapping : List (κ × Symbol)} {seen : List κ}
    (hm : ∀ key, mapping.lookup key =
      if key ∈ seen then some (Fin.ofNat _ (seen.idxOf key)) else none) (l : List κ) :
    numberFrom mapping (Fin.ofNat _ seen.length) l = (renumber seen l).map (Fin.ofNat _) := by
  induction l generalizing mapping seen with
  | nil => rfl
  | cons x xs ih =>
    unfold numberFrom renumber
    rw [hm x]
    by_cases hx : x ∈ seen
    · simp only [if_pos hx, List.map_cons]
      rw [ih hm]
    · simp only [if_neg hx, List.map_cons]
      congr 1
      have hnext : (Fin.ofNat (2 ^ 16) seen.length + 1 : Symbol) =
          Fin.ofNat _ (seen ++ [x]).length := by
        apply Fin.ext
        simp [Fin.val_add, Fin.ofNat]
      rw [hnext]
      apply ih
      intro key
      rw [List.lookup_cons, List.idxOf_append]
      by_cases hk : key = x
      · simp [hk, hx]
      · by_cases hs : key ∈ seen <;> simp [hk, beq_false_of_ne hk, hm key, hs]

theorem numberFrom_nil (l : List κ) :
    numberFrom [] 0 l = (renumber [] l).map (Fin.ofNat (2 ^ 16)) := by
  have hempty : ∀ key, ([] : List (κ × Symbol)).lookup key =
      if key ∈ [] then some (Fin.ofNat _ ([].idxOf key)) else none := by simp
  exact numberFrom_eq_renumber hempty l

@[simp] theorem length_numberFrom_nil (l : List κ) : (numberFrom [] 0 l).length = l.length := by
  simp [numberFrom_nil]

/-- While the counter does not wrap, the symbols are the numbers themselves. -/
theorem val_numberFrom (h : distinct l ≤ 2 ^ 16) :
    (numberFrom [] 0 l).map Fin.val = renumber [] l := by
  rw [numberFrom_nil, List.map_map]
  conv_rhs => rw [← List.map_id (renumber [] l)]
  apply List.map_congr_left
  intro n hn
  exact Nat.mod_eq_of_lt (lt_of_lt_of_le (mem_renumber.mp hn) h)

theorem kernel_map_val {n : ℕ} (s : List (Fin n)) : kernel (s.map Fin.val) = kernel s :=
  kernel_map fun _ _ _ _ h => Fin.ext h

theorem kernel_numberFrom (h : distinct l ≤ 2 ^ 16) : kernel (numberFrom [] 0 l) = kernel l := by
  rw [← kernel_map_val, val_numberFrom h, kernel_renumber]

theorem distinct_le_card [Fintype κ] (l : List κ) : distinct l ≤ Fintype.card κ := by
  rw [distinct_eq_card]
  exact Finset.card_le_univ _

end Numbering

theorem distinct_symbols_le (s : List Symbol) : distinct s ≤ 2 ^ 16 := by
  simpa using distinct_le_card s

theorem distinct_bytes_le (block : Block) : distinct block ≤ 2 ^ 16 :=
  le_trans (distinct_le_card block) (by simp)

theorem canonicalize_canonicalize (s : List Symbol) :
    canonicalize (canonicalize s) = canonicalize s := by
  unfold canonicalize
  conv_lhs => rw [numberFrom_nil]
  conv_rhs => rw [numberFrom_nil]
  rw [renumber_congr (length_numberFrom_nil s) (kernel_numberFrom (distinct_symbols_le s))]

/-- A pattern holds its symbols in canonical form: the constructor renumbers them. -/
structure Pattern where
  symbols : List Symbol
  canonical : canonicalize symbols = symbols
  deriving DecidableEq

namespace Pattern

def ofSymbols (symbols : List Symbol) : Pattern :=
  ⟨canonicalize symbols, canonicalize_canonicalize symbols⟩

def simplest (block : Block) : Pattern := ofSymbols (numberFrom [] 0 block)

def size (p : Pattern) : ℕ := p.symbols.length

def rank (p : Pattern) : ℕ := p.symbols.foldl (fun result symbol => max result (symbol.val + 1)) 0

/-- The positions of a pattern with the entry another list has there. -/
def entries {β : Type} (p : Pattern) (values : List β) : List (ℕ × β) :=
  (p.symbols.map Fin.val).zip values

def describes (p : Pattern) (block : Block) : Bool :=
  if block.length ≠ p.size then false
  else agree (List.replicate p.rank none) (p.entries block)

/-- The comparison loop of `lessEqual`, after its size check. -/
def leq (p other : Pattern) : Bool :=
  agree (List.replicate other.rank none) (other.entries p.symbols)

def lessEqual (p other : Pattern) : Except Error Bool := do
  throwIf (p.size ≠ other.size)
    (.invalidArgument "cannot compare patterns with different sizes")
  return p.leq other

def pairKey (a b : Symbol) : Fin (2 ^ 32) := Fin.ofNat _ (a.val <<< 16 ||| b.val)

/-- The pair numbering of `leastUpperBound`, after its size check. -/
def lub (p other : Pattern) : Pattern :=
  ofSymbols (numberFrom [] 0 (List.zipWith pairKey p.symbols other.symbols))

def leastUpperBound (p other : Pattern) : Except Error Pattern := do
  throwIf (p.size ≠ other.size)
    (.invalidArgument "cannot combine patterns with different sizes")
  return p.lub other

/-- `operator<`: the lexicographic order of the symbol vectors. -/
def lt (p other : Pattern) : Bool := decide (p.symbols < other.symbols)

end Pattern
end ByteSelect
