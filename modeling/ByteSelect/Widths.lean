import Mathlib.Algebra.Group.Nat.Defs

/-! Fixed widths: the numbers below these bounds have numerals and an equality that is theirs. -/
namespace Widths

instance neZeroEight : @NeZero ℕ Zero.ofOfNat0 8 := ⟨by decide⟩

instance neZeroByte : @NeZero ℕ Zero.ofOfNat0 (2 ^ 8) := ⟨by decide⟩

instance neZeroShort : @NeZero ℕ Zero.ofOfNat0 (2 ^ 16) := ⟨by decide⟩

instance neZeroWord : @NeZero ℕ Zero.ofOfNat0 (2 ^ 32) := ⟨by decide⟩

instance neZeroLong : @NeZero ℕ Zero.ofOfNat0 (2 ^ 64) := ⟨by decide⟩

instance lawfulByte : LawfulBEq (Fin (2 ^ 8)) := inferInstance

instance lawfulLong : LawfulBEq (Fin (2 ^ 64)) := inferInstance

end Widths
