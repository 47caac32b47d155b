import ByteSelect.Baseline.Fpc
import ByteSelect.WhileLoop
import Mathlib.Data.Nat.Digits.Lemmas

/-! The values of a block, and the bit counts of the baseline codecs. -/
namespace ByteSelect.Baseline

open FpcBsel (Word load32 wordsTo)

def valuesForWidth (block : Block) (width : ℕ) : Except Error (List ℕ) := do
  throwIf (width = 0 ∨ block.length % width ≠ 0)
    (.invalidArgument "block size is not divisible by baseline value width")
  return (List.range (block.length / width)).map fun i => loadLittleEndian block (i * width) width

def fitsSigned (value : ℤ) (bits : ℕ) : Bool :=
  let limit : ℤ := 2 ^ (bits - 1)
  decide (-limit ≤ value ∧ value ≤ limit - 1)

def ceilStep (value bits : ℕ) : Option ℕ := if 1 <<< bits < value then some (bits + 1) else none

/-- No `std::size_t` needs more than 64 turns. -/
def ceilLog2 (value : ℕ) : ℕ := WhileLoop.run (ceilStep value) 64 0

def trailingStep (state : Word × ℕ) : Option (Word × ℕ) :=
  if state.1 &&& 1 = 0 then some (state.1 >>> 1, state.2 + 1) else none

/-- Of a value that is not zero: on zero the loop of the source does not end. -/
def countTrailingZeros (value : Word) : ℕ := (WhileLoop.run trailingStep 32 (value, 0)).2

def popcountStep (state : Word × ℕ) : Option (Word × ℕ) :=
  if state.1 ≠ 0 then some (state.1 >>> 1, state.2 + (state.1 &&& 1).toNat) else none

def popcount (value : Word) : ℕ := (WhileLoop.run popcountStep 32 (value, 0)).2

variable {block : Block} {value : Word} {n count : ℕ}

theorem valuesForWidth_word (h : block.length % 4 = 0) : ∃ values,
    valuesForWidth block 4 = .ok values ∧
      values.map (BitVec.ofNat 32) = wordsTo block (block.length / 4) := by
  refine ⟨(List.range (block.length / 4)).map fun i => loadLittleEndian block (i * 4) 4, ?_, ?_⟩
  · rw [valuesForWidth, throwIf_neg (by omega), ok_bind]
    rfl
  · rw [List.map_map, wordsTo]
    exact List.map_congr_left fun i _ => loadLittleEndian_word block (i * 4)

/-- The low bits of a number that fits them widen to the number again. -/
theorem signExtend_of_fitsSigned (hn : n + 1 < 32) (h : fitsSigned value.toInt (n + 1) = true) :
    signExtend (BitVec.ofNat 32 (value.toNat % 2 ^ (n + 1))) (n + 1) = value := by
  have hvalue := value.isLt
  have hlow : value.toNat % 2 ^ (n + 1) < 2 ^ (n + 1) := Nat.mod_lt _ (Nat.two_pow_pos _)
  obtain ⟨q, hq⟩ : 2 ^ (n + 1) ∣ 2 ^ 32 := Nat.pow_dvd_pow 2 (by omega)
  have hpow : (2 : ℤ) ^ n = ((2 ^ n : ℕ) : ℤ) := by push_cast; rfl
  rw [fitsSigned, decide_eq_true_iff, Nat.add_sub_cancel, hpow, BitVec.toInt_eq_toNat_cond] at h
  apply BitVec.eq_of_toNat_eq
  rw [toNat_signExtend hn hlow, FpcFormat.signExtend, Nat.add_sub_cancel]
  have hhalf := Nat.pow_succ 2 n
  have hpos := Nat.two_pow_pos n
  have hle : 2 ^ (n + 1) ≤ 2 ^ 32 := Nat.pow_le_pow_right (by decide) (by omega)
  by_cases hsign : 2 * value.toNat < 2 ^ 32
  · rw [if_pos hsign] at h
    have hfit : value.toNat < 2 ^ n := by omega
    rw [Nat.mod_eq_of_lt (by omega), if_pos hfit]
  · rw [if_neg hsign] at h
    have hhigh : 2 ^ 32 - 2 ^ n ≤ value.toNat := by omega
    have hmod : value.toNat % 2 ^ (n + 1) = value.toNat + 2 ^ (n + 1) - 2 ^ 32 := by
      have hsum : (value.toNat + 2 ^ (n + 1) - 2 ^ 32) + 2 ^ (n + 1) * (q - 1) = value.toNat := by
        rw [Nat.mul_sub, ← hq, Nat.mul_one]
        omega
      calc value.toNat % 2 ^ (n + 1)
          = (value.toNat + 2 ^ (n + 1) - 2 ^ 32 + 2 ^ (n + 1) * (q - 1)) % 2 ^ (n + 1) := by
            rw [hsum]
        _ = (value.toNat + 2 ^ (n + 1) - 2 ^ 32) % 2 ^ (n + 1) := Nat.add_mul_mod_self_left _ _ _
        _ = value.toNat + 2 ^ (n + 1) - 2 ^ 32 := Nat.mod_eq_of_lt (by omega)
    rw [hmod, if_neg (by omega)]
    omega

theorem ceilStep_some {size bits bits' : ℕ} (h : ceilStep size bits = some bits') :
    bits < Nat.clog 2 size ∧ bits' = bits + 1 := by
  rw [ceilStep, Nat.one_shiftLeft] at h
  by_cases hlt : 2 ^ bits < size
  · rw [if_pos hlt] at h
    cases h
    exact ⟨(Nat.lt_clog_iff_pow_lt (by decide)).mpr hlt, rfl⟩
  · rw [if_neg hlt] at h
    cases h

theorem ceilLog2_eq {size : ℕ} (h : size ≤ 2 ^ 64) : ceilLog2 size = Nat.clog 2 size := by
  have hinv : ∀ bits bits', bits ≤ Nat.clog 2 size → ceilStep size bits = some bits' →
      bits' ≤ Nat.clog 2 size := by
    intro bits bits' _ hs
    obtain ⟨hlt, rfl⟩ := ceilStep_some hs
    exact hlt
  have hless : ∀ bits bits', bits ≤ Nat.clog 2 size → ceilStep size bits = some bits' →
      Nat.clog 2 size - bits' < Nat.clog 2 size - bits := by
    intro bits bits' _ hs
    obtain ⟨hlt, rfl⟩ := ceilStep_some hs
    omega
  have hle := WhileLoop.run_invariant hinv 64 (Nat.zero_le _)
  have hhalted := WhileLoop.run_halts hinv _ hless (Nat.zero_le _) (Nat.clog_le_of_le_pow h)
  rw [← ceilLog2] at hle hhalted
  apply Nat.le_antisymm hle
  apply Nat.clog_le_of_le_pow
  by_contra hlt
  rw [ceilStep, Nat.one_shiftLeft, if_pos (by omega)] at hhalted
  cases hhalted

theorem toNat_shiftRight_one (value : Word) : (value >>> 1).toNat = value.toNat / 2 := by
  rw [BitVec.toNat_ushiftRight, Nat.shiftRight_eq_div_pow, Nat.pow_one]

theorem toNat_and_one (value : Word) : (value &&& 1).toNat = value.toNat % 2 := by
  rw [BitVec.toNat_and]
  exact Nat.and_one_is_mod _

theorem run_trailingStep (hpos : 0 < value.toNat) (h : value.toNat < 2 ^ n) :
    ∃ c, (WhileLoop.run trailingStep n (value, count)).2 = count + c ∧
      2 ^ c ∣ value.toNat ∧ value.toNat / 2 ^ c % 2 = 1 := by
  induction n generalizing value count with
  | zero => omega
  | succ n ih =>
    have hbit : value &&& 1 = 0 ↔ value.toNat % 2 = 0 := by
      rw [← BitVec.toNat_inj, toNat_and_one]
      rfl
    by_cases heven : value.toNat % 2 = 0
    · have hstep : trailingStep (value, count) = some (value >>> 1, count + 1) :=
        if_pos (hbit.mpr heven)
      have hhalf := toNat_shiftRight_one value
      obtain ⟨c, hrun, hdvd, hodd⟩ := @ih (value >>> 1) (count + 1) (by omega) (by omega)
      rw [hhalf] at hdvd hodd
      refine ⟨c + 1, ?_, ?_, ?_⟩
      · rw [WhileLoop.run_succ hstep, hrun]
        omega
      · obtain ⟨m, hm⟩ := hdvd
        refine ⟨m, ?_⟩
        rw [Nat.pow_succ, Nat.mul_comm (2 ^ c), Nat.mul_assoc, ← hm]
        omega
      · rwa [Nat.pow_succ, Nat.mul_comm, ← Nat.div_div_eq_div_mul]
    · have hstep : trailingStep (value, count) = none := if_neg (mt hbit.mp heven)
      refine ⟨0, ?_, ⟨value.toNat, by omega⟩, by omega⟩
      rw [WhileLoop.run_of_halted hstep]
      rfl

/-- The lowest bit that is set. -/
theorem countTrailingZeros_spec (h : value ≠ 0) :
    2 ^ countTrailingZeros value ∣ value.toNat ∧
      value.toNat / 2 ^ countTrailingZeros value % 2 = 1 := by
  have hpos : 0 < value.toNat := BitVec.toNat_pos_of_ne_zero h
  obtain ⟨c, hrun, hspec⟩ := @run_trailingStep value 32 0 hpos value.isLt
  rw [Nat.zero_add] at hrun
  rw [countTrailingZeros, hrun]
  exact hspec

theorem run_popcountStep (h : value.toNat < 2 ^ n) :
    (WhileLoop.run popcountStep n (value, count)).2 = count + (Nat.digits 2 value.toNat).sum := by
  induction n generalizing value count with
  | zero =>
    have hzero : value.toNat = 0 := by omega
    rw [hzero, Nat.digits_zero]
    rfl
  | succ n ih =>
    by_cases hzero : value = 0
    · have hstep : popcountStep (value, count) = none := if_neg (not_not.mpr hzero)
      rw [WhileLoop.run_of_halted hstep, hzero]
      rfl
    · have hstep : popcountStep (value, count) =
          some (value >>> 1, count + (value &&& 1).toNat) := if_pos hzero
      have hpos : 0 < value.toNat := BitVec.toNat_pos_of_ne_zero hzero
      have hhalf := toNat_shiftRight_one value
      rw [WhileLoop.run_succ hstep, ih (by omega), hhalf, toNat_and_one,
        Nat.digits_def' (by decide) hpos, List.sum_cons, Nat.add_assoc]

theorem popcount_eq (value : Word) : popcount value = (Nat.digits 2 value.toNat).sum := by
  rw [popcount, run_popcountStep value.isLt, Nat.zero_add]

theorem sum_digits_two (m : ℕ) : (Nat.digits 2 m).sum = m % 2 + (Nat.digits 2 (m / 2)).sum := by
  cases m with
  | zero => simp
  | succ m => rw [Nat.digits_def' (by decide) m.succ_pos, List.sum_cons]

theorem eq_zero_of_sum_digits {m : ℕ} (h : (Nat.digits 2 m).sum = 0) : m = 0 := by
  induction m using Nat.strong_induction_on with
  | _ m ih =>
    by_contra hm
    have hsplit := sum_digits_two m
    have hhalf := ih (m / 2) (by omega) (by omega)
    omega

/-- A value is an odd number, shifted, with the same number of bits set. -/
theorem exists_odd (h : popcount value ≠ 0) : ∃ m, m % 2 = 1 ∧
    value = BitVec.ofNat 32 m <<< countTrailingZeros value ∧
    value.toNat / 2 ^ countTrailingZeros value = m ∧
    popcount value = 1 + (Nat.digits 2 (m / 2)).sum := by
  have hne : value ≠ 0 := by
    rintro rfl
    exact h rfl
  obtain ⟨⟨m, hm⟩, hodd⟩ := countTrailingZeros_spec hne
  have hpos := Nat.two_pow_pos (countTrailingZeros value)
  have hdiv : value.toNat / 2 ^ countTrailingZeros value = m := by
    rw [hm, Nat.mul_div_cancel_left m hpos]
  rw [hdiv] at hodd
  refine ⟨m, hodd, ?_, hdiv, ?_⟩
  · apply BitVec.eq_of_toNat_eq
    have hvalue := value.isLt
    have hle : m ≤ value.toNat := by
      rw [hm]
      exact Nat.le_mul_of_pos_left m hpos
    have hfit : m % 2 ^ 32 = m := Nat.mod_eq_of_lt (by omega)
    rw [BitVec.toNat_shiftLeft, BitVec.toNat_ofNat, hfit, Nat.shiftLeft_eq, Nat.mul_comm, ← hm,
      Nat.mod_eq_of_lt hvalue]
  · have hdigits := Nat.digits_base_pow_mul (b := 2) (k := countTrailingZeros value) (m := m)
      (by decide) (by omega)
    rw [popcount_eq, hm, hdigits, List.sum_append, List.sum_replicate_nat, Nat.mul_zero,
      Nat.zero_add, sum_digits_two m, hodd]

theorem eq_shift_of_popcount_one (h : popcount value = 1) :
    value = 1#32 <<< countTrailingZeros value := by
  obtain ⟨m, hodd, hvalue, -, hcount⟩ := exists_odd (show popcount value ≠ 0 by omega)
  have hhalf := eq_zero_of_sum_digits (show (Nat.digits 2 (m / 2)).sum = 0 by omega)
  obtain rfl : m = 1 := by omega
  exact hvalue

theorem eq_shift_of_popcount_two (h : popcount value = 2)
    (hbit : (value >>> (countTrailingZeros value + 1)) &&& 1 ≠ 0) :
    value = 3#32 <<< countTrailingZeros value := by
  obtain ⟨m, hodd, hvalue, hdiv, hcount⟩ := exists_odd (show popcount value ≠ 0 by omega)
  have hnext : m / 2 % 2 ≠ 0 := by
    intro hzero
    apply hbit
    apply BitVec.eq_of_toNat_eq
    rw [toNat_and_one, BitVec.toNat_ushiftRight, Nat.shiftRight_eq_div_pow, Nat.pow_succ,
      ← Nat.div_div_eq_div_mul, hdiv, hzero]
    rfl
  have hsplit := sum_digits_two (m / 2)
  have hquarter := eq_zero_of_sum_digits (show (Nat.digits 2 (m / 2 / 2)).sum = 0 by omega)
  obtain rfl : m = 3 := by omega
  exact hvalue

end ByteSelect.Baseline
