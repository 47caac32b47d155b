import ByteSelect.Widths
import Mathlib.Data.Fin.Basic
import Mathlib.Tactic.Ring
import Mathlib.Tactic.Positivity

/-! Numbers as bit vectors: reading and writing fields, and packed lists of bytes. -/
namespace PackedBytes

abbrev Octet := Fin (2 ^ 8)

variable {v w b i n : ℕ} {l : List Octet}

/-- `width` bits of a value from bit `lo` on. -/
def field (v lo width : ℕ) : ℕ := v / 2 ^ lo % 2 ^ width

/-- A value with `width` bits from bit `lo` on replaced. -/
def setField (v lo width b : ℕ) : ℕ :=
  v % 2 ^ lo + b % 2 ^ width * 2 ^ lo + v / 2 ^ (lo + width) * 2 ^ (lo + width)

/-- The first byte lowest. -/
def pack : List Octet → ℕ
  | [] => 0
  | b :: l => b.val + 2 ^ 8 * pack l

def unpack (v : ℕ) : ℕ → List Octet
  | 0 => []
  | n + 1 => Fin.ofNat _ v :: unpack (v / 2 ^ 8) n

@[simp] theorem length_unpack (v n : ℕ) : (unpack v n).length = n := by
  induction n generalizing v with
  | zero => rfl
  | succ n ih => simp [unpack, ih]

theorem pack_lt (l : List Octet) : pack l < 2 ^ (l.length * 8) := by
  induction l with
  | nil => simp [pack]
  | cons b l ih =>
    have hb := b.isLt
    rw [pack, List.length_cons, Nat.add_mul, Nat.pow_add]
    omega

theorem pack_unpack (v n : ℕ) : pack (unpack v n) = v % 2 ^ (n * 8) := by
  induction n generalizing v with
  | zero => simp [unpack, pack, Nat.mod_one]
  | succ n ih =>
    rw [unpack, pack, ih, Fin.val_ofNat, Nat.add_mul, Nat.one_mul, Nat.add_comm (n * 8),
      Nat.pow_add, Nat.mod_mul]

theorem unpack_pack (l : List Octet) : unpack (pack l) l.length = l := by
  induction l with
  | nil => rfl
  | cons b l ih =>
    have hb := b.isLt
    have hhead : Fin.ofNat (2 ^ 8) (pack (b :: l)) = b := by
      apply Fin.ext
      rw [Fin.val_ofNat, pack, Nat.add_mul_mod_self_left, Nat.mod_eq_of_lt hb]
    have htail : pack (b :: l) / 2 ^ 8 = pack l := by
      rw [pack, Nat.add_mul_div_left _ _ (by positivity), Nat.div_eq_of_lt hb, Nat.zero_add]
    rw [List.length_cons, unpack, hhead, htail, ih]

theorem unpack_mod (v n : ℕ) : unpack (v % 2 ^ (n * 8)) n = unpack v n := by
  have h := unpack_pack (unpack v n)
  rwa [length_unpack, pack_unpack] at h

@[simp] theorem pack_zeros (n : ℕ) : pack (List.replicate n 0) = 0 := by
  induction n with
  | zero => rfl
  | succ n ih => simp [List.replicate_succ, pack, ih]

theorem pack_append (l l' : List Octet) : pack (l ++ l') = pack l + 2 ^ (8 * l.length) * pack l' := by
  induction l with
  | nil => simp [pack]
  | cons b l ih =>
    rw [List.cons_append, pack, pack, ih, List.length_cons, Nat.mul_succ, Nat.pow_add]
    ring

theorem pack_append_zeros (l : List Octet) (n : ℕ) :
    pack (l ++ List.replicate n 0) = pack l := by
  induction l with
  | nil => simp [pack]
  | cons b l ih => simp [pack, ih]

theorem field_succ (b : Octet) (v i : ℕ) :
    field (b.val + 2 ^ 8 * v) ((i + 1) * 8) 8 = field v (i * 8) 8 := by
  have hb := b.isLt
  have hdiv : (b.val + 2 ^ 8 * v) / 2 ^ 8 = v := by
    rw [Nat.add_mul_div_left _ _ (by positivity), Nat.div_eq_of_lt hb, Nat.zero_add]
  rw [field, field, Nat.add_mul, Nat.one_mul, Nat.add_comm (i * 8), Nat.pow_add,
    ← Nat.div_div_eq_div_mul, hdiv]

/-- Reading a byte of a packed list. -/
theorem field_pack (l : List Octet) (i : ℕ) : field (pack l) (i * 8) 8 = (l.getD i 0).val := by
  induction l generalizing i with
  | nil => simp [pack, field]
  | cons b l ih =>
    have hb := b.isLt
    cases i with
    | zero =>
      rw [pack, field, Nat.zero_mul, Nat.pow_zero, Nat.div_one, Nat.add_mul_mod_self_left,
        Nat.mod_eq_of_lt hb]
      rfl
    | succ i =>
      rw [pack, field_succ, ih]
      rfl

theorem setField_succ (b : Octet) (v c i : ℕ) :
    setField (b.val + 2 ^ 8 * v) ((i + 1) * 8) 8 c =
      b.val + 2 ^ 8 * setField v (i * 8) 8 c := by
  have hb := b.isLt
  have hdiv : (b.val + 2 ^ 8 * v) / 2 ^ 8 = v := by
    rw [Nat.add_mul_div_left _ _ (by positivity), Nat.div_eq_of_lt hb, Nat.zero_add]
  have hmod : (b.val + 2 ^ 8 * v) % 2 ^ 8 = b.val := by
    rw [Nat.add_mul_mod_self_left, Nat.mod_eq_of_lt hb]
  have hlow : (b.val + 2 ^ 8 * v) % 2 ^ ((i + 1) * 8) = b.val + 2 ^ 8 * (v % 2 ^ (i * 8)) := by
    rw [Nat.add_mul, Nat.one_mul, Nat.add_comm (i * 8), Nat.pow_add, Nat.mod_mul, hdiv, hmod]
  have hhigh : (b.val + 2 ^ 8 * v) / 2 ^ ((i + 1) * 8 + 8) = v / 2 ^ (i * 8 + 8) := by
    rw [show (i + 1) * 8 + 8 = 8 + (i * 8 + 8) by ring, Nat.pow_add,
      ← Nat.div_div_eq_div_mul, hdiv]
  rw [setField, setField, hlow, hhigh]
  ring

/-- Writing a byte of a packed list. -/
theorem setField_pack {l : List Octet} {i : ℕ} (h : i < l.length) (c : Octet) :
    setField (pack l) (i * 8) 8 c.val = pack (l.set i c) := by
  induction l generalizing i with
  | nil => simp at h
  | cons b l ih =>
    have hb := b.isLt
    have hc := c.isLt
    cases i with
    | zero =>
      have hdiv : (b.val + 2 ^ 8 * pack l) / 2 ^ 8 = pack l := by
        rw [Nat.add_mul_div_left _ _ (by positivity), Nat.div_eq_of_lt hb, Nat.zero_add]
      rw [pack, setField, List.set_cons_zero, pack, Nat.zero_mul, Nat.zero_add, Nat.pow_zero,
        Nat.mod_one, hdiv, Nat.mod_eq_of_lt hc]
      ring
    | succ i =>
      rw [pack, setField_succ, ih (by simpa using h), List.set_cons_succ, pack]

/-- Writing the lowest bits of an empty value. -/
theorem setField_zero (w b : ℕ) : setField 0 0 w b = b % 2 ^ w := by
  simp [setField]

theorem field_zero (v w : ℕ) : field v 0 w = v % 2 ^ w := by
  simp [field]

end PackedBytes
