import ByteSelect.PackedBytes
import Mathlib.Data.List.ModifyLast
import Mathlib.Data.Nat.Bitwise

/-! Bit strings, lowest bit first: packing into bytes, and readers that take fields of bits. -/
namespace BitStream

open PackedBytes

/-- The lowest `n` bits of a number. -/
def bitsOf (v : ℕ) : ℕ → List Bool
  | 0 => []
  | n + 1 => v.testBit 0 :: bitsOf (v / 2) n

def ofBits : List Bool → ℕ
  | [] => 0
  | b :: l => b.toNat + 2 * ofBits l

section Numbers

variable {v m n i j : ℕ} {l l' : List Bool} {b : Bool}

@[simp] theorem length_bitsOf (v n : ℕ) : (bitsOf v n).length = n := by
  induction n generalizing v with
  | zero => rfl
  | succ n ih => rw [bitsOf, List.length_cons, ih]

theorem ofBits_lt (l : List Bool) : ofBits l < 2 ^ l.length := by
  induction l with
  | nil => exact Nat.one_pos
  | cons b l ih =>
    have hb := b.toNat_lt
    rw [ofBits, List.length_cons, Nat.pow_succ]
    omega

theorem toNat_testBit_zero (v : ℕ) : (v.testBit 0).toNat = v % 2 := by
  rw [Nat.testBit_zero]
  rcases Nat.mod_two_eq_zero_or_one v with h | h <;> simp [h]

theorem ofBits_bitsOf (v n : ℕ) : ofBits (bitsOf v n) = v % 2 ^ n := by
  induction n generalizing v with
  | zero => exact (Nat.mod_one v).symm
  | succ n ih =>
    rw [bitsOf, ofBits, ih, toNat_testBit_zero, Nat.pow_succ, Nat.mul_comm (2 ^ n), Nat.mod_mul]

theorem bitsOf_ofBits (l : List Bool) : bitsOf (ofBits l) l.length = l := by
  induction l with
  | nil => rfl
  | cons b l ih =>
    have hhead : (b.toNat + 2 * ofBits l).testBit 0 = b := by
      rw [Nat.testBit_zero]
      cases b <;> simp
    have htail : (b.toNat + 2 * ofBits l) / 2 = ofBits l := by
      have hb := b.toNat_lt
      omega
    rw [ofBits, List.length_cons, bitsOf, hhead, htail, ih]

theorem bitsOf_add (v m n : ℕ) : bitsOf v (m + n) = bitsOf v m ++ bitsOf (v / 2 ^ m) n := by
  induction m generalizing v with
  | zero => simp [bitsOf]
  | succ m ih =>
    rw [Nat.add_right_comm, bitsOf, ih, bitsOf, Nat.div_div_eq_div_mul, Nat.pow_succ,
      Nat.mul_comm 2, List.cons_append]

theorem bitsOf_succ (v n : ℕ) : bitsOf v (n + 1) = bitsOf v n ++ [v.testBit n] := by
  rw [bitsOf_add, bitsOf, bitsOf, Nat.testBit_div_two_pow, Nat.zero_add]

/-- Two numbers with the same low bits. -/
theorem bitsOf_congr {w : ℕ} (h : v % 2 ^ n = w % 2 ^ n) : bitsOf v n = bitsOf w n := by
  have hv := bitsOf_ofBits (bitsOf v n)
  have hw := bitsOf_ofBits (bitsOf w n)
  rw [ofBits_bitsOf, length_bitsOf] at hv hw
  rw [← hv, h, hw]

@[simp] theorem bitsOf_zero (n : ℕ) : bitsOf 0 n = List.replicate n false := by
  induction n with
  | zero => rfl
  | succ n ih => rw [bitsOf, Nat.zero_div, ih, Nat.zero_testBit, List.replicate_succ]

theorem ofBits_append (l l' : List Bool) :
    ofBits (l ++ l') = ofBits l + 2 ^ l.length * ofBits l' := by
  induction l with
  | nil => simp [ofBits]
  | cons b l ih =>
    rw [List.cons_append, ofBits, ofBits, ih, List.length_cons, Nat.pow_succ]
    ring

theorem getElem?_bitsOf (v n i : ℕ) :
    (bitsOf v n)[i]? = if i < n then some (v.testBit i) else none := by
  induction n generalizing v i with
  | zero => simp [bitsOf]
  | succ n ih =>
    rw [bitsOf]
    cases i with
    | zero => simp
    | succ i => simp [ih, Nat.testBit_add_one]

end Numbers

/-! Bytes. -/

/-- The bits in bytes, the last byte filled up with zeros. -/
def toOctets (l : List Bool) : List Octet := unpack (ofBits l) ((l.length + 7) / 8)

def ofOctets (bs : List Octet) : List Bool := bitsOf (pack bs) (bs.length * 8)

section Octets

variable {l l' : List Bool} {b : Bool} {bs : List Octet} {i j : ℕ}

@[simp] theorem length_toOctets (l : List Bool) : (toOctets l).length = (l.length + 7) / 8 :=
  length_unpack _ _

@[simp] theorem length_ofOctets (bs : List Octet) : (ofOctets bs).length = bs.length * 8 :=
  length_bitsOf _ _

/-- Reading packed bits back gives them, followed by the fill. -/
theorem ofOctets_toOctets (l : List Bool) : ofOctets (toOctets l) =
    l ++ List.replicate ((l.length + 7) / 8 * 8 - l.length) false := by
  have hlen : (l.length + 7) / 8 * 8 = l.length + ((l.length + 7) / 8 * 8 - l.length) := by omega
  have hlt := ofBits_lt l
  have hmod : ofBits l % 2 ^ ((l.length + 7) / 8 * 8) = ofBits l :=
    Nat.mod_eq_of_lt (hlt.trans_le (Nat.pow_le_pow_right (by decide) (by omega)))
  rw [ofOctets, length_toOctets, toOctets, pack_unpack, hmod]
  nth_rewrite 1 [hlen]
  rw [bitsOf_add, bitsOf_ofBits, Nat.div_eq_of_lt hlt, bitsOf_zero]

theorem unpack_succ (v n : ℕ) :
    unpack v (n + 1) = unpack v n ++ [Fin.ofNat _ (v / 2 ^ (n * 8))] := by
  induction n generalizing v with
  | zero => simp [unpack]
  | succ n ih =>
    rw [unpack, ih, unpack, List.cons_append, Nat.div_div_eq_div_mul, ← Nat.pow_add,
      Nat.add_comm 8, Nat.succ_mul]

/-- Bits above all bits of a number. -/
theorem or_shiftLeft {v r : ℕ} (b : ℕ) (hv : v < 2 ^ r) : v ||| b <<< r = v + 2 ^ r * b := by
  rw [Nat.or_comm, ← Nat.shiftLeft_add_eq_or_of_lt hv, Nat.shiftLeft_eq, Nat.mul_comm, Nat.add_comm]

/-- A bit above all bits of a byte. -/
theorem or_bit {v r b : ℕ} (hv : v < 2 ^ r) (hr : r < 8) (hb : b < 2) :
    Fin.ofNat (2 ^ 8) (v + 2 ^ r * b) = Fin.ofNat (2 ^ 8) v ||| Fin.ofNat (2 ^ 8) (b <<< r) := by
  have hfit : 2 ^ r * 2 ≤ 2 ^ 8 := by
    rw [← Nat.pow_succ]
    exact Nat.pow_le_pow_right (by decide) (by omega)
  have hbit : 2 ^ r * b ≤ 2 ^ r := by
    have hle : b ≤ 1 := by omega
    simpa using Nat.mul_le_mul_left (2 ^ r) hle
  have hshift : b <<< r = 2 ^ r * b := by rw [Nat.shiftLeft_eq, Nat.mul_comm]
  apply Fin.ext
  change (v + 2 ^ r * b) % 2 ^ 8 = (v % 2 ^ 8 ||| b <<< r % 2 ^ 8) % 2 ^ 8
  rw [Nat.mod_eq_of_lt (show v < 2 ^ 8 by omega), hshift,
    Nat.mod_eq_of_lt (show 2 ^ r * b < 2 ^ 8 by omega), ← hshift, or_shiftLeft b hv, hshift]

/-- One more bit: a new byte, or a bit of the last byte. -/
theorem toOctets_concat (l : List Bool) (b : Bool) : toOctets (l ++ [b]) =
    (if l.length % 8 = 0 then toOctets l ++ [0] else toOctets l).modifyLast
      fun octet => octet ||| Fin.ofNat _ (b.toNat <<< (l.length % 8)) := by
  have hlt := ofBits_lt l
  have hb := b.toNat_lt
  have hlen : l.length = l.length / 8 * 8 + l.length % 8 := by omega
  have hnew : ofBits (l ++ [b]) = ofBits l + 2 ^ l.length * b.toNat := by
    rw [ofBits_append]
    rfl
  have hlow : unpack (ofBits (l ++ [b])) (l.length / 8) = unpack (ofBits l) (l.length / 8) := by
    rw [← unpack_mod, ← unpack_mod (ofBits l), hnew, hlen, Nat.pow_add, Nat.mul_assoc]
    congr 1
    have hdiv : (l.length / 8 * 8 + l.length % 8) / 8 = l.length / 8 := by omega
    rw [hdiv, Nat.add_mul_mod_self_left]
  have hhigh : ofBits (l ++ [b]) / 2 ^ (l.length / 8 * 8) =
      ofBits l / 2 ^ (l.length / 8 * 8) + 2 ^ (l.length % 8) * b.toNat := by
    have hpow : 2 ^ l.length * b.toNat =
        2 ^ (l.length / 8 * 8) * (2 ^ (l.length % 8) * b.toNat) := by
      rw [← Nat.mul_assoc, ← Nat.pow_add, ← hlen]
    rw [hnew, hpow, Nat.add_mul_div_left _ _ (by positivity)]
  have hsize : (l.length + 1 + 7) / 8 = l.length / 8 + 1 := by omega
  rw [toOctets, List.length_append, List.length_singleton, hsize, unpack_succ, hlow, hhigh]
  by_cases hr : l.length % 8 = 0
  · have hzero : ofBits l / 2 ^ (l.length / 8 * 8) = 0 := by
      apply Nat.div_eq_of_lt
      rwa [hlen, hr] at hlt
    have hold : (l.length + 7) / 8 = l.length / 8 := by omega
    rw [if_pos hr, List.modifyLast_concat, toOctets, hold, hzero, hr]
    cases b <;> rfl
  · have hold : (l.length + 7) / 8 = l.length / 8 + 1 := by omega
    have hrest : ofBits l / 2 ^ (l.length / 8 * 8) < 2 ^ (l.length % 8) := by
      apply Nat.div_lt_of_lt_mul
      rwa [← Nat.pow_add, ← hlen]
    rw [if_neg hr, toOctets, hold, unpack_succ, List.modifyLast_concat]
    congr 2
    exact or_bit hrest (Nat.mod_lt _ (by decide)) hb

/-- Which bit of which byte a bit is. -/
theorem getElem?_ofOctets (bs : List Octet) (i : ℕ) {j : ℕ} (hj : j < 8) :
    (ofOctets bs)[i * 8 + j]? = (bs[i]?).map fun octet => octet.val.testBit j := by
  rw [ofOctets, getElem?_bitsOf]
  by_cases hi : i < bs.length
  · have hbyte := field_pack bs i
    rw [List.getD_eq_getElem _ _ hi, field] at hbyte
    rw [if_pos (by omega), List.getElem?_eq_getElem hi, Option.map_some, ← hbyte,
      Nat.testBit_mod_two_pow, Nat.testBit_div_two_pow, Nat.add_comm j]
    simp [hj]
  · rw [if_neg (by omega), List.getElem?_eq_none (by omega), Option.map_none]

end Octets

/-! Parsers of bit strings, and readers that implement them. -/

abbrev Parser (α : Type) := StateT (List Bool) Option α

def takeBits (n : ℕ) : Parser ℕ := fun l =>
  if n ≤ l.length then some (ofBits (l.take n), l.drop n) else none

section Parsers

variable {σ ε α γ : Type} {R : σ → List Bool → Prop} {l u : List Bool}

theorem Parser.bind_eq_some {p : Parser α} {q : α → Parser γ} {c : γ} :
    (p >>= q) l = some (c, u) ↔ ∃ a l', p l = some (a, l') ∧ q a l' = some (c, u) := by
  have hrun : (p >>= q) l = (p l).bind fun x => q x.1 x.2 := rfl
  rw [hrun, Option.bind_eq_some_iff]
  constructor
  · rintro ⟨⟨a, l'⟩, hp, hq⟩
    exact ⟨a, l', hp, hq⟩
  · rintro ⟨a, l', hp, hq⟩
    exact ⟨(a, l'), hp, hq⟩

theorem takeBits_bitsOf (v n : ℕ) (u : List Bool) :
    takeBits n (bitsOf v n ++ u) = some (v % 2 ^ n, u) := by
  have hlen := length_bitsOf v n
  rw [takeBits, if_pos (by rw [List.length_append]; omega), List.take_left' hlen,
    List.drop_left' hlen, ofBits_bitsOf]

theorem takeBits_zero : takeBits 0 = pure 0 := by
  funext l
  rfl

/-- A field is two fields, the low one first. -/
theorem takeBits_add (m n : ℕ) : takeBits (m + n) = do
    let low ← takeBits m
    let high ← takeBits n
    return low + 2 ^ m * high := by
  funext l
  have hrun : ∀ q : ℕ → Parser ℕ, (takeBits m >>= q) l = (takeBits m l).bind fun x => q x.1 x.2 :=
    fun _ => rfl
  rw [hrun]
  unfold takeBits
  by_cases hm : m ≤ l.length
  · rw [if_pos hm, Option.bind_some]
    have hrest : ∀ x : List Bool × ℕ, (takeBits n >>= fun high => (pure (x.2 + 2 ^ m * high) :
        Parser ℕ)) x.1 = (takeBits n x.1).bind fun y => some (x.2 + 2 ^ m * y.1, y.2) :=
      fun _ => rfl
    refine Eq.trans ?_ (hrest (l.drop m, ofBits (l.take m))).symm
    unfold takeBits
    rw [List.length_drop]
    by_cases hn : m + n ≤ l.length
    · have hlen : (l.take m).length = m := by
        rw [List.length_take]
        omega
      rw [if_pos hn, if_pos (by omega), Option.bind_some, List.take_add, ofBits_append, hlen,
        List.drop_drop]
    · rw [if_neg hn, if_neg (by omega), Option.bind_none]
  · rw [if_neg hm, if_neg (by omega), Option.bind_none]

/-- A reader over a state that stands before a bit string parses that string. -/
structure Implements (R : σ → List Bool → Prop) (m : StateT σ (Except ε) α) (p : Parser α) :
    Prop where
  accepts : ∀ s l a l', R s l → p l = some (a, l') → ∃ s', m s = .ok (a, s') ∧ R s' l'
  refuses : ∀ s l, R s l → p l = none → ∃ e, m s = .error e

theorem implements_pure (a : α) : Implements R (pure a : StateT σ (Except ε) α) (pure a) := by
  constructor
  · intro s l b l' hs hp
    cases hp
    exact ⟨s, rfl, hs⟩
  · intro s l hs hp
    cases hp

/-- The values a parser can return. -/
def Parser.Returns (p : Parser α) (a : α) : Prop := ∃ l l', p l = some (a, l')

theorem lt_of_returns_takeBits {n v : ℕ} (h : (takeBits n).Returns v) : v < 2 ^ n := by
  obtain ⟨l, l', h⟩ := h
  unfold takeBits at h
  split at h
  · rename_i hn
    cases h
    refine (ofBits_lt _).trans_le (Nat.pow_le_pow_right (by decide) ?_)
    rw [List.length_take]
    omega
  · cases h

theorem Implements.bind {m : StateT σ (Except ε) α} {f : α → StateT σ (Except ε) γ}
    {p : Parser α} {q : α → Parser γ} (hm : Implements R m p)
    (hf : ∀ a, p.Returns a → Implements R (f a) (q a)) : Implements R (m >>= f) (p >>= q) := by
  have hrun : ∀ s, (m >>= f) s = (m s).bind fun x => f x.1 x.2 := fun _ => rfl
  have hparse : ∀ l, (p >>= q) l = (p l).bind fun x => q x.1 x.2 := fun _ => rfl
  constructor
  · intro s l c u hs hc
    obtain ⟨a, l', ha, hc⟩ := Parser.bind_eq_some.mp hc
    obtain ⟨s₁, hrun₁, hs₁⟩ := hm.accepts s l a l' hs ha
    obtain ⟨s₂, hrun₂, hs₂⟩ := (hf a ⟨l, l', ha⟩).accepts s₁ l' c u hs₁ hc
    exact ⟨s₂, by rw [hrun, hrun₁]; exact hrun₂, hs₂⟩
  · intro s l hs hnone
    rw [hparse] at hnone
    cases hp : p l with
    | none =>
      obtain ⟨e, he⟩ := hm.refuses s l hs hp
      exact ⟨e, by rw [hrun, he]; rfl⟩
    | some x =>
      obtain ⟨a, l'⟩ := x
      rw [hp] at hnone
      obtain ⟨s₁, hrun₁, hs₁⟩ := hm.accepts s l a l' hs hp
      obtain ⟨e, he⟩ := (hf a ⟨l, l', hp⟩).refuses s₁ l' hs₁ hnone
      exact ⟨e, by rw [hrun, hrun₁]; exact he⟩

theorem Implements.map {m : StateT σ (Except ε) α} {p : Parser α} (g : α → γ)
    (hm : Implements R m p) : Implements R (m >>= fun a => pure (g a)) (p >>= fun a => pure (g a)) :=
  hm.bind fun a _ => implements_pure (g a)

/-- A reader that takes these bits, whatever follows them, and returns the value. -/
def Decodes (R : σ → List Bool → Prop) (m : StateT σ (Except ε) α) (t : List Bool) (a : α) : Prop :=
  ∀ s u, R s (t ++ u) → ∃ s', m s = .ok (a, s') ∧ R s' u

variable {m : StateT σ (Except ε) α} {f : α → StateT σ (Except ε) γ} {t t' : List Bool} {a : α}
  {c : γ}

theorem decodes_pure (a : α) : Decodes R (pure a : StateT σ (Except ε) α) [] a :=
  fun s _ hs => ⟨s, rfl, hs⟩

theorem Decodes.bind (hm : Decodes R m t a) (hf : Decodes R (f a) t' c) :
    Decodes R (m >>= f) (t ++ t') c := by
  intro s u hs
  rw [List.append_assoc] at hs
  obtain ⟨s₁, hrun₁, hs₁⟩ := hm s _ hs
  obtain ⟨s₂, hrun₂, hs₂⟩ := hf s₁ u hs₁
  refine ⟨s₂, ?_, hs₂⟩
  have hrun : (m >>= f) s = (m s).bind fun x => f x.1 x.2 := rfl
  rw [hrun, hrun₁]
  exact hrun₂

/-- A last step takes no bits. -/
theorem Decodes.last (hm : Decodes R m t a) (hf : Decodes R (f a) [] c) :
    Decodes R (m >>= f) t c := by
  have hall := hm.bind hf
  rwa [List.append_nil] at hall

/-- A field is read back from the bits of a value that fits it. -/
theorem decodes_field {get : ℕ → StateT σ (Except ε) ℕ}
    (hget : ∀ n, Implements R (get n) (takeBits n)) {v n : ℕ} (hv : v < 2 ^ n) :
    Decodes R (get n) (bitsOf v n) v := by
  intro s u hs
  have htake := takeBits_bitsOf v n u
  rw [Nat.mod_eq_of_lt hv] at htake
  exact (hget n).accepts s _ v u hs htake

end Parsers

end BitStream
