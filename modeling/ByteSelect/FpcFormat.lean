import ByteSelect.BitStream
import Mathlib.Tactic.FinCases

/-! Frequent pattern compression as a format: which words a tag can represent, and the bits of
a word under its least tag. -/
namespace FpcFormat

open BitStream

/-- A value of `n` bits, read as signed and widened to `m` bits. -/
def signExtend (n m p : ℕ) : ℕ := if p < 2 ^ (n - 1) then p else p + (2 ^ m - 2 ^ n)

/-- The payload widths of the tags. -/
def width (tag : Fin 8) : ℕ := [0, 4, 8, 8, 16, 16, 16, 32].getD tag.val 0

/-- The word a payload stands for. -/
def expand (tag : Fin 8) (p : ℕ) : ℕ :=
  match tag with
  | 0 => 0
  | 1 => signExtend 4 32 p
  | 2 => p * 0x01010101
  | 3 => signExtend 8 32 p
  | 4 => signExtend 16 32 p
  | 5 => p * 2 ^ 16
  | 6 => signExtend 8 16 (p % 2 ^ 8) + signExtend 8 16 (p / 2 ^ 8) * 2 ^ 16
  | 7 => p

def payload (tag : Fin 8) (v : ℕ) : ℕ :=
  match tag with
  | 0 => 0
  | 1 => v % 2 ^ 4
  | 2 | 3 => v % 2 ^ 8
  | 4 => v % 2 ^ 16
  | 5 => v / 2 ^ 16
  | 6 => v % 2 ^ 8 + 2 ^ 8 * (v / 2 ^ 16 % 2 ^ 8)
  | 7 => v

def Represents (tag : Fin 8) (v : ℕ) : Prop := ∃ p < 2 ^ width tag, expand tag p = v

/-- No tag below a number can represent the word. -/
def NoneBelow (n v : ℕ) : Prop := ∀ t : Fin 8, t.val < n → ¬ Represents t v

/-- The first tag that can represent the word. -/
structure IsTag (tag : Fin 8) (v : ℕ) : Prop where
  represents : Represents tag v
  least : NoneBelow tag.val v

variable {tag t : Fin 8} {v p : ℕ}

theorem IsTag.unique (h : IsTag tag v) (h' : IsTag t v) : tag = t := by
  rcases lt_trichotomy tag t with hlt | heq | hlt
  · exact absurd h.represents (h'.least _ hlt)
  · exact heq
  · exact absurd h'.represents (h.least _ hlt)

theorem noneBelow_zero (v : ℕ) : NoneBelow 0 v := fun t ht => absurd ht (Nat.not_lt_zero t.val)

theorem NoneBelow.succ {n : ℕ} (h : NoneBelow n v) {tag : Fin 8} (htag : tag.val = n)
    (hr : ¬ Represents tag v) : NoneBelow (n + 1) v := by
  intro t ht
  rcases Nat.lt_succ_iff_lt_or_eq.mp ht with hlt | heq
  · exact h t hlt
  · obtain rfl : t = tag := Fin.ext (heq.trans htag.symm)
    exact hr

theorem payload_lt (hv : v < 2 ^ 32) : payload tag v < 2 ^ width tag := by
  fin_cases tag <;> simp only [payload, width, List.getD_cons_zero, List.getD_cons_succ] <;> omega

/-- The payload of a word is read off the word. -/
theorem payload_expand (hp : p < 2 ^ width tag) : payload tag (expand tag p) = p := by
  fin_cases tag <;> simp only [expand, payload, signExtend, width] at hp ⊢ <;>
    simp only [List.getD_cons_zero, List.getD_cons_succ] at hp <;> (try split) <;>
    (try split) <;> omega

theorem expand_payload (h : Represents tag v) : expand tag (payload tag v) = v := by
  obtain ⟨p, hp, rfl⟩ := h
  rw [payload_expand hp]

theorem represents_iff (hv : v < 2 ^ 32) : Represents tag v ↔ expand tag (payload tag v) = v := by
  constructor
  · exact expand_payload
  · intro h
    exact ⟨payload tag v, payload_lt hv, h⟩

/-! Bits. -/

def fieldBits (tag : Fin 8) (v : ℕ) : List Bool := bitsOf (payload tag v) (width tag)

def wordBits (tag : Fin 8) (v : ℕ) : List Bool := bitsOf tag.val 3 ++ fieldBits tag v

def parsePayload (tag : Fin 8) : Parser ℕ := do
  let p ← takeBits (width tag)
  return expand tag p

def parseTag : Parser (Fin 8) := do
  let tag ← takeBits 3
  return Fin.ofNat 8 tag

@[simp] theorem length_fieldBits (tag : Fin 8) (v : ℕ) :
    (fieldBits tag v).length = width tag := length_bitsOf _ _

theorem length_wordBits (tag : Fin 8) (v : ℕ) : (wordBits tag v).length = 3 + width tag := by
  rw [wordBits, List.length_append, length_bitsOf, length_fieldBits]

/-- A word is read back from its bits, whatever follows them. -/
theorem parsePayload_bits (h : Represents tag v) (u : List Bool) :
    parsePayload tag (fieldBits tag v ++ u) = some (v, u) := by
  obtain ⟨p, hp, rfl⟩ := h
  refine Parser.bind_eq_some.mpr ⟨p, u, ?_, rfl⟩
  have htake := takeBits_bitsOf p (width tag) u
  rw [Nat.mod_eq_of_lt hp] at htake
  rw [fieldBits, payload_expand hp]
  exact htake

theorem parsePayload_zero : parsePayload 0 = pure 0 := by
  rw [parsePayload]
  exact congrArg (· >>= fun p => pure (expand 0 p)) takeBits_zero

theorem parseTag_bits (tag : Fin 8) (u : List Bool) :
    parseTag (bitsOf tag.val 3 ++ u) = some (tag, u) := by
  refine Parser.bind_eq_some.mpr ⟨tag.val % 2 ^ 3, u, takeBits_bitsOf _ _ _, ?_⟩
  have htag : Fin.ofNat 8 (tag.val % 2 ^ 3) = tag := by
    apply Fin.ext
    have hlt := tag.isLt
    rw [Fin.val_ofNat]
    omega
  rw [htag]
  rfl

/-! Readers of payloads, over any reader of bits. -/

section Readers

variable {σ ε : Type} {R : σ → List Bool → Prop} {get : ℕ → StateT σ (Except ε) ℕ}

/-- The word of one field. -/
theorem implements_field (hget : ∀ n, Implements R (get n) (takeBits n)) {f : ℕ → BitVec 32}
    (hf : ∀ p < 2 ^ width tag, (f p).toNat = expand tag p) :
    Implements R (do return f (← get (width tag)))
      (do return BitVec.ofNat 32 (← parsePayload tag)) := by
  have hparse : (parsePayload tag >>= fun n => pure (BitVec.ofNat 32 n)) =
      takeBits (width tag) >>= fun p => pure (BitVec.ofNat 32 (expand tag p)) := by
    rw [parsePayload, bind_assoc]
    simp only [pure_bind]
  rw [hparse]
  refine (hget _).bind fun p hp => ?_
  have hlt := lt_of_returns_takeBits hp
  have hword : f p = BitVec.ofNat 32 (expand tag p) := by
    rw [← hf p hlt, BitVec.ofNat_toNat, BitVec.setWidth_eq]
  rw [hword]
  exact implements_pure _

/-- The word of two fields, the low half first. -/
theorem implements_halves (hget : ∀ n, Implements R (get n) (takeBits n))
    {f : ℕ → ℕ → BitVec 32}
    (hf : ∀ a < 2 ^ 8, ∀ b < 2 ^ 8, (f a b).toNat = expand 6 (a + 2 ^ 8 * b)) :
    Implements R (get 8 >>= fun a => get 8 >>= fun b => pure (f a b))
      (do return BitVec.ofNat 32 (← parsePayload 6)) := by
  have hparse : (parsePayload 6 >>= fun n => pure (BitVec.ofNat 32 n)) = takeBits 8 >>=
      fun a => takeBits 8 >>= fun b =>
        (pure (BitVec.ofNat 32 (expand 6 (a + 2 ^ 8 * b))) : Parser (BitVec 32)) := by
    have htake := takeBits_add 8 8
    rw [parsePayload]
    change ((takeBits (8 + 8) >>= fun p => pure (expand 6 p)) >>= _) = _
    rw [htake]
    simp only [bind_assoc, pure_bind]
  rw [hparse]
  refine (hget 8).bind fun a ha => (hget 8).bind fun b hb => ?_
  rw [← hf a (lt_of_returns_takeBits ha) b (lt_of_returns_takeBits hb), BitVec.ofNat_toNat,
    BitVec.setWidth_eq]
  exact implements_pure _

theorem toNat_ofNat_field (hp : p < 2 ^ width tag) : (BitVec.ofNat 32 p).toNat = p := by
  have hlt : p < 2 ^ 32 := by
    refine hp.trans_le (Nat.pow_le_pow_right (by decide) ?_)
    fin_cases tag <;> decide
  exact Nat.mod_eq_of_lt hlt

theorem signExtend_lt {p : ℕ} (hp : p < 2 ^ 8) : signExtend 8 16 p < 2 ^ 16 := by
  unfold signExtend
  split <;> omega

/-- The low halves of two words that widen bytes, put together. -/
theorem toNat_halves {a b : ℕ} (ha : a < 2 ^ 8) (hb : b < 2 ^ 8) {low high : BitVec 32}
    (hlow : low.toNat = signExtend 8 32 a) (hhigh : high.toNat = signExtend 8 32 b) :
    ((low &&& 0xffff#32) ||| (high <<< 16)).toNat = expand 6 (a + 2 ^ 8 * b) := by
  have hextend : ∀ p < 2 ^ 8, signExtend 8 32 p % 2 ^ 16 = signExtend 8 16 p := by
    intro p hp
    unfold signExtend
    split <;> omega
  have hfirst : (low &&& 0xffff#32).toNat = signExtend 8 16 a := by
    rw [← hextend a ha, ← hlow]
    exact Nat.and_two_pow_sub_one_eq_mod _ 16
  have hsecond : (high <<< 16).toNat = signExtend 8 16 b <<< 16 := by
    rw [BitVec.toNat_shiftLeft, hhigh, ← hextend b hb, Nat.shiftLeft_eq, Nat.shiftLeft_eq]
    omega
  have hmod : (a + 2 ^ 8 * b) % 2 ^ 8 = a := by omega
  have hdiv : (a + 2 ^ 8 * b) / 2 ^ 8 = b := by omega
  rw [BitVec.toNat_or, hfirst, hsecond, or_shiftLeft _ (signExtend_lt ha)]
  change _ = signExtend 8 16 ((a + 2 ^ 8 * b) % 2 ^ 8) +
    signExtend 8 16 ((a + 2 ^ 8 * b) / 2 ^ 8) * 2 ^ 16
  rw [hmod, hdiv, Nat.mul_comm]

end Readers

end FpcFormat
