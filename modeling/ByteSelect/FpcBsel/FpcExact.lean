import ByteSelect.FpcBsel.Fpc
import ByteSelect.FpcFormat

/-! The block coder writes and reads the bits of the format. -/
namespace FpcBsel

open BitStream FpcFormat PackedBytes ByteSelect

variable {l u : List Bool} {writer : BitWriter} {v w : Word} {block : Bytes}

/-! Bits. -/

/-- A writer that has been given these bits. -/
structure BitWriter.Holds (writer : BitWriter) (l : List Bool) : Prop where
  data_eq : writer.data = toOctets l
  bit_eq : writer.bit = l.length % 8

theorem holds_empty : ({} : BitWriter).Holds [] := ⟨rfl, rfl⟩

theorem BitWriter.Holds.putBit (h : writer.Holds l) (b : Bool) :
    (writer.putBit b.toNat).Holds (l ++ [b]) := by
  refine ⟨?_, ?_⟩
  · rw [toOctets_concat, ← h.data_eq, ← h.bit_eq]
    rfl
  · have hmask : (writer.bit + 1) &&& 7 = (writer.bit + 1) % 2 ^ 3 :=
      Nat.and_two_pow_sub_one_eq_mod _ 3
    have hbit := h.bit_eq
    rw [List.length_append, List.length_singleton]
    change (writer.bit + 1) &&& 7 = _
    omega

theorem shiftRight_and_one (value i : ℕ) : (value >>> i) &&& 1 = (value.testBit i).toNat := by
  rw [Nat.toNat_testBit, Nat.and_one_is_mod, Nat.shiftRight_eq_div_pow]

theorem BitWriter.Holds.put (h : writer.Holds l) (value n : ℕ) :
    (writer.put value n).Holds (l ++ bitsOf value n) := by
  induction n with
  | zero =>
    rw [bitsOf, List.append_nil]
    exact h
  | succ n ih =>
    rw [BitWriter.put, List.range_succ, List.foldl_append, bitsOf_succ, ← List.append_assoc]
    have hstep := ih.putBit (value.testBit n)
    rw [← shiftRight_and_one] at hstep
    exact hstep

/-- The bits a reader stands before. -/
def BitReader.Before (reader : BitReader) (l : List Bool) : Prop :=
  reader.bit < 8 ∧ (ofOctets reader.data).drop (reader.byte * 8 + reader.bit) = l

theorem before_start (data : Bytes) : BitReader.Before { data := data } (ofOctets data) :=
  ⟨Nat.zero_lt_succ 7, rfl⟩

theorem BitReader.Before.head {reader : BitReader} (h : reader.Before l) :
    l.head? = (reader.data[reader.byte]?).map fun byte => byte.val.testBit reader.bit := by
  rw [← h.2, List.head?_drop, getElem?_ofOctets _ _ h.1]

theorem BitReader.Before.advance {reader : BitReader} (h : reader.Before l) :
    reader.advance.Before l.tail := by
  have htail : l.tail = (ofOctets reader.data).drop (reader.byte * 8 + reader.bit + 1) := by
    rw [← h.2, List.tail_drop]
  have hbit := h.1
  rw [htail, BitReader.advance]
  split
  · exact ⟨by dsimp only; omega, by dsimp only; congr 1; omega⟩
  · exact ⟨by dsimp only; omega, rfl⟩

theorem getFrom_before (n : ℕ) {i value : ℕ} (hvalue : value < 2 ^ i) {reader : BitReader}
    (h : reader.Before l) :
    (n ≤ l.length → ∃ reader', getFrom i value n reader =
      .ok (value + 2 ^ i * ofBits (l.take n), reader') ∧ reader'.Before (l.drop n)) ∧
    (l.length < n → ∃ e, getFrom i value n reader = .error e) := by
  induction n generalizing i value reader l with
  | zero =>
    refine ⟨fun _ => ⟨reader, ?_, h⟩, fun hlt => absurd hlt (Nat.not_lt_zero _)⟩
    rw [List.take_zero, ofBits, Nat.mul_zero, Nat.add_zero]
    rfl
  | succ n ih =>
    have hhead := h.head
    cases l with
    | nil =>
      have hnone : reader.data[reader.byte]? = none := by
        cases hbyte : reader.data[reader.byte]? with
        | none => rfl
        | some byte =>
          rw [hbyte] at hhead
          cases hhead
      refine ⟨fun hle => absurd hle (by simp), fun _ => ?_⟩
      simp only [getFrom, hnone]
      exact ⟨_, rfl⟩
    | cons b l =>
      cases hbyte : reader.data[reader.byte]? with
      | none =>
        rw [hbyte] at hhead
        cases hhead
      | some byte =>
        rw [hbyte, List.head?_cons, Option.map_some, Option.some_inj] at hhead
        have hor := or_shiftLeft b.toNat hvalue
        have hnext : value + 2 ^ i * b.toNat < 2 ^ (i + 1) := by
          have hle : 2 ^ i * b.toNat ≤ 2 ^ i * 1 := Nat.mul_le_mul_left _ (by cases b <;> decide)
          rw [Nat.pow_succ]
          omega
        have hrun : getFrom i value (n + 1) reader =
            getFrom (i + 1) (value + 2 ^ i * b.toNat) n reader.advance := by
          simp only [getFrom, hbyte, shiftRight_and_one, ← hhead, hor]
        obtain ⟨hok, herror⟩ := ih hnext h.advance
        rw [hrun]
        constructor
        · intro hle
          obtain ⟨reader', hget, hbefore⟩ := hok (by simpa using hle)
          refine ⟨reader', ?_, hbefore⟩
          rw [hget, List.take_succ_cons, ofBits, List.tail_cons, Nat.pow_succ]
          congr 2
          ring
        · intro hlt
          exact herror (by simpa using hlt)

/-- Reading a field takes its bits. -/
theorem get_implements (n : ℕ) : Implements BitReader.Before (get n) (takeBits n) := by
  constructor
  · intro reader l a u h hp
    unfold takeBits at hp
    split at hp
    · rename_i hn
      cases hp
      obtain ⟨reader', hget, hbefore⟩ := (getFrom_before n (Nat.two_pow_pos 0) h).1 hn
      rw [Nat.zero_add, Nat.pow_zero, Nat.one_mul] at hget
      exact ⟨reader', hget, hbefore⟩
    · cases hp
  · intro reader l h hp
    unfold takeBits at hp
    split at hp
    · cases hp
    · rename_i hn
      exact (getFrom_before n (Nat.two_pow_pos 0) h).2 (by omega)

/-! Words. -/

/-- The four bytes of a word. -/
def bytesAt (block : Bytes) (offset : ℕ) : Bytes :=
  [block.getD offset 0, block.getD (offset + 1) 0, block.getD (offset + 2) 0,
    block.getD (offset + 3) 0]

theorem load32_toNat (block : Bytes) (offset : ℕ) :
    (load32 block offset).toNat = pack (bytesAt block offset) := by
  have hshift : ∀ (b : Byte) (k : ℕ), k ≤ 24 → (b.val % 2 ^ 32) <<< k % 2 ^ 32 = b.val <<< k := by
    intro b k hk
    have hb := b.isLt
    have hle : 2 ^ k * b.val ≤ 2 ^ 24 * b.val :=
      Nat.mul_le_mul_right _ (Nat.pow_le_pow_right (by decide) hk)
    have hmod : b.val % 2 ^ 32 = b.val := Nat.mod_eq_of_lt (by omega)
    rw [hmod, Nat.shiftLeft_eq, Nat.mul_comm, Nat.mod_eq_of_lt (by omega)]
  simp only [load32, BitVec.toNat_or, BitVec.toNat_shiftLeft, BitVec.toNat_ofNat, bytesAt, pack]
  generalize block.getD offset 0 = b₀
  generalize block.getD (offset + 1) 0 = b₁
  generalize block.getD (offset + 2) 0 = b₂
  generalize block.getD (offset + 3) 0 = b₃
  have h₀ := b₀.isLt
  have h₁ := b₁.isLt
  have h₂ := b₂.isLt
  rw [hshift b₁ 8 (by omega), hshift b₂ 16 (by omega), hshift b₃ 24 le_rfl,
    Nat.mod_eq_of_lt (show b₀.val < 2 ^ 32 by omega), or_shiftLeft _ h₀,
    @or_shiftLeft _ 16 _ (by omega), @or_shiftLeft _ 24 _ (by omega)]
  omega

theorem store32_eq (v : Word) : store32 v = unpack v.toNat 4 := by
  have hrange : List.range 4 = [0, 1, 2, 3] := rfl
  simp only [store32, hrange, List.map_cons, List.map_nil, unpack, toByte,
    BitVec.toNat_ushiftRight, Nat.shiftRight_eq_div_pow, Nat.div_div_eq_div_mul]
  norm_num

@[simp] theorem length_store32 (v : Word) : (store32 v).length = 4 := by
  rw [store32_eq, length_unpack]

theorem store32_load32 (block : Bytes) (offset : ℕ) :
    store32 (load32 block offset) = bytesAt block offset := by
  rw [store32_eq, load32_toNat]
  exact unpack_pack _

theorem toNat_one_shiftLeft {m n : ℕ} (h : n < m) : (1#m <<< n).toNat = 2 ^ n := by
  have hpow : 2 ^ n < 2 ^ m := Nat.pow_lt_pow_right (by decide) h
  have hone : 1 < 2 ^ m := Nat.one_lt_two_pow (by omega)
  rw [BitVec.toNat_shiftLeft, BitVec.toNat_ofNat, Nat.mod_eq_of_lt hone, Nat.one_shiftLeft,
    Nat.mod_eq_of_lt hpow]

theorem toNat_mask {bits : ℕ} (h : bits < 32) : (mask bits).toNat = 2 ^ bits - 1 := by
  have hpos := Nat.two_pow_pos bits
  have hle : 1#32 ≤ 1#32 <<< bits := by
    rw [BitVec.le_def, toNat_one_shiftLeft h]
    exact hpos
  rw [mask, BitVec.toNat_sub_of_le hle, toNat_one_shiftLeft h]
  rfl

theorem toNat_and_mask {bits : ℕ} (h : bits < 32) (v : Word) :
    (v &&& mask bits).toNat = v.toNat % 2 ^ bits := by
  rw [BitVec.toNat_and, toNat_mask h, Nat.and_two_pow_sub_one_eq_mod]

/-- The sign bit of a value that fits below the bits above it. -/
theorem and_signBit {m n : ℕ} {v : BitVec m} (h : n < m) (hv : v.toNat < 2 ^ (n + 1)) :
    v &&& 1#m <<< n ≠ 0 ↔ 2 ^ n ≤ v.toNat := by
  have hnat : v &&& 1#m <<< n ≠ 0 ↔ v.toNat &&& 2 ^ n ≠ 0 := by
    rw [Ne, ← BitVec.toNat_inj, BitVec.toNat_and, toNat_one_shiftLeft h]
    rfl
  rw [hnat, Nat.and_two_pow, Nat.toNat_testBit]
  rw [Nat.pow_succ] at hv
  have hpos := Nat.two_pow_pos n
  by_cases hle : 2 ^ n ≤ v.toNat
  · have hdiv : v.toNat / 2 ^ n = 1 := by
      apply Nat.div_eq_of_lt_le <;> omega
    simp [hdiv, hle]
  · simp [Nat.div_eq_of_lt (Nat.lt_of_not_le hle), hle]

theorem toNat_extend {n : ℕ} (h : n + 1 < 32) (v : Word) :
    (extend v (n + 1)).toNat = signExtend (n + 1) 32 (v.toNat % 2 ^ (n + 1)) := by
  have hlow := toNat_and_mask h v
  have hlt : v.toNat % 2 ^ (n + 1) < 2 ^ (n + 1) := Nat.mod_lt _ (Nat.two_pow_pos _)
  have hsign := and_signBit (show n < 32 by omega) (hlow.trans_lt hlt)
  rw [hlow] at hsign
  have hrun : extend v (n + 1) = if v &&& mask (n + 1) &&& 1#32 <<< n ≠ 0
      then v &&& mask (n + 1) ||| ~~~mask (n + 1) else v &&& mask (n + 1) := rfl
  rw [hrun, signExtend, Nat.add_sub_cancel]
  by_cases hle : 2 ^ n ≤ v.toNat % 2 ^ (n + 1)
  · rw [if_pos (hsign.mpr hle), if_neg (by omega), BitVec.toNat_or, hlow, BitVec.toNat_not,
      toNat_mask h]
    have hpow : 2 ^ 32 - 2 ^ (n + 1) = (2 ^ (31 - n) - 1) <<< (n + 1) := by
      rw [Nat.shiftLeft_eq, Nat.sub_mul, ← Nat.pow_add, Nat.one_mul,
        show 31 - n + (n + 1) = 32 by omega]
    have hpos := Nat.two_pow_pos (n + 1)
    have hrest : 2 ^ 32 - 1 - (2 ^ (n + 1) - 1) = 2 ^ 32 - 2 ^ (n + 1) := by omega
    rw [hrest, hpow, or_shiftLeft _ hlt, Nat.shiftLeft_eq, Nat.mul_comm]
  · rw [if_neg (fun hne => hle (hsign.mp hne)), if_pos (by omega), hlow]

theorem signExtended_iff {n : ℕ} (h : n + 1 < 32) (v : Word) : signExtended v (n + 1) = true ↔
    signExtend (n + 1) 32 (v.toNat % 2 ^ (n + 1)) = v.toNat := by
  have hextend : signExtended v (n + 1) = decide (v = extend v (n + 1)) := rfl
  rw [hextend, decide_eq_true_iff, ← BitVec.toNat_inj, toNat_extend h, eq_comm]

theorem halfwordExtendedByte_iff (v : BitVec 16) :
    halfwordExtendedByte v = true ↔ signExtend 8 16 (v.toNat % 2 ^ 8) = v.toNat := by
  have hlow : (v.setWidth 8).toNat = v.toNat % 2 ^ 8 := BitVec.toNat_setWidth ..
  have hlt : v.toNat % 2 ^ 8 < 2 ^ 8 := Nat.mod_lt _ (by decide)
  have hwide : ((v.setWidth 8).setWidth 16).toNat = v.toNat % 2 ^ 8 := by
    rw [BitVec.toNat_setWidth, hlow]
    omega
  have hsign := @and_signBit 8 7 (v.setWidth 8) (by decide) (hlow.trans_lt hlt)
  rw [hlow] at hsign
  have hrun : halfwordExtendedByte v = decide (v = if v.setWidth 8 &&& 1#8 <<< 7 ≠ 0
      then 0xff00 ||| (v.setWidth 8).setWidth 16 else (v.setWidth 8).setWidth 16) := rfl
  rw [hrun, decide_eq_true_iff, ← BitVec.toNat_inj, signExtend, eq_comm]
  by_cases hle : 2 ^ 7 ≤ v.toNat % 2 ^ 8
  · have hor : 0xff00 ||| v.toNat % 2 ^ 8 = v.toNat % 2 ^ 8 + 2 ^ 8 * 0xff := by
      rw [Nat.or_comm]
      exact or_shiftLeft 0xff hlt
    rw [if_pos (hsign.mpr hle), if_neg (by omega), BitVec.toNat_or, hwide]
    exact Eq.congr_left hor
  · rw [if_neg (fun hne => hle (hsign.mp hne)), if_pos (by omega), hwide]

/-! Tags: each test of the cascade asks whether a tag can represent the word. -/

theorem represents_zero : Represents 0 v.toNat ↔ v = 0 := by
  rw [represents_iff v.isLt, ← BitVec.toNat_inj, eq_comm]
  rfl

theorem represents_nibble : Represents 1 v.toNat ↔ signExtended v 4 = true := by
  rw [represents_iff v.isLt, signExtended_iff (by decide)]
  rfl

theorem represents_repeated :
    Represents 2 v.toNat ↔ v = (v.setWidth 8).setWidth 32 * 0x01010101 := by
  have hlt : v.toNat % 2 ^ 8 < 2 ^ 8 := Nat.mod_lt _ (by decide)
  have hmul : ((v.setWidth 8).setWidth 32 * 0x01010101 : Word).toNat =
      v.toNat % 2 ^ 8 * 0x01010101 := by
    rw [BitVec.toNat_mul, BitVec.toNat_setWidth, BitVec.toNat_setWidth]
    change v.toNat % 2 ^ 8 % 2 ^ 32 * 0x01010101 % 2 ^ 32 = _
    omega
  rw [represents_iff v.isLt, ← BitVec.toNat_inj, hmul, eq_comm]
  rfl

theorem represents_byte : Represents 3 v.toNat ↔ signExtended v 8 = true := by
  rw [represents_iff v.isLt, signExtended_iff (by decide)]
  rfl

theorem represents_halfword : Represents 4 v.toNat ↔ signExtended v 16 = true := by
  rw [represents_iff v.isLt, signExtended_iff (by decide)]
  rfl

theorem represents_padded : Represents 5 v.toNat ↔ v &&& 0xffff = 0 := by
  have hmask : (v &&& 0xffff).toNat = v.toNat % 2 ^ 16 := @toNat_and_mask 16 (by decide) v
  rw [represents_iff v.isLt, ← BitVec.toNat_inj, hmask]
  change v.toNat / 2 ^ 16 * 2 ^ 16 = v.toNat ↔ v.toNat % 2 ^ 16 = 0
  omega

/-- Two halves of a word, each a widened byte. -/
theorem expand_halves (n : ℕ) : expand 6 (payload 6 n) = n ↔
    signExtend 8 16 (n % 2 ^ 8) = n % 2 ^ 16 ∧
      signExtend 8 16 (n / 2 ^ 16 % 2 ^ 8) = n / 2 ^ 16 := by
  have hlow : n % 2 ^ 8 < 2 ^ 8 := Nat.mod_lt _ (by decide)
  have hfirst : payload 6 n % 2 ^ 8 = n % 2 ^ 8 := by
    change (n % 2 ^ 8 + 2 ^ 8 * (n / 2 ^ 16 % 2 ^ 8)) % 2 ^ 8 = _
    omega
  have hsecond : payload 6 n / 2 ^ 8 = n / 2 ^ 16 % 2 ^ 8 := by
    change (n % 2 ^ 8 + 2 ^ 8 * (n / 2 ^ 16 % 2 ^ 8)) / 2 ^ 8 = _
    omega
  change signExtend 8 16 (payload 6 n % 2 ^ 8) + signExtend 8 16 (payload 6 n / 2 ^ 8) * 2 ^ 16 = n ↔ _
  rw [hfirst, hsecond]
  have hlt := signExtend_lt hlow
  omega

theorem represents_halves : Represents 6 v.toNat ↔
    halfwordExtendedByte (v.setWidth 16) = true ∧
      halfwordExtendedByte ((v >>> 16).setWidth 16) = true := by
  have hv := v.isLt
  have hlow : (v.setWidth 16).toNat = v.toNat % 2 ^ 16 := BitVec.toNat_setWidth ..
  have hhigh : ((v >>> 16).setWidth 16).toNat = v.toNat / 2 ^ 16 := by
    rw [BitVec.toNat_setWidth, BitVec.toNat_ushiftRight, Nat.shiftRight_eq_div_pow]
    omega
  have hmod : v.toNat % 2 ^ 16 % 2 ^ 8 = v.toNat % 2 ^ 8 := by omega
  rw [represents_iff hv, expand_halves, halfwordExtendedByte_iff, halfwordExtendedByte_iff, hlow,
    hhigh, hmod]

theorem represents_raw : Represents 7 v.toNat := (represents_iff v.isLt).mpr rfl

/-- A tag as the byte the code keeps it in. -/
def tagByte (tag : Fin 8) : Byte := ⟨tag.val, tag.isLt.trans (by decide)⟩

/-- The class of a word is its least tag. -/
theorem classify_isTag (v : Word) : ∃ tag, classify v = tagByte tag ∧ IsTag tag v.toNat := by
  have hnone := noneBelow_zero v.toNat
  unfold classify
  by_cases h₀ : v = 0
  · exact ⟨0, if_pos h₀, represents_zero.mpr h₀, hnone⟩
  have hnone := hnone.succ rfl (mt represents_zero.mp h₀)
  rw [if_neg h₀]
  by_cases h₁ : signExtended v 4 = true
  · exact ⟨1, if_pos h₁, represents_nibble.mpr h₁, hnone⟩
  have hnone := hnone.succ rfl (mt represents_nibble.mp h₁)
  rw [if_neg h₁]
  dsimp only
  by_cases h₂ : v = (v.setWidth 8).setWidth 32 * 0x01010101
  · exact ⟨2, if_pos h₂, represents_repeated.mpr h₂, hnone⟩
  have hnone := hnone.succ rfl (mt represents_repeated.mp h₂)
  rw [if_neg h₂]
  by_cases h₃ : signExtended v 8 = true
  · exact ⟨3, if_pos h₃, represents_byte.mpr h₃, hnone⟩
  have hnone := hnone.succ rfl (mt represents_byte.mp h₃)
  rw [if_neg h₃]
  by_cases h₄ : signExtended v 16 = true
  · exact ⟨4, if_pos h₄, represents_halfword.mpr h₄, hnone⟩
  have hnone := hnone.succ rfl (mt represents_halfword.mp h₄)
  rw [if_neg h₄]
  by_cases h₅ : v &&& 0xffff = 0
  · exact ⟨5, if_pos h₅, represents_padded.mpr h₅, hnone⟩
  have hnone := hnone.succ rfl (mt represents_padded.mp h₅)
  rw [if_neg h₅]
  by_cases h₆ : halfwordExtendedByte (v.setWidth 16) = true ∧
      halfwordExtendedByte ((v >>> 16).setWidth 16) = true
  · exact ⟨6, if_pos (by rw [h₆.1, h₆.2]; rfl), represents_halves.mpr h₆, hnone⟩
  have hnone := hnone.succ rfl (mt represents_halves.mp h₆)
  rw [if_neg (fun hand => h₆ (Bool.and_eq_true_iff.mp hand))]
  exact ⟨7, rfl, represents_raw, hnone⟩

def tagOf (v : Word) : Fin 8 := Fin.ofNat 8 (classify v).val

theorem tagOf_tagByte {tag : Fin 8} (h : classify v = tagByte tag) : tagOf v = tag := by
  rw [tagOf, h]
  exact Fin.ext (Nat.mod_eq_of_lt tag.isLt)

theorem classify_eq (v : Word) : classify v = tagByte (tagOf v) := by
  obtain ⟨tag, htag, -⟩ := classify_isTag v
  rw [tagOf_tagByte htag, htag]

theorem isTag_tagOf (v : Word) : IsTag (tagOf v) v.toNat := by
  obtain ⟨tag, htag, his⟩ := classify_isTag v
  rwa [tagOf_tagByte htag]

theorem tagByte_inj {tag t : Fin 8} : tagByte tag = tagByte t ↔ tag = t := by
  rw [tagByte, tagByte, Fin.mk.injEq, Fin.val_inj]

theorem payloadBits_tagByte (tag : Fin 8) : payloadBits (tagByte tag) = .ok (width tag) := by
  fin_cases tag <;> rfl

/-! Payloads. -/

theorem BitWriter.Holds.putField (h : writer.Holds l) (tag : Fin 8) {n value : ℕ}
    (hvalue : value = payload tag n) :
    (writer.put value (width tag)).Holds (l ++ fieldBits tag n) := by
  subst hvalue
  exact h.put _ _

/-- Two fields of eight bits are the one of sixteen. -/
theorem fieldBits_halves (v : Word) : fieldBits 6 v.toNat =
    bitsOf (v &&& 0xff).toNat 8 ++ bitsOf ((v >>> 16) &&& 0xff).toNat 8 := by
  have hlow : (v &&& 0xff).toNat = v.toNat % 2 ^ 8 := @toNat_and_mask 8 (by decide) v
  have hhigh : ((v >>> 16) &&& 0xff).toNat = v.toNat / 2 ^ 16 % 2 ^ 8 := by
    rw [← Nat.shiftRight_eq_div_pow, ← BitVec.toNat_ushiftRight]
    exact @toNat_and_mask 8 (by decide) (v >>> 16)
  change bitsOf (v.toNat % 2 ^ 8 + 2 ^ 8 * (v.toNat / 2 ^ 16 % 2 ^ 8)) (8 + 8) = _
  rw [bitsOf_add, hlow, hhigh]
  congr 1
  · exact bitsOf_congr (by omega)
  · exact bitsOf_congr (by omega)

/-- Writing a payload appends its field. -/
theorem writePayload_holds (h : writer.Holds l) (tag : Fin 8) (v : Word) : ∃ writer',
    writePayload writer (tagByte tag) v = .ok writer' ∧
      writer'.Holds (l ++ fieldBits tag v.toNat) := by
  have hmask : ∀ n < 32, (v &&& mask n).toNat = v.toNat % 2 ^ n := fun n hn => toNat_and_mask hn v
  have hhigh : (v >>> 16).toNat = v.toNat / 2 ^ 16 := by
    rw [BitVec.toNat_ushiftRight, Nat.shiftRight_eq_div_pow]
  match tag with
  | 0 =>
    refine ⟨writer, rfl, ?_⟩
    rw [fieldBits]
    exact (List.append_nil l).symm ▸ h
  | 1 => exact ⟨_, rfl, h.putField 1 (hmask 4 (by decide))⟩
  | 2 => exact ⟨_, rfl, h.putField 2 (hmask 8 (by decide))⟩
  | 3 => exact ⟨_, rfl, h.putField 3 (hmask 8 (by decide))⟩
  | 4 => exact ⟨_, rfl, h.putField 4 (hmask 16 (by decide))⟩
  | 5 => exact ⟨_, rfl, h.putField 5 hhigh⟩
  | 6 =>
    refine ⟨_, rfl, ?_⟩
    rw [fieldBits_halves, ← List.append_assoc]
    exact (h.put _ 8).put _ 8
  | 7 => exact ⟨_, rfl, h.putField 7 rfl⟩

theorem toNat_extend_field {n p : ℕ} (h : n + 1 < 32) (hp : p < 2 ^ (n + 1)) :
    (extend (BitVec.ofNat 32 p) (n + 1)).toNat = signExtend (n + 1) 32 p := by
  have hlt : p < 2 ^ 32 := hp.trans_le (Nat.pow_le_pow_right (by decide) h.le)
  rw [toNat_extend h, BitVec.toNat_ofNat, Nat.mod_eq_of_lt hlt, Nat.mod_eq_of_lt hp]

theorem readPayload_implements (tag : Fin 8) : Implements BitReader.Before
    (readPayload (tagByte tag)) (do return BitVec.ofNat 32 (← parsePayload tag)) := by
  match tag with
  | 0 =>
    rw [parsePayload_zero, pure_bind]
    exact implements_pure _
  | 1 => exact @implements_field 1 _ _ _ _ get_implements _ fun p hp =>
      toNat_extend_field (by decide) hp
  | 2 =>
    refine @implements_field 2 _ _ _ _ get_implements _ fun p hp => ?_
    have hlt : p < 2 ^ 8 := hp
    rw [BitVec.toNat_mul, toNat_ofNat_field hp]
    change p * 0x01010101 % 2 ^ 32 = p * 0x01010101
    omega
  | 3 => exact @implements_field 3 _ _ _ _ get_implements _ fun p hp =>
      toNat_extend_field (by decide) hp
  | 4 => exact @implements_field 4 _ _ _ _ get_implements _ fun p hp =>
      toNat_extend_field (by decide) hp
  | 5 =>
    refine @implements_field 5 _ _ _ _ get_implements _ fun p hp => ?_
    have hlt : p < 2 ^ 16 := hp
    rw [BitVec.toNat_shiftLeft, toNat_ofNat_field hp, Nat.shiftLeft_eq]
    change p * 2 ^ 16 % 2 ^ 32 = p * 2 ^ 16
    omega
  | 6 =>
    refine implements_halves get_implements fun a ha b hb => toNat_halves ha hb ?_ ?_
    · exact @toNat_extend_field 7 a (by decide) ha
    · exact @toNat_extend_field 7 b (by decide) hb
  | 7 => exact @implements_field 7 _ _ _ _ get_implements _ fun p hp => toNat_ofNat_field hp

end FpcBsel
