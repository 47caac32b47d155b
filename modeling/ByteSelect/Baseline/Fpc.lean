import ByteSelect.Baseline.Bits
import ByteSelect.FpcBsel.Blocks

/-! The baseline implementation of frequent pattern compression, and its agreement with the
other one: both write and read the bits of the same format. -/
namespace ByteSelect.Baseline

open BitStream FpcFormat PackedBytes
open FpcBsel (Word words wordsTo tagOf blockBits outputOf parseWords load32 store32)

/-- One turn of the loop of `fpc_encode`. -/
def encodeWord (block : Block) (writer : BitWriter) (offset : ℕ) : BitWriter :=
  let value := BitVec.ofNat 32 (loadLittleEndian block offset 4)
  if value = 0 then writer.put 0 3
  else if isSignExtended value 4 then (writer.put 1 3).put (value &&& 0xf).toNat 4
  else
    let byte := value.setWidth 8
    if (value >>> 8) &&& 0xff = byte.setWidth 32 ∧ (value >>> 16) &&& 0xff = byte.setWidth 32 ∧
        (value >>> 24) &&& 0xff = byte.setWidth 32 then
      (writer.put 2 3).put byte.toNat 8
    else if isSignExtended value 8 then (writer.put 3 3).put (value &&& 0xff).toNat 8
    else if isSignExtended value 16 then (writer.put 4 3).put (value &&& 0xffff).toNat 16
    else if value &&& 0xffff = 0 then (writer.put 5 3).put (value >>> 16).toNat 16
    else if halfwordIsSignExtendedByte (value.setWidth 16) &&
        halfwordIsSignExtendedByte ((value >>> 16).setWidth 16) then
      ((writer.put 6 3).put (value &&& 0xff).toNat 8).put ((value >>> 16) &&& 0xff).toNat 8
    else (writer.put 7 3).put value.toNat 32

def fpcEncode (block : Block) : Except Error (List Byte) := do
  throwIf (block = [] ∨ block.length % 4 ≠ 0)
    (.invalidArgument "FPC requires a non-empty block divisible by four bytes")
  return ((List.range (block.length / 4)).foldl
    (fun writer word => encodeWord block writer (word * 4)) ({} : BitWriter)).bytes

/-- The value a tag and what follows it stand for. -/
def readValue (tag : ℕ) : Reading Word :=
  match tag with
  | 0 => pure 0
  | 1 => do return signExtend (BitVec.ofNat 32 (← get 4)) 4
  | 2 => do
    let byte := BitVec.ofNat 32 (← get 8)
    return byte * 0x01010101
  | 3 => do return signExtend (BitVec.ofNat 32 (← get 8)) 8
  | 4 => do return signExtend (BitVec.ofNat 32 (← get 16)) 16
  | 5 => do return BitVec.ofNat 32 (← get 16) <<< 16
  | 6 => do
    let low := signExtend (BitVec.ofNat 32 (← get 8)) 8
    let high := signExtend (BitVec.ofNat 32 (← get 8)) 8
    return (low &&& 0xffff#32) ||| (high <<< 16)
  | 7 => do return BitVec.ofNat 32 (← get 32)
  | _ => throw (.runtimeError "invalid FPC tag")

/-- The bytes that are pushed for a value. -/
def valueBytes (value : Word) : Block :=
  (List.range 4).map fun byte => toByte (value >>> (8 * byte)).toNat

/-- The loop of `fpc_decode` with `n` words to go. -/
def decodeWords (output : Block) : ℕ → Reading Block
  | 0 => pure output
  | n + 1 => do
    let tag ← get 3
    let value ← readValue tag
    decodeWords (output ++ valueBytes value) n

def fpcDecode (encoded : List Byte) (outputSize : ℕ) : Except Error Block := do
  throwIf (outputSize = 0 ∨ outputSize % 4 ≠ 0)
    (.invalidArgument "FPC output size must be divisible by four bytes")
  -- `reserve` refuses what no vector can hold
  throwIf (outputSize ≥ 2 ^ 63) (.lengthError "vector::reserve")
  let (output, _) ← decodeWords [] (outputSize / 4) { bytes := encoded }
  return output

variable {l : List Bool} {writer : BitWriter} {v : Word} {block : Block}

/-! Words. -/

theorem loadLittleEndian_word (block : Block) (offset : ℕ) :
    BitVec.ofNat 32 (loadLittleEndian block offset 4) = load32 block offset := by
  have hload : loadLittleEndian block offset 4 = (load32 block offset).toNat := by
    rw [loadLittleEndian_eq, FpcBsel.load32_toNat]
    rfl
  rw [hload, BitVec.ofNat_toNat, BitVec.setWidth_eq]

theorem isSignExtended_eq (v : Word) (bits : ℕ) :
    isSignExtended v bits = FpcBsel.signExtended v bits := by
  unfold isSignExtended FpcBsel.signExtended FpcBsel.mask
  dsimp only
  rw [ite_not]

/-- A signed comparison says what the masks of the other implementation say. -/
theorem halfwordIsSignExtendedByte_eq (v : BitVec 16) :
    halfwordIsSignExtendedByte v = FpcBsel.halfwordExtendedByte v := by
  have hv := v.isLt
  rw [Bool.eq_iff_iff, FpcBsel.halfwordExtendedByte_iff, halfwordIsSignExtendedByte,
    Bool.and_eq_true_iff, decide_eq_true_iff, decide_eq_true_iff, BitVec.toInt_eq_toNat_cond,
    FpcFormat.signExtend]
  split <;> split <;> omega

theorem repeated_iff (v : Word) :
    ((v >>> 8) &&& 0xff = (v.setWidth 8).setWidth 32 ∧
      (v >>> 16) &&& 0xff = (v.setWidth 8).setWidth 32 ∧
      (v >>> 24) &&& 0xff = (v.setWidth 8).setWidth 32) ↔ Represents 2 v.toNat := by
  have hv := v.isLt
  have hbyte : ((v.setWidth 8).setWidth 32).toNat = v.toNat % 2 ^ 8 := by
    rw [BitVec.toNat_setWidth, BitVec.toNat_setWidth]
    omega
  have hshift : ∀ k, ((v >>> k) &&& 0xff).toNat = v.toNat / 2 ^ k % 2 ^ 8 := by
    intro k
    rw [← Nat.shiftRight_eq_div_pow, ← BitVec.toNat_ushiftRight]
    exact @FpcBsel.toNat_and_mask 8 (by decide) (v >>> k)
  rw [represents_iff hv, ← BitVec.toNat_inj, ← BitVec.toNat_inj, ← BitVec.toNat_inj, hshift, hshift,
    hshift, hbyte]
  change _ ↔ v.toNat % 2 ^ 8 * 0x01010101 = v.toNat
  constructor
  · rintro ⟨h₁, h₂, h₃⟩
    have hsecond : v.toNat / 2 ^ 16 = v.toNat / 2 ^ 8 / 2 ^ 8 := by omega
    have hthird : v.toNat / 2 ^ 24 = v.toNat / 2 ^ 16 / 2 ^ 8 := by omega
    omega
  · intro h
    have hlow : v.toNat % 2 ^ 8 < 2 ^ 8 := Nat.mod_lt _ (by decide)
    generalize v.toNat % 2 ^ 8 = b at h hlow ⊢
    have hsecond : v.toNat / 2 ^ 8 = b * 0x010101 := by omega
    have hthird : v.toNat / 2 ^ 16 = b * 0x0101 := by omega
    have hfourth : v.toNat / 2 ^ 24 = b := by omega
    omega

/-! Writing. -/

theorem BitWriter.Holds.putWord {tag : Fin 8} (h : writer.Holds l) (htag : IsTag tag v.toNat)
    {value : ℕ} (hvalue : value = payload tag v.toNat) :
    ((writer.put tag.val 3).put value (width tag)).Holds
      (l ++ wordBits (tagOf v) v.toNat) := by
  subst hvalue
  rw [(FpcBsel.isTag_tagOf v).unique htag, wordBits, ← List.append_assoc]
  exact (h.put _ _).put _ _

/-- The nested tests take the branch of the tag. -/
theorem encodeWord_holds (h : writer.Holds l) (block : Block) (offset : ℕ) :
    (encodeWord block writer offset).Holds
      (l ++ wordBits (tagOf (load32 block offset)) (load32 block offset).toNat) := by
  unfold encodeWord
  rw [loadLittleEndian_word]
  generalize load32 block offset = v
  have hmask : ∀ n < 32, (v &&& FpcBsel.mask n).toNat = v.toNat % 2 ^ n := fun n hn =>
    FpcBsel.toNat_and_mask hn v
  have hnone := noneBelow_zero v.toNat
  dsimp only
  by_cases h₀ : v = 0
  · rw [if_pos h₀]
    exact h.putWord ⟨FpcBsel.represents_zero.mpr h₀, hnone⟩ rfl
  have hnone := hnone.succ rfl (mt FpcBsel.represents_zero.mp h₀)
  rw [if_neg h₀, isSignExtended_eq]
  by_cases h₁ : FpcBsel.signExtended v 4 = true
  · rw [if_pos h₁]
    exact h.putWord ⟨FpcBsel.represents_nibble.mpr h₁, hnone⟩ (hmask 4 (by decide))
  have hnone := hnone.succ rfl (mt FpcBsel.represents_nibble.mp h₁)
  rw [if_neg h₁]
  by_cases h₂ : Represents 2 v.toNat
  · rw [if_pos ((repeated_iff v).mpr h₂)]
    exact h.putWord ⟨h₂, hnone⟩ (BitVec.toNat_setWidth ..)
  have hnone := hnone.succ rfl h₂
  rw [if_neg (mt (repeated_iff v).mp h₂), isSignExtended_eq]
  by_cases h₃ : FpcBsel.signExtended v 8 = true
  · rw [if_pos h₃]
    exact h.putWord ⟨FpcBsel.represents_byte.mpr h₃, hnone⟩ (hmask 8 (by decide))
  have hnone := hnone.succ rfl (mt FpcBsel.represents_byte.mp h₃)
  rw [if_neg h₃, isSignExtended_eq]
  by_cases h₄ : FpcBsel.signExtended v 16 = true
  · rw [if_pos h₄]
    exact h.putWord ⟨FpcBsel.represents_halfword.mpr h₄, hnone⟩ (hmask 16 (by decide))
  have hnone := hnone.succ rfl (mt FpcBsel.represents_halfword.mp h₄)
  rw [if_neg h₄]
  by_cases h₅ : v &&& 0xffff = 0
  · rw [if_pos h₅]
    refine h.putWord ⟨FpcBsel.represents_padded.mpr h₅, hnone⟩ ?_
    rw [BitVec.toNat_ushiftRight, Nat.shiftRight_eq_div_pow]
    rfl
  have hnone := hnone.succ rfl (mt FpcBsel.represents_padded.mp h₅)
  rw [if_neg h₅, halfwordIsSignExtendedByte_eq, halfwordIsSignExtendedByte_eq]
  by_cases h₆ : Represents 6 v.toNat
  · rw [if_pos (Bool.and_eq_true_iff.mpr (FpcBsel.represents_halves.mp h₆)),
      (FpcBsel.isTag_tagOf v).unique ⟨h₆, hnone⟩, wordBits, FpcBsel.fieldBits_halves,
      ← List.append_assoc, ← List.append_assoc]
    exact ((h.put _ 3).put _ 8).put _ 8
  have hnone := hnone.succ rfl h₆
  rw [if_neg (fun hand => h₆ (FpcBsel.represents_halves.mpr (Bool.and_eq_true_iff.mp hand)))]
  exact h.putWord ⟨FpcBsel.represents_raw, hnone⟩ rfl

/-- Blocks of any length become the bits of their words. -/
theorem fpcEncode_eq (hne : block ≠ []) (h4 : block.length % 4 = 0) :
    fpcEncode block = .ok (toOctets (blockBits (wordsTo block (block.length / 4)))) := by
  have hholds : ∀ n, ((List.range n).foldl (fun writer word => encodeWord block writer (word * 4))
      ({} : BitWriter)).Holds (blockBits (wordsTo block n)) := by
    intro n
    induction n with
    | zero => exact holds_empty
    | succ n ih =>
      rw [List.range_succ, List.foldl_append, FpcBsel.wordsTo_succ, blockBits,
        List.flatMap_append, List.flatMap_singleton]
      exact encodeWord_holds ih block (n * 4)
  have hcheck : ¬ (block = [] ∨ block.length % 4 ≠ 0) := by
    rintro (h | h)
    · exact hne h
    · exact h h4
  rw [fpcEncode, throwIf_neg hcheck, ok_bind]
  exact congrArg Except.ok (hholds _).bytes_eq

/-! Reading. -/

/-- Flipping the sign bit and taking it away widens a signed value. -/
theorem toNat_signExtend {n p : ℕ} (h : n + 1 < 32) (hp : p < 2 ^ (n + 1)) :
    (signExtend (BitVec.ofNat 32 p) (n + 1)).toNat = FpcFormat.signExtend (n + 1) 32 p := by
  have hpos := Nat.two_pow_pos n
  have hle : 2 ^ (n + 1) ≤ 2 ^ 31 := Nat.pow_le_pow_right (by decide) (by omega)
  have hsign : (1#32 <<< n).toNat = 2 ^ n := FpcBsel.toNat_one_shiftLeft (by omega)
  have hvalue : (BitVec.ofNat 32 p).toNat = p := Nat.mod_eq_of_lt (by omega)
  rw [Nat.pow_succ] at hp hle
  have hdiv : (p ^^^ 2 ^ n) / 2 ^ n = p / 2 ^ n ^^^ 1 := by
    rw [Nat.xor_div_two_pow, Nat.div_self hpos]
  have hmod : (p ^^^ 2 ^ n) % 2 ^ n = p % 2 ^ n := by
    rw [Nat.xor_mod_two_pow, Nat.mod_self, Nat.xor_zero]
  have hsplit := Nat.div_add_mod (p ^^^ 2 ^ n) (2 ^ n)
  rw [hdiv, hmod] at hsplit
  have hrun : (signExtend (BitVec.ofNat 32 p) (n + 1)).toNat =
      (2 ^ 32 - 2 ^ n + (p ^^^ 2 ^ n)) % 2 ^ 32 := by
    change ((BitVec.ofNat 32 p ^^^ 1#32 <<< n) - 1#32 <<< n).toNat = _
    rw [BitVec.toNat_sub, BitVec.toNat_xor, hsign, hvalue]
  rw [hrun, FpcFormat.signExtend, Nat.add_sub_cancel, Nat.pow_succ 2 n]
  by_cases hlow : p < 2 ^ n
  · rw [Nat.div_eq_of_lt hlow, Nat.mod_eq_of_lt hlow, Nat.zero_xor, Nat.mul_one] at hsplit
    rw [if_pos hlow]
    omega
  · have hone : p / 2 ^ n = 1 := Nat.div_eq_of_lt_le (by omega) (by omega)
    have hrest := Nat.div_add_mod p (2 ^ n)
    rw [hone, Nat.mul_one] at hrest
    rw [hone, Nat.xor_self, Nat.mul_zero] at hsplit
    rw [if_neg hlow]
    omega

/-- The switch reads the payload of its tag. -/
theorem readValue_implements (tag : Fin 8) : Implements BitReader.Before (readValue tag.val)
    (do return BitVec.ofNat 32 (← parsePayload tag)) := by
  match tag with
  | 0 =>
    rw [parsePayload_zero, pure_bind]
    exact implements_pure _
  | 1 => exact @implements_field 1 _ _ _ _ get_implements _ fun p hp =>
      toNat_signExtend (by decide) hp
  | 2 =>
    refine @implements_field 2 _ _ _ _ get_implements _ fun p hp => ?_
    have hlt : p < 2 ^ 8 := hp
    rw [BitVec.toNat_mul, toNat_ofNat_field hp]
    change p * 0x01010101 % 2 ^ 32 = p * 0x01010101
    omega
  | 3 => exact @implements_field 3 _ _ _ _ get_implements _ fun p hp =>
      toNat_signExtend (by decide) hp
  | 4 => exact @implements_field 4 _ _ _ _ get_implements _ fun p hp =>
      toNat_signExtend (by decide) hp
  | 5 =>
    refine @implements_field 5 _ _ _ _ get_implements _ fun p hp => ?_
    have hlt : p < 2 ^ 16 := hp
    rw [BitVec.toNat_shiftLeft, toNat_ofNat_field hp, Nat.shiftLeft_eq]
    change p * 2 ^ 16 % 2 ^ 32 = p * 2 ^ 16
    omega
  | 6 =>
    refine implements_halves get_implements fun a ha b hb => toNat_halves ha hb ?_ ?_
    · exact @toNat_signExtend 7 a (by decide) ha
    · exact @toNat_signExtend 7 b (by decide) hb
  | 7 => exact @implements_field 7 _ _ _ _ get_implements _ fun p hp => toNat_ofNat_field hp

theorem decodeWords_implements (n : ℕ) (output : Block) :
    Implements BitReader.Before (decodeWords output n)
      (do return output ++ outputOf (← parseWords n)) := by
  induction n generalizing output with
  | zero =>
    rw [parseWords, pure_bind, outputOf, List.flatMap_nil, List.append_nil]
    exact implements_pure _
  | succ n ih =>
    have hparse : (parseWords (n + 1) >>= fun parsed =>
        (pure (output ++ outputOf parsed) : Parser Block)) =
        takeBits 3 >>= fun tag =>
          (parsePayload (Fin.ofNat 8 tag) >>= fun value => pure (BitVec.ofNat 32 value)) >>=
          fun value => parseWords n >>= fun parsed =>
            pure (output ++ store32 value ++ outputOf parsed) := by
      simp only [parseWords, parseTag, bind_assoc, pure_bind, outputOf, List.flatMap_cons,
        List.append_assoc]
    rw [hparse]
    refine (get_implements 3).bind fun tag htag => ?_
    have hlt := lt_of_returns_takeBits htag
    have hread := readValue_implements (Fin.ofNat 8 tag)
    have htag : (Fin.ofNat 8 tag).val = tag := Nat.mod_eq_of_lt hlt
    rw [htag] at hread
    exact hread.bind fun value _ => ih _

/-- The decoder returns the words that parse, whatever follows them. -/
theorem fpcDecode_of_parse {encoded : List Byte} {n : ℕ} (hpos : 0 < n) (hn : n * 4 < 2 ^ 63)
    {parsed : List (Fin 8 × ℕ)} {u : List Bool}
    (h : parseWords n (ofOctets encoded) = some (parsed, u)) :
    fpcDecode encoded (n * 4) = .ok (outputOf parsed) := by
  have hparse : (parseWords n >>= fun parsed => (pure ([] ++ outputOf parsed) : Parser Block))
      (ofOctets encoded) = some ([] ++ outputOf parsed, u) :=
    Parser.bind_eq_some.mpr ⟨parsed, u, h, rfl⟩
  obtain ⟨reader, hrun, -⟩ := (decodeWords_implements n []).accepts _ _ _ _
    (before_start encoded) hparse
  rw [fpcDecode, throwIf_neg (by omega), ok_bind, throwIf_neg (by omega), ok_bind,
    Nat.mul_div_cancel n (by decide), hrun]
  rfl

/-! The stream of a block. -/

/-- The classes the words of a block are sent in, and the stream that is made of them: for each
word a tag of three bits and the payload of its class. -/
structure FpcStream (ws : List Word) (tags : List (Fin 8)) (encoded : List Byte) : Prop where
  first : List.Forall₂ (fun tag w => IsTag tag w.toNat) tags ws
  bytes_eq : encoded = toOctets ((tags.zip ws).flatMap fun x => wordBits x.1 x.2.toNat)
  length_eq : encoded.length = (3 * ws.length + (tags.map width).sum + 7) / 8

theorem blockBits_eq (ws : List Word) : blockBits ws =
    ((ws.map tagOf).zip ws).flatMap fun x => wordBits x.1 x.2.toNat := by
  induction ws with
  | nil => rfl
  | cons v ws ih =>
    simp only [blockBits, List.flatMap_cons, List.map_cons, List.zip_cons_cons] at ih ⊢
    rw [ih]

theorem length_blockBits_eq (ws : List Word) :
    (blockBits ws).length = 3 * ws.length + ((ws.map tagOf).map width).sum := by
  induction ws with
  | nil => rfl
  | cons v ws ih =>
    have hcons : blockBits (v :: ws) = wordBits (tagOf v) v.toNat ++ blockBits ws := rfl
    rw [hcons, List.length_append, ih, length_wordBits, List.map_cons, List.map_cons,
      List.sum_cons, List.length_cons]
    omega

theorem fpcStream_blockBits (ws : List Word) :
    FpcStream ws (ws.map tagOf) (toOctets (blockBits ws)) := by
  refine ⟨?_, ?_, ?_⟩
  · rw [List.forall₂_map_left_iff, List.forall₂_same]
    intro v _
    exact FpcBsel.isTag_tagOf v
  · rw [blockBits_eq]
  · rw [length_toOctets, length_blockBits_eq]

/-- Decoding what encoding wrote gives the block back, and every word is sent in the first class
that represents it. -/
theorem fpc_round_trip {block : Vec Byte} (hne : block.toList ≠ [])
    (h4 : block.toList.length % 4 = 0) :
    ∃ encoded, fpcEncode block.toList = .ok encoded ∧
      fpcDecode encoded block.toList.length = .ok block.toList ∧
      ∃ tags, FpcStream (wordsTo block.toList (block.toList.length / 4)) tags encoded := by
  have hlen := block.size_lt
  have hpos := List.length_pos_iff.mpr hne
  have hwords : block.toList.length = block.toList.length / 4 * 4 := by omega
  have hcount := FpcBsel.length_wordsTo block.toList (block.toList.length / 4)
  refine ⟨_, fpcEncode_eq hne h4, ?_, _, fpcStream_blockBits _⟩
  have hparse := FpcBsel.parseWords_bits (wordsTo block.toList (block.toList.length / 4))
    (List.replicate (((blockBits (wordsTo block.toList (block.toList.length / 4))).length + 7) /
      8 * 8 - (blockBits (wordsTo block.toList (block.toList.length / 4))).length) false)
  rw [← ofOctets_toOctets, hcount] at hparse
  have hdecode := fpcDecode_of_parse (show 0 < block.toList.length / 4 by omega) (by omega) hparse
  rw [← hwords, FpcBsel.outputOf_words, FpcBsel.flatMap_store32_wordsTo hwords] at hdecode
  exact hdecode

/-- A word of each class. -/
def exampleClasses : Vec Byte :=
  ⟨[0, 0, 0, 0, 249, 255, 255, 255, 7, 7, 7, 7, 100, 0, 0, 0, 0, 128, 255, 255, 0, 0, 1, 2,
    200, 255, 9, 0, 1, 2, 3, 4], by decide⟩

theorem exampleClasses_fpc_round_trip :
    ∃ encoded, fpcEncode exampleClasses.toList = .ok encoded ∧
      fpcDecode encoded exampleClasses.toList.length = .ok exampleClasses.toList ∧
      ∃ tags, FpcStream (wordsTo exampleClasses.toList (exampleClasses.toList.length / 4)) tags
        encoded :=
  fpc_round_trip (by decide) (by decide)

/-! Agreement. -/

/-- The two encoders write the same streams, and whatever stream the stricter decoder accepts
the other one decodes to the same block. -/
theorem fpc_implementations_agree :
    (∀ block : Block, block.length = 64 → ∃ stream,
      fpcEncode block = .ok stream ∧ FpcBsel.fpcEncode block = .ok stream) ∧
    ∀ encoded block, FpcBsel.fpcDecode encoded = .ok block → fpcDecode encoded 64 = .ok block := by
  constructor
  · intro block h
    have hne : block ≠ [] := List.ne_nil_of_length_pos (by omega)
    refine ⟨_, fpcEncode_eq hne (by omega), ?_⟩
    rw [FpcBsel.fpcEncode_eq h, h]
    rfl
  · intro encoded block h
    cases hparse : parseWords 16 (ofOctets encoded) with
    | none =>
      obtain ⟨e, he⟩ := FpcBsel.fpcDecode_of_no_parse hparse
      rw [he] at h
      cases h
    | some result =>
      obtain ⟨parsed, u⟩ := result
      rw [FpcBsel.fpcDecode_of_parse hparse] at h
      split at h
      · cases h
        exact fpcDecode_of_parse (by decide) (by decide) hparse
      · cases h

theorem fpc_implementations_agree_zeros : ∃ stream,
    fpcEncode (List.replicate 64 0) = .ok stream ∧
    FpcBsel.fpcEncode (List.replicate 64 0) = .ok stream ∧
    fpcDecode stream 64 = .ok (List.replicate 64 0) := by
  obtain ⟨stream, hbaseline, hother⟩ := fpc_implementations_agree.1 (List.replicate 64 0) rfl
  have hstream := hother
  rw [FpcBsel.fpcEncode_eq rfl] at hstream
  cases hstream
  exact ⟨_, hbaseline, hother, fpc_implementations_agree.2 _ _ (FpcBsel.fpcDecode_encode rfl)⟩

end ByteSelect.Baseline
