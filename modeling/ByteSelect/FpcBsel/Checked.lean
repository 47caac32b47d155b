import ByteSelect.FpcBsel.ModelFile
import ByteSelect.Guarded

/-! The block decoder with every index, every copied range and every shift by a computed count
checked: it stays defined on every string, and accepts only strings of one length. -/
namespace FpcBsel.Checked

open ByteSelect (Byte Error throwIf throwIf_neg)
open Guarded FpcFormat

abbrev Run := Guarded.Run Error

abbrev Reading := StateT BitReader Run

/-! Bits and words. -/

def getFrom (i value : ℕ) : ℕ → Reading ℕ
  | 0 => pure value
  | n + 1 => fun reader =>
    if reader.byte ≥ reader.data.length then
      .error (.thrown (.runtimeError "truncated FPC bitstream"))
    else do
      let byte ← index reader.data reader.byte
      let bit ← shift 32 reader.bit ((byte.val >>> reader.bit) &&& 1)
      let value ← shift 64 i (value ||| bit <<< i)
      getFrom (i + 1) value n reader.advance

def get (bits : ℕ) : Reading ℕ := getFrom 0 0 bits

def load32 (block : Bytes) (offset : ℕ) : Run Word := do
  let first ← index block offset
  let second ← index block (offset + 1)
  let third ← index block (offset + 2)
  let fourth ← index block (offset + 3)
  return BitVec.ofNat 32 first.val ||| (BitVec.ofNat 32 second.val <<< 8) |||
    (BitVec.ofNat 32 third.val <<< 16) ||| (BitVec.ofNat 32 fourth.val <<< 24)

/-- One turn of the loop of `store32`. -/
def storeByte (value : Word) (out : Bytes) (i : ℕ) : Run Bytes :=
  shift 32 (8 * i) (out ++ [toByte (value >>> (8 * i)).toNat])

def store32 (out : Bytes) (value : Word) : Run Bytes := (List.range 4).foldlM (storeByte value) out

def extend (value : Word) (bits : ℕ) : Run Word := do
  let mask ← shift 32 bits (mask bits)
  let value := value &&& mask
  let sign ← shift 32 (bits - 1) (1#32 <<< (bits - 1))
  return if value &&& sign ≠ 0 then value ||| ~~~mask else value

def payloadBits (tag : Byte) : Run ℕ := do
  lift (throwIf (tag > 7) invalidTag)
  index [0, 4, 8, 8, 16, 16, 16, 32] tag.val

def readPayload (tag : Byte) : Reading Word :=
  match tag with
  | 0 => pure 0
  | 1 => do extend (BitVec.ofNat 32 (← get 4)) 4
  | 2 => do return BitVec.ofNat 32 (← get 8) * 0x01010101
  | 3 => do extend (BitVec.ofNat 32 (← get 8)) 8
  | 4 => do extend (BitVec.ofNat 32 (← get 16)) 16
  | 5 => do return BitVec.ofNat 32 (← get 16) <<< 16
  | 6 => do
    let low ← extend (BitVec.ofNat 32 (← get 8)) 8
    let high ← extend (BitVec.ofNat 32 (← get 8)) 8
    return (low &&& 0xffff#32) ||| (high <<< 16)
  | 7 => do return BitVec.ofNat 32 (← get 32)
  | _ => throw (.thrown invalidTag)

/-! The parts of a block. -/

def joinFrom (parts : FpcParts) (word : ℕ) (output : Bytes) : ℕ → Reading Bytes
  | 0 => pure output
  | n + 1 => do
    let tag ← (index parts.tags word : Run Byte)
    let value ← (if tag = 7 then liftM (load32 parts.residualBlock (word * 4))
      else readPayload tag : Reading Word)
    let output ← store32 output value
    joinFrom parts (word + 1) output n

def joinFpc (parts : FpcParts) : Run Bytes := do
  lift (throwIf (parts.residualBlock.length ≠ kBlockSize) (.runtimeError "invalid residual block"))
  let (output, _) ← joinFrom parts 0 [] kWordCount { data := parts.regularPayload }
  return output

def readTags : ℕ → Reading (List Byte)
  | 0 => pure []
  | n + 1 => do
    let tag ← get 3
    let tags ← readTags n
    return toByte tag :: tags

def unpackTags (packed : Bytes) : Run (List Byte) := do
  lift (throwIf (packed.length ≠ 6) (.runtimeError "FPC prefix must occupy six bytes"))
  let (tags, _) ← readTags kWordCount { data := packed }
  return tags

def regularPayloadSize (tags : List Byte) : Run ℕ := do
  let bits ← tags.foldlM (fun bits tag =>
    if tag ≠ 7 then do return bits + (← payloadBits tag) else .ok bits) 0
  return (bits + 7) / 8

def decodeWords (output : Bytes) (usedBits : ℕ) : ℕ → Reading (Bytes × ℕ)
  | 0 => pure (output, usedBits)
  | n + 1 => do
    let tag := toByte (← get 3)
    let width ← payloadBits tag
    let value ← readPayload tag
    let output ← store32 output value
    decodeWords output (usedBits + (3 + width)) n

def fpcDecode (encoded : Bytes) : Run Bytes := do
  let ((output, usedBits), _) ← decodeWords [] 0 kWordCount { data := encoded }
  lift (throwIf (encoded.length ≠ (usedBits + 7) / 8) (.runtimeError "invalid FPC stream length"))
  return output

/-! Pattern streams. -/

def getU16 (data : Bytes) (offset : ℕ) (what : Error) : Run ℕ := do
  lift (throwIf (offset + 2 > data.length) what)
  let low ← index data offset
  let high ← index data (offset + 1)
  return low.val ||| high.val <<< 8

/-- `model.patterns[id]` after the check of `id`. -/
def patternAt (model : BselModel) (id : ℕ) : Run Pattern := do
  lift (throwIf (id ≥ model.patterns.length) (.runtimeError "unknown BSEL pattern id"))
  index model.patterns id

def bselDecode (encoded : Bytes) (model : BselModel) : Run Bytes := do
  let id ← getU16 encoded 0 (.runtimeError "truncated BSEL stream")
  let pattern ← patternAt model id
  lift (throwIf (encoded.length ≠ 2 + pattern.rank) (.runtimeError "invalid BSEL dictionary size"))
  pattern.symbols.mapM fun symbol => index encoded (2 + symbol.val)

def slice (data : Bytes) (offset size : ℕ) : Run (Bytes × ℕ) := do
  lift (throwIf (offset + size > data.length) (.runtimeError "truncated FPC-BSEL block"))
  demand (offset + size ≤ data.length) ((data.drop offset).take size, offset + size)

def bselStreamSize (data : Bytes) (offset : ℕ) (model : BselModel) : Run ℕ := do
  let id ← getU16 data offset (.runtimeError "truncated BSEL segment")
  let pattern ← patternAt model id
  return 2 + pattern.rank

/-! Blocks. -/

def decodeTags (encoded : Bytes) (patterned : Bool) (model : BselModel) :
    Run (List Byte × ℕ) :=
  if patterned then do
    let size ← bselStreamSize encoded 2 model
    let (stream, offset) ← slice encoded 2 size
    let decoded ← bselDecode stream model
    -- the array has no room for more
    let tags ← demand (decoded.length ≤ kWordCount)
      (copyN decoded 0 decoded.length (List.replicate kWordCount 0) 0)
    lift (throwIf (∃ tag ∈ tags, tag > 7) (.runtimeError "invalid decoded FPC tag"))
    return (tags, offset)
  else do
    let (packed, offset) ← slice encoded 2 6
    return (← unpackTags packed, offset)

def spreadWord (tags : List Byte) (raw : Bytes) (state : Bytes × ℕ) (word : ℕ) :
    Run (Bytes × ℕ) := do
  let tag ← index tags word
  if tag = 7 then
    demand (state.2 + 4 ≤ raw.length ∧ word * 4 + 4 ≤ state.1.length)
      (copyN raw state.2 4 state.1 (word * 4), state.2 + 4)
  else return state

def decodeResidual (encoded : Bytes) (offset : ℕ) (patterned : Bool) (tags : List Byte)
    (model : BselModel) : Run (Bytes × ℕ) :=
  if patterned then do
    let size ← bselStreamSize encoded offset model
    let (stream, offset) ← slice encoded offset size
    return (← bselDecode stream model, offset)
  else do
    let (raw, offset) ← slice encoded offset (rawResidualSize tags)
    let (residual, _) ← (List.range kWordCount).foldlM (spreadWord tags raw)
      (List.replicate kBlockSize 0, 0)
    return (residual, offset)

def decodeCombined (encoded : Bytes) (model : Model) : Run Bytes := do
  let flags ← index encoded 1
  lift (throwIf (flags.val &&& (2 ^ 32 - 1 - 3) ≠ 0) (.runtimeError "invalid FPC-BSEL flags"))
  let (tags, offset) ← decodeTags encoded (flags &&& 1 ≠ 0) model.prefixModel
  let size ← regularPayloadSize tags
  let (regular, offset) ← slice encoded offset size
  let (residual, offset) ← decodeResidual encoded offset (flags &&& 2 ≠ 0) tags model.residual
  lift (throwIf (offset ≠ encoded.length) (.runtimeError "trailing data in encoded block"))
  joinFpc { tags := tags, regularPayload := regular, residualBlock := residual }

def decodeBlock (encoded : Bytes) (model : Model) : Run Bytes := do
  lift (throwIf (encoded = []) (.runtimeError "empty encoded block"))
  let mode ← index encoded 0
  if mode = BlockMode.raw.byte then do
    lift (throwIf (encoded.length ≠ 1 + kBlockSize) (.runtimeError "invalid raw block size"))
    demand (1 ≤ encoded.length) (encoded.drop 1)
  else if mode = BlockMode.fpc.byte then do
    let stream ← demand (1 ≤ encoded.length) (encoded.drop 1)
    fpcDecode stream
  else do
    lift (throwIf (mode ≠ BlockMode.fpcBsel.byte ∨ encoded.length < 2)
      (.runtimeError "unknown FPC-BSEL block mode"))
    decodeCombined encoded model

variable {reader : BitReader} {parts : FpcParts} {model : BselModel} {encoded data output : Bytes}
  {tags : List Byte} {offset size n : ℕ}

/-! The same runs without the checks. -/

theorem checks_getFrom (i value n : ℕ) :
    ChecksState (FpcBsel.getFrom i value n) (getFrom i value n) := by
  induction n generalizing i value with
  | zero => exact checksState_pure value
  | succ n ih =>
    intro reader
    unfold FpcBsel.getFrom getFrom
    split
    · rename_i hnone
      rw [if_pos (List.getElem?_eq_none_iff.mp hnone)]
      exact .same
    · rename_i byte hbyte
      have hlt := (List.getElem?_eq_some_iff.mp hbyte).1
      rw [if_neg (not_le.mpr hlt)]
      have hread := checks_index (ε := Error) reader.data reader.byte 0
      rw [List.getD_eq_getElem?_getD, hbyte] at hread
      exact hread.after ((checks_shift _ _ _).after ((checks_shift _ _ _).after (ih _ _ _)))

theorem checks_get (bits : ℕ) : ChecksState (FpcBsel.get bits) (get bits) :=
  checks_getFrom 0 0 bits

theorem checks_load32 (block : Bytes) (offset : ℕ) :
    Checks (.ok (FpcBsel.load32 block offset)) (load32 block offset) :=
  (checks_index _ _ 0).after ((checks_index _ _ 0).after ((checks_index _ _ 0).after
    ((checks_index _ _ 0).after .same)))

theorem checks_store32 (out : Bytes) (value : Word) :
    Checks (.ok (out ++ FpcBsel.store32 value)) (store32 out value) := by
  have hpush : out ++ FpcBsel.store32 value = (List.range 4).foldl (fun out i =>
      out ++ [toByte (value >>> (8 * i)).toNat]) out := by
    rw [FpcBsel.store32, List.map_eq_flatMap, List.foldl_append_eq_append, List.flatMap_def]
  rw [hpush]
  exact checks_foldl _ _ fun _ _ => checks_shift _ _ _

theorem checks_extend (value : Word) (bits : ℕ) :
    Checks (.ok (FpcBsel.extend value bits)) (extend value bits) :=
  (checks_shift _ _ _).after ((checks_shift _ _ _).after .same)

theorem checks_payloadBits (tag : Byte) : Checks (FpcBsel.payloadBits tag) (payloadBits tag) := by
  unfold FpcBsel.payloadBits payloadBits
  split
  · rename_i hlarge
    rw [throwIf, if_pos hlarge]
    exact .same
  · rename_i hsmall
    rw [throwIf_neg hsmall]
    exact checks_index _ _ 0

theorem tag_cases (tag : Byte) : tag = 0 ∨ tag = 1 ∨ tag = 2 ∨ tag = 3 ∨ tag = 4 ∨ tag = 5 ∨
    tag = 6 ∨ tag = 7 ∨ 8 ≤ tag.val := by
  revert tag
  decide +kernel

theorem readPayload_invalid {tag : Byte} (h : 8 ≤ tag.val) :
    FpcBsel.readPayload tag = throw invalidTag ∧
      readPayload tag = throw (.thrown invalidTag) := by
  constructor
  · unfold FpcBsel.readPayload
    split <;> first | exact absurd h (by decide) | rfl
  · unfold readPayload
    split <;> first | exact absurd h (by decide) | rfl

theorem checks_readPayload (tag : Byte) :
    ChecksState (FpcBsel.readPayload tag) (readPayload tag) := by
  rcases tag_cases tag with rfl | rfl | rfl | rfl | rfl | rfl | rfl | rfl | hinvalid
  · exact checksState_pure _
  · exact (checks_get 4).bind fun value => .lift (checks_extend _ _)
  · exact (checks_get 8).bind fun value => checksState_pure _
  · exact (checks_get 8).bind fun value => .lift (checks_extend _ _)
  · exact (checks_get 16).bind fun value => .lift (checks_extend _ _)
  · exact (checks_get 16).bind fun value => checksState_pure _
  · refine (checks_get 8).bind fun value => .after (checks_extend _ _) ?_
    exact (checks_get 8).bind fun value => .after (checks_extend _ _) (checksState_pure _)
  · exact (checks_get 32).bind fun value => checksState_pure _
  · rw [(readPayload_invalid hinvalid).1, (readPayload_invalid hinvalid).2]
    exact checksState_throw _

theorem checks_joinFrom (parts : FpcParts) (word : ℕ) (output : Bytes) (n : ℕ) :
    ChecksState (FpcBsel.joinFrom parts word output n) (joinFrom parts word output n) := by
  induction n generalizing word output with
  | zero => exact checksState_pure output
  | succ n ih =>
    refine .after (checks_index _ _ 0) (.bind ?_ fun value => .after (checks_store32 _ _) (ih _ _))
    split
    · exact .lift (checks_load32 _ _)
    · exact checks_readPayload _

theorem checks_joinFpc (parts : FpcParts) : Checks (FpcBsel.joinFpc parts) (joinFpc parts) :=
  .bind .same fun _ => (checks_joinFrom _ _ _ _ _).bind fun _ => .same

theorem checks_readTags (n : ℕ) : ChecksState (FpcBsel.readTags n) (readTags n) := by
  induction n with
  | zero => exact checksState_pure _
  | succ n ih =>
    exact (checks_get 3).bind fun tag => ih.bind fun tags => checksState_pure _

theorem checks_unpackTags (packed : Bytes) :
    Checks (FpcBsel.unpackTags packed) (unpackTags packed) :=
  .bind .same fun _ => (checks_readTags _ _).bind fun _ => .same

theorem checks_regularPayloadSize (tags : List Byte) :
    Checks (FpcBsel.regularPayloadSize tags) (regularPayloadSize tags) := by
  refine (checks_foldlM _ _ fun bits tag => ?_).bind fun _ => .same
  split
  · exact (checks_payloadBits tag).bind fun _ => .same
  · exact .same

theorem checks_decodeWords (output : Bytes) (usedBits n : ℕ) :
    ChecksState (FpcBsel.decodeWords output usedBits n) (decodeWords output usedBits n) := by
  induction n generalizing output usedBits with
  | zero => exact checksState_pure _
  | succ n ih =>
    exact (checks_get 3).bind fun tag => (checksState_lift (checks_payloadBits _)).bind
      fun width => (checks_readPayload _).bind fun value => .after (checks_store32 _ _) (ih _ _)

theorem checks_fpcDecode (encoded : Bytes) :
    Checks (FpcBsel.fpcDecode encoded) (fpcDecode encoded) :=
  (checks_decodeWords _ _ _ _).bind fun _ => .bind .same fun _ => .same

theorem checks_getU16 (data : Bytes) (offset : ℕ) (what : Error) :
    Checks (FpcBsel.getU16 data offset what) (getU16 data offset what) :=
  .bind .same fun _ => (checks_index _ _ 0).after ((checks_index _ _ 0).after .same)

theorem checks_patternAt (model : BselModel) (id : ℕ) {α : Type} {f : Pattern → Except Error α}
    {g : Pattern → Run α} (h : ∀ pattern, Checks (f pattern) (g pattern)) :
    Checks (match model.patterns[id]? with
      | none => .error (.runtimeError "unknown BSEL pattern id")
      | some pattern => f pattern) (patternAt model id >>= g) := by
  unfold patternAt
  cases hpattern : model.patterns[id]? with
  | none =>
    rw [throwIf, if_pos (List.getElem?_eq_none_iff.mp hpattern)]
    exact .same
  | some pattern =>
    have hlt := (List.getElem?_eq_some_iff.mp hpattern).1
    rw [throwIf_neg (not_le.mpr hlt), index, hpattern]
    exact h pattern

theorem checks_bselDecode (encoded : Bytes) (model : BselModel) :
    Checks (FpcBsel.bselDecode encoded model) (bselDecode encoded model) :=
  (checks_getU16 _ _ _).bind fun id => checks_patternAt model id fun _ =>
    .bind .same fun _ => checks_mapM _ fun _ => checks_index _ _ 0

theorem checks_slice (data : Bytes) (offset size : ℕ) :
    Checks (FpcBsel.slice data offset size) (slice data offset size) :=
  .bind .same fun _ => checks_demand _

theorem checks_bselStreamSize (data : Bytes) (offset : ℕ) (model : BselModel) :
    Checks (FpcBsel.bselStreamSize data offset model) (bselStreamSize data offset model) :=
  (checks_getU16 _ _ _).bind fun id => checks_patternAt model id fun _ => .same

theorem checks_decodeTags (encoded : Bytes) (patterned : Bool) (model : BselModel) :
    Checks (FpcBsel.decodeTags encoded patterned model) (decodeTags encoded patterned model) := by
  unfold FpcBsel.decodeTags decodeTags
  split
  · exact (checks_bselStreamSize _ _ _).bind fun size => (checks_slice _ _ _).bind fun _ =>
      (checks_bselDecode _ _).bind fun decoded => (checks_demand _).after
        (.bind .same fun _ => .same)
  · exact (checks_slice _ _ _).bind fun _ => (checks_unpackTags _).bind fun _ => .same

theorem checks_spreadWord (tags : List Byte) (raw : Bytes) (state : Bytes × ℕ) (word : ℕ) :
    Checks (.ok (FpcBsel.spreadWord tags raw state word)) (spreadWord tags raw state word) := by
  refine (checks_index tags word 0).after ?_
  unfold FpcBsel.spreadWord
  split
  · exact checks_demand _
  · exact .same

theorem checks_decodeResidual (encoded : Bytes) (offset : ℕ) (patterned : Bool)
    (tags : List Byte) (model : BselModel) :
    Checks (FpcBsel.decodeResidual encoded offset patterned tags model)
      (decodeResidual encoded offset patterned tags model) := by
  unfold FpcBsel.decodeResidual decodeResidual
  split
  · exact (checks_bselStreamSize _ _ _).bind fun size => (checks_slice _ _ _).bind fun _ =>
      (checks_bselDecode _ _).bind fun _ => .same
  · exact (checks_slice _ _ _).bind fun _ =>
      (checks_foldl _ _ (checks_spreadWord tags _)).after .same

theorem checks_decodeCombined (encoded : Bytes) (model : Model) :
    Checks (FpcBsel.decodeCombined encoded model) (decodeCombined encoded model) :=
  (checks_index encoded 1 0).after <| .bind .same fun _ => (checks_decodeTags _ _ _).bind fun _ =>
    (checks_regularPayloadSize _).bind fun _ => (checks_slice _ _ _).bind fun _ =>
      (checks_decodeResidual _ _ _ _ _).bind fun _ => .bind .same fun _ => checks_joinFpc _

theorem checks_decodeBlock (encoded : Bytes) (model : Model) :
    Checks (FpcBsel.decodeBlock encoded model) (decodeBlock encoded model) := by
  cases encoded with
  | nil => exact .same
  | cons mode rest =>
    unfold FpcBsel.decodeBlock decodeBlock
    dsimp only
    rw [throwIf_neg (List.cons_ne_nil mode rest)]
    have hmode : Checks (.ok mode) (index (mode :: rest) 0 : Run Byte) := .same
    refine Checks.after (a := ()) .same (hmode.after ?_)
    by_cases hraw : mode = BlockMode.raw.byte
    · rw [if_pos hraw, if_pos hraw]
      exact .bind .same fun _ => checks_demand rest
    · rw [if_neg hraw, if_neg hraw]
      by_cases hfpc : mode = BlockMode.fpc.byte
      · rw [if_pos hfpc, if_pos hfpc]
        exact Checks.after (checks_demand rest) (checks_fpcDecode rest)
      · rw [if_neg hfpc, if_neg hfpc]
        exact .bind .same fun _ => checks_decodeCombined _ model

/-! Bits and words stay defined. -/

/-- The position of a reader within its byte. -/
def InByte (reader : BitReader) : Prop := reader.bit < 8

theorem inByte_start (data : Bytes) : InByte { data := data } := by
  change 0 < 8
  decide

theorem InByte.advance (h : InByte reader) : InByte reader.advance := by
  unfold BitReader.advance
  split
  · change 0 < 8
    decide
  · change reader.bit + 1 < 8
    have hbit : reader.bit < 8 := h
    omega

theorem keeps_getFrom {i value : ℕ} (hvalue : value < 2 ^ i) (hn : i + n ≤ 64) :
    Keeps InByte (fun v => v < 2 ^ (i + n)) (getFrom i value n) := by
  induction n generalizing i value with
  | zero => exact keeps_pure hvalue
  | succ n ih =>
    intro reader hreader
    unfold getFrom
    split
    · exact .throws _
    · rename_i hbyte
      have hwidth : reader.bit < 32 := lt_trans hreader (by decide)
      refine (safe_index (not_le.mp hbyte)).bind fun byte _ => (safe_shift hwidth).bind
        fun bit hbit => (safe_shift (by omega)).bind fun next hnext => ?_
      have hle : bit ≤ 1 := by
        rw [hbit]
        exact Nat.and_le_right
      have hlt : next < 2 ^ (i + 1) := by
        rw [hnext, BitStream.or_shiftLeft _ hvalue, pow_succ]
        have hmul : 2 ^ i * bit ≤ 2 ^ i * 1 := Nat.mul_le_mul_left _ hle
        omega
      have hrest := ih hlt (by omega) reader.advance hreader.advance
      rwa [Nat.add_right_comm i 1 n] at hrest

theorem keeps_get {bits : ℕ} (h : bits ≤ 64) : Keeps InByte (fun v => v < 2 ^ bits) (get bits) := by
  have hget := @keeps_getFrom bits 0 0 Nat.one_pos (by omega)
  rwa [Nat.zero_add] at hget

theorem safe_load32 (h : offset + 4 ≤ data.length) : Safe (fun _ => True) (load32 data offset) :=
  (safe_index (by omega)).bind fun _ _ => (safe_index (by omega)).bind fun _ _ =>
    (safe_index (by omega)).bind fun _ _ => (safe_index (by omega)).bind fun _ _ => .returns trivial

theorem safe_store32 (out : Bytes) (value : Word) :
    Safe (fun out' => out'.length = out.length + 4) (store32 out value) := by
  refine safe_foldlM_range (fun i (out' : Bytes) => out'.length = out.length + i) rfl
    fun i out' hi hout => (safe_shift (by omega)).mono ?_
  rintro _ rfl
  rw [List.length_append, hout, List.length_singleton, Nat.add_assoc]

theorem safe_extend (value : Word) {bits : ℕ} (h : bits < 32) :
    Safe (fun _ => True) (extend value bits) :=
  (safe_shift h).bind fun _ _ => (safe_shift (by omega)).bind fun _ _ => .returns trivial

theorem safe_throwIf {c : Prop} [Decidable c] {e : Error} :
    Safe (fun _ => ¬ c) (lift (throwIf c e)) :=
  safe_lift fun _ h => ByteSelect.throwIf_eq_ok.mp h

theorem safe_payloadBits (tag : Byte) : Safe (fun _ => True) (payloadBits tag) := by
  refine safe_throwIf.bind fun _ hsmall => (safe_index ?_).mono fun _ _ => trivial
  have hle : tag ≤ 7 := not_lt.mp hsmall
  exact Nat.lt_succ_of_le hle

theorem keeps_readPayload (tag : Byte) : Keeps InByte (fun _ => True) (readPayload tag) := by
  have hread : ∀ {bits}, bits ≤ 64 → Keeps InByte (fun _ => True) (get bits) :=
    fun h => (keeps_get h).mono fun _ _ => trivial
  unfold readPayload
  split
  · exact keeps_pure trivial
  · exact (hread (by decide)).bind fun _ _ => keeps_lift (safe_extend _ (by decide))
  · exact (hread (by decide)).bind fun _ _ => keeps_pure trivial
  · exact (hread (by decide)).bind fun _ _ => keeps_lift (safe_extend _ (by decide))
  · exact (hread (by decide)).bind fun _ _ => keeps_lift (safe_extend _ (by decide))
  · exact (hread (by decide)).bind fun _ _ => keeps_pure trivial
  · exact (hread (by decide)).bind fun _ _ => (keeps_lift (safe_extend _ (by decide))).bind
      fun _ _ => (hread (by decide)).bind fun _ _ =>
        (keeps_lift (safe_extend _ (by decide))).bind fun _ _ => keeps_pure trivial
  · exact (hread (by decide)).bind fun _ _ => keeps_pure trivial
  · exact keeps_throw _

/-! The parts stay defined. -/

theorem keeps_joinFrom (htags : parts.tags.length = kWordCount)
    (hresidual : parts.residualBlock.length = kBlockSize) {word : ℕ} (hn : word + n = kWordCount)
    (output : Bytes) :
    Keeps InByte (fun out => out.length = output.length + 4 * n) (joinFrom parts word output n) := by
  unfold kWordCount at htags hn
  unfold kBlockSize at hresidual
  induction n generalizing word output with
  | zero => exact keeps_pure rfl
  | succ n ih =>
    refine (keeps_lift (safe_index (by omega))).bind fun tag _ => ?_
    have hvalue : Keeps InByte (fun _ => True)
        (if tag = 7 then liftM (load32 parts.residualBlock (word * 4))
          else readPayload tag : Reading Word) := by
      split
      · exact keeps_lift (safe_load32 (by omega))
      · exact keeps_readPayload tag
    refine hvalue.bind fun value _ => (keeps_lift (safe_store32 output value)).bind
      fun next hnext => (ih (by omega) next).mono fun out hout => ?_
    omega

theorem safe_joinFpc (htags : parts.tags.length = kWordCount) :
    Safe (fun out => out.length = kBlockSize) (joinFpc parts) := by
  refine safe_throwIf.bind fun _ hresidual => ?_
  have hjoin := keeps_joinFrom htags (not_not.mp hresidual) (Nat.zero_add _) []
  refine (hjoin _ (inByte_start parts.regularPayload)).bind fun out hout => .returns ?_
  have hlen := hout.1
  rw [List.length_nil, Nat.zero_add] at hlen
  exact hlen

/-- Sixteen tags of three bits. -/
structure Tags (tags : List Byte) : Prop where
  length_eq : tags.length = kWordCount
  small : ∀ tag ∈ tags, tag.val < 8

theorem keeps_readTags (n : ℕ) : Keeps InByte
    (fun tags => tags.length = n ∧ ∀ tag ∈ tags, tag.val < 8) (readTags n) := by
  induction n with
  | zero => exact keeps_pure ⟨rfl, by simp⟩
  | succ n ih =>
    refine (keeps_get (by decide)).bind fun value hvalue => ih.bind fun tags htags => keeps_pure ?_
    refine ⟨by rw [List.length_cons, htags.1], ?_⟩
    intro tag htag
    rcases List.mem_cons.mp htag with rfl | hmem
    · exact (Nat.mod_le _ _).trans_lt hvalue
    · exact htags.2 tag hmem

theorem safe_unpackTags (packed : Bytes) : Safe Tags (unpackTags packed) := by
  refine safe_throwIf.bind fun _ _ => ?_
  refine (keeps_readTags kWordCount _ (inByte_start packed)).bind fun out hout => .returns ?_
  exact ⟨hout.1.1, hout.1.2⟩

theorem safe_regularPayloadSize (tags : List Byte) :
    Safe (fun _ => True) (regularPayloadSize tags) := by
  have hloop : ∀ bits, Safe (fun _ => True) (tags.foldlM (fun bits tag =>
      if tag ≠ 7 then do return bits + (← payloadBits tag) else .ok bits) bits) := by
    induction tags with
    | nil => exact fun bits => .returns trivial
    | cons tag tags ih =>
      intro bits
      rw [List.foldlM_cons]
      split
      · exact Safe.bind (p := fun _ => True) ((safe_payloadBits tag).bind fun _ _ =>
          .returns trivial) fun bits _ => ih bits
      · exact ih bits
  exact (hloop 0).bind fun _ _ => .returns trivial

theorem keeps_decodeWords (output : Bytes) (usedBits n : ℕ) : Keeps InByte
    (fun r => r.1.length = output.length + 4 * n) (decodeWords output usedBits n) := by
  induction n generalizing output usedBits with
  | zero => exact keeps_pure rfl
  | succ n ih =>
    refine (keeps_get (by decide)).bind fun value _ => (keeps_lift (safe_payloadBits _)).bind
      fun width _ => (keeps_readPayload _).bind fun value _ =>
        (keeps_lift (safe_store32 output value)).bind fun next hnext =>
          (ih next _).mono fun r hr => ?_
    omega

theorem safe_fpcDecode (encoded : Bytes) :
    Safe (fun out => out.length = kBlockSize) (fpcDecode encoded) := by
  refine (keeps_decodeWords [] 0 kWordCount _ (inByte_start encoded)).bind fun r hr =>
    safe_throwIf.bind fun _ _ => .returns ?_
  have hlen := hr.1
  rw [List.length_nil, Nat.zero_add] at hlen
  exact hlen

/-! Pattern streams stay defined. -/

/-- The number in the two bytes at an offset. -/
def u16At (data : Bytes) (offset : ℕ) : ℕ :=
  (data.getD offset 0).val ||| (data.getD (offset + 1) 0).val <<< 8

/-- The bytes that a pattern stream at an offset takes, by the id that it begins with. -/
def patternedSize (model : BselModel) (data : Bytes) (offset : ℕ) : ℕ :=
  2 + (model.patterns.getD (u16At data offset) ⟨[]⟩).rank

theorem safe_getU16 (data : Bytes) (offset : ℕ) (what : Error) :
    Safe (fun id => id = u16At data offset) (getU16 data offset what) := by
  refine safe_throwIf.bind fun _ hlen => (safe_index (by omega)).bind fun low hlow =>
    (safe_index (by omega)).bind fun high hhigh => .returns ?_
  rw [u16At, List.getD_eq_getElem?_getD, List.getD_eq_getElem?_getD, hlow, hhigh]
  rfl

theorem safe_patternAt (model : BselModel) (id : ℕ) :
    Safe (fun pattern => model.patterns[id]? = some pattern) (patternAt model id) :=
  safe_throwIf.bind fun _ hid => safe_index (not_le.mp hid)

theorem safe_bselDecode (encoded : Bytes) (model : BselModel) : Safe (fun out =>
    ∃ pattern ∈ model.patterns, out.length = pattern.symbols.length) (bselDecode encoded model) := by
  refine (safe_getU16 _ _ _).bind fun id _ => (safe_patternAt model id).bind fun pattern hpattern =>
    safe_throwIf.bind fun _ hsize => (safe_mapM fun symbol hsymbol => ?_).mono fun out hout =>
      ⟨pattern, List.mem_of_getElem? hpattern, hout⟩
  have hlt := lt_rank hsymbol
  exact (safe_index (by omega)).mono fun _ _ => trivial

theorem safe_slice (data : Bytes) (offset size : ℕ) : Safe (fun r =>
    r.1.length = size ∧ r.2 = offset + size) (slice data offset size) := by
  refine safe_throwIf.bind fun _ hlen => safe_demand (not_lt.mp hlen) ⟨?_, rfl⟩
  rw [List.length_take, List.length_drop]
  omega

theorem safe_bselStreamSize (data : Bytes) (offset : ℕ) (model : BselModel) :
    Safe (fun size => size = patternedSize model data offset)
      (bselStreamSize data offset model) := by
  refine (safe_getU16 _ _ _).bind fun id hid => (safe_patternAt model id).bind
    fun pattern hpattern => .returns ?_
  rw [patternedSize, ← hid, List.getD_eq_getElem?_getD, hpattern]
  rfl

/-! Blocks stay defined. -/

theorem Tags.exists_map (h : Tags tags) :
    ∃ ts : List (Fin 8), ts.length = kWordCount ∧ tags = ts.map tagByte := by
  refine ⟨tags.map fun tag => Fin.ofNat 8 tag.val, ?_, ?_⟩
  · rw [List.length_map, h.length_eq]
  · rw [List.map_map]
    conv_lhs => rw [← List.map_id tags]
    apply List.map_congr_left
    intro tag htag
    exact Fin.ext (Nat.mod_eq_of_lt (h.small tag htag)).symm

theorem length_copyN {source target : Bytes} {first count offset : ℕ}
    (hsource : first + count ≤ source.length) (htarget : offset + count ≤ target.length) :
    (copyN source first count target offset).length = target.length := by
  rw [copyN, List.length_append, List.length_append, List.length_take, List.length_take,
    List.length_drop, List.length_drop]
  omega

theorem safe_decodeTags {patterned : Bool}
    (hm : ∀ pattern ∈ model.patterns, pattern.symbols.length = kWordCount) :
    Safe (fun r => Tags r.1 ∧
        r.2 = 2 + if patterned then patternedSize model encoded 2 else 6)
      (decodeTags encoded patterned model) := by
  unfold decodeTags
  split
  · refine (safe_bselStreamSize _ _ _).bind fun size hsize => (safe_slice _ _ _).bind
      fun stream hstream => (safe_bselDecode _ _).bind fun decoded hdecoded => ?_
    obtain ⟨pattern, hpattern, hlen⟩ := hdecoded
    rw [hm pattern hpattern] at hlen
    refine (safe_demand hlen.le rfl).bind fun tags htags => safe_throwIf.bind fun _ hsmall =>
      .returns ⟨⟨?_, fun tag htag => ?_⟩, ?_⟩
    · have hroom : (copyN decoded 0 decoded.length (List.replicate kWordCount 0) 0).length =
          (List.replicate kWordCount (0 : Byte)).length := by
        apply length_copyN
        · rw [Nat.zero_add]
        · rw [Nat.zero_add, List.length_replicate]
          exact hlen.le
      change tags.length = kWordCount
      rw [← htags, hroom, List.length_replicate]
    · by_contra hlarge
      exact hsmall ⟨tag, htag, not_le.mp fun hle => hlarge (Nat.lt_succ_of_le hle)⟩
    · rw [hstream.2, hsize]
  · refine (safe_slice _ _ _).bind fun packed hpacked => (safe_unpackTags _).bind
      fun tags htags => .returns ⟨htags, hpacked.2⟩

/-- The raw residual holds four bytes for every tag that asks for them. -/
theorem safe_spread {raw : Bytes} (htags : tags.length = kWordCount)
    (hraw : raw.length = rawResidualSize tags) :
    Safe (fun r => r.1.length = kBlockSize) ((List.range kWordCount).foldlM (spreadWord tags raw)
      (List.replicate kBlockSize 0, 0)) := by
  refine (safe_foldlM_range (fun i (state : Bytes × ℕ) => state.1.length = kBlockSize ∧
    state.2 = 4 * (tags.take i).count 7) ⟨List.length_replicate, rfl⟩ ?_).mono fun r hr => hr.1
  rintro i ⟨residual, used⟩ hi ⟨hlen, hused⟩
  have hlt : i < tags.length := htags.symm ▸ hi
  refine (safe_index hlt).bind fun tag htag => ?_
  rw [List.getElem?_eq_getElem hlt, Option.some_inj] at htag
  have hnext : (tags.take (i + 1)).count 7 = (tags.take i).count 7 + if tag = 7 then 1 else 0 := by
    rw [List.take_succ_eq_append_getElem hlt, List.count_append, htag, List.count_singleton]
    simp
  have hle : (tags.take (i + 1)).count 7 ≤ tags.count 7 := (List.take_sublist _ _).count_le 7
  rw [rawResidualSize_eq_count] at hraw
  unfold kWordCount at hi
  unfold kBlockSize at hlen ⊢
  dsimp only at hlen hused
  split
  · rename_i h7
    rw [if_pos h7] at hnext
    have hsource : used + 4 ≤ raw.length := by omega
    have htarget : i * 4 + 4 ≤ residual.length := by omega
    exact safe_demand ⟨hsource, htarget⟩ ⟨(length_copyN hsource htarget).trans hlen,
      by dsimp only; omega⟩
  · rename_i h7
    rw [if_neg h7] at hnext
    exact .returns ⟨hlen, by dsimp only; omega⟩

theorem safe_decodeResidual {patterned : Bool} (htags : tags.length = kWordCount)
    (hm : ∀ pattern ∈ model.patterns, pattern.symbols.length = kBlockSize) :
    Safe (fun r => r.1.length = kBlockSize ∧ r.2 = offset +
        if patterned then patternedSize model encoded offset else 4 * tags.count 7)
      (decodeResidual encoded offset patterned tags model) := by
  unfold decodeResidual
  split
  · refine (safe_bselStreamSize _ _ _).bind fun size hsize => (safe_slice _ _ _).bind
      fun stream hstream => (safe_bselDecode _ _).bind fun residual hresidual => .returns ?_
    obtain ⟨pattern, hpattern, hlen⟩ := hresidual
    rw [hm pattern hpattern] at hlen
    exact ⟨hlen, by rw [hstream.2, hsize]⟩
  · refine (safe_slice _ _ _).bind fun raw hraw => (safe_spread htags hraw.1).bind
      fun residual hresidual => .returns ⟨hresidual, ?_⟩
    rw [hraw.2, rawResidualSize_eq_count]

/-- The bytes that the payloads of the words that are not kept raw take. -/
def regularSize (tags : List (Fin 8)) : ℕ :=
  ((tags.map fun tag => if tag = 7 then 0 else width tag).sum + 7) / 8

/-- The length of a combined block, as its flags, pattern ids and tags imply it. -/
def combinedLength (encoded : Bytes) (model : Model) (tags : List (Fin 8)) : ℕ :=
  let flags := encoded.getD 1 0
  let residual := 2 + (if flags &&& 1 ≠ 0 then patternedSize model.prefixModel encoded 2 else 6) +
    regularSize tags
  residual + if flags &&& 2 ≠ 0 then patternedSize model.residual encoded residual
    else 4 * tags.count 7

/-- What the mode, the flags, the tags and the pattern ids say of the length of a block. -/
inductive LengthImplied (model : Model) : Bytes → Prop
  | raw {rest : Bytes} (hlen : rest.length = kBlockSize) :
    LengthImplied model (BlockMode.raw.byte :: rest)
  | fpc {rest : Bytes} {parsed : List (Fin 8 × ℕ)} {u : List Bool}
    (hparse : parseWords kWordCount (BitStream.ofOctets rest) = some (parsed, u))
    (hlen : rest.length = (usedBits parsed + 7) / 8) :
    LengthImplied model (BlockMode.fpc.byte :: rest)
  | combined {flags : Byte} {rest : Bytes} {tags : List (Fin 8)} {offset : ℕ}
    (htags : FpcBsel.decodeTags (BlockMode.fpcBsel.byte :: flags :: rest) (flags &&& 1 ≠ 0)
      model.prefixModel = .ok (tags.map tagByte, offset))
    (hcount : tags.length = kWordCount)
    (hlen : 2 + rest.length =
      combinedLength (BlockMode.fpcBsel.byte :: flags :: rest) model tags) :
    LengthImplied model (BlockMode.fpcBsel.byte :: flags :: rest)

theorem count_map_tagByte (tags : List (Fin 8)) : (tags.map tagByte).count 7 = tags.count 7 := by
  have hseven : (7 : Byte) = tagByte 7 := rfl
  rw [hseven, List.count_map_of_injective tags tagByte fun _ _ h => tagByte_inj.mp h]

theorem safe_decodeCombined {model : Model} (hm : Dimensions model) (hlen : 2 ≤ encoded.length) :
    Safe (fun block => block.length = kBlockSize ∧ ∃ tags : List (Fin 8), ∃ offset,
      FpcBsel.decodeTags encoded (encoded.getD 1 0 &&& 1 ≠ 0) model.prefixModel =
        .ok (tags.map tagByte, offset) ∧
      tags.length = kWordCount ∧ encoded.length = combinedLength encoded model tags)
      (decodeCombined encoded model) := by
  unfold decodeCombined
  rw [index_eq_ok hlen 0, ok_bind]
  refine safe_throwIf.bind fun _ _ => ((checks_decodeTags _ _ _).safe
    (safe_decodeTags hm.prefix_symbols)).bind fun r hr => ?_
  obtain ⟨tagBytes, offset⟩ := r
  obtain ⟨hdecode, htags, hoffset⟩ := hr
  obtain ⟨tags, hcount, rfl⟩ := htags.exists_map
  refine ((checks_regularPayloadSize _).safe (safe_regularPayloadSize _)).bind fun size hsize =>
    (safe_slice _ _ _).bind fun regular hregular =>
      (safe_decodeResidual htags.length_eq hm.residual_symbols).bind fun residual hresidual =>
        safe_throwIf.bind fun _ hend => (safe_joinFpc htags.length_eq).mono fun block hblock =>
          ⟨hblock, tags, offset, hdecode, hcount, ?_⟩
  have hregularSize : size = regularSize tags := by
    have hpair := hsize.1
    rw [regularPayloadSize_map] at hpair
    exact (Except.ok.inj hpair).symm
  rw [not_not] at hend
  dsimp only at hoffset hregular hresidual
  rw [← hend, hresidual.2, hregular.2, hoffset, hregularSize, count_map_tagByte, combinedLength]
  simp only [decide_eq_true_eq]

theorem lengthImplied_of_fpcDecode (model : Model) {rest block : Bytes}
    (h : FpcBsel.fpcDecode rest = .ok block) :
    LengthImplied model (BlockMode.fpc.byte :: rest) := by
  cases hparse : parseWords kWordCount (BitStream.ofOctets rest) with
  | none =>
    obtain ⟨e, he⟩ := fpcDecode_of_no_parse hparse
    rw [h] at he
    cases he
  | some result =>
    obtain ⟨parsed, u⟩ := result
    rw [fpcDecode_of_parse hparse] at h
    split at h
    · rename_i hlen
      exact .fpc hparse hlen
    · cases h

theorem safe_decodeBlock {model : Model} (hm : Dimensions model) (encoded : Bytes) :
    Safe (fun block => block.length = kBlockSize ∧ LengthImplied model encoded)
      (decodeBlock encoded model) := by
  refine safe_throwIf.bind fun _ hne => ?_
  obtain ⟨mode, rest, rfl⟩ := List.exists_cons_of_ne_nil hne
  rw [index_eq_ok (Nat.zero_lt_succ _) 0, ok_bind, List.getD_cons_zero]
  by_cases hraw : mode = BlockMode.raw.byte
  · subst hraw
    rw [if_pos rfl]
    refine safe_throwIf.bind fun _ hlen => safe_demand (Nat.le_add_left 1 _) ?_
    rw [not_not, List.length_cons, Nat.add_comm, Nat.add_left_cancel_iff] at hlen
    exact ⟨hlen, .raw hlen⟩
  · rw [if_neg hraw]
    by_cases hfpc : mode = BlockMode.fpc.byte
    · subst hfpc
      rw [if_pos rfl]
      refine (safe_demand (Nat.le_add_left 1 _) rfl).bind fun stream hstream => ?_
      rw [List.drop_one, List.tail_cons] at hstream
      subst hstream
      exact ((checks_fpcDecode rest).safe (safe_fpcDecode rest)).mono fun block hblock =>
        ⟨hblock.2, lengthImplied_of_fpcDecode model hblock.1⟩
    · rw [if_neg hfpc]
      refine safe_throwIf.bind fun _ hmode => ?_
      rw [not_or, not_not, not_lt] at hmode
      obtain ⟨rfl, htwo⟩ := hmode
      refine (safe_decodeCombined hm htwo).mono fun block hblock => ⟨hblock.1, ?_⟩
      obtain ⟨-, tags, offset, htags, hcount, hlen⟩ := hblock
      cases rest with
      | nil => exact absurd htwo (by decide)
      | cons flags rest =>
        rw [List.length_cons, List.length_cons] at hlen
        exact .combined htags hcount (by omega)

/-- The decoder is defined on every string, and what it accepts has the length that the string
itself implies. -/
theorem decodeBlock_safe {file : Bytes} {model : Model} (hload : loadModel file = .ok model)
    (encoded : Bytes) :
    decodeBlock encoded model = lift (FpcBsel.decodeBlock encoded model) ∧
    ∀ block, FpcBsel.decodeBlock encoded model = .ok block →
      block.length = 64 ∧ LengthImplied model encoded := by
  have hsafe := safe_decodeBlock (modelBytes_of_loadModel hload).1 encoded
  have hlift := (checks_decodeBlock encoded model).eq_lift hsafe
  refine ⟨hlift, fun block hblock => ?_⟩
  rw [hlift, hblock] at hsafe
  cases hsafe with
  | returns h => exact h

/-- Tags and residual block coded by patterns whose symbols have gaps. -/
def gappedStream : Bytes := [2, 3, 0, 0] ++ List.replicate 10 0 ++ [0, 0] ++ List.replicate 201 77

theorem decodeBlock_safe_gapped :
    loadModel (modelBytes gappedModel) = .ok gappedModel ∧
    decodeBlock gappedStream gappedModel = lift (FpcBsel.decodeBlock gappedStream gappedModel) ∧
    ∀ block, FpcBsel.decodeBlock gappedStream gappedModel = .ok block →
      block.length = 64 ∧ LengthImplied gappedModel gappedStream := by
  have hdim : Dimensions gappedModel :=
    ⟨rfl, rfl, by decide, by decide, by decide, by decide⟩
  have hload := loadModel_modelBytes hdim
  exact ⟨hload, decodeBlock_safe hload gappedStream⟩

end FpcBsel.Checked
