import ByteSelect.Guarded
import ByteSelect.Baseline.Cpack
import ByteSelect.Baseline.Lz77
import ByteSelect.Baseline.Bdi

/-! The decoders with every index and every shift checked, as the language demands it: they are
the decoders, and they stay defined on every stream. -/
namespace ByteSelect.Baseline.Checked

open Guarded BackReference
open FpcBsel (Word)

abbrev Run := Guarded.Run Error

abbrev Reading := StateT BitReader Run

abbrev index {α : Type} (l : List α) (i : ℕ) : Run α := Guarded.index l i

abbrev shift {α : Type} (width count : ℕ) (a : α) : Run α := Guarded.shift width count a

def throwIf (c : Prop) [Decidable c] (e : Error) : Run Unit :=
  if c then .error (.thrown e) else .ok ()

/-! Readers and bytes. -/

/-- One turn of the loop of `get`. -/
def getBit (reader : BitReader) (value i : ℕ) : Run ℕ := do
  let byte ← index reader.bytes ((reader.bit + i) / 8)
  let bit ← shift 32 ((reader.bit + i) &&& 7) ((byte.val >>> ((reader.bit + i) &&& 7)) &&& 1)
  shift 64 i (value ||| bit <<< i)

def get (count : ℕ) : Reading ℕ := fun reader =>
  if reader.bit + count > reader.bytes.length * 8 then
    .error (.thrown (.runtimeError "truncated baseline bitstream"))
  else do
    let value ← (List.range count).foldlM (getBit reader) 0
    return (value, { reader with bit := reader.bit + count })

def signExtend (value : BitVec 32) (bits : ℕ) : Run (BitVec 32) := do
  let sign ← shift 32 (bits - 1) (1#32 <<< (bits - 1))
  return (value ^^^ sign) - sign

def pushByte (value : Word) (output : Block) (byte : ℕ) : Run Block :=
  shift 32 (8 * byte) (output ++ [toByte (value >>> (8 * byte)).toNat])

def pushBytes (output : Block) (value : Word) : Run Block :=
  (List.range 4).foldlM (pushByte value) output

/-! `fpc_decode`. -/

def readValue (tag : ℕ) : Reading Word :=
  match tag with
  | 0 => pure 0
  | 1 => do signExtend (BitVec.ofNat 32 (← get 4)) 4
  | 2 => do
    let byte := BitVec.ofNat 32 (← get 8)
    return byte * 0x01010101
  | 3 => do signExtend (BitVec.ofNat 32 (← get 8)) 8
  | 4 => do signExtend (BitVec.ofNat 32 (← get 16)) 16
  | 5 => do
    let half ← get 16
    shift 32 16 (BitVec.ofNat 32 half <<< 16)
  | 6 => do
    let low ← signExtend (BitVec.ofNat 32 (← get 8)) 8
    let high ← signExtend (BitVec.ofNat 32 (← get 8)) 8
    shift 32 16 ((low &&& 0xffff#32) ||| (high <<< 16))
  | 7 => do return BitVec.ofNat 32 (← get 32)
  | _ => throw (.thrown (.runtimeError "invalid FPC tag"))

def decodeWords (output : Block) : ℕ → Reading Block
  | 0 => pure output
  | n + 1 => do
    let tag ← get 3
    let value ← readValue tag
    let output ← pushBytes output value
    decodeWords output n

def fpcDecode (encoded : List Byte) (outputSize : ℕ) : Run Block := do
  throwIf (outputSize = 0 ∨ outputSize % 4 ≠ 0)
    (.invalidArgument "FPC output size must be divisible by four bytes")
  throwIf (outputSize ≥ 2 ^ 63) (.lengthError "vector::reserve")
  let (output, _) ← decodeWords [] (outputSize / 4) { bytes := encoded }
  return output

/-! `bdi_decode`. -/

def loadByte (encoded : List Byte) (at' value i : ℕ) : Run ℕ := do
  let byte ← index encoded (at' + i)
  shift 64 (8 * i) (value ||| byte.val <<< (8 * i))

def loadLittleEndian (encoded : List Byte) (at' width : ℕ) : Run ℕ :=
  (List.range width).foldlM (loadByte encoded at') 0

def storeByte (value : ℕ) (out : Block) (i : ℕ) : Run Block :=
  shift 64 (8 * i) (out ++ [toByte (value >>> (8 * i))])

/-- One turn of the loop over the words of a mode. -/
def bdiWord (encoded : List Byte) (mode : BdiMode) (base : ℕ) (out : Block) (word : ℕ) :
    Run Block := do
  let delta ← loadLittleEndian encoded (1 + mode.baseBytes + word * mode.deltaBytes)
    mode.deltaBytes
  (List.range mode.valueBytes).foldlM (storeByte ((base + delta) % 2 ^ 64)) out

def bdiDecode (encoded : List Byte) (outputSize : ℕ) : Run Block := do
  throwIf (encoded = [] ∨ outputSize = 0 ∨ outputSize % 8 ≠ 0)
    (.invalidArgument "invalid BDI stream or output size")
  let first ← index encoded 0
  let tag := first.val
  if tag = 0 then
    throwIf (encoded.length ≠ outputSize + 1) (.runtimeError "invalid raw BDI stream")
    return encoded.tail
  else if tag = 1 then
    throwIf (outputSize ≥ 2 ^ 63)
      (.lengthError "cannot create std::vector larger than max_size()")
    return List.replicate outputSize 0
  else if tag = 2 then
    throwIf (encoded.length ≠ 9) (.runtimeError "invalid repeated BDI stream")
    throwIf (outputSize ≥ 2 ^ 63) (.lengthError "vector::_M_range_insert")
    return (List.range (outputSize / 8)).foldl (fun out _ => out ++ encoded.tail) []
  else
    throwIf (tag - 3 ≥ bdiModes.length) (.runtimeError "invalid BDI mode")
    let mode ← index bdiModes (tag - 3)
    throwIf (outputSize % mode.valueBytes ≠ 0 ∨ encoded.length ≠
        1 + mode.baseBytes + outputSize / mode.valueBytes * mode.deltaBytes)
      (.runtimeError "invalid BDI payload size")
    let base ← loadLittleEndian encoded 1 mode.baseBytes
    throwIf (outputSize ≥ 2 ^ 63) (.lengthError "vector::reserve")
    (List.range (outputSize / mode.valueBytes)).foldlM (bdiWord encoded mode base) []

/-! `cpack_decode`. -/

def readEntry (dictionary : List Word) : Reading Word := do
  let entry ← get kIndexBits
  if entry ≥ dictionary.length then throw (.thrown (.runtimeError "invalid C-Pack index"))
  else index dictionary entry

def cpackReadWord (dictionary : List Word) : Reading (Word × Bool) := do
  let first ← get 2
  if first = 0 then return (0, false)
  else if first = 2 then return (BitVec.ofNat 32 (← get 32), true)
  else if first = 1 then return (← readEntry dictionary, true)
  else
    let subtype ← get 2
    if subtype = 2 then return (BitVec.ofNat 32 (← get 8), false)
    else
      let entry ← readEntry dictionary
      if subtype = 0 then
        return (BitVec.ofNat 32 ((entry &&& 0xffff0000).toNat ||| (← get 16)), true)
      else if subtype = 1 then
        return (BitVec.ofNat 32 ((entry &&& 0xffffff00).toNat ||| (← get 8)), true)
      else throw (.thrown (.runtimeError "invalid C-Pack subtype"))

def cpackDecodeWords (dictionary : List Word) (output : Block) : ℕ → Reading Block
  | 0 => pure output
  | n + 1 => do
    let (word, update) ← cpackReadWord dictionary
    let output ← pushBytes output word
    let dictionary :=
      if update then
        (if dictionary.length = kDictionaryEntries then dictionary.tail else dictionary) ++ [word]
      else dictionary
    cpackDecodeWords dictionary output n

def cpackDecode (encoded : List Byte) (outputSize : ℕ) : Run Block := do
  throwIf (outputSize = 0 ∨ outputSize % 4 ≠ 0) (.invalidArgument "invalid C-Pack output size")
  throwIf (outputSize ≥ 2 ^ 63) (.lengthError "vector::reserve")
  let (output, _) ← cpackDecodeWords [] [] (outputSize / 4) { bytes := encoded }
  return output

/-! `lz77_lite_decode`. -/

/-- The element at a distance behind the end. -/
def indexBack (output : Block) (offset : ℕ) : Run Byte := do
  let position ← demand (offset ≤ output.length) (output.length - offset)
  index output position

def copyMatch (offset : ℕ) : ℕ → Block → Run Block
  | 0, output => .ok output
  | n + 1, output => do
    let byte ← indexBack output offset
    copyMatch offset n (output ++ [byte])

def lz77DecodeToken (encoded : List Byte) (outputSize : ℕ) (flags : Byte) (state : ℕ × Block)
    (token : ℕ) : Run (ℕ × Block) :=
  let (input, output) := state
  if output.length < outputSize then do
    let bit ← shift 32 token (1 <<< token)
    if flags.val &&& bit = 0 then
      throwIf (input ≥ encoded.length) (.runtimeError "truncated LZ77-lite literal")
      let literal ← index encoded input
      return (input + 1, output ++ [literal])
    else
      throwIf (input + 1 ≥ encoded.length) (.runtimeError "truncated LZ77-lite match")
      let offset ← index encoded input
      let length ← index encoded (input + 1)
      throwIf (offset.val = 0 ∨ offset.val > output.length ∨ length.val < kMinMatch ∨
        output.length + length.val > outputSize) (.runtimeError "invalid LZ77-lite match")
      let output ← copyMatch offset.val length.val output
      return (input + 2, output)
  else .ok state

def lz77DecodeGroups (encoded : List Byte) (outputSize : ℕ) : ℕ → ℕ × Block → Run Block
  | 0, (_, output) => .ok output
  | n + 1, (input, output) =>
    if output.length < outputSize then do
      throwIf (input ≥ encoded.length) (.runtimeError "truncated LZ77-lite flags")
      let flags ← index encoded input
      let state ← (List.range 8).foldlM (lz77DecodeToken encoded outputSize flags)
        (input + 1, output)
      lz77DecodeGroups encoded outputSize n state
    else .ok output

def lz77LiteDecode (encoded : List Byte) (outputSize : ℕ) : Run Block := do
  throwIf (outputSize ≥ 2 ^ 63) (.lengthError "vector::reserve")
  lz77DecodeGroups encoded outputSize outputSize (0, [])

variable {c : Prop} [Decidable c] {e : Error} {α : Type}

theorem safe_throwIf : Safe (fun _ => ¬ c) (throwIf c e) := by
  unfold throwIf
  split
  · exact .throws e
  · exact .returns ‹_›

theorem checks_throwIf (c : Prop) [Decidable c] (e : Error) :
    Checks (ByteSelect.throwIf c e) (throwIf c e) := by
  unfold throwIf ByteSelect.throwIf
  split
  · exact .same
  · exact .same

/-! Readers and bytes. -/

theorem stays_get {count : ℕ} (h : count ≤ 64) : Stays (fun _ => True) (get count) := by
  intro reader
  unfold get
  split
  · exact .throws _
  · rename_i hle
    refine Safe.bind (safe_foldlM_range (fun _ _ => True) trivial fun i value hi _ => ?_)
      fun value _ => .returns trivial
    have hseven := Nat.and_le_right (n := reader.bit + i) (m := 7)
    exact (safe_index (by omega)).bind fun byte _ => (safe_shift (by omega)).bind fun bit _ =>
      (safe_shift (by omega)).mono fun _ _ => trivial

theorem checks_get (count : ℕ) : ChecksState (Baseline.get count) (get count) := by
  intro reader
  unfold get Baseline.get
  split
  · exact .same
  · refine Checks.after (checks_foldl _ _ fun value i => ?_) .same
    exact (checks_index _ _ 0).after ((checks_shift _ _ _).after (checks_shift _ _ _))

theorem safe_signExtend (value : BitVec 32) {bits : ℕ} (h : bits ≤ 32) :
    Safe (fun _ => True) (signExtend value bits) :=
  (safe_shift (by omega)).bind fun _ _ => .returns trivial

theorem checks_signExtend (value : BitVec 32) (bits : ℕ) :
    Checks (.ok (Baseline.signExtend value bits)) (signExtend value bits) :=
  (checks_shift _ _ _).after .same

theorem safe_pushBytes (output : Block) (value : Word) :
    Safe (fun out => out.length = output.length + 4) (pushBytes output value) := by
  refine safe_foldlM_range (fun i (out : Block) => out.length = output.length + i) rfl
    fun i out hi hout => ?_
  refine (safe_shift (by omega)).mono ?_
  rintro _ rfl
  rw [List.length_append, hout, List.length_singleton, Nat.add_assoc]

theorem foldl_push {α β : Type} (f : α → β) (l : List α) (out : List β) :
    l.foldl (fun out a => out ++ [f a]) out = out ++ l.map f := by
  rw [List.map_eq_flatMap, List.foldl_append_eq_append, List.flatMap_def]

theorem checks_pushBytes (output : Block) (value : Word) :
    Checks (.ok (output ++ valueBytes value)) (pushBytes output value) := by
  rw [valueBytes, ← foldl_push]
  exact checks_foldl _ _ fun _ _ => checks_shift _ _ _

/-! `fpc_decode`. -/

theorem stays_readValue (tag : ℕ) : Stays (fun _ => True) (readValue tag) := by
  unfold readValue
  split
  · exact stays_pure trivial
  · exact (stays_get (by decide)).bind fun value _ => stays_lift (safe_signExtend _ (by decide))
  · exact (stays_get (by decide)).bind fun value _ => stays_pure trivial
  · exact (stays_get (by decide)).bind fun value _ => stays_lift (safe_signExtend _ (by decide))
  · exact (stays_get (by decide)).bind fun value _ => stays_lift (safe_signExtend _ (by decide))
  · refine (stays_get (by decide)).bind fun half _ => ?_
    exact (stays_lift (safe_shift (by decide))).mono fun _ _ => trivial
  · refine (stays_get (by decide)).bind fun value _ =>
      (stays_lift (safe_signExtend _ (by decide))).bind fun low _ =>
      (stays_get (by decide)).bind fun value _ =>
      (stays_lift (safe_signExtend _ (by decide))).bind fun high _ => ?_
    exact (stays_lift (safe_shift (by decide))).mono fun _ _ => trivial
  · exact (stays_get (by decide)).bind fun value _ => stays_pure trivial
  · exact stays_throw _

theorem checks_readValue (tag : ℕ) : ChecksState (Baseline.readValue tag) (readValue tag) := by
  match tag with
  | 0 => exact checksState_pure _
  | 1 => exact (checks_get 4).bind fun value => .lift (checks_signExtend _ _)
  | 2 => exact (checks_get 8).bind fun value => checksState_pure _
  | 3 => exact (checks_get 8).bind fun value => .lift (checks_signExtend _ _)
  | 4 => exact (checks_get 16).bind fun value => .lift (checks_signExtend _ _)
  | 5 => exact (checks_get 16).bind fun half => .lift (checks_shift _ _ _)
  | 6 =>
    refine (checks_get 8).bind fun value => .after (checks_signExtend _ _) ?_
    refine (checks_get 8).bind fun value => .after (checks_signExtend _ _) ?_
    exact .lift (checks_shift _ _ _)
  | 7 => exact (checks_get 32).bind fun value => checksState_pure _
  | _ + 8 => exact checksState_throw _

theorem stays_decodeWords (output : Block) (n : ℕ) :
    Stays (fun out => out.length = output.length + 4 * n) (decodeWords output n) := by
  induction n generalizing output with
  | zero => exact stays_pure rfl
  | succ n ih =>
    refine (stays_get (by decide)).bind fun tag _ => (stays_readValue tag).bind fun value _ =>
      (stays_lift (safe_pushBytes output value)).bind fun output' houtput => (ih output').mono ?_
    intro out hout
    omega

theorem checks_decodeWords (output : Block) (n : ℕ) :
    ChecksState (Baseline.decodeWords output n) (decodeWords output n) := by
  induction n generalizing output with
  | zero => exact checksState_pure output
  | succ n ih =>
    exact (checks_get 3).bind fun tag => (checks_readValue tag).bind fun value =>
      .after (checks_pushBytes output value) (ih _)

theorem safe_fpcDecode (encoded : List Byte) (outputSize : ℕ) :
    Safe (fun out => out.length = outputSize) (fpcDecode encoded outputSize) := by
  refine safe_throwIf.bind fun _ hsize => safe_throwIf.bind fun _ _ =>
    (stays_decodeWords [] _ _).bind fun r hr => .returns ?_
  rw [hr, List.length_nil]
  omega

theorem checks_fpcDecode (encoded : List Byte) (outputSize : ℕ) :
    Checks (Baseline.fpcDecode encoded outputSize) (fpcDecode encoded outputSize) :=
  (checks_throwIf _ _).bind fun _ => (checks_throwIf _ _).bind fun _ =>
    (checks_decodeWords [] _ _).bind fun _ => .same

/-! `cpack_decode`. -/

theorem stays_readEntry (dictionary : List Word) :
    Stays (fun _ => True) (readEntry dictionary) := by
  refine (stays_get (by decide)).bind fun entry _ => ?_
  split
  · exact stays_throw _
  · exact (stays_lift (safe_index (by omega))).mono fun _ _ => trivial

theorem checks_readEntry (dictionary : List Word) :
    ChecksState (Baseline.readEntry dictionary) (readEntry dictionary) := by
  refine (checks_get _).bind fun entry => ?_
  split
  · rename_i hget
    rw [List.getElem?_eq_none_iff] at hget
    rw [if_pos hget]
    exact checksState_throw _
  · rename_i word hget
    have hlt := (List.getElem?_eq_some_iff.mp hget).1
    have hword : word = dictionary.getD entry 0 := by
      rw [List.getD_eq_getElem?_getD, hget, Option.getD_some]
    rw [if_neg (by omega), hword]
    exact .lift (checks_index _ _ 0)

theorem stays_cpackReadWord (dictionary : List Word) :
    Stays (fun _ => True) (cpackReadWord dictionary) := by
  refine (stays_get (by decide)).bind fun first _ => ?_
  split
  · exact stays_pure trivial
  split
  · exact (stays_get (by decide)).bind fun value _ => stays_pure trivial
  split
  · exact (stays_readEntry dictionary).bind fun entry _ => stays_pure trivial
  refine (stays_get (by decide)).bind fun subtype _ => ?_
  split
  · exact (stays_get (by decide)).bind fun value _ => stays_pure trivial
  refine (stays_readEntry dictionary).bind fun entry _ => ?_
  split
  · exact (stays_get (by decide)).bind fun value _ => stays_pure trivial
  split
  · exact (stays_get (by decide)).bind fun value _ => stays_pure trivial
  · exact stays_throw _

theorem checks_cpackReadWord (dictionary : List Word) :
    ChecksState (Baseline.cpackReadWord dictionary) (cpackReadWord dictionary) := by
  refine (checks_get 2).bind fun first => ?_
  split
  · exact checksState_pure _
  split
  · exact (checks_get 32).bind fun value => checksState_pure _
  split
  · exact (checks_readEntry dictionary).bind fun entry => checksState_pure _
  refine (checks_get 2).bind fun subtype => ?_
  split
  · exact (checks_get 8).bind fun value => checksState_pure _
  refine (checks_readEntry dictionary).bind fun entry => ?_
  split
  · exact (checks_get 16).bind fun value => checksState_pure _
  split
  · exact (checks_get 8).bind fun value => checksState_pure _
  · exact checksState_throw _

theorem stays_cpackDecodeWords (dictionary : List Word) (output : Block) (n : ℕ) :
    Stays (fun out => out.length = output.length + 4 * n)
      (cpackDecodeWords dictionary output n) := by
  induction n generalizing dictionary output with
  | zero => exact stays_pure rfl
  | succ n ih =>
    refine (stays_cpackReadWord dictionary).bind fun read _ =>
      (stays_lift (safe_pushBytes output read.1)).bind fun output' houtput =>
      (ih _ output').mono ?_
    intro out hout
    omega

theorem checks_cpackDecodeWords (dictionary : List Word) (output : Block) (n : ℕ) :
    ChecksState (Baseline.cpackDecodeWords dictionary output n)
      (cpackDecodeWords dictionary output n) := by
  induction n generalizing dictionary output with
  | zero => exact checksState_pure output
  | succ n ih =>
    exact (checks_cpackReadWord dictionary).bind fun read =>
      .after (checks_pushBytes output read.1) (ih _ _)

theorem safe_cpackDecode (encoded : List Byte) (outputSize : ℕ) :
    Safe (fun out => out.length = outputSize) (cpackDecode encoded outputSize) := by
  refine safe_throwIf.bind fun _ hsize => safe_throwIf.bind fun _ _ =>
    (stays_cpackDecodeWords [] [] _ _).bind fun r hr => .returns ?_
  rw [hr, List.length_nil]
  omega

theorem checks_cpackDecode (encoded : List Byte) (outputSize : ℕ) :
    Checks (Baseline.cpackDecode encoded outputSize) (cpackDecode encoded outputSize) :=
  (checks_throwIf _ _).bind fun _ => (checks_throwIf _ _).bind fun _ =>
    (checks_cpackDecodeWords [] [] _ _).bind fun _ => .same

/-! `lz77_lite_decode`. -/

theorem safe_copyMatch {offset : ℕ} (hpos : 0 < offset) (n : ℕ) {output : Block}
    (hle : offset ≤ output.length) :
    Safe (fun out => out.length = output.length + n) (copyMatch offset n output) := by
  induction n generalizing output with
  | zero => exact .returns rfl
  | succ n ih =>
    have hindex : Safe (fun _ => True) (indexBack output offset) := by
      refine (safe_demand (p := fun position => position < output.length) hle (by omega)).bind
        fun position hposition => ?_
      exact (safe_index hposition).mono fun _ _ => trivial
    refine hindex.bind fun byte _ => ?_
    have hlen : (output ++ [byte]).length = output.length + 1 := by simp
    refine (ih (by omega)).mono ?_
    intro out hout
    omega

theorem checks_copyMatch (offset n : ℕ) (output : Block) :
    Checks (.ok (copyBack 0 offset n output)) (copyMatch offset n output) := by
  induction n generalizing output with
  | zero => exact .same
  | succ n ih =>
    refine .after (a := output.getD (output.length - offset) 0) ?_ (ih _)
    exact (checks_demand _).after (checks_index _ _ 0)

/-- A turn keeps the output within its size, and adds to an output that is not finished. -/
theorem safe_lz77DecodeToken (encoded : List Byte) (flags : Byte) {outputSize token : ℕ}
    {state : ℕ × Block} (ht : token < 8) (hle : state.2.length ≤ outputSize) :
    Safe (fun next => next.2.length ≤ outputSize ∧ state.2.length ≤ next.2.length ∧
      (state.2.length < outputSize → state.2.length < next.2.length))
      (lz77DecodeToken encoded outputSize flags state token) := by
  obtain ⟨input, output⟩ := state
  dsimp only at hle
  unfold lz77DecodeToken
  dsimp only
  split
  · rename_i hlt
    refine (safe_shift (by omega)).bind fun bit _ => ?_
    split
    · refine safe_throwIf.bind fun _ hinput =>
        (safe_index (by omega)).bind fun literal _ => .returns ?_
      have hlen : (output ++ [literal]).length = output.length + 1 := by simp
      dsimp only
      omega
    · refine safe_throwIf.bind fun _ hinput => (safe_index (by omega)).bind fun offset _ =>
        (safe_index (by omega)).bind fun length _ => safe_throwIf.bind fun _ hmatch => ?_
      have hmin : 3 ≤ length.val := by
        have hk : kMinMatch = 3 := rfl
        omega
      refine (safe_copyMatch (by omega) _ (by omega)).bind fun out hout => .returns ?_
      dsimp only
      omega
  · refine .returns ⟨hle, Nat.le_refl _, fun hlt => ?_⟩
    omega

theorem checks_lz77DecodeToken (encoded : List Byte) (outputSize : ℕ) (flags : Byte)
    (state : ℕ × Block) (token : ℕ) :
    Checks (Baseline.lz77DecodeToken encoded outputSize flags state token)
      (lz77DecodeToken encoded outputSize flags state token) := by
  obtain ⟨input, output⟩ := state
  unfold lz77DecodeToken Baseline.lz77DecodeToken
  dsimp only
  split
  · refine (checks_shift _ _ _).after ?_
    split
    · exact (checks_throwIf _ _).bind fun _ => (checks_index _ _ 0).after .same
    · refine (checks_throwIf _ _).bind fun _ => (checks_index _ _ 0).after
        ((checks_index _ _ 0).after ?_)
      exact (checks_throwIf _ _).bind fun _ => (checks_copyMatch _ _ _).after .same
  · exact .same

theorem safe_lz77DecodeGroups (encoded : List Byte) {outputSize n : ℕ} {state : ℕ × Block}
    (hle : state.2.length ≤ outputSize) (hn : outputSize ≤ state.2.length + n) :
    Safe (fun out => out.length = outputSize) (lz77DecodeGroups encoded outputSize n state) := by
  induction n generalizing state with
  | zero =>
    refine .returns ?_
    omega
  | succ n ih =>
    obtain ⟨input, output⟩ := state
    unfold lz77DecodeGroups
    dsimp only at hle hn
    split
    · rename_i hlt
      refine safe_throwIf.bind fun _ hinput => (safe_index (by omega)).bind fun flags _ => ?_
      -- the first token of the group adds to the output
      have hgroup := safe_foldlM_range (f := lz77DecodeToken encoded outputSize flags)
        (b := (input + 1, output)) (n := 8)
        (fun i next => next.2.length ≤ outputSize ∧ output.length ≤ next.2.length ∧
          (0 < i → output.length < next.2.length))
        ⟨hle, Nat.le_refl _, fun h => absurd h (Nat.lt_irrefl 0)⟩ fun i next hi hnext =>
          (safe_lz77DecodeToken encoded flags hi hnext.1).mono fun next' hnext' =>
            ⟨hnext'.1, by omega, fun _ => by omega⟩
      refine hgroup.bind fun next hnext => ih hnext.1 ?_
      omega
    · refine .returns ?_
      omega

theorem checks_lz77DecodeGroups (encoded : List Byte) (outputSize n : ℕ) (state : ℕ × Block) :
    Checks (Baseline.lz77DecodeGroups encoded outputSize n state)
      (lz77DecodeGroups encoded outputSize n state) := by
  induction n generalizing state with
  | zero => exact .same
  | succ n ih =>
    obtain ⟨input, output⟩ := state
    unfold lz77DecodeGroups Baseline.lz77DecodeGroups
    split
    · refine (checks_throwIf _ _).bind fun _ => (checks_index _ _ 0).after ?_
      exact (checks_foldlM _ _ fun state token => checks_lz77DecodeToken _ _ _ _ _).bind
        fun state => ih state
    · exact .same

theorem safe_lz77LiteDecode (encoded : List Byte) (outputSize : ℕ) :
    Safe (fun out => out.length = outputSize) (lz77LiteDecode encoded outputSize) :=
  safe_throwIf.bind fun _ _ => safe_lz77DecodeGroups encoded (Nat.zero_le _) (by simp)

theorem checks_lz77LiteDecode (encoded : List Byte) (outputSize : ℕ) :
    Checks (Baseline.lz77LiteDecode encoded outputSize) (lz77LiteDecode encoded outputSize) :=
  (checks_throwIf _ _).bind fun _ => checks_lz77DecodeGroups _ _ _ _

/-! `bdi_decode`. -/

theorem safe_loadLittleEndian {encoded : List Byte} {offset width : ℕ} (hwidth : width ≤ 8)
    (hle : offset + width ≤ encoded.length) :
    Safe (fun _ => True) (loadLittleEndian encoded offset width) := by
  refine (safe_foldlM_range (fun _ _ => True) trivial fun i value hi _ => ?_).mono
    fun _ _ => trivial
  refine (safe_index (by omega)).bind fun byte _ => ?_
  exact (safe_shift (by omega)).mono fun _ _ => trivial

theorem checks_loadLittleEndian (encoded : List Byte) (offset width : ℕ) :
    Checks (.ok (Baseline.loadLittleEndian encoded offset width))
      (loadLittleEndian encoded offset width) :=
  checks_foldl _ _ fun _ _ => (checks_index _ _ 0).after (checks_shift _ _ _)

theorem safe_storeBytes (out : Block) (value : ℕ) {width : ℕ} (hwidth : width ≤ 8) :
    Safe (fun next => next.length = out.length + width)
      ((List.range width).foldlM (storeByte value) out) := by
  refine safe_foldlM_range (fun i (next : Block) => next.length = out.length + i) rfl
    fun i next hi hnext => ?_
  refine (safe_shift (by omega)).mono ?_
  rintro _ rfl
  rw [List.length_append, hnext, List.length_singleton, Nat.add_assoc]

theorem checks_storeBytes (out : Block) (value width : ℕ) :
    Checks (.ok (out ++ littleEndian value width))
      ((List.range width).foldlM (storeByte value) out) := by
  rw [littleEndian, ← foldl_push]
  exact checks_foldl _ _ fun _ _ => checks_shift _ _ _

theorem checks_bdiWord (encoded : List Byte) (mode : BdiMode) (base : ℕ) (out : Block)
    (word : ℕ) :
    Checks (.ok (out ++ littleEndian ((base + Baseline.loadLittleEndian encoded
      (1 + mode.baseBytes + word * mode.deltaBytes) mode.deltaBytes) % 2 ^ 64) mode.valueBytes))
      (bdiWord encoded mode base out word) :=
  (checks_loadLittleEndian _ _ _).after (checks_storeBytes _ _ _)

/-- No value, base or delta has more bytes than 64 bits. -/
theorem width_le_of_mem {mode : BdiMode} (h : mode ∈ bdiModes) :
    mode.valueBytes ≤ 8 ∧ mode.baseBytes ≤ 8 ∧ mode.deltaBytes ≤ 8 := by
  simp only [bdiModes, List.mem_cons, List.not_mem_nil, or_false] at h
  rcases h with rfl | rfl | rfl | rfl | rfl | rfl <;> decide

theorem safe_bdiWords {encoded : List Byte} {mode : BdiMode} {count : ℕ} (hmode : mode ∈ bdiModes)
    (hlen : encoded.length = 1 + mode.baseBytes + count * mode.deltaBytes) (base : ℕ) :
    Safe (fun out => out.length = count * mode.valueBytes)
      ((List.range count).foldlM (bdiWord encoded mode base) []) := by
  obtain ⟨hvalue, -, hdelta⟩ := width_le_of_mem hmode
  refine safe_foldlM_range (fun word (out : Block) => out.length = word * mode.valueBytes)
    (Nat.zero_mul _).symm fun word out hword hout => ?_
  have hend : (word + 1) * mode.deltaBytes ≤ count * mode.deltaBytes :=
    Nat.mul_le_mul_right _ hword
  rw [Nat.succ_mul] at hend
  refine (safe_loadLittleEndian hdelta (by omega)).bind fun delta _ => ?_
  refine (safe_storeBytes out _ hvalue).mono fun next hnext => ?_
  rw [hnext, hout, Nat.succ_mul]

theorem safe_bdiDecode (encoded : List Byte) (outputSize : ℕ) :
    Safe (fun out => out.length = outputSize) (bdiDecode encoded outputSize) := by
  refine safe_throwIf.bind fun _ hsize => ?_
  rw [not_or, not_or, not_not] at hsize
  have hpos := List.length_pos_iff.mpr hsize.1
  refine (safe_index hpos).bind fun first _ => ?_
  dsimp only
  split
  · refine safe_throwIf.bind fun _ hlen => .returns ?_
    rw [List.length_tail]
    omega
  split
  · exact safe_throwIf.bind fun _ _ => .returns List.length_replicate
  split
  · refine safe_throwIf.bind fun _ hlen => safe_throwIf.bind fun _ _ => .returns ?_
    have htail : encoded.tail.length = 8 := by
      rw [List.length_tail]
      omega
    rw [foldl_append_replicate, List.length_flatten, List.map_replicate, List.sum_replicate_nat,
      htail]
    omega
  · refine safe_throwIf.bind fun _ htag =>
      (safe_index (Nat.not_le.mp htag)).bind fun mode hget => ?_
    have hmode := List.mem_of_getElem? hget
    obtain ⟨-, hbase, -⟩ := width_le_of_mem hmode
    refine safe_throwIf.bind fun _ hpayload => ?_
    rw [not_or, not_not, not_not] at hpayload
    refine (safe_loadLittleEndian hbase (by omega)).bind fun base _ =>
      safe_throwIf.bind fun _ _ => (safe_bdiWords hmode hpayload.2 base).mono fun out hout => ?_
    rw [hout, Nat.div_mul_cancel (Nat.dvd_of_mod_eq_zero hpayload.1)]

theorem checks_bdiDecode (encoded : List Byte) (outputSize : ℕ) :
    Checks (Baseline.bdiDecode encoded outputSize) (bdiDecode encoded outputSize) := by
  refine (checks_throwIf _ _).bind fun _ => (checks_index _ _ 0).after ?_
  dsimp only
  split
  · exact (checks_throwIf _ _).bind fun _ => .same
  split
  · exact (checks_throwIf _ _).bind fun _ => .same
  split
  · exact (checks_throwIf _ _).bind fun _ => (checks_throwIf _ _).bind fun _ => .same
  · split
    · rename_i hget
      rw [throwIf, if_pos (List.getElem?_eq_none_iff.mp hget)]
      exact .same
    · rename_i mode hget
      have hlt := (List.getElem?_eq_some_iff.mp hget).1
      have hindex : index bdiModes ((encoded.getD 0 0).val - 3) = .ok mode := by
        simp only [index, Guarded.index, hget]
      rw [throwIf, if_neg (by omega), hindex]
      refine (checks_throwIf _ _).bind fun _ => (checks_loadLittleEndian _ _ _).after ?_
      refine (checks_throwIf _ _).bind fun _ => ?_
      have hfold := checks_foldl (List.range (outputSize / mode.valueBytes)) ([] : Block)
        fun out word => checks_bdiWord encoded mode
          (Baseline.loadLittleEndian encoded 1 mode.baseBytes) out word
      rw [List.foldl_append_eq_append, List.nil_append, ← List.flatMap_def] at hfold
      exact hfold

end ByteSelect.Baseline.Checked
