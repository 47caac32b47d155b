import ByteSelect.FpcBsel.Fpc

/-! Pattern coding of tag vectors and residual blocks, and the block codec that combines it with
frequent pattern compression. -/
namespace FpcBsel

open ByteSelect (Byte Error throwIf)

structure Pattern where
  symbols : Bytes
  deriving DecidableEq

/-- The largest symbol plus one. -/
def Pattern.rank (pattern : Pattern) : ℕ :=
  pattern.symbols.foldl (fun result symbol => max result (symbol.val + 1)) 0

structure BselModel where
  blockSize : ℕ := 0
  patterns : List Pattern := []
  deriving DecidableEq

/-- `prefixModel` is the source's `prefix`, a keyword here. -/
structure Model where
  prefixModel : BselModel
  residual : BselModel
  deriving DecidableEq

/-! Pattern coding. -/

/-- The bytes `put_u16` appends. -/
def putU16 (value : ℕ) (what : Error) : Except Error Bytes := do
  throwIf (value > 0xffff) what
  return [toByte value, toByte (value >>> 8)]

def getU16 (data : Bytes) (offset : ℕ) (what : Error) : Except Error ℕ := do
  throwIf (offset + 2 > data.length) what
  return (data.getD offset 0).val ||| (data.getD (offset + 1) 0).val <<< 8

/-- The inner loop of `bsel_encode`: the dictionary of a pattern that matches. -/
def matchSymbols (dictionary : Bytes) (assigned : List Bool) :
    List (Byte × Byte) → Except Error (Option Bytes)
  | [] => .ok (some dictionary)
  | (symbol, value) :: rest => do
    throwIf (symbol.val ≥ dictionary.length) (.invalidArgument "invalid BSEL pattern symbol")
    if assigned.getD symbol.val false = false then
      matchSymbols (dictionary.set symbol.val value) (assigned.set symbol.val true) rest
    else if dictionary.getD symbol.val 0 ≠ value then return none
    else matchSymbols dictionary assigned rest

/-- The loop of `bsel_encode` over the patterns, from pattern `id` on. -/
def encodeFrom (block : Bytes) (id : ℕ) (best : Option Bytes) :
    List Pattern → Except Error (Option Bytes)
  | [] => .ok best
  | pattern :: patterns => do
    throwIf (pattern.symbols.length ≠ block.length) (.invalidArgument "invalid BSEL model")
    let found ← matchSymbols (List.replicate pattern.rank 0) (List.replicate pattern.rank false)
      (pattern.symbols.zip block)
    match found with
    | none => encodeFrom block (id + 1) best patterns
    | some dictionary =>
      let start ← putU16 id (.invalidArgument "BSEL value exceeds 16 bits")
      let result := start ++ dictionary
      let better : Bool := match best with
        | none => true
        | some best => result.length < best.length
      encodeFrom block (id + 1) (if better then some result else best) patterns

def bselEncode (block : Bytes) (model : BselModel) : Except Error (Option Bytes) := do
  throwIf (block.length ≠ model.blockSize) (.invalidArgument "incorrect BSEL block size")
  encodeFrom block 0 none model.patterns

def bselDecode (encoded : Bytes) (model : BselModel) : Except Error Bytes := do
  let id ← getU16 encoded 0 (.runtimeError "truncated BSEL stream")
  match model.patterns[id]? with
  | none => .error (.runtimeError "unknown BSEL pattern id")
  | some pattern => do
    throwIf (encoded.length ≠ 2 + pattern.rank) (.runtimeError "invalid BSEL dictionary size")
    return pattern.symbols.map fun symbol => encoded.getD (2 + symbol.val) 0

/-! Blocks. -/

inductive BlockMode where
  | raw
  | fpc
  | fpcBsel
  deriving DecidableEq

/-- `static_cast<std::uint8_t>` of a mode. -/
def BlockMode.byte : BlockMode → Byte
  | raw => 0
  | fpc => 1
  | fpcBsel => 2

structure EncodedBlock where
  mode : BlockMode := .raw
  bytes : Bytes
  prefixBsel : Bool := false
  residualBsel : Bool := false

/-- The bytes from `offset` on, and the offset after them. -/
def slice (data : Bytes) (offset size : ℕ) : Except Error (Bytes × ℕ) := do
  throwIf (offset + size > data.length) (.runtimeError "truncated FPC-BSEL block")
  return ((data.drop offset).take size, offset + size)

def bselStreamSize (data : Bytes) (offset : ℕ) (model : BselModel) : Except Error ℕ := do
  let id ← getU16 data offset (.runtimeError "truncated BSEL segment")
  match model.patterns[id]? with
  | none => .error (.runtimeError "unknown BSEL pattern id")
  | some pattern => return 2 + pattern.rank

/-- A stream, or its pattern coding where there is a shorter one. -/
def shorter (encoded : Option Bytes) (plain : Bytes) : Bytes × Bool :=
  match encoded with
  | some encoded => if encoded.length < plain.length then (encoded, true) else (plain, false)
  | none => (plain, false)

/-- The combination of both codings that `encode_block` tries last. -/
def encodeCombined (block : Bytes) (model : Model) : Except Error EncodedBlock := do
  let parts ← splitFpc block
  let (tags, prefixBsel) :=
    shorter (← bselEncode parts.tags model.prefixModel) (packTags parts.tags)
  let (residual, residualBsel) :=
    shorter (← bselEncode parts.residualBlock model.residual) parts.rawResidual
  let flags : Byte := (if prefixBsel then 1 else 0) ||| (if residualBsel then 2 else 0)
  return {
    mode := .fpcBsel
    bytes := BlockMode.fpcBsel.byte :: flags :: (tags ++ parts.regularPayload ++ residual)
    prefixBsel := prefixBsel
    residualBsel := residualBsel }

def encodeBlock (block : Bytes) (model : Model) : Except Error EncodedBlock := do
  throwIf (block.length ≠ kBlockSize) (.invalidArgument "FPC-BSEL requires 64-byte blocks")
  let raw : EncodedBlock := { bytes := BlockMode.raw.byte :: block }
  let fpc ← fpcEncode block
  let best : EncodedBlock := if 1 + fpc.length < raw.bytes.length
    then { mode := .fpc, bytes := BlockMode.fpc.byte :: fpc } else raw
  let combined ← encodeCombined block model
  return if combined.bytes.length < best.bytes.length then combined else best

/-- The tags of a combined block, and the offset after them. -/
def decodeTags (encoded : Bytes) (patterned : Bool) (model : BselModel) :
    Except Error (List Byte × ℕ) :=
  if patterned then do
    let size ← bselStreamSize encoded 2 model
    let (stream, offset) ← slice encoded 2 size
    let decoded ← bselDecode stream model
    let tags := copyN decoded 0 decoded.length (List.replicate kWordCount 0) 0
    throwIf (∃ tag ∈ tags, tag > 7) (.runtimeError "invalid decoded FPC tag")
    return (tags, offset)
  else do
    let (packed, offset) ← slice encoded 2 6
    return (← unpackTags packed, offset)

/-- One turn of the loop that spreads the raw residual: the block and the offset in `raw`. -/
def spreadWord (tags : List Byte) (raw : Bytes) (state : Bytes × ℕ) (word : ℕ) : Bytes × ℕ :=
  if tags.getD word 0 = 7 then (copyN raw state.2 4 state.1 (word * 4), state.2 + 4) else state

/-- The residual block of a combined block, and the offset after it. -/
def decodeResidual (encoded : Bytes) (offset : ℕ) (patterned : Bool) (tags : List Byte)
    (model : BselModel) : Except Error (Bytes × ℕ) :=
  if patterned then do
    let size ← bselStreamSize encoded offset model
    let (stream, offset) ← slice encoded offset size
    return (← bselDecode stream model, offset)
  else do
    let (raw, offset) ← slice encoded offset (rawResidualSize tags)
    let (residual, _) := (List.range kWordCount).foldl (spreadWord tags raw)
      (List.replicate kBlockSize 0, 0)
    return (residual, offset)

/-- `decode_block` of a block in the combined mode, after the mode has been read. -/
def decodeCombined (encoded : Bytes) (model : Model) : Except Error Bytes := do
  let flags := encoded.getD 1 0
  throwIf (flags.val &&& (2 ^ 32 - 1 - 3) ≠ 0) (.runtimeError "invalid FPC-BSEL flags")
  let (tags, offset) ← decodeTags encoded (flags &&& 1 ≠ 0) model.prefixModel
  let (regular, offset) ← slice encoded offset (← regularPayloadSize tags)
  let (residual, offset) ← decodeResidual encoded offset (flags &&& 2 ≠ 0) tags model.residual
  throwIf (offset ≠ encoded.length) (.runtimeError "trailing data in encoded block")
  joinFpc { tags := tags, regularPayload := regular, residualBlock := residual }

def decodeBlock (encoded : Bytes) (model : Model) : Except Error Bytes :=
  match encoded with
  | [] => .error (.runtimeError "empty encoded block")
  | mode :: rest =>
    if mode = BlockMode.raw.byte then do
      throwIf (encoded.length ≠ 1 + kBlockSize) (.runtimeError "invalid raw block size")
      return rest
    else if mode = BlockMode.fpc.byte then fpcDecode rest
    else do
      throwIf (mode ≠ BlockMode.fpcBsel.byte ∨ encoded.length < 2)
        (.runtimeError "unknown FPC-BSEL block mode")
      decodeCombined encoded model

end FpcBsel
