import ByteSelect.Machine
import Mathlib.Data.List.ModifyLast

/-! Frequent pattern compression of 64-byte blocks, whole and split into its three parts. -/
namespace FpcBsel

open ByteSelect (Byte Error throwIf)

abbrev Bytes := List Byte
abbrev Word := BitVec 32

def kBlockSize : ℕ := 64
def kWordCount : ℕ := 16

/-- `static_cast<std::uint8_t>`. -/
def toByte (value : ℕ) : Byte := Fin.ofNat _ value

/-! Bits. -/

structure BitWriter where
  data : Bytes := []
  bit : ℕ := 0

def BitWriter.putBit (writer : BitWriter) (value : ℕ) : BitWriter where
  data := (if writer.bit = 0 then writer.data ++ [0] else writer.data).modifyLast
    fun back => back ||| toByte (value <<< writer.bit)
  bit := (writer.bit + 1) &&& 7

def BitWriter.put (writer : BitWriter) (value bits : ℕ) : BitWriter :=
  (List.range bits).foldl (fun writer i => writer.putBit ((value >>> i) &&& 1)) writer

def BitWriter.bytes (writer : BitWriter) : Bytes := writer.data

structure BitReader where
  data : Bytes
  byte : ℕ := 0
  bit : ℕ := 0

abbrev Reading := StateT BitReader (Except Error)

/-- `++bit_`, with the step to the next byte. -/
def BitReader.advance (reader : BitReader) : BitReader :=
  if reader.bit + 1 = 8 then { reader with bit := 0, byte := reader.byte + 1 }
  else { reader with bit := reader.bit + 1 }

/-- The loop of `get` from bit `i` on, with `n` bits to go. -/
def getFrom (i value : ℕ) : ℕ → Reading ℕ
  | 0 => pure value
  | n + 1 => fun reader =>
    match reader.data[reader.byte]? with
    | none => .error (.runtimeError "truncated FPC bitstream")
    | some byte =>
      getFrom (i + 1) (value ||| ((byte.val >>> reader.bit) &&& 1) <<< i) n reader.advance

def get (bits : ℕ) : Reading ℕ := getFrom 0 0 bits

/-! Words. -/

def load32 (block : Bytes) (offset : ℕ) : Word :=
  BitVec.ofNat 32 (block.getD offset 0).val |||
    (BitVec.ofNat 32 (block.getD (offset + 1) 0).val <<< 8) |||
    (BitVec.ofNat 32 (block.getD (offset + 2) 0).val <<< 16) |||
    (BitVec.ofNat 32 (block.getD (offset + 3) 0).val <<< 24)

/-- The bytes `store32` appends. -/
def store32 (value : Word) : Bytes :=
  (List.range 4).map fun i => toByte (value >>> (8 * i)).toNat

/-- `(std::uint32_t{1} << bits) - 1U`. -/
def mask (bits : ℕ) : Word := 1#32 <<< bits - 1#32

/-- The value `extend` returns, as the `std::uint32_t` every caller converts it to. -/
def extend (value : Word) (bits : ℕ) : Word :=
  let value := value &&& mask bits
  if value &&& (1#32 <<< (bits - 1)) ≠ 0 then value ||| ~~~mask bits else value

def signExtended (value : Word) (bits : ℕ) : Bool :=
  let low := value &&& mask bits
  let extended := if low &&& (1#32 <<< (bits - 1)) ≠ 0 then low ||| ~~~mask bits else low
  value = extended

def halfwordExtendedByte (value : BitVec 16) : Bool :=
  let byte := value.setWidth 8
  let extended := if byte &&& 0x80 ≠ 0 then 0xff00 ||| byte.setWidth 16 else byte.setWidth 16
  value = extended

def classify (value : Word) : Byte :=
  if value = 0 then 0
  else if signExtended value 4 then 1
  else
    let byte := value.setWidth 8
    if value = byte.setWidth 32 * 0x01010101 then 2
    else if signExtended value 8 then 3
    else if signExtended value 16 then 4
    else if value &&& 0xffff = 0 then 5
    else if halfwordExtendedByte (value.setWidth 16) &&
        halfwordExtendedByte ((value >>> 16).setWidth 16) then 6
    else 7

/-- `std::runtime_error("invalid FPC tag")`. -/
def invalidTag : Error := .runtimeError "invalid FPC tag"

def payloadBits (tag : Byte) : Except Error ℕ :=
  if tag > 7 then .error invalidTag else .ok ([0, 4, 8, 8, 16, 16, 16, 32].getD tag.val 0)

def writePayload (writer : BitWriter) (tag : Byte) (value : Word) : Except Error BitWriter :=
  match tag with
  | 0 => .ok writer
  | 1 => .ok (writer.put (value &&& 0xf).toNat 4)
  | 2 | 3 => .ok (writer.put (value &&& 0xff).toNat 8)
  | 4 => .ok (writer.put (value &&& 0xffff).toNat 16)
  | 5 => .ok (writer.put (value >>> 16).toNat 16)
  | 6 => .ok ((writer.put (value &&& 0xff).toNat 8).put ((value >>> 16) &&& 0xff).toNat 8)
  | 7 => .ok (writer.put value.toNat 32)
  | _ => .error invalidTag

def readPayload (tag : Byte) : Reading Word :=
  match tag with
  | 0 => pure 0
  | 1 => do return extend (BitVec.ofNat 32 (← get 4)) 4
  | 2 => do return BitVec.ofNat 32 (← get 8) * 0x01010101
  | 3 => do return extend (BitVec.ofNat 32 (← get 8)) 8
  | 4 => do return extend (BitVec.ofNat 32 (← get 16)) 16
  | 5 => do return BitVec.ofNat 32 (← get 16) <<< 16
  | 6 => do
    let low := extend (BitVec.ofNat 32 (← get 8)) 8
    let high := extend (BitVec.ofNat 32 (← get 8)) 8
    return (low &&& 0xffff#32) ||| (high <<< 16)
  | 7 => do return BitVec.ofNat 32 (← get 32)
  | _ => throw invalidTag

/-! Blocks. -/

structure FpcParts where
  tags : List Byte := List.replicate kWordCount 0
  regularPayload : Bytes := []
  rawResidual : Bytes := []
  residualBlock : Bytes := []

/-- `count` bytes of `source` from `first` on, copied over those of `target` from `offset` on. -/
def copyN (source : Bytes) (first count : ℕ) (target : Bytes) (offset : ℕ) : Bytes :=
  target.take offset ++ (source.drop first).take count ++ target.drop (offset + count)

/-- One turn of the loop of `split_fpc`. -/
def splitWord (block : Bytes) (state : FpcParts × BitWriter) (word : ℕ) :
    Except Error (FpcParts × BitWriter) :=
  let (result, regular) := state
  let offset := word * 4
  let value := load32 block offset
  let tag := classify value
  let result := { result with tags := result.tags.set word tag }
  if tag = 7 then
    .ok ({ result with
      rawResidual := result.rawResidual ++ store32 value
      residualBlock := copyN block offset 4 result.residualBlock offset }, regular)
  else do
    let regular ← writePayload regular tag value
    return (result, regular)

def splitFpc (block : Bytes) : Except Error FpcParts := do
  throwIf (block.length ≠ kBlockSize) (.invalidArgument "FPC-BSEL requires 64-byte blocks")
  let (result, regular) ← (List.range kWordCount).foldlM (splitWord block)
    ({ residualBlock := List.replicate kBlockSize 0 }, {})
  return { result with regularPayload := regular.bytes }

/-- The loop of `join_fpc` from one word on, with `n` words to go. -/
def joinFrom (parts : FpcParts) (word : ℕ) (output : Bytes) : ℕ → Reading Bytes
  | 0 => pure output
  | n + 1 => do
    let tag := parts.tags.getD word 0
    let value ← (if tag = 7 then pure (load32 parts.residualBlock (word * 4))
      else readPayload tag : Reading Word)
    joinFrom parts (word + 1) (output ++ store32 value) n

def joinFpc (parts : FpcParts) : Except Error Bytes := do
  throwIf (parts.residualBlock.length ≠ kBlockSize) (.runtimeError "invalid residual block")
  let (output, _) ← joinFrom parts 0 [] kWordCount { data := parts.regularPayload }
  return output

def packTags (tags : List Byte) : Bytes :=
  (tags.foldl (fun writer tag => writer.put tag.val 3) ({} : BitWriter)).bytes

/-- The loop of `unpack_tags` over `n` tags. -/
def readTags : ℕ → Reading (List Byte)
  | 0 => pure []
  | n + 1 => do
    let tag ← get 3
    let tags ← readTags n
    return toByte tag :: tags

def unpackTags (packed : Bytes) : Except Error (List Byte) := do
  throwIf (packed.length ≠ 6) (.runtimeError "FPC prefix must occupy six bytes")
  let (tags, _) ← readTags kWordCount { data := packed }
  return tags

def regularPayloadSize (tags : List Byte) : Except Error ℕ := do
  let bits ← tags.foldlM (fun bits tag =>
    if tag ≠ 7 then do return bits + (← payloadBits tag) else .ok bits) 0
  return (bits + 7) / 8

def rawResidualSize (tags : List Byte) : ℕ :=
  tags.foldl (fun count tag => count + if tag = 7 then 4 else 0) 0

/-- One turn of the loop of `fpc_encode`. -/
def encodeWord (block : Bytes) (writer : BitWriter) (word : ℕ) : Except Error BitWriter :=
  let value := load32 block (word * 4)
  let tag := classify value
  writePayload (writer.put tag.val 3) tag value

def fpcEncode (block : Bytes) : Except Error Bytes := do
  throwIf (block.length ≠ kBlockSize) (.invalidArgument "FPC requires 64-byte blocks")
  let writer ← (List.range kWordCount).foldlM (encodeWord block) {}
  return writer.bytes

/-- The loop of `fpc_decode` over `n` words: the output and the bits used. -/
def decodeWords (output : Bytes) (usedBits : ℕ) : ℕ → Reading (Bytes × ℕ)
  | 0 => pure (output, usedBits)
  | n + 1 => do
    let tag := toByte (← get 3)
    let width ← payloadBits tag
    let value ← readPayload tag
    decodeWords (output ++ store32 value) (usedBits + (3 + width)) n

def fpcDecode (encoded : Bytes) : Except Error Bytes := do
  let ((output, usedBits), _) ← decodeWords [] 0 kWordCount { data := encoded }
  throwIf (encoded.length ≠ (usedBits + 7) / 8) (.runtimeError "invalid FPC stream length")
  return output

end FpcBsel
