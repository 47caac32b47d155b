import ByteSelect.ByteStream
import ByteSelect.Codec

/-! The compressed container: what `compress` writes and how `decompress` reads it. -/
namespace ByteSelect

open ByteStream (read failed)

abbrev Reader := ByteStream.Reader Byte Error

/-- `static_cast<std::uint32_t>`. -/
def toU32 (value : ℕ) : ℕ := value % 2 ^ 32

/-- A `std::runtime_error`. -/
def raise {α : Type} (what : String) : Except Error α := .error (.runtimeError what)

/-- The lowest byte first. -/
def writeInteger (width value : ℕ) : List Byte :=
  (List.range width).map fun i => Fin.ofNat _ (value >>> (i * 8) &&& 0xff)

/-- The loop of `readInteger` from byte `i` on, with `n` bytes to go. -/
def readIntegerFrom (i : ℕ) : ℕ → ℕ → Reader ℕ
  | 0, value => pure value
  | n + 1, value => do
    match ← ByteStream.get with
    | none => (raise "truncated compressed file" : Except Error ℕ)
    | some byte => readIntegerFrom (i + 1) n (value ||| byte.val <<< (i * 8))

def readInteger (width : ℕ) : Reader ℕ := readIntegerFrom 0 width 0

def setIndexForTargetSize (model : Model) (targetSize : ℕ) : Except Error ℕ :=
  match model.sets.findIdx? fun set => set.targetSize.val == targetSize with
  | some index => .ok index
  | none => raise "compressed target size is not present in model"

/-- `model.sets[index]` for an index that is in range. -/
def Model.setAt (model : Model) (index : ℕ) : PatternSet := (model.sets[index]?).getD {}

/-! Writing. -/

def magic : List Byte := [66, 83, 69, 76]

def writeRecord (model : Model) (block : Block) (encoded : EncodedBlock) : List Byte :=
  if encoded.compressed then
    1 :: writeInteger 4 (toU32 (model.setAt encoded.setIndex).targetSize.val) ++
      writeInteger 8 encoded.metadata.val ++ encoded.dictionary
  else 0 :: block

/-- The loop over the full blocks: what it throws and what it has written by then. -/
def writeBlocks (model : Model) : List Block → List Byte → Except Error Unit × List Byte
  | [], output => (.ok (), output)
  | block :: blocks, output =>
    match compress block model with
    | .error e => (.error e, output)
    | .ok encoded => writeBlocks model blocks (output ++ writeRecord model block encoded)

def fullBlocks (blockSize : ℕ) (bytes : List Byte) : List Block :=
  (List.range (bytes.length / blockSize)).map fun i => (bytes.drop (i * blockSize)).take blockSize

def tailBytes (blockSize : ℕ) (bytes : List Byte) : List Byte :=
  bytes.drop (bytes.length / blockSize * blockSize)

theorem length_fullBlocks (blockSize : ℕ) (bytes : List Byte) :
    (fullBlocks blockSize bytes).length = bytes.length / blockSize := by
  simp [fullBlocks]

theorem length_of_mem_fullBlocks {blockSize : ℕ} {bytes : List Byte} :
    ∀ b ∈ fullBlocks blockSize bytes, b.length = blockSize := by
  intro b hb
  obtain ⟨i, hi, rfl⟩ := List.mem_map.mp hb
  have hlt := List.mem_range.mp hi
  have hle : (i + 1) * blockSize ≤ bytes.length :=
    (Nat.mul_le_mul_right blockSize hlt).trans (Nat.div_mul_le_self _ _)
  rw [Nat.add_mul, Nat.one_mul] at hle
  rw [List.length_take, List.length_drop]
  omega

theorem flatten_fullBlocks (blockSize : ℕ) (bytes : List Byte) :
    (fullBlocks blockSize bytes).flatten = bytes.take (bytes.length / blockSize * blockSize) := by
  have hcut : ∀ n, ((List.range n).map
      fun i => (bytes.drop (i * blockSize)).take blockSize).flatten =
      bytes.take (n * blockSize) := by
    intro n
    induction n with
    | zero => simp
    | succ n ih =>
      rw [List.range_succ, List.map_append, List.flatten_append, ih, Nat.add_mul, Nat.one_mul,
        List.take_add]
      simp
  exact hcut _

/-- The blocks and the tail make up the input. -/
theorem flatten_append_tail (blockSize : ℕ) (bytes : List Byte) :
    (fullBlocks blockSize bytes).flatten ++ tailBytes blockSize bytes = bytes := by
  rw [flatten_fullBlocks, tailBytes, List.take_append_drop]

theorem length_tailBytes (blockSize : ℕ) (bytes : List Byte) :
    (tailBytes blockSize bytes).length = bytes.length % blockSize := by
  have hsplit := Nat.div_add_mod' bytes.length blockSize
  rw [tailBytes, List.length_drop]
  omega

def containerHeader (model : Model) (bytes : List Byte) : List Byte :=
  magic ++ writeInteger 4 2 ++ writeInteger 8 bytes.length ++
    writeInteger 4 (toU32 model.blockSize.val) ++
    writeInteger 8 (bytes.length / model.blockSize.val)

/-- What `command_compress` throws, and the bytes of its output file. -/
def commandCompress (model : Model) (bytes : Vec Byte) : Except Error Unit × List Byte :=
  match validateModel model with
  | .error e => (.error e, [])
  | .ok () =>
    let blockSize := model.blockSize.val
    match writeBlocks model (fullBlocks blockSize bytes.toList)
        (containerHeader model bytes.toList) with
    | (.error e, output) => (.error e, output)
    | (.ok (), output) =>
      (.ok (), output ++ writeInteger 4 (toU32 (bytes.size % blockSize)) ++
        tailBytes blockSize bytes.toList)

/-! Reading. -/

def readRecordV1 (model : Model) : Reader EncodedBlock := do
  let setIndex ← readInteger 4
  let patternIndex ← readInteger 4
  let dictionarySize ← readInteger 4
  let set := model.setAt setIndex
  throwIf (setIndex ≥ model.sets.length ∨ dictionarySize ≠ set.dictionarySize)
    (.runtimeError "invalid compressed dictionary size")
  let metadata ← encodePatternMetadata set patternIndex
  let dictionary ← read 0 dictionarySize
  return {
    compressed := true
    originalSize := model.blockSize
    setIndex := setIndex
    patternIndex := patternIndex
    metadata := metadata
    dictionary := dictionary }

def readRecord (model : Model) : Reader EncodedBlock := do
  let targetSize ← readInteger 4
  let metadata ← readInteger 8
  throwIf (metadata > sizeMax) (.runtimeError "compressed metadata is too large for this host")
  let setIndex ← setIndexForTargetSize model targetSize
  let set := model.setAt setIndex
  let patternIndex ← decodePatternMetadata set (Fin.ofNat _ metadata)
  let dictionary ← read 0 set.dictionarySize
  return {
    compressed := true
    originalSize := model.blockSize
    setIndex := setIndex
    patternIndex := patternIndex
    metadata := Fin.ofNat _ metadata
    dictionary := dictionary }

def readRaw (model : Model) : Reader EncodedBlock := do
  let raw ← read 0 model.blockSize
  return { originalSize := model.blockSize, raw := raw }

def readEncoded (model : Model) (version : ℕ) (compressed : Bool) : Reader EncodedBlock :=
  if compressed = false then readRaw model
  else if version = 1 then readRecordV1 model
  else readRecord model

/-- One turn of the loop over the blocks. -/
def readBlock (model : Model) (version : ℕ) : Reader Block := do
  match ← ByteStream.get with
  | none => (raise "truncated compressed file" : Except Error Block)
  | some flag =>
    throwIf (flag ≠ 0 ∧ flag ≠ 1) (.runtimeError "invalid compressed block flag")
    let encoded ← readEncoded model version (flag ≠ 0)
    let bad ← failed
    throwIf (bad = true) (.runtimeError "truncated compressed block")
    decompress encoded model

def readBlocks (model : Model) (version : ℕ) : ℕ → List Byte → Reader (List Byte)
  | 0, output => pure output
  | n + 1, output => do
    let block ← readBlock model version
    readBlocks model version n (output ++ block)

/-- `decompress` after it has read the header. -/
def readBody (model : Model) (originalSize blockSize blockCount version : ℕ) :
    Reader (List Byte) := do
  throwIf (blockSize ≠ model.blockSize)
    (.runtimeError "compressed file and model block sizes differ")
  -- `reserve` refuses what no vector can hold
  throwIf (originalSize ≥ 2 ^ 63) (.lengthError "vector::reserve")
  let output ← readBlocks model version blockCount []
  let tailSize ← readInteger 4
  throwIf (tailSize ≥ model.blockSize) (.runtimeError "invalid compressed tail size")
  let tail ← read 0 tailSize
  let bad ← failed
  throwIf (bad = true ∨ output.length + tail.length ≠ originalSize)
    (.runtimeError "compressed file size metadata is inconsistent")
  return output ++ tail

def readContainer (model : Model) : Reader (List Byte) := do
  let start ← read 0 4
  let version ← readInteger 4
  throwIf (start ≠ magic ∨ (version ≠ 1 ∧ version ≠ 2))
    (.runtimeError "unsupported compressed format")
  let originalSize ← readInteger 8
  let blockSize ← readInteger 4
  let blockCount ← readInteger 8
  readBody model originalSize blockSize blockCount version

/-- What `command_decompress` throws, and the bytes of its output file: it opens the file
after the last check. -/
def commandDecompress (model : Model) (bytes : List Byte) : Except Error Unit × List Byte :=
  match validateModel model with
  | .error e => (.error e, [])
  | .ok () =>
    match readContainer model ⟨bytes, false⟩ with
    | .error e => (.error e, [])
    | .ok (output, _) => (.ok (), output)

end ByteSelect
