import ByteSelect.Pattern

/-! The block codec: pattern sets, model validation, metadata fields, compression and decoding. -/
namespace ByteSelect

structure PatternSet where
  targetSize : SizeT := 32
  metadataBytes : SizeT := 1
  patterns : Vec Pattern := ⟨[], Vec.empty_lt⟩
  metadataTagBits : SizeT := 0
  metadataTagValue : SizeT := 0
  deriving DecidableEq

namespace PatternSet

def dictionarySize (set : PatternSet) : SizeT := set.targetSize - set.metadataBytes
def metadataBits (set : PatternSet) : SizeT := set.metadataBytes * 8
def patternIdBits (set : PatternSet) : SizeT := set.metadataBits - set.metadataTagBits

end PatternSet

structure Model where
  blockSize : SizeT := 64
  sets : List PatternSet
  deriving DecidableEq

structure EncodedBlock where
  compressed : Bool := false
  originalSize : ℕ := 0
  encodedSize : ℕ := 0
  allocatedSize : ℕ := 0
  setIndex : ℕ := 0
  patternIndex : ℕ := 0
  metadata : SizeT := 0
  dictionary : List Byte := []
  raw : List Byte := []
  deriving DecidableEq

/-- `std::numeric_limits<std::size_t>::digits`. -/
def sizeDigits : ℕ := 64

/-- `std::numeric_limits<std::size_t>::max()`. -/
def sizeMax : ℕ := 2 ^ 64 - 1

def valueFitsBits (value bits : ℕ) : Bool :=
  if bits ≥ sizeDigits then true else decide (value < 1 <<< bits)

def countFitsBits (count bits : ℕ) : Bool :=
  if bits ≥ sizeDigits then true else decide (count ≤ 1 <<< bits)

def lowBitsMask (bits : ℕ) : ℕ :=
  if bits ≥ sizeDigits then sizeMax else 1 <<< bits - 1

def validateMetadataLayout (set : PatternSet) : Except Error Unit := do
  throwIf (set.metadataBytes.val > sizeMax / 8)
    (.invalidArgument "metadata width is too large")
  throwIf (set.metadataTagBits > set.metadataBits ∨ set.metadataTagBits.val > sizeDigits)
    (.invalidArgument "metadata tag layout is invalid")
  throwIf ((set.metadataTagBits ≠ 0 ∧ set.patternIdBits.val ≥ sizeDigits) ∨
      ¬ valueFitsBits set.metadataTagValue set.metadataTagBits)
    (.invalidArgument "metadata tag layout is invalid")

/-- One turn of the loop over the sets; `targetSizes` are those of the sets before. -/
def validateSet (blockSize : SizeT) (targetSizes : List SizeT) (set : PatternSet) :
    Except Error Unit := do
  throwIf (set.targetSize = 0 ∨ set.metadataBytes ≥ set.targetSize)
    (.invalidArgument "model has invalid target/metadata sizes")
  throwIf (set.targetSize ≥ blockSize)
    (.invalidArgument "compressed target must be smaller than block size")
  throwIf (set.metadataBytes.val > sizeMax / 8 ∨
      set.metadataTagBits > set.metadataBits ∨
      set.metadataTagBits.val > sizeDigits ∨
      (set.metadataTagBits ≠ 0 ∧ set.patternIdBits.val ≥ sizeDigits) ∨
      ¬ valueFitsBits set.metadataTagValue set.metadataTagBits)
    (.invalidArgument "model has invalid metadata tag layout")
  throwIf (set.targetSize ∈ targetSizes)
    (.invalidArgument "model has duplicate target sizes")
  throwIf (¬ countFitsBits set.patterns.size set.patternIdBits)
    (.invalidArgument "pattern count exceeds metadata capacity")
  throwIf (∃ pattern ∈ set.patterns.toList,
      pattern.size ≠ blockSize ∨ pattern.rank > set.dictionarySize)
    (.invalidArgument "pattern is incompatible with model dimensions")

def validateSets (blockSize : SizeT) (targetSizes : List SizeT) :
    List PatternSet → Except Error Unit
  | [] => .ok ()
  | set :: sets => do
    validateSet blockSize targetSizes set
    validateSets blockSize (set.targetSize :: targetSizes) sets

def validateModel (model : Model) : Except Error Unit := do
  throwIf (model.blockSize = 0 ∨ model.sets = [])
    (.invalidArgument "model must have a block size and pattern sets")
  validateSets model.blockSize [] model.sets

/-- `assigned` and the dictionary are one table here: an unassigned byte is an empty slot. -/
def makeDictionary (block : Block) (pattern : Pattern) : Option (List Byte) :=
  if pattern.describes block then
    some ((SlotTable.firstWrites (List.replicate pattern.rank none) (pattern.entries block)).map
      fun slot => slot.getD 0)
  else none

def encodePatternMetadata (set : PatternSet) (patternIndex : ℕ) : Except Error SizeT := do
  validateMetadataLayout set
  throwIf (patternIndex ≥ set.patterns.size)
    (.invalidArgument "pattern index is not present in the pattern set")
  throwIf (¬ valueFitsBits patternIndex set.patternIdBits)
    (.invalidArgument "pattern index exceeds metadata capacity")
  if set.metadataTagBits = 0 then
    return Fin.ofNat _ patternIndex
  else
    return (set.metadataTagValue <<< set.patternIdBits) ||| Fin.ofNat _ patternIndex

def decodePatternMetadata (set : PatternSet) (metadata : SizeT) : Except Error ℕ := do
  validateMetadataLayout set
  throwIf (¬ valueFitsBits metadata set.metadataBits)
    (.invalidArgument "metadata exceeds its declared width")
  if set.metadataTagBits = 0 then
    throwIf (metadata.val ≥ set.patterns.size)
      (.invalidArgument "metadata identifies no pattern in the pattern set")
    return metadata.val
  else
    let patternIndex := metadata.val &&& lowBitsMask set.patternIdBits
    let tag := metadata.val >>> set.patternIdBits.val
    throwIf (tag ≠ set.metadataTagValue)
      (.invalidArgument "metadata tag does not match target pattern set")
    throwIf (patternIndex ≥ set.patterns.size)
      (.invalidArgument "metadata identifies no pattern in the pattern set")
    return patternIndex

/-- The indices of the sets, each with its set, stably sorted by target size. -/
def setOrder (model : Model) : List (PatternSet × ℕ) :=
  model.sets.zipIdx.insertionSort fun a b => a.1.targetSize ≤ b.1.targetSize

/-- The result `compress` starts from. -/
def EncodedBlock.ofRaw (block : Block) : EncodedBlock where
  originalSize := block.length
  encodedSize := block.length
  allocatedSize := block.length
  raw := block

/-- The result `compress` returns for a describing pattern, with the dictionary resized. -/
def EncodedBlock.ofPattern (block : Block) (set : PatternSet) (setIndex patternIndex : ℕ)
    (pattern : Pattern) (metadata : SizeT) (dictionary : List Byte) : EncodedBlock where
  compressed := true
  originalSize := block.length
  encodedSize := set.metadataBytes + pattern.rank
  allocatedSize := set.targetSize
  setIndex := setIndex
  patternIndex := patternIndex
  metadata := metadata
  dictionary := dictionary ++ List.replicate (set.dictionarySize - dictionary.length) 0
  raw := []

/-- The inner loop of `compress`, from one pattern index on. -/
def compressWith (block : Block) (set : PatternSet) (setIndex patternIndex : ℕ) :
    List Pattern → Except Error (Option EncodedBlock)
  | [] => .ok none
  | pattern :: patterns =>
    match makeDictionary block pattern with
    | some dictionary =>
      if dictionary.length ≤ set.dictionarySize then do
        let metadata ← encodePatternMetadata set patternIndex
        return some (.ofPattern block set setIndex patternIndex pattern metadata dictionary)
      else compressWith block set setIndex (patternIndex + 1) patterns
    | none => compressWith block set setIndex (patternIndex + 1) patterns

def compressSets (block : Block) : List (PatternSet × ℕ) → Except Error EncodedBlock
  | [] => .ok (.ofRaw block)
  | (set, setIndex) :: order => do
    throwIf (set.metadataBytes ≥ set.targetSize)
      (.invalidArgument "model has invalid target/metadata sizes")
    match ← compressWith block set setIndex 0 set.patterns.toList with
    | some encoded => return encoded
    | none => compressSets block order

def compress (block : Block) (model : Model) : Except Error EncodedBlock := do
  throwIf (block.length ≠ model.blockSize)
    (.invalidArgument "input block has incorrect size")
  compressSets block (setOrder model)

def decompress (encoded : EncodedBlock) (model : Model) : Except Error Block :=
  if encoded.compressed = false then do
    throwIf (encoded.raw.length ≠ encoded.originalSize)
      (.invalidArgument "invalid raw encoded block")
    return encoded.raw
  else
    match model.sets[encoded.setIndex]? with
    | none => .error (.invalidArgument "encoded set index is out of range")
    | some set =>
      match set.patterns.toList[encoded.patternIndex]? with
      | none => .error (.invalidArgument "encoded pattern index is out of range")
      | some pattern => do
        let metadata ← encodePatternMetadata set encoded.patternIndex
        throwIf (encoded.metadata ≠ metadata)
          (.invalidArgument "encoded metadata is inconsistent with pattern index")
        throwIf (pattern.size ≠ encoded.originalSize ∨
            encoded.dictionary.length ≠ set.dictionarySize)
          (.invalidArgument "encoded dictionary is inconsistent with pattern")
        return pattern.symbols.map fun symbol => encoded.dictionary.getD symbol.val 0

end ByteSelect
