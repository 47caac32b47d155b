import ByteSelect.Evaluation
import ByteSelect.Baseline.Bdi
import ByteSelect.Baseline.Bpc
import ByteSelect.Baseline.Cpack
import ByteSelect.Baseline.Fpc
import ByteSelect.Baseline.HuffmanLengths
import ByteSelect.Baseline.Huffman
import ByteSelect.Baseline.Lz77

/-! Evaluation of a baseline over a list of blocks. -/
namespace ByteSelect.Baseline

inductive BaselineKind where
  | fpc | bdi | hybridBdiFpc | cpack | bpc | zstd | lz4 | lz77Lite | huffman
  deriving DecidableEq

/-- The compressors that are linked in: `ZSTD_compress` at level 1, or the name of its error, and
the bytes that `LZ4_compress_default` writes, none where it fails. -/
structure Libraries where
  zstdCompress : Block → Except String (List Byte)
  lz4Compress : Block → List Byte

def zstdEncode (libraries : Libraries) (block : Block) : Except Error (List Byte) := do
  throwIf (block = []) (.invalidArgument "Zstd requires a non-empty block")
  match libraries.zstdCompress block with
  | .ok output => return output
  | .error name => throw (.runtimeError ("Zstd compression failed: " ++ name))

def lz4Encode (libraries : Libraries) (block : Block) : Except Error (List Byte) := do
  throwIf (block = []) (.invalidArgument "LZ4 requires a non-empty block")
  throwIf (block.length > 2 ^ 31 - 1) (.invalidArgument "LZ4 block is too large")
  let output := libraries.lz4Compress block
  throwIf (output = []) (.runtimeError "LZ4 compression failed")
  return output

/-- `std::min(encode(block).size(), block.size())`. -/
def encodedSize (encode : Block → Except Error (List Byte)) (block : Block) : Except Error ℕ := do
  let encoded ← encode block
  return min encoded.length block.length

def fpcEncodedSize : Block → Except Error ℕ := encodedSize fpcEncode
def bdiEncodedSize : Block → Except Error ℕ := encodedSize bdiEncode
def cpackEncodedSize : Block → Except Error ℕ := encodedSize cpackEncode
def bpcEncodedSize : Block → Except Error ℕ := encodedSize bpcEncode
def lz77LiteEncodedSize : Block → Except Error ℕ := encodedSize lz77LiteEncode
def huffmanEncodedSize : Block → Except Error ℕ := encodedSize huffmanEncode
def zstdEncodedSize (libraries : Libraries) : Block → Except Error ℕ :=
  encodedSize (zstdEncode libraries)
def lz4EncodedSize (libraries : Libraries) : Block → Except Error ℕ :=
  encodedSize (lz4Encode libraries)

def baselineEncodedSize (libraries : Libraries) (block : Block) :
    BaselineKind → Except Error ℕ
  | .fpc => fpcEncodedSize block
  | .bdi => bdiEncodedSize block
  | .hybridBdiFpc => do
    let fpc ← fpcEncodedSize block
    let bdi ← bdiEncodedSize block
    return min fpc bdi
  | .cpack => cpackEncodedSize block
  | .bpc => bpcEncodedSize block
  | .zstd => zstdEncodedSize libraries block
  | .lz4 => lz4EncodedSize libraries block
  | .lz77Lite => lz77LiteEncodedSize block
  | .huffman => huffmanEncodedSize block

/-- What is returned, and what `*target_index` is left at. -/
def quantizedSize (encodedSize blockSize : ℕ) (targets : List SizeT) (targetIndex : ℕ) : ℕ × ℕ :=
  if encodedSize ≥ blockSize then (blockSize, targetIndex)
  else match targets.findIdx? fun target => encodedSize ≤ target.val with
    | some i => ((targets.getD i 0).val, i)
    | none => (blockSize, targetIndex)

structure BaselineEvaluation where
  kind : BaselineKind := .fpc
  blocks : ℕ := 0
  originalBytes : ℕ := 0
  encodedBytes : ℕ := 0
  allocatedBytes : ℕ := 0
  compressedBlocks : ℕ := 0
  targetSizes : List SizeT := []
  targetBlocks : List ℕ := []

/-- One turn of the loop over the blocks. -/
def baselineBlock (libraries : Libraries) (kind : BaselineKind) (blockSize : ℕ)
    (result : BaselineEvaluation) (block : Block) : Except Error BaselineEvaluation := do
  throwIf (block.length ≠ blockSize)
    (.invalidArgument "baseline blocks have inconsistent sizes")
  let encodedSize ← baselineEncodedSize libraries block kind
  let (allocatedSize, targetIndex) := quantizedSize encodedSize blockSize result.targetSizes 0
  return {
    kind := result.kind
    blocks := addU64 result.blocks 1
    originalBytes := addU64 result.originalBytes blockSize
    encodedBytes := addU64 result.encodedBytes encodedSize
    allocatedBytes := addU64 result.allocatedBytes allocatedSize
    compressedBlocks := if allocatedSize < blockSize
      then addU64 result.compressedBlocks 1 else result.compressedBlocks
    targetSizes := result.targetSizes
    targetBlocks := if allocatedSize < blockSize
      then result.targetBlocks.modify targetIndex (addU64 · 1) else result.targetBlocks }

def evaluateBaseline (libraries : Libraries) (blocks : BlockVector) (kind : BaselineKind)
    (targetSizes : List SizeT) : Except Error BaselineEvaluation :=
  let targetSizes := sortUnique targetSizes
  let result : BaselineEvaluation := {
    kind := kind
    targetSizes := targetSizes
    targetBlocks := List.replicate targetSizes.length 0 }
  match blocks.toList with
  | [] => return result
  | front :: _ => do
    let blockSize := front.length
    throwIf (blockSize = 0) (.invalidArgument "baseline blocks must be non-empty")
    throwIf (targetSizes.any fun targetSize => targetSize = 0 ∨ targetSize.val ≥ blockSize)
      (.invalidArgument "baseline target must be smaller than block size")
    blocks.toList.foldlM (baselineBlock libraries kind blockSize) result

variable {libraries : Libraries} {block : Block} {kind : BaselineKind} {n size : ℕ}
  {targets : List SizeT}

theorem encodedSize_le {encode : Block → Except Error (List Byte)}
    (h : encodedSize encode block = .ok size) : size ≤ block.length := by
  obtain ⟨encoded, -, hsize⟩ := bind_eq_ok.mp h
  cases hsize
  exact min_le_right _ _

/-- No baseline is charged more than the block itself. -/
theorem baselineEncodedSize_le (h : baselineEncodedSize libraries block kind = .ok size) :
    size ≤ block.length := by
  cases kind with
  | hybridBdiFpc =>
    obtain ⟨fpc, hfpc, hrest⟩ := bind_eq_ok.mp h
    obtain ⟨bdi, -, hsize⟩ := bind_eq_ok.mp hrest
    cases hsize
    exact (min_le_left _ _).trans (encodedSize_le hfpc)
  | fpc => exact encodedSize_le h
  | bdi => exact encodedSize_le h
  | cpack => exact encodedSize_le h
  | bpc => exact encodedSize_le h
  | zstd => exact encodedSize_le h
  | lz4 => exact encodedSize_le h
  | lz77Lite => exact encodedSize_le h
  | huffman => exact encodedSize_le h

/-- A block is allocated what it takes, or the first target that holds it. -/
theorem quantizedSize_cases (size n : ℕ) (targets : List SizeT) (targetIndex : ℕ) :
    (quantizedSize size n targets targetIndex).1 = n ∨
      ∃ target, targets[(quantizedSize size n targets targetIndex).2]? = some target ∧
        (quantizedSize size n targets targetIndex).1 = target.val ∧ size ≤ target.val := by
  unfold quantizedSize
  split
  · exact .inl rfl
  · split
    · rename_i i hi
      obtain ⟨hlt, hfits, -⟩ := List.findIdx?_eq_some_iff_getElem.mp hi
      refine .inr ⟨targets[i], List.getElem?_eq_getElem hlt, ?_, of_decide_eq_true hfits⟩
      rw [List.getD_eq_getElem?_getD, List.getElem?_eq_getElem hlt]
      rfl
    · exact .inl rfl

end ByteSelect.Baseline
