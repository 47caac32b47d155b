import ByteSelect.Container
import ByteSelect.FpcBsel.Codec

/-! The container: the size of the input, then one frame for each of its blocks. -/
namespace FpcBsel

open ByteSelect (Byte Error Vec throwIf fullBlocks)

def putU64 (value : ℕ) : Bytes := (List.range 8).map fun i => toByte (value >>> (8 * i))

def getU64 (data : Bytes) (offset : ℕ) : Except Error ℕ := do
  throwIf (offset + 8 > data.length) (.runtimeError "truncated container")
  return (List.range 8).foldl
    (fun value i => value ||| (data.getD (offset + i) 0).val <<< (8 * i)) 0

def blocksFrom (data : Bytes) : Except Error (List Bytes) := do
  throwIf (data = [] ∨ data.length % kBlockSize ≠ 0)
    (.invalidArgument "input size must be a non-zero multiple of 64 bytes")
  return fullBlocks kBlockSize data

/-- The text `FPCBSF1` and the zero after it. -/
def containerMagic : Bytes := [70, 80, 67, 66, 83, 70, 49, 0]

/-- One turn of the loop of `compress_file`. -/
def compressBlock (model : Model) (output block : Bytes) : Except Error Bytes := do
  let encoded ← encodeBlock block model
  let size ← putU16 encoded.bytes.length (.runtimeError "encoded block is too large")
  return output ++ size ++ encoded.bytes

def compressFile (input : Vec Byte) (model : Model) : Except Error Bytes := do
  let blocks ← blocksFrom input.toList
  blocks.foldlM (compressBlock model) (containerMagic ++ putU64 input.size)

/-- The loop of `decompress_file` from `offset` on. -/
def decodeFrames (input : Bytes) (model : Model) (offset : ℕ) (output : Bytes) :
    Except Error Bytes :=
  if offset < input.length then do
    let size ← getU16 input offset (.runtimeError "truncated container")
    throwIf (offset + 2 + size > input.length) (.runtimeError "truncated encoded block")
    let block ← decodeBlock ((input.drop (offset + 2)).take size) model
    decodeFrames input model (offset + 2 + size) (output ++ block)
  else return output
termination_by input.length - offset

def decompressFile (input : Bytes) (model : Model) : Except Error Bytes := do
  throwIf (input.length < 16 ∨ input.take 8 ≠ containerMagic)
    (.runtimeError "unsupported FPC-BSEL container")
  let originalSize ← getU64 input 8
  throwIf (originalSize = 0 ∨ originalSize % kBlockSize ≠ 0)
    (.runtimeError "invalid original size in container")
  -- `reserve` refuses what no vector can hold
  throwIf (originalSize ≥ 2 ^ 63) (.lengthError "vector::reserve")
  let output ← decodeFrames input model 16 []
  throwIf (output.length ≠ originalSize) (.runtimeError "container block count is inconsistent")
  return output

end FpcBsel
