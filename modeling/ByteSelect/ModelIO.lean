import ByteSelect.Codec
import ByteSelect.TextStream

/-! Model files: the text `save_model` writes and how `load_model` reads one. -/
namespace ByteSelect

open TextStream

/-- `Pattern::to_string`. -/
def Pattern.toText (pattern : Pattern) : Text :=
  [' '].intercalate (pattern.symbols.map fun symbol => numeral symbol.val)

/-- The extraction loop of `Pattern::parse`; every turn but the last takes a character. -/
def parseSymbols : ℕ → IStream → List Symbol → Except Error (List Symbol × IStream)
  | 0, input, symbols => .ok (symbols, input)
  | fuel + 1, input, symbols => do
    let (value, input) := readUnsigned 32 0 input
    if input.fail then
      return (symbols, input)
    else
      throwIf (value.val > 65535) (.runtimeError "pattern symbol exceeds uint16 range")
      parseSymbols fuel input (symbols ++ [Fin.ofNat _ value.val])

def Pattern.parse (text : Text) : Except Error Pattern := do
  let (symbols, input) ← parseSymbols (text.length + 1) (.ofText text) []
  throwIf (input.eof = false) (.runtimeError "invalid pattern")
  throwIf (symbols = [] ∧ text ≠ []) (.runtimeError "invalid pattern")
  return .ofSymbols symbols

/-- The words of a model file. -/
def formatWord : Text := "BSEL_MODEL".toList
def blockSizeWord : Text := "block_size".toList
def setsWord : Text := "sets".toList
def setWord : Text := "set".toList
def patternPrefix : Text := "pattern ".toList

def patternLine (pattern : Pattern) : Text := patternPrefix ++ pattern.toText ++ ['\n']

def setLine (set : PatternSet) : Text :=
  setWord ++ [' '] ++ numeral set.targetSize.val ++ [' '] ++ numeral set.metadataBytes.val ++
    [' '] ++ numeral set.metadataTagBits.val ++ [' '] ++ numeral set.metadataTagValue.val ++ [' '] ++
    numeral set.patterns.size ++ ['\n']

def setText (set : PatternSet) : Text := setLine set ++ set.patterns.toList.flatMap patternLine

def headerText (model : Model) : Text :=
  formatWord ++ [' '] ++ numeral 2 ++ ['\n'] ++ blockSizeWord ++ [' '] ++
    numeral model.blockSize.val ++ ['\n'] ++ setsWord ++ [' '] ++ numeral model.sets.length ++
    ['\n']

/-- The text `save_model` writes for a model it accepts. -/
def modelText (model : Model) : Text := headerText model ++ model.sets.flatMap setText

def saveModel (model : Model) : Except Error Text := do
  validateModel model
  return modelText model

/-- The variables of `load_model` that live across its loops. -/
structure Loader where
  token : Text
  line : Text
  input : IStream
  deriving DecidableEq

/-- The numbers of a set line, each extracted into the variable that holds its default. -/
def readSetFields (version : ℤ) (set : PatternSet) (input : IStream) :
    PatternSet × SizeT × IStream :=
  let (targetSize, input) := readUnsigned 64 set.targetSize input
  let (metadataBytes, input) := readUnsigned 64 set.metadataBytes input
  let (metadataTagBits, input) :=
    if version = 2 then readUnsigned 64 set.metadataTagBits input else (set.metadataTagBits, input)
  let (metadataTagValue, input) :=
    if version = 2 then readUnsigned 64 set.metadataTagValue input
    else (set.metadataTagValue, input)
  let (patternCount, input) := readUnsigned 64 0 input
  ({ set with targetSize, metadataBytes, metadataTagBits, metadataTagValue }, patternCount, input)

/-- `push_back`: a vector that cannot grow throws. -/
def pushBack {α : Type} (v : Vec α) (a : α) : Except Error (Vec α) :=
  if h : (v.toList ++ [a]).length < 2 ^ 63 then .ok ⟨v.toList ++ [a], h⟩
  else .error (.lengthError "vector::_M_realloc_append")

def loadPatterns (blockSize : SizeT) : ℕ → PatternSet → Loader → Except Error (PatternSet × Loader)
  | 0, set, s => .ok (set, s)
  | count + 1, set, s => do
    let (line, input) := getLine s.line s.input
    throwIf (¬ patternPrefix <+: line) (.runtimeError "missing pattern")
    let pattern ← Pattern.parse (line.drop patternPrefix.length)
    throwIf (pattern.size ≠ blockSize)
      (.runtimeError "model pattern has incorrect block size")
    let patterns ← pushBack set.patterns pattern
    loadPatterns blockSize count { set with patterns } ⟨s.token, line, input⟩

/-- One turn of the loop over the sets. -/
def loadSet (version : ℤ) (blockSize : SizeT) (s : Loader) :
    Except Error (PatternSet × Loader) := do
  let (token, input) := readWord s.token s.input
  let (set, patternCount, input) := readSetFields version {} input
  throwIf (token ≠ setWord) (.runtimeError "missing set")
  let (line, input) := getLine s.line input
  loadPatterns blockSize patternCount.val set ⟨token, line, input⟩

def loadSets (version : ℤ) (blockSize : SizeT) :
    ℕ → List PatternSet → Loader → Except Error (List PatternSet × Loader)
  | 0, sets, s => .ok (sets, s)
  | count + 1, sets, s => do
    let (set, s) ← loadSet version blockSize s
    loadSets version blockSize count (sets ++ [set]) s

/-- What the header declares: the version, the block size and the number of sets. -/
def loadHeader (text : Text) : Except Error (ℤ × SizeT × SizeT × Loader) := do
  let (token, input) := readWord [] (.ofText text)
  let (version, input) := readInt 0 input
  throwIf (token ≠ formatWord ∨ (version ≠ 1 ∧ version ≠ 2))
    (.runtimeError "unsupported model format")
  let (token, input) := readWord token input
  let (blockSize, input) := readUnsigned 64 64 input
  throwIf (token ≠ blockSizeWord) (.runtimeError "missing block_size")
  let (token, input) := readWord token input
  let (setCount, input) := readUnsigned 64 0 input
  throwIf (token ≠ setsWord) (.runtimeError "missing sets")
  let (line, input) := getLine [] input
  return (version, blockSize, setCount, ⟨token, line, input⟩)

/-- What `load_model` does after the loop over the sets. -/
def finishLoad (blockSize : SizeT) (loaded : List PatternSet × Loader) : Except Error Model := do
  throwIf ((skipSpace loaded.2.input).eof = false) (.runtimeError "unexpected trailing model data")
  validateModel ⟨blockSize, loaded.1⟩
  return ⟨blockSize, loaded.1⟩

def loadModel (text : Text) : Except Error Model := do
  let (version, blockSize, setCount, s) ← loadHeader text
  let loaded ← loadSets version blockSize setCount.val [] s
  finishLoad blockSize loaded

/-- A set line cut in its first number still loads, as a set with the defaults. -/
example : loadModel "BSEL_MODEL 2\nblock_size 4\nsets 1\nset 3".toList =
    .ok ⟨4, [{ targetSize := 3 }]⟩ := by decide

end ByteSelect
