import ByteSelect.Commands
import ByteSelect.FpcBsel.ContainerExact
import ByteSelect.FpcBsel.ModelFile
import ByteSelect.FpcBsel.Training

/-! The commands of the codec: a model trained for both streams, files through the container, and
the counters that evaluation prints. -/
namespace FpcBsel

open ByteSelect BitStream Loops TextStream

def trainModel (blocks : List Bytes) (maxPatterns : ℕ) : Except Error Model := do
  throwIf (blocks = []) (.invalidArgument "training input has no complete blocks")
  let parts ← blocks.mapM splitFpc
  let prefixModel ← trainBsel (parts.map FpcParts.tags) maxPatterns
  let residual ← trainBsel (parts.map FpcParts.residualBlock) maxPatterns
  return { prefixModel := prefixModel, residual := residual }

def parseCount (text : Text) : Except String ℕ := do
  let (value, rest) ← stoull text
  if rest ≠ [] ∨ value = 0 ∨ value.val > 65535 then throw "invalid max-patterns"
  else return value.val

/-! The counters of `evaluate` and `roundtrip`. -/

structure Tally where
  physicalBytes : ℕ := 0
  encodedBytes : ℕ := 0
  raw : ℕ := 0
  fpc : ℕ := 0
  combined : ℕ := 0
  prefixBsel : ℕ := 0
  residualBsel : ℕ := 0
  deriving DecidableEq

def Tally.add (tally : Tally) (encoded : EncodedBlock) : Tally :=
  -- `size() - 1` of unsigned numbers
  let tally := { tally with
    physicalBytes := addU64 tally.physicalBytes encoded.bytes.length
    encodedBytes := addU64 tally.encodedBytes (addU64 encoded.bytes.length (2 ^ 64 - 1)) }
  match encoded.mode with
  | .raw => { tally with raw := addU64 tally.raw 1 }
  | .fpc => { tally with fpc := addU64 tally.fpc 1 }
  | .fpcBsel => { tally with
      combined := addU64 tally.combined 1
      prefixBsel := addU64 tally.prefixBsel (if encoded.prefixBsel then 1 else 0)
      residualBsel := addU64 tally.residualBsel (if encoded.residualBsel then 1 else 0) }

/-- One turn of the loop; `roundtrip` decodes what it has encoded. -/
def evaluateBlock (model : Model) (roundtrip : Bool) (tally : Tally) (block : Bytes) :
    Except Error Tally := do
  let encoded ← encodeBlock block model
  if roundtrip then
    let decoded ← decodeBlock encoded.bytes model
    throwIf (decoded ≠ block) (.runtimeError "round-trip mismatch")
    return tally.add encoded
  else return tally.add encoded

/-! Commands. -/

inductive Report where
  | usage
  | trained (blocks prefixPatterns residualPatterns : ℕ)
  | coded (inputBytes outputBytes : ℕ)
  | evaluated (blocks originalBytes : ℕ) (tally : Tally)
  deriving DecidableEq

abbrev Outcome := Sessions.Outcome Text (List Byte) String Report

def readFile (files : Files) (path : Text) : Except String (Vec Byte) :=
  match openFile files path with
  | none => throw ("cannot open input: " ++ String.ofList path)
  | some bytes => return bytes

def loadModelFile (files : Files) (path : Text) : Except String Model :=
  match openFile files path with
  | none => throw ("cannot open model: " ++ String.ofList path)
  | some bytes => (loadModel bytes.toList).mapError Error.what

def parseMaxPatterns : List Text → Except String ℕ
  | [] => return 256
  | [option, count] =>
    if option ≠ "--max-patterns".toList then throw "expected --max-patterns"
    else parseCount count
  | _ => throw "invalid train arguments"

/-- What `write_set` has written when it returns, or throws at a pattern of the wrong size. -/
def setWritten (set : BselModel) : Bytes :=
  writeU32 set.blockSize ++ writeU32 set.patterns.length ++
    patternBytes (set.patterns.takeWhile fun pattern => pattern.symbols.length = set.blockSize)

/-- What `save_model` has written when it returns or throws. -/
def modelWritten (model : Model) : Bytes :=
  modelMagic ++ writeU32 1 ++ setWritten model.prefixModel ++
    match writeSet model.prefixModel with
    | .error _ => []
    | .ok _ => setWritten model.residual

/-- The file is created before the patterns are looked at. -/
def saveModelFile (writable : Text → Bool) (files : Files) (path : Text) (model : Model) :
    Except String Unit × Files :=
  if writable path then
    (match saveModel model with
      | .error e => .error e.what
      | .ok _ => .ok (), Sessions.write files path (modelWritten model))
  else (.error ("cannot create model: " ++ String.ofList path), files)

/-- `train` up to the saving of the model: the number of blocks and the model. -/
def trainFile (files : Files) (input : Text) (options : List Text) : Except String (ℕ × Model) := do
  let maxPatterns ← parseMaxPatterns options
  let bytes ← readFile files input
  let blocks ← (blocksFrom bytes.toList).mapError Error.what
  let model ← (trainModel blocks maxPatterns).mapError Error.what
  return (blocks.length, model)

def runTrain (writable : Text → Bool) (files : Files) : List Text → Outcome
  | input :: modelPath :: options =>
    match trainFile files input options with
    | .error e => (.error e, files)
    | .ok (blocks, model) =>
      match saveModelFile writable files modelPath model with
      | (.error e, files) => (.error e, files)
      | (.ok (), files) =>
        (.ok (.trained blocks model.prefixModel.patterns.length model.residual.patterns.length),
          files)
  | _ => (.error "invalid train arguments", files)

/-- `compress` and `decompress` up to the writing of the output: the size of the input and the
output. -/
def codeFile (files : Files) (compressing : Bool) (modelPath input : Text) :
    Except String (ℕ × Bytes) := do
  let model ← loadModelFile files modelPath
  let bytes ← readFile files input
  let coded ← (if compressing then compressFile bytes model
    else decompressFile bytes.toList model).mapError Error.what
  return (bytes.size, coded)

def runCodec (writable : Text → Bool) (files : Files) (compressing : Bool) : List Text → Outcome
  | [modelPath, input, output] =>
    match codeFile files compressing modelPath input with
    | .error e => (.error e, files)
    | .ok (size, coded) =>
      if writable output then
        (.ok (.coded size coded.length), Sessions.write files output coded)
      else (.error ("cannot create output: " ++ String.ofList output), files)
  | _ => (.error "invalid codec arguments", files)

def runEvaluate (files : Files) (roundtrip : Bool) : List Text → Except String Report
  | [modelPath, input] => do
    let model ← loadModelFile files modelPath
    let bytes ← readFile files input
    let blocks ← (blocksFrom bytes.toList).mapError Error.what
    let tally ← (blocks.foldlM (evaluateBlock model roundtrip) {}).mapError Error.what
    return .evaluated blocks.length bytes.size tally
  | _ => throw "invalid evaluation arguments"

/-- `main`, without the name of the program. -/
def run (writable : Text → Bool) (files : Files) : List Text → Outcome
  | [] => (.ok .usage, files)
  | command :: args =>
    if command = "train".toList then runTrain writable files args
    else if command = "compress".toList ∨ command = "decompress".toList then
      runCodec writable files (command = "compress".toList) args
    else if command = "evaluate".toList ∨ command = "roundtrip".toList then
      (runEvaluate files (command = "roundtrip".toList) args, files)
    else (.ok .usage, files)

/-- The path a command writes, if it writes one. -/
def output : List Text → Option Text
  | [] => none
  | command :: args =>
    if command = "train".toList then args[1]?
    else if command = "compress".toList ∨ command = "decompress".toList then args[2]?
    else none

/-! Training. -/

variable {blocks : List Bytes} {block : Bytes} {model : Model} {maxPatterns : ℕ}

theorem countBlocks_ok {blockSize : ℕ} (hpos : blockSize ≠ 0)
    (hsize : ∀ block ∈ blocks, block.length = blockSize) (counts : List (ℕ × Pattern)) :
    ∃ counted, blocks.foldlM (countBlock blockSize) counts = .ok counted := by
  induction blocks generalizing counts with
  | nil => exact ⟨counts, rfl⟩
  | cons block blocks ih =>
    rw [List.forall_mem_cons] at hsize
    obtain ⟨hfirst, hrest⟩ := hsize
    have hne : block ≠ [] := by
      rintro rfl
      exact hpos hfirst.symm
    have hcount : countBlock blockSize counts block =
        .ok (countPattern (simplest block) counts) := by
      rw [countBlock, throwIf_neg (not_not.mpr hfirst), ok_bind, simplestPattern, throwIf_neg hne]
      rfl
    obtain ⟨counted, hcounted⟩ := ih hrest (countPattern (simplest block) counts)
    refine ⟨counted, ?_⟩
    rw [List.foldlM_cons, hcount]
    exact hcounted

theorem trainBsel_ok {blockSize : ℕ} (hpos : blockSize ≠ 0) (hne : blocks ≠ [])
    (hsize : ∀ block ∈ blocks, block.length = blockSize) (hmin : maxPatterns ≠ 0)
    (hmax : maxPatterns ≤ 65535) :
    ∃ trained, trainBsel blocks maxPatterns = .ok trained ∧ trained.blockSize = blockSize ∧
      Trained blocks maxPatterns trained := by
  obtain ⟨first, rest, rfl⟩ := List.exists_cons_of_ne_nil hne
  have hfirst : first.length = blockSize := hsize first List.mem_cons_self
  have hconfig : ¬ (first :: rest = [] ∨ maxPatterns = 0 ∨ maxPatterns > 65535) := by
    rintro (hnil | hzero | hlarge)
    · exact hne hnil
    · exact hmin hzero
    · exact absurd hmax (not_le.mpr hlarge)
  obtain ⟨counts, hcounts⟩ := countBlocks_ok hpos hsize []
  have htrain : ∃ trained, trainBsel (first :: rest) maxPatterns = .ok trained ∧
      trained.blockSize = blockSize := by
    rw [← hfirst] at hcounts ⊢
    rw [trainBsel, throwIf_neg hconfig, ok_bind]
    dsimp only [List.headD_cons]
    rw [hcounts]
    exact ⟨_, rfl, rfl⟩
  obtain ⟨trained, hrun, hblockSize⟩ := htrain
  exact ⟨trained, hrun, hblockSize, trained_of_trainBsel hrun⟩

/-- The streams of a block that the two sets of patterns are for. -/
def tagVectors (blocks : List Bytes) : List Bytes := blocks.map fun block => tagsOf (words block)

def residualBlocks (blocks : List Bytes) : List Bytes :=
  blocks.map fun block => residualOf (words block)

theorem trainModel_ok (hne : blocks ≠ []) (hsize : ∀ block ∈ blocks, block.length = kBlockSize)
    (hmin : maxPatterns ≠ 0) (hmax : maxPatterns ≤ 65535) :
    ∃ model, trainModel blocks maxPatterns = .ok model ∧ Dimensions model ∧
      Trained (tagVectors blocks) maxPatterns model.prefixModel ∧
      Trained (residualBlocks blocks) maxPatterns model.residual := by
  have hparts : blocks.mapM splitFpc = .ok (blocks.map fun block => partsOf (words block)) := by
    rw [mapM_eq_ok_iff, List.forall₂_map_right_iff, List.forall₂_same]
    intro block hblock
    exact splitFpc_eq (hsize block hblock)
  have htags : ∀ tags ∈ tagVectors blocks, tags.length = kWordCount := by
    intro tags hmem
    obtain ⟨block, -, rfl⟩ := List.mem_map.mp hmem
    rw [tagsOf, List.length_map]
    exact length_words block
  have hresiduals : ∀ residual ∈ residualBlocks blocks, residual.length = kBlockSize := by
    intro residual hmem
    obtain ⟨block, -, rfl⟩ := List.mem_map.mp hmem
    rw [length_residualOf, length_words]
    rfl
  have htagsNe : tagVectors blocks ≠ [] := fun hnil => hne (List.map_eq_nil_iff.mp hnil)
  have hresidualsNe : residualBlocks blocks ≠ [] := fun hnil => hne (List.map_eq_nil_iff.mp hnil)
  obtain ⟨prefixModel, hprefixes, hprefixSize, hprefixTrained⟩ :=
    trainBsel_ok (by decide) htagsNe htags hmin hmax
  obtain ⟨residual, hresidual, hresidualSize, hresidualTrained⟩ :=
    trainBsel_ok (by decide) hresidualsNe hresiduals hmin hmax
  refine ⟨⟨prefixModel, residual⟩, ?_, ?_, hprefixTrained, hresidualTrained⟩
  · rw [trainModel, throwIf_neg hne, ok_bind, hparts, ok_bind, List.map_map, List.map_map]
    change (trainBsel (tagVectors blocks) maxPatterns >>= _) = _
    rw [hprefixes, ok_bind]
    change (trainBsel (residualBlocks blocks) maxPatterns >>= _) = _
    rw [hresidual]
    rfl
  · exact ⟨hprefixSize, hresidualSize, hprefixSize ▸ hprefixTrained.sizes,
      hresidualSize ▸ hresidualTrained.sizes, hprefixTrained.count_le, hresidualTrained.count_le⟩

/-! The counters. -/

/-- A block, what it is encoded as, and that this is decoded again. -/
structure Coded (model : Model) (block : Bytes) (encoded : EncodedBlock) : Prop where
  encode_eq : encodeBlock block model = .ok encoded
  decode_eq : decodeBlock encoded.bytes model = .ok block
  pos : 0 < encoded.bytes.length
  length_le : encoded.bytes.length ≤ 65

theorem exists_coded (hm : Dimensions model) (hsize : ∀ block ∈ blocks, block.length = kBlockSize) :
    ∃ encodeds, List.Forall₂ (Coded model) blocks encodeds := by
  induction blocks with
  | nil => exact ⟨[], .nil⟩
  | cons block blocks ih =>
    rw [List.forall_mem_cons] at hsize
    obtain ⟨encoded, -, hencode, -, hdecode, hpos, hle, -⟩ := encodeBlock_ok hm hsize.1
    obtain ⟨encodeds, hrest⟩ := ih hsize.2
    exact ⟨encoded :: encodeds, .cons ⟨hencode, hdecode, hpos, hle⟩ hrest⟩

variable {encoded : EncodedBlock} {encodeds : List EncodedBlock} {tally : Tally}

def physicalSize (encodeds : List EncodedBlock) : ℕ :=
  (encodeds.map fun encoded => encoded.bytes.length).sum

theorem physicalSize_cons : physicalSize (encoded :: encodeds) =
    encoded.bytes.length + physicalSize encodeds :=
  List.sum_cons

theorem physicalSize_le (hcoded : List.Forall₂ (Coded model) blocks encodeds) :
    physicalSize encodeds ≤ 65 * encodeds.length := by
  induction hcoded with
  | nil => exact le_rfl
  | cons hblock _ ih =>
    have hle := hblock.length_le
    rw [physicalSize_cons, List.length_cons]
    omega

/-- Counters that have booked these blocks. -/
structure Tally.Books (tally : Tally) (encodeds : List EncodedBlock) : Prop where
  physical_eq : tally.physicalBytes = physicalSize encodeds
  encoded_add : tally.encodedBytes + encodeds.length = tally.physicalBytes
  modes_eq : tally.raw + tally.fpc + tally.combined = encodeds.length
  prefix_le : tally.prefixBsel ≤ tally.combined
  residual_le : tally.residualBsel ≤ tally.combined
  physical_le : tally.physicalBytes ≤ 65 * encodeds.length

/-- No counter starts over below a number of blocks that no vector of bytes has. -/
theorem Tally.Books.add (h : tally.Books encodeds) (hcoded : Coded model block encoded)
    (hfew : encodeds.length < 2 ^ 57) : (tally.add encoded).Books (encodeds ++ [encoded]) := by
  obtain ⟨hphysical, hencoded, hmodes, hprefixes, hresidual, hle⟩ := h
  have hpos := hcoded.pos
  have h65 := hcoded.length_le
  have hsize : physicalSize (encodeds ++ [encoded]) =
      physicalSize encodeds + encoded.bytes.length := by
    simp [physicalSize]
  have hlength : (encodeds ++ [encoded]).length = encodeds.length + 1 := List.length_append
  have hbit : ∀ b : Bool, (if b then 1 else 0) ≤ 1 := by decide
  have hp := hbit encoded.prefixBsel
  have hr := hbit encoded.residualBsel
  unfold Tally.add addU64
  cases encoded.mode with
  | raw => constructor <;> simp only [hsize, hlength] <;> omega
  | fpc => constructor <;> simp only [hsize, hlength] <;> omega
  | fpcBsel => constructor <;> simp only [hsize, hlength] <;> omega

theorem evaluateBlocks_eq (roundtrip : Bool) (hcoded : List.Forall₂ (Coded model) blocks encodeds)
    (tally : Tally) : blocks.foldlM (evaluateBlock model roundtrip) tally =
      .ok (encodeds.foldl Tally.add tally) := by
  induction hcoded generalizing tally with
  | nil => rfl
  | @cons block encoded blocks encodeds hblock _ ih =>
    have hstep : evaluateBlock model roundtrip tally block = .ok (tally.add encoded) := by
      rw [evaluateBlock, hblock.encode_eq, ok_bind]
      cases roundtrip with
      | false => rfl
      | true =>
        rw [if_pos rfl, hblock.decode_eq, ok_bind, throwIf_neg (not_not.mpr rfl)]
        rfl
    rw [List.foldlM_cons, hstep]
    exact ih (tally.add encoded)

theorem Tally.Books.foldl {before : List EncodedBlock} (h : tally.Books before)
    (hcoded : List.Forall₂ (Coded model) blocks encodeds)
    (hfew : before.length + blocks.length ≤ 2 ^ 57) :
    (encodeds.foldl Tally.add tally).Books (before ++ encodeds) := by
  induction hcoded generalizing tally before with
  | nil =>
    rw [List.append_nil]
    exact h
  | cons hblock _ ih =>
    rw [List.length_cons] at hfew
    have hnext := h.add hblock (by omega)
    rw [List.append_cons]
    refine ih hnext ?_
    rw [List.length_append, List.length_singleton]
    omega

/-! The container. -/

theorem compressBlocks_eq (hcoded : List.Forall₂ (Coded model) blocks encodeds) (output : Bytes) :
    ∃ frames, blocks.foldlM (compressBlock model) output = .ok (output ++ frames) ∧
      frames.length = 2 * encodeds.length + physicalSize encodeds := by
  induction hcoded generalizing output with
  | nil => exact ⟨[], by rw [List.append_nil]; rfl, rfl⟩
  | @cons block encoded blocks encodeds hblock _ ih =>
    have hsize : encoded.bytes.length ≤ 0xffff := hblock.length_le.trans (by decide)
    have hstep : compressBlock model output block =
        .ok (output ++ u16Bytes encoded.bytes.length ++ encoded.bytes) := by
      rw [compressBlock, hblock.encode_eq, ok_bind, putU16_ok hsize, ok_bind]
      rfl
    obtain ⟨frames, hrun, hlength⟩ := ih (output ++ u16Bytes encoded.bytes.length ++ encoded.bytes)
    refine ⟨u16Bytes encoded.bytes.length ++ encoded.bytes ++ frames, ?_, ?_⟩
    · rw [List.foldlM_cons, hstep, ok_bind, hrun]
      simp only [List.append_assoc]
    · have htwo : (u16Bytes encoded.bytes.length).length = 2 := rfl
      rw [List.length_append, List.length_append, List.length_cons, hlength, htwo,
        physicalSize_cons]
      omega

/-- A file that the commands accept: whole blocks, one at least. -/
structure Whole (bytes : Vec Byte) : Prop where
  ne : bytes.toList ≠ []
  mod_eq : bytes.size % kBlockSize = 0

theorem Whole.blocksFrom_eq {bytes : Vec Byte} (h : Whole bytes) :
    blocksFrom bytes.toList = .ok (fullBlocks kBlockSize bytes.toList) := by
  have hcheck : ¬ (bytes.toList = [] ∨ bytes.toList.length % kBlockSize ≠ 0) := by
    rintro (hnil | hpart)
    · exact h.ne hnil
    · exact hpart h.mod_eq
  rw [blocksFrom, throwIf_neg hcheck]
  rfl

theorem Whole.of_blocksFrom {bytes : Vec Byte} {blocks : List Bytes}
    (h : blocksFrom bytes.toList = .ok blocks) : Whole bytes := by
  obtain ⟨hcheck, -⟩ := check_bind_eq_ok.mp h
  rw [throwIf_eq_ok, not_or, not_not] at hcheck
  exact ⟨hcheck.1, hcheck.2⟩

theorem Whole.compressFile_eq {bytes : Vec Byte} (h : Whole bytes)
    (hcoded : List.Forall₂ (Coded model) (fullBlocks kBlockSize bytes.toList) encodeds) :
    ∃ container, compressFile bytes model = .ok container ∧
      container.length = 16 + 2 * encodeds.length + physicalSize encodeds := by
  obtain ⟨frames, hrun, hlength⟩ := compressBlocks_eq hcoded (containerMagic ++ putU64 bytes.size)
  refine ⟨containerMagic ++ putU64 bytes.size ++ frames, ?_, ?_⟩
  · rw [compressFile, h.blocksFrom_eq]
    exact hrun
  · have hheader : (containerMagic ++ putU64 bytes.size).length = 16 := rfl
    rw [List.length_append, hheader, hlength, Nat.add_assoc]

/-! One command. -/

variable {writable : Text → Bool} {files : Files} {command options : List Text}
  {modelPath input path : Text} {bytes : Vec Byte} {count : ℕ}

theorem parseCount_bounds {text : Text} (h : parseCount text = .ok count) :
    count ≠ 0 ∧ count ≤ 65535 := by
  obtain ⟨⟨value, rest⟩, -, h⟩ := bind_eq_ok_iff.mp h
  dsimp only at h
  split at h
  · cases h
  · rename_i hbounds
    cases h
    rw [not_or, not_or, not_lt] at hbounds
    exact ⟨fun hzero => hbounds.2.1 (Fin.ext hzero), hbounds.2.2⟩

theorem parseMaxPatterns_bounds (h : parseMaxPatterns options = .ok count) :
    count ≠ 0 ∧ count ≤ 65535 := by
  unfold parseMaxPatterns at h
  split at h
  · cases h
    decide
  · split at h
    · cases h
    · exact parseCount_bounds h
  · cases h

theorem readFile_eq_ok : readFile files path = .ok bytes ↔ openFile files path = some bytes := by
  unfold readFile
  cases openFile files path with
  | none => exact iff_of_false (fun h => by cases h) fun h => by cases h
  | some found => exact ⟨fun h => congrArg some (Except.ok.inj h), fun h => by cases h; rfl⟩

theorem Whole.trainModel_ok (h : Whole bytes) (hmin : count ≠ 0) (hmax : count ≤ 65535) :
    ∃ model, trainModel (fullBlocks kBlockSize bytes.toList) count = .ok model ∧
      Dimensions model := by
  have hne : fullBlocks kBlockSize bytes.toList ≠ [] := by
    intro hnil
    have hlength := length_fullBlocks kBlockSize bytes.toList
    have hsplit := Nat.div_add_mod' bytes.size kBlockSize
    rw [hnil] at hlength
    rw [h.mod_eq, Vec.size, ← hlength] at hsplit
    exact h.ne (List.eq_nil_of_length_eq_zero hsplit.symm)
  obtain ⟨model, hrun, hm, -⟩ := FpcBsel.trainModel_ok hne length_of_mem_fullBlocks hmin hmax
  exact ⟨model, hrun, hm⟩

/-- Training fails on its options and on files that are not whole blocks alone. -/
theorem trainFile_succeeds_iff : (∃ trained, trainFile files input options = .ok trained) ↔
    (∃ count, parseMaxPatterns options = .ok count) ∧
      ∃ bytes, openFile files input = some bytes ∧ Whole bytes := by
  unfold trainFile
  constructor
  · rintro ⟨trained, h⟩
    obtain ⟨count, hcount, h⟩ := bind_eq_ok_iff.mp h
    obtain ⟨bytes, hbytes, h⟩ := bind_eq_ok_iff.mp h
    obtain ⟨blocks, hblocks, -⟩ := bind_eq_ok_iff.mp h
    exact ⟨⟨count, hcount⟩, bytes, readFile_eq_ok.mp hbytes,
      Whole.of_blocksFrom (mapError_eq_ok.mp hblocks)⟩
  · rintro ⟨⟨count, hcount⟩, bytes, hbytes, hwhole⟩
    obtain ⟨hmin, hmax⟩ := parseMaxPatterns_bounds hcount
    obtain ⟨model, htrain, -⟩ := hwhole.trainModel_ok hmin hmax
    refine ⟨((fullBlocks kBlockSize bytes.toList).length, model), ?_⟩
    refine bind_eq_ok_iff.mpr ⟨count, hcount, ?_⟩
    refine bind_eq_ok_iff.mpr ⟨bytes, readFile_eq_ok.mpr hbytes, ?_⟩
    refine bind_eq_ok_iff.mpr ⟨_, mapError_eq_ok.mpr hwhole.blocksFrom_eq, ?_⟩
    exact bind_eq_ok_iff.mpr ⟨model, mapError_eq_ok.mpr htrain, rfl⟩

theorem dimensions_of_trainFile {blocks : ℕ}
    (h : trainFile files input options = .ok (blocks, model)) : Dimensions model := by
  obtain ⟨count, hcount, h⟩ := bind_eq_ok_iff.mp h
  obtain ⟨bytes, -, h⟩ := bind_eq_ok_iff.mp h
  obtain ⟨found, hfound, h⟩ := bind_eq_ok_iff.mp h
  obtain ⟨trained, htrained, h⟩ := bind_eq_ok_iff.mp h
  cases h
  have hwhole := Whole.of_blocksFrom (mapError_eq_ok.mp hfound)
  obtain ⟨hmin, hmax⟩ := parseMaxPatterns_bounds hcount
  obtain ⟨model', hrun, hm⟩ := hwhole.trainModel_ok hmin hmax
  rw [mapError_eq_ok, hwhole.blocksFrom_eq] at hfound
  obtain rfl := Except.ok.inj hfound
  obtain rfl := Except.ok.inj ((mapError_eq_ok.mp htrained).symm.trans hrun)
  exact hm

theorem setWritten_eq {set : BselModel}
    (h : ∀ pattern ∈ set.patterns, pattern.symbols.length = set.blockSize) :
    setWritten set = setBytes set := by
  have hall : ∀ pattern ∈ set.patterns, decide (pattern.symbols.length = set.blockSize) = true :=
    fun pattern hpattern => decide_eq_true (h pattern hpattern)
  rw [setWritten, List.takeWhile_eq_self_iff.mpr hall]
  rfl

theorem modelWritten_eq (hm : Dimensions model) : modelWritten model = modelBytes model := by
  have hprefixes := hm.prefix_size ▸ hm.prefix_symbols
  have hresiduals := hm.residual_size ▸ hm.residual_symbols
  rw [modelWritten, writeSet_eq hprefixes, setWritten_eq hprefixes]
  dsimp only
  rw [setWritten_eq hresiduals]
  rfl

theorem saveModelFile_eq (hm : Dimensions model) : saveModelFile writable files path model =
    if writable path then (.ok (), Sessions.write files path (modelBytes model))
    else (.error ("cannot create model: " ++ String.ofList path), files) := by
  rw [saveModelFile, saveModel_eq hm, modelWritten_eq hm]

/-- What a command does to the files: it fails or reports and leaves them as they are, or it writes
the model it has trained, or the output of the codec. -/
inductive Effect (writable : Text → Bool) (files : Files) (command : List Text) : Outcome → Prop
  | failed (e : String) : Effect writable files command (.error e, files)
  | reported (report : Report) (hnone : output command = none) :
      Effect writable files command (.ok report, files)
  | trained {path : Text} {model : Model} (report : Report)
      (hhead : command.head? = some "train".toList) (hpath : output command = some path)
      (hwritable : writable path = true) (hm : Dimensions model) :
      Effect writable files command (.ok report, Sessions.write files path (modelBytes model))
  | coded {path : Text} (report : Report) (bytes : Bytes)
      (hhead : command.head? ≠ some "train".toList) (hpath : output command = some path)
      (hwritable : writable path = true) :
      Effect writable files command (.ok report, Sessions.write files path bytes)

theorem effect_run (writable : Text → Bool) (files : Files) (command : List Text) :
    Effect writable files command (run writable files command) := by
  rcases command with _ | ⟨name, args⟩
  · exact .reported _ rfl
  unfold run
  dsimp only
  split
  · rename_i htrain
    subst htrain
    unfold runTrain
    split
    · split
      · exact .failed _
      · rename_i modelPath _ _ _ _ hrun
        have hm := dimensions_of_trainFile hrun
        rw [saveModelFile_eq hm]
        by_cases hwritable : writable modelPath = true
        · rw [if_pos hwritable]
          exact .trained _ rfl rfl hwritable hm
        · rw [if_neg hwritable]
          exact .failed _
    · exact .failed _
  · rename_i htrain
    have hhead : (name :: args).head? ≠ some "train".toList := fun h => htrain (Option.some.inj h)
    split
    · rename_i hcodec
      unfold runCodec
      split
      · split
        · exact .failed _
        · split
          · rename_i hwritable
            refine .coded _ _ hhead ?_ hwritable
            rw [output, if_neg htrain, if_pos hcodec]
            rfl
          · exact .failed _
      · exact .failed _
    · rename_i hcodec
      have hnone : output (name :: args) = none := by
        rw [output, if_neg htrain, if_neg hcodec]
      split
      · cases runEvaluate files _ args with
        | error e => exact .failed e
        | ok report => exact .reported report hnone
      · exact .reported _ hnone

theorem wrote_run (writable : Text → Bool) (files : Files) (command : List Text) :
    Sessions.Wrote writable files (output command) (run writable files command) := by
  have heffect := effect_run writable files command
  generalize run writable files command = outcome at heffect ⊢
  cases heffect with
  | failed e => exact .failed e
  | reported report hnone => exact .reported report hnone
  | trained report hhead hpath hwritable hm => exact .wrote report _ hpath hwritable
  | coded report bytes hhead hpath hwritable => exact .wrote report _ hpath hwritable

theorem dimensions_of_loadModelFile (h : loadModelFile files path = .ok model) :
    Dimensions model := by
  unfold loadModelFile at h
  split at h
  · cases h
  · exact (modelBytes_of_loadModel (mapError_eq_ok.mp h)).1

theorem run_codec {coded : Bytes} (compressing : Bool)
    (hcode : codeFile files compressing modelPath input = .ok (bytes.size, coded))
    (hwritable : writable path = true) :
    run writable files
        [if compressing then "compress".toList else "decompress".toList, modelPath, input, path] =
      (.ok (.coded bytes.size coded.length), Sessions.write files path coded) := by
  have hrun : run writable files
      [if compressing then "compress".toList else "decompress".toList, modelPath, input, path] =
      runCodec writable files compressing [modelPath, input, path] := by
    cases compressing <;> rfl
  rw [hrun, runCodec, hcode]
  dsimp only
  rw [if_pos hwritable]

theorem codeFile_compress {container : Bytes} (hmodel : loadModelFile files modelPath = .ok model)
    (hinput : openFile files input = some bytes)
    (hcompress : compressFile bytes model = .ok container) :
    codeFile files true modelPath input = .ok (bytes.size, container) := by
  refine bind_eq_ok_iff.mpr ⟨model, hmodel, ?_⟩
  refine bind_eq_ok_iff.mpr ⟨bytes, readFile_eq_ok.mpr hinput, ?_⟩
  exact bind_eq_ok_iff.mpr ⟨container, mapError_eq_ok.mpr hcompress, rfl⟩

theorem codeFile_decompress {out : Bytes} (hmodel : loadModelFile files modelPath = .ok model)
    (hinput : openFile files input = some bytes)
    (hdecompress : decompressFile bytes.toList model = .ok out) :
    codeFile files false modelPath input = .ok (bytes.size, out) := by
  refine bind_eq_ok_iff.mpr ⟨model, hmodel, ?_⟩
  refine bind_eq_ok_iff.mpr ⟨bytes, readFile_eq_ok.mpr hinput, ?_⟩
  exact bind_eq_ok_iff.mpr ⟨out, mapError_eq_ok.mpr hdecompress, rfl⟩

theorem runEvaluate_ok (roundtrip : Bool) (hmodel : loadModelFile files modelPath = .ok model)
    (hinput : openFile files input = some bytes) (hwhole : Whole bytes)
    (hcoded : List.Forall₂ (Coded model) (fullBlocks kBlockSize bytes.toList) encodeds) :
    runEvaluate files roundtrip [modelPath, input] =
      .ok (.evaluated (bytes.size / kBlockSize) bytes.size (encodeds.foldl Tally.add {})) := by
  refine bind_eq_ok_iff.mpr ⟨model, hmodel, ?_⟩
  refine bind_eq_ok_iff.mpr ⟨bytes, readFile_eq_ok.mpr hinput, ?_⟩
  refine bind_eq_ok_iff.mpr ⟨_, mapError_eq_ok.mpr hwhole.blocksFrom_eq, ?_⟩
  refine bind_eq_ok_iff.mpr ⟨_, mapError_eq_ok.mpr (evaluateBlocks_eq roundtrip hcoded {}), ?_⟩
  rw [length_fullBlocks]
  rfl

/-- Whatever model loads, `evaluate` and `roundtrip` agree on the counters, no block fails its
round trip or takes more than 65 bytes, and the counters are those of the container that `compress`
writes. -/
theorem codec_commands_agree {writable : Text → Bool} {files : Files} {modelPath input path : Text}
    {model : Model} {bytes : Vec Byte} (hmodel : loadModelFile files modelPath = .ok model)
    (hinput : openFile files input = some bytes) (hwhole : Whole bytes)
    (hwritable : writable path = true) :
    ∃ container tally,
      run writable files ["compress".toList, modelPath, input, path] =
        (.ok (.coded bytes.size container.length), Sessions.write files path container) ∧
      (∀ command ∈ ["evaluate".toList, "roundtrip".toList],
        run writable files [command, modelPath, input] =
          (.ok (.evaluated (bytes.size / kBlockSize) bytes.size tally), files)) ∧
      container.length = 16 + 2 * (bytes.size / kBlockSize) + tally.physicalBytes ∧
      tally.encodedBytes + bytes.size / kBlockSize = tally.physicalBytes ∧
      tally.raw + tally.fpc + tally.combined = bytes.size / kBlockSize ∧
      tally.prefixBsel ≤ tally.combined ∧ tally.residualBsel ≤ tally.combined ∧
      tally.physicalBytes ≤ 65 * (bytes.size / kBlockSize) ∧
      ∀ block ∈ fullBlocks kBlockSize bytes.toList, ∃ encoded,
        encodeBlock block model = .ok encoded ∧ decodeBlock encoded.bytes model = .ok block ∧
        encoded.bytes.length ≤ 65 := by
  have hm := dimensions_of_loadModelFile hmodel
  have hcount := length_fullBlocks kBlockSize bytes.toList
  obtain ⟨encodeds, hcoded⟩ :=
    @exists_coded (fullBlocks kBlockSize bytes.toList) model hm length_of_mem_fullBlocks
  have hlength := hcoded.length_eq
  rw [hcount] at hlength
  have hfew : ([] : List EncodedBlock).length +
      (fullBlocks kBlockSize bytes.toList).length ≤ 2 ^ 57 := by
    have hlt := bytes.size_lt
    rw [hcount, kBlockSize, List.length_nil]
    omega
  have hbooks : Tally.Books (encodeds.foldl Tally.add {}) ([] ++ encodeds) :=
    Tally.Books.foldl ⟨rfl, rfl, rfl, le_rfl, le_rfl, le_rfl⟩ hcoded hfew
  rw [List.nil_append] at hbooks
  obtain ⟨container, hcompress, hsize⟩ := hwhole.compressFile_eq hcoded
  refine ⟨container, encodeds.foldl Tally.add {}, ?_, ?_, ?_, ?_, ?_, hbooks.prefix_le,
    hbooks.residual_le, ?_, ?_⟩
  · exact run_codec true (codeFile_compress hmodel hinput hcompress) hwritable
  · have hrun : ∀ roundtrip : Bool, runEvaluate files roundtrip [modelPath, input] =
        .ok (.evaluated (bytes.size / kBlockSize) bytes.size (encodeds.foldl Tally.add {})) :=
      fun roundtrip => runEvaluate_ok roundtrip hmodel hinput hwhole hcoded
    intro command hcommand
    rw [List.mem_pair] at hcommand
    rcases hcommand with rfl | rfl
    · exact congrArg (·, files) (hrun false)
    · exact congrArg (·, files) (hrun true)
  · rw [hsize, hbooks.physical_eq, ← hlength]
    rfl
  · rw [← hbooks.encoded_add, ← hlength]
    rfl
  · rw [hbooks.modes_eq, ← hlength]
    rfl
  · have hle := hbooks.physical_le
    rw [← hlength] at hle
    exact hle
  · intro block hblock
    obtain ⟨encoded, -, hcode⟩ := exists_of_mem_left hcoded hblock
    exact ⟨encoded, hcode.encode_eq, hcode.decode_eq, hcode.length_le⟩

/-! Sessions. -/

/-- The files after a session. -/
abbrev runAll (writable : Text → Bool) (files : Files) (commands : List (List Text)) : Files :=
  Sessions.runAll (run writable) files commands

theorem runAll_kept {commands : List (List Text)}
    (h : ∀ command ∈ commands, output command ≠ some path) :
    runAll writable files commands path = files path :=
  Sessions.runAll_kept (wrote_run writable) h

theorem holds_of_train {report : Report} (htrains : command.head? = some "train".toList)
    (houtput : output command = some path) (h : (run writable files command).1 = .ok report) :
    ∃ model, (run writable files command).2 path = some (modelBytes model) ∧ Dimensions model := by
  have heffect := effect_run writable files command
  generalize run writable files command = outcome at h heffect ⊢
  cases heffect with
  | failed e => cases h
  | reported report hnone =>
    rw [houtput] at hnone
    cases hnone
  | trained report hhead hpath hwritable hm =>
    obtain rfl := Option.some_inj.mp (houtput.symm.trans hpath)
    exact ⟨_, Sessions.write_self _ _ _, hm⟩
  | coded report bytes hhead hpath hwritable => exact absurd htrains hhead

theorem length_patternBytes {patterns : List Pattern} {blockSize : ℕ}
    (h : ∀ pattern ∈ patterns, pattern.symbols.length = blockSize) :
    (patternBytes patterns).length = patterns.length * blockSize := by
  induction patterns with
  | nil => exact (Nat.zero_mul blockSize).symm
  | cons pattern patterns ih =>
    rw [List.forall_mem_cons] at h
    have hrest : (patternBytes patterns).length = patterns.length * blockSize := ih h.2
    rw [patternBytes, List.flatMap_cons, List.length_append, h.1, List.length_cons, Nat.succ_mul,
      Nat.add_comm]
    exact congrArg (· + blockSize) hrest

theorem length_modelBytes_lt (hm : Dimensions model) : (modelBytes model).length < 2 ^ 63 := by
  have hu32 : ∀ value, (writeU32 value).length = 4 := fun value => rfl
  have hmagic : modelMagic.length = 8 := rfl
  have hprefixes := length_patternBytes hm.prefix_symbols
  have hresiduals := length_patternBytes hm.residual_symbols
  have hprefixCount := hm.prefix_count
  have hresidualCount := hm.residual_count
  rw [kWordCount] at hprefixes
  rw [kBlockSize] at hresiduals
  simp only [modelBytes, setBytes, List.length_append, hu32, hmagic]
  omega

theorem loadModelFile_saved (hm : Dimensions model) (hfile : files path = some (modelBytes model)) :
    loadModelFile files path = .ok model := by
  rw [loadModelFile, openFile_eq hfile (length_modelBytes_lt hm)]
  exact mapError_eq_ok.mpr (loadModel_modelBytes hm)

/-- A file of whole blocks that is compressed with a trained model comes back when it is
decompressed, whatever other commands run between. -/
theorem trained_file_round_trip {writable : Text → Bool} {files : Files} {training : List Text}
    {report : Report} {before between : List (List Text)}
    {modelPath input container path : Text} {bytes : Vec Byte}
    (htrains : training.head? = some "train".toList) (houtput : output training = some modelPath)
    (htrained : (run writable files training).1 = .ok report)
    (hbefore : ∀ command ∈ before, output command ≠ some modelPath)
    (hinput : openFile (runAll writable files (training :: before)) input = some bytes)
    (hwhole : Whole bytes) (hsize : 2 * bytes.size + 16 < 2 ^ 63)
    (hbetween : ∀ command ∈ between,
      output command ≠ some modelPath ∧ output command ≠ some container)
    (hapart : container ≠ modelPath) (hcontainer : writable container = true)
    (hwritable : writable path = true) :
    ∃ size, size ≤ 16 + 67 * (bytes.size / kBlockSize) ∧
      (run writable (runAll writable files (training :: before))
        ["compress".toList, modelPath, input, container]).1 = .ok (.coded bytes.size size) ∧
      (run writable (runAll writable files (training :: before ++
          ["compress".toList, modelPath, input, container] :: between))
        ["decompress".toList, modelPath, container, path]).1 = .ok (.coded size bytes.size) ∧
      runAll writable files (training :: before ++
        ["compress".toList, modelPath, input, container] :: between ++
        [["decompress".toList, modelPath, container, path]]) path = some bytes.toList := by
  obtain ⟨model, hfile, hm⟩ := holds_of_train htrains houtput htrained
  have hkept : runAll writable files (training :: before) modelPath = some (modelBytes model) := by
    rw [← hfile]
    exact runAll_kept hbefore
  obtain ⟨encodeds, hcoded⟩ :=
    @exists_coded (fullBlocks kBlockSize bytes.toList) model hm length_of_mem_fullBlocks
  have hcount := hcoded.length_eq
  rw [length_fullBlocks] at hcount
  have hphysical := physicalSize_le hcoded
  obtain ⟨packed, hcompress, hpacked⟩ := hwhole.compressFile_eq hcoded
  obtain ⟨packed', hcompress', hdecompress⟩ := decompressFile_compressFile hm hwhole.ne hwhole.mod_eq
  obtain rfl := Except.ok.inj (hcompress'.symm.trans hcompress)
  have hload := loadModelFile_saved hm hkept
  have hrun := run_codec true (codeFile_compress hload hinput hcompress) hcontainer
  have hlater : ∀ command ∈ ["compress".toList, modelPath, input, container] :: between,
      output command ≠ some modelPath := by
    rw [List.forall_mem_cons]
    exact ⟨fun heq => hapart (Option.some.inj heq), fun command hmem => (hbetween command hmem).1⟩
  have hload' : loadModelFile (runAll writable files (training :: before ++
      ["compress".toList, modelPath, input, container] :: between)) modelPath = .ok model := by
    refine loadModelFile_saved hm ?_
    rw [← hkept]
    exact Sessions.runAll_append_kept (wrote_run writable) hlater
  have hlt : packed'.length < 2 ^ 63 := by
    rw [Vec.size, kBlockSize] at *
    omega
  have hopens : openFile (runAll writable files (training :: before ++
      ["compress".toList, modelPath, input, container] :: between)) container =
      some ⟨packed', hlt⟩ := by
    refine openFile_eq ?_ hlt
    exact Sessions.runAll_written (wrote_run writable) hrun fun command hmem =>
      (hbetween command hmem).2
  have hback := run_codec false (codeFile_decompress hload' hopens hdecompress) hwritable
  refine ⟨packed'.length, ?_, congrArg Prod.fst hrun, congrArg Prod.fst hback, ?_⟩
  · rw [hpacked, Vec.size, hcount]
    omega
  · exact Sessions.runAll_written (wrote_run writable) hback fun command hmem =>
      absurd hmem List.not_mem_nil

/-! What training buys. -/

/-- With room for the patterns of all its blocks, training finds each of them a stream that lists
its bytes once. -/
theorem Trained.bselEncode_eq {set : BselModel} (h : Trained blocks maxPatterns set)
    (hroom : (blocks.map simplest).toFinset.card ≤ maxPatterns) (hblock : block ∈ blocks) :
    ∃ stream, bselEncode block set = .ok (some stream) ∧
      stream.length = 2 + block.toFinset.card := by
  have hsize := h.blockSize_eq block hblock
  have hsizes : ∀ pattern ∈ set.patterns, pattern.symbols.length = block.length :=
    fun pattern hpattern => (h.sizes pattern hpattern).trans hsize.symm
  have hmem := h.complete hroom block hblock
  obtain ⟨found, hrun, hbest⟩ := bselEncode_best hsize (h.count_le.trans (by decide)) hsizes
  cases found with
  | none => exact absurd (simplest_describes block) (hbest _ hmem)
  | some stream =>
    obtain ⟨id, pattern, hshortest, rfl⟩ := hbest
    exact ⟨_, hrun, hshortest.length_eq hsizes hmem⟩

theorem length_shorter (stream plain : Bytes) :
    (shorter (some stream) plain).1.length = min stream.length plain.length := by
  unfold shorter
  dsimp only
  split
  · rename_i hlt
    exact (min_eq_left hlt.le).symm
  · rename_i hge
    exact (min_eq_right (not_lt.mp hge)).symm

/-- The bytes of a block in the combined mode when both streams are coded with their patterns. -/
def servedSize (block : Bytes) : ℕ :=
  2 + min (2 + (tagsOf (words block)).toFinset.card) 6 +
    (toOctets (regularBits (words block))).length +
    min (2 + (residualOf (words block)).toFinset.card) (rawOf (words block)).length

/-- Training succeeds on all whole blocks; with room for the patterns of all its blocks it gives
each of them a code of no more bytes than its different tags and residual bytes demand. -/
theorem trainModel_serves {blocks : List Bytes} {maxPatterns : ℕ} (hne : blocks ≠ [])
    (hsize : ∀ block ∈ blocks, block.length = kBlockSize) (hmin : maxPatterns ≠ 0)
    (hmax : maxPatterns ≤ 65535) :
    ∃ model, trainModel blocks maxPatterns = .ok model ∧ Dimensions model ∧
      (((tagVectors blocks).map simplest).toFinset.card ≤ maxPatterns →
        ((residualBlocks blocks).map simplest).toFinset.card ≤ maxPatterns →
        ∀ block ∈ blocks, ∃ encoded, encodeBlock block model = .ok encoded ∧
          decodeBlock encoded.bytes model = .ok block ∧
          encoded.bytes.length ≤ servedSize block) := by
  obtain ⟨model, hrun, hm, htags, hresiduals⟩ := trainModel_ok hne hsize hmin hmax
  refine ⟨model, hrun, hm, fun hroomTags hroomResiduals block hblock => ?_⟩
  have hlen := hsize block hblock
  obtain ⟨encoded, combined, hencode, hcombined, hdecode, -, -, hle⟩ := encodeBlock_ok hm hlen
  refine ⟨encoded, hencode, hdecode, hle.trans (le_of_eq ?_)⟩
  obtain ⟨tagStream, htagStream, htagLength⟩ :=
    htags.bselEncode_eq hroomTags (List.mem_map_of_mem hblock)
  obtain ⟨residualStream, hresidualStream, hresidualLength⟩ :=
    hresiduals.bselEncode_eq hroomResiduals (List.mem_map_of_mem hblock)
  have hcode := encodeCombined_eq (splitFpc_eq hlen) htagStream hresidualStream rfl rfl
  obtain rfl := Except.ok.inj (hcombined.symm.trans hcode)
  have hpacked : (packTags (tagsOf (words block))).length = 6 := by
    rw [packTags_eq, length_toOctets, length_tagBits, length_words]
  have hshortTags := length_shorter tagStream (packTags (tagsOf (words block)))
  have hshortResidual := length_shorter residualStream (rawOf (words block))
  rw [htagLength, hpacked] at hshortTags
  rw [hresidualLength] at hshortResidual
  change (2 :: _ :: ((shorter (some tagStream) (packTags (tagsOf (words block)))).1 ++
    toOctets (regularBits (words block)) ++
    (shorter (some residualStream) (rawOf (words block))).1)).length = _
  rw [List.length_cons, List.length_cons, List.length_append, List.length_append, hshortTags,
    hshortResidual, servedSize]
  omega

/-! Two blocks of the same patterns. -/

def exampleFiles : Files := fun path =>
  if path = "input".toList then some exampleInput.toList
  else if path = "model".toList then some (modelBytes gappedModel)
  else none

theorem exampleInput_whole : Whole exampleInput := ⟨by decide +kernel, by decide +kernel⟩

theorem gappedModel_commands : ∃ container tally,
    run (fun _ => true) exampleFiles
        ["compress".toList, "model".toList, "input".toList, "packed".toList] =
      (.ok (.coded exampleInput.size container.length),
        Sessions.write exampleFiles "packed".toList container) ∧
    (∀ command ∈ ["evaluate".toList, "roundtrip".toList],
      run (fun _ => true) exampleFiles [command, "model".toList, "input".toList] =
        (.ok (.evaluated (exampleInput.size / kBlockSize) exampleInput.size tally),
          exampleFiles)) ∧
    container.length = 16 + 2 * (exampleInput.size / kBlockSize) + tally.physicalBytes ∧
    tally.encodedBytes + exampleInput.size / kBlockSize = tally.physicalBytes ∧
    tally.raw + tally.fpc + tally.combined = exampleInput.size / kBlockSize ∧
    tally.prefixBsel ≤ tally.combined ∧ tally.residualBsel ≤ tally.combined ∧
    tally.physicalBytes ≤ 65 * (exampleInput.size / kBlockSize) ∧
    ∀ block ∈ fullBlocks kBlockSize exampleInput.toList, ∃ encoded,
      encodeBlock block gappedModel = .ok encoded ∧
      decodeBlock encoded.bytes gappedModel = .ok block ∧ encoded.bytes.length ≤ 65 :=
  codec_commands_agree
    (loadModelFile_saved ⟨rfl, rfl, by decide, by decide, by decide, by decide⟩ rfl)
    (openFile_eq rfl exampleInput.size_lt) exampleInput_whole rfl

def exampleTraining (modelPath : Text) : List Text :=
  ["train".toList, "input".toList, modelPath, "--max-patterns".toList, "1".toList]

/-- Between, the input is overwritten and other models are trained. -/
theorem exampleInput_round_trip :
    ∃ size, size ≤ 16 + 67 * (exampleInput.size / kBlockSize) ∧
      (run (fun _ => true) (runAll (fun _ => true) exampleFiles
          [exampleTraining "fresh".toList, exampleTraining "other".toList])
        ["compress".toList, "fresh".toList, "input".toList, "packed".toList]).1 =
        .ok (.coded exampleInput.size size) ∧
      (run (fun _ => true) (runAll (fun _ => true) exampleFiles
          [exampleTraining "fresh".toList, exampleTraining "other".toList,
            ["compress".toList, "fresh".toList, "input".toList, "packed".toList],
            exampleTraining "input".toList])
        ["decompress".toList, "fresh".toList, "packed".toList, "back".toList]).1 =
        .ok (.coded size exampleInput.size) ∧
      runAll (fun _ => true) exampleFiles
        [exampleTraining "fresh".toList, exampleTraining "other".toList,
          ["compress".toList, "fresh".toList, "input".toList, "packed".toList],
          exampleTraining "input".toList,
          ["decompress".toList, "fresh".toList, "packed".toList, "back".toList]] "back".toList =
        some exampleInput.toList :=
  @trained_file_round_trip (fun _ => true) exampleFiles (exampleTraining "fresh".toList)
    (.trained 2 1 1) [exampleTraining "other".toList] [exampleTraining "input".toList]
    "fresh".toList "input".toList "packed".toList "back".toList exampleInput rfl rfl
    (by decide +kernel) (by decide +kernel) (openFile_eq (by decide +kernel) exampleInput.size_lt)
    exampleInput_whole (by decide +kernel) (by decide +kernel) (by decide +kernel) rfl rfl

/-- One pattern of each kind serves both blocks. -/
theorem exampleInput_serves :
    ∃ model, trainModel (fullBlocks kBlockSize exampleInput.toList) 1 = .ok model ∧
      Dimensions model ∧
      ∀ block ∈ fullBlocks kBlockSize exampleInput.toList, ∃ encoded,
        encodeBlock block model = .ok encoded ∧ decodeBlock encoded.bytes model = .ok block ∧
        encoded.bytes.length ≤ servedSize block := by
  obtain ⟨model, hrun, hm, hserves⟩ :=
    @trainModel_serves (fullBlocks kBlockSize exampleInput.toList) 1 (by decide +kernel)
      length_of_mem_fullBlocks (by decide) (by decide)
  exact ⟨model, hrun, hm, hserves (by decide +kernel) (by decide +kernel)⟩

end FpcBsel
