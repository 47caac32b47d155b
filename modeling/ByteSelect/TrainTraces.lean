import ByteSelect.Container
import ByteSelect.Evaluation
import ByteSelect.ModelIO
import ByteSelect.Trainer

/-! The training command: each trace split at its middle, the rest counted, the model saved. -/
namespace ByteSelect

structure TargetSpec where
  size : SizeT
  patternCount : SizeT
  metadataBytes : SizeT
  metadataTagBits : SizeT := 0
  metadataTagValue : SizeT := 0

/-- The options as `parse_train_options` returns them: it refuses what the fields exclude. -/
structure TrainOptions where
  blockSize : SizeT := 64
  threshold : U64 := 1
  selectionMode : SelectionMode := .lazyExact
  holdoutPercent : SizeT := 0
  targets : List TargetSpec
  blockSize_ne : blockSize ≠ 0 := by decide
  holdoutPercent_lt : holdoutPercent < 100 := by decide

/-- An input file; one that cannot be opened has no contents. -/
structure Trace where
  path : String
  contents : Option (Vec Byte)

/-- From the size of the file alone. -/
def fullBlockCount (trace : Trace) (blockSize : SizeT) : Except Error SizeT :=
  match trace.contents with
  | none => raise ("cannot stat input: " ++ trace.path)
  | some bytes => .ok (Fin.ofNat _ bytes.size / blockSize)

/-- The `while` loop over a stream: the read that falls short ends it. Every turn reads a
byte at least, so the bytes bound the turns. -/
def visitFrom {σ : Type} (function : σ → Block → SizeT → Except Error σ) (blockSize : SizeT) :
    ℕ → List Byte → SizeT → σ → Except Error σ
  | 0, _, _, state => .ok state
  | turns + 1, input, index, state =>
    if input.length < blockSize.val then .ok state
    else do
      let state ← function state (input.take blockSize.val) index
      visitFrom function blockSize turns (input.drop blockSize.val) (index + 1) state

def visitFullBlocks {σ : Type} (trace : Trace) (blockSize : SizeT)
    (function : σ → Block → SizeT → Except Error σ) (state : σ) : Except Error σ :=
  match trace.contents with
  | none => raise ("cannot open input: " ++ trace.path)
  | some bytes => visitFrom function blockSize bytes.size bytes.toList 0 state

structure TraceSplit where
  trace : Trace
  blocks : SizeT
  holdoutBegin : SizeT
  holdoutEnd : SizeT

namespace TraceSplit

/-- The condition of the counting pass. -/
def trains (split : TraceSplit) (index : SizeT) : Bool :=
  index < split.holdoutBegin ∨ index ≥ split.holdoutEnd

/-- The condition of the evaluation pass. -/
def holdsOut (split : TraceSplit) (index : SizeT) : Bool :=
  index ≥ split.holdoutBegin ∧ index < split.holdoutEnd

end TraceSplit

structure Splits where
  traces : List TraceSplit := []
  trainingBlockCount : SizeT := 0
  holdoutBlockCount : SizeT := 0

namespace TrainOptions

def holdoutCount (options : TrainOptions) (blocks : SizeT) : SizeT :=
  blocks * options.holdoutPercent / 100

def split (options : TrainOptions) (trace : Trace) (blocks : SizeT) : TraceSplit :=
  let holdoutBegin := (blocks - options.holdoutCount blocks) / 2
  ⟨trace, blocks, holdoutBegin, holdoutBegin + options.holdoutCount blocks⟩

/-- One turn of the loop over the paths. -/
def splitTrace (options : TrainOptions) (s : Splits) (trace : Trace) : Except Error Splits := do
  let blocks ← fullBlockCount trace options.blockSize
  throwIf (blocks = 0) (.runtimeError ("training input contains no full blocks: " ++ trace.path))
  return {
    traces := s.traces ++ [options.split trace blocks]
    trainingBlockCount := s.trainingBlockCount + (blocks - options.holdoutCount blocks)
    holdoutBlockCount := s.holdoutBlockCount + options.holdoutCount blocks }

def splitTraces (options : TrainOptions) (traces : List Trace) : Except Error Splits := do
  throwIf (traces.isEmpty = true)
    (.runtimeError "training requires at least one input trace")
  let splits ← traces.foldlM options.splitTrace {}
  throwIf (splits.trainingBlockCount = 0)
    (.runtimeError "holdout split left no training blocks")
  return splits

def countTrainingBlocks (options : TrainOptions) (splits : Splits) : Except Error CountMap :=
  splits.traces.foldlM
    (fun counts split => visitFullBlocks split.trace options.blockSize
      (fun counts block index =>
        .ok (if split.trains index then counts.increment (.simplest block) else counts)) counts)
    .empty

end TrainOptions

def patternCountFits (count metadataBytes metadataTagBits : SizeT) : Bool :=
  if metadataBytes.val > sizeMax / 8 then true
  else
    let metadataBits := metadataBytes * 8
    if metadataTagBits > metadataBits then false
    else countFitsBits count (metadataBits - metadataTagBits)

/-- A vector too long to exist is one whose `push_back` has thrown. -/
def vecOf {α : Type} (l : List α) : Except Error (Vec α) :=
  if h : l.length < 2 ^ 63 then .ok ⟨l, h⟩
  else .error (.lengthError "vector::_M_realloc_append")

variable (lib : Library)

/-- One turn of the loop over the targets: the set of the model and what is printed of it. -/
def TrainOptions.trainTarget (options : TrainOptions) (counts : CountMap)
    (trainingBlockCount : SizeT) (target : TargetSpec) :
    Except Error (PatternSet × TrainingStats) := do
  throwIf (target.metadataBytes ≥ target.size)
    (.runtimeError "metadata must be smaller than target")
  throwIf (target.size ≥ options.blockSize)
    (.runtimeError "compressed target must be smaller than block size")
  throwIf (patternCountFits target.patternCount target.metadataBytes target.metadataTagBits = false)
    (.runtimeError "requested pattern count exceeds metadata capacity")
  let trainer ← makeTrainer {
    blockSize := options.blockSize
    dictionarySize := target.size - target.metadataBytes
    maxPatterns := target.patternCount
    frequencyThreshold := options.threshold
    selectionMode := options.selectionMode }
  let trained ← trainer.trainCounts lib counts
  let patterns ← vecOf trained.patterns
  return (
    { targetSize := target.size
      metadataBytes := target.metadataBytes
      patterns := patterns
      metadataTagBits := target.metadataTagBits
      metadataTagValue := target.metadataTagValue },
    { trained.stats with blocksSeen := trainingBlockCount.val })

def accumulateEvaluation (result : Evaluation) (encoded : EncodedBlock) : Evaluation where
  blocks := addU64 result.blocks 1
  originalBytes := addU64 result.originalBytes encoded.originalSize
  encodedBytes := addU64 result.encodedBytes encoded.encodedSize
  allocatedBytes := addU64 result.allocatedBytes encoded.allocatedSize
  compressedBlocks := addU64 result.compressedBlocks (if encoded.compressed then 1 else 0)
  setBlocks :=
    if encoded.compressed then result.setBlocks.modify encoded.setIndex (addU64 · 1)
    else result.setBlocks

def evaluateHeldOut (model : Model) (result : Evaluation) (block : Block) :
    Except Error Evaluation := do
  let encoded ← compress block model
  return accumulateEvaluation result encoded

def TrainOptions.evaluateHoldout (options : TrainOptions) (model : Model) (splits : Splits) :
    Except Error (Option Evaluation) :=
  if splits.holdoutBlockCount = 0 then .ok none
  else do
    let holdout ← splits.traces.foldlM
      (fun result split => visitFullBlocks split.trace options.blockSize
        (fun result block index =>
          if split.holdsOut index then evaluateHeldOut model result block else .ok result) result)
      { setBlocks := List.replicate model.sets.length 0 }
    return some holdout

/-- What a training run leaves behind: the model file, the statistics it prints, and the
evaluation that follows the saving. -/
structure TrainingRun where
  saved : TextStream.Text
  stats : List TrainingStats
  evaluation : Except Error (Option Evaluation)

def trainFromTraces (options : TrainOptions) (traces : List Trace) : Except Error TrainingRun := do
  let splits ← options.splitTraces traces
  let counts ← options.countTrainingBlocks splits
  let trained ← options.targets.mapM (options.trainTarget lib counts splits.trainingBlockCount)
  let model : Model := ⟨options.blockSize, trained.map Prod.fst⟩
  let saved ← saveModel model
  return {
    saved := saved
    stats := trained.map Prod.snd
    evaluation := options.evaluateHoldout model splits }

end ByteSelect
