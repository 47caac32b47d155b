import ByteSelect.Commands
import ByteSelect.Tallies

/-! The commands that report on traces: what they measure of each trace, and of all. The means that
they print are floating-point numbers, and are left out. -/
namespace ByteSelect

open Baseline TextStream

/-! Reading a trace. -/

def readBytes (files : Files) (path : Text) : Except String (Vec Byte) :=
  match openFile files path with
  | none => throw ("cannot open input: " ++ String.ofList path)
  | some bytes => return bytes

/-- The loop over the offsets, which takes fewer turns than there are bytes. -/
def splitFrom (bytes : List Byte) (blockSize offset : ℕ) : ℕ → List Block
  | 0 => []
  | turns + 1 =>
    if offset + blockSize ≤ bytes.length then
      (bytes.drop offset).take blockSize :: splitFrom bytes blockSize (offset + blockSize) turns
    else []

theorem length_splitFrom (bytes : List Byte) (blockSize offset turns : ℕ) :
    (splitFrom bytes blockSize offset turns).length ≤ turns := by
  induction turns generalizing offset with
  | zero => exact le_rfl
  | succ turns ih =>
    rw [splitFrom]
    split
    · exact Nat.succ_le_succ (ih _)
    · exact Nat.zero_le _

theorem sum_splitFrom (bytes : List Byte) (blockSize offset turns : ℕ) :
    ((splitFrom bytes blockSize offset turns).map List.length).sum ≤ bytes.length - offset := by
  induction turns generalizing offset with
  | zero => exact Nat.zero_le _
  | succ turns ih =>
    rw [splitFrom]
    split
    · have hrest := ih (offset + blockSize)
      rw [List.map_cons, List.sum_cons, List.length_take, List.length_drop]
      omega
    · exact Nat.zero_le _

def splitBlocks (bytes : Vec Byte) (blockSize : SizeT) : BlockVector where
  toList := splitFrom bytes.toList blockSize 0 bytes.size
  size_lt := (length_splitFrom _ _ _ _).trans_lt bytes.size_lt
  bytes_lt := by
    have hsum := sum_splitFrom bytes.toList blockSize 0 bytes.size
    have hlt := bytes.size_lt
    omega

/-- A trace that is measured has a full block. -/
def readTrace (files : Files) (blockSize : SizeT) (what : String) (path : Text) :
    Except String BlockVector := do
  let bytes ← readBytes files path
  let blocks := splitBlocks bytes blockSize
  if blocks.toList = [] then
    throw (what ++ " input contains no full blocks: " ++ String.ofList path)
  else return blocks

/-- The loop over the traces. -/
def overTraces {σ : Type} (files : Files) (blockSize : SizeT) (what : String)
    (measure : σ → BlockVector → Except Error σ) (start : σ) (paths : List Text) :
    Except String σ :=
  paths.foldlM (fun result path => do
    let blocks ← readTrace files blockSize what path
    (measure result blocks).mapError Error.what) start

/-- What is measured of each trace of a list, and of all of them. -/
structure Measured (ρ : Type) where
  traces : List ρ
  total : ρ

/-- The first result takes the place of the total, and others are merged into it. -/
def replaceOrMerge {ρ : Type} (merge : ρ → ρ → Except Error ρ) (replace : Bool) (total result : ρ) :
    Except Error ρ :=
  if replace then return result else merge total result

/-- What is measured of the traces of a group. -/
structure Grouped (ρ : Type) where
  traceCount : ℕ
  aggregate : ρ

/-! Evaluation. -/

def startEvaluation (model : Model) : Evaluation :=
  { setBlocks := List.replicate model.sets.length 0 }

def evaluateTrace (model : Model) (result : Measured Evaluation) (blocks : BlockVector) :
    Except Error (Measured Evaluation) := do
  let evaluation ← evaluate blocks model
  let total ← mergeEvaluation result.total evaluation
  return ⟨result.traces ++ [evaluation], total⟩

def evaluateTraceGroup (files : Files) (model : Model) (group : TraceGroup) :
    Except String (Grouped Evaluation) :=
  overTraces files model.blockSize "evaluation" (fun result blocks => do
    let evaluation ← evaluate blocks model
    let aggregate ← mergeEvaluation result.aggregate evaluation
    return ⟨result.traceCount + 1, aggregate⟩) ⟨0, startEvaluation model⟩ group.paths

def runEvaluate (files : Files) : List Text → Except String Evaluation
  | [modelPath, path] => do
    let model ← loadModelFile files modelPath
    (validateModel model).mapError Error.what
    let bytes ← readBytes files path
    (evaluate (splitBlocks bytes model.blockSize) model).mapError Error.what
  | _ => throw "usage: bsel evaluate MODEL INPUT"

def runEvaluateList (files : Files) : List Text → Except String (Measured Evaluation)
  | modelPath :: path :: paths => do
    let model ← loadModelFile files modelPath
    overTraces files model.blockSize "evaluation" (evaluateTrace model)
      ⟨[], startEvaluation model⟩ (path :: paths)
  | _ => throw "usage: bsel evaluate-list MODEL INPUT [INPUT ...]"

def runEvaluateGroups (files : Files) : List Text → Except String (List (Grouped Evaluation))
  | modelPath :: first :: second :: third :: args => do
    let (groups, rest) ← parseTraceGroups (first :: second :: third :: args)
    match rest with
    | option :: _ => throw ("unknown option: " ++ String.ofList option)
    | [] =>
      let model ← loadModelFile files modelPath
      groups.mapM (evaluateTraceGroup files model)
  | _ => throw "usage: bsel evaluate-groups MODEL --group NAME INPUT [INPUT ...] [--group ...]"

/-! The upper bound. -/

def targetSizesFor (model : Model) : List SizeT := model.sets.map PatternSet.targetSize

def analyzeOptions : SizeT → List Text → Except String SizeT
  | metadataBytes, [] => return metadataBytes
  | _, [option] => throw ("unknown or incomplete option: " ++ String.ofList option)
  | _, option :: value :: args =>
    if option = "--ideal-metadata-bytes".toList then do
      let n ← parseSize value "ideal metadata bytes"
      analyzeOptions n.1 args
    else throw ("unknown or incomplete option: " ++ String.ofList option)

structure Analysis where
  actual : Measured Evaluation
  upper : Measured UpperBoundEvaluation
  hasUpper : Bool

def analyzeTrace (model : Model) (metadataBytes : SizeT) (result : Analysis)
    (blocks : BlockVector) : Except Error Analysis := do
  let actual ← evaluate blocks model
  let upper ← evaluateByteSelectUpperBound blocks (targetSizesFor model) metadataBytes
  let total ← mergeEvaluation result.actual.total actual
  let upperTotal ← replaceOrMerge mergeUpperBound (!result.hasUpper) result.upper.total upper
  return {
    actual := ⟨result.actual.traces ++ [actual], total⟩
    upper := ⟨result.upper.traces ++ [upper], upperTotal⟩
    hasUpper := true }

def analyzeTraceGroup (files : Files) (model : Model) (metadataBytes : SizeT)
    (group : TraceGroup) : Except String (Grouped UpperBoundEvaluation) :=
  overTraces files model.blockSize "analysis" (fun result blocks => do
    let upper ← evaluateByteSelectUpperBound blocks (targetSizesFor model) metadataBytes
    let aggregate ← replaceOrMerge mergeUpperBound (result.traceCount = 0) result.aggregate upper
    return ⟨result.traceCount + 1, aggregate⟩) ⟨0, {}⟩ group.paths

def runAnalyze (files : Files) :
    List Text → Except String (Evaluation × UpperBoundEvaluation)
  | modelPath :: path :: args => do
    let metadataBytes ← analyzeOptions 1 args
    let model ← loadModelFile files modelPath
    let bytes ← readBytes files path
    let blocks := splitBlocks bytes model.blockSize
    let actual ← (evaluate blocks model).mapError Error.what
    let upper ← (evaluateByteSelectUpperBound blocks (targetSizesFor model)
      metadataBytes).mapError Error.what
    return (actual, upper)
  | _ => throw "usage: bsel analyze MODEL INPUT [--ideal-metadata-bytes N]"

def runAnalyzeList (files : Files) : List Text → Except String Analysis
  | modelPath :: arg :: args =>
    let paths := (arg :: args).takeWhile (!isOption ·)
    if paths = [] then throw "analyze-list requires at least one input trace"
    else do
      let metadataBytes ← analyzeOptions 1 ((arg :: args).dropWhile (!isOption ·))
      let model ← loadModelFile files modelPath
      overTraces files model.blockSize "analysis" (analyzeTrace model metadataBytes)
        ⟨⟨[], startEvaluation model⟩, ⟨[], {}⟩, false⟩ paths
  | _ => throw "usage: bsel analyze-list MODEL INPUT [INPUT ...] [--ideal-metadata-bytes N]"

def analyzeGroup (files : Files) (model : Model) (metadataBytes : SizeT) (group : TraceGroup) :
    Except String (Grouped Evaluation × Grouped UpperBoundEvaluation) := do
  let actual ← evaluateTraceGroup files model group
  let upper ← analyzeTraceGroup files model metadataBytes group
  return (actual, upper)

def runAnalyzeGroups (files : Files) : List Text →
    Except String (List (Grouped Evaluation × Grouped UpperBoundEvaluation))
  | modelPath :: first :: second :: third :: args => do
    let (groups, rest) ← parseTraceGroups (first :: second :: third :: args)
    let metadataBytes ← analyzeOptions 1 rest
    let model ← loadModelFile files modelPath
    groups.mapM (analyzeGroup files model metadataBytes)
  | _ => throw ("usage: bsel analyze-groups MODEL --group NAME INPUT [INPUT ...] [--group ...] " ++
      "[--ideal-metadata-bytes N]")

/-! The baselines. -/

def parseBaselineKind (text : Text) : Except String BaselineKind :=
  if text = "fpc".toList then return .fpc
  else if text = "bdi".toList then return .bdi
  else if text = "hybrid".toList then return .hybridBdiFpc
  else if text = "cpack".toList then return .cpack
  else if text = "bpc".toList then return .bpc
  else if text = "zstd".toList then return .zstd
  else if text = "lz4".toList then return .lz4
  else if text = "lz77-lite".toList then return .lz77Lite
  else if text = "huffman".toList then return .huffman
  else throw "baseline must be fpc, bdi, hybrid, cpack, bpc, zstd, lz4, lz77-lite, or huffman"

def baselineOptionsFrom : List BaselineKind → List Text → Except String (List BaselineKind)
  | baselines, [] => return baselines
  | _, [option] => throw ("unknown or incomplete option: " ++ String.ofList option)
  | baselines, option :: value :: args =>
    if option ≠ "--baseline".toList then
      throw ("unknown or incomplete option: " ++ String.ofList option)
    else do
      let kind ← parseBaselineKind value
      baselineOptionsFrom (if kind ∈ baselines then baselines else baselines ++ [kind]) args

def parseBaselineOptions (args : List Text) : Except String (List BaselineKind) := do
  let baselines ← baselineOptionsFrom [] args
  return if baselines = [] then [.fpc, .bdi] else baselines

structure Comparison where
  byteSelect : Measured Evaluation
  baselines : List (BaselineKind × Measured BaselineEvaluation)

/-- A total that has no blocks is replaced. -/
def compareBaseline (libraries : Libraries) (targetSizes : List SizeT) (blocks : BlockVector)
    (result : BaselineKind × Measured BaselineEvaluation) :
    Except Error (BaselineKind × Measured BaselineEvaluation) := do
  let evaluation ← evaluateBaseline libraries blocks result.1 targetSizes
  let total ← replaceOrMerge mergeBaselineEvaluation (result.2.total.blocks = 0) result.2.total
    evaluation
  return (result.1, ⟨result.2.traces ++ [evaluation], total⟩)

def compareTrace (libraries : Libraries) (model : Model) (result : Comparison)
    (blocks : BlockVector) : Except Error Comparison := do
  let byteSelect ← evaluateTrace model result.byteSelect blocks
  let baselines ← result.baselines.mapM (compareBaseline libraries (targetSizesFor model) blocks)
  return ⟨byteSelect, baselines⟩

def evaluateBaselineTraceGroup (libraries : Libraries) (files : Files) (group : TraceGroup)
    (targetSizes : List SizeT) (blockSize : SizeT) (kind : BaselineKind) :
    Except String (Grouped BaselineEvaluation) :=
  overTraces files blockSize "comparison" (fun result blocks => do
    let evaluation ← evaluateBaseline libraries blocks kind targetSizes
    let aggregate ← replaceOrMerge mergeBaselineEvaluation (result.traceCount = 0)
      result.aggregate evaluation
    return ⟨result.traceCount + 1, aggregate⟩) ⟨0, {}⟩ group.paths

def runCompare (libraries : Libraries) (files : Files) :
    List Text → Except String (Evaluation × List BaselineEvaluation)
  | modelPath :: path :: args => do
    let baselines ← parseBaselineOptions args
    let model ← loadModelFile files modelPath
    let bytes ← readBytes files path
    let blocks := splitBlocks bytes model.blockSize
    if blocks.toList = [] then throw "comparison input contains no full blocks"
    else do
      let byteSelect ← (evaluate blocks model).mapError Error.what
      let results ← baselines.mapM fun kind =>
        (evaluateBaseline libraries blocks kind (targetSizesFor model)).mapError Error.what
      return (byteSelect, results)
  | _ => throw ("usage: bsel compare MODEL INPUT " ++
      "[--baseline fpc|bdi|hybrid|cpack|bpc|zstd|lz4|lz77-lite|huffman ...]")

def runCompareList (libraries : Libraries) (files : Files) : List Text → Except String Comparison
  | modelPath :: arg :: args =>
    let paths := (arg :: args).takeWhile (!isOption ·)
    if paths = [] then throw "compare-list requires at least one input trace"
    else do
      let baselines ← parseBaselineOptions ((arg :: args).dropWhile (!isOption ·))
      let model ← loadModelFile files modelPath
      overTraces files model.blockSize "comparison" (compareTrace libraries model)
        ⟨⟨[], startEvaluation model⟩, baselines.map fun kind => (kind, ⟨[], {}⟩)⟩ paths
  | _ => throw ("usage: bsel compare-list MODEL INPUT [INPUT ...] " ++
      "[--baseline fpc|bdi|hybrid|cpack|bpc|zstd|lz4|lz77-lite|huffman ...]")

def compareGroup (libraries : Libraries) (files : Files) (model : Model)
    (baselines : List BaselineKind) (group : TraceGroup) :
    Except String (Grouped Evaluation × List (Grouped BaselineEvaluation)) := do
  let byteSelect ← evaluateTraceGroup files model group
  let results ← baselines.mapM
    (evaluateBaselineTraceGroup libraries files group (targetSizesFor model) model.blockSize)
  return (byteSelect, results)

def runCompareGroups (libraries : Libraries) (files : Files) : List Text →
    Except String (List (Grouped Evaluation × List (Grouped BaselineEvaluation)))
  | modelPath :: first :: second :: third :: args => do
    let (groups, rest) ← parseTraceGroups (first :: second :: third :: args)
    let baselines ← parseBaselineOptions rest
    let model ← loadModelFile files modelPath
    groups.mapM (compareGroup libraries files model baselines)
  | _ => throw ("usage: bsel compare-groups MODEL --group NAME INPUT [INPUT ...] [--group ...] " ++
      "[--baseline fpc|bdi|hybrid|cpack|bpc|zstd|lz4|lz77-lite|huffman ...]")

end ByteSelect
