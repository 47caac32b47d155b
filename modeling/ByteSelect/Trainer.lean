import ByteSelect.Pattern
import ByteSelect.WhileLoop

/-! Pattern training: counting, filtering, combining and the two selection loops. -/
namespace ByteSelect

open WhileLoop

abbrev U64 := Fin (2 ^ 64)

inductive SelectionMode where
  | lazyExact
  | exhaustive
  deriving DecidableEq

structure TrainingConfig where
  blockSize : SizeT := 64
  dictionarySize : SizeT := 31
  maxPatterns : SizeT := 256
  frequencyThreshold : U64 := 1
  selectionMode : SelectionMode := .lazyExact
  deriving DecidableEq

structure TrainingStats where
  blocksSeen : ℕ := 0
  distinctPatterns : ℕ := 0
  afterFrequencyFilter : ℕ := 0
  afterRankFilter : ℕ := 0
  maximalPatterns : ℕ := 0
  combinedPatterns : ℕ := 0
  representedBlocks : U64 := 0
  coverageEvaluations : ℕ := 0
  coverageRecomputationsSkipped : ℕ := 0
  deriving DecidableEq

structure TrainedPatterns where
  patterns : List Pattern
  marginalCounts : List U64
  stats : TrainingStats
  deriving DecidableEq

/-- The `unordered_map` of counts, its entries in order of insertion. -/
structure CountMap where
  entries : List (Pattern × U64)
  nodup : (entries.map Prod.fst).Nodup

structure LazyCandidate where
  index : ℕ
  upperBound : U64
  iteration : ℕ
  deriving DecidableEq

def symbolsAt (patterns : List Pattern) (index : ℕ) : List Symbol :=
  ((patterns[index]?).map Pattern.symbols).getD []

def lazyCandidateLess (patterns : List Pattern) (left right : LazyCandidate) : Bool :=
  if left.upperBound ≠ right.upperBound then decide (left.upperBound < right.upperBound)
  else decide (symbolsAt patterns right.index < symbolsAt patterns left.index)

/-- What the standard library leaves open: the order in which an `unordered_map` visits its
entries, and which of the greatest entries of a `priority_queue` is on top. -/
structure Library where
  visit : List (Pattern × U64) → List (Pattern × U64)
  visit_perm : ∀ entries, (visit entries).Perm entries
  pop : List Pattern → List LazyCandidate → Option (LazyCandidate × List LazyCandidate)
  pop_none : ∀ patterns queue, pop patterns queue = none → queue = []
  pop_perm : ∀ patterns queue top rest, pop patterns queue = some (top, rest) →
    (top :: rest).Perm queue
  pop_top : ∀ patterns queue top rest, pop patterns queue = some (top, rest) →
    ∀ entry ∈ rest, lazyCandidateLess patterns top entry = false

namespace CountMap

def empty : CountMap := ⟨[], List.nodup_nil⟩

/-- `emplace`: an existing key keeps its count. -/
def emplace (map : CountMap) (pattern : Pattern) (count : U64) : CountMap :=
  if h : pattern ∈ map.entries.map Prod.fst then map
  else ⟨map.entries ++ [(pattern, count)], by
    rw [List.map_append, List.nodup_append]
    refine ⟨map.nodup, by simp, ?_⟩
    intro a ha b hb hab
    simp only [List.map_cons, List.map_nil, List.mem_singleton] at hb
    exact h (hb ▸ hab ▸ ha)⟩

/-- `++map[pattern]`: a missing key starts from zero. -/
def increment (map : CountMap) (pattern : Pattern) : CountMap :=
  if pattern ∈ map.entries.map Prod.fst then
    ⟨map.entries.map fun entry => if entry.1 = pattern then (entry.1, entry.2 + 1) else entry, by
      have hkeys : ∀ entry : Pattern × U64,
          (if entry.1 = pattern then (entry.1, entry.2 + 1) else entry).1 = entry.1 := by
        intro entry
        split <;> rfl
      rw [List.map_map]
      simpa only [Function.comp_def, hkeys] using map.nodup⟩
  else map.emplace pattern 1

/-- Erase the entries whose pattern lies below the selected one. -/
def eraseBelow (map : CountMap) (selected : Pattern) : CountMap :=
  ⟨map.entries.filter fun entry => !entry.1.leq selected,
    map.nodup.sublist (List.filter_sublist.map Prod.fst)⟩

end CountMap

variable (lib : Library)

def coverage (pattern : Pattern) (atoms : CountMap) : U64 :=
  (lib.visit atoms.entries).foldl
    (fun total entry => if entry.1.leq pattern then total + entry.2 else total) 0

def sortPatterns (patterns : List Pattern) : List Pattern :=
  patterns.insertionSort fun p q => ¬ q.lt p

def maximalPatterns (atoms : CountMap) : List Pattern :=
  let candidates := (sortPatterns ((lib.visit atoms.entries).map Prod.fst)).zipIdx
  (candidates.filter fun c => !candidates.any fun d => c.2 ≠ d.2 ∧ c.1.leq d.1).map Prod.fst

def removeBelow (patterns : List Pattern) (upper : Pattern) : List Pattern :=
  patterns.filter fun pattern => !(!(pattern == upper) && pattern.leq upper)

/-- The inner scan of `combineGreedily`: the first later pattern with a legal upper bound. -/
def findPartner (dictionarySize : SizeT) (pattern : Pattern) (j : ℕ) :
    List Pattern → Option (ℕ × Pattern)
  | [] => none
  | other :: others =>
    if (pattern.lub other).rank > dictionarySize then
      findPartner dictionarySize pattern (j + 1) others
    else some (j, pattern.lub other)

def findPair (dictionarySize : SizeT) (i : ℕ) : List Pattern → Option (ℕ × ℕ × Pattern)
  | [] => none
  | pattern :: patterns =>
    match findPartner dictionarySize pattern (i + 1) patterns with
    | some (j, upper) => some (i, j, upper)
    | none => findPair dictionarySize (i + 1) patterns

/-- One turn of the `while (changed)` loop that changes something. -/
def combineStep (dictionarySize : SizeT) (patterns : List Pattern) : Option (List Pattern) :=
  (findPair dictionarySize 0 patterns).map fun (i, j, upper) =>
    let rest := removeBelow ((patterns.eraseIdx j).eraseIdx i) upper
    sortPatterns (if upper ∈ rest then rest else rest ++ [upper])

def combineGreedily (patterns : List Pattern) (dictionarySize : SizeT) : List Pattern :=
  run (combineStep dictionarySize) patterns.length (sortPatterns patterns)

/-- The variables of both selection loops; `stopped` records the `break`. -/
structure Selected where
  uncovered : CountMap
  patterns : List Pattern := []
  marginalCounts : List U64 := []
  coverageEvaluations : ℕ := 0
  coverageRecomputationsSkipped : ℕ := 0
  stopped : Bool := false

def Selected.select (s : Selected) (pattern : Pattern) (count : U64) : Selected :=
  { s with
    uncovered := s.uncovered.eraseBelow pattern
    patterns := s.patterns ++ [pattern]
    marginalCounts := s.marginalCounts ++ [count] }

structure ExhaustiveState extends Selected where
  candidates : List Pattern

/-- The scan for the best candidate after the first; `index` counts the one looked at. -/
def bestCandidate (uncovered : CountMap) (best : ℕ × Pattern × U64) (index : ℕ) :
    List Pattern → ℕ × Pattern × U64
  | [] => best
  | candidate :: candidates =>
    let count := coverage lib candidate uncovered
    if count > best.2.2 ∨ (count = best.2.2 ∧ candidate.lt best.2.1) then
      bestCandidate uncovered (index, candidate, count) (index + 1) candidates
    else bestCandidate uncovered best (index + 1) candidates

def exhaustiveStep (maxPatterns : SizeT) (s : ExhaustiveState) : Option ExhaustiveState :=
  if s.stopped ∨ s.patterns.length ≥ maxPatterns then none
  else match s.candidates with
    | [] => none
    | first :: others =>
      let best := bestCandidate lib s.uncovered (0, first, coverage lib first s.uncovered) 1 others
      let evaluated := { s.toSelected with
        coverageEvaluations := s.coverageEvaluations + s.candidates.length }
      if best.2.2 = 0 then
        some { evaluated with stopped := true, candidates := s.candidates }
      else
        some { evaluated.select best.2.1 best.2.2 with
          candidates := s.candidates.eraseIdx best.1 }

def selectExhaustive (maxPatterns : SizeT) (candidates : List Pattern) (atoms : CountMap) :
    Selected :=
  (run (exhaustiveStep lib maxPatterns) (candidates.length + 1)
    { uncovered := atoms, candidates := candidates }).toSelected

structure LazyState extends Selected where
  queue : List LazyCandidate
  selected : List Bool
  iteration : ℕ := 0

def lazyStep (maxPatterns : SizeT) (candidates : List Pattern) (s : LazyState) :
    Option LazyState :=
  if s.stopped ∨ s.patterns.length ≥ maxPatterns then none
  else match lib.pop candidates s.queue with
    | none => none
    | some (top, rest) =>
      match candidates[top.index]? with
      | none => none
      | some candidate =>
        if s.selected[top.index]? = some true then some { s with queue := rest }
        else if top.iteration ≠ s.iteration then
          some { s with
            queue := { top with
              upperBound := coverage lib candidate s.uncovered, iteration := s.iteration } :: rest
            coverageEvaluations := s.coverageEvaluations + 1 }
        else if top.upperBound = 0 then some { s with queue := rest, stopped := true }
        else
          let chosen := s.toSelected.select candidate top.upperBound
          some { chosen with
            queue := rest
            selected := s.selected.set top.index true
            iteration := s.iteration + 1
            coverageRecomputationsSkipped := s.coverageRecomputationsSkipped + rest.length }

def lazyQueue (candidates : List Pattern) (atoms : CountMap) : List LazyCandidate :=
  candidates.zipIdx.map fun (candidate, index) => ⟨index, coverage lib candidate atoms, 0⟩

def selectLazy (maxPatterns : SizeT) (candidates : List Pattern) (atoms : CountMap) : Selected :=
  (run (lazyStep lib maxPatterns candidates) (candidates.length * (candidates.length + 2))
    { uncovered := atoms
      coverageEvaluations := candidates.length
      queue := lazyQueue lib candidates atoms
      selected := List.replicate candidates.length false }).toSelected

/-- Phase 1: the loop that keeps frequent patterns of small rank. -/
def retainAtoms (config : TrainingConfig) (atoms : CountMap) (stats : TrainingStats) :
    List (Pattern × U64) → Except Error (CountMap × TrainingStats)
  | [] => .ok (atoms, stats)
  | (pattern, count) :: entries => do
    throwIf (pattern.size ≠ config.blockSize)
      (.invalidArgument "counted pattern has incorrect block size")
    if count < config.frequencyThreshold then
      retainAtoms config atoms stats entries
    else if pattern.rank > config.dictionarySize then
      retainAtoms config atoms
        { stats with afterFrequencyFilter := stats.afterFrequencyFilter + 1 } entries
    else
      retainAtoms config (atoms.emplace pattern count)
        { stats with
          afterFrequencyFilter := stats.afterFrequencyFilter + 1
          representedBlocks := stats.representedBlocks + count } entries

/-- A constructed trainer holds a configuration its constructor accepted. -/
structure Trainer where
  config : TrainingConfig
  accepted : config.blockSize ≠ 0 ∧ config.dictionarySize ≠ 0 ∧ config.maxPatterns ≠ 0 ∧
    config.frequencyThreshold ≠ 0

def makeTrainer (config : TrainingConfig) : Except Error Trainer :=
  if h : config.blockSize ≠ 0 ∧ config.dictionarySize ≠ 0 ∧ config.maxPatterns ≠ 0 ∧
      config.frequencyThreshold ≠ 0 then
    .ok ⟨config, h⟩
  else .error (.invalidArgument "training parameters must be non-zero")

/-- The candidates phases 2 and 3 make of the atoms. -/
def combinedCandidates (config : TrainingConfig) (atoms : CountMap) : List Pattern :=
  combineGreedily (maximalPatterns lib atoms) config.dictionarySize

def selectPatterns (config : TrainingConfig) (candidates : List Pattern) (atoms : CountMap) :
    Selected :=
  match config.selectionMode with
  | .exhaustive => selectExhaustive lib config.maxPatterns candidates atoms
  | .lazyExact => selectLazy lib config.maxPatterns candidates atoms

namespace Trainer

def trainCounts (trainer : Trainer) (counts : CountMap) : Except Error TrainedPatterns := do
  let config := trainer.config
  let (atoms, stats) ← retainAtoms config .empty { distinctPatterns := counts.entries.length }
    (lib.visit counts.entries)
  let candidates := combinedCandidates lib config atoms
  let chosen := selectPatterns lib config candidates atoms
  return {
    patterns := chosen.patterns
    marginalCounts := chosen.marginalCounts
    stats := { stats with
      afterRankFilter := atoms.entries.length
      maximalPatterns := (maximalPatterns lib atoms).length
      combinedPatterns := candidates.length
      coverageEvaluations := chosen.coverageEvaluations
      coverageRecomputationsSkipped := chosen.coverageRecomputationsSkipped } }

def countBlocks (trainer : Trainer) (counts : CountMap) : List Block → Except Error CountMap
  | [] => .ok counts
  | block :: blocks => do
    throwIf (block.length ≠ trainer.config.blockSize)
      (.invalidArgument "training block has incorrect size")
    countBlocks trainer (counts.increment (.simplest block)) blocks

def train (trainer : Trainer) (blocks : Vec Block) : Except Error TrainedPatterns := do
  let counts ← trainer.countBlocks .empty blocks.toList
  let result ← trainer.trainCounts lib counts
  return { result with stats := { result.stats with blocksSeen := blocks.size } }

end Trainer
end ByteSelect
