import ByteSelect.FpcBsel.CodecExact
import Mathlib.Data.List.Sort
import Mathlib.Data.Finset.Card

/-! Pattern coding is optimal, and training makes it as short as the bytes of a block allow. -/
namespace FpcBsel

open ByteSelect ListKernel

/-! Simplest patterns. -/

/-- The loop of `simplest_pattern`: `symbolFor` is the array of symbols, empty where it holds -1. -/
def numberBytes (symbolFor : Byte → Option ℕ) (next : ℕ) : Bytes → Bytes
  | [] => []
  | value :: rest =>
    match symbolFor value with
    | some symbol => toByte symbol :: numberBytes symbolFor next rest
    | none =>
      toByte next :: numberBytes (Function.update symbolFor value (some next)) (next + 1) rest

/-- The pattern `simplest_pattern` returns, after its check. -/
def simplest (block : Bytes) : Pattern := ⟨numberBytes (fun _ => none) 0 block⟩

def simplestPattern (block : Bytes) : Except Error Pattern := do
  throwIf (block = []) (.invalidArgument "BSEL block must not be empty")
  return simplest block

/-! Training. -/

/-- One more block with this pattern, in a map ordered by the symbols. -/
def countPattern (pattern : Pattern) : List (ℕ × Pattern) → List (ℕ × Pattern)
  | [] => [(1, pattern)]
  | entry :: counts =>
    if pattern.symbols < entry.2.symbols then (1, pattern) :: entry :: counts
    else if pattern = entry.2 then (entry.1 + 1, pattern) :: counts
    else entry :: countPattern pattern counts

/-- One turn of the loop of `train_bsel` over the blocks. -/
def countBlock (blockSize : ℕ) (counts : List (ℕ × Pattern)) (block : Bytes) :
    Except Error (List (ℕ × Pattern)) := do
  throwIf (block.length ≠ blockSize) (.invalidArgument "mixed BSEL block sizes")
  let pattern ← simplestPattern block
  return countPattern pattern counts

/-- More frequent patterns first, then those of lower rank, then the smaller symbols. -/
def rankedBefore (a b : ℕ × Pattern) : Bool :=
  if a.1 ≠ b.1 then decide (a.1 > b.1)
  else if a.2.rank ≠ b.2.rank then decide (a.2.rank < b.2.rank)
  else decide (a.2.symbols < b.2.symbols)

def trainBsel (blocks : List Bytes) (maxPatterns : ℕ) : Except Error BselModel := do
  throwIf (blocks = [] ∨ maxPatterns = 0 ∨ maxPatterns > 65535)
    (.invalidArgument "invalid BSEL training configuration")
  let blockSize := (blocks.headD []).length
  let counts ← blocks.foldlM (countBlock blockSize) []
  -- the order is total on different patterns, so every sort gives this list
  let ranked := counts.insertionSort fun a b => rankedBefore b a = false
  return { blockSize := blockSize, patterns := (ranked.take maxPatterns).map Prod.snd }

variable {block : Bytes} {pattern : Pattern} {counts : List (ℕ × Pattern)}

/-! Simplest patterns describe their blocks and have the lowest rank. -/

theorem numberBytes_eq {symbolFor : Byte → Option ℕ} {seen : Bytes}
    (h : ∀ value, symbolFor value = if value ∈ seen then some (seen.idxOf value) else none)
    (block : Bytes) :
    numberBytes symbolFor seen.length block = (renumber seen block).map toByte := by
  induction block generalizing symbolFor seen with
  | nil => rfl
  | cons value rest ih =>
    unfold numberBytes renumber
    rw [h value]
    by_cases hseen : value ∈ seen
    · rw [if_pos hseen, if_pos hseen, List.map_cons]
      exact congrArg _ (ih h)
    · rw [if_neg hseen, if_neg hseen, List.map_cons]
      have hlen : (seen ++ [value]).length = seen.length + 1 := List.length_append
      have hnext : ∀ v, Function.update symbolFor value (some seen.length) v =
          if v ∈ seen ++ [value] then some ((seen ++ [value]).idxOf v) else none := by
        intro v
        rw [Function.update_apply, h v, List.idxOf_append]
        by_cases hv : v = value
        · simp [hv, hseen]
        · by_cases hvs : v ∈ seen <;> simp [hv, hvs]
      have hrest := ih hnext
      rw [hlen] at hrest
      exact congrArg _ hrest

theorem simplest_symbols (block : Bytes) :
    (simplest block).symbols.map Fin.val = renumber [] block := by
  have hempty : ∀ value : Byte, (fun _ => none : Byte → Option ℕ) value =
      if value ∈ ([] : Bytes) then some (([] : Bytes).idxOf value) else none := by simp
  have hnumber := numberBytes_eq hempty block
  have hdistinct : distinct block ≤ 2 ^ 8 := by
    rw [distinct_eq_card]
    exact (Finset.card_le_univ _).trans (Fintype.card_fin _).le
  rw [simplest]
  change (numberBytes (fun _ => none) ([] : Bytes).length block).map Fin.val = _
  rw [hnumber, List.map_map]
  conv_rhs => rw [← List.map_id (renumber [] block)]
  apply List.map_congr_left
  intro n hn
  have hlt : n < 2 ^ 8 := lt_of_lt_of_le (mem_renumber.mp hn) hdistinct
  change n % 2 ^ 8 = n
  exact Nat.mod_eq_of_lt hlt

theorem kernel_simplest (block : Bytes) : kernel (simplest block).symbols = kernel block := by
  have hval : kernel ((simplest block).symbols.map Fin.val) = kernel (simplest block).symbols :=
    kernel_map fun _ _ _ _ h => Fin.ext h
  rw [← hval, simplest_symbols, kernel_renumber]

theorem simplest_describes (block : Bytes) : (simplest block).Describes block :=
  kernel_le_iff.mp (kernel_simplest block).le

theorem length_simplest (block : Bytes) : (simplest block).symbols.length = block.length := by
  have hlen := congrArg List.length (simplest_symbols block)
  rwa [List.length_map, length_renumber] at hlen

theorem rank_simplest (block : Bytes) : (simplest block).rank ≤ block.toFinset.card := by
  rw [rank_le_iff, ← distinct_eq_card]
  intro symbol hsymbol
  have hmem : symbol.val ∈ (simplest block).symbols.map Fin.val := List.mem_map_of_mem hsymbol
  rw [simplest_symbols] at hmem
  exact mem_renumber.mp hmem

/-- A pattern needs a symbol for every byte of a block it describes. -/
theorem card_le_rank (hsize : pattern.symbols.length = block.length)
    (h : pattern.Describes block) : block.toFinset.card ≤ pattern.rank := by
  have hcoarse : distinct block ≤ distinct pattern.symbols :=
    distinct_le_of_kernel_le hsize (kernel_le_iff.mpr h)
  have hinj : Function.Injective (Fin.val : Byte → ℕ) := Fin.val_injective
  have hsub : pattern.symbols.toFinset.image Fin.val ⊆ Finset.range pattern.rank := by
    intro n hn
    obtain ⟨symbol, hsymbol, rfl⟩ := Finset.mem_image.mp hn
    exact Finset.mem_range.mpr (lt_rank (List.mem_toFinset.mp hsymbol))
  have hcard := Finset.card_le_card hsub
  rw [Finset.card_image_of_injective _ hinj, Finset.card_range] at hcard
  rw [distinct_eq_card, distinct_eq_card] at hcoarse
  exact hcoarse.trans hcard

/-! The patterns that are counted. -/

theorem Pattern.symbols_inj {p q : Pattern} : p.symbols = q.symbols ↔ p = q := by
  cases p
  cases q
  rw [Pattern.mk.injEq]

/-- The counts are in the order of the map, of no pattern twice. -/
def Ordered (counts : List (ℕ × Pattern)) : Prop :=
  counts.Pairwise fun a b => a.2.symbols < b.2.symbols

theorem mem_countPattern {q : Pattern} :
    q ∈ (countPattern pattern counts).map Prod.snd ↔ q = pattern ∨ q ∈ counts.map Prod.snd := by
  induction counts with
  | nil => simp [countPattern]
  | cons entry counts ih =>
    unfold countPattern
    split
    · rw [List.map_cons, List.mem_cons]
    · split
      · rename_i heq
        rw [List.map_cons, List.map_cons, List.mem_cons, List.mem_cons, ← heq, or_self_left]
      · rw [List.map_cons, List.map_cons, List.mem_cons, List.mem_cons, ih, or_left_comm]

theorem ordered_countPattern (h : Ordered counts) (pattern : Pattern) :
    Ordered (countPattern pattern counts) := by
  induction counts with
  | nil => exact List.pairwise_singleton _ _
  | cons entry counts ih =>
    obtain ⟨hfirst, hrest⟩ := List.pairwise_cons.mp h
    unfold countPattern
    split
    · rename_i hlt
      refine List.pairwise_cons.mpr ⟨?_, h⟩
      intro e he
      rcases List.mem_cons.mp he with rfl | he
      · exact hlt
      · exact hlt.trans (hfirst e he)
    · rename_i hnot
      split
      · rename_i heq
        subst heq
        exact List.pairwise_cons.mpr ⟨hfirst, hrest⟩
      · rename_i hne
        refine List.pairwise_cons.mpr ⟨?_, ih hrest⟩
        intro e he
        have hmem : e.2 ∈ (countPattern pattern counts).map Prod.snd := List.mem_map_of_mem he
        rcases mem_countPattern.mp hmem with hsame | hold
        · rw [hsame]
          exact lt_of_le_of_ne (not_lt.mp hnot) fun heq => hne (Pattern.symbols_inj.mp heq).symm
        · obtain ⟨e', he', hsame⟩ := List.mem_map.mp hold
          rw [← hsame]
          exact hfirst e' he'

theorem Ordered.nodup (h : Ordered counts) : (counts.map Prod.snd).Nodup := by
  rw [List.Nodup, List.pairwise_map]
  exact h.imp fun hlt heq => hlt.ne (congrArg Pattern.symbols heq)

/-- The counts of these blocks. -/
structure Counts (blockSize : ℕ) (blocks : List Bytes) (counts : List (ℕ × Pattern)) : Prop where
  ordered : Ordered counts
  mem_iff : ∀ pattern, pattern ∈ counts.map Prod.snd ↔ pattern ∈ blocks.map simplest
  sizes : ∀ block ∈ blocks, block.length = blockSize

theorem Counts.length_eq {blockSize : ℕ} {blocks : List Bytes}
    (h : Counts blockSize blocks counts) :
    counts.length = (blocks.map simplest).toFinset.card := by
  have hset : (counts.map Prod.snd).toFinset = (blocks.map simplest).toFinset := by
    ext pattern
    rw [List.mem_toFinset, List.mem_toFinset, h.mem_iff]
  rw [← hset, List.toFinset_card_of_nodup h.ordered.nodup, List.length_map]

theorem Counts.concat {blockSize : ℕ} {blocks : List Bytes} {counts' : List (ℕ × Pattern)}
    (h : Counts blockSize blocks counts) (hrun : countBlock blockSize counts block = .ok counts') :
    Counts blockSize (blocks ++ [block]) counts' := by
  obtain ⟨hsize, hrun⟩ := check_bind_eq_ok.mp hrun
  obtain ⟨pattern, hpattern, hrun⟩ := bind_eq_ok.mp hrun
  obtain ⟨-, hpattern⟩ := check_bind_eq_ok.mp hpattern
  cases hpattern
  cases hrun
  rw [throwIf_eq_ok, not_not] at hsize
  refine ⟨ordered_countPattern h.ordered _, fun q => ?_, fun b hb => ?_⟩
  · rw [mem_countPattern, h.mem_iff, List.map_append, List.mem_append, List.map_singleton,
      List.mem_singleton, or_comm]
  · rcases List.mem_append.mp hb with hb | hb
    · exact h.sizes b hb
    · rw [List.mem_singleton.mp hb]
      exact hsize

theorem counts_foldlM {blockSize : ℕ} {before blocks : List Bytes}
    {counts' : List (ℕ × Pattern)} (h : Counts blockSize before counts)
    (hrun : blocks.foldlM (countBlock blockSize) counts = .ok counts') :
    Counts blockSize (before ++ blocks) counts' := by
  induction blocks generalizing before counts with
  | nil =>
    cases hrun
    rwa [List.append_nil]
  | cons block blocks ih =>
    rw [List.foldlM_cons] at hrun
    obtain ⟨next, hblock, hrun⟩ := bind_eq_ok.mp hrun
    rw [List.append_cons]
    exact ih (h.concat hblock) hrun

/-- What training returns. -/
structure Trained (blocks : List Bytes) (maxPatterns : ℕ) (model : BselModel) : Prop where
  count_le : model.patterns.length ≤ 65535
  sizes : ∀ pattern ∈ model.patterns, pattern.symbols.length = model.blockSize
  blockSize_eq : ∀ block ∈ blocks, block.length = model.blockSize
  complete : (blocks.map simplest).toFinset.card ≤ maxPatterns →
    ∀ block ∈ blocks, simplest block ∈ model.patterns

theorem trained_of_trainBsel {blocks : List Bytes} {maxPatterns : ℕ} {model : BselModel}
    (h : trainBsel blocks maxPatterns = .ok model) : Trained blocks maxPatterns model := by
  obtain ⟨hconfig, h⟩ := check_bind_eq_ok.mp h
  obtain ⟨counts, hrun, h⟩ := bind_eq_ok.mp h
  cases h
  rw [throwIf_eq_ok, not_or, not_or, not_lt] at hconfig
  have hempty : Counts (blocks.headD []).length [] [] :=
    ⟨List.Pairwise.nil, fun _ => Iff.rfl, by simp⟩
  have hcounts := counts_foldlM hempty hrun
  rw [List.nil_append] at hcounts
  set ranked := counts.insertionSort fun a b => rankedBefore b a = false with hranked
  have hperm : ranked.Perm counts := List.perm_insertionSort _ _
  refine ⟨?_, ?_, hcounts.sizes, ?_⟩
  · rw [List.length_map, List.length_take]
    exact (Nat.min_le_left _ _).trans hconfig.2.2
  · intro pattern hpattern
    have hmem : pattern ∈ counts.map Prod.snd :=
      (hperm.map Prod.snd).subset (List.map_subset _ (List.take_subset _ _) hpattern)
    obtain ⟨block, hblock, rfl⟩ := List.mem_map.mp ((hcounts.mem_iff pattern).mp hmem)
    rw [length_simplest]
    exact hcounts.sizes block hblock
  · intro hroom block hblock
    rw [← hcounts.length_eq, ← hperm.length_eq] at hroom
    dsimp only
    rw [List.take_of_length_le hroom]
    exact (hperm.map Prod.snd).symm.subset
      ((hcounts.mem_iff _).mpr (List.mem_map_of_mem hblock))

/-! Optimality. -/

/-- A stream lists at least the bytes of the block once each. -/
theorem Shortest.card_le {patterns : List Pattern} {block : Bytes} {id : ℕ} {pattern : Pattern}
    (hsizes : ∀ pattern ∈ patterns, pattern.symbols.length = block.length)
    (h : Shortest patterns block id pattern) :
    2 + block.toFinset.card ≤ (patternCode id pattern block).length := by
  have hsize := hsizes pattern (List.mem_of_getElem? h.pattern_eq)
  have hlower := card_le_rank hsize h.describes
  rw [length_patternCode]
  omega

/-- Where the simplest pattern is among them, no more than these. -/
theorem Shortest.length_eq {patterns : List Pattern} {block : Bytes} {id : ℕ} {pattern : Pattern}
    (hsizes : ∀ pattern ∈ patterns, pattern.symbols.length = block.length)
    (hmem : simplest block ∈ patterns) (h : Shortest patterns block id pattern) :
    (patternCode id pattern block).length = 2 + block.toFinset.card := by
  obtain ⟨j, hj⟩ := List.getElem?_of_mem hmem
  have hlower := h.card_le hsizes
  have hupper := h.le j _ hj (simplest_describes block)
  have hrank := rank_simplest block
  rw [length_patternCode j] at hupper
  omega

/-- The encoder gives the shortest stream that a pattern of the model gives, never one shorter
than the bytes of the block demand; with the patterns of all training blocks at hand it gives
each of these blocks a stream of that length. -/
theorem bselEncode_optimal :
    (∀ (model : BselModel) (block : Bytes), model.patterns.length ≤ 65536 →
      (∀ pattern ∈ model.patterns, pattern.symbols.length = model.blockSize) →
      block.length = model.blockSize →
      ∃ found, bselEncode block model = .ok found ∧
        (found = none ↔ ∀ pattern ∈ model.patterns, ¬ pattern.Describes block) ∧
        ∀ stream ∈ found, (∃ id pattern, Shortest model.patterns block id pattern ∧
            stream = patternCode id pattern block) ∧
          2 + block.toFinset.card ≤ stream.length ∧ bselDecode stream model = .ok block) ∧
    ∀ (blocks : List Bytes) (maxPatterns : ℕ) (model : BselModel),
      trainBsel blocks maxPatterns = .ok model →
      (blocks.map simplest).toFinset.card ≤ maxPatterns →
      ∀ block ∈ blocks, ∃ stream, bselEncode block model = .ok (some stream) ∧
        stream.length = 2 + block.toFinset.card := by
  refine ⟨?_, ?_⟩
  · intro model block hcount hsizes hsize
    have hsizes' : ∀ pattern ∈ model.patterns, pattern.symbols.length = block.length :=
      fun pattern hpattern => (hsizes pattern hpattern).trans hsize.symm
    obtain ⟨found, hrun, hbest⟩ := bselEncode_best hsize hcount hsizes'
    refine ⟨found, hrun, ?_, ?_⟩
    · cases found with
      | none => exact iff_of_true rfl hbest
      | some stream =>
        obtain ⟨id, pattern, hshortest, -⟩ := hbest
        refine iff_of_false (Option.some_ne_none stream) ?_
        intro hnone
        exact hnone pattern (List.mem_of_getElem? hshortest.pattern_eq) hshortest.describes
    · rintro stream rfl
      obtain ⟨id, pattern, hshortest, rfl⟩ := hbest
      exact ⟨⟨id, pattern, hshortest, rfl⟩, hshortest.card_le hsizes',
        bselDecode_code (hshortest.isCode hcount hsizes') hsizes'⟩
  · intro blocks maxPatterns model htrain hroom block hblock
    have htrained := trained_of_trainBsel htrain
    have hsize := htrained.blockSize_eq block hblock
    have hsizes : ∀ pattern ∈ model.patterns, pattern.symbols.length = block.length :=
      fun pattern hpattern => (htrained.sizes pattern hpattern).trans hsize.symm
    have hmem := htrained.complete hroom block hblock
    obtain ⟨found, hrun, hbest⟩ := bselEncode_best hsize (htrained.count_le.trans (by decide)) hsizes
    cases found with
    | none => exact absurd (simplest_describes block) (hbest _ hmem)
    | some stream =>
      obtain ⟨id, pattern, hshortest, rfl⟩ := hbest
      exact ⟨_, hrun, hshortest.length_eq hsizes hmem⟩

/-- Two blocks of different simplest patterns. -/
def exampleBlocks : List Bytes := [[7, 7, 9], [1, 2, 1], [5, 5, 6]]

def exampleModel : BselModel := { blockSize := 3, patterns := [⟨[0, 0, 1]⟩, ⟨[0, 1, 0]⟩] }

theorem bselEncode_optimal_example :
    (∃ found, bselEncode [4, 4, 4] exampleModel = .ok found ∧
      (found = none ↔ ∀ pattern ∈ exampleModel.patterns, ¬ pattern.Describes [4, 4, 4]) ∧
      ∀ stream ∈ found, (∃ id pattern, Shortest exampleModel.patterns [4, 4, 4] id pattern ∧
          stream = patternCode id pattern [4, 4, 4]) ∧
        2 + ([4, 4, 4] : Bytes).toFinset.card ≤ stream.length ∧
        bselDecode stream exampleModel = .ok [4, 4, 4]) ∧
    trainBsel exampleBlocks 2 = .ok exampleModel ∧
    ∀ block ∈ exampleBlocks, ∃ stream, bselEncode block exampleModel = .ok (some stream) ∧
      stream.length = 2 + block.toFinset.card := by
  have htrain : trainBsel exampleBlocks 2 = .ok exampleModel := rfl
  exact ⟨bselEncode_optimal.1 exampleModel [4, 4, 4] (by decide) (by decide) rfl, htrain,
    bselEncode_optimal.2 exampleBlocks 2 exampleModel htrain (by decide)⟩

end FpcBsel
