import ByteSelect.TrainerRounds
import ByteSelect.CodecExact

/-! The codec encodes the training blocks with the patterns they were counted for. -/
namespace ByteSelect

open WeightedCover

variable {lib : Library} {model : Model} {set : PatternSet} {block : Block} {k : ℕ}

def encodedWith (model : Model) (k : ℕ) (block : Block) : Bool :=
  match compress block model with
  | .ok encoded => encoded.compressed && encoded.patternIndex == k
  | .error _ => false

def compressedBy (model : Model) (block : Block) : Bool :=
  match compress block model with
  | .ok encoded => encoded.compressed
  | .error _ => false

def rawBy (model : Model) (block : Block) : Bool :=
  match compress block model with
  | .ok encoded => !encoded.compressed
  | .error _ => false

/-- With one set, `compress` searches the set's patterns. -/
theorem compress_single (hv : ValidModel model) (hsets : model.sets = [set])
    (hb : block.length = model.blockSize.val) :
    ∃ encoded, compress block model = .ok encoded ∧
      encoded.compressed = set.describes block ∧
      (encoded.compressed = true →
        set.patterns.toList.findIdx? (fun p => p.describes block) = some encoded.patternIndex) := by
  obtain ⟨encoded, hc, hsel⟩ := compress_selection hv hb
  refine ⟨encoded, hc, ?_⟩
  cases hsel with
  | raw hnone =>
    refine ⟨?_, fun h => by cases h⟩
    rw [hnone set (by simp [hsets])]
    rfl
  | @pattern set' si j p m hset hleast hp hd hfirst hm =>
    have hset' : set' = set := by
      have hmem := List.mem_of_getElem? hset
      rw [hsets, List.mem_singleton] at hmem
      exact hmem
    subst hset'
    have hdesc : set'.describes block = true :=
      PatternSet.describes_iff.mpr ⟨p, List.mem_of_getElem? hp, hd⟩
    refine ⟨hdesc.symm, fun _ => ?_⟩
    obtain ⟨hlt, rfl⟩ := List.getElem?_eq_some_iff.mp hp
    rw [List.findIdx?_eq_some_iff_getElem]
    refine ⟨hlt, hd, ?_⟩
    intro i hi
    rw [hfirst i hi _ (List.getElem?_eq_getElem _)]
    simp

theorem encodedWith_eq (hv : ValidModel model) (hsets : model.sets = [set])
    (hb : block.length = model.blockSize.val) :
    encodedWith model k block =
      (set.patterns.toList.findIdx? (fun p => p.describes block) == some k) := by
  obtain ⟨encoded, hc, hcomp, hidx⟩ := compress_single hv hsets hb
  unfold encodedWith
  rw [hc]
  dsimp only
  cases h : encoded.compressed with
  | true => simp [hidx h]
  | false =>
    have hnone : set.patterns.toList.findIdx? (fun p => p.describes block) = none := by
      rw [h] at hcomp
      simpa [PatternSet.describes] using hcomp.symm
    simp [hnone]

theorem compressedBy_eq (hv : ValidModel model) (hsets : model.sets = [set])
    (hb : block.length = model.blockSize.val) :
    compressedBy model block = set.describes block ∧
      rawBy model block = !set.describes block := by
  obtain ⟨encoded, hc, hcomp, -⟩ := compress_single hv hsets hb
  simp [compressedBy, rawBy, hc, hcomp]

/-- In an accepted model a pattern describes the blocks whose simplest pattern lies below it. -/
theorem describes_eq_leq (hv : ValidModel model) (hset : set ∈ model.sets)
    (hb : block.length = model.blockSize.val) {p : Pattern} (hp : p ∈ set.patterns.toList) :
    p.describes block = (Pattern.simplest block).leq p := by
  have hsize := (hv.sets_valid set hset).size_eq p hp
  rw [Bool.eq_iff_iff, Pattern.describes_iff_simplest_leq]
  simp [hsize, hb]

theorem findIdx?_describes (hv : ValidModel model) (hset : set ∈ model.sets)
    (hb : block.length = model.blockSize.val) :
    set.patterns.toList.findIdx? (fun p => p.describes block) =
      set.patterns.toList.findIdx? fun p => (Pattern.simplest block).leq p := by
  have hall : ∀ p ∈ set.patterns.toList, p.describes block = (Pattern.simplest block).leq p :=
    fun p hp => describes_eq_leq hv hset hb hp
  generalize set.patterns.toList = patterns at hall ⊢
  induction patterns with
  | nil => rfl
  | cons p patterns ih =>
    rw [List.findIdx?_cons, List.findIdx?_cons, hall p List.mem_cons_self,
      ih fun q hq => hall q (List.mem_cons_of_mem p hq)]

theorem describes_eq_any (hv : ValidModel model) (hset : set ∈ model.sets)
    (hb : block.length = model.blockSize.val) :
    set.describes block = set.patterns.toList.any fun p => (Pattern.simplest block).leq p := by
  rw [Bool.eq_iff_iff, PatternSet.describes_iff, List.any_eq_true]
  constructor
  · rintro ⟨p, hp, hd⟩
    exact ⟨p, hp, describes_eq_leq hv hset hb hp ▸ hd⟩
  · rintro ⟨p, hp, hd⟩
    exact ⟨p, hp, (describes_eq_leq hv hset hb hp).trans hd⟩

/-- A block some pattern of the set describes has a simplest pattern of small rank. -/
theorem rank_simplest_le (hv : ValidModel model) (hset : set ∈ model.sets)
    (h : set.describes block = true) :
    (Pattern.simplest block).rank ≤ set.targetSize.val - set.metadataBytes.val := by
  obtain ⟨p, hp, hd⟩ := PatternSet.describes_iff.mp h
  obtain ⟨hs, hleq⟩ := Pattern.describes_iff_simplest_leq.mp hd
  have hsize : (Pattern.simplest block).size = p.size := by rw [Pattern.size_simplest, hs]
  exact (Pattern.rank_le_of_leq hsize hleq).trans ((hv.sets_valid set hset).rank_le p hp)

/-- With the threshold 1 the filters drop no training block that the set describes. -/
theorem describes_eq_survives {config : TrainingConfig} {blocks : List Block}
    (hv : ValidModel model) (hset : set ∈ model.sets) (hb : block.length = model.blockSize.val)
    (hdict : set.targetSize.val - set.metadataBytes.val = config.dictionarySize.val)
    (hone : config.frequencyThreshold = 1) (hmem : block ∈ blocks) :
    set.describes block = (survives config blocks (.simplest block) &&
      set.patterns.toList.any fun p => (Pattern.simplest block).leq p) := by
  have hany := describes_eq_any hv hset hb
  cases h : set.describes block with
  | false => simp [← hany, h]
  | true =>
    have hrank := rank_simplest_le hv hset h
    have hocc : 0 < occurrences blocks (.simplest block) :=
      List.countP_pos_iff.mpr ⟨block, hmem, by simp⟩
    have hsurvives : survives config blocks (.simplest block) = true := by
      rw [survives, decide_eq_true_iff, hone]
      exact ⟨hocc, hdict ▸ hrank⟩
    simp [← hany, h, hsurvives]

/-- The blocks that are compressed and those that stay raw, counted. -/
theorem countP_outcomes {blocks : List Block} (hv : ValidModel model) (hsets : model.sets = [set])
    (hb : ∀ b ∈ blocks, b.length = model.blockSize.val) :
    blocks.countP (compressedBy model) = blocks.countP (fun b => set.describes b) ∧
      blocks.countP (rawBy model) =
        blocks.length - blocks.countP (fun b => set.describes b) := by
  have hcompressed : blocks.countP (compressedBy model) =
      blocks.countP fun b => set.describes b := by
    apply List.countP_congr
    intro b hmem
    rw [(compressedBy_eq hv hsets (hb b hmem)).1]
  have hraw : blocks.countP (rawBy model) = blocks.countP fun b => !set.describes b := by
    apply List.countP_congr
    intro b hmem
    rw [(compressedBy_eq hv hsets (hb b hmem)).2]
  have hsplit := List.length_eq_countP_add_countP (fun b => set.describes b) (l := blocks)
  simp only [Bool.not_eq_true, Bool.decide_eq_false] at hsplit
  refine ⟨hcompressed, ?_⟩
  rw [hraw]
  omega

/-- Trained counts are what the codec achieves on the training blocks. -/
theorem trained_counts_encoded {config : TrainingConfig} {trainer : Trainer} {blocks : Vec Block}
    (lib : Library) (htrainer : makeTrainer config = .ok trainer)
    (hblocks : ∀ b ∈ blocks.toList, b.length = config.blockSize.val) :
    ∃ trained, trainer.train lib blocks = .ok trained ∧
      trained.marginalCounts.length = trained.patterns.length ∧
      ∀ model set, model.blockSize = config.blockSize → model.sets = [set] →
        set.patterns.toList = trained.patterns →
        set.targetSize.val - set.metadataBytes.val = config.dictionarySize.val →
        validateModel model = .ok () →
        (∀ k count, trained.marginalCounts[k]? = some count →
          count.val = blocks.toList.countP fun b =>
            survives config blocks.toList (.simplest b) && encodedWith model k b) ∧
        (config.frequencyThreshold = 1 →
          blocks.toList.countP (compressedBy model) =
              (trained.marginalCounts.map Fin.val).sum ∧
            blocks.toList.countP (rawBy model) =
              blocks.size - (trained.marginalCounts.map Fin.val).sum) := by
  obtain rfl := makeTrainer_config htrainer
  obtain ⟨trained, counts, t, hrun, hof, hinv, -, hp, hm, -⟩ := train_spec lib trainer hblocks
  refine ⟨trained, hrun, ?_, ?_⟩
  · rw [hp, hm, hinv.length_marginals]
  intro model set hsize hsets hpatterns hdict hvalid
  have hv := validateModel_iff.mp hvalid
  have hset : set ∈ model.sets := by simp [hsets]
  have hb : ∀ b ∈ blocks.toList, b.length = model.blockSize.val := by
    intro b hmem
    rw [hsize, hblocks b hmem]
  rw [hp] at hpatterns
  refine ⟨?_, ?_⟩
  · intro k count hk
    rw [hm] at hk
    rw [hinv.count_eq hk, hof.gain_retained]
    apply List.countP_congr
    intro b hmem
    rw [encodedWith_eq hv hsets (hb b hmem), findIdx?_describes hv hset (hb b hmem), hpatterns]
  · intro hone
    have hsum : (trained.marginalCounts.map Fin.val).sum =
        blocks.toList.countP fun b => set.describes b := by
      rw [hm, hinv.sum_eq, hof.gain_retained]
      apply List.countP_congr
      intro b hmem
      rw [describes_eq_survives hv hset (hb b hmem) hdict hone hmem, hpatterns]
    rw [hsum]
    exact countP_outcomes hv hsets hb

def exampleTrainedModel : Model where
  blockSize := 3
  sets := [{ targetSize := 2, metadataBytes := 0, patterns := ⟨[.simplest [7, 8, 7]], by decide⟩ }]

theorem exampleTrainer_counts_encoded :
    ∃ trained, exampleTrainer.train insertionLibrary exampleBlocks = .ok trained ∧
      trained.patterns = [.simplest [7, 8, 7]] ∧
      exampleBlocks.toList.countP (compressedBy exampleTrainedModel) =
        (trained.marginalCounts.map Fin.val).sum := by
  obtain ⟨trained, hrun, -, h⟩ :=
    @trained_counts_encoded (exampleConfig .lazyExact) exampleTrainer exampleBlocks
      insertionLibrary rfl (by decide)
  have hpatterns : trained.patterns = [.simplest [7, 8, 7]] := by
    have hdec : (exampleTrainer.train insertionLibrary exampleBlocks).map
        TrainedPatterns.patterns = .ok [.simplest [7, 8, 7]] := by decide
    rw [hrun] at hdec
    exact Except.ok.inj hdec
  exact ⟨trained, hrun, hpatterns,
    ((h exampleTrainedModel _ rfl rfl hpatterns.symm rfl (by decide)).2 rfl).1⟩

end ByteSelect
