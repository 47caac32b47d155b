import ByteSelect.Holdout
import ByteSelect.Loops
import ByteSelect.ModelTruncation
import ByteSelect.TrainerGreedy

/-! The training command from end to end: when it saves a model, and what the model is. -/
namespace ByteSelect

open Loops WeightedCover

variable {options : TrainOptions} {target : TargetSpec} {counts : CountMap}
  {lib : Library} {traces : List Trace} {n : SizeT} {set : PatternSet} {stats : TrainingStats}

/-! One target. -/

/-- The set a target asks for, with the patterns it is given. -/
def TargetSpec.toSet (target : TargetSpec) (patterns : Vec Pattern) : PatternSet where
  targetSize := target.size
  metadataBytes := target.metadataBytes
  patterns := patterns
  metadataTagBits := target.metadataTagBits
  metadataTagValue := target.metadataTagValue

def TargetSpec.trainingConfig (target : TargetSpec) (options : TrainOptions) : TrainingConfig where
  blockSize := options.blockSize
  dictionarySize := target.size - target.metadataBytes
  maxPatterns := target.patternCount
  frequencyThreshold := options.threshold
  selectionMode := options.selectionMode

/-- The checks of the command on a target, those of the trainer included. -/
structure TargetSpec.Checked (target : TargetSpec) (options : TrainOptions) : Prop where
  metadata_lt : target.metadataBytes.val < target.size.val
  size_lt : target.size.val < options.blockSize.val
  count_fits :
    patternCountFits target.patternCount target.metadataBytes target.metadataTagBits = true
  count_ne : target.patternCount ≠ 0
  threshold_ne : options.threshold ≠ 0

theorem val_dictionary (h : target.metadataBytes.val < target.size.val) :
    (target.size - target.metadataBytes).val = target.size.val - target.metadataBytes.val :=
  Fin.sub_val_of_le (Fin.le_def.mpr h.le)

/-- The blocks a map has counted are fewer than a vector may hold. -/
def Countable (counts : CountMap) : Prop := weight counts.weighted < 2 ^ 63

theorem weight_retained_le {config : TrainingConfig} :
    weight (retained lib config counts).weighted ≤ weight counts.weighted := by
  have hsub : (retained lib config counts).weighted.Sublist
      ((lib.visit counts.entries).map fun entry => (entry.1, entry.2.val)) :=
    List.filter_sublist.map _
  have hperm := weight_perm ((lib.visit_perm counts.entries).map
    fun entry => (entry.1, entry.2.val))
  exact ((hsub.map Prod.snd).sum_le_sum fun a _ => Nat.zero_le a).trans hperm.le

/-- A training that starts ends with a pattern set that fits the target. -/
theorem trainCounts_fits {trainer : Trainer} (lib : Library)
    (hblock : trainer.config.blockSize.val ≤ 65536)
    (hsize : ∀ entry ∈ counts.entries, entry.1.size = trainer.config.blockSize.val)
    (hcountable : Countable counts) :
    ∃ trained, trainer.trainCounts lib counts = .ok trained ∧
      (∀ p ∈ trained.patterns, p.size = trainer.config.blockSize.val ∧
        p.rank ≤ trainer.config.dictionarySize.val) ∧
      trained.patterns.length ≤ trainer.config.maxPatterns.val ∧
      trained.patterns.length < 2 ^ 63 := by
  have hsmall : counts.Small := lt_of_lt_of_le hcountable (by decide)
  obtain ⟨trained, t, hrun, hrounds, hp, hm, hrep⟩ := trainCounts_greedy lib trainer hsize hsmall
  have hcombined := @combined_retained lib counts trainer.config hblock hsize
  refine ⟨trained, hrun, ?_, hp ▸ hrounds.length_le, ?_⟩
  · intro p hmem
    have hcandidate := hrounds.mem_candidates (hp ▸ hmem)
    exact ⟨hcombined.size_eq p hcandidate, hcombined.rank_le p hcandidate⟩
  · -- every chosen pattern represents a block of its own
    have hlength := hrounds.length_marginals
    have hpos : ∀ count ∈ t.marginalCounts.map Fin.val, 1 ≤ count := by
      intro count hcount
      obtain ⟨c, hc, rfl⟩ := List.mem_map.mp hcount
      exact Nat.one_le_iff_ne_zero.mpr fun hzero => hrounds.count_ne_zero c hc (Fin.ext hzero)
    have hsum := hrounds.sum_le
    have hweight := @weight_retained_le counts lib trainer.config
    have hle := List.length_le_sum_of_one_le _ hpos
    rw [List.length_map] at hle
    rw [hp]
    unfold Countable at hcountable
    omega

theorem trainTarget_checked (hblock : options.blockSize.val ≤ 65536)
    (hsize : ∀ entry ∈ counts.entries, entry.1.size = options.blockSize.val)
    (hcountable : Countable counts) (h : target.Checked options) (n : SizeT) :
    ∃ patterns stats, options.trainTarget lib counts n target = .ok (target.toSet patterns, stats) ∧
      patterns.size ≤ target.patternCount.val ∧
      ∀ p ∈ patterns.toList, p.size = options.blockSize.val ∧
        p.rank ≤ target.size.val - target.metadataBytes.val := by
  have hdictionary := val_dictionary h.metadata_lt
  have haccepted : options.blockSize ≠ 0 ∧ target.size - target.metadataBytes ≠ 0 ∧
      target.patternCount ≠ 0 ∧ options.threshold ≠ 0 := by
    refine ⟨options.blockSize_ne, ?_, h.count_ne, h.threshold_ne⟩
    intro hzero
    rw [hzero, Fin.val_zero] at hdictionary
    have := h.metadata_lt
    omega
  obtain ⟨trained, hrun, hfits, hlength, hlt⟩ :=
    @trainCounts_fits counts ⟨target.trainingConfig options, haccepted⟩ lib hblock hsize hcountable
  refine ⟨⟨trained.patterns, hlt⟩, { trained.stats with blocksSeen := n.val }, ?_, hlength, ?_⟩
  · have hmetadata : ¬ target.metadataBytes ≥ target.size :=
      not_le.mpr (Fin.lt_def.mpr h.metadata_lt)
    have htarget : ¬ target.size ≥ options.blockSize := not_le.mpr (Fin.lt_def.mpr h.size_lt)
    have hcount : ¬ patternCountFits target.patternCount target.metadataBytes
        target.metadataTagBits = false := by
      rw [h.count_fits]
      exact Bool.noConfusion
    have hmake : makeTrainer (target.trainingConfig options) =
        .ok ⟨target.trainingConfig options, haccepted⟩ := dif_pos haccepted
    have hvec : vecOf trained.patterns = .ok ⟨trained.patterns, hlt⟩ := dif_pos hlt
    unfold TargetSpec.trainingConfig at hmake hrun
    rw [TrainOptions.trainTarget, throwIf_neg hmetadata, ok_bind, throwIf_neg htarget, ok_bind,
      throwIf_neg hcount, ok_bind, hmake, ok_bind, hrun, ok_bind, hvec]
    rfl
  · intro p hp
    have hp' := hfits p hp
    rw [← hdictionary]
    exact hp'

theorem checked_of_trainTarget (h : options.trainTarget lib counts n target = .ok (set, stats)) :
    target.Checked options := by
  simp only [TrainOptions.trainTarget, check_bind_eq_ok, throwIf_eq_ok] at h
  obtain ⟨hmetadata, htarget, hcount, h⟩ := h
  obtain ⟨trainer, hmake, -⟩ := bind_eq_ok.mp h
  have haccepted := trainer.accepted
  rw [makeTrainer_config hmake] at haccepted
  exact ⟨Fin.lt_def.mp (not_le.mp hmetadata), Fin.lt_def.mp (not_le.mp htarget),
    Bool.eq_true_of_not_eq_false hcount, haccepted.2.2.1, haccepted.2.2.2⟩

/-! The traces. -/

/-- What every pass over the traces sees for training. -/
def trainedBlocks (options : TrainOptions) (traces : List Trace) : List (Block × ℕ) :=
  (traces.map options.splitOf).flatMap (trainingBlocks options.blockSize)

/-- A trace with a full block keeps one for training, whatever the percentage. -/
theorem trainingBlocks_ne_nil {trace : Trace} (h : trace.blocks options.blockSize ≠ []) :
    0 < (trainingBlocks options.blockSize (options.splitOf trace)).length := by
  obtain ⟨hblocks, -, -⟩ := @val_splitOf options trace
  have hpos := List.length_pos_iff.mpr h
  have hpercent := Fin.lt_def.mp options.holdoutPercent_lt
  have hval : (100 : SizeT).val = 100 := rfl
  have hle := @holdoutCount_le options (options.splitOf trace).blocks
  rw [hval] at hpercent
  rw [length_trainingBlocks, Fin.sub_val_of_le hle, TrainOptions.holdoutCount, Fin.div_val,
    Fin.val_mul, hval, hblocks]
  have hwrap := Nat.mod_le
    ((trace.blocks options.blockSize).length * options.holdoutPercent.val) (2 ^ 64)
  have hmul : (trace.blocks options.blockSize).length * options.holdoutPercent.val ≤
      (trace.blocks options.blockSize).length * 99 := Nat.mul_le_mul_left _ (by omega)
  omega

theorem foldlM_splitTrace {done rest : List Trace} {s : Splits} (h : SplitsOf options done s)
    (hrest : ∀ trace ∈ rest, trace.blocks options.blockSize ≠ []) :
    ∃ splits, rest.foldlM options.splitTrace s = .ok splits ∧
      SplitsOf options (done ++ rest) splits := by
  induction rest generalizing done s with
  | nil =>
    rw [List.append_nil]
    exact ⟨s, rfl, h⟩
  | cons trace rest ih =>
    rw [List.forall_mem_cons] at hrest
    have hstep := @splitTrace_eq options trace s hrest.1
    obtain ⟨splits, hloop, hof⟩ := ih (h.step hstep) hrest.2
    refine ⟨splits, ?_, ?_⟩
    · rw [List.foldlM_cons, hstep]
      exact hloop
    · rw [List.append_cons]
      exact hof

theorem blocks_ne_of_foldlM {rest : List Trace} {s splits : Splits}
    (h : rest.foldlM options.splitTrace s = .ok splits) :
    ∀ trace ∈ rest, trace.blocks options.blockSize ≠ [] := by
  induction rest generalizing s with
  | nil => exact fun _ hmem => absurd hmem List.not_mem_nil
  | cons trace rest ih =>
    rw [List.foldlM_cons, bind_eq_ok] at h
    obtain ⟨s', hstep, hrest⟩ := h
    refine List.forall_mem_cons.mpr ⟨?_, ih hrest⟩
    intro hnil
    obtain ⟨e, he⟩ := @splitTrace_nil options trace s hnil
    rw [he] at hstep
    cases hstep

/-- The split fails on missing and empty traces alone: training blocks are always left. -/
theorem splitTraces_succeeds_iff (hfew : (trainedBlocks options traces).length < 2 ^ 64) :
    (∃ splits, options.splitTraces traces = .ok splits) ↔
      traces ≠ [] ∧ ∀ trace ∈ traces, trace.blocks options.blockSize ≠ [] := by
  constructor
  · rintro ⟨splits, h⟩
    rw [TrainOptions.splitTraces, check_bind_eq_ok, throwIf_eq_ok, bind_eq_ok] at h
    obtain ⟨hne, s, hloop, -⟩ := h
    exact ⟨fun hnil => hne (List.isEmpty_iff.mpr hnil), blocks_ne_of_foldlM hloop⟩
  · rintro ⟨hne, hblocks⟩
    obtain ⟨splits, hloop, hof⟩ :=
      @foldlM_splitTrace options [] traces {} ⟨rfl, by simp, rfl, rfl⟩ hblocks
    have hcount : splits.trainingBlockCount.val = (trainedBlocks options traces).length := by
      rw [hof.trainingBlockCount_eq, hof.traces_eq]
      exact Nat.mod_eq_of_lt hfew
    have hsome : 0 < (trainedBlocks options traces).length := by
      obtain ⟨trace, rest, rfl⟩ := List.exists_cons_of_ne_nil hne
      have hfirst := @trainingBlocks_ne_nil options trace (hblocks trace List.mem_cons_self)
      rw [trainedBlocks, List.map_cons, List.flatMap_cons, List.length_append]
      omega
    have hleft : ¬ splits.trainingBlockCount = 0 := by
      intro hzero
      rw [hzero, Fin.val_zero] at hcount
      omega
    refine ⟨splits, ?_⟩
    have hempty : ¬ traces.isEmpty = true := fun hnil => hne (List.isEmpty_iff.mp hnil)
    rw [TrainOptions.splitTraces, throwIf_neg hempty, ok_bind, hloop, ok_bind, throwIf_neg hleft]
    rfl

/-! The counts. -/

/-- A loop that counts blocks adds to the gain of a set of patterns the blocks it covers. -/
theorem gain_foldl_increment {l : List (Block × ℕ)} (f : Pattern → Bool)
    (h : weight counts.weighted + l.length < 2 ^ 64) :
    gain f (l.foldl (fun counts x => counts.increment (.simplest x.1)) counts).weighted =
      gain f counts.weighted + l.countP fun x => f (.simplest x.1) := by
  induction l generalizing counts with
  | nil => rfl
  | cons x l ih =>
    rw [List.length_cons] at h
    have hstep : weight (counts.increment (.simplest x.1)).weighted =
        weight counts.weighted + 1 := by
      rw [weight_eq_gain, gain_increment (by omega), ← weight_eq_gain]
      simp
    have hgain := @gain_increment counts (.simplest x.1) f (by omega)
    rw [List.foldl_cons, ih (by omega), hgain, List.countP_cons]
    omega

theorem countsOf_foldl_increment {l : List (Block × ℕ)} (h : l.length < 2 ^ 64) :
    CountsOf (l.map Prod.fst)
      (l.foldl (fun counts x => counts.increment (.simplest x.1)) .empty) := by
  have hempty : ∀ f, gain f CountMap.empty.weighted = 0 := fun f => rfl
  have hweight : weight CountMap.empty.weighted = 0 := rfl
  refine ⟨?_, ?_⟩
  · intro f
    rw [gain_foldl_increment f (by omega), hempty, Nat.zero_add, List.countP_map]
    rfl
  · intro q hq
    obtain ⟨entry, hentry, rfl⟩ := List.mem_map.mp hq
    rcases mem_foldl_increment hentry with hkey | ⟨x, hx, heq⟩
    · exact absurd hkey List.not_mem_nil
    · exact ⟨x.1, List.mem_map_of_mem hx, heq⟩

theorem CountsOf.countable {blocks : List Block} (h : CountsOf blocks counts)
    (hfew : blocks.length < 2 ^ 63) : Countable counts := by
  rw [Countable, weight_eq_gain, h.gain_eq]
  exact lt_of_le_of_lt List.countP_le_length hfew

/-- The pass counts the blocks that are kept for training, each of them once. -/
theorem countTrainingBlocks_countsOf {splits : Splits} (hof : SplitsOf options traces splits)
    (hfew : (trainedBlocks options traces).length < 2 ^ 64) :
    ∃ counts, options.countTrainingBlocks splits = .ok counts ∧
      CountsOf ((trainedBlocks options traces).map Prod.fst) counts ∧
      ∀ entry ∈ counts.entries, entry.1.size = options.blockSize.val := by
  rw [trainedBlocks, ← hof.traces_eq] at hfew ⊢
  exact ⟨_, countTrainingBlocks_eq hof.split_opened, countsOf_foldl_increment hfew, size_counted⟩

theorem countTrainingBlocks_countable {splits : Splits} (hof : SplitsOf options traces splits)
    (hfew : (trainedBlocks options traces).length < 2 ^ 63) :
    ∃ counts, options.countTrainingBlocks splits = .ok counts ∧ Countable counts ∧
      ∀ entry ∈ counts.entries, entry.1.size = options.blockSize.val := by
  obtain ⟨counts, hcounts, hcountsOf, hsize⟩ := countTrainingBlocks_countsOf hof
    (lt_trans hfew (by decide))
  refine ⟨counts, hcounts, hcountsOf.countable ?_, hsize⟩
  rw [List.length_map]
  exact hfew

/-! Whole runs. -/

/-- What the command needs of its options. -/
structure TrainOptions.Demands (options : TrainOptions) : Prop where
  targets_ne : options.targets ≠ []
  targets_nodup : (options.targets.map TargetSpec.size).Nodup
  checked : ∀ target ∈ options.targets, target.Checked options
  layout : ∀ target ∈ options.targets, TagLayout (target.toSet ⟨[], Vec.empty_lt⟩)

/-- What it needs of its options and its traces. -/
structure Trainable (options : TrainOptions) (traces : List Trace) : Prop where
  demands : options.Demands
  traces_ne : traces ≠ []
  blocks_ne : ∀ trace ∈ traces, trace.blocks options.blockSize ≠ []

theorem TargetSpec.Checked.validSet (h : target.Checked options)
    (hlayout : TagLayout (target.toSet ⟨[], Vec.empty_lt⟩)) {patterns : Vec Pattern}
    (hcount : patterns.size ≤ target.patternCount.val)
    (hpatterns : ∀ p ∈ patterns.toList, p.size = options.blockSize.val ∧
      p.rank ≤ target.size.val - target.metadataBytes.val) :
    ValidSet options.blockSize (target.toSet patterns) := by
  refine ⟨?_, h.metadata_lt, h.size_lt,
    ⟨hlayout.bytes_le, hlayout.tag_le, hlayout.tag_le_digits, hlayout.id_lt, hlayout.value_fits⟩,
    ?_, fun p hp => (hpatterns p hp).1, fun p hp => (hpatterns p hp).2⟩
  · exact lt_of_le_of_lt (Nat.zero_le _) h.metadata_lt
  · intro hbits
    have hfits := h.count_fits
    have hbytes : target.metadataBytes.val ≤ sizeMax / 8 := hlayout.bytes_le
    have hbits8 : (target.metadataBytes * 8).val = target.metadataBytes.val * 8 :=
      val_metadataBits hlayout.bytes_le
    have htag : ¬ target.metadataTagBits > target.metadataBytes * 8 := by
      rw [gt_iff_lt, not_lt, Fin.le_def, hbits8]
      exact hlayout.tag_le
    rw [patternCountFits, if_neg (not_lt.mpr hbytes)] at hfits
    dsimp only at hfits
    rw [if_neg htag, hbits8] at hfits
    exact hcount.trans (countFitsBits_iff.mp hfits hbits)

theorem trainedTargets_valid {sets : List (PatternSet × TrainingStats)}
    (hblock : options.blockSize.val ≤ 65536)
    (hsize : ∀ entry ∈ counts.entries, entry.1.size = options.blockSize.val)
    (hcountable : Countable counts)
    (hsets : List.Forall₂ (fun target x => options.trainTarget lib counts n target = .ok x)
      options.targets sets) :
    List.Forall₂ (fun (target : TargetSpec) (set : PatternSet) =>
      set = target.toSet set.patterns ∧ set.patterns.size ≤ target.patternCount.val ∧
        (TagLayout (target.toSet ⟨[], Vec.empty_lt⟩) → ValidSet options.blockSize set))
      options.targets (sets.map Prod.fst) := by
  rw [List.forall₂_map_right_iff]
  refine hsets.imp ?_
  rintro target ⟨set, stats⟩ hset
  have hchecked := checked_of_trainTarget hset
  obtain ⟨patterns, stats', htrain, hcount, hpatterns⟩ :=
    trainTarget_checked hblock hsize hcountable hchecked n
  obtain ⟨rfl, -⟩ := Prod.mk.inj (Except.ok.inj (hset.symm.trans htrain))
  exact ⟨rfl, hcount, fun hlayout => hchecked.validSet hlayout hcount hpatterns⟩

/-- The targets of a command and the sets it has trained for them. -/
def TrainedFor (targets : List TargetSpec) (sets : List PatternSet) : Prop :=
  List.Forall₂ (fun (target : TargetSpec) (set : PatternSet) =>
    set = target.toSet set.patterns ∧ set.patterns.size ≤ target.patternCount.val) targets sets

theorem TrainedFor.targetSizes {targets : List TargetSpec} {sets : List PatternSet}
    (h : TrainedFor targets sets) :
    sets.map PatternSet.targetSize = targets.map TargetSpec.size := by
  induction h with
  | nil => rfl
  | cons hset _ ih =>
    rw [List.map_cons, List.map_cons, ih, hset.1]
    rfl

theorem set_of_trainTarget (h : options.trainTarget lib counts n target = .ok (set, stats)) :
    set = target.toSet set.patterns := by
  simp only [TrainOptions.trainTarget, check_bind_eq_ok, throwIf_eq_ok] at h
  obtain ⟨-, -, -, h⟩ := h
  obtain ⟨trainer, -, h⟩ := bind_eq_ok.mp h
  obtain ⟨trained, -, h⟩ := bind_eq_ok.mp h
  obtain ⟨patterns, -, h⟩ := bind_eq_ok.mp h
  cases h
  rfl

/-- What a run saves is the text of a valid model, with a set for every target. -/
theorem trainFromTraces_saves {run : TrainingRun}
    (h : trainFromTraces lib options traces = .ok run) :
    ∃ model, run.saved = modelText model ∧ ValidModel model ∧
      model.blockSize = options.blockSize ∧
      List.Forall₂ (fun (target : TargetSpec) (set : PatternSet) => set = target.toSet set.patterns)
        options.targets model.sets := by
  obtain ⟨splits, -, h⟩ := bind_eq_ok.mp h
  obtain ⟨counts, -, h⟩ := bind_eq_ok.mp h
  obtain ⟨trained, htrained, h⟩ := bind_eq_ok.mp h
  obtain ⟨saved, hsaved, h⟩ := bind_eq_ok.mp h
  cases h
  obtain ⟨hvalid, hsavedText⟩ := saveModel_ok hsaved
  refine ⟨_, hsavedText, hvalid, rfl, ?_⟩
  rw [List.forall₂_map_right_iff]
  exact (mapM_eq_ok_iff.mp htrained).imp fun _ _ hset => set_of_trainTarget hset

/-- A run that succeeds has met every demand, and what it has saved loads. -/
theorem trainFromTraces_loads {run : TrainingRun} (hblock : options.blockSize.val ≤ 65536)
    (hfew : (trainedBlocks options traces).length < 2 ^ 63)
    (h : trainFromTraces lib options traces = .ok run) :
    Trainable options traces ∧ ∃ model, run.saved = modelText model ∧ ValidModel model ∧
      model.blockSize = options.blockSize ∧ TrainedFor options.targets model.sets := by
  obtain ⟨splits, hsplits, h⟩ := bind_eq_ok.mp h
  obtain ⟨counts, hcounts, h⟩ := bind_eq_ok.mp h
  obtain ⟨trained, htrained, h⟩ := bind_eq_ok.mp h
  obtain ⟨saved, hsaved, h⟩ := bind_eq_ok.mp h
  cases h
  obtain ⟨counts', hcounts', hcountable, hsize⟩ :=
    countTrainingBlocks_countable (splitTraces_spec hsplits) hfew
  obtain rfl := Except.ok.inj (hcounts.symm.trans hcounts')
  obtain ⟨hvalid, hsavedText⟩ := saveModel_ok hsaved
  have hall := mapM_eq_ok_iff.mp htrained
  have hsets := trainedTargets_valid hblock hsize hcountable hall
  have hfor : TrainedFor options.targets (trained.map Prod.fst) :=
    hsets.imp fun _ _ hset => ⟨hset.1, hset.2.1⟩
  have hne : (trainedBlocks options traces).length < 2 ^ 64 := lt_trans hfew (by decide)
  obtain ⟨htraces, hblocks⟩ := (splitTraces_succeeds_iff hne).mp ⟨splits, hsplits⟩
  refine ⟨⟨⟨?_, ?_, ?_, ?_⟩, htraces, hblocks⟩, _, hsavedText, hvalid, rfl, hfor⟩
  · intro hnil
    refine hvalid.sets_ne (List.eq_nil_of_length_eq_zero ?_)
    have hlength := hfor.length_eq
    rw [hnil] at hlength
    exact hlength.symm
  · rw [← hfor.targetSizes]
    exact hvalid.targets_nodup
  · intro target htarget
    obtain ⟨x, -, hx⟩ := exists_of_mem_left hall htarget
    exact checked_of_trainTarget hx
  · intro target htarget
    obtain ⟨set, hset, heq, -⟩ := exists_of_mem_left hfor htarget
    have hlayout := (hvalid.sets_valid set hset).layout
    rw [heq] at hlayout
    exact ⟨hlayout.bytes_le, hlayout.tag_le, hlayout.tag_le_digits, hlayout.id_lt,
      hlayout.value_fits⟩

/-- No check after the first block has been read depends on the blocks. -/
theorem trainFromTraces_ok (lib : Library) (hblock : options.blockSize.val ≤ 65536)
    (hfew : (trainedBlocks options traces).length < 2 ^ 63) (h : Trainable options traces) :
    ∃ run, trainFromTraces lib options traces = .ok run := by
  have hne : (trainedBlocks options traces).length < 2 ^ 64 := lt_trans hfew (by decide)
  obtain ⟨splits, hsplits⟩ := (splitTraces_succeeds_iff hne).mpr ⟨h.traces_ne, h.blocks_ne⟩
  obtain ⟨counts, hcounts, hcountable, hsize⟩ :=
    countTrainingBlocks_countable (splitTraces_spec hsplits) hfew
  obtain ⟨trained, htrained⟩ :=
    exists_mapM_ok (f := options.trainTarget lib counts splits.trainingBlockCount) fun target ht =>
      (trainTarget_checked hblock hsize hcountable (h.demands.checked target ht)
        splits.trainingBlockCount).elim fun _ hrest => hrest.elim fun _ hrun => ⟨_, hrun.1⟩
  have hsets := trainedTargets_valid hblock hsize hcountable (mapM_eq_ok_iff.mp htrained)
  have hfor : TrainedFor options.targets (trained.map Prod.fst) :=
    hsets.imp fun _ _ hset => ⟨hset.1, hset.2.1⟩
  have hvalid : ValidModel ⟨options.blockSize, trained.map Prod.fst⟩ := by
    refine ⟨Nat.pos_of_ne_zero fun hzero => options.blockSize_ne (Fin.ext hzero), ?_, ?_, ?_⟩
    · intro hnil
      refine h.demands.targets_ne (List.eq_nil_of_length_eq_zero ?_)
      have hlength := hfor.length_eq
      have hnil' : trained.map Prod.fst = [] := hnil
      rw [hnil'] at hlength
      exact hlength
    · intro set hset
      obtain ⟨target, htarget, -, -, hset'⟩ := exists_of_mem_left hsets.flip hset
      exact hset' (h.demands.layout target htarget)
    · exact hfor.targetSizes.symm ▸ h.demands.targets_nodup
  have haccepted : validateModel ⟨options.blockSize, trained.map Prod.fst⟩ = .ok () :=
    validateModel_iff.mpr hvalid
  have hsave : saveModel ⟨options.blockSize, trained.map Prod.fst⟩ =
      .ok (modelText ⟨options.blockSize, trained.map Prod.fst⟩) := by
    rw [saveModel, haccepted]
    rfl
  refine ⟨{
    saved := modelText ⟨options.blockSize, trained.map Prod.fst⟩
    stats := trained.map Prod.snd
    evaluation := options.evaluateHoldout ⟨options.blockSize, trained.map Prod.fst⟩ splits }, ?_⟩
  rw [trainFromTraces, hsplits, ok_bind, hcounts, ok_bind, htrained, ok_bind]
  dsimp only
  rw [hsave]
  rfl

/-- The command succeeds exactly on options and traces that meet its demands. -/
theorem trainFromTraces_succeeds_iff (lib : Library) {options : TrainOptions} {traces : List Trace}
    (hblock : options.blockSize.val ≤ 65536)
    (hfew : (trainedBlocks options traces).length < 2 ^ 63) :
    (∃ run, trainFromTraces lib options traces = .ok run) ↔ Trainable options traces := by
  constructor
  · rintro ⟨run, h⟩
    exact (trainFromTraces_loads hblock hfew h).1
  · exact trainFromTraces_ok lib hblock hfew

theorem TrainOptions.demands_singleton (htargets : options.targets = [target])
    (hchecked : target.Checked options) (hlayout : TagLayout (target.toSet ⟨[], Vec.empty_lt⟩)) :
    options.Demands := by
  refine ⟨?_, ?_, ?_, ?_⟩
  · rw [htargets]
    exact List.cons_ne_nil _ _
  · rw [htargets]
    exact List.nodup_singleton _
  · intro other hother
    rw [htargets, List.mem_singleton] at hother
    exact hother ▸ hchecked
  · intro other hother
    rw [htargets, List.mem_singleton] at hother
    exact hother ▸ hlayout

theorem exampleOptions_demands : exampleOptions.Demands :=
  TrainOptions.demands_singleton rfl
    ⟨by decide, by decide, by decide, by decide, by decide⟩
    ⟨by decide, by decide, by decide, by decide, by decide⟩

/-- A trace of two blocks is trained on; one that is cut within its first block is not. -/
theorem exampleOptions_succeeds_iff :
    (∃ run, trainFromTraces insertionLibrary exampleOptions
      [exampleTrace ⟨[1, 1, 1, 1, 2, 2, 2, 2, 9], by decide⟩] = .ok run) ∧
    ¬ ∃ run, trainFromTraces insertionLibrary exampleOptions
      [exampleTrace ⟨[1, 1, 1], by decide⟩] = .ok run := by
  constructor
  · refine (trainFromTraces_succeeds_iff insertionLibrary (by decide) (by decide +kernel)).mpr
      ⟨exampleOptions_demands, List.cons_ne_nil _ _, ?_⟩
    intro trace htrace
    obtain rfl := List.mem_singleton.mp htrace
    decide +kernel
  · intro h
    exact ((trainFromTraces_succeeds_iff insertionLibrary (by decide) (by decide +kernel)).mp
      h).blocks_ne _ List.mem_cons_self (by decide +kernel)

end ByteSelect
