import ByteSelect.TraceTool
import ByteSelect.TrainedModel

/-! Training on traces that the trace tool has recorded: its blocks are the recorded lines. -/
namespace ByteSelect

open Loops
open CachelineTrace (Knobs Event Visit visits wanted configure)

/-! Whole lines. -/

theorem fullBlocks_flatten {n : ℕ} (hn : 0 < n) {lines : List Block}
    (h : ∀ line ∈ lines, line.length = n) : fullBlocks n lines.flatten = lines := by
  induction lines with
  | nil => exact fullBlocks_of_lt hn
  | cons line lines ih =>
    rw [List.forall_mem_cons] at h
    obtain ⟨rfl, hlines⟩ := h
    have hle : line.length ≤ (line ++ lines.flatten).length := by
      rw [List.length_append]
      exact Nat.le_add_right _ _
    rw [List.flatten_cons, fullBlocks_cons hn hle, List.take_left, List.drop_left, ih hlines]

/-! The part that a split keeps for training. -/

/-- What is left of a trace when `percent` of its blocks are held out from its middle. -/
def outsideMiddle {α : Type} (percent : ℕ) (l : List α) : List α :=
  let held := l.length * percent / 100
  l.take ((l.length - held) / 2) ++ l.drop ((l.length - held) / 2 + held)

theorem length_outsideMiddle_le {α : Type} (percent : ℕ) (l : List α) :
    (outsideMiddle percent l).length ≤ l.length := by
  rw [outsideMiddle, List.length_append, List.length_take, List.length_drop]
  omega

theorem map_fst_filter_zipIdx {α : Type} (l : List α) {first last : ℕ} (hle : first ≤ last)
    (hlast : last ≤ l.length) :
    (l.zipIdx.filter fun x => x.2 < first ∨ last ≤ x.2).map Prod.fst =
      l.take first ++ l.drop last := by
  have hsplit : l = l.take first ++ ((l.drop first).take (last - first) ++ l.drop last) := by
    have hmiddle := List.take_append_drop (last - first) (l.drop first)
    rw [List.drop_drop, Nat.add_sub_cancel' hle] at hmiddle
    rw [hmiddle, List.take_append_drop]
  have hfirst : (l.take first).length = first := by
    rw [List.length_take]
    omega
  have hmiddle : ((l.drop first).take (last - first)).length = last - first := by
    rw [List.length_take, List.length_drop]
    omega
  have hall : ∀ x ∈ (l.take first).zipIdx 0, decide (x.2 < first ∨ last ≤ x.2) = true := by
    intro x hx
    have hlt := List.snd_lt_add_of_mem_zipIdx hx
    exact decide_eq_true (Or.inl (by omega))
  have hnone : ∀ x ∈ ((l.drop first).take (last - first)).zipIdx first,
      ¬ decide (x.2 < first ∨ last ≤ x.2) = true := by
    intro x hx
    have hge := List.le_snd_of_mem_zipIdx hx
    have hlt := List.snd_lt_add_of_mem_zipIdx hx
    rw [decide_eq_true_eq]
    omega
  have hrest : ∀ x ∈ (l.drop last).zipIdx last, decide (x.2 < first ∨ last ≤ x.2) = true := by
    intro x hx
    exact decide_eq_true (Or.inr (List.le_snd_of_mem_zipIdx hx))
  have hzip : l.zipIdx 0 = (l.take first).zipIdx 0 ++
      (((l.drop first).take (last - first)).zipIdx first ++ (l.drop last).zipIdx last) := by
    conv_lhs => rw [hsplit]
    rw [List.zipIdx_append, List.zipIdx_append, hfirst, hmiddle, Nat.zero_add,
      Nat.add_sub_cancel' hle]
  rw [hzip, List.filter_append, List.filter_append, List.filter_eq_self.mpr hall,
    List.filter_eq_nil_iff.mpr hnone, List.filter_eq_self.mpr hrest, List.nil_append,
    List.map_append]
  simp only [List.zipIdx_map_fst]

section Splits

variable {options : TrainOptions} {trace : Trace}

theorem val_holdoutCount (hfew : (trace.blocks options.blockSize).length < 2 ^ 57) :
    (options.holdoutCount (options.splitOf trace).blocks).val =
      (trace.blocks options.blockSize).length * options.holdoutPercent.val / 100 := by
  obtain ⟨hblocks, -, -⟩ := @val_splitOf options trace
  have hpercent := Fin.lt_def.mp options.holdoutPercent_lt
  have hval : (100 : SizeT).val = 100 := rfl
  rw [hval] at hpercent
  have hmul : (trace.blocks options.blockSize).length * options.holdoutPercent.val ≤
      (trace.blocks options.blockSize).length * 99 := Nat.mul_le_mul_left _ (by omega)
  rw [TrainOptions.holdoutCount, Fin.div_val, Fin.val_mul, hval, hblocks, Nat.mod_eq_of_lt]
  omega

theorem map_fst_trainingBlocks (hfew : (trace.blocks options.blockSize).length < 2 ^ 57) :
    (trainingBlocks options.blockSize (options.splitOf trace)).map Prod.fst =
      outsideMiddle options.holdoutPercent.val (trace.blocks options.blockSize) := by
  obtain ⟨hblocks, hend, hlast⟩ := @val_splitOf options trace
  have hheld := val_holdoutCount hfew
  have hle := Fin.le_def.mp (@holdoutCount_le options (options.splitOf trace).blocks)
  have hbegin : (options.splitOf trace).holdoutBegin.val =
      ((options.splitOf trace).blocks - options.holdoutCount (options.splitOf trace).blocks).val / 2 :=
    rfl
  rw [Fin.sub_val_of_le (Fin.le_def.mpr hle), hblocks] at hbegin
  have htrains : ∀ x ∈ (trace.blocks options.blockSize).zipIdx,
      (options.splitOf trace).trains (Fin.ofNat _ x.2) =
        decide (x.2 < (options.splitOf trace).holdoutBegin.val ∨
          (options.splitOf trace).holdoutEnd.val ≤ x.2) := by
    intro x hx
    have hlt := List.snd_lt_add_of_mem_zipIdx hx
    have hval : (Fin.ofNat (2 ^ 64) x.2).val = x.2 := Nat.mod_eq_of_lt (by omega)
    rw [TraceSplit.trains, decide_eq_decide, Fin.lt_def, ge_iff_le, Fin.le_def, hval]
  have htrace : (options.splitOf trace).trace = trace := rfl
  rw [trainingBlocks, taken, htrace, List.filter_congr htrains,
    map_fst_filter_zipIdx _ (by omega) hlast, hend, hbegin, hheld]
  rfl

end Splits

/-! Recordings. -/

/-- A run of the trace tool whose trace can be read. -/
structure Recording where
  knobs : Knobs
  setCount : ℕ
  events : List Event
  configured : configure knobs true = .ok setCount
  calls_lt : events.length < 2 ^ 64
  visits_lt : (visits knobs events).length < 2 ^ 64
  output_lt : (CachelineTrace.run knobs setCount events).output.length < 2 ^ 63

namespace Recording

def trace (recording : Recording) : Trace where
  path := recording.knobs.outputPath
  contents := some ⟨_, recording.output_lt⟩

def lineSize (recording : Recording) : SizeT :=
  Fin.castLE (by decide) recording.knobs.cacheLineSize

/-- The lines that the run was to record. -/
noncomputable def lines (recording : Recording) : List Block :=
  ((wanted recording.knobs recording.setCount
    (visits recording.knobs recording.events)).map Visit.copied).reduceOption.take
      recording.knobs.maximumBlocks.val

variable {recording : Recording}

theorem output_eq (recording : Recording) :
    (CachelineTrace.run recording.knobs recording.setCount recording.events).output =
      recording.lines.flatten := by
  obtain ⟨hsets, hways, hsize⟩ := CachelineTrace.configure_eq_ok recording.configured
  have hrecords := (CachelineTrace.run_records hsets hways hsize recording.calls_lt
    recording.visits_lt).1
  rw [hrecords.copied.output_eq, CachelineTrace.copies, Histories.reduceOption_attempts]
  rfl

theorem recorded_eq (recording : Recording) :
    (CachelineTrace.run recording.knobs recording.setCount recording.events).recorded =
      recording.lines.length := by
  obtain ⟨hsets, hways, hsize⟩ := CachelineTrace.configure_eq_ok recording.configured
  have hrecords := (CachelineTrace.run_records hsets hways hsize recording.calls_lt
    recording.visits_lt).1
  rw [hrecords.copied.recorded_eq, CachelineTrace.copies, Histories.reduceOption_attempts]
  rfl

theorem length_of_mem_lines : ∀ line ∈ recording.lines, line.length = recording.lineSize.val := by
  intro line hline
  have hsome := List.mem_of_mem_take hline
  rw [List.reduceOption_mem_iff, List.mem_map] at hsome
  obtain ⟨visit, hvisit, hcopied⟩ := hsome
  exact CachelineTrace.length_copied (CachelineTrace.mem_of_mem_wanted hvisit) hcopied

theorem lineSize_pos (recording : Recording) : 0 < recording.lineSize.val :=
  (CachelineTrace.configure_eq_ok recording.configured).2.2

/-- The blocks of the trace are the lines of the run. -/
theorem blocks_eq (recording : Recording) :
    recording.trace.blocks recording.lineSize = recording.lines := by
  have hcontents : recording.trace.blocks recording.lineSize =
      fullBlocks recording.lineSize.val recording.lines.flatten :=
    congrArg (fullBlocks recording.lineSize.val) recording.output_eq
  rw [hcontents, fullBlocks_flatten recording.lineSize_pos length_of_mem_lines]

end Recording

variable {options : TrainOptions} {recordings : List Recording}

theorem map_fst_trainedBlocks
    (hsize : ∀ recording ∈ recordings, recording.lineSize = options.blockSize)
    (hfew : (recordings.flatMap Recording.lines).length < 2 ^ 57) :
    (trainedBlocks options (recordings.map Recording.trace)).map Prod.fst =
      recordings.flatMap fun recording =>
        outsideMiddle options.holdoutPercent.val recording.lines := by
  induction recordings with
  | nil => rfl
  | cons recording recordings ih =>
    rw [List.forall_mem_cons] at hsize
    rw [List.flatMap_cons, List.length_append] at hfew
    have hblocks : recording.trace.blocks options.blockSize = recording.lines := by
      rw [← hsize.1]
      exact recording.blocks_eq
    have hfirst := @map_fst_trainingBlocks options recording.trace (by rw [hblocks]; omega)
    have hrest := ih hsize.2 (by omega)
    rw [hblocks] at hfirst
    rw [trainedBlocks] at hrest ⊢
    rw [List.map_cons, List.map_cons, List.flatMap_cons, List.map_append, List.flatMap_cons, hfirst,
      hrest]

theorem blocksSeen_of_trainTarget {counts : CountMap} {lib : Library} {n : SizeT}
    {target : TargetSpec} {set : PatternSet} {stats : TrainingStats}
    (h : options.trainTarget lib counts n target = .ok (set, stats)) : stats.blocksSeen = n.val := by
  simp only [TrainOptions.trainTarget, check_bind_eq_ok, throwIf_eq_ok] at h
  obtain ⟨-, -, -, h⟩ := h
  obtain ⟨trainer, -, h⟩ := bind_eq_ok.mp h
  obtain ⟨trained, -, h⟩ := bind_eq_ok.mp h
  obtain ⟨patterns, -, h⟩ := bind_eq_ok.mp h
  cases h
  rfl

/-- The lines that training on recorded traces is to count, in their order. -/
noncomputable def trainingLines (options : TrainOptions) (recordings : List Recording) :
    List Block :=
  recordings.flatMap fun recording => outsideMiddle options.holdoutPercent.val recording.lines

/-- A training run that has counted exactly these blocks: its map has an entry for the simplest
pattern of each, with the number of blocks that have it, and what is trained, printed and saved
comes from this map. -/
def TrainedOn (lib : Library) (options : TrainOptions) (traces : List Trace) (blocks : List Block)
    (run : TrainingRun) : Prop :=
  ∃ splits counts trained, options.splitTraces traces = .ok splits ∧
    options.countTrainingBlocks splits = .ok counts ∧
    (∀ entry, entry ∈ counts.entries ↔
      entry.1 ∈ blocks.map Pattern.simplest ∧ entry.2.val = occurrences blocks entry.1) ∧
    options.targets.mapM (options.trainTarget lib counts splits.trainingBlockCount) =
      .ok trained ∧
    saveModel ⟨options.blockSize, trained.map Prod.fst⟩ = .ok run.saved ∧
    run.stats = trained.map Prod.snd ∧ ∀ stats ∈ run.stats, stats.blocksSeen = blocks.length

theorem trainedOn_trainedBlocks {lib : Library} {traces : List Trace} {run : TrainingRun}
    (hfew : (trainedBlocks options traces).length < 2 ^ 64)
    (hrun : trainFromTraces lib options traces = .ok run) :
    TrainedOn lib options traces ((trainedBlocks options traces).map Prod.fst) run := by
  obtain ⟨splits, hsplits, hrun⟩ := bind_eq_ok.mp hrun
  obtain ⟨counts, hcounts, hrun⟩ := bind_eq_ok.mp hrun
  obtain ⟨trained, htrained, hrun⟩ := bind_eq_ok.mp hrun
  obtain ⟨saved, hsaved, hrun⟩ := bind_eq_ok.mp hrun
  cases hrun
  have hof := splitTraces_spec hsplits
  obtain ⟨counts', hcounts', hcountsOf, -⟩ := countTrainingBlocks_countsOf hof hfew
  obtain rfl := Except.ok.inj (hcounts.symm.trans hcounts')
  refine ⟨splits, counts, trained, hsplits, hcounts, fun entry => hcountsOf.mem_iff, htrained,
    hsaved, rfl, ?_⟩
  intro stats hstats
  obtain ⟨⟨set, stats⟩, hmem, rfl⟩ := List.mem_map.mp hstats
  obtain ⟨target, -, htarget⟩ := exists_of_mem_left (mapM_eq_ok_iff.mp htrained).flip hmem
  rw [blocksSeen_of_trainTarget htarget, hof.trainingBlockCount_eq, hof.traces_eq, List.length_map]
  exact Nat.mod_eq_of_lt hfew

/-- Training on recorded traces counts the lines that the runs were to record, in their order and
but for the middle that is held out. It fails on its options, and on runs that have recorded
nothing, alone. -/
theorem trainFromTraces_recordings (lib : Library) {options : TrainOptions}
    {recordings : List Recording}
    (hsize : ∀ recording ∈ recordings, recording.lineSize = options.blockSize)
    (hblock : options.blockSize.val ≤ 65536)
    (hfew : (recordings.flatMap Recording.lines).length < 2 ^ 57) :
    ((∃ run, trainFromTraces lib options (recordings.map Recording.trace) = .ok run) ↔
      options.Demands ∧ recordings ≠ [] ∧ ∀ recording ∈ recordings,
        (CachelineTrace.run recording.knobs recording.setCount recording.events).recorded ≠ 0) ∧
    ∀ run, trainFromTraces lib options (recordings.map Recording.trace) = .ok run →
      TrainedOn lib options (recordings.map Recording.trace) (trainingLines options recordings)
        run := by
  have hfst : (trainedBlocks options (recordings.map Recording.trace)).map Prod.fst =
      trainingLines options recordings := map_fst_trainedBlocks hsize hfew
  have hlength := congrArg List.length hfst
  rw [List.length_map] at hlength
  have hle : (trainingLines options recordings).length ≤
      (recordings.flatMap Recording.lines).length := by
    rw [trainingLines, List.length_flatMap, List.length_flatMap]
    exact List.sum_le_sum fun recording _ => length_outsideMiddle_le _ _
  have hmany : (trainedBlocks options (recordings.map Recording.trace)).length < 2 ^ 63 := by omega
  have hrecorded : ∀ recording ∈ recordings,
      (recording.trace.blocks options.blockSize ≠ [] ↔
        (CachelineTrace.run recording.knobs recording.setCount recording.events).recorded ≠ 0) := by
    intro recording hmem
    rw [← hsize recording hmem, recording.blocks_eq, recording.recorded_eq, ne_eq, ne_eq,
      List.length_eq_zero_iff]
  refine ⟨⟨?_, ?_⟩, ?_⟩
  · rintro ⟨run, hrun⟩
    obtain ⟨hdemands, htraces, hblocks⟩ := (trainFromTraces_loads hblock hmany hrun).1
    refine ⟨hdemands, fun hnil => htraces (List.map_eq_nil_iff.mpr hnil), ?_⟩
    intro recording hmem
    exact (hrecorded recording hmem).mp (hblocks _ (List.mem_map_of_mem hmem))
  · rintro ⟨hdemands, hne, hall⟩
    refine trainFromTraces_ok lib hblock hmany ⟨hdemands, ?_, ?_⟩
    · exact fun hnil => hne (List.map_eq_nil_iff.mp hnil)
    · intro trace htrace
      obtain ⟨recording, hmem, rfl⟩ := List.mem_map.mp htrace
      exact (hrecorded recording hmem).mpr (hall recording hmem)
  · intro run hrun
    rw [← hfst]
    exact trainedOn_trainedBlocks (lt_trans hmany (by decide)) hrun

/-- Two runs of the program whose threads trace one routine. -/
def exampleRecording : Recording where
  knobs := CachelineTrace.exampleKnobs
  setCount := 1024
  events := CachelineTrace.exampleEvents
  configured := CachelineTrace.configure_exampleKnobs
  calls_lt := by decide
  visits_lt := by rw [CachelineTrace.length_visits_exampleEvents]; decide
  output_lt := lt_of_le_of_lt (CachelineTrace.length_output_le _ _ _) (by decide)

theorem recorded_exampleRecording : (CachelineTrace.run exampleRecording.knobs
    exampleRecording.setCount exampleRecording.events).recorded ≠ 0 := by
  decide +kernel

def exampleLineOptions : TrainOptions where
  blockSize := exampleRecording.lineSize
  holdoutPercent := 25
  targets := [⟨32, 256, 1, 0, 0⟩]

theorem exampleLineOptions_demands : exampleLineOptions.Demands :=
  TrainOptions.demands_singleton rfl
    ⟨by decide, by decide, by decide, by decide, by decide⟩
    ⟨by decide, by decide, by decide, by decide, by decide⟩

theorem exampleRecording_trains :
    ∃ run, trainFromTraces insertionLibrary exampleLineOptions
        [exampleRecording.trace, exampleRecording.trace] = .ok run ∧
      TrainedOn insertionLibrary exampleLineOptions
        [exampleRecording.trace, exampleRecording.trace]
        (trainingLines exampleLineOptions [exampleRecording, exampleRecording]) run := by
  have hle : exampleRecording.lines.length ≤ 2 := List.length_take_le _ _
  have hrecordings := @trainFromTraces_recordings insertionLibrary exampleLineOptions
    [exampleRecording, exampleRecording] (by decide) (by decide) (by
      simp only [List.flatMap_cons, List.flatMap_nil, List.length_append, List.length_nil]
      omega)
  obtain ⟨run, hrun⟩ := hrecordings.1.mpr ⟨exampleLineOptions_demands, List.cons_ne_nil _ _, by
    intro recording hmem
    rw [List.mem_cons, List.mem_singleton, or_self] at hmem
    subst hmem
    exact recorded_exampleRecording⟩
  exact ⟨run, hrun, hrecordings.2 run hrun⟩

end ByteSelect
