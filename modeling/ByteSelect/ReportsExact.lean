import ByteSelect.Meters

/-! What the reporting commands report, whatever the traces: each trace on its own, and all of
them as if they were one. -/
namespace ByteSelect

open Accounting Baseline Loops TextStream

variable {files : Files} {model : Model} {blockSize metadataBytes : SizeT} {path modelPath : Text}
  {paths options : List Text} {bss : List BlockVector} {blocks : BlockVector} {bytes : Vec Byte}

/-! Reading. -/

theorem splitFrom_eq {l : List Byte} {n : ℕ} (hn : n ≠ 0) (offset turns : ℕ)
    (hturns : (l.length - offset) / n ≤ turns) : splitFrom l n offset turns =
      (List.range ((l.length - offset) / n)).map fun i => (l.drop (offset + i * n)).take n := by
  induction turns generalizing offset with
  | zero => rw [Nat.le_zero.mp hturns, splitFrom, List.range_zero, List.map_nil]
  | succ turns ih =>
    rw [splitFrom]
    split
    · rename_i hfits
      have hnext : (l.length - offset) / n = (l.length - (offset + n)) / n + 1 := by
        rw [Nat.sub_add_eq, Nat.div_eq_sub_div (Nat.pos_of_ne_zero hn) (by omega)]
      rw [hnext] at hturns
      rw [ih _ (Nat.le_of_succ_le_succ hturns), hnext, List.range_succ_eq_map, List.map_cons,
        List.map_map, Nat.zero_mul, Nat.add_zero]
      congr 1
      apply List.map_congr_left
      intro i _
      rw [Function.comp_apply, Nat.succ_mul, Nat.add_assoc, Nat.add_comm n]
    · rename_i hshort
      have hnone : (l.length - offset) / n = 0 := Nat.div_eq_of_lt (by omega)
      rw [hnone, List.range_zero, List.map_nil]

theorem splitBlocks_toList (h : blockSize.val ≠ 0) (bytes : Vec Byte) :
    (splitBlocks bytes blockSize).toList = fullBlocks blockSize.val bytes.toList := by
  have heq := splitFrom_eq h 0 bytes.size (l := bytes.toList) (Nat.div_le_self _ _)
  simp only [Nat.zero_add, Nat.sub_zero] at heq
  exact heq

theorem BlockVector.ext {a b : BlockVector} (h : a.toList = b.toList) : a = b := by
  cases a
  cases b
  cases h
  rfl

/-- The full blocks of a file that can be read, and has one. -/
structure Traced (files : Files) (blockSize : SizeT) (path : Text) (blocks : BlockVector) :
    Prop where
  opens : ∃ bytes, openFile files path = some bytes ∧
    blocks.toList = fullBlocks blockSize.val bytes.toList
  ne_nil : blocks.toList ≠ []

theorem Traced.sized (h : Traced files blockSize path blocks) :
    ∀ block ∈ blocks.toList, block.length = blockSize.val := by
  obtain ⟨bytes, -, hblocks⟩ := h.opens
  rw [hblocks]
  exact length_of_mem_fullBlocks

theorem readBytes_eq_ok : readBytes files path = .ok bytes ↔ openFile files path = some bytes := by
  unfold readBytes
  cases openFile files path with
  | none => exact iff_of_false (fun h => by cases h) fun h => by cases h
  | some found => exact ⟨fun h => congrArg some (Except.ok.inj h), fun h => by cases h; rfl⟩

theorem readTrace_eq_ok (hsize : blockSize.val ≠ 0) (what : String) :
    readTrace files blockSize what path = .ok blocks ↔ Traced files blockSize path blocks := by
  rw [readTrace, bind_eq_ok_iff]
  simp only [readBytes_eq_ok]
  constructor
  · rintro ⟨bytes, hopen, h⟩
    split at h
    · cases h
    · rename_i hne
      cases h
      exact ⟨⟨bytes, hopen, splitBlocks_toList hsize bytes⟩, hne⟩
  · rintro ⟨⟨bytes, hopen, hblocks⟩, hne⟩
    have hsame : splitBlocks bytes blockSize = blocks :=
      BlockVector.ext ((splitBlocks_toList hsize bytes).trans hblocks.symm)
    exact ⟨bytes, hopen, by rw [hsame, if_neg hne]; rfl⟩

/-- A loop over the traces is one over what they are read as. -/
theorem overTraces_eq_ok {σ : Type} {measure : σ → BlockVector → Except Error σ}
    {start result : σ} (hsize : blockSize.val ≠ 0) (what : String) :
    overTraces files blockSize what measure start paths = .ok result ↔
      ∃ bss, List.Forall₂ (Traced files blockSize) paths bss ∧
        bss.foldlM measure start = .ok result := by
  rw [overTraces]
  induction paths generalizing start with
  | nil =>
    constructor
    · intro h
      cases h
      exact ⟨[], .nil, rfl⟩
    · rintro ⟨bss, hbss, h⟩
      cases hbss
      cases h
      rfl
  | cons path paths ih =>
    simp only [List.foldlM_cons, bind_eq_ok_iff, readTrace_eq_ok hsize, mapError_eq_ok]
    constructor
    · rintro ⟨next, ⟨blocks, hblocks, hnext⟩, hrest⟩
      obtain ⟨bss, hbss, hresult⟩ := ih.mp hrest
      exact ⟨blocks :: bss, .cons hblocks hbss, bind_eq_ok_iff.mpr ⟨next, hnext, hresult⟩⟩
    · rintro ⟨bss, hbss, h⟩
      obtain ⟨blocks, bss, hblocks, hpaths, rfl⟩ := List.forall₂_cons_left_iff.mp hbss
      obtain ⟨next, hnext, hresult⟩ := bind_eq_ok_iff.mp h
      exact ⟨next, ⟨blocks, hblocks, hnext⟩, ih.mpr ⟨bss, hpaths, hresult⟩⟩

/-- The model that a file holds, and the traces that others hold. -/
structure Readings (files : Files) (modelPath : Text) (paths : List Text) (model : Model)
    (bss : List BlockVector) : Prop where
  load : loadModelFile files modelPath = .ok model
  traces : List.Forall₂ (Traced files model.blockSize) paths bss

theorem ne_nil_of_traced (h : List.Forall₂ (Traced files blockSize) paths bss) (hne : paths ≠ []) :
    bss ≠ [] := by
  rintro rfl
  cases h
  exact hne rfl

theorem sized_of_traced (h : List.Forall₂ (Traced files blockSize) paths bss) :
    Sized blockSize.val bss := by
  induction h with
  | nil => exact fun blocks hmem => absurd hmem List.not_mem_nil
  | cons htrace _ ih => exact List.forall_mem_cons.mpr ⟨htrace.sized, ih⟩

/-! The meters. -/

def evaluationMeter (hv : ValidModel model) : Meter Evaluation where
  evaluation := (evaluate · model)
  merge := mergeEvaluation
  entryOf block := (compress block model).map (EncodedBlock.entry block)
  book := .ofTotals
  targets := model.targets
  blockSize := model.blockSize.val
  accepted := True
  books := evaluate_books hv _
  merges _ _ := mergeEvaluation_ofTotals

def upperBoundMeter (model : Model) (metadataBytes : SizeT) : Meter UpperBoundEvaluation where
  evaluation := (evaluateByteSelectUpperBound · (targetSizesFor model) metadataBytes)
  merge := mergeUpperBound
  entryOf := upperBoundEntry (sortUnique (targetSizesFor model)) metadataBytes model.blockSize.val
  book := .ofTotals metadataBytes (sortUnique (targetSizesFor model))
  targets := (sortUnique (targetSizesFor model)).map Fin.val
  blockSize := model.blockSize.val
  accepted := UpperBoundAccepts (sortUnique (targetSizesFor model)) metadataBytes
    model.blockSize.val
  books := upperBound_books _ _ _
  merges _ _ := mergeUpperBound_ofTotals

def baselineMeter (libraries : Libraries) (model : Model) (kind : BaselineKind) :
    Meter BaselineEvaluation where
  evaluation := (evaluateBaseline libraries · kind (targetSizesFor model))
  merge := mergeBaselineEvaluation
  entryOf := baselineEntry libraries kind (sortUnique (targetSizesFor model)) model.blockSize.val
  book := .ofTotals kind (sortUnique (targetSizesFor model))
  targets := (sortUnique (targetSizesFor model)).map Fin.val
  blockSize := model.blockSize.val
  accepted := BaselineAccepts (sortUnique (targetSizesFor model)) model.blockSize.val
  books := baseline_books libraries kind _ _
  merges _ _ := mergeBaselineEvaluation_ofTotals

theorem startEvaluation_eq (hv : ValidModel model) : startEvaluation model =
    (evaluationMeter hv).book (.empty (evaluationMeter hv).targets.length) := by
  change startEvaluation model = .ofTotals (.empty model.targets.length)
  rw [Model.targets, List.length_map]
  rfl

/-! The lists. -/

theorem runEvaluateList_eq_ok {report : Measured Evaluation} :
    runEvaluateList files (modelPath :: paths) = .ok report ↔ paths ≠ [] ∧
      ∃ (model : Model) (hv : ValidModel model) (bss : List BlockVector),
        Readings files modelPath paths model bss ∧ (evaluationMeter hv).Reports bss report := by
  cases paths with
  | nil => exact iff_of_false (fun h => by cases h) fun h => h.1 rfl
  | cons path paths =>
    simp only [runEvaluateList, bind_eq_ok_iff]
    constructor
    · rintro ⟨model, hload, h⟩
      have hv := loadModelFile_valid hload
      obtain ⟨bss, htraces, hloop⟩ := (overTraces_eq_ok hv.block_pos.ne' _).mp h
      rw [startEvaluation_eq hv] at hloop
      exact ⟨List.cons_ne_nil _ _, model, hv, bss, ⟨hload, htraces⟩,
        (Meter.mergeLoop_eq_ok (sized_of_traced htraces)).mp hloop⟩
    · rintro ⟨-, model, hv, bss, hreadings, hreport⟩
      refine ⟨model, hreadings.load, (overTraces_eq_ok hv.block_pos.ne' _).mpr
        ⟨bss, hreadings.traces, ?_⟩⟩
      rw [startEvaluation_eq hv]
      exact (Meter.mergeLoop_eq_ok (sized_of_traced hreadings.traces)).mpr hreport

theorem analyzeTrace_eq_ok (hv : ValidModel model) {s next : Analysis}
    (hupper : s.hasUpper = false ↔ s.upper.traces.length = 0) :
    analyzeTrace model metadataBytes s blocks = .ok next ↔ ∃ actual upper,
      (evaluationMeter hv).mergeStep s.actual blocks = .ok actual ∧
      (upperBoundMeter model metadataBytes).firstStep s.upper blocks = .ok upper ∧
      next = ⟨actual, upper, true⟩ := by
  have hreplace : (!s.hasUpper) = decide (s.upper.traces.length = 0) := by
    rw [← Bool.not_eq_true', ← decide_eq_true_eq (p := s.upper.traces.length = 0)] at hupper
    exact Bool.eq_iff_iff.mpr hupper
  simp only [analyzeTrace, bind_eq_ok_iff, Meter.mergeStep_eq_ok, Meter.firstStep_eq_ok, hreplace]
  constructor
  · rintro ⟨actual, hactual, upper, heval, total, htotal, upperTotal, hmerge, hnext⟩
    exact ⟨_, _, ⟨actual, total, hactual, htotal, rfl⟩, ⟨upper, upperTotal, heval, hmerge, rfl⟩,
      (Except.ok.inj hnext).symm⟩
  · rintro ⟨_, _, ⟨actual, total, hactual, htotal, rfl⟩, ⟨upper, upperTotal, heval, hmerge, rfl⟩,
      rfl⟩
    exact ⟨actual, hactual, upper, heval, total, htotal, upperTotal, hmerge, rfl⟩

/-- What `analyze-list` keeps. -/
structure AnalysisKept (hv : ValidModel model) (metadataBytes : SizeT) (bss : List BlockVector)
    (s : Analysis) : Prop where
  actual : (evaluationMeter hv).Reports bss s.actual
  upper : (upperBoundMeter model metadataBytes).Kept {} bss s.upper
  hasUpper : s.hasUpper = false ↔ bss = []

theorem AnalysisKept.hasUpper_iff {hv : ValidModel model} {s : Analysis}
    (h : AnalysisKept hv metadataBytes bss s) :
    s.hasUpper = false ↔ s.upper.traces.length = 0 := by
  rw [h.hasUpper, h.upper.length_eq, List.length_eq_zero_iff]

theorem analysisKept_nil {hv : ValidModel model} {s : Analysis} :
    AnalysisKept hv metadataBytes [] s ↔ s = ⟨⟨[], startEvaluation model⟩, ⟨[], {}⟩, false⟩ := by
  obtain ⟨actual, upper, hasUpper⟩ := s
  constructor
  · rintro ⟨hactual, hupper, hhas⟩
    have hactual := Meter.reports_nil.mp hactual
    have hupper := Meter.kept_nil.mp hupper
    have hhas := hhas.mpr rfl
    dsimp only at hactual hupper hhas
    rw [hactual, hupper, hhas, startEvaluation_eq hv]
  · intro h
    cases h
    exact ⟨Meter.reports_nil.mpr (by rw [startEvaluation_eq hv]), Meter.kept_nil.mpr rfl,
      iff_of_true rfl rfl⟩

theorem analysisKept_concat {hv : ValidModel model} {next : Analysis}
    (hn : Sized model.blockSize.val (bss ++ [blocks])) :
    AnalysisKept hv metadataBytes (bss ++ [blocks]) next ↔ ∃ s,
      AnalysisKept hv metadataBytes bss s ∧ analyzeTrace model metadataBytes s blocks = .ok next := by
  have hne : bss ++ [blocks] ≠ [] := List.append_ne_nil_of_right_ne_nil _ (List.cons_ne_nil _ _)
  constructor
  · rintro ⟨hactual, hupper, hhas⟩
    obtain ⟨s, hs, hstep⟩ := (Meter.reports_concat hn).mp hactual
    obtain ⟨u, hu, hturn⟩ := (Meter.kept_concat hn).mp hupper
    have hkept : AnalysisKept hv metadataBytes bss ⟨s, u, !bss.isEmpty⟩ := by
      refine ⟨hs, hu, ?_⟩
      cases bss with
      | nil => exact iff_of_true rfl rfl
      | cons trace bss => exact iff_of_false nofun (List.cons_ne_nil _ _)
    refine ⟨_, hkept, (analyzeTrace_eq_ok hv hkept.hasUpper_iff).mpr ⟨_, _, hstep, hturn, ?_⟩⟩
    obtain ⟨actual, upper, hasUpper⟩ := next
    cases hasUpper with
    | false => exact absurd (hhas.mp rfl) hne
    | true => rfl
  · rintro ⟨s, hs, hstep⟩
    obtain ⟨actual, upper, hactual, hupper, rfl⟩ := (analyzeTrace_eq_ok hv hs.hasUpper_iff).mp hstep
    exact ⟨(Meter.reports_concat hn).mpr ⟨_, hs.actual, hactual⟩,
      (Meter.kept_concat hn).mpr ⟨_, hs.upper, hupper⟩, iff_of_false nofun hne⟩

theorem analyzeLoop_eq_ok (hv : ValidModel model) {report : Analysis}
    (hn : Sized model.blockSize.val bss) :
    bss.foldlM (analyzeTrace model metadataBytes) ⟨⟨[], startEvaluation model⟩, ⟨[], {}⟩, false⟩ =
      .ok report ↔ AnalysisKept hv metadataBytes bss report := by
  apply foldlM_eq_ok_iff
  · exact fun _ => analysisKept_nil
  · intro before blocks next hpart
    exact analysisKept_concat fun trace hmem => hn trace (hpart.subset hmem)

/-- Paths, and options that start with one. -/
structure PlainPaths (paths options : List Text) : Prop where
  paths : ∀ path ∈ paths, isOption path = false
  options : ∀ arg ∈ options.head?, isOption arg = true

theorem runAnalyzeList_eq_ok (hplain : PlainPaths paths options) {report : Analysis} :
    runAnalyzeList files (modelPath :: (paths ++ options)) = .ok report ↔ paths ≠ [] ∧
      ∃ metadataBytes, analyzeOptions 1 options = .ok metadataBytes ∧
        ∃ (model : Model) (hv : ValidModel model) (bss : List BlockVector),
          Readings files modelPath paths model bss ∧
          (evaluationMeter hv).Reports bss report.actual ∧
          (upperBoundMeter model metadataBytes).Reports bss report.upper ∧
          report.hasUpper = true := by
  obtain ⟨htake, hdrop⟩ := takeWhile_paths hplain.paths hplain.options
  cases paths with
  | nil =>
    refine iff_of_false (fun h => ?_) fun h => h.1 rfl
    cases options with
    | nil => cases h
    | cons option options =>
      rw [List.nil_append] at h htake
      simp only [runAnalyzeList, htake, if_true] at h
      cases h
  | cons path paths =>
    have hne : path :: paths ≠ [] := List.cons_ne_nil _ _
    rw [List.cons_append] at htake hdrop ⊢
    simp only [runAnalyzeList, htake, hdrop, if_neg hne, bind_eq_ok_iff]
    constructor
    · rintro ⟨metadataBytes, hmetadata, model, hload, h⟩
      have hv := loadModelFile_valid hload
      obtain ⟨bss, htraces, hloop⟩ := (overTraces_eq_ok hv.block_pos.ne' _).mp h
      have hkept := (analyzeLoop_eq_ok hv (sized_of_traced htraces)).mp hloop
      have hbss := ne_nil_of_traced htraces hne
      refine ⟨hne, metadataBytes, hmetadata, model, hv, bss, ⟨hload, htraces⟩, hkept.actual,
        (Meter.kept_iff_reports hbss).mp hkept.upper, ?_⟩
      rw [← Bool.not_eq_false, hkept.hasUpper]
      exact hbss
    · rintro ⟨-, metadataBytes, hmetadata, model, hv, bss, hreadings, hactual, hupper, hhas⟩
      have hbss := ne_nil_of_traced hreadings.traces hne
      refine ⟨metadataBytes, hmetadata, model, hreadings.load,
        (overTraces_eq_ok hv.block_pos.ne' _).mpr ⟨bss, hreadings.traces, ?_⟩⟩
      refine (analyzeLoop_eq_ok hv (sized_of_traced hreadings.traces)).mpr
        ⟨hactual, (Meter.kept_iff_reports hbss).mpr hupper, ?_⟩
      rw [hhas]
      exact iff_of_false nofun hbss

/-! The comparison. A total without blocks counts as one that has not been started, which a count
that starts over could reach. -/

def blockCount (bss : List BlockVector) : ℕ := (bss.flatMap BlockVector.toList).length

theorem blockCount_append (xs ys : List BlockVector) :
    blockCount (xs ++ ys) = blockCount xs + blockCount ys := by
  rw [blockCount, List.flatMap_append, List.length_append]
  rfl

section Comparison

variable {libraries : Libraries} {kind : BaselineKind} {kinds : List BaselineKind}
  {m : Measured BaselineEvaluation}

theorem blocks_of_total {total : BaselineEvaluation}
    (h : (baselineMeter libraries model kind).Total bss total) :
    total.blocks = blockCount bss % 2 ^ 64 := by
  obtain ⟨entries, hentries, rfl⟩ := h
  have hlength := (mapM_eq_ok_iff.mp hentries).length_eq
  change (totals _ entries).items % 2 ^ 64 = _
  rw [items_totals, ← hlength, blockCount]

theorem blocks_eq_zero_iff (h : (baselineMeter libraries model kind).Kept {} bss m)
    (hpos : ∀ trace ∈ bss, trace.toList ≠ []) (hfew : blockCount bss < 2 ^ 64) :
    m.total.blocks = 0 ↔ m.traces.length = 0 := by
  rw [h.length_eq, List.length_eq_zero_iff]
  rcases h with ⟨rfl, rfl⟩ | ⟨hne, hreports⟩
  · exact iff_of_true rfl rfl
  · rw [blocks_of_total hreports.total, Nat.mod_eq_of_lt hfew, blockCount,
      List.length_eq_zero_iff, List.flatMap_eq_nil_iff]
    refine iff_of_false (fun hall => ?_) hne
    obtain ⟨trace, htrace⟩ := List.exists_mem_of_ne_nil _ hne
    exact hpos trace htrace (hall trace htrace)

theorem compareBaseline_eq_ok (hzero : m.total.blocks = 0 ↔ m.traces.length = 0)
    {next : BaselineKind × Measured BaselineEvaluation} :
    compareBaseline libraries (targetSizesFor model) blocks (kind, m) = .ok next ↔
      next.1 = kind ∧
        (baselineMeter libraries model kind).firstStep m blocks = .ok next.2 := by
  obtain ⟨kind', next⟩ := next
  simp only [compareBaseline, bind_eq_ok_iff, Meter.firstStep_eq_ok, hzero]
  constructor
  · rintro ⟨evaluation, heval, total, htotal, hnext⟩
    cases hnext
    exact ⟨rfl, evaluation, total, heval, htotal, rfl⟩
  · rintro ⟨rfl, evaluation, total, heval, htotal, rfl⟩
    exact ⟨evaluation, heval, total, htotal, rfl⟩

/-- What `compare-list` keeps of a baseline. -/
def BaselineKept (libraries : Libraries) (model : Model) (bss : List BlockVector)
    (kind : BaselineKind) (b : BaselineKind × Measured BaselineEvaluation) : Prop :=
  b.1 = kind ∧ (baselineMeter libraries model kind).Kept {} bss b.2

theorem baselineKept_concat (hn : Sized model.blockSize.val (bss ++ [blocks]))
    (hpos : ∀ trace ∈ bss, trace.toList ≠ []) (hfew : blockCount bss < 2 ^ 64)
    {next : BaselineKind × Measured BaselineEvaluation} :
    BaselineKept libraries model (bss ++ [blocks]) kind next ↔ ∃ b,
      BaselineKept libraries model bss kind b ∧
        compareBaseline libraries (targetSizesFor model) blocks b = .ok next := by
  constructor
  · rintro ⟨hkind, hkept⟩
    obtain ⟨m, hm, hstep⟩ := (Meter.kept_concat hn).mp hkept
    exact ⟨(kind, m), ⟨rfl, hm⟩,
      (compareBaseline_eq_ok (blocks_eq_zero_iff hm hpos hfew)).mpr ⟨hkind, hstep⟩⟩
  · rintro ⟨⟨_, m⟩, ⟨rfl, hm⟩, hstep⟩
    obtain ⟨hkind, hstep⟩ := (compareBaseline_eq_ok (blocks_eq_zero_iff hm hpos hfew)).mp hstep
    exact ⟨hkind, (Meter.kept_concat hn).mpr ⟨m, hm, hstep⟩⟩

structure ComparisonKept (libraries : Libraries) (hv : ValidModel model)
    (kinds : List BaselineKind) (bss : List BlockVector) (s : Comparison) : Prop where
  byteSelect : (evaluationMeter hv).Reports bss s.byteSelect
  baselines : List.Forall₂ (BaselineKept libraries model bss) kinds s.baselines

theorem comparisonKept_nil {hv : ValidModel model} {s : Comparison} :
    ComparisonKept libraries hv kinds [] s ↔
      s = ⟨⟨[], startEvaluation model⟩, kinds.map fun kind => (kind, ⟨[], {}⟩)⟩ := by
  have hstart : BaselineKept libraries model [] =
      fun kind b => (kind, (⟨[], {}⟩ : Measured BaselineEvaluation)) = b := by
    funext kind b
    rw [BaselineKept, Meter.kept_nil]
    exact propext ((@Prod.ext_iff _ _ b (kind, ⟨[], {}⟩)).symm.trans eq_comm)
  have hall : ∀ bs, List.Forall₂ (BaselineKept libraries model []) kinds bs ↔
      bs = kinds.map fun kind => (kind, ⟨[], {}⟩) := by
    intro bs
    rw [hstart, ← List.forall₂_map_left_iff (R := (· = ·)), List.forall₂_eq_eq_eq, eq_comm]
  obtain ⟨byteSelect, baselines⟩ := s
  constructor
  · rintro ⟨hbyteSelect, hbaselines⟩
    have hbyteSelect := Meter.reports_nil.mp hbyteSelect
    have hbaselines := (hall _).mp hbaselines
    dsimp only at hbyteSelect hbaselines
    rw [hbyteSelect, hbaselines, startEvaluation_eq hv]
  · intro h
    cases h
    exact ⟨Meter.reports_nil.mpr (by rw [startEvaluation_eq hv]), (hall _).mpr rfl⟩

theorem compareTrace_eq_ok (hv : ValidModel model) {s next : Comparison} :
    compareTrace libraries model s blocks = .ok next ↔
      (evaluationMeter hv).mergeStep s.byteSelect blocks = .ok next.byteSelect ∧
      List.Forall₂ (fun b b' =>
        compareBaseline libraries (targetSizesFor model) blocks b = .ok b')
        s.baselines next.baselines := by
  obtain ⟨byteSelect, baselines⟩ := next
  simp only [compareTrace, bind_eq_ok_iff, mapM_eq_ok_iff]
  constructor
  · rintro ⟨_, hbyteSelect, _, hbaselines, hnext⟩
    cases hnext
    exact ⟨hbyteSelect, hbaselines⟩
  · rintro ⟨hbyteSelect, hbaselines⟩
    exact ⟨_, hbyteSelect, _, hbaselines, rfl⟩

theorem comparisonKept_concat {hv : ValidModel model} {next : Comparison}
    (hn : Sized model.blockSize.val (bss ++ [blocks]))
    (hpos : ∀ trace ∈ bss, trace.toList ≠ []) (hfew : blockCount bss < 2 ^ 64) :
    ComparisonKept libraries hv kinds (bss ++ [blocks]) next ↔ ∃ s,
      ComparisonKept libraries hv kinds bss s ∧
        compareTrace libraries model s blocks = .ok next := by
  constructor
  · rintro ⟨hbyteSelect, hbaselines⟩
    obtain ⟨s, hs, hstep⟩ := (Meter.reports_concat hn).mp hbyteSelect
    obtain ⟨bs, hbs, hturns⟩ := forall₂_comp_iff.mp
      (hbaselines.imp fun _ _ => (baselineKept_concat hn hpos hfew).mp)
    exact ⟨⟨s, bs⟩, ⟨hs, hbs⟩, (compareTrace_eq_ok hv).mpr ⟨hstep, hturns⟩⟩
  · rintro ⟨s, ⟨hs, hbs⟩, hstep⟩
    obtain ⟨hbyteSelect, hturns⟩ := (compareTrace_eq_ok hv).mp hstep
    exact ⟨(Meter.reports_concat hn).mpr ⟨_, hs, hbyteSelect⟩,
      (forall₂_comp_iff.mpr ⟨_, hbs, hturns⟩).imp fun _ _ =>
        (baselineKept_concat hn hpos hfew).mpr⟩

theorem compareLoop_eq_ok (hv : ValidModel model) {report : Comparison}
    (hn : Sized model.blockSize.val bss) (hpos : ∀ trace ∈ bss, trace.toList ≠ [])
    (hfew : blockCount bss < 2 ^ 64) :
    bss.foldlM (compareTrace libraries model)
        ⟨⟨[], startEvaluation model⟩, kinds.map fun kind => (kind, ⟨[], {}⟩)⟩ = .ok report ↔
      ComparisonKept libraries hv kinds bss report := by
  apply foldlM_eq_ok_iff
  · exact fun _ => comparisonKept_nil
  · intro before blocks next hpart
    apply comparisonKept_concat
    · exact fun trace hmem => hn trace (hpart.subset hmem)
    · exact fun trace hmem => hpos trace (hpart.subset (List.mem_append_left _ hmem))
    · obtain ⟨rest, hrest⟩ := hpart
      rw [← hrest, List.append_assoc, blockCount_append] at hfew
      omega

end Comparison

/-- The bytes of the files at these paths. -/
def bytesIn (files : Files) (paths : List Text) : ℕ :=
  (paths.map fun path => ((files path).getD []).length).sum

theorem toList_of_openFile (h : openFile files path = some bytes) :
    files path = some bytes.toList := by
  rw [openFile] at h
  split at h
  · cases h
  · rename_i found hfound
    split at h
    · cases h
      exact hfound
    · cases h

theorem blockCount_le (h : List.Forall₂ (Traced files blockSize) paths bss) :
    blockCount bss ≤ bytesIn files paths := by
  induction h with
  | nil => exact le_rfl
  | @cons path trace paths bss htrace _ ih =>
    obtain ⟨bytes, hopen, hblocks⟩ := htrace.opens
    have hcount : trace.toList.length ≤ bytes.toList.length := by
      rw [hblocks, length_fullBlocks]
      exact Nat.div_le_self _ _
    rw [bytesIn, List.map_cons, List.sum_cons, toList_of_openFile hopen, blockCount,
      List.flatMap_cons, List.length_append]
    exact Nat.add_le_add hcount ih

theorem pos_of_traced (h : List.Forall₂ (Traced files blockSize) paths bss) :
    ∀ trace ∈ bss, trace.toList ≠ [] := by
  induction h with
  | nil => exact fun trace hmem => absurd hmem List.not_mem_nil
  | cons htrace _ ih => exact List.forall_mem_cons.mpr ⟨htrace.ne_nil, ih⟩

/-- What `compare-list` reports of a baseline. -/
def BaselineReports (libraries : Libraries) (model : Model) (bss : List BlockVector)
    (kind : BaselineKind) (b : BaselineKind × Measured BaselineEvaluation) : Prop :=
  b.1 = kind ∧ (baselineMeter libraries model kind).Reports bss b.2

theorem baselineKept_iff {libraries : Libraries} {kind : BaselineKind}
    {b : BaselineKind × Measured BaselineEvaluation} (hne : bss ≠ []) :
    BaselineKept libraries model bss kind b ↔ BaselineReports libraries model bss kind b :=
  and_congr_right' (Meter.kept_iff_reports hne)

theorem runCompareList_eq_ok {libraries : Libraries} (hplain : PlainPaths paths options)
    (hfew : ∀ model bss, Readings files modelPath paths model bss → blockCount bss < 2 ^ 64)
    {report : Comparison} :
    runCompareList libraries files (modelPath :: (paths ++ options)) = .ok report ↔ paths ≠ [] ∧
      ∃ kinds, parseBaselineOptions options = .ok kinds ∧
        ∃ (model : Model) (hv : ValidModel model) (bss : List BlockVector),
          Readings files modelPath paths model bss ∧
          (evaluationMeter hv).Reports bss report.byteSelect ∧
          List.Forall₂ (BaselineReports libraries model bss) kinds report.baselines := by
  obtain ⟨htake, hdrop⟩ := takeWhile_paths hplain.paths hplain.options
  cases paths with
  | nil =>
    refine iff_of_false (fun h => ?_) fun h => h.1 rfl
    cases options with
    | nil => cases h
    | cons option options =>
      rw [List.nil_append] at h htake
      simp only [runCompareList, htake, if_true] at h
      cases h
  | cons path paths =>
    have hne : path :: paths ≠ [] := List.cons_ne_nil _ _
    rw [List.cons_append] at htake hdrop ⊢
    simp only [runCompareList, htake, hdrop, if_neg hne, bind_eq_ok_iff]
    constructor
    · rintro ⟨kinds, hkinds, model, hload, h⟩
      have hv := loadModelFile_valid hload
      obtain ⟨bss, htraces, hloop⟩ := (overTraces_eq_ok hv.block_pos.ne' _).mp h
      have hkept := (compareLoop_eq_ok hv (sized_of_traced htraces) (pos_of_traced htraces)
        (hfew model bss ⟨hload, htraces⟩)).mp hloop
      exact ⟨hne, kinds, hkinds, model, hv, bss, ⟨hload, htraces⟩, hkept.byteSelect,
        hkept.baselines.imp fun _ _ => (baselineKept_iff (ne_nil_of_traced htraces hne)).mp⟩
    · rintro ⟨-, kinds, hkinds, model, hv, bss, ⟨hload, htraces⟩, hbyteSelect, hbaselines⟩
      refine ⟨kinds, hkinds, model, hload,
        (overTraces_eq_ok hv.block_pos.ne' _).mpr ⟨bss, htraces, ?_⟩⟩
      exact (compareLoop_eq_ok hv (sized_of_traced htraces) (pos_of_traced htraces)
        (hfew model bss ⟨hload, htraces⟩)).mpr ⟨hbyteSelect,
          hbaselines.imp fun _ _ => (baselineKept_iff (ne_nil_of_traced htraces hne)).mpr⟩

/-! The groups. -/

variable {group : TraceGroup} {groups : List TraceGroup}

theorem evaluateTraceGroup_eq_ok (hv : ValidModel model) {g : Grouped Evaluation} :
    evaluateTraceGroup files model group = .ok g ↔ ∃ bss,
      List.Forall₂ (Traced files model.blockSize) group.paths bss ∧
        ∃ s, (evaluationMeter hv).Reports bss s ∧ g = s.grouped := by
  rw [evaluateTraceGroup, overTraces_eq_ok hv.block_pos.ne']
  refine exists_congr fun bss => and_congr_right fun htraces => ?_
  rw [startEvaluation_eq hv]
  exact @Meter.groupMergeLoop_eq_ok _ (evaluationMeter hv) bss (sized_of_traced htraces) g

theorem analyzeTraceGroup_eq_ok (hv : ValidModel model) {g : Grouped UpperBoundEvaluation} :
    analyzeTraceGroup files model metadataBytes group = .ok g ↔ ∃ bss,
      List.Forall₂ (Traced files model.blockSize) group.paths bss ∧
        ∃ s, (upperBoundMeter model metadataBytes).Kept {} bss s ∧ g = s.grouped := by
  rw [analyzeTraceGroup, overTraces_eq_ok hv.block_pos.ne']
  refine exists_congr fun bss => and_congr_right fun htraces => ?_
  exact @Meter.groupFirstLoop_eq_ok _ (upperBoundMeter model metadataBytes) bss {}
    (sized_of_traced htraces) g

theorem evaluateBaselineTraceGroup_eq_ok {libraries : Libraries} {kind : BaselineKind}
    (hv : ValidModel model) {g : Grouped BaselineEvaluation} :
    evaluateBaselineTraceGroup libraries files group (targetSizesFor model) model.blockSize kind =
      .ok g ↔ ∃ bss, List.Forall₂ (Traced files model.blockSize) group.paths bss ∧
        ∃ s, (baselineMeter libraries model kind).Kept {} bss s ∧ g = s.grouped := by
  rw [evaluateBaselineTraceGroup, overTraces_eq_ok hv.block_pos.ne']
  refine exists_congr fun bss => and_congr_right fun htraces => ?_
  exact @Meter.groupFirstLoop_eq_ok _ (baselineMeter libraries model kind) bss {}
    (sized_of_traced htraces) g

end ByteSelect
