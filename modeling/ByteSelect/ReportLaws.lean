import ByteSelect.ReportsExact

/-! What the reports have in common: the order of the traces, their groups, and the one trace that
they make up. -/
namespace ByteSelect

open Accounting Baseline Loops TextStream

variable {libraries : Libraries} {files : Files} {model : Model} {metadataBytes blockSize : SizeT}
  {path modelPath : Text} {paths paths' options : List Text} {bss bss' : List BlockVector}
  {blocks : BlockVector} {bytes : Vec Byte}

/-! The traces of a list. -/

theorem Traced.unique {blocks' : BlockVector} (h : Traced files blockSize path blocks)
    (h' : Traced files blockSize path blocks') : blocks = blocks' := by
  obtain ⟨bytes, hopen, hblocks⟩ := h.opens
  obtain ⟨bytes', hopen', hblocks'⟩ := h'.opens
  cases hopen.symm.trans hopen'
  exact BlockVector.ext (hblocks.trans hblocks'.symm)

theorem traced_unique (h : List.Forall₂ (Traced files blockSize) paths bss)
    (h' : List.Forall₂ (Traced files blockSize) paths bss') : bss = bss' := by
  have hunique : Relator.RightUnique (Traced files blockSize) := fun _ _ _ h h' => h.unique h'
  exact hunique.forall₂ h h'

/-! Two traces, and the one they make up. -/

def reportFiles : Files := fun path =>
  if path = "model".toList then some (bytesOf (modelText taggedModel))
  else if path = "first".toList then some [7, 7, 9, 7, 1, 2, 3, 4]
  else if path = "second".toList then some [9, 9, 9, 9, 5]
  else if path = "both".toList then some [7, 7, 9, 7, 1, 2, 3, 4, 9, 9, 9, 9]
  else none

def reportPaths : List Text := ["first".toList, "second".toList]

def reportOptions : List Text :=
  ["--baseline".toList, "lz4".toList, "--baseline".toList, "fpc".toList]

theorem reportPaths_plain : PlainPaths reportPaths reportOptions :=
  ⟨by decide +kernel, by decide +kernel⟩

/-! The order of the traces. -/

/-- Two reports on the same traces in two orders: every trace has its figures, and the total is
the same. -/
structure Reordered {ρ : Type} (paths paths' : List Text) (report report' : Measured ρ) : Prop where
  total : report'.total = report.total
  traces : ∃ figures : Text → ρ, report.traces = paths.map figures ∧
    report'.traces = paths'.map figures

section Meter

variable {ρ : Type} {M : Meter ρ} {report : Measured ρ}

/-- The figures of a trace. -/
theorem Meter.Reports.exists_figures (h : M.Reports bss report)
    (htraces : List.Forall₂ (Traced files blockSize) paths bss) :
    ∃ figures : Text → ρ, report.traces = paths.map figures ∧
      ∀ path ∈ paths, ∀ blocks, Traced files blockSize path blocks →
        M.evaluation blocks = .ok (figures path) := by
  have hall : List.Forall₂ (fun path result => ∃ blocks, Traced files blockSize path blocks ∧
      M.evaluation blocks = .ok result) paths report.traces :=
    forall₂_comp_iff.mpr ⟨bss, htraces, mapM_eq_ok_iff.mp h.traces⟩
  have hunique : Relator.RightUnique (fun path result => ∃ blocks,
      Traced files blockSize path blocks ∧ M.evaluation blocks = .ok result) := by
    rintro path result result' ⟨blocks, htrace, hresult⟩ ⟨blocks', htrace', hresult'⟩
    cases htrace.unique htrace'
    exact Except.ok.inj (hresult.symm.trans hresult')
  have hinhabited : Nonempty ρ := ⟨report.total⟩
  obtain ⟨figures, hfigures, hvalue⟩ := exists_map_eq hunique hall
  refine ⟨figures, hfigures, ?_⟩
  intro path hpath blocks htrace
  obtain ⟨result, -, blocks', htrace', hresult⟩ := exists_of_mem_left hall hpath
  rw [hvalue path result ⟨blocks', htrace', hresult⟩, htrace.unique htrace']
  exact hresult

theorem Meter.Reports.reordered (h : M.Reports bss report)
    (htraces : List.Forall₂ (Traced files blockSize) paths bss)
    (htraces' : List.Forall₂ (Traced files blockSize) paths' bss')
    (hperm : paths'.Perm paths) (hsame : bss'.Perm bss) :
    ∃ report', M.Reports bss' report' ∧ Reordered paths paths' report report' := by
  obtain ⟨figures, hfigures, heval⟩ := h.exists_figures htraces
  refine ⟨⟨paths'.map figures, report.total⟩, ⟨?_, h.total.perm hsame⟩, rfl, figures, hfigures,
    rfl⟩
  have hall : List.Forall₂ (fun path blocks => path ∈ paths' ∧ Traced files blockSize path blocks)
      paths' bss' := (List.forall₂_and_left _ _).mpr ⟨fun _ hmem => hmem, htraces'⟩
  rw [mapM_eq_ok_iff, List.forall₂_map_right_iff]
  apply List.Forall₂.flip
  exact hall.imp fun path blocks hboth => heval path (hperm.mem_iff.mp hboth.1) blocks hboth.2

end Meter

theorem PlainPaths.reorder (h : PlainPaths paths options) (hperm : paths'.Perm paths) :
    PlainPaths paths' options :=
  ⟨fun path hpath => h.paths path (hperm.mem_iff.mp hpath), h.options⟩

theorem bytesIn_perm (hperm : paths'.Perm paths) : bytesIn files paths' = bytesIn files paths :=
  (hperm.map _).sum_eq

theorem few_of_bytesIn (hfew : bytesIn files paths < 2 ^ 64) :
    ∀ model bss, Readings files modelPath paths model bss → blockCount bss < 2 ^ 64 :=
  fun _ _ h => (blockCount_le h.traces).trans_lt hfew

theorem Readings.reorder (h : Readings files modelPath paths model bss)
    (hperm : paths'.Perm paths) :
    ∃ bss', Readings files modelPath paths' model bss' ∧ bss'.Perm bss := by
  obtain ⟨bss', htraces, hsame⟩ := List.perm_comp_forall₂ hperm h.traces
  exact ⟨bss', ⟨h.load, htraces⟩, hsame⟩

theorem ne_nil_of_perm (hperm : paths'.Perm paths) (hne : paths ≠ []) : paths' ≠ [] := by
  rintro rfl
  exact hne (List.nil_perm.mp hperm)

/-- Traces given in another order are reported with the same figures and the same totals. -/
theorem listReports_reordered (libraries : Libraries) (hperm : paths'.Perm paths) :
    (∀ report, runEvaluateList files (modelPath :: paths) = .ok report →
      ∃ report', runEvaluateList files (modelPath :: paths') = .ok report' ∧
        Reordered paths paths' report report') ∧
    (PlainPaths paths options →
      (∀ report, runAnalyzeList files (modelPath :: (paths ++ options)) = .ok report →
        ∃ report', runAnalyzeList files (modelPath :: (paths' ++ options)) = .ok report' ∧
          Reordered paths paths' report.actual report'.actual ∧
          Reordered paths paths' report.upper report'.upper) ∧
      (bytesIn files paths < 2 ^ 64 →
        ∀ report, runCompareList libraries files (modelPath :: (paths ++ options)) = .ok report →
          ∃ report',
            runCompareList libraries files (modelPath :: (paths' ++ options)) = .ok report' ∧
            Reordered paths paths' report.byteSelect report'.byteSelect ∧
            List.Forall₂ (fun b b' => b'.1 = b.1 ∧ Reordered paths paths' b.2 b'.2)
              report.baselines report'.baselines)) := by
  refine ⟨?_, fun hplain => ⟨?_, ?_⟩⟩
  · intro report h
    obtain ⟨hne, model, hv, bss, hreadings, hreport⟩ := runEvaluateList_eq_ok.mp h
    obtain ⟨bss', hreadings', hsame⟩ := hreadings.reorder hperm
    obtain ⟨report', hreport', hreordered⟩ :=
      hreport.reordered hreadings.traces hreadings'.traces hperm hsame
    exact ⟨report', runEvaluateList_eq_ok.mpr
      ⟨ne_nil_of_perm hperm hne, model, hv, bss', hreadings', hreport'⟩, hreordered⟩
  · intro report h
    obtain ⟨hne, metadataBytes, hmetadata, model, hv, bss, hreadings, hactual, hupper, -⟩ :=
      (runAnalyzeList_eq_ok hplain).mp h
    obtain ⟨bss', hreadings', hsame⟩ := hreadings.reorder hperm
    obtain ⟨actual, hactual', hfirst⟩ :=
      hactual.reordered hreadings.traces hreadings'.traces hperm hsame
    obtain ⟨upper, hupper', hsecond⟩ :=
      hupper.reordered hreadings.traces hreadings'.traces hperm hsame
    exact ⟨⟨actual, upper, true⟩, (runAnalyzeList_eq_ok (hplain.reorder hperm)).mpr
      ⟨ne_nil_of_perm hperm hne, metadataBytes, hmetadata, model, hv, bss', hreadings', hactual',
        hupper', rfl⟩, hfirst, hsecond⟩
  · intro hfew report h
    have hfew' : bytesIn files paths' < 2 ^ 64 := (bytesIn_perm hperm).trans_lt hfew
    obtain ⟨hne, kinds, hkinds, model, hv, bss, hreadings, hbyteSelect, hbaselines⟩ :=
      (runCompareList_eq_ok hplain (few_of_bytesIn hfew)).mp h
    obtain ⟨bss', hreadings', hsame⟩ := hreadings.reorder hperm
    obtain ⟨byteSelect, hbyteSelect', hfirst⟩ :=
      hbyteSelect.reordered hreadings.traces hreadings'.traces hperm hsame
    obtain ⟨baselines, hbaselines', hrest⟩ : ∃ baselines,
        List.Forall₂ (BaselineReports libraries model bss') kinds baselines ∧
        List.Forall₂ (fun b b' => b'.1 = b.1 ∧ Reordered paths paths' b.2 b'.2)
          report.baselines baselines := by
      apply exists_forall₂_and hbaselines
      rintro kind ⟨_, m⟩ ⟨rfl, hm⟩
      obtain ⟨m', hm', hreordered⟩ :=
        Meter.Reports.reordered hm hreadings.traces hreadings'.traces hperm hsame
      exact ⟨(_, m'), ⟨rfl, hm'⟩, rfl, hreordered⟩
    exact ⟨⟨byteSelect, baselines⟩,
      (runCompareList_eq_ok (hplain.reorder hperm) (few_of_bytesIn hfew')).mpr
        ⟨ne_nil_of_perm hperm hne, kinds, hkinds, model, hv, bss', hreadings', hbyteSelect',
          hbaselines'⟩, hfirst, hrest⟩

theorem reportPaths_reordered : ∃ report report',
    runCompareList shortLibraries reportFiles
      ("model".toList :: (reportPaths ++ reportOptions)) = .ok report ∧
    runCompareList shortLibraries reportFiles
      ("model".toList :: (reportPaths.reverse ++ reportOptions)) = .ok report' ∧
    Reordered reportPaths reportPaths.reverse report.byteSelect report'.byteSelect := by
  obtain ⟨report, hreport⟩ := exists_eq_ok (x := runCompareList shortLibraries reportFiles
    ("model".toList :: (reportPaths ++ reportOptions))) (by decide +kernel)
  obtain ⟨report', hreport', hbyteSelect, -⟩ := ((listReports_reordered shortLibraries
    (List.reverse_perm reportPaths)).2 reportPaths_plain).2 (by decide +kernel) report hreport
  exact ⟨report, report', hreport, hreport', hbyteSelect⟩

/-! Groups. -/

variable {group : TraceGroup} {groups : List TraceGroup}

theorem parseTraceGroups_words (hgroups : groups ≠ [])
    (hformed : ∀ group ∈ groups, group.WellFormed) (hnames : (groups.map TraceGroup.name).Nodup)
    (hrest : EndsGroups options) :
    parseTraceGroups (groups.flatMap TraceGroup.words ++ options) = .ok (groups, options) := by
  have hread : traceGroupsFrom (groups.flatMap TraceGroup.words ++ options).length []
      (groups.flatMap TraceGroup.words ++ options) = .ok ([] ++ groups, options) :=
    traceGroupsFrom_words hformed hnames hrest le_rfl
  rw [parseTraceGroups, hread]
  change (if groups = [] then _ else _) = _
  rw [if_neg hgroups]
  rfl

/-- The words of groups are three at least. -/
theorem words_cons (hgroups : groups ≠ []) (hformed : ∀ group ∈ groups, group.WellFormed)
    (options : List Text) : ∃ first second third args,
      groups.flatMap TraceGroup.words ++ options = first :: second :: third :: args := by
  obtain ⟨group, more, rfl⟩ := List.exists_cons_of_ne_nil hgroups
  obtain ⟨path, paths, hpaths⟩ :=
    List.exists_cons_of_ne_nil (hformed group List.mem_cons_self).paths_ne
  rw [List.flatMap_cons, TraceGroup.words, hpaths]
  exact ⟨_, _, _, _, rfl⟩

theorem evaluateTraceGroup_eq (hload : loadModelFile files modelPath = .ok model)
    (hne : group.paths ≠ []) {g : Grouped Evaluation} :
    evaluateTraceGroup files model group = .ok g ↔ ∃ report,
      runEvaluateList files (modelPath :: group.paths) = .ok report ∧ g = report.grouped := by
  have hv := loadModelFile_valid hload
  rw [evaluateTraceGroup_eq_ok hv]
  constructor
  · rintro ⟨bss, htraces, s, hs, hg⟩
    exact ⟨s, runEvaluateList_eq_ok.mpr ⟨hne, model, hv, bss, ⟨hload, htraces⟩, hs⟩, hg⟩
  · rintro ⟨report, h, hg⟩
    obtain ⟨-, model', hv', bss, hreadings, hreport⟩ := runEvaluateList_eq_ok.mp h
    cases hload.symm.trans hreadings.load
    exact ⟨bss, hreadings.traces, report, hreport, hg⟩

theorem plainPaths_of_group (hformed : group.WellFormed) (hrest : EndsGroups options) :
    PlainPaths group.paths options :=
  ⟨hformed.paths, fun arg harg => (hrest arg harg).1⟩

theorem analyzeGroup_eq (hload : loadModelFile files modelPath = .ok model)
    (hmetadata : analyzeOptions 1 options = .ok metadataBytes) (hformed : group.WellFormed)
    (hrest : EndsGroups options) {g : Grouped Evaluation × Grouped UpperBoundEvaluation} :
    analyzeGroup files model metadataBytes group = .ok g ↔ ∃ report,
      runAnalyzeList files (modelPath :: (group.paths ++ options)) = .ok report ∧
        g = (report.actual.grouped, report.upper.grouped) := by
  have hv := loadModelFile_valid hload
  have hplain := plainPaths_of_group hformed hrest
  simp only [analyzeGroup, bind_eq_ok_iff, evaluateTraceGroup_eq_ok hv, analyzeTraceGroup_eq_ok hv]
  constructor
  · rintro ⟨_, ⟨bss, htraces, actual, hactual, rfl⟩, _, ⟨bss', htraces', upper, hupper, rfl⟩, hg⟩
    cases traced_unique htraces htraces'
    have hbss := ne_nil_of_traced htraces hformed.paths_ne
    exact ⟨⟨actual, upper, true⟩, (runAnalyzeList_eq_ok hplain).mpr
      ⟨hformed.paths_ne, metadataBytes, hmetadata, model, hv, bss, ⟨hload, htraces⟩, hactual,
        (Meter.kept_iff_reports hbss).mp hupper, rfl⟩, (Except.ok.inj hg).symm⟩
  · rintro ⟨report, h, rfl⟩
    obtain ⟨-, metadataBytes', hmetadata', model', hv', bss, hreadings, hactual, hupper, -⟩ :=
      (runAnalyzeList_eq_ok hplain).mp h
    cases hmetadata.symm.trans hmetadata'
    cases hload.symm.trans hreadings.load
    have hbss := ne_nil_of_traced hreadings.traces hformed.paths_ne
    exact ⟨_, ⟨bss, hreadings.traces, _, hactual, rfl⟩, _,
      ⟨bss, hreadings.traces, _, (Meter.kept_iff_reports hbss).mpr hupper, rfl⟩, rfl⟩

theorem compareGroup_eq {kinds : List BaselineKind}
    (hload : loadModelFile files modelPath = .ok model)
    (hkinds : parseBaselineOptions options = .ok kinds) (hformed : group.WellFormed)
    (hrest : EndsGroups options) (hfew : bytesIn files group.paths < 2 ^ 64)
    {g : Grouped Evaluation × List (Grouped BaselineEvaluation)} :
    compareGroup libraries files model kinds group = .ok g ↔ ∃ report,
      runCompareList libraries files (modelPath :: (group.paths ++ options)) = .ok report ∧
        g = (report.byteSelect.grouped, report.baselines.map fun b => b.2.grouped) := by
  have hv := loadModelFile_valid hload
  have hplain := plainPaths_of_group hformed hrest
  simp only [compareGroup, bind_eq_ok_iff, mapM_eq_ok_iff, evaluateTraceGroup_eq_ok hv,
    evaluateBaselineTraceGroup_eq_ok hv]
  constructor
  · rintro ⟨_, ⟨bss, htraces, byteSelect, hbyteSelect, rfl⟩, results, hresults, hg⟩
    have hbss := ne_nil_of_traced htraces hformed.paths_ne
    obtain ⟨baselines, hbaselines, hgrouped⟩ : ∃ baselines,
        List.Forall₂ (BaselineReports libraries model bss) kinds baselines ∧
        List.Forall₂ (fun result b => id result = Measured.grouped b.2) results baselines := by
      apply exists_forall₂_and hresults
      rintro kind result ⟨bss', htraces', s, hs, rfl⟩
      cases traced_unique htraces htraces'
      exact ⟨(kind, s), ⟨rfl, (Meter.kept_iff_reports hbss).mp hs⟩, rfl⟩
    have hmap := (List.map_id results).symm.trans (map_eq_of_forall₂ hgrouped)
    exact ⟨⟨byteSelect, baselines⟩, (runCompareList_eq_ok hplain (few_of_bytesIn hfew)).mpr
      ⟨hformed.paths_ne, kinds, hkinds, model, hv, bss, ⟨hload, htraces⟩, hbyteSelect,
        hbaselines⟩, by rw [← Except.ok.inj hg, hmap]⟩
  · rintro ⟨report, h, rfl⟩
    obtain ⟨-, kinds', hkinds', model', hv', bss, hreadings, hbyteSelect, hbaselines⟩ :=
      (runCompareList_eq_ok hplain (few_of_bytesIn hfew)).mp h
    cases hkinds.symm.trans hkinds'
    cases hload.symm.trans hreadings.load
    have hbss := ne_nil_of_traced hreadings.traces hformed.paths_ne
    refine ⟨_, ⟨bss, hreadings.traces, _, hbyteSelect, rfl⟩, _, ?_, rfl⟩
    rw [List.forall₂_map_right_iff]
    refine hbaselines.imp ?_
    rintro kind ⟨_, m⟩ ⟨rfl, hm⟩
    exact ⟨bss, hreadings.traces, m, (Meter.kept_iff_reports hbss).mpr hm, rfl⟩

/-- Every group is reported as the list of its traces would be. -/
theorem groupReports_eq (libraries : Libraries) (hgroups : groups ≠ [])
    (hformed : ∀ group ∈ groups, group.WellFormed) (hnames : (groups.map TraceGroup.name).Nodup)
    (hrest : EndsGroups options) :
    (∀ results, runEvaluateGroups files (modelPath :: groups.flatMap TraceGroup.words) =
      .ok results ↔ List.Forall₂ (fun group result => ∃ report,
        runEvaluateList files (modelPath :: group.paths) = .ok report ∧
          result = report.grouped) groups results) ∧
    (∀ results, runAnalyzeGroups files
      (modelPath :: (groups.flatMap TraceGroup.words ++ options)) = .ok results ↔
      List.Forall₂ (fun group result => ∃ report,
        runAnalyzeList files (modelPath :: (group.paths ++ options)) = .ok report ∧
          result = (report.actual.grouped, report.upper.grouped)) groups results) ∧
    ((∀ group ∈ groups, bytesIn files group.paths < 2 ^ 64) →
      ∀ results, runCompareGroups libraries files
        (modelPath :: (groups.flatMap TraceGroup.words ++ options)) = .ok results ↔
        List.Forall₂ (fun group result => ∃ report,
          runCompareList libraries files (modelPath :: (group.paths ++ options)) = .ok report ∧
            result = (report.byteSelect.grouped, report.baselines.map fun b => b.2.grouped))
          groups results) := by
  refine ⟨fun results => ?_, fun results => ?_, fun hfew results => ?_⟩
  · have hparse : parseTraceGroups (groups.flatMap TraceGroup.words ++ []) = .ok (groups, []) :=
      parseTraceGroups_words hgroups hformed hnames fun arg harg => by cases harg
    obtain ⟨first, second, third, args, hargs⟩ := words_cons hgroups hformed []
    rw [hargs] at hparse
    rw [← List.append_nil (groups.flatMap TraceGroup.words), hargs, runEvaluateGroups, hparse]
    simp only [bind_eq_ok_iff, Except.ok.injEq, exists_eq_left']
    apply exists_mapM_iff hgroups
    · rintro group hmem result ⟨report, hreport, -⟩
      obtain ⟨-, model, -, bss, hreadings, -⟩ := runEvaluateList_eq_ok.mp hreport
      exact ⟨model, hreadings.load⟩
    · intro model hload group hmem result
      exact evaluateTraceGroup_eq hload (hformed group hmem).paths_ne
  · have hparse := parseTraceGroups_words hgroups hformed hnames hrest
    obtain ⟨first, second, third, args, hargs⟩ := words_cons hgroups hformed options
    rw [hargs] at hparse
    rw [hargs, runAnalyzeGroups, hparse]
    simp only [bind_eq_ok_iff, Except.ok.injEq, exists_eq_left']
    refine exists_pair_iff.trans (exists_mapM_iff hgroups ?_ ?_)
    · rintro group hmem result ⟨report, hreport, -⟩
      have hplain := plainPaths_of_group (hformed group hmem) hrest
      obtain ⟨-, metadataBytes, hmetadata, model, -, bss, hreadings, -⟩ :=
        (runAnalyzeList_eq_ok hplain).mp hreport
      exact ⟨(metadataBytes, model), hmetadata, hreadings.load⟩
    · rintro ⟨metadataBytes, model⟩ ⟨hmetadata, hload⟩ group hmem result
      exact analyzeGroup_eq hload hmetadata (hformed group hmem) hrest
  · have hparse := parseTraceGroups_words hgroups hformed hnames hrest
    obtain ⟨first, second, third, args, hargs⟩ := words_cons hgroups hformed options
    rw [hargs] at hparse
    rw [hargs, runCompareGroups, hparse]
    simp only [bind_eq_ok_iff, Except.ok.injEq, exists_eq_left']
    refine exists_pair_iff.trans (exists_mapM_iff hgroups ?_ ?_)
    · rintro group hmem result ⟨report, hreport, -⟩
      have hplain := plainPaths_of_group (hformed group hmem) hrest
      obtain ⟨-, kinds, hkinds, model, -, bss, hreadings, -⟩ :=
        (runCompareList_eq_ok hplain (few_of_bytesIn (hfew group hmem))).mp hreport
      exact ⟨(kinds, model), hkinds, hreadings.load⟩
    · rintro ⟨kinds, model⟩ ⟨hkinds, hload⟩ group hmem result
      exact compareGroup_eq hload hkinds (hformed group hmem) hrest (hfew group hmem)

theorem reportGroups_eq : ∃ first second report,
    runCompareGroups shortLibraries reportFiles ("model".toList :: "--group".toList ::
      "a".toList :: "first".toList :: "--group".toList :: "b".toList :: "second".toList ::
      "first".toList :: reportOptions) = .ok [first, second] ∧
    runCompareList shortLibraries reportFiles
      ("model".toList :: (["second".toList, "first".toList] ++ reportOptions)) = .ok report ∧
    second = (report.byteSelect.grouped, report.baselines.map fun b => b.2.grouped) := by
  obtain ⟨first, hfirst⟩ := exists_eq_ok (x := runCompareList shortLibraries reportFiles
    ("model".toList :: (["first".toList] ++ reportOptions))) (by decide +kernel)
  obtain ⟨second, hsecond⟩ := exists_eq_ok (x := runCompareList shortLibraries reportFiles
    ("model".toList :: (["second".toList, "first".toList] ++ reportOptions))) (by decide +kernel)
  have hrest : EndsGroups reportOptions := by
    unfold EndsGroups
    decide +kernel
  have hformed : ∀ group ∈ [(⟨"a".toList, ["first".toList]⟩ : TraceGroup),
      ⟨"b".toList, ["second".toList, "first".toList]⟩], group.WellFormed := by
    intro group hgroup
    simp only [List.mem_cons, List.not_mem_nil, or_false] at hgroup
    rcases hgroup with rfl | rfl
    · exact ⟨by decide, by decide, by decide⟩
    · exact ⟨by decide, by decide, by decide⟩
  have hgroups := (@groupReports_eq reportFiles "model".toList reportOptions _ shortLibraries
    (List.cons_ne_nil _ _) hformed (by decide +kernel) hrest).2.2 (by decide +kernel)
  exact ⟨_, _, second, (hgroups _).mpr
    (.cons ⟨first, hfirst, rfl⟩ (.cons ⟨second, hsecond, rfl⟩ .nil)), hsecond, rfl⟩

/-! When there is a report. -/

theorem forall_mem_flatMap_of_sized {n : ℕ} (hn : Sized n bss) :
    ∀ block ∈ bss.flatMap BlockVector.toList, block.length = n := by
  intro block hblock
  obtain ⟨trace, htrace, hmem⟩ := List.mem_flatMap.mp hblock
  exact hn trace htrace block hmem

theorem exists_evaluationReports (hv : ValidModel model)
    (htraces : List.Forall₂ (Traced files model.blockSize) paths bss) :
    ∃ report, (evaluationMeter hv).Reports bss report := by
  have hn := sized_of_traced htraces
  refine Meter.exists_reports hn trivial fun block hblock => ?_
  obtain ⟨encoded, hrun, -⟩ := compress_selection hv (forall_mem_flatMap_of_sized hn block hblock)
  exact ⟨_, map_eq_ok.mpr ⟨encoded, hrun, rfl⟩⟩

theorem mem_sortUnique_targets {target : SizeT} :
    target ∈ sortUnique (targetSizesFor model) ↔ ∃ set ∈ model.sets, set.targetSize = target := by
  rw [mem_sortUnique, targetSizesFor, List.mem_map]

/-- The targets of a model are accepted by the upper bound when they leave room beside the
metadata. -/
theorem upperBoundAccepts_iff (hv : ValidModel model) :
    (upperBoundMeter model metadataBytes).accepted ↔
      ∀ set ∈ model.sets, metadataBytes < set.targetSize := by
  have hkept : (upperBoundMeter model metadataBytes).accepted ↔ model.blockSize.val ≠ 0 ∧
      ¬ ∃ target ∈ sortUnique (targetSizesFor model), target = 0 ∨
        target.val ≥ model.blockSize.val ∨ metadataBytes ≥ target := Iff.rfl
  rw [hkept]
  constructor
  · rintro ⟨-, hgood⟩ set hset
    by_contra hle
    exact hgood ⟨_, mem_sortUnique_targets.mpr ⟨set, hset, rfl⟩, Or.inr (Or.inr (not_lt.mp hle))⟩
  · intro hroom
    refine ⟨hv.block_pos.ne', ?_⟩
    rintro ⟨target, htarget, hbad⟩
    obtain ⟨set, hset, rfl⟩ := mem_sortUnique_targets.mp htarget
    have hvs := hv.sets_valid set hset
    rcases hbad with hzero | hlarge | hmetadata
    · exact hvs.target_pos.ne' (congrArg Fin.val hzero)
    · exact absurd hvs.target_lt (not_lt.mpr hlarge)
    · exact absurd (hroom set hset) (not_lt.mpr hmetadata)

theorem exists_upperBoundReports (hv : ValidModel model)
    (htraces : List.Forall₂ (Traced files model.blockSize) paths bss)
    (hroom : ∀ set ∈ model.sets, metadataBytes < set.targetSize) :
    ∃ report, (upperBoundMeter model metadataBytes).Reports bss report := by
  have hn := sized_of_traced htraces
  refine Meter.exists_reports hn ((upperBoundAccepts_iff hv).mpr hroom) fun block hblock => ?_
  have hlength := forall_mem_flatMap_of_sized hn block hblock
  have hentry : ∃ entry, upperBoundEntry (sortUnique (targetSizesFor model)) metadataBytes
      model.blockSize.val block = .ok entry := by
    rw [upperBoundEntry, throwIf_neg (not_not.mpr hlength), ok_bind]
    exact ⟨_, rfl⟩
  exact hentry

theorem baselineAccepts (hv : ValidModel model) (kind : BaselineKind) :
    (baselineMeter libraries model kind).accepted := by
  refine ⟨hv.block_pos.ne', ?_⟩
  rw [List.any_eq_true]
  rintro ⟨target, htarget, hbad⟩
  obtain ⟨set, hset, rfl⟩ := mem_sortUnique_targets.mp htarget
  have hvs := hv.sets_valid set hset
  rcases of_decide_eq_true hbad with hzero | hlarge
  · exact hvs.target_pos.ne' (congrArg Fin.val hzero)
  · exact absurd hvs.target_lt (not_lt.mpr hlarge)

/-- A block is booked for a baseline when the baseline encodes it. -/
theorem baselineEntry_iff {kind : BaselineKind} {block : Block}
    (hlength : block.length = model.blockSize.val) :
    (∃ entry, (baselineMeter libraries model kind).entryOf block = .ok entry) ↔
      ∃ size, baselineEncodedSize libraries block kind = .ok size := by
  have hkept : ∀ entry, (baselineMeter libraries model kind).entryOf block = .ok entry ↔
      baselineEntry libraries kind (sortUnique (targetSizesFor model)) model.blockSize.val block =
        .ok entry := fun _ => Iff.rfl
  simp only [hkept, baselineEntry, throwIf_neg (not_not.mpr hlength), ok_bind, bind_eq_ok_iff]
  constructor
  · rintro ⟨-, size, hsize, -⟩
    exact ⟨size, hsize⟩
  · rintro ⟨size, hsize⟩
    exact ⟨_, size, hsize, rfl⟩

theorem exists_baselineReports (hv : ValidModel model)
    (htraces : List.Forall₂ (Traced files model.blockSize) paths bss) {kind : BaselineKind}
    (hencode : ∀ block ∈ bss.flatMap BlockVector.toList,
      ∃ size, baselineEncodedSize libraries block kind = .ok size) :
    ∃ report, (baselineMeter libraries model kind).Reports bss report := by
  have hn := sized_of_traced htraces
  refine Meter.exists_reports hn (baselineAccepts hv kind) fun block hblock => ?_
  exact (baselineEntry_iff (forall_mem_flatMap_of_sized hn block hblock)).mpr (hencode block hblock)

/-- Lists are reported on whenever the model and the traces can be read: for the upper bound the
targets have to leave room for the ideal metadata, and the baselines have to encode every block. -/
theorem listReports_succeed_iff (libraries : Libraries) :
    ((∃ report, runEvaluateList files (modelPath :: paths) = .ok report) ↔
      paths ≠ [] ∧ ∃ model bss, Readings files modelPath paths model bss) ∧
    (PlainPaths paths options →
      ((∃ report, runAnalyzeList files (modelPath :: (paths ++ options)) = .ok report) ↔
        paths ≠ [] ∧ ∃ metadataBytes, analyzeOptions 1 options = .ok metadataBytes ∧
          ∃ model bss, Readings files modelPath paths model bss ∧
            ∀ set ∈ model.sets, metadataBytes < set.targetSize) ∧
      (bytesIn files paths < 2 ^ 64 →
        ((∃ report, runCompareList libraries files (modelPath :: (paths ++ options)) = .ok report) ↔
          paths ≠ [] ∧ ∃ kinds, parseBaselineOptions options = .ok kinds ∧
            ∃ model bss, Readings files modelPath paths model bss ∧
              ∀ kind ∈ kinds, ∀ block ∈ bss.flatMap BlockVector.toList,
                ∃ size, baselineEncodedSize libraries block kind = .ok size))) := by
  refine ⟨?_, fun hplain => ⟨?_, fun hfew => ?_⟩⟩
  · constructor
    · rintro ⟨report, h⟩
      obtain ⟨hne, model, -, bss, hreadings, -⟩ := runEvaluateList_eq_ok.mp h
      exact ⟨hne, model, bss, hreadings⟩
    · rintro ⟨hne, model, bss, hreadings⟩
      have hv := loadModelFile_valid hreadings.load
      obtain ⟨report, hreport⟩ := exists_evaluationReports hv hreadings.traces
      exact ⟨report, runEvaluateList_eq_ok.mpr ⟨hne, model, hv, bss, hreadings, hreport⟩⟩
  · constructor
    · rintro ⟨report, h⟩
      obtain ⟨hne, metadataBytes, hmetadata, model, hv, bss, hreadings, -, hupper, -⟩ :=
        (runAnalyzeList_eq_ok hplain).mp h
      refine ⟨hne, metadataBytes, hmetadata, model, bss, hreadings, ?_⟩
      exact (upperBoundAccepts_iff hv).mp (hupper.accepted (sized_of_traced hreadings.traces)
        (ne_nil_of_traced hreadings.traces hne) (pos_of_traced hreadings.traces))
    · rintro ⟨hne, metadataBytes, hmetadata, model, bss, hreadings, hroom⟩
      have hv := loadModelFile_valid hreadings.load
      obtain ⟨actual, hactual⟩ := exists_evaluationReports hv hreadings.traces
      obtain ⟨upper, hupper⟩ := exists_upperBoundReports hv hreadings.traces hroom
      exact ⟨⟨actual, upper, true⟩, (runAnalyzeList_eq_ok hplain).mpr
        ⟨hne, metadataBytes, hmetadata, model, hv, bss, hreadings, hactual, hupper, rfl⟩⟩
  · constructor
    · rintro ⟨report, h⟩
      obtain ⟨hne, kinds, hkinds, model, hv, bss, hreadings, -, hbaselines⟩ :=
        (runCompareList_eq_ok hplain (few_of_bytesIn hfew)).mp h
      refine ⟨hne, kinds, hkinds, model, bss, hreadings, ?_⟩
      intro kind hkind block hblock
      obtain ⟨b, -, -, hb⟩ := exists_of_mem_left hbaselines hkind
      have hlength := forall_mem_flatMap_of_sized (sized_of_traced hreadings.traces) block hblock
      exact (baselineEntry_iff hlength).mp (hb.exists_entry block hblock)
    · rintro ⟨hne, kinds, hkinds, model, bss, hreadings, hencode⟩
      have hv := loadModelFile_valid hreadings.load
      obtain ⟨byteSelect, hbyteSelect⟩ := exists_evaluationReports hv hreadings.traces
      obtain ⟨baselines, hbaselines⟩ : ∃ baselines,
          List.Forall₂ (BaselineReports libraries model bss) kinds baselines := by
        apply exists_forall₂
        intro kind hkind
        obtain ⟨m, hm⟩ := exists_baselineReports hv hreadings.traces (hencode kind hkind)
        exact ⟨(kind, m), rfl, hm⟩
      exact ⟨⟨byteSelect, baselines⟩, (runCompareList_eq_ok hplain (few_of_bytesIn hfew)).mpr
        ⟨hne, kinds, hkinds, model, hv, bss, hreadings, hbyteSelect, hbaselines⟩⟩

theorem reportPaths_succeed : ∃ kinds, parseBaselineOptions reportOptions = .ok kinds ∧
    ∃ model bss, Readings reportFiles "model".toList reportPaths model bss ∧
      ∀ kind ∈ kinds, ∀ block ∈ bss.flatMap BlockVector.toList,
        ∃ size, baselineEncodedSize shortLibraries block kind = .ok size :=
  ((((listReports_succeed_iff shortLibraries).2 reportPaths_plain).2 (by decide +kernel)).mp
    (exists_eq_ok (by decide +kernel))).2

/-! One trace that is made up of all. -/

/-- A file whose blocks are those of the traces, one trace after another. -/
structure Joins (files : Files) (blockSize : SizeT) (joined : Text) (paths : List Text)
    (bytes : Vec Byte) : Prop where
  opens : openFile files joined = some bytes
  blocks : fullBlocks blockSize.val bytes.toList =
    paths.flatMap fun path => fullBlocks blockSize.val ((files path).getD [])

theorem flatMap_of_traced (htraces : List.Forall₂ (Traced files blockSize) paths bss) :
    bss.flatMap BlockVector.toList =
      paths.flatMap fun path => fullBlocks blockSize.val ((files path).getD []) := by
  induction htraces with
  | nil => rfl
  | cons htrace _ ih =>
    obtain ⟨bytes, hopen, hblocks⟩ := htrace.opens
    rw [List.flatMap_cons, List.flatMap_cons, ih, hblocks, toList_of_openFile hopen]
    rfl

theorem Joins.splitBlocks_toList {joined : Text} (h : Joins files blockSize joined paths bytes)
    (hsize : blockSize.val ≠ 0) (htraces : List.Forall₂ (Traced files blockSize) paths bss) :
    (splitBlocks bytes blockSize).toList = bss.flatMap BlockVector.toList := by
  rw [ByteSelect.splitBlocks_toList hsize, h.blocks, flatMap_of_traced htraces]

theorem Joins.blockCount_lt {joined : Text} (h : Joins files blockSize joined paths bytes)
    (htraces : List.Forall₂ (Traced files blockSize) paths bss) : blockCount bss < 2 ^ 64 := by
  have hlt := bytes.size_lt
  have hle := Nat.div_le_self bytes.toList.length blockSize.val
  rw [blockCount, flatMap_of_traced htraces, ← h.blocks, length_fullBlocks]
  omega

/-- The totals of a list are what the trace is reported with that its traces make up. -/
theorem listReports_joined (libraries : Libraries) {joined : Text}
    (hload : loadModelFile files modelPath = .ok model)
    (hjoins : Joins files model.blockSize joined paths bytes) :
    (∀ report, runEvaluateList files (modelPath :: paths) = .ok report →
      runEvaluate files [modelPath, joined] = .ok report.total) ∧
    (PlainPaths paths options →
      (∀ report, runAnalyzeList files (modelPath :: (paths ++ options)) = .ok report →
        runAnalyze files (modelPath :: joined :: options) =
          .ok (report.actual.total, report.upper.total)) ∧
      (∀ report, runCompareList libraries files (modelPath :: (paths ++ options)) = .ok report →
        runCompare libraries files (modelPath :: joined :: options) =
          .ok (report.byteSelect.total, report.baselines.map fun b => b.2.total))) := by
  have hv := loadModelFile_valid hload
  have hread : readBytes files joined = .ok bytes := readBytes_eq_ok.mpr hjoins.opens
  refine ⟨fun report h => ?_, fun hplain => ⟨fun report h => ?_, fun report h => ?_⟩⟩
  · obtain ⟨-, model', hv', bss, hreadings, hreport⟩ := runEvaluateList_eq_ok.mp h
    cases hload.symm.trans hreadings.load
    have hn := sized_of_traced hreadings.traces
    have hblocks := hjoins.splitBlocks_toList hv.block_pos.ne' hreadings.traces
    have htotal : evaluate (splitBlocks bytes model.blockSize) model = .ok report.total :=
      hreport.total.evaluation hn trivial hblocks
    simp only [runEvaluate, bind_eq_ok_iff, mapError_eq_ok]
    exact ⟨model, hload, (), validateModel_iff.mpr hv, bytes, hread, htotal⟩
  · obtain ⟨hne, metadataBytes, hmetadata, model', hv', bss, hreadings, hactual, hupper, -⟩ :=
      (runAnalyzeList_eq_ok hplain).mp h
    cases hload.symm.trans hreadings.load
    have hn := sized_of_traced hreadings.traces
    have hblocks := hjoins.splitBlocks_toList hv.block_pos.ne' hreadings.traces
    have htotal : evaluate (splitBlocks bytes model.blockSize) model = .ok report.actual.total :=
      hactual.total.evaluation hn trivial hblocks
    have haccepted := hupper.accepted hn (ne_nil_of_traced hreadings.traces hne)
      (pos_of_traced hreadings.traces)
    have hbound : evaluateByteSelectUpperBound (splitBlocks bytes model.blockSize)
        (targetSizesFor model) metadataBytes = .ok report.upper.total :=
      hupper.total.evaluation hn haccepted hblocks
    simp only [runAnalyze, bind_eq_ok_iff, mapError_eq_ok]
    exact ⟨metadataBytes, hmetadata, model, hload, bytes, hread, _, htotal, _, hbound, rfl⟩
  · have hfew : ∀ model' bss, Readings files modelPath paths model' bss →
        blockCount bss < 2 ^ 64 := by
      intro model' bss hreadings
      cases hload.symm.trans hreadings.load
      exact hjoins.blockCount_lt hreadings.traces
    obtain ⟨hne, kinds, hkinds, model', hv', bss, hreadings, hbyteSelect, hbaselines⟩ :=
      (runCompareList_eq_ok hplain hfew).mp h
    cases hload.symm.trans hreadings.load
    have hn := sized_of_traced hreadings.traces
    have hblocks := hjoins.splitBlocks_toList hv.block_pos.ne' hreadings.traces
    have hsome : (splitBlocks bytes model.blockSize).toList ≠ [] := by
      rw [hblocks, ne_eq, List.flatMap_eq_nil_iff]
      intro hall
      obtain ⟨trace, htrace⟩ :=
        List.exists_mem_of_ne_nil _ (ne_nil_of_traced hreadings.traces hne)
      exact pos_of_traced hreadings.traces trace htrace (hall trace htrace)
    have htotal : evaluate (splitBlocks bytes model.blockSize) model =
        .ok report.byteSelect.total := hbyteSelect.total.evaluation hn trivial hblocks
    have hresults : kinds.mapM (fun kind => (evaluateBaseline libraries
        (splitBlocks bytes model.blockSize) kind (targetSizesFor model)).mapError Error.what) =
        .ok (report.baselines.map fun b => b.2.total) := by
      rw [mapM_eq_ok_iff, List.forall₂_map_right_iff]
      refine hbaselines.imp ?_
      rintro kind ⟨_, m⟩ ⟨rfl, hm⟩
      exact mapError_eq_ok.mpr (hm.total.evaluation hn (baselineAccepts hv _) hblocks)
    simp only [runCompare, bind_eq_ok_iff]
    refine ⟨kinds, hkinds, model, hload, bytes, hread, ?_⟩
    rw [if_neg hsome]
    simp only [bind_eq_ok_iff, mapError_eq_ok]
    exact ⟨_, htotal, _, hresults, rfl⟩

theorem reportPaths_joined : ∃ report,
    runCompareList shortLibraries reportFiles
      ("model".toList :: (reportPaths ++ reportOptions)) = .ok report ∧
    runCompare shortLibraries reportFiles ("model".toList :: "both".toList :: reportOptions) =
      .ok (report.byteSelect.total, report.baselines.map fun b => b.2.total) := by
  have hvalid : validateModel taggedModel = .ok () := by decide
  have hload : loadModelFile reportFiles "model".toList = .ok taggedModel :=
    loadModelFile_saved (validateModel_iff.mp hvalid) (by decide +kernel) (by decide +kernel)
  have hjoins : Joins reportFiles taggedModel.blockSize "both".toList reportPaths
      ⟨[7, 7, 9, 7, 1, 2, 3, 4, 9, 9, 9, 9], by decide⟩ :=
    ⟨openFile_eq (by decide +kernel) (by decide), by decide +kernel⟩
  obtain ⟨report, hreport⟩ := exists_eq_ok (x := runCompareList shortLibraries reportFiles
    ("model".toList :: (reportPaths ++ reportOptions))) (by decide +kernel)
  exact ⟨report, hreport,
    ((listReports_joined shortLibraries hload hjoins).2 reportPaths_plain).2 report hreport⟩

end ByteSelect
