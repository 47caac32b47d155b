import ByteSelect.Commands
import ByteSelect.RtlCodec

/-! The command that writes the hardware of a model: a file for each module. -/
namespace ByteSelect

open Loops SystemVerilog PackedBytes Ident Sessions

variable {host : Host} {files : Files} {model : Model} {set : PatternSet} {x y : Ident}
  {outputDirectory modelPath path : Text} {i : ℕ}

/-! The command. -/

abbrev RtlOutcome := Outcome Text (List Byte) Error Unit

/-- `mkdir` makes the directory, or it is there already. -/
def ensureDirectory (host : Host) (path : Text) : Except Error Unit :=
  throwIf (host.directory path = false)
    (.runtimeError ("cannot create RTL output directory: " ++ String.ofList path))

/-- A file that is opened for writing is empty. -/
def openOutput (host : Host) (files : Files) (path : Text) : Files :=
  if host.writable path then write files path [] else files

/-- Two files: both are opened before the first is written, and each text is generated just before
it is written. -/
def writePair (host : Host) (what : String) (first second : Text)
    (firstText secondText : Except Error (Vec Char)) (files : Files) : RtlOutcome :=
  let opened := openOutput host (openOutput host files first) second
  if host.writable first = false ∨ host.writable second = false then
    (.error (.runtimeError what), opened)
  else
    match firstText with
    | .error e => (.error e, opened)
    | .ok text =>
      let written := write opened first (bytesOf text.toList)
      match secondText with
      | .error e => (.error e, written)
      | .ok text => (.ok (), write written second (bytesOf text.toList))

/-- The loop over the sets, from the index of one on. -/
def writeSets (host : Host) (model : Model) (outputDirectory : Text) :
    List ℕ → Files → RtlOutcome
  | [], files => (.ok (), files)
  | i :: indices, files =>
    andThen (writePair host "cannot create RTL output files"
      (outputDirectory ++ "/bsel_compressor" ++ ("_s" ++ num i) ++ ".sv")
      (outputDirectory ++ "/bsel_decompressor" ++ ("_s" ++ num i) ++ ".sv")
      (generateCompressorSv model i) (generateDecompressorSv model i) files)
      (writeSets host model outputDirectory indices)

def writeRtl (host : Host) (model : Model) (outputDirectory : Text) (files : Files) :
    RtlOutcome :=
  match (do validateModel model; ensureDirectory host outputDirectory) with
  | .error e => (.error e, files)
  | .ok () =>
    andThen (writeSets host model outputDirectory (List.range model.sets.length) files)
      (writePair host "cannot create RTL top-level files"
        (outputDirectory ++ "/bsel_compressor_top.sv")
        (outputDirectory ++ "/bsel_decompressor_top.sv")
        (generateTopCompressorSv model) (generateTopDecompressorSv model))

def runGenerateRtl (host : Host) (files : Files) : List Text → Command.Outcome
  | [modelPath, outputDirectory] =>
    match loadModelFile files modelPath with
    | .error e => (.error e, files)
    | .ok model =>
      let (status, files) := writeRtl host model outputDirectory files
      (status.mapError Error.what, files)
  | _ => (.error "usage: bsel generate-rtl MODEL OUTPUT_DIRECTORY", files)

/-! The files. -/

/-- The file of a module has the name of the module. -/
def rtlPath (outputDirectory : Text) (x : Ident) : Text :=
  outputDirectory ++ "/" ++ x.text ++ ".sv"

/-- The text of the module of a name. -/
def rtlText (model : Model) (x : Ident) : Text :=
  match design model x with
  | none => []
  | some m => m.text Ident.text

/-- A file that can be written, and a text that a string can hold. -/
def RtlReady (host : Host) (model : Model) (outputDirectory : Text) (x : Ident) : Prop :=
  host.writable (rtlPath outputDirectory x) = true ∧ (rtlText model x).length < 2 ^ 63

/-- What a step does that writes the files of some modules. -/
abbrev WroteRtl (host : Host) (model : Model) (outputDirectory : Text) (names : List Ident)
    (files : Files) (outcome : RtlOutcome) : Prop :=
  WroteAll (rtlPath outputDirectory) (RtlReady host model outputDirectory)
    (fun x => bytesOf (rtlText model x)) names files outcome

theorem rtlPath_injective (outputDirectory : Text) :
    Function.Injective (rtlPath outputDirectory) := by
  intro x y h
  exact ident_text_injective (List.append_cancel_left (List.append_cancel_right h))

theorem openOutput_of_ne (host : Host) (files : Files) {other : Text} (h : other ≠ path) :
    openOutput host files path other = files other := by
  rw [openOutput]
  split
  · exact write_of_ne _ h
  · rfl

theorem makeString_cases (text : Text) :
    (text.length < 2 ^ 63 ∧ ∃ v, makeString text = .ok v ∧ v.toList = text) ∨
      (¬ text.length < 2 ^ 63 ∧ ∃ e, makeString text = .error e) := by
  by_cases h : text.length < 2 ^ 63
  · exact Or.inl ⟨h, ⟨text, h⟩, dif_pos h, rfl⟩
  · exact Or.inr ⟨h, _, dif_neg h⟩

/-- The two files of a pair, whose texts are generated as the modules of two names. -/
theorem writePair_wrote (what : String) (hne : x ≠ y) (files : Files) :
    WroteRtl host model outputDirectory [x, y] files
      (writePair host what (rtlPath outputDirectory x) (rtlPath outputDirectory y)
        (makeString (rtlText model x)) (makeString (rtlText model y)) files) := by
  have hpaths : rtlPath outputDirectory x ≠ rtlPath outputDirectory y :=
    (rtlPath_injective outputDirectory).ne hne
  have hlater : y ∈ [x, y] := List.mem_cons_of_mem x List.mem_cons_self
  have hopened : ∀ path, (∀ z ∈ [x, y], rtlPath outputDirectory z ≠ path) →
      openOutput host (openOutput host files (rtlPath outputDirectory x))
        (rtlPath outputDirectory y) path = files path := by
    intro path hpath
    rw [List.forall_mem_cons, List.forall_mem_singleton] at hpath
    rw [openOutput_of_ne host _ hpath.2.symm, openOutput_of_ne host _ hpath.1.symm]
  unfold writePair
  dsimp only
  split
  · rename_i hclosed
    refine wroteAll_failed _ hopened ?_
    rcases hclosed with hfirst | hsecond
    · exact ⟨x, List.mem_cons_self, fun hready => Bool.false_ne_true (hfirst.symm.trans hready.1)⟩
    · exact ⟨y, hlater, fun hready => Bool.false_ne_true (hsecond.symm.trans hready.1)⟩
  · rename_i hclosed
    rw [not_or, Bool.not_eq_false, Bool.not_eq_false] at hclosed
    rcases makeString_cases (rtlText model x) with ⟨hx, v, hv, hvtext⟩ | ⟨hx, e, he⟩
    · rw [hv]
      dsimp only
      have hwritten : ∀ path, (∀ z ∈ [x, y], rtlPath outputDirectory z ≠ path) →
          write (openOutput host (openOutput host files (rtlPath outputDirectory x))
            (rtlPath outputDirectory y)) (rtlPath outputDirectory x) (bytesOf v.toList) path =
            files path := by
        intro path hpath
        rw [write_of_ne _ (hpath x List.mem_cons_self).symm, hopened path hpath]
      rcases makeString_cases (rtlText model y) with ⟨hy, w, hw, hwtext⟩ | ⟨hy, e, he⟩
      · rw [hw]
        dsimp only
        refine ⟨fun path hpath => ?_, iff_of_true rfl ?_, fun _ => ?_⟩
        · exact (write_of_ne _ (hpath y hlater).symm).trans (hwritten path hpath)
        · rw [List.forall_mem_cons, List.forall_mem_singleton]
          exact ⟨⟨hclosed.1, hx⟩, hclosed.2, hy⟩
        · rw [List.forall_mem_cons, List.forall_mem_singleton]
          rw [← hvtext, ← hwtext]
          exact ⟨(write_of_ne _ hpaths).trans (write_self _ _ _), write_self _ _ _⟩
      · rw [he]
        exact wroteAll_failed e hwritten ⟨y, hlater, fun hready => hy hready.2⟩
    · rw [he]
      exact wroteAll_failed e hopened ⟨x, List.mem_cons_self, fun hready => hx hready.2⟩

theorem rtlText_compressor (hset : model.sets[i]? = some set) :
    rtlText model (compressor i) = (compressorModule model set i).text Ident.text := by
  rw [rtlText, design, hset]
  rfl

theorem rtlText_decompressor (hset : model.sets[i]? = some set) :
    rtlText model (decompressor i) = (decompressorModule model set i).text Ident.text := by
  rw [rtlText, design, hset]
  rfl

theorem rtlPath_compressor (outputDirectory : Text) (i : ℕ) :
    outputDirectory ++ "/bsel_compressor" ++ ("_s" ++ num i) ++ ".sv" =
      rtlPath outputDirectory (compressor i) := by
  simp only [rtlPath, Ident.text, Ident.base, Ident.index, indexText, List.append_assoc,
    literal_append_assoc, String.reduceAppend]

theorem rtlPath_decompressor (outputDirectory : Text) (i : ℕ) :
    outputDirectory ++ "/bsel_decompressor" ++ ("_s" ++ num i) ++ ".sv" =
      rtlPath outputDirectory (decompressor i) := by
  simp only [rtlPath, Ident.text, Ident.base, Ident.index, indexText, List.append_assoc,
    literal_append_assoc, String.reduceAppend]

theorem rtlPath_top (outputDirectory : Text) :
    outputDirectory ++ "/bsel_compressor_top.sv" = rtlPath outputDirectory compressorTop ∧
      outputDirectory ++ "/bsel_decompressor_top.sv" = rtlPath outputDirectory decompressorTop := by
  simp only [rtlPath, Ident.text, Ident.base, Ident.index, indexText, List.append_assoc,
    List.append_nil, literal_append, String.reduceAppend, and_self]

/-- The modules of a set. -/
def setNames (i : ℕ) : List Ident := [compressor i, decompressor i]

theorem writeSets_wrote (hv : validateModel model = .ok ()) {indices : List ℕ}
    (hlt : ∀ i ∈ indices, i < model.sets.length) (hnodup : indices.Nodup) (files : Files) :
    WroteRtl host model outputDirectory (indices.flatMap setNames) files
      (writeSets host model outputDirectory indices files) := by
  induction indices generalizing files with
  | nil => exact wroteAll_nil files
  | cons i indices ih =>
    rw [List.forall_mem_cons] at hlt
    rw [List.nodup_cons] at hnodup
    have hset := List.getElem?_eq_getElem hlt.1
    rw [writeSets, generateCompressorSv_text hv hset, generateDecompressorSv_text hv hset,
      ← rtlText_compressor hset, ← rtlText_decompressor hset, rtlPath_compressor,
      rtlPath_decompressor, List.flatMap_cons]
    refine (writePair_wrote _ (by simp) files).andThen (ih hlt.2 hnodup.2 _) ?_
    intro x hx y hy heq
    obtain rfl := rtlPath_injective outputDirectory heq
    obtain ⟨j, hj, hmem⟩ := List.mem_flatMap.mp hy
    have hindex : ∀ k, y ∈ setNames k → y.index = some k := by
      intro k hk
      rcases List.mem_pair.mp hk with rfl | rfl <;> rfl
    have hij := Option.some_inj.mp ((hindex i hx).symm.trans (hindex j hmem))
    exact hnodup.1 (hij ▸ hj)

/-- The modules of a design, in the order in which their files are written. -/
def designNames (model : Model) : List Ident :=
  (List.range model.sets.length).flatMap setNames ++ [compressorTop, decompressorTop]

theorem mem_designNames : x ∈ designNames model ↔ ∃ m, design model x = some m := by
  have hsets : ∀ i, i < model.sets.length ↔ ∃ set, model.sets[i]? = some set := fun i =>
    ⟨fun h => ⟨_, List.getElem?_eq_getElem h⟩, fun ⟨_, h⟩ => (List.getElem?_eq_some_iff.mp h).1⟩
  cases x <;> simp [designNames, setNames, design, hsets]

theorem writeRtl_wrote (hv : validateModel model = .ok ())
    (hdirectory : host.directory outputDirectory = true) (files : Files) :
    WroteRtl host model outputDirectory (designNames model) files
      (writeRtl host model outputDirectory files) := by
  have hchecked : (do validateModel model; ensureDirectory host outputDirectory) = .ok () := by
    rw [hv, ensureDirectory, hdirectory]
    rfl
  have hcompressor : rtlText model compressorTop = (topCompressorModule model).text Ident.text := rfl
  have hdecompressor : rtlText model decompressorTop =
      (topDecompressorModule model).text Ident.text := rfl
  rw [writeRtl, hchecked]
  dsimp only
  rw [generateTopCompressorSv_text hv, generateTopDecompressorSv_text hv, ← hcompressor,
    ← hdecompressor, (rtlPath_top outputDirectory).1, (rtlPath_top outputDirectory).2]
  refine (writeSets_wrote hv (fun i => List.mem_range.mp) List.nodup_range files).andThen
    (writePair_wrote _ (by simp) _) ?_
  intro x hx y hy heq
  obtain rfl := rtlPath_injective outputDirectory heq
  obtain ⟨i, -, hmem⟩ := List.mem_flatMap.mp hx
  rcases List.mem_pair.mp hy with rfl | rfl <;> simp [setNames] at hmem

/-- A module instantiates modules of its own design only. -/
theorem exists_of_instance {m : Module Ident} {label : Ident} {ins : List (Ident × Expr Ident)}
    {outs : List (Ident × Ident)} (hm : design model x = some m)
    (hitem : .instance y label ins outs ∈ m.items) : ∃ m', design model y = some m' := by
  have hgroup : ∀ z ∈ model.sets.zipIdx, ∃ set, model.sets[z.2]? = some set := fun z hz =>
    ⟨z.1, List.mem_zipIdx_iff_getElem?.mp hz⟩
  cases x with
  | compressorTop =>
    cases hm
    simp only [topCompressorModule, List.mem_append, List.mem_flatMap, compressorItems,
      List.mem_singleton, reduceCtorEq, or_false] at hitem
    obtain ⟨z, hz, hmem⟩ := hitem
    simp only [List.mem_cons, reduceCtorEq, Item.instance.injEq, List.not_mem_nil, or_false,
      false_or] at hmem
    obtain ⟨set, hset⟩ := hgroup z hz
    rw [hmem.1, design, hset]
    exact ⟨_, rfl⟩
  | decompressorTop =>
    cases hm
    simp only [topDecompressorModule, List.mem_append, List.mem_flatMap, decompressorItems,
      List.mem_singleton, reduceCtorEq, or_false] at hitem
    obtain ⟨z, hz, hmem⟩ := hitem
    simp only [List.mem_cons, reduceCtorEq, Item.instance.injEq, List.not_mem_nil, or_false,
      false_or] at hmem
    obtain ⟨set, hset⟩ := hgroup z hz
    rw [hmem.1, design, hset]
    exact ⟨_, rfl⟩
  | compressor i =>
    obtain ⟨set, -, rfl⟩ := Option.map_eq_some_iff.mp hm
    simp [compressorModule] at hitem
  | decompressor i =>
    obtain ⟨set, -, rfl⟩ := Option.map_eq_some_iff.mp hm
    simp [decompressorModule] at hitem
  | _ => cases hm

theorem runGenerateRtl_eq (hload : loadModelFile files modelPath = .ok model) :
    runGenerateRtl host files [modelPath, outputDirectory] =
      ((writeRtl host model outputDirectory files).1.mapError Error.what,
        (writeRtl host model outputDirectory files).2) := by
  rw [runGenerateRtl, hload]

theorem writeRtl_no_directory (hv : validateModel model = .ok ())
    (hdirectory : host.directory outputDirectory = false) (files : Files) :
    ∃ e, writeRtl host model outputDirectory files = (.error e, files) := by
  refine ⟨.runtimeError ("cannot create RTL output directory: " ++
    String.ofList outputDirectory), ?_⟩
  rw [writeRtl, hv, ensureDirectory, hdirectory]
  rfl

/-- A command that succeeds has made the directory, and the files of all modules. -/
theorem runGenerateRtl_ok (hload : loadModelFile files modelPath = .ok model)
    (hok : (runGenerateRtl host files [modelPath, outputDirectory]).1 = .ok ()) :
    ∀ x m, design model x = some m → RtlReady host model outputDirectory x ∧
      (runGenerateRtl host files [modelPath, outputDirectory]).2 (rtlPath outputDirectory x) =
        some (bytesOf (m.text Ident.text)) := by
  have hv : validateModel model = .ok () := validateModel_iff.mpr (loadModelFile_valid hload)
  rw [runGenerateRtl_eq hload] at hok ⊢
  rw [mapError_eq_ok] at hok
  cases hdirectory : host.directory outputDirectory with
  | false =>
    obtain ⟨e, hfails⟩ := writeRtl_no_directory hv hdirectory files
    rw [hfails] at hok
    cases hok
  | true =>
    have hwrote := writeRtl_wrote hv hdirectory files
    intro x m hm
    have hx := mem_designNames.mpr ⟨m, hm⟩
    have hholds := hwrote.holds hok x hx
    rw [rtlText, hm] at hholds
    exact ⟨hwrote.ok_iff.mp hok x hx, hholds⟩

/-- The command succeeds exactly if it can make the directory and write the file of every module;
it touches no other file, and leaves every module of the design in the file of its name. -/
theorem generateRtl_exact (host : Host) {files : Files} {model : Model}
    {modelPath outputDirectory : Text} (hload : loadModelFile files modelPath = .ok model) :
    ((runGenerateRtl host files [modelPath, outputDirectory]).1 = .ok () ↔
      host.directory outputDirectory = true ∧
        ∀ x m, design model x = some m → RtlReady host model outputDirectory x) ∧
    (∀ path, (∀ x m, design model x = some m → rtlPath outputDirectory x ≠ path) →
      (runGenerateRtl host files [modelPath, outputDirectory]).2 path = files path) ∧
    ((runGenerateRtl host files [modelPath, outputDirectory]).1 = .ok () →
      ∀ x m, design model x = some m →
        (runGenerateRtl host files [modelPath, outputDirectory]).2 (rtlPath outputDirectory x) =
          some (bytesOf (m.text Ident.text)) ∧
        ∀ y label ins outs, .instance y label ins outs ∈ m.items →
          ∃ m', design model y = some m') := by
  have hv : validateModel model = .ok () := validateModel_iff.mpr (loadModelFile_valid hload)
  have hfiles : (runGenerateRtl host files [modelPath, outputDirectory]).2 =
      (writeRtl host model outputDirectory files).2 := by
    rw [runGenerateRtl_eq hload]
  have hstatus : (runGenerateRtl host files [modelPath, outputDirectory]).1 = .ok () ↔
      (writeRtl host model outputDirectory files).1 = .ok () := by
    rw [runGenerateRtl_eq hload]
    exact mapError_eq_ok
  refine ⟨hstatus.trans ?_, fun path hpath => ?_, fun hok x m hm => ?_⟩
  · cases hdirectory : host.directory outputDirectory with
    | false =>
      obtain ⟨e, hfails⟩ := writeRtl_no_directory hv hdirectory files
      rw [hfails]
      exact iff_of_false nofun fun hboth => Bool.false_ne_true hboth.1
    | true =>
      refine (writeRtl_wrote hv hdirectory files).ok_iff.trans ⟨fun hall => ⟨rfl, ?_⟩, ?_⟩
      · exact fun x m hm => hall x (mem_designNames.mpr ⟨m, hm⟩)
      · intro hboth x hx
        obtain ⟨m, hm⟩ := mem_designNames.mp hx
        exact hboth.2 x m hm
  · rw [hfiles]
    cases hdirectory : host.directory outputDirectory with
    | false =>
      obtain ⟨e, hfails⟩ := writeRtl_no_directory hv hdirectory files
      rw [hfails]
    | true =>
      refine (writeRtl_wrote hv hdirectory files).kept path fun x hx => ?_
      obtain ⟨m, hm⟩ := mem_designNames.mp hx
      exact hpath x m hm
  · exact ⟨(runGenerateRtl_ok hload hok x m hm).2,
      fun y label ins outs hitem => exists_of_instance hm hitem⟩

/-- A design whose files have been written has no position beyond the arithmetic of its
generators. -/
theorem blockSize_lt_of_ready (hv : ValidModel model)
    (hready : ∀ x m, design model x = some m → RtlReady host model outputDirectory x) :
    ∀ set ∈ model.sets, set.patterns.toList ≠ [] → model.blockSize.val < 2 ^ 61 := by
  intro set hmem hne
  obtain ⟨i, hi⟩ := List.getElem?_of_mem hmem
  obtain ⟨p, hp⟩ := List.exists_mem_of_ne_nil _ hne
  have hdesign : design model (compressor i) = some (compressorModule model set i) := by
    rw [design, hi]
    rfl
  have htext := (hready _ _ hdesign).2
  rw [rtlText_compressor hi] at htext
  have hlt := size_lt_of_compressor_text hp htext
  rwa [(hv.sets_valid set hmem).size_eq p hp] at hlt

/-- The hardware that the command has written compresses as the software does, and its decompressor
restores what either of them has compressed. -/
theorem generateRtl_round_trip {host : Host} {files : Files} {model : Model}
    {modelPath outputDirectory : Text} {block : Block} {inputs : Store Ident}
    (hload : loadModelFile files modelPath = .ok model)
    (hok : (runGenerateRtl host files [modelPath, outputDirectory]).1 = .ok ())
    (hbytes : ∀ set ∈ model.sets, 1 ≤ set.metadataBytes.val ∧ set.metadataBytes.val ≤ 8)
    (htargets : ∀ set ∈ model.sets, set.targetSize.val < 65536)
    (hb : block.length = model.blockSize.val) (hin : inputs blockI = pack block) :
    (∀ x m, design model x = some m →
      (runGenerateRtl host files [modelPath, outputDirectory]).2 (rtlPath outputDirectory x) =
        some (bytesOf (m.text Ident.text))) ∧
    ∃ encoded, compress block model = .ok encoded ∧
      LinkedExact model block encoded (compressorOutputs model inputs) := by
  have hv := loadModelFile_valid hload
  have hwritten := runGenerateRtl_ok hload hok
  have hword : WordModel model :=
    ⟨⟨hv, fun set hset => (hbytes set hset).1, htargets⟩, fun set hset => (hbytes set hset).2⟩
  refine ⟨fun x m hm => (hwritten x m hm).2, linked_exact hword ?_ hb hin⟩
  exact blockSize_lt_of_ready hv fun x m hm => (hwritten x m hm).1

/-! The hardware of the model of the tests. -/

/-- A host with one model file. -/
def rtlFiles : Files := fun path =>
  if path = "model".toList then some (bytesOf (modelText taggedModel)) else none

theorem loadModelFile_rtlFiles : loadModelFile rtlFiles "model".toList = .ok taggedModel :=
  loadModelFile_saved (validateModel_iff.mp (show validateModel taggedModel = .ok () by decide)) rfl
    (by decide +kernel)

theorem taggedModel_generateRtl_exact :
    (runGenerateRtl exampleHost rtlFiles ["model".toList, "rtl".toList]).1 = .ok () ↔
      exampleHost.directory "rtl".toList = true ∧
        ∀ x m, design taggedModel x = some m → RtlReady exampleHost taggedModel "rtl".toList x :=
  (generateRtl_exact exampleHost loadModelFile_rtlFiles).1

theorem taggedModel_generateRtl_round_trip : ∃ encoded,
    compress [7, 7, 9, 7] taggedModel = .ok encoded ∧
      LinkedExact taggedModel [7, 7, 9, 7] encoded
        (compressorOutputs taggedModel fun _ => pack [7, 7, 9, 7]) :=
  (@generateRtl_round_trip exampleHost rtlFiles taggedModel "model".toList "rtl".toList
    [7, 7, 9, 7] (fun _ => pack [7, 7, 9, 7]) loadModelFile_rtlFiles (by decide +kernel)
    (by decide) (by decide) (by decide) rfl).2

end ByteSelect
