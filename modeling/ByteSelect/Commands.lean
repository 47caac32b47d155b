import ByteSelect.CommandLine
import ByteSelect.ContainerExact
import ByteSelect.Sessions
import ByteSelect.TrainedModel

/-! The commands that write files, over the files they read and write. -/
namespace ByteSelect

open Loops TextStream

abbrev Files := Sessions.Files Text (List Byte)

/-- The files that can be opened for writing, the directories that are there or can be made, and
the library the program is built with. -/
structure Host where
  writable : Text → Bool
  directory : Text → Bool
  lib : Library

/-- A file that is opened for reading; the sizes of files are signed 64-bit numbers. -/
def openFile (files : Files) (path : Text) : Option (Vec Byte) :=
  match files path with
  | none => none
  | some bytes => if h : bytes.length < 2 ^ 63 then some ⟨bytes, h⟩ else none

/-- The characters of a text, a byte each. -/
def bytesOf (text : Text) : List Byte := text.map fun c => Fin.ofNat _ c.toNat

def textOf (bytes : List Byte) : Text := bytes.map fun b => Char.ofNat b.val

def loadModelFile (files : Files) (path : Text) : Except String Model :=
  match openFile files path with
  | none => throw ("cannot open model for reading: " ++ String.ofList path)
  | some bytes => (loadModel (textOf bytes.toList)).mapError Error.what

/-! `compress`, with the counters that it prints. -/

/-- What a turn of the loop counts once it has written the record. -/
def countRecord (stats : Evaluation) (block : Block) (encoded : EncodedBlock) : Evaluation where
  blocks := addU64 stats.blocks 1
  originalBytes := addU64 stats.originalBytes block.length
  encodedBytes := addU64 stats.encodedBytes encoded.encodedSize
  allocatedBytes := addU64 stats.allocatedBytes encoded.allocatedSize
  compressedBlocks := addU64 stats.compressedBlocks (if encoded.compressed then 1 else 0)
  setBlocks :=
    if encoded.compressed then stats.setBlocks.modify encoded.setIndex (addU64 · 1)
    else stats.setBlocks

/-- The loop over the full blocks, with the output and the counters as they grow. -/
def compressBlocks (model : Model) :
    List Block → List Byte → Evaluation → Except Error Evaluation × List Byte
  | [], output, stats => (.ok stats, output)
  | block :: blocks, output, stats =>
    match compress block model with
    | .error e => (.error e, output)
    | .ok encoded =>
      compressBlocks model blocks (output ++ writeRecord model block encoded)
        (countRecord stats block encoded)

/-- The whole of `command_compress` behind the opening of its files: what it throws or prints, and
the bytes of its output file. -/
def compressAndCount (model : Model) (bytes : Vec Byte) : Except Error Evaluation × List Byte :=
  match validateModel model with
  | .error e => (.error e, [])
  | .ok () =>
    let blockSize := model.blockSize.val
    match compressBlocks model (fullBlocks blockSize bytes.toList)
        (containerHeader model bytes.toList)
        { setBlocks := List.replicate model.sets.length 0 } with
    | (.error e, output) => (.error e, output)
    | (.ok stats, output) =>
      (.ok stats, output ++ writeInteger 4 (toU32 (bytes.size % blockSize)) ++
        tailBytes blockSize bytes.toList)

/-- An outcome without what is printed. -/
def unprinted {ε ρ ω : Type} (outcome : Except ε ρ × ω) : Except ε Unit × ω :=
  (outcome.1.map fun _ => (), outcome.2)

/-- A command, with the arguments it has been given. -/
inductive Command where
  | train (args : List Text)
  | trainList (args : List Text)
  | compress (args : List Text)
  | decompress (args : List Text)

namespace Command

abbrev Outcome := Sessions.Outcome Text (List Byte) String Unit

def trace (files : Files) (path : Text) : Trace := ⟨String.ofList path, openFile files path⟩

/-- The model is saved before the held-out blocks are evaluated. Where it replaces one of the
traces the blocks are others then, which changes the figures that are printed alone. -/
def trainFrom (host : Host) (files : Files) (paths : List Text) (modelPath : Text)
    (parsed : ParsedOptions) : Outcome :=
  match trainFromTraces host.lib parsed.options (paths.map (trace files)) with
  | .error e => (.error e.what, files)
  | .ok run =>
    if host.writable modelPath then
      (match run.evaluation with
        | .error e => .error e.what
        | .ok _ => .ok (), Sessions.write files modelPath (bytesOf run.saved))
    else (.error ("cannot open model for writing: " ++ String.ofList modelPath), files)

def runTrain (host : Host) (files : Files) : List Text → Outcome
  | input :: modelPath :: args =>
    match parseTrainOptions args with
    | .error e => (.error e, files)
    | .ok parsed => trainFrom host files [input] modelPath parsed
  | _ => (.error "usage: bsel train INPUT MODEL [options]", files)

def runTrainList (host : Host) (files : Files) : List Text → Outcome
  | modelPath :: arg :: args =>
    let paths := (arg :: args).takeWhile (!isOption ·)
    if paths = [] then (.error "train-list requires at least one input trace", files)
    else
      match parseTrainOptions ((arg :: args).dropWhile (!isOption ·)) with
      | .error e => (.error e, files)
      | .ok parsed => trainFrom host files paths modelPath parsed
  | _ => (.error "usage: bsel train-list MODEL INPUT [INPUT ...] [options]", files)

def runCompress (host : Host) (files : Files) :
    List Text → Sessions.Outcome Text (List Byte) String Evaluation
  | [modelPath, inputPath, outputPath] =>
    match loadModelFile files modelPath with
    | .error e => (.error e, files)
    | .ok model =>
      match validateModel model with
      | .error e => (.error e.what, files)
      | .ok () =>
        match openFile files inputPath with
        | none => (.error ("cannot open input: " ++ String.ofList inputPath), files)
        | some bytes =>
          if host.writable outputPath then
            let (report, output) := compressAndCount model bytes
            (report.mapError Error.what, Sessions.write files outputPath output)
          else (.error "cannot open compressed output", files)
  | _ => (.error "usage: bsel compress MODEL INPUT OUTPUT", files)

def runDecompress (host : Host) (files : Files) : List Text → Outcome
  | [modelPath, inputPath, outputPath] =>
    match loadModelFile files modelPath with
    | .error e => (.error e, files)
    | .ok model =>
      match openFile files inputPath with
      | none => (.error "cannot open compressed input", files)
      | some bytes =>
        match commandDecompress model bytes.toList with
        | (.error e, _) => (.error e.what, files)
        | (.ok (), output) =>
          if host.writable outputPath then (.ok (), Sessions.write files outputPath output)
          else (.error ("cannot open output: " ++ String.ofList outputPath), files)
  | _ => (.error "usage: bsel decompress MODEL INPUT OUTPUT", files)

def run (host : Host) (files : Files) : Command → Outcome
  | train args => runTrain host files args
  | trainList args => runTrainList host files args
  | compress args => unprinted (runCompress host files args)
  | decompress args => runDecompress host files args

/-- The path a command writes, if it writes one. -/
def output : Command → Option Text
  | train args => args[1]?
  | trainList args => args[0]?
  | compress args => args[2]?
  | decompress args => args[2]?

/-- The files after a session. -/
abbrev runAll (host : Host) (files : Files) (commands : List Command) : Files :=
  Sessions.runAll (run host) files commands

end Command

variable {host : Host} {files : Files} {command : Command} {args paths : List Text}
  {path : Text} {parsed : ParsedOptions}

/-! The counters. -/

theorem countRecord_eq {block : Block} {model : Model} {encoded : EncodedBlock} {stats : Evaluation}
    (h : compress block model = .ok encoded) :
    evaluateBlock model stats block = .ok (countRecord stats block encoded) := by
  rw [evaluateBlock, h]
  rfl

/-- The loop writes the records and counts what `evaluate` counts. -/
theorem compressBlocks_eq (model : Model) (blocks : List Block) (output : List Byte)
    (stats : Evaluation) :
    unprinted (compressBlocks model blocks output stats) = writeBlocks model blocks output ∧
      (compressBlocks model blocks output stats).1 = blocks.foldlM (evaluateBlock model) stats := by
  induction blocks generalizing output stats with
  | nil => exact ⟨rfl, rfl⟩
  | cons block blocks ih =>
    rw [compressBlocks, writeBlocks, List.foldlM_cons]
    cases h : compress block model with
    | error e =>
      rw [evaluateBlock, h]
      exact ⟨rfl, rfl⟩
    | ok encoded =>
      rw [countRecord_eq h]
      exact ih _ _

theorem compressAndCount_eq (model : Model) (bytes : Vec Byte) :
    unprinted (compressAndCount model bytes) = commandCompress model bytes ∧
      (compressAndCount model bytes).1 = (do
        validateModel model
        (fullBlocks model.blockSize.val bytes.toList).foldlM (evaluateBlock model)
          { setBlocks := List.replicate model.sets.length 0 }) := by
  rw [compressAndCount, commandCompress]
  cases validateModel model with
  | error e => exact ⟨rfl, rfl⟩
  | ok checked =>
    obtain ⟨hwrites, hcounts⟩ := compressBlocks_eq model
      (fullBlocks model.blockSize.val bytes.toList) (containerHeader model bytes.toList)
      { setBlocks := List.replicate model.sets.length 0 }
    rw [ok_bind, ← hcounts]
    dsimp only
    rw [← hwrites]
    generalize compressBlocks model _ _ _ = outcome
    obtain ⟨report, output⟩ := outcome
    cases report with
    | error e => exact ⟨rfl, rfl⟩
    | ok stats => exact ⟨rfl, rfl⟩

theorem unprinted_eq_ok {ε ρ ω : Type} {outcome : Except ε ρ × ω} {after : ω} :
    unprinted outcome = (.ok (), after) ↔ ∃ report, outcome = (.ok report, after) := by
  obtain ⟨report, left⟩ := outcome
  cases report with
  | error e => simp [unprinted, Except.map]
  | ok report => simp [unprinted, Except.map]

theorem compressAndCount_ok {model : Model} (hv : validateModel model = .ok ())
    (bytes : Vec Byte) :
    ∃ stats, compressAndCount model bytes = (.ok stats, containerOf model bytes.toList) := by
  rw [← unprinted_eq_ok, (compressAndCount_eq model bytes).1, commandCompress_eq hv]

/-! The model file. -/

/-- A text without a character that takes more than a byte. -/
def Plain (text : Text) : Prop := ∀ c ∈ text, c.toNat < 2 ^ 8

theorem plain_append {a b : Text} : Plain (a ++ b) ↔ Plain a ∧ Plain b := List.forall_mem_append

theorem plain_flatMap {α : Type} {f : α → Text} {l : List α} (h : ∀ a ∈ l, Plain (f a)) :
    Plain (l.flatMap f) := by
  intro c hc
  obtain ⟨a, ha, hmem⟩ := List.mem_flatMap.mp hc
  exact h a ha c hmem

theorem plain_numeral (n : ℕ) : Plain (numeral n) := by
  intro c hc
  have hdigit := isDigit_numeral hc
  rw [Char.isDigit, Bool.and_eq_true, decide_eq_true_eq, decide_eq_true_eq] at hdigit
  have hle : c.toNat ≤ 57 := hdigit.2
  omega

theorem plain_words : Plain formatWord ∧ Plain blockSizeWord ∧ Plain setsWord ∧ Plain setWord ∧
    Plain patternPrefix ∧ Plain [' '] ∧ Plain ['\n'] := by
  have hall : ∀ {text : Text}, (text.all fun c => c.toNat < 2 ^ 8) = true → Plain text :=
    fun h c hc => of_decide_eq_true (List.all_eq_true.mp h c hc)
  exact ⟨hall rfl, hall rfl, hall rfl, hall rfl, hall rfl, hall rfl, hall rfl⟩

theorem textOf_bytesOf {text : Text} (h : Plain text) : textOf (bytesOf text) = text := by
  rw [textOf, bytesOf, List.map_map]
  refine (List.map_congr_left fun c hc => ?_).trans (List.map_id text)
  have hval : (Fin.ofNat (2 ^ 8) c.toNat).val = c.toNat := Nat.mod_eq_of_lt (h c hc)
  rw [Function.comp_apply, hval]
  exact Char.ofNat_toNat c

theorem plain_toText (p : Pattern) : Plain p.toText := by
  cases hsymbols : p.symbols with
  | nil =>
    rw [Pattern.toText, hsymbols]
    exact fun c hc => absurd hc List.not_mem_nil
  | cons symbol symbols =>
    rw [toText_cons hsymbols, plain_append]
    refine ⟨plain_numeral _, plain_flatMap fun next _ => ?_⟩
    exact plain_append.mpr ⟨plain_words.2.2.2.2.2.1, plain_numeral next.val⟩

theorem plain_modelText (model : Model) : Plain (modelText model) := by
  obtain ⟨hformat, hblock, hsets, hset, hpattern, hblank, hnewline⟩ := plain_words
  have hline : ∀ p : Pattern, Plain (patternLine p) := fun p => by
    simp only [patternLine, plain_append, hpattern, plain_toText, hnewline, and_self]
  have hsetText : ∀ s : PatternSet, Plain (setText s) := fun s => by
    simp only [setText, setLine, plain_append, hset, hblank, plain_numeral, hnewline, true_and]
    exact plain_flatMap fun p _ => hline p
  simp only [modelText, headerText, plain_append, hformat, hblock, hsets, hblank, plain_numeral,
    hnewline, true_and]
  exact plain_flatMap fun s _ => hsetText s

theorem loadModelFile_saved {model : Model} (hvalid : ValidModel model)
    (hfile : files path = some (bytesOf (modelText model)))
    (hlt : (modelText model).length < 2 ^ 63) : loadModelFile files path = .ok model := by
  have hlen : (bytesOf (modelText model)).length < 2 ^ 63 := by
    rw [bytesOf, List.length_map]
    exact hlt
  have hopen : openFile files path = some ⟨bytesOf (modelText model), hlen⟩ := by
    rw [openFile, hfile]
    exact dif_pos hlen
  rw [loadModelFile, hopen]
  dsimp only
  rw [textOf_bytesOf (plain_modelText model), loadModel_modelText hvalid]
  rfl

theorem loadModelFile_valid {model : Model} (h : loadModelFile files path = .ok model) :
    ValidModel model := by
  rw [loadModelFile] at h
  split at h
  · cases h
  · rename_i bytes hopen
    cases hload : loadModel (textOf bytes.toList) with
    | error e =>
      rw [hload] at h
      cases h
    | ok loaded =>
      rw [hload] at h
      cases h
      obtain ⟨⟨version, blockSize, setCount, s⟩, -, hsets⟩ := bind_eq_ok.mp hload
      obtain ⟨sets, -, hfinish⟩ := bind_eq_ok.mp hsets
      exact (finishLoad_ok hfinish).2

/-! The container. -/

theorem length_writeInteger (width value : ℕ) : (writeInteger width value).length = width := by
  rw [writeInteger, List.length_map, List.length_range]

theorem length_recordOf_le {model : Model} {block : Block} (hv : ValidModel model)
    (hb : block.length = model.blockSize.val) :
    (recordOf model block).length ≤ model.blockSize.val + 12 := by
  obtain ⟨encoded, hc, hsel⟩ := compress_selection hv hb
  rw [recordOf, hc]
  dsimp only
  cases hsel with
  | raw hnone =>
    rw [writeRecord, EncodedBlock.ofRaw, if_neg Bool.false_ne_true, List.length_cons, hb]
    omega
  | @pattern set si j p m hset hleast hp hd hfirst hm =>
    have hvs := hv.sets_valid set (List.mem_of_getElem? hset)
    have hlen : (EncodedBlock.ofPattern block set si j p m
        (dictionaryOf block p)).dictionary.length = set.dictionarySize.val :=
      length_ofPattern_dictionary hvs (List.mem_of_getElem? hp)
    have hdictionary := val_dictionarySize hvs.metadata_lt
    have htarget := hvs.target_lt
    have hcompressed : (EncodedBlock.ofPattern block set si j p m
        (dictionaryOf block p)).compressed = true := rfl
    rw [writeRecord, if_pos hcompressed, List.length_append, List.length_append, List.length_cons,
      length_writeInteger, length_writeInteger, hlen]
    omega

/-- A container is longer than its input by a header, and by twelve bytes a block at most. -/
theorem length_containerOf_le {model : Model} (hv : ValidModel model) (bytes : List Byte) :
    (containerOf model bytes).length ≤
      bytes.length + 12 * (bytes.length / model.blockSize.val) + 32 := by
  have hrecords : ∀ blocks : List Block, (∀ b ∈ blocks, b.length = model.blockSize.val) →
      (blocks.flatMap (recordOf model)).length ≤ blocks.length * (model.blockSize.val + 12) := by
    intro blocks
    induction blocks with
    | nil => exact fun _ => Nat.zero_le _
    | cons b blocks ih =>
      intro hblocks
      rw [List.forall_mem_cons] at hblocks
      have hfirst := length_recordOf_le hv hblocks.1
      have hrest := ih hblocks.2
      rw [List.flatMap_cons, List.length_append, List.length_cons, Nat.succ_mul]
      omega
  have hbody := hrecords (fullBlocks model.blockSize.val bytes) length_of_mem_fullBlocks
  have hsplit := Nat.div_add_mod' bytes.length model.blockSize.val
  rw [length_fullBlocks, Nat.mul_add] at hbody
  have hmagic : magic.length = 4 := rfl
  simp only [containerOf, containerHeader, List.length_append, length_writeInteger, length_tailBytes,
    hmagic]
  omega

theorem decompress_containerOf {model : Model} (hv : ValidModel model)
    (hsize : model.blockSize.val < 2 ^ 32) (htags : TagBytesFit model) (bytes : Vec Byte) :
    commandDecompress model (containerOf model bytes.toList) = (.ok (), bytes.toList) := by
  have haccepted : validateModel model = .ok () := validateModel_iff.mpr hv
  obtain ⟨x, hx, hfit⟩ := readContainer_container hv hsize (Or.inr rfl)
    (fun b hb => readBlock_recordOf hv hsize hb) bytes
  have hrun := hx []
  rw [hfit htags, List.append_nil, ← containerOf_eq] at hrun
  unfold commandDecompress
  rw [haccepted]
  dsimp only
  rw [hrun]
  rfl

theorem decompress_containerOf_wide {model : Model} (hv : ValidModel model)
    (hsize : 2 ^ 32 ≤ model.blockSize.val) (bytes : Vec Byte) :
    ∃ e, commandDecompress model (containerOf model bytes.toList) = (.error e, []) := by
  have haccepted : validateModel model = .ok () := validateModel_iff.mpr hv
  have hrun := readContainer_wide hsize bytes []
  rw [List.append_nil] at hrun
  unfold commandDecompress
  rw [haccepted]
  dsimp only
  rw [hrun]
  exact ⟨_, rfl⟩

/-! One command. -/

/-- A command that trains a model. -/
def Command.Trains (command : Command) : Prop :=
  ∃ args, command = .train args ∨ command = .trainList args

/-- What a command does to the files: it fails and leaves them as they are, or it writes the model
it has trained, a container, or the bytes that one gives back. -/
inductive Command.Effect (host : Host) (files : Files) (command : Command) :
    Command.Outcome → Prop
  | failed (e : String) : Effect host files command (.error e, files)
  | trained {path : Text} {model : Model} (htrains : command.Trains)
      (hpath : command.output = some path) (hwritable : host.writable path = true)
      (hv : ValidModel model) (htags : TagBytesFit model) :
      Effect host files command (.ok (), Sessions.write files path (bytesOf (modelText model)))
  | compressed {modelPath input path : Text} {model : Model} {bytes : Vec Byte}
      (hcommand : command = .compress [modelPath, input, path])
      (hwritable : host.writable path = true) (hload : loadModelFile files modelPath = .ok model)
      (hv : ValidModel model) (hinput : openFile files input = some bytes) :
      Effect host files command
        (.ok (), Sessions.write files path (containerOf model bytes.toList))
  | decompressed {modelPath input path : Text} {model : Model} {bytes : Vec Byte}
      {out : List Byte} (hcommand : command = .decompress [modelPath, input, path])
      (hwritable : host.writable path = true) (hload : loadModelFile files modelPath = .ok model)
      (hinput : openFile files input = some bytes)
      (hout : commandDecompress model bytes.toList = (.ok (), out)) :
      Effect host files command (.ok (), Sessions.write files path out)

namespace Command

theorem effect_trainFrom (htrains : command.Trains) (hpath : command.output = some path)
    (hsound : parsed.Sound) (paths : List Text) :
    Effect host files command (trainFrom host files paths path parsed) := by
  rw [trainFrom]
  split
  · exact .failed _
  · rename_i run hrun
    obtain ⟨evaluation, hevaluation⟩ := trainFromTraces_evaluates hrun
    obtain ⟨model, hsaved, hvalid, -, hsets⟩ := trainFromTraces_saves hrun
    split
    · rename_i hwritable
      rw [hevaluation, hsaved]
      refine .trained htrains hpath hwritable hvalid ?_
      intro set hset
      obtain ⟨target, htarget, heq⟩ := exists_of_mem_left hsets.flip hset
      have heq : set = target.toSet set.patterns := heq
      rw [heq]
      exact hsound.tags target htarget
    · exact .failed _

theorem effect_run (host : Host) (files : Files) (command : Command) :
    Effect host files command (command.run host files) := by
  cases command with
  | train args =>
    rw [run]
    unfold runTrain
    split
    · split
      · exact .failed _
      · rename_i hparsed
        exact effect_trainFrom ⟨_, Or.inl rfl⟩ rfl (parseTrainOptions_sound hparsed).1 _
    · exact .failed _
  | trainList args =>
    rw [run]
    unfold runTrainList
    split
    · dsimp only
      split
      · exact .failed _
      · split
        · exact .failed _
        · rename_i hparsed
          exact effect_trainFrom ⟨_, Or.inr rfl⟩ rfl (parseTrainOptions_sound hparsed).1 _
    · exact .failed _
  | compress args =>
    rw [run]
    unfold runCompress
    split
    · split
      · exact .failed _
      · rename_i model hload
        split
        · exact .failed _
        · rename_i hvalid
          split
          · exact .failed _
          · rename_i bytes hinput
            split
            · rename_i hwritable
              obtain ⟨stats, hstats⟩ := compressAndCount_ok hvalid bytes
              rw [hstats]
              exact .compressed rfl hwritable hload (validateModel_iff.mp hvalid) hinput
            · exact .failed _
    · exact .failed _
  | decompress args =>
    rw [run]
    unfold runDecompress
    split
    · split
      · exact .failed _
      · rename_i model hload
        split
        · exact .failed _
        · rename_i bytes hinput
          split
          · exact .failed _
          · rename_i out hout
            split
            · rename_i hwritable
              exact .decompressed rfl hwritable hload hinput hout
            · exact .failed _
    · exact .failed _

theorem wrote_run (host : Host) (files : Files) (command : Command) :
    Sessions.Wrote host.writable files command.output (command.run host files) := by
  have heffect := effect_run host files command
  generalize command.run host files = outcome at heffect ⊢
  cases heffect with
  | failed e => exact .failed e
  | trained htrains hpath hwritable hv htags => exact .wrote () _ hpath hwritable
  | compressed hcommand hwritable hload hv hinput =>
    exact .wrote () _ (by rw [hcommand]; rfl) hwritable
  | decompressed hcommand hwritable hload hinput hout =>
    exact .wrote () _ (by rw [hcommand]; rfl) hwritable

theorem runAll_kept {commands : List Command}
    (h : ∀ command ∈ commands, command.output ≠ some path) :
    runAll host files commands path = files path :=
  Sessions.runAll_kept (wrote_run host) h

end Command

theorem holds_of_trains {modelPath : Text} (htrains : command.Trains)
    (houtput : command.output = some modelPath) (h : (command.run host files).1 = .ok ()) :
    ∃ model, (command.run host files).2 modelPath = some (bytesOf (modelText model)) ∧
      ValidModel model ∧ TagBytesFit model := by
  obtain ⟨args, hargs⟩ := htrains
  have heffect := command.effect_run host files
  generalize command.run host files = outcome at h heffect ⊢
  cases heffect with
  | failed e => cases h
  | trained htrains hpath hwritable hv htags =>
    obtain rfl := Option.some_inj.mp (houtput.symm.trans hpath)
    exact ⟨_, Sessions.write_self _ _ _, hv, htags⟩
  | compressed hcommand hwritable hload hv hinput =>
    rw [hcommand] at hargs
    rcases hargs with hargs | hargs <;> cases hargs
  | decompressed hcommand hwritable hload hinput hout =>
    rw [hcommand] at hargs
    rcases hargs with hargs | hargs <;> cases hargs

/-! Sessions. -/

theorem openFile_eq {bytes : List Byte} (h : files path = some bytes)
    (hlt : bytes.length < 2 ^ 63) : openFile files path = some ⟨bytes, hlt⟩ := by
  rw [openFile, h]
  exact dif_pos hlt

theorem length_modelText_lt {model : Model} (hfile : files path = some (bytesOf (modelText model)))
    (hopens : openFile files path ≠ none) : (modelText model).length < 2 ^ 63 := by
  rw [openFile, hfile] at hopens
  dsimp only at hopens
  split at hopens
  · rename_i hlt
    rw [bytesOf, List.length_map] at hlt
    exact hlt
  · exact absurd rfl hopens

theorem run_compress {model : Model} {modelPath input output : Text} {bytes : Vec Byte}
    (hmodel : loadModelFile files modelPath = .ok model) (hv : ValidModel model)
    (hinput : openFile files input = some bytes) (hwritable : host.writable output = true) :
    (Command.compress [modelPath, input, output]).run host files =
      (.ok (), Sessions.write files output (containerOf model bytes.toList)) := by
  have haccepted : validateModel model = .ok () := validateModel_iff.mpr hv
  rw [Command.run, Command.runCompress, hmodel]
  dsimp only
  rw [haccepted]
  dsimp only
  rw [hinput]
  dsimp only
  obtain ⟨stats, hstats⟩ := compressAndCount_ok haccepted bytes
  rw [if_pos hwritable, hstats]
  rfl

theorem run_decompress {model : Model} {modelPath input output : Text} {bytes : Vec Byte}
    (hmodel : loadModelFile files modelPath = .ok model)
    (hinput : openFile files input = some bytes) (hwritable : host.writable output = true) :
    (Command.decompress [modelPath, input, output]).run host files =
      match commandDecompress model bytes.toList with
      | (.error e, _) => (.error e.what, files)
      | (.ok (), out) => (.ok (), Sessions.write files output out) := by
  rw [Command.run, Command.runDecompress, hmodel]
  dsimp only
  rw [hinput]
  dsimp only
  simp only [if_pos hwritable]

/-- A file that is compressed with a trained model comes back when it is decompressed, whatever
other commands run between. The container has 32 bits for the block size: one that they do not hold
makes `decompress` fail. -/
theorem session_round_trip {host : Host} {files : Files} {training : Command}
    {before between : List Command} {modelPath input container output : Text} {bytes : Vec Byte}
    (htrains : training.Trains) (houtput : training.output = some modelPath)
    (htrained : (training.run host files).1 = .ok ())
    (hmodelOpens : openFile (training.run host files).2 modelPath ≠ none)
    (hbefore : ∀ command ∈ before, command.output ≠ some modelPath)
    (hinput : openFile (Command.runAll host files (training :: before)) input = some bytes)
    (hsize : 13 * bytes.size + 32 < 2 ^ 63)
    (hbetween : ∀ command ∈ between,
      command.output ≠ some modelPath ∧ command.output ≠ some container)
    (hapart : container ≠ modelPath) (hcontainer : host.writable container = true)
    (hwritable : host.writable output = true) :
    ∃ model, loadModelFile (Command.runAll host files (training :: before)) modelPath =
        .ok model ∧
      ((Command.compress [modelPath, input, container]).run host
        (Command.runAll host files (training :: before))).1 = .ok () ∧
      (((Command.decompress [modelPath, container, output]).run host
        (Command.runAll host files (training :: before ++
          .compress [modelPath, input, container] :: between))).1 = .ok () ↔
        model.blockSize.val < 2 ^ 32) ∧
      (model.blockSize.val < 2 ^ 32 →
        Command.runAll host files (training :: before ++
          .compress [modelPath, input, container] :: between ++
          [.decompress [modelPath, container, output]]) output = some bytes.toList) := by
  obtain ⟨model, hfile, hv, htags⟩ := holds_of_trains htrains houtput htrained
  have hlt := length_modelText_lt hfile hmodelOpens
  have hkept : Command.runAll host files (training :: before) modelPath =
      some (bytesOf (modelText model)) := by
    rw [← hfile]
    exact Command.runAll_kept hbefore
  have hload := loadModelFile_saved hv hkept hlt
  have hcompress := run_compress hload hv hinput hcontainer
  have hlater : ∀ command ∈ Command.compress [modelPath, input, container] :: between,
      command.output ≠ some modelPath := by
    rw [List.forall_mem_cons]
    exact ⟨fun heq => hapart (Option.some.inj heq), fun command hmem => (hbetween command hmem).1⟩
  have hload' : loadModelFile (Command.runAll host files (training :: before ++
      .compress [modelPath, input, container] :: between)) modelPath = .ok model := by
    refine loadModelFile_saved hv ?_ hlt
    rw [← hkept]
    exact Sessions.runAll_append_kept (Command.wrote_run host) hlater
  have hlength : (containerOf model bytes.toList).length < 2 ^ 63 := by
    have hle := length_containerOf_le hv bytes.toList
    have hblocks := Nat.div_le_self bytes.toList.length model.blockSize.val
    rw [Vec.size] at hsize
    omega
  have hopens : openFile (Command.runAll host files (training :: before ++
      .compress [modelPath, input, container] :: between)) container =
      some ⟨containerOf model bytes.toList, hlength⟩ := by
    refine openFile_eq ?_ hlength
    exact Sessions.runAll_written (Command.wrote_run host) hcompress fun command hmem =>
      (hbetween command hmem).2
  have hdecompress := run_decompress hload' hopens hwritable
  refine ⟨model, hload, congrArg Prod.fst hcompress, ⟨fun h => ?_, fun hblock => ?_⟩,
    fun hblock => ?_⟩
  · by_contra hwide
    obtain ⟨e, he⟩ := decompress_containerOf_wide hv (not_lt.mp hwide) bytes
    rw [hdecompress, he] at h
    cases h
  · rw [hdecompress, decompress_containerOf hv hblock htags bytes]
  · rw [decompress_containerOf hv hblock htags bytes] at hdecompress
    exact Sessions.runAll_written (Command.wrote_run host) hdecompress fun command hmem =>
      absurd hmem List.not_mem_nil

/-! A session that trains twice, and compresses and decompresses between. -/

def exampleHost : Host := ⟨fun _ => true, fun _ => true, insertionLibrary⟩

def exampleFiles : Files := fun path =>
  if path = "trace".toList then some [1, 1, 1, 1, 2, 2, 2, 2, 9] else none

def exampleTraining (modelPath : Text) : Command :=
  .train ["trace".toList, modelPath, "--block-size".toList, "4".toList, "--target".toList,
    "3:1:1".toList]

/-- Between, the traces are overwritten and other models are trained. -/
theorem exampleTraining_round_trip :
    ((Command.compress ["model".toList, "trace".toList, "packed".toList]).run exampleHost
      (Command.runAll exampleHost exampleFiles
        [exampleTraining "model".toList, exampleTraining "other".toList])).1 = .ok () ∧
    ((Command.decompress ["model".toList, "packed".toList, "back".toList]).run exampleHost
      (Command.runAll exampleHost exampleFiles
        [exampleTraining "model".toList, exampleTraining "other".toList,
          .compress ["model".toList, "trace".toList, "packed".toList],
          exampleTraining "trace".toList])).1 = .ok () ∧
    Command.runAll exampleHost exampleFiles
      [exampleTraining "model".toList, exampleTraining "other".toList,
        .compress ["model".toList, "trace".toList, "packed".toList],
        exampleTraining "trace".toList,
        .decompress ["model".toList, "packed".toList, "back".toList]] "back".toList =
      some [1, 1, 1, 1, 2, 2, 2, 2, 9] := by
  obtain ⟨model, hload, hcompress, hdecompress, hback⟩ :=
    @session_round_trip exampleHost exampleFiles (exampleTraining "model".toList)
      [exampleTraining "other".toList] [exampleTraining "trace".toList] "model".toList
      "trace".toList "packed".toList "back".toList ⟨[1, 1, 1, 1, 2, 2, 2, 2, 9], by decide⟩
      ⟨_, Or.inl rfl⟩ rfl (by decide +kernel) (by decide +kernel) (by decide +kernel)
      (by decide +kernel) (by decide +kernel) (by decide +kernel) (by decide) rfl rfl
  have hsmall : (match loadModelFile (Command.runAll exampleHost exampleFiles
      [exampleTraining "model".toList, exampleTraining "other".toList]) "model".toList with
      | .ok model => decide (model.blockSize.val < 2 ^ 32)
      | .error _ => false) = true := by decide +kernel
  rw [hload] at hsmall
  have hblock := of_decide_eq_true hsmall
  exact ⟨hcompress, hdecompress.mpr hblock, hback hblock⟩

/-- A file that a session has changed was written by a command after which no command that names
the file has succeeded: it holds the model that was trained, the container or the bytes that this
command makes of the files it finds. -/
theorem Command.runAll_last (host : Host) {files : Files} {commands : List Command} {path : Text}
    (hchanged : runAll host files commands path ≠ files path) :
    ∃ contents before command after, runAll host files commands path = some contents ∧
      Sessions.LastWrite (run host) host.writable output files commands path contents before command
        after ∧
      Effect host (runAll host files before) command
        (.ok (), Sessions.write (runAll host files before) path contents) := by
  obtain ⟨contents, before, command, after, hholds, hlast⟩ :=
    Sessions.exists_lastWrite (wrote_run host) hchanged
  obtain ⟨report, hrun⟩ := hlast.writes
  have heffect := effect_run host (runAll host files before) command
  rw [hrun] at heffect
  exact ⟨contents, before, command, after, hholds, hlast, heffect⟩

/-- The training that cannot read its trace any more leaves the model alone. -/
theorem exampleTraining_last : ∃ contents before command after,
    Command.runAll exampleHost exampleFiles
      [exampleTraining "model".toList, .compress ["model".toList, "trace".toList, "trace".toList],
        .train ["missing".toList, "model".toList]] "model".toList = some contents ∧
      Sessions.LastWrite (Command.run exampleHost) exampleHost.writable Command.output exampleFiles
        [exampleTraining "model".toList,
          .compress ["model".toList, "trace".toList, "trace".toList],
          .train ["missing".toList, "model".toList]] "model".toList contents before command after ∧
      Command.Effect exampleHost (Command.runAll exampleHost exampleFiles before) command
        (.ok (), Sessions.write (Command.runAll exampleHost exampleFiles before) "model".toList
          contents) :=
  Command.runAll_last exampleHost (by decide +kernel)

end ByteSelect
