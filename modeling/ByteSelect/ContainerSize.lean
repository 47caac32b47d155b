import ByteSelect.ReportLaws

/-! The size of a container, as the counters tell it. -/
namespace ByteSelect

open Accounting Loops TextStream

variable {host : Host} {files : Files} {model : Model} {block : Block} {encoded : EncodedBlock}
  {stats : Evaluation}

/-- The bytes of a record, for every set. -/
def recordSizes (model : Model) : List ℕ :=
  model.sets.map fun set => 13 + (set.targetSize.val - set.metadataBytes.val)

theorem length_recordOf (hv : ValidModel model) (hb : block.length = model.blockSize.val)
    (hrun : compress block model = .ok encoded) : (recordOf model block).length =
      cost (recordSizes model) (1 + model.blockSize.val) (encoded.entry block).slot := by
  obtain ⟨encoded', hrun', hsel⟩ := compress_selection hv hb
  cases hrun.symm.trans hrun'
  rw [recordOf, hrun]
  dsimp only
  cases hsel with
  | raw hnone =>
    have hslot : ((EncodedBlock.ofRaw block).entry block).slot = none := rfl
    rw [writeRecord, EncodedBlock.ofRaw, if_neg Bool.false_ne_true, List.length_cons, hb]
    exact Nat.add_comm _ _
  | @pattern set si j p m hset hleast hp hd hfirst hm =>
    have hvs := hv.sets_valid set (List.mem_of_getElem? hset)
    have hdictionary : (EncodedBlock.ofPattern block set si j p m
        (dictionaryOf block p)).dictionary.length = set.dictionarySize.val :=
      length_ofPattern_dictionary hvs (List.mem_of_getElem? hp)
    have hprice : (recordSizes model)[si]? =
        some (13 + (set.targetSize.val - set.metadataBytes.val)) := by
      rw [recordSizes, List.getElem?_map, hset]
      rfl
    have hcompressed : (EncodedBlock.ofPattern block set si j p m
        (dictionaryOf block p)).compressed = true := rfl
    have hslot : ((EncodedBlock.ofPattern block set si j p m (dictionaryOf block p)).entry
        block).slot = some si := rfl
    rw [writeRecord, if_pos hcompressed, List.length_append, List.length_append, List.length_cons,
      length_writeInteger, length_writeInteger, hdictionary, val_dictionarySize hvs.metadata_lt,
      hslot, cost, List.getD_eq_getElem?_getD, hprice]
    change _ = 13 + _
    omega

theorem slot_lt_of_compress (hv : ValidModel model) (hb : block.length = model.blockSize.val)
    (hrun : compress block model = .ok encoded) {i : ℕ}
    (hslot : (encoded.entry block).slot = some i) : i < (recordSizes model).length := by
  obtain ⟨encoded', hrun', hsel⟩ := compress_selection hv hb
  cases hrun.symm.trans hrun'
  have hlt := (List.getElem?_eq_some_iff.mp ((hsel.sound hv hb).slotted i hslot)).1
  rw [Model.targets, List.length_map] at hlt
  rw [recordSizes, List.length_map]
  exact hlt

theorem length_containerOf (model : Model) (bytes : List Byte) :
    (containerOf model bytes).length = 32 + bytes.length % model.blockSize.val +
      ((fullBlocks model.blockSize.val bytes).map fun block =>
        (recordOf model block).length).sum := by
  have hmagic : magic.length = 4 := rfl
  simp only [containerOf, containerHeader, List.length_append, length_writeInteger,
    length_tailBytes, hmagic, List.length_flatMap]
  omega

/-- The counters tell how long the container is. -/
theorem length_containerOf_stats (hv : ValidModel model) (bytes : Vec Byte)
    (hstats : evaluate (splitBlocks bytes model.blockSize) model = .ok stats) :
    (containerOf model bytes.toList).length = 32 + bytes.size % model.blockSize.val +
      ((List.zipWith (· * ·) stats.setBlocks (recordSizes model)).sum +
        (stats.blocks - stats.compressedBlocks) * (1 + model.blockSize.val)) := by
  have hblocks := splitBlocks_toList hv.block_pos.ne' bytes
  have hn : ∀ block ∈ (splitBlocks bytes model.blockSize).toList,
      block.length = model.blockSize.val := hblocks ▸ length_of_mem_fullBlocks
  have hbooks := evaluate_books hv model.blockSize.val
  obtain ⟨haccepted, entries, hentries, rfl⟩ := (hbooks.run _ hn stats).mp hstats
  obtain ⟨-, -, hwrap⟩ := hbooks.totals_wrap hn haccepted hentries
  have hlength : model.targets.length = (recordSizes model).length := by
    rw [Model.targets, recordSizes, List.length_map, List.length_map]
  have hall : List.Forall₂ (fun block entry => block.length = model.blockSize.val ∧
      ∃ encoded, compress block model = .ok encoded ∧ entry = encoded.entry block)
      (splitBlocks bytes model.blockSize).toList entries := by
    refine (List.forall₂_and_left _ _).mpr ⟨hn, ?_⟩
    exact (mapM_eq_ok_iff.mp hentries).imp fun _ _ => map_eq_ok.mp
  have hsizes : ((fullBlocks model.blockSize.val bytes.toList).map fun block =>
      (recordOf model block).length) = entries.map fun entry =>
        cost (recordSizes model) (1 + model.blockSize.val) entry.slot := by
    rw [← hblocks]
    apply map_eq_of_forall₂
    refine hall.imp ?_
    rintro block entry ⟨hb, encoded, hrun, rfl⟩
    exact length_recordOf hv hb hrun
  have hslots : ∀ entry ∈ entries, ∀ i, entry.slot = some i → i < (recordSizes model).length := by
    intro entry hentry i hslot
    obtain ⟨block, -, hb, encoded, hrun, rfl⟩ := exists_of_mem_left hall.flip hentry
    exact slot_lt_of_compress hv hb hrun hslot
  rw [length_containerOf, hsizes, ← cost_totals _ hslots, hwrap, hlength]
  rfl

theorem exists_evaluate (hv : ValidModel model) (bytes : Vec Byte) :
    ∃ stats, evaluate (splitBlocks bytes model.blockSize) model = .ok stats := by
  have hblocks := splitBlocks_toList hv.block_pos.ne' bytes
  have hn : ∀ block ∈ (splitBlocks bytes model.blockSize).toList,
      block.length = model.blockSize.val := hblocks ▸ length_of_mem_fullBlocks
  obtain ⟨entries, hentries⟩ : ∃ entries, (splitBlocks bytes model.blockSize).toList.mapM
      (fun block => (compress block model).map (EncodedBlock.entry block)) = .ok entries := by
    apply exists_mapM_ok
    intro block hblock
    obtain ⟨encoded, hrun, -⟩ := compress_selection hv (hn block hblock)
    exact ⟨_, map_eq_ok.mpr ⟨encoded, hrun, rfl⟩⟩
  exact ⟨_, ((evaluate_books hv _).run _ hn _).mpr ⟨fun _ => trivial, entries, hentries, rfl⟩⟩

theorem runEvaluate_eq_ok {modelPath input : Text} :
    runEvaluate files [modelPath, input] = .ok stats ↔ ∃ model bytes,
      loadModelFile files modelPath = .ok model ∧ openFile files input = some bytes ∧
        evaluate (splitBlocks bytes model.blockSize) model = .ok stats := by
  simp only [runEvaluate, bind_eq_ok_iff, mapError_eq_ok, readBytes_eq_ok]
  constructor
  · rintro ⟨model, hload, -, -, bytes, hopen, hstats⟩
    exact ⟨model, bytes, hload, hopen, hstats⟩
  · rintro ⟨model, bytes, hload, hopen, hstats⟩
    exact ⟨model, hload, (), validateModel_iff.mpr (loadModelFile_valid hload), bytes, hopen, hstats⟩

theorem compressAndCount_evaluate (hv : ValidModel model) (bytes : Vec Byte) :
    (compressAndCount model bytes).1 = evaluate (splitBlocks bytes model.blockSize) model := by
  have haccepted : validateModel model = .ok () := validateModel_iff.mpr hv
  rw [(compressAndCount_eq model bytes).2, haccepted, ok_bind, evaluate,
    splitBlocks_toList hv.block_pos.ne']

theorem runCompress_eq_ok {modelPath input output : Text} :
    (Command.runCompress host files [modelPath, input, output]).1 = .ok stats ↔
      host.writable output = true ∧ ∃ model bytes, loadModelFile files modelPath = .ok model ∧
        openFile files input = some bytes ∧ (compressAndCount model bytes).1 = .ok stats := by
  rw [Command.runCompress]
  cases hload : loadModelFile files modelPath with
  | error e =>
    refine iff_of_false (fun h => by cases h) ?_
    rintro ⟨-, model, bytes, h, -⟩
    cases h
  | ok model =>
    have haccepted : validateModel model = .ok () := validateModel_iff.mpr (loadModelFile_valid hload)
    dsimp only
    rw [haccepted]
    dsimp only
    cases hopen : openFile files input with
    | none =>
      refine iff_of_false (fun h => by cases h) ?_
      rintro ⟨-, model', bytes, -, h, -⟩
      cases h
    | some bytes =>
      dsimp only
      by_cases hwritable : host.writable output = true
      · rw [if_pos hwritable, mapError_eq_ok]
        constructor
        · exact fun h => ⟨hwritable, model, bytes, rfl, rfl, h⟩
        · rintro ⟨-, model', bytes', hmodel, hbytes, h⟩
          cases hmodel
          cases hbytes
          exact h
      · rw [if_neg hwritable]
        exact iff_of_false (fun h => by cases h) fun h => hwritable h.1

/-- `compress` prints what `evaluate` reports of the same model and input, whenever its output can
be written, and these figures tell how long the container is that it leaves. -/
theorem compress_evaluate (host : Host) (files : Files) (modelPath input output : Text) :
    ((∃ stats, (Command.runCompress host files [modelPath, input, output]).1 = .ok stats) ↔
      host.writable output = true ∧ (∃ model, loadModelFile files modelPath = .ok model) ∧
        ∃ bytes, openFile files input = some bytes) ∧
    ∀ stats,
      ((Command.runCompress host files [modelPath, input, output]).1 = .ok stats ↔
        host.writable output = true ∧ runEvaluate files [modelPath, input] = .ok stats) ∧
      ((Command.runCompress host files [modelPath, input, output]).1 = .ok stats →
        ∃ model bytes, loadModelFile files modelPath = .ok model ∧
          openFile files input = some bytes ∧
          (Command.runCompress host files [modelPath, input, output]).2 =
            Sessions.write files output (commandCompress model bytes).2 ∧
          (commandCompress model bytes).2.length = 32 + bytes.size % model.blockSize.val +
            ((List.zipWith (· * ·) stats.setBlocks (recordSizes model)).sum +
              (stats.blocks - stats.compressedBlocks) * (1 + model.blockSize.val))) := by
  refine ⟨?_, fun stats => ⟨?_, ?_⟩⟩
  · constructor
    · rintro ⟨stats, h⟩
      obtain ⟨hwritable, model, bytes, hload, hopen, -⟩ := runCompress_eq_ok.mp h
      exact ⟨hwritable, ⟨model, hload⟩, bytes, hopen⟩
    · rintro ⟨hwritable, ⟨model, hload⟩, bytes, hopen⟩
      have hv := loadModelFile_valid hload
      obtain ⟨stats, hstats⟩ := exists_evaluate hv bytes
      rw [← compressAndCount_evaluate hv] at hstats
      exact ⟨stats, runCompress_eq_ok.mpr ⟨hwritable, model, bytes, hload, hopen, hstats⟩⟩
  · rw [runCompress_eq_ok, runEvaluate_eq_ok]
    refine and_congr_right fun _ => exists_congr fun model => exists_congr fun bytes => ?_
    refine and_congr_right fun hload => and_congr_right fun _ => ?_
    rw [compressAndCount_evaluate (loadModelFile_valid hload)]
  · intro h
    obtain ⟨hwritable, model, bytes, hload, hopen, hstats⟩ := runCompress_eq_ok.mp h
    have hv := loadModelFile_valid hload
    rw [compressAndCount_evaluate hv] at hstats
    have hcontainer : (commandCompress model bytes).2 = containerOf model bytes.toList :=
      congrArg Prod.snd (commandCompress_eq (validateModel_iff.mpr hv) bytes)
    refine ⟨model, bytes, hload, hopen, ?_, ?_⟩
    · rw [hcontainer]
      exact congrArg Prod.snd (run_compress hload hv hopen hwritable)
    · rw [hcontainer]
      exact length_containerOf_stats hv bytes hstats

/-- The command prints the figures of the second trace, and its container is as long as they
tell. -/
theorem reportFiles_compress : ∃ stats,
    runEvaluate reportFiles ["model".toList, "second".toList] = .ok stats ∧
    (Command.runCompress exampleHost reportFiles
      ["model".toList, "second".toList, "packed".toList]).1 = .ok stats ∧
    ∃ model bytes, loadModelFile reportFiles "model".toList = .ok model ∧
      openFile reportFiles "second".toList = some bytes ∧
      (Command.runCompress exampleHost reportFiles
        ["model".toList, "second".toList, "packed".toList]).2 =
        Sessions.write reportFiles "packed".toList (commandCompress model bytes).2 ∧
      (commandCompress model bytes).2.length = 32 + bytes.size % model.blockSize.val +
        ((List.zipWith (· * ·) stats.setBlocks (recordSizes model)).sum +
          (stats.blocks - stats.compressedBlocks) * (1 + model.blockSize.val)) := by
  obtain ⟨stats, hstats⟩ := exists_eq_ok
    (x := runEvaluate reportFiles ["model".toList, "second".toList]) (by decide +kernel)
  obtain ⟨hprints, hfiles⟩ := (compress_evaluate exampleHost reportFiles "model".toList
    "second".toList "packed".toList).2 stats
  have hcompress := hprints.mpr ⟨rfl, hstats⟩
  exact ⟨stats, hstats, hcompress, hfiles hcompress⟩

end ByteSelect
