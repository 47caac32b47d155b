import ByteSelect.ContainerExact

/-! Containers of version 1, which name the set and the pattern of a block by index. -/
namespace ByteSelect

open ByteStream

variable {model : Model} {block : Block} {encoded : EncodedBlock} {set : PatternSet}

/-- A compressed block by its indices and dictionary; a raw one as in version 2. -/
def legacyRecord (block : Block) (encoded : EncodedBlock) : List Byte :=
  if encoded.compressed then
    1 :: writeInteger 4 (toU32 encoded.setIndex) ++
      writeInteger 4 (toU32 encoded.patternIndex) ++
      writeInteger 4 (toU32 encoded.dictionary.length) ++ encoded.dictionary
  else 0 :: block

def legacyRecords (model : Model) : List Block → Except Error (List Byte)
  | [] => .ok []
  | block :: blocks => do
    let encoded ← compress block model
    let records ← legacyRecords model blocks
    return legacyRecord block encoded ++ records

/-- The container of version 1 that stores what `compress` makes of each block. -/
def legacyContainer (model : Model) (bytes : Vec Byte) : Except Error (List Byte) := do
  let blockSize := model.blockSize.val
  let records ← legacyRecords model (fullBlocks blockSize bytes.toList)
  return magic ++ writeInteger 4 1 ++ writeInteger 8 bytes.size ++
    writeInteger 4 (toU32 blockSize) ++ writeInteger 8 (bytes.size / blockSize) ++
    (records ++ (writeInteger 4 (toU32 (bytes.size % blockSize)) ++
      tailBytes blockSize bytes.toList))

/-- Indices and lengths that the 32-bit fields of a record hold. -/
structure IndicesFit (model : Model) : Prop where
  block_lt : model.blockSize.val < 2 ^ 32
  sets_lt : model.sets.length < 2 ^ 32
  patterns_lt : ∀ set ∈ model.sets, set.patterns.size < 2 ^ 32

/-- The indices lead to the metadata that `compress` stored. -/
theorem readRecordV1_record (hfit : IndicesFit model) {si j : ℕ} {p : Pattern} {m : SizeT}
    (hvs : ValidSet model.blockSize set) (hset : model.sets[si]? = some set)
    (hp : set.patterns.toList[j]? = some p) (hm : encodePatternMetadata set j = .ok m)
    {dictionary : List Byte} (hd : dictionary.length = set.dictionarySize.val) :
    Yields (readRecordV1 model)
      (writeInteger 4 (toU32 si) ++ (writeInteger 4 (toU32 j) ++
        (writeInteger 4 (toU32 dictionary.length) ++ dictionary)))
      (.ok {
        compressed := true
        originalSize := model.blockSize
        setIndex := si
        patternIndex := j
        metadata := m
        dictionary := dictionary }) := by
  obtain ⟨hsi, -⟩ := List.getElem?_eq_some_iff.mp hset
  obtain ⟨hj, -⟩ := List.getElem?_eq_some_iff.mp hp
  have hsets := hfit.sets_lt
  have hpatterns := hfit.patterns_lt set (List.mem_of_getElem? hset)
  have hblock := hfit.block_lt
  have htarget := hvs.target_lt
  have hdict := val_dictionarySize hvs.metadata_lt
  have hsi32 : toU32 si = si := Nat.mod_eq_of_lt (by omega)
  have hj32 : toU32 j = j := Nat.mod_eq_of_lt (hj.trans hpatterns)
  have hd32 : toU32 dictionary.length = dictionary.length := Nat.mod_eq_of_lt (by omega)
  rw [hsi32, hj32, hd32]
  refine (yields_readInteger (by omega)).step ?_
  refine (yields_readInteger (hj.trans hpatterns)).step ?_
  refine (yields_readInteger (by omega)).step ?_
  have hpass : ¬ (si ≥ model.sets.length ∨
      dictionary.length ≠ (model.setAt si).dictionarySize.val) := by
    rw [setAt_eq hset, not_or, not_not]
    exact ⟨not_le.mpr hsi, hd⟩
  dsimp only
  rw [throwIf_neg hpass, setAt_eq hset, hm]
  exact .lift_ok (.lift_ok ((yields_read 0 dictionary).last (yields_pure _)))

/-- A record of version 1 is read back and decoded to its block. -/
theorem readBlock_legacyRecord (hv : ValidModel model) (hfit : IndicesFit model)
    (hb : block.length = model.blockSize.val) (hsel : Selection model block encoded) :
    Yields (readBlock model 1) (legacyRecord block encoded) (.ok block) := by
  cases hsel with
  | raw hnone =>
    let raw : EncodedBlock := { originalSize := model.blockSize, raw := block }
    have hdecode : decompress raw model = .ok block := (decompress_raw_iff rfl).mpr ⟨hb, rfl⟩
    have hread : Yields (readEncoded model 1 ((0 : Byte) ≠ 0)) block (.ok raw) := readRaw_block hb
    have hrecord := readBlock_flag (Or.inl rfl) hread
    rw [ok_bind, hdecode] at hrecord
    exact hrecord
  | @pattern set si j p m hset hleast hp hd hfirst hm =>
    have hvs := hv.sets_valid set (List.mem_of_getElem? hset)
    have hlen : (EncodedBlock.ofPattern block set si j p m
        (dictionaryOf block p)).dictionary.length = set.dictionarySize.val :=
      length_ofPattern_dictionary hvs (List.mem_of_getElem? hp)
    have hread : Yields (readEncoded model 1 ((1 : Byte) ≠ 0)) _ _ :=
      readRecordV1_record hfit hvs hset hp hm hlen
    have hrecord := readBlock_flag (Or.inr rfl) hread
    have hdecode := decompress_reread hv hset hp hd hm
    have hwrite : legacyRecord block (.ofPattern block set si j p m (dictionaryOf block p)) =
        1 :: (writeInteger 4 (toU32 si) ++ (writeInteger 4 (toU32 j) ++ (writeInteger 4 (toU32
          (EncodedBlock.ofPattern block set si j p m (dictionaryOf block p)).dictionary.length) ++
          (EncodedBlock.ofPattern block set si j p m (dictionaryOf block p)).dictionary))) := by
      simp only [legacyRecord, EncodedBlock.ofPattern, if_true, List.cons_append,
        List.append_assoc]
    rw [ok_bind] at hrecord
    rw [hwrite, ← hdecode]
    exact hrecord

/-- The record of a block, whatever `compress` makes of it. -/
def legacyRecordOf (model : Model) (block : Block) : List Byte :=
  match compress block model with
  | .ok encoded => legacyRecord block encoded
  | .error _ => []

theorem readBlock_legacyRecordOf (hv : ValidModel model) (hfit : IndicesFit model)
    (hb : block.length = model.blockSize.val) :
    Yields (readBlock model 1) (legacyRecordOf model block) (.ok block) := by
  obtain ⟨encoded, hc, hsel⟩ := compress_selection hv hb
  have hof : legacyRecordOf model block = legacyRecord block encoded := by
    rw [legacyRecordOf, hc]
  rw [hof]
  exact readBlock_legacyRecord hv hfit hb hsel

theorem legacyRecords_eq (hv : ValidModel model) {blocks : List Block}
    (hlength : ∀ b ∈ blocks, b.length = model.blockSize.val) :
    legacyRecords model blocks = .ok (blocks.flatMap (legacyRecordOf model)) := by
  induction blocks with
  | nil => rfl
  | cons b blocks ih =>
    obtain ⟨encoded, hc, -⟩ := compress_selection hv (hlength b List.mem_cons_self)
    have hrest := ih fun c hc => hlength c (List.mem_cons_of_mem b hc)
    rw [legacyRecords, hc, ok_bind, hrest, List.flatMap_cons, legacyRecordOf, hc]
    rfl

/-- Decompressing a container of version 1 gives the input back, whatever the tag layout. -/
theorem legacyContainer_round_trip {model : Model} {bytes : Vec Byte}
    (hv : validateModel model = .ok ()) (hsize : model.blockSize.val < 2 ^ 32)
    (hsets : model.sets.length < 2 ^ 32)
    (hpatterns : ∀ set ∈ model.sets, set.patterns.size < 2 ^ 32) :
    ∃ container, legacyContainer model bytes = .ok container ∧
      commandDecompress model container = (.ok (), bytes.toList) := by
  have hvalid := validateModel_iff.mp hv
  have hfit : IndicesFit model := ⟨hsize, hsets, hpatterns⟩
  have hrecords := @legacyRecords_eq model hvalid (fullBlocks model.blockSize.val bytes.toList)
    length_of_mem_fullBlocks
  refine ⟨containerWith 1 (legacyRecordOf model) model bytes.toList, ?_, ?_⟩
  · rw [legacyContainer, hrecords]
    rfl
  · obtain ⟨x, hx, hall⟩ := readContainer_container hvalid hsize (Or.inl rfl)
      (fun b hb => ⟨_, readBlock_legacyRecordOf hvalid hfit hb, fun _ : True => rfl⟩) bytes
    have hrun := hx []
    rw [hall trivial, List.append_nil] at hrun
    unfold commandDecompress
    rw [hv]
    dsimp only
    rw [hrun]
    rfl

theorem taggedModel_legacyContainer_round_trip :
    ∃ container, legacyContainer taggedModel exampleBytes = .ok container ∧
      commandDecompress taggedModel container = (.ok (), exampleBytes.toList) :=
  legacyContainer_round_trip (by decide) (by decide) (by decide) (by decide)

end ByteSelect
