import ByteSelect.Container
import ByteSelect.CodecExact
import Mathlib.Tactic.Ring
import Mathlib.Tactic.Positivity

/-! The container reader inverts the writer, and refuses every proper prefix. -/
namespace ByteSelect

open ByteStream

variable {model : Model} {block : Block} {encoded : EncodedBlock} {set : PatternSet}

/-! Integers. -/

theorem val_ofNat_byte (value i : ℕ) :
    (Fin.ofNat (2 ^ 8) (value >>> (i * 8) &&& 0xff)).val = value / 2 ^ (i * 8) % 2 ^ 8 := by
  have hmask : value >>> (i * 8) &&& 0xff = value >>> (i * 8) % 2 ^ 8 :=
    Nat.and_two_pow_sub_one_eq_mod _ 8
  rw [Fin.val_ofNat, hmask, Nat.mod_mod, Nat.shiftRight_eq_div_pow]

/-- One more byte extends what is known of the value from the bottom. -/
theorem or_next_byte (value i : ℕ) :
    value % 2 ^ (i * 8) ||| (value / 2 ^ (i * 8) % 2 ^ 8) <<< (i * 8) =
      value % 2 ^ ((i + 1) * 8) := by
  have hlt : value % 2 ^ (i * 8) < 2 ^ (i * 8) := Nat.mod_lt _ (by positivity)
  rw [Nat.or_comm, ← Nat.shiftLeft_add_eq_or_of_lt hlt, Nat.shiftLeft_eq, Nat.add_mul, Nat.one_mul,
    Nat.pow_add, Nat.mod_mul]
  ring

theorem yields_readIntegerFrom (value i n : ℕ) :
    Yields (readIntegerFrom i n (value % 2 ^ (i * 8)))
      ((List.range' i n).map fun i => Fin.ofNat _ (value >>> (i * 8) &&& 0xff))
      (.ok (value % 2 ^ ((i + n) * 8))) := by
  induction n generalizing i with
  | zero => exact yields_pure _
  | succ n ih =>
    rw [List.range'_succ, List.map_cons, ← List.singleton_append, readIntegerFrom]
    refine (yields_get _).step ?_
    have hnext := ih (i + 1)
    rw [← or_next_byte, ← val_ofNat_byte] at hnext
    rw [show i + (n + 1) = i + 1 + n by omega]
    exact hnext

/-- A value that fits the width is read back. -/
theorem yields_readInteger {width value : ℕ} (h : value < 2 ^ (width * 8)) :
    Yields (readInteger width) (writeInteger width value) (.ok value) := by
  have hrun := yields_readIntegerFrom value 0 width
  rw [Nat.zero_mul, Nat.pow_zero, Nat.mod_one, Nat.zero_add, Nat.mod_eq_of_lt h] at hrun
  rw [readInteger, writeInteger, List.range_eq_range']
  exact hrun

theorem extends_readIntegerFrom (i n value : ℕ) : Extends (readIntegerFrom i n value) := by
  induction n generalizing i value with
  | zero => exact extends_pure _
  | succ n ih =>
    refine extends_get.bind ?_
    intro byte
    cases byte with
    | none => exact extends_lift _
    | some byte => exact ih _ _

theorem extends_readInteger (width : ℕ) : Extends (readInteger width) :=
  extends_readIntegerFrom 0 width 0

/-! Longer inputs. -/

theorem extends_readRaw (model : Model) : Extends (readRaw model) :=
  (extends_read _ _).bind fun _ => extends_pure _

theorem extends_readRecord (model : Model) : Extends (readRecord model) := by
  refine (extends_readInteger _).bind fun targetSize => ?_
  refine (extends_readInteger _).bind fun metadata => ?_
  refine (extends_lift _).bind fun _ => (extends_lift _).bind fun setIndex => ?_
  refine (extends_lift _).bind fun patternIndex => ?_
  exact (extends_read _ _).bind fun _ => extends_pure _

theorem extends_readRecordV1 (model : Model) : Extends (readRecordV1 model) := by
  refine (extends_readInteger _).bind fun setIndex => ?_
  refine (extends_readInteger _).bind fun patternIndex => ?_
  refine (extends_readInteger _).bind fun dictionarySize => ?_
  refine (extends_lift _).bind fun _ => (extends_lift _).bind fun metadata => ?_
  exact (extends_read _ _).bind fun _ => extends_pure _

theorem extends_readEncoded (model : Model) (version : ℕ) (compressed : Bool) :
    Extends (readEncoded model version compressed) := by
  unfold readEncoded
  split
  · exact extends_readRaw model
  · split
    · exact extends_readRecordV1 model
    · exact extends_readRecord model

theorem extends_readBlock (model : Model) (version : ℕ) : Extends (readBlock model version) := by
  refine extends_get.bind fun flag => ?_
  cases flag with
  | none => exact extends_lift _
  | some flag =>
    refine (extends_lift _).bind fun _ => ?_
    exact (extends_readEncoded model version _).bind fun _ => extends_failed.bind fun _ =>
      (extends_lift _).bind fun _ => extends_lift _

theorem extends_readBlocks (model : Model) (version n : ℕ) (output : List Byte) :
    Extends (readBlocks model version n output) := by
  induction n generalizing output with
  | zero => exact extends_pure _
  | succ n ih => exact (extends_readBlock model version).bind fun _ => ih _

theorem extends_readBody (model : Model) (originalSize blockSize blockCount version : ℕ) :
    Extends (readBody model originalSize blockSize blockCount version) := by
  refine (extends_lift _).bind fun _ => (extends_lift _).bind fun _ => ?_
  refine (extends_readBlocks _ _ _ _).bind fun output => ?_
  refine (extends_readInteger _).bind fun tailSize => (extends_lift _).bind fun _ => ?_
  refine (extends_read _ _).bind fun tail => extends_failed.bind fun bad => ?_
  exact (extends_lift _).bind fun _ => extends_pure _

theorem extends_readContainer (model : Model) : Extends (readContainer model) := by
  refine (extends_read _ _).bind fun start => (extends_readInteger _).bind fun version => ?_
  refine (extends_lift _).bind fun _ => (extends_readInteger _).bind fun originalSize => ?_
  refine (extends_readInteger _).bind fun blockSize => ?_
  exact (extends_readInteger _).bind fun blockCount => extends_readBody _ _ _ _ _

/-- The last check of the reader looks at the stream. -/
theorem settles_readContainer (model : Model) : Settles (readContainer model) := by
  refine Settles.bind fun start => Settles.bind fun version => Settles.bind fun _ => ?_
  refine Settles.bind fun originalSize => Settles.bind fun blockSize => ?_
  refine Settles.bind fun blockCount => ?_
  rw [readBody]
  refine Settles.bind fun _ => Settles.bind fun _ => ?_
  refine Settles.bind fun output => Settles.bind fun tailSize => Settles.bind fun _ => ?_
  refine Settles.bind fun tail => ?_
  intro s a s' hrun
  obtain ⟨bad, s₁, hbad, hrest⟩ := ByteStream.bind_eq_ok.mp hrun
  obtain ⟨u, s₂, hcheck, hreturn⟩ := ByteStream.bind_eq_ok.mp hrest
  obtain ⟨hnot, rfl⟩ := lift_eq_ok.mp hcheck
  rw [throwIf_eq_ok, not_or, Bool.not_eq_true] at hnot
  obtain ⟨rfl, rfl⟩ := Prod.mk.inj (Except.ok.inj hbad)
  obtain ⟨-, rfl⟩ := Prod.mk.inj (Except.ok.inj hreturn)
  exact hnot.1

/-! One record. -/

/-- A compressed block as its record gives it, with the pattern index decoded again. -/
def rereadBlock (model : Model) (encoded : EncodedBlock) (patternIndex : ℕ) : EncodedBlock where
  compressed := true
  originalSize := model.blockSize
  setIndex := encoded.setIndex
  patternIndex := patternIndex
  metadata := encoded.metadata
  dictionary := encoded.dictionary

/-- What the reader makes of the record of a block. -/
def decodeRecord (model : Model) (encoded : EncodedBlock) (block : Block) : Except Error Block :=
  if encoded.compressed then do
    let patternIndex ← decodePatternMetadata (model.setAt encoded.setIndex) encoded.metadata
    decompress (rereadBlock model encoded patternIndex) model
  else .ok block

theorem setIndexForTargetSize_eq (hv : ValidModel model) {index : ℕ}
    (h : model.sets[index]? = some set) :
    setIndexForTargetSize model set.targetSize.val = .ok index := by
  obtain ⟨hlt, rfl⟩ := List.getElem?_eq_some_iff.mp h
  have hfind : model.sets.findIdx? (fun s => s.targetSize.val == model.sets[index].targetSize.val) =
      some index := by
    rw [List.findIdx?_eq_some_iff_getElem]
    refine ⟨hlt, by simp, ?_⟩
    intro j hj heq
    have htarget : (model.sets.map PatternSet.targetSize)[j]? =
        (model.sets.map PatternSet.targetSize)[index]? := by
      rw [List.getElem?_map, List.getElem?_map, h, List.getElem?_eq_getElem (by omega)]
      exact congrArg some (Fin.ext (beq_iff_eq.mp heq))
    have hjlt : j < (model.sets.map PatternSet.targetSize).length := by
      rw [List.length_map]
      omega
    have := (List.getElem?_inj hjlt hv.targets_nodup).mp htarget
    omega
  rw [setIndexForTargetSize, hfind]

theorem setAt_eq {index : ℕ} (h : model.sets[index]? = some set) : model.setAt index = set := by
  rw [Model.setAt, h, Option.getD_some]

theorem decodeRecord_pattern {si j : ℕ} {p : Pattern} {m : SizeT} {dictionary : List Byte}
    (h : model.sets[si]? = some set) :
    decodeRecord model (.ofPattern block set si j p m dictionary) block =
      (do let patternIndex ← decodePatternMetadata set m
          decompress (rereadBlock model (.ofPattern block set si j p m dictionary) patternIndex)
            model) := by
  change (do
    let patternIndex ← decodePatternMetadata (model.setAt si) m
    decompress _ model) = _
  rw [setAt_eq h]

/-- Before the block is decoded, a record is read back but for its pattern index. -/
theorem readRecord_record (hv : ValidModel model) (hsize : model.blockSize.val < 2 ^ 32)
    {index : ℕ} (hset : model.sets[index]? = some set) (metadata : SizeT)
    {dictionary : List Byte} (hd : dictionary.length = set.dictionarySize.val) :
    Yields (readRecord model)
      (writeInteger 4 (toU32 set.targetSize.val) ++ (writeInteger 8 metadata.val ++ dictionary))
      (do let patternIndex ← decodePatternMetadata set metadata
          return {
            compressed := true
            originalSize := model.blockSize
            setIndex := index
            patternIndex := patternIndex
            metadata := metadata
            dictionary := dictionary }) := by
  have htarget := (hv.sets_valid set (List.mem_of_getElem? hset)).target_lt
  have hu32 : toU32 set.targetSize.val = set.targetSize.val := Nat.mod_eq_of_lt (by omega)
  rw [hu32]
  refine (yields_readInteger (by omega)).step ?_
  refine (yields_readInteger metadata.isLt).step ?_
  have hsmall : ¬ metadata.val > sizeMax := by
    have := metadata.isLt
    unfold sizeMax
    omega
  rw [throwIf_neg hsmall, setIndexForTargetSize_eq hv hset]
  refine .lift_ok (.lift_ok ?_)
  rw [setAt_eq hset, Fin.ofNat_val_eq_self]
  refine .lift_bind fun patternIndex _ => ?_
  rw [← hd]
  exact (yields_read 0 dictionary).last (yields_pure _)

theorem readRaw_block (hb : block.length = model.blockSize.val) :
    Yields (readRaw model) block (.ok { originalSize := model.blockSize, raw := block }) := by
  rw [readRaw, ← hb]
  exact (yields_read 0 block).last (yields_pure _)

/-- A block is decoded from what its record gives. -/
theorem readBlock_flag {version : ℕ} {flag : Byte} {t : List Byte} {x : Except Error EncodedBlock}
    (hflag : flag = 0 ∨ flag = 1) (h : Yields (readEncoded model version (flag ≠ 0)) t x) :
    Yields (readBlock model version) (flag :: t)
      (x >>= fun encoded => decompress encoded model) := by
  have hpass : throwIf (flag ≠ 0 ∧ flag ≠ 1)
      (.runtimeError "invalid compressed block flag") = .ok () :=
    throwIf_neg (by tauto)
  have htail : ∀ encoded, Yields (do
      let bad ← failed
      throwIf (bad = true) (.runtimeError "truncated compressed block")
      decompress encoded model : Reader Block) [] (decompress encoded model) :=
    fun encoded => yields_failed.step (.lift_ok (yields_lift _))
  have hbody := h.bind fun encoded _ => htail encoded
  rw [List.append_nil] at hbody
  refine (yields_get flag).step ?_
  dsimp only
  rw [hpass]
  exact .lift_ok hbody

theorem length_ofPattern_dictionary {si j : ℕ} {p : Pattern} {m : SizeT}
    (hvs : ValidSet model.blockSize set) (hp : p ∈ set.patterns.toList) :
    (EncodedBlock.ofPattern block set si j p m (dictionaryOf block p)).dictionary.length =
      set.dictionarySize.val := by
  have hrank := hvs.rank_le p hp
  have hdict := val_dictionarySize hvs.metadata_lt
  simp only [EncodedBlock.ofPattern, List.length_append, List.length_replicate,
    length_dictionaryOf]
  omega

theorem readBlock_record (hv : ValidModel model) (hsize : model.blockSize.val < 2 ^ 32)
    (hb : block.length = model.blockSize.val) (hsel : Selection model block encoded) :
    Yields (readBlock model 2) (writeRecord model block encoded)
      (decodeRecord model encoded block) := by
  cases hsel with
  | raw hnone =>
    let raw : EncodedBlock := { originalSize := model.blockSize, raw := block }
    have hdecode : decompress raw model = .ok block := (decompress_raw_iff rfl).mpr ⟨hb, rfl⟩
    have hread : Yields (readEncoded model 2 ((0 : Byte) ≠ 0)) block (.ok raw) :=
      readRaw_block hb
    have hrecord := readBlock_flag (Or.inl rfl) hread
    rw [ok_bind, hdecode] at hrecord
    exact hrecord
  | @pattern set si j p m hset hleast hp hd hfirst hm =>
    have hlen : (EncodedBlock.ofPattern block set si j p m
        (dictionaryOf block p)).dictionary.length = set.dictionarySize.val :=
      length_ofPattern_dictionary (hv.sets_valid set (List.mem_of_getElem? hset))
        (List.mem_of_getElem? hp)
    have hread : Yields (readEncoded model 2 ((1 : Byte) ≠ 0)) _ _ :=
      readRecord_record hv hsize hset m hlen
    have hrecord := readBlock_flag (Or.inr rfl) hread
    have hwrite : writeRecord model block
        (.ofPattern block set si j p m (dictionaryOf block p)) =
        1 :: (writeInteger 4 (toU32 set.targetSize.val) ++ (writeInteger 8 m.val ++
          (EncodedBlock.ofPattern block set si j p m (dictionaryOf block p)).dictionary)) := by
      simp only [writeRecord, EncodedBlock.ofPattern, if_true, setAt_eq hset, List.cons_append,
        List.append_assoc]
    rw [hwrite, decodeRecord_pattern hset]
    cases hm' : decodePatternMetadata set m with
    | error e =>
      rw [hm'] at hrecord
      exact hrecord
    | ok i =>
      rw [hm'] at hrecord
      exact hrecord

/-- In a set with a tag the tagged identifier fits one 64-bit word. -/
def TagBytesFit (model : Model) : Prop :=
  ∀ set ∈ model.sets, 0 < set.metadataTagBits.val → set.metadataBytes.val ≤ 8

/-- A compressed block that keeps its pattern index decodes to the block. -/
theorem decompress_reread {si j : ℕ} {p : Pattern} {m : SizeT} (hv : ValidModel model)
    (hset : model.sets[si]? = some set) (hp : set.patterns.toList[j]? = some p)
    (hd : p.describes block = true) (hm : encodePatternMetadata set j = .ok m) :
    decompress (rereadBlock model
      (.ofPattern block set si j p m (dictionaryOf block p)) j) model = .ok block := by
  have hvs := hv.sets_valid set (List.mem_of_getElem? hset)
  have hpm := List.mem_of_getElem? hp
  have hlen : (EncodedBlock.ofPattern block set si j p m
      (dictionaryOf block p)).dictionary.length = set.dictionarySize.val :=
    length_ofPattern_dictionary hvs hpm
  exact (decompress_compressed_iff rfl).mpr ⟨set, p, hset, hp, hm, hvs.size_eq p hpm, hlen,
    (select_dictionaryOf hd _).symm⟩

theorem decodeRecord_eq (hv : ValidModel model) (htags : TagBytesFit model)
    (hsel : Selection model block encoded) :
    decodeRecord model encoded block = .ok block := by
  cases hsel with
  | raw hnone => rfl
  | @pattern set si j p m hset hleast hp hd hfirst hm =>
    have hmem := List.mem_of_getElem? hset
    have hvs := hv.sets_valid set hmem
    obtain ⟨hj, -⟩ := List.getElem?_eq_some_iff.mp hp
    have hdecode := (hvs.decode_encoded_iff hj hm).mpr (hvs.tagFits_of_bytes (htags set hmem))
    rw [decodeRecord_pattern hset, hdecode]
    exact decompress_reread hv hset hp hd hm

/-! The whole container. -/

/-- The record the writer makes of a block. -/
def recordOf (model : Model) (block : Block) : List Byte :=
  match compress block model with
  | .ok encoded => writeRecord model block encoded
  | .error _ => []

theorem writeBlocks_eq (hv : ValidModel model) {blocks : List Block} {output : List Byte}
    (hlength : ∀ b ∈ blocks, b.length = model.blockSize.val) :
    writeBlocks model blocks output = (.ok (), output ++ blocks.flatMap (recordOf model)) := by
  induction blocks generalizing output with
  | nil => simp [writeBlocks]
  | cons b blocks ih =>
    obtain ⟨encoded, hc, -⟩ := compress_selection hv (hlength b List.mem_cons_self)
    have hrest := @ih (output ++ writeRecord model b encoded)
      fun c hc => hlength c (List.mem_cons_of_mem b hc)
    rw [writeBlocks, hc]
    dsimp only
    rw [hrest, List.flatMap_cons, recordOf, hc, List.append_assoc]

/-- The block loop reads exactly the records, and the blocks if each record gives its own. -/
theorem readBlocks_records {version : ℕ} {record : Block → List Byte} {fits : Prop}
    {blocks : List Block} (output : List Byte)
    (hrecord : ∀ b ∈ blocks, ∃ x, Yields (readBlock model version) (record b) x ∧
      (fits → x = .ok b)) :
    ∃ x, Yields (readBlocks model version blocks.length output) (blocks.flatMap record) x ∧
      (fits → x = .ok (output ++ blocks.flatten)) := by
  induction blocks generalizing output with
  | nil => exact ⟨_, yields_pure output, fun _ => by simp⟩
  | cons b blocks ih =>
    obtain ⟨x, hx, hb⟩ := hrecord b List.mem_cons_self
    have hrest := fun c hc => hrecord c (List.mem_cons_of_mem b hc)
    choose y hy hfit using fun c => ih (output ++ c) hrest
    rw [List.length_cons, List.flatMap_cons]
    refine ⟨_, hx.bind fun c _ => hy c, ?_⟩
    intro hfits
    rw [hb hfits, ok_bind, hfit b hfits, List.flatten_cons, List.append_assoc]

theorem readBlock_recordOf (hv : ValidModel model) (hsize : model.blockSize.val < 2 ^ 32)
    (hb : block.length = model.blockSize.val) :
    ∃ x, Yields (readBlock model 2) (recordOf model block) x ∧
      (TagBytesFit model → x = .ok block) := by
  obtain ⟨encoded, hc, hsel⟩ := compress_selection hv hb
  have hof : recordOf model block = writeRecord model block encoded := by rw [recordOf, hc]
  rw [hof]
  exact ⟨_, readBlock_record hv hsize hb hsel, fun htags => decodeRecord_eq hv htags hsel⟩

/-- The bytes of a container. -/
def containerOf (model : Model) (bytes : List Byte) : List Byte :=
  containerHeader model bytes ++ ((fullBlocks model.blockSize.val bytes).flatMap (recordOf model) ++
    (writeInteger 4 (toU32 (bytes.length % model.blockSize.val)) ++
      tailBytes model.blockSize.val bytes))

/-- The header of a version, the records of the blocks and the tail. -/
def containerWith (version : ℕ) (record : Block → List Byte) (model : Model)
    (bytes : List Byte) : List Byte :=
  magic ++ writeInteger 4 version ++ writeInteger 8 bytes.length ++
    writeInteger 4 (toU32 model.blockSize.val) ++
    writeInteger 8 (bytes.length / model.blockSize.val) ++
    ((fullBlocks model.blockSize.val bytes).flatMap record ++
      (writeInteger 4 (toU32 (bytes.length % model.blockSize.val)) ++
        tailBytes model.blockSize.val bytes))

theorem containerOf_eq (model : Model) (bytes : List Byte) :
    containerOf model bytes = containerWith 2 (recordOf model) model bytes := rfl

theorem commandCompress_eq (hv : validateModel model = .ok ()) (bytes : Vec Byte) :
    commandCompress model bytes = (.ok (), containerOf model bytes.toList) := by
  have hblocks := @writeBlocks_eq model (validateModel_iff.mp hv)
    (fullBlocks model.blockSize.val bytes.toList) (containerHeader model bytes.toList)
    length_of_mem_fullBlocks
  unfold commandCompress
  rw [hv]
  dsimp only
  rw [hblocks]
  simp only [containerOf, Vec.size, List.append_assoc]

section Versions

variable {version : ℕ} {record : Block → List Byte}

theorem readContainer_header (hversion : version = 1 ∨ version = 2) (bytes : Vec Byte)
    {x : Except Error (List Byte)}
    (hbody : Yields (readBody model bytes.toList.length (toU32 model.blockSize.val)
        (bytes.toList.length / model.blockSize.val) version)
      ((fullBlocks model.blockSize.val bytes.toList).flatMap record ++
        (writeInteger 4 (toU32 (bytes.toList.length % model.blockSize.val)) ++
          tailBytes model.blockSize.val bytes.toList)) x) :
    Yields (readContainer model) (containerWith version record model bytes.toList) x := by
  have hlen := bytes.size_lt
  have hblock : toU32 model.blockSize.val < 2 ^ 32 := Nat.mod_lt _ (by decide)
  have hcount : bytes.toList.length / model.blockSize.val ≤ bytes.toList.length :=
    Nat.div_le_self _ _
  simp only [containerWith, List.append_assoc]
  refine (yields_read 0 magic).step ((yields_readInteger (by omega)).step ?_)
  rw [throwIf_neg (by rintro (hmagic | hother) <;> [exact hmagic rfl; omega])]
  refine .lift_ok ((yields_readInteger (by omega)).step ?_)
  exact (yields_readInteger (by omega)).step ((yields_readInteger (by omega)).step hbody)

/-- The reader takes a container apart completely. -/
theorem readContainer_container {fits : Prop} (hv : ValidModel model)
    (hsize : model.blockSize.val < 2 ^ 32) (hversion : version = 1 ∨ version = 2)
    (hrecord : ∀ b : Block, b.length = model.blockSize.val →
      ∃ x, Yields (readBlock model version) (record b) x ∧ (fits → x = .ok b))
    (bytes : Vec Byte) :
    ∃ x, Yields (readContainer model) (containerWith version record model bytes.toList) x ∧
      (fits → x = .ok bytes.toList) := by
  have hlen := bytes.size_lt
  have htail : bytes.toList.length % model.blockSize.val < model.blockSize.val :=
    Nat.mod_lt _ hv.block_pos
  have htail32 : toU32 (bytes.toList.length % model.blockSize.val) =
      bytes.toList.length % model.blockSize.val := Nat.mod_eq_of_lt (by omega)
  have hblock32 : toU32 model.blockSize.val = model.blockSize.val := Nat.mod_eq_of_lt hsize
  obtain ⟨x, hx, hfit⟩ := @readBlocks_records model version record fits
    (fullBlocks model.blockSize.val bytes.toList) []
    (fun b hb => hrecord b (length_of_mem_fullBlocks b hb))
  rw [length_fullBlocks] at hx
  refine ⟨x >>= fun output => throwIf (false = true ∨ output.length +
    (tailBytes model.blockSize.val bytes.toList).length ≠ bytes.toList.length)
    (.runtimeError "compressed file size metadata is inconsistent") >>= fun _ =>
      .ok (output ++ tailBytes model.blockSize.val bytes.toList),
    readContainer_header hversion bytes ?_, ?_⟩
  · rw [hblock32, htail32, readBody, throwIf_neg (by simp), throwIf_neg (by omega)]
    refine .lift_ok (.lift_ok (hx.bind fun output _ => ?_))
    refine (yields_readInteger (by omega)).step ?_
    rw [throwIf_neg (by omega), ← length_tailBytes]
    refine .lift_ok ((yields_read 0 _).last (yields_failed.step ?_))
    exact .lift_bind fun _ _ => yields_pure _
  · intro hfits
    have hall := flatten_append_tail model.blockSize.val bytes.toList
    have hsum := congrArg List.length hall
    rw [List.length_append] at hsum
    have hpass : ¬ (false = true ∨ (fullBlocks model.blockSize.val bytes.toList).flatten.length +
        (tailBytes model.blockSize.val bytes.toList).length ≠ bytes.toList.length) := by
      rw [hsum]
      simp
    rw [hfit hfits, ok_bind, List.nil_append, throwIf_neg hpass, ok_bind, hall]

end Versions

/-- The header holds 32 bits of the block size; a larger one is refused. -/
theorem readContainer_wide (hsize : 2 ^ 32 ≤ model.blockSize.val)
    (bytes : Vec Byte) :
    Yields (readContainer model) (containerOf model bytes.toList)
      (.error (.runtimeError "compressed file and model block sizes differ")) := by
  have hne : toU32 model.blockSize.val ≠ model.blockSize.val := by
    have hlt : toU32 model.blockSize.val < 2 ^ 32 := Nat.mod_lt _ (by decide)
    omega
  rw [containerOf_eq]
  refine readContainer_header (Or.inr rfl) bytes ?_
  rw [readBody, throwIf, if_pos hne]
  exact yields_error _

/-- Decompressing what compressing wrote gives the input back. -/
theorem container_round_trip {model : Model} {bytes : Vec Byte}
    (hv : validateModel model = .ok ()) (hsize : model.blockSize.val < 2 ^ 32)
    (htags : ∀ set ∈ model.sets, 0 < set.metadataTagBits.val → set.metadataBytes.val ≤ 8) :
    ∃ container, commandCompress model bytes = (.ok (), container) ∧
      commandDecompress model container = (.ok (), bytes.toList) := by
  refine ⟨_, commandCompress_eq hv bytes, ?_⟩
  have hvalid := validateModel_iff.mp hv
  obtain ⟨x, hx, hfit⟩ := readContainer_container hvalid hsize (Or.inr rfl)
    (fun b hb => readBlock_recordOf hvalid hsize hb) bytes
  have hrun := hx []
  rw [hfit htags, List.append_nil, ← containerOf_eq] at hrun
  unfold commandDecompress
  rw [hv]
  dsimp only
  rw [hrun]
  rfl

/-- One block a pattern describes, one raw block and a tail. -/
def exampleBytes : Vec Byte := ⟨[7, 7, 9, 7, 1, 2, 3, 4, 5], by decide⟩

theorem taggedModel_container_round_trip :
    ∃ container, commandCompress taggedModel exampleBytes = (.ok (), container) ∧
      commandDecompress taggedModel container = (.ok (), exampleBytes.toList) :=
  container_round_trip (by decide) (by decide) (by decide)

/-- No proper prefix of a container is decompressed, and nothing is written for one. -/
theorem truncated_container_refused {model : Model} {bytes : Vec Byte} {cut : List Byte}
    (hv : validateModel model = .ok ()) (hcut : cut <+: (commandCompress model bytes).2)
    (hproper : cut ≠ (commandCompress model bytes).2) :
    ∃ e, commandDecompress model cut = (.error e, []) := by
  rw [commandCompress_eq hv] at hcut hproper
  obtain ⟨lost, hlost⟩ := hcut
  dsimp only at hlost hproper
  have hne : lost ≠ [] := by
    rintro rfl
    exact hproper (by rw [← hlost, List.append_nil])
  have hfull : ∀ a s', readContainer model ⟨cut ++ lost, false⟩ = .ok (a, s') → s'.rest = [] := by
    intro a s' hrun
    rw [hlost] at hrun
    rcases Nat.lt_or_ge model.blockSize.val (2 ^ 32) with hsize | hsize
    · have hvalid := validateModel_iff.mp hv
      obtain ⟨x, hx, -⟩ := readContainer_container hvalid hsize (Or.inr rfl)
        (fun b hb => readBlock_recordOf hvalid hsize hb) bytes
      exact hx.rest_eq hrun
    · exact (readContainer_wide hsize bytes).rest_eq hrun
  obtain ⟨e, he⟩ := (extends_readContainer model).truncated (settles_readContainer model) hfull hne
  refine ⟨e, ?_⟩
  unfold commandDecompress
  rw [hv]
  dsimp only
  rw [he]

theorem taggedModel_truncated_container_refused :
    ∃ e, commandDecompress taggedModel
      ((commandCompress taggedModel exampleBytes).2.take 40) = (.error e, []) :=
  truncated_container_refused (by decide) (List.take_prefix _ _) (by decide)

end ByteSelect
