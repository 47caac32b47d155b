import ByteSelect.ContainerExact
import ByteSelect.RtlDecompressor

/-! The hardware as a codec: the top modules linked to each other, and to the software. -/
namespace ByteSelect

open SystemVerilog PackedBytes Ident

variable {model : Model} {set : PatternSet} {block : Block} {encoded : EncodedBlock}
  {inputs : Store Ident} {blockSize metadata : SizeT} {j : ℕ}

/-- Bounds with which the identifiers of the hardware fit the word the software has for them. -/
structure WordModel (model : Model) : Prop extends HardwareModel model where
  bytes_le : ∀ set ∈ model.sets, set.metadataBytes.val ≤ 8

/-- Inputs of the decompressor that carry a block as the software has compressed it. -/
structure Carries (encoded : EncodedBlock) (inputs : Store Ident) : Prop where
  target : inputs targetSizeI = encoded.allocatedSize
  metadata : inputs patternIdI = encoded.metadata.val
  dictionary : inputs dictionaryI = pack encoded.dictionary

/-- The outputs of the compressor as inputs of the decompressor. -/
def link (out : Store Ident) : Store Ident
  | targetSizeI => out targetSizeO
  | patternIdI => out patternIdO
  | dictionaryI => out dictionaryO
  | _ => 0

/-- What the generated compressor outputs. -/
abbrev compressorOutputs (model : Model) (inputs : Store Ident) : Store Ident :=
  (topCompressorModule model).run (design model) 2 inputs

/-- What the generated decompressor outputs. -/
abbrev decompressorOutputs (model : Model) (inputs : Store Ident) : Store Ident :=
  (topDecompressorModule model).run (design model) 2 inputs

/-! Identifiers. -/

theorem ValidSet.decode_of_encode (hvs : ValidSet blockSize set)
    (hbytes : set.metadataBytes.val ≤ 8) (hm : encodePatternMetadata set j = .ok metadata) :
    decodePatternMetadata set metadata = .ok j := by
  obtain ⟨hj, -⟩ := (encodePatternMetadata_iff hvs.layout).mp hm
  exact (hvs.decode_encoded_iff hj hm).mpr (hvs.tagFits_of_bytes fun _ => hbytes)

theorem ValidSet.metadata_lt_of_decode (hvs : ValidSet blockSize set)
    (hd : decodePatternMetadata set metadata = .ok j) :
    metadata.val < 2 ^ (set.metadataBytes.val * 8) := by
  obtain ⟨hfits, -⟩ := (decodePatternMetadata_iff hvs.layout).mp hd
  by_cases hnarrow : set.metadataBytes.val * 8 < 64
  · exact hfits hnarrow
  · exact metadata.isLt.trans_le (Nat.pow_le_pow_right (by decide) (not_lt.mp hnarrow))

/-! From the software to the hardware. -/

/-- The block that a pattern spells out of the dictionary it was given. -/
theorem blockOf_pack {p : Pattern} {si : ℕ} (hvs : ValidSet model.blockSize set)
    (hp : p ∈ set.patterns.toList) (hd : p.describes block = true) :
    blockOf set p (pack (EncodedBlock.ofPattern block set si j p metadata
      (dictionaryOf block p)).dictionary) = block := by
  rw [blockOf, ← length_ofPattern_dictionary hvs hp, unpack_pack]
  exact select_dictionaryOf hd _

/-- The hardware restores what the software has compressed. -/
theorem decompressorOutputs_of_carries (h : WordModel model)
    (hsizes : ∀ set ∈ model.sets, set.patterns.toList ≠ [] → model.blockSize.val < 2 ^ 61)
    (hsel : Selection model block encoded) (hcompressed : encoded.compressed = true)
    (hcarries : Carries encoded inputs) :
    decompressorOutputs model inputs validO = 1 ∧
      decompressorOutputs model inputs blockO = pack block := by
  cases hsel with
  | raw hnone => cases hcompressed
  | @pattern set si j p m hset hleast hp hd hfirst hm =>
    have hmem := List.mem_of_getElem? hset
    have hvs := h.valid.sets_valid set hmem
    have htarget : inputs targetSizeI = set.targetSize.val := hcarries.target
    have hdecode := hvs.decode_of_encode (h.bytes_le set hmem) hm
    have hfits : ∀ other ∈ model.sets, other.targetSize.val = inputs targetSizeI →
        m.val < 2 ^ (other.metadataBytes.val * 8) := by
      intro other hother heq
      obtain ⟨i, hi⟩ := List.getElem?_of_mem hother
      cases h.valid.target_unique hset (x := (other, i)) hi (heq.trans htarget)
      exact hvs.metadata_lt_of_decode hdecode
    have hlt : inputs targetSizeI < 2 ^ 16 := by
      rw [htarget]
      exact h.target_lt set hmem
    have houtputs := topDecompressorModule_outputs h.toHardwareModel h.bytes_le hsizes hlt
      hcarries.metadata hfits
    obtain ⟨output, hdecompress, hout⟩ := houtputs.block set si j hset htarget.symm hdecode
    have hport := decompress_portBlock h.valid hset hdecode hp (inputs dictionaryI)
    obtain rfl := Except.ok.inj (hdecompress.symm.trans hport)
    refine ⟨houtputs.valid_iff.mpr ⟨set, hmem, htarget.symm, j, hdecode⟩, hout.trans ?_⟩
    rw [hcarries.dictionary, blockOf_pack hvs (List.mem_of_getElem? hp) hd]

/-! From the hardware to the software. -/

/-- The outputs for a block that is compressed are the fields of its record. -/
theorem CompressorOutputs.carries {out : Store Ident} (hout : CompressorOutputs model encoded out)
    (h : WordModel model) (hsel : Selection model block encoded)
    (hcompressed : encoded.compressed = true) : Carries encoded (link out) := by
  refine ⟨hout.target hcompressed, ?_, hout.dictionary hcompressed⟩
  obtain ⟨set, hset, hid⟩ := hout.metadata hcompressed
  cases hsel with
  | raw hnone => cases hcompressed
  | @pattern set' si j p m hset' hleast hp hd hfirst hm =>
    obtain rfl := Option.some_inj.mp (hset'.symm.trans hset)
    have hmem := List.mem_of_getElem? hset
    have hvs := h.valid.sets_valid set' hmem
    have hdecode := hvs.decode_of_encode (h.bytes_le set' hmem) hm
    exact hid.trans (Nat.mod_eq_of_lt (hvs.metadata_lt_of_decode hdecode))

/-! A block that is not compressed. -/

/-- The outputs before the first set is tried. -/
def resetOutputs (model : Model) (s : Store Ident) : Store Ident :=
  execBody (topCompressorModule model).width s [.assign ⟨.var successO, .bit false⟩,
    .assign ⟨.var patternIdO, .zeros⟩, .assign ⟨.var dictionaryO, .zeros⟩,
    .assign ⟨.var targetSizeO, .unsized model.blockSize.val⟩]

theorem resetOutputs_outputs (model : Model) (s : Store Ident) :
    resetOutputs model s successO = 0 ∧ resetOutputs model s patternIdO = 0 ∧
      resetOutputs model s dictionaryO = 0 ∧
      resetOutputs model s targetSizeO = model.blockSize.val % 2 ^ 16 := by
  have hwidth : (topCompressorModule model).width targetSizeO = 16 := width_top_targetSizeO
  simp [resetOutputs, execBody, Stmt.exec, Assign.exec, Target.name, Target.write, Expr.eval,
    hwidth]

theorem compressorOutputs_run (model : Model) (inputs : Store Ident) :
    ∃ s, compressorOutputs model inputs = execBody (topCompressorModule model).width
      (resetOutputs model s) ((setOrder model).map selectStmt) := by
  refine ⟨(model.sets.zipIdx.flatMap compressorItems).foldl (Item.run
    (topCompressorModule model).width (instantiate (design model) (Module.run (design model) 1)))
    ((topCompressorModule model).start inputs), ?_⟩
  rw [compressorOutputs, Module.run]
  conv_lhs => rw [topCompressorModule]
  rw [List.foldl_append]
  rfl

/-- Where no set has success, the outputs are those of the reset. -/
theorem compressorOutputs_raw (hfails : compressorOutputs model inputs successO ≠ 1) :
    compressorOutputs model inputs patternIdO = 0 ∧
      compressorOutputs model inputs targetSizeO = model.blockSize.val % 2 ^ 16 := by
  obtain ⟨s, hrun⟩ := compressorOutputs_run model inputs
  obtain ⟨hsuccess, hid, hdict, htarget⟩ := resetOutputs_outputs model s
  rw [hrun] at hfails ⊢
  have hreset : resetOutputs model s successO < 2 ^ (topCompressorModule model).width successO := by
    rw [hsuccess]
    exact Nat.two_pow_pos _
  have hbit := @execBody_lt _ _ _ _ _ ((setOrder model).map selectStmt) hreset
  rw [width_top_successO] at hbit
  have hsame : execBody (topCompressorModule model).width (resetOutputs model s)
      ((setOrder model).map selectStmt) = resetOutputs model s := by
    refine execBody_untaken hsuccess (fun x _ _ => ?_) (?_ : execBody _ _ _ successO = 0)
    · rw [execAll_selectBody x hid hdict, width_top_successO]
      simp
    · exact Nat.lt_one_iff.mp (lt_of_le_of_ne (Nat.lt_succ_iff.mp hbit) hfails)
  rw [hsame]
  exact ⟨hid, htarget⟩

/-- No set has the size of a block for its target, so that the decompressor takes it for no
compressed block. -/
theorem decompressorOutputs_raw (h : WordModel model)
    (hsizes : ∀ set ∈ model.sets, set.patterns.toList ≠ [] → model.blockSize.val < 2 ^ 61)
    (hsmall : model.blockSize.val < 2 ^ 16) (hfails : compressorOutputs model inputs successO ≠ 1) :
    decompressorOutputs model (link (compressorOutputs model inputs)) validO ≠ 1 := by
  obtain ⟨hid, htarget⟩ := compressorOutputs_raw hfails
  rw [Nat.mod_eq_of_lt hsmall] at htarget
  have hnone : ∀ set ∈ model.sets, set.targetSize.val ≠
      link (compressorOutputs model inputs) targetSizeI := by
    intro set hset heq
    have hlt := (h.valid.sets_valid set hset).target_lt
    exact hlt.ne (heq.trans htarget)
  have hlink : link (compressorOutputs model inputs) targetSizeI < 2 ^ 16 := by
    rw [link, htarget]
    exact hsmall
  have houtputs := @topDecompressorModule_outputs model h.toHardwareModel h.bytes_le hsizes
    (link (compressorOutputs model inputs)) 0 hlink hid fun set hset heq =>
      absurd heq (hnone set hset)
  intro hvalid
  obtain ⟨set, hset, heq, -⟩ := houtputs.valid_iff.mp hvalid
  exact hnone set hset heq

/-! The pair. -/

/-- What the linked modules do with a block. -/
structure LinkedExact (model : Model) (block : Block) (encoded : EncodedBlock)
    (out : Store Ident) : Prop where
  success_iff : out successO = 1 ↔ encoded.compressed = true
  carries : encoded.compressed = true → Carries encoded (link out)
  decoded : decodeRecord model encoded block = .ok block
  restores : encoded.compressed = true → ∀ inputs, Carries encoded inputs →
    decompressorOutputs model inputs validO = 1 ∧ decompressorOutputs model inputs blockO = pack block
  refuses : encoded.compressed = false → model.blockSize.val < 2 ^ 16 →
    decompressorOutputs model (link out) validO ≠ 1

theorem linked_exact (h : WordModel model)
    (hsizes : ∀ set ∈ model.sets, set.patterns.toList ≠ [] → model.blockSize.val < 2 ^ 61)
    (hb : block.length = model.blockSize.val) (hin : inputs blockI = pack block) :
    ∃ encoded, compress block model = .ok encoded ∧
      LinkedExact model block encoded (compressorOutputs model inputs) := by
  obtain ⟨encoded, hc, hout⟩ := topCompressorModule_outputs h.toHardwareModel hb hsizes hin
  obtain ⟨encoded', hc', hsel⟩ := compress_selection h.valid hb
  obtain rfl := Except.ok.inj (hc'.symm.trans hc)
  have htags : TagBytesFit model := fun set hset _ => h.bytes_le set hset
  refine ⟨_, hc, hout.success_iff, hout.carries h hsel, decodeRecord_eq h.valid htags hsel,
    fun hcompressed inputs => decompressorOutputs_of_carries h hsizes hsel hcompressed, ?_⟩
  intro hraw hsmall
  refine decompressorOutputs_raw h hsizes hsmall fun hone => ?_
  have hcompressed := hout.success_iff.mp hone
  rw [hraw] at hcompressed
  cases hcompressed

end ByteSelect
