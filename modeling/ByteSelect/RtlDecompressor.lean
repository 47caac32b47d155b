import ByteSelect.RtlCompressor

/-! The generated decompressors: what their modules output for an identifier and a dictionary. -/
namespace ByteSelect

open SystemVerilog PackedBytes Ident

variable {model : Model} {set : PatternSet} {p : Pattern} {s t : Store Ident} {i j : ℕ}

/-! One set. -/

/-- The bytes of the block a pattern spells out of a packed dictionary. -/
def blockOf (set : PatternSet) (p : Pattern) (dictionary : ℕ) : Block :=
  p.symbols.map fun symbol => (unpack dictionary set.dictionarySize.val).getD symbol.val 0

/-- A decompressor whose text fits a string has no position beyond the index arithmetic. -/
theorem size_lt_of_decompressor_text (hp : p ∈ set.patterns.toList)
    (htext : ((decompressorModule model set i).text Ident.text).length < 2 ^ 63) :
    p.size < 2 ^ 61 := by
  obtain ⟨j, hj⟩ := List.getElem?_of_mem hp
  have hmem : (p, j) ∈ set.patterns.toList.zipIdx := List.mem_zipIdx_iff_getElem?.mpr hj
  have harm : ((decompressorArm set (p, j)).2.text Ident.text).length ≤
      ((decompressorModule model set i).text Ident.text).length := by
    have hle := @length_le_forEach _ (fun x => "      " ++
      (decompressorArm set x).1.text Ident.text ++ ":" ++
      (decompressorArm set x).2.text Ident.text) _ _ hmem
    simp only [decompressorModule, Module.text, forEach_cons, forEach_map, Item.text, Stmt.text,
      List.length_append] at hle ⊢
    omega
  have hassign : ∀ y ∈ p.symbols.zipIdx, 8 ≤ (("        " : Text) ++ Assign.text Ident.text
      ⟨.byteAt blockO (bit y.2), .byteAt dictionaryI (bit y.1.val)⟩ ++ "\n").length := by
    intro y _
    have h : (literal "        ").length = 8 := by unfold literal; rfl
    rw [List.length_append, List.length_append, h]
    omega
  have hpositions := length_forEach_ge hassign
  rw [List.length_zipIdx] at hpositions
  simp only [decompressorArm, Arm.text, forEach_map, List.length_append] at harm hpositions
  rw [Pattern.size]
  omega

theorem decompressorArm_body (hlt : p.size < 2 ^ 61) (hrank : p.rank < 2 ^ 61) (j : ℕ) :
    (decompressorArm set (p, j)).2.body =
      copyBytes blockO dictionaryI 0 (p.symbols.map Fin.val) := by
  apply List.ext_getElem (by simp [decompressorArm, copyBytes])
  intro n hn _
  have hsize : n < p.symbols.length := by simpa [decompressorArm] using hn
  have hval := Pattern.val_lt_rank (List.getElem_mem hsize)
  have hn61 : n < 2 ^ 61 := hsize.trans hlt
  simp only [decompressorArm, copyBytes, List.getElem_map, List.getElem_zipIdx, Nat.zero_add,
    bit_eq hn61, bit_eq (hval.trans hrank)]

/-- What the body of an arm leaves. -/
theorem execAll_decompressorArm {width : Ident → ℕ} {dictionary : ℕ} (hs : s dictionaryI =
    pack (unpack dictionary set.dictionarySize.val)) (hzero : s blockO = 0)
    (hlt : p.size < 2 ^ 61) (hrank : p.rank < 2 ^ 61) (hwidth : p.size * 8 ≤ width blockO)
    (j : ℕ) : execAll width s (decompressorArm set (p, j)).2.body =
      Function.update s blockO (pack (blockOf set p dictionary)) := by
  have hempty : s blockO = pack [] := hzero
  have hcopy := @execAll_copyBytes _ s _ width _ _ (by decide) _ _ (p.symbols.map Fin.val) hempty hs
    (by simpa [Pattern.size] using hwidth)
  rw [List.nil_append, List.map_map] at hcopy
  rw [decompressorArm_body hlt hrank]
  exact hcopy

/-- The first two statements reset the block and raise the flag. -/
theorem run_decompressorModule (design : Ident → Option (Module Ident)) (depth : ℕ)
    (inputs : Store Ident) : ∃ s : Store Ident,
      s patternIdI = inputs patternIdI % 2 ^ ((set.metadataBytes * 8 - 1).val + 1) ∧
      s dictionaryI = inputs dictionaryI % 2 ^ ((set.dictionarySize * 8 - 1).val + 1) ∧
      s blockO = 0 ∧ s validO = 1 ∧
      (decompressorModule model set i).run design (depth + 1) inputs =
        execAll (decompressorModule model set i).width s (selectArm s (s patternIdI)
          ⟨.single, [⟨.var validO, .bit false⟩]⟩
          (set.patterns.toList.zipIdx.map (decompressorArm set))).body := by
  refine ⟨_, ?_, ?_, ?_, ?_, rfl⟩
  · rfl
  · rfl
  · rfl
  · rfl

/-- What the two outputs of a decompressor say of an identifier and a dictionary. -/
structure DecompressorResult (set : PatternSet) (id : SizeT) (dictionary block flag : ℕ) :
    Prop where
  refuses : (∀ j, decodePatternMetadata set id ≠ .ok j) → flag = 0
  accepts : ∀ j p, decodePatternMetadata set id = .ok j → set.patterns.toList[j]? = some p →
    flag = 1 ∧ block = pack (blockOf set p dictionary)

theorem ValidSet.idOf_lt {blockSize : SizeT} (h : ValidSet blockSize set) {j : ℕ}
    (hj : j < set.patterns.size) : (idOf set j).val < 2 ^ (set.metadataBytes.val * 8) := by
  by_cases h64 : set.metadataBytes.val * 8 < 64
  · have hfits := h.tagFits_of_bytes fun _ => by omega
    have hdec := (h.decode_encoded_iff hj (encode_idOf h hj)).mpr hfits
    exact ((decodePatternMetadata_iff h.layout).mp hdec).1 h64
  · exact (idOf set j).isLt.trans_le (Nat.pow_le_pow_right (by decide) (by omega))

/-- The labels of the arms are the identifiers the decoder accepts. -/
theorem decompressorArm_label {blockSize : SizeT} (hvs : ValidSet blockSize set)
    (hbytes8 : set.metadataBytes.val ≤ 8) {id : SizeT} (hj : set.patterns.toList[j]? = some p) :
    (decompressorArm set (p, j)).1.eval s = id.val ↔ decodePatternMetadata set id = .ok j := by
  obtain ⟨hlt, -⟩ := List.getElem?_eq_some_iff.mp hj
  have henc := encode_idOf hvs hlt
  have hdec := (hvs.decode_encoded_iff hlt henc).mpr (hvs.tagFits_of_bytes fun _ => hbytes8)
  have hbits : (set.metadataBytes * 8).val = set.metadataBytes.val * 8 :=
    val_metadataBits hvs.layout.bytes_le
  have heval : (decompressorArm set (p, j)).1.eval s = (idOf set j).val := by
    rw [decompressorArm, Expr.eval, hbits, Nat.mod_eq_of_lt (hvs.idOf_lt hlt)]
  rw [heval, Fin.val_inj]
  constructor
  · rintro rfl
    exact hdec
  · intro hd
    have he := hvs.encode_of_decode hd
    rw [henc, Except.ok.injEq] at he
    exact he

theorem decompressorModule_result (hvs : ValidSet model.blockSize set)
    (hbytes : 1 ≤ set.metadataBytes.val) (hbytes8 : set.metadataBytes.val ≤ 8)
    (htarget : set.targetSize.val < 65536)
    (hsizes : set.patterns.toList ≠ [] → model.blockSize.val < 2 ^ 61)
    (design : Ident → Option (Module Ident)) (depth : ℕ) {inputs out : Store Ident} {id : SizeT}
    (hid : inputs patternIdI = id.val) (hfits : id.val < 2 ^ (set.metadataBytes.val * 8))
    (hout : (decompressorModule model set i).run design (depth + 1) inputs = out) :
    DecompressorResult set id (inputs dictionaryI) (out blockO) (out validO) := by
  obtain ⟨s, hids, hdicts, hzero, hflag, hrun⟩ :=
    @run_decompressorModule model set i design depth inputs
  have hlt := hvs.metadata_lt
  have hdict := val_dictionarySize hlt
  have hpos := hvs.target_pos.trans hvs.target_lt
  have hwidthO : (decompressorModule model set i).width blockO =
      (model.blockSize * 8 - 1).val + 1 := rfl
  rw [val_bits (by omega) (by omega), hid, Nat.mod_eq_of_lt hfits] at hids
  rw [val_bits (by omega) (by omega), ← pack_unpack] at hdicts
  rw [hids] at hrun
  have hlabel : ∀ x ∈ set.patterns.toList.zipIdx,
      ((decompressorArm set x).1.eval s = id.val ↔ decodePatternMetadata set id = .ok x.2) :=
    fun x hx => decompressorArm_label hvs hbytes8 (List.mem_zipIdx_iff_getElem?.mp hx)
  rw [← hout, hrun]
  constructor
  · intro hnone
    rw [selectArm_of_none fun x hx he => hnone x.2 ((hlabel x hx).mp he)]
    simp [execAll, Assign.exec, Target.name, Target.write, Expr.eval]
  · intro j p hd hp
    have hmem : (p, j) ∈ set.patterns.toList.zipIdx := List.mem_zipIdx_iff_getElem?.mpr hp
    have hpm := List.mem_of_getElem? hp
    have hsize := hvs.size_eq p hpm
    have hwide := hsizes (List.ne_nil_of_mem hpm)
    have hrank := hvs.rank_le p hpm
    have hunique : ∀ x ∈ set.patterns.toList.zipIdx,
        (decompressorArm set x).1.eval s = id.val → x = (p, j) := by
      intro x hx he
      have hx2 : x.2 = j := Except.ok.inj (((hlabel x hx).mp he).symm.trans hd)
      have hx1 := List.mem_zipIdx_iff_getElem?.mp hx
      rw [hx2, hp] at hx1
      exact Prod.ext (Option.some.inj hx1).symm hx2
    rw [selectArm_of_unique hmem ((hlabel _ hmem).mpr hd) hunique,
      execAll_decompressorArm hdicts hzero (by omega) (by omega)
        (by rw [hwidthO, val_bits hpos hwide, hsize])]
    simp [hflag]

/-! The top module. -/

theorem decompressorItems_owner (x : PatternSet × ℕ) :
    ∀ d ∈ (decompressorItems model x).flatMap Item.declarations, Ident.owner d.1 = some x.2 := by
  simp [decompressorItems, Item.declarations, Ident.owner]

theorem decompressorItems_declarations (hset : model.sets[i]? = some set) :
    (topDecompressorModule model).width (block i) = (model.blockSize * 8 - 1).val + 1 ∧
    (topDecompressorModule model).width (valid i) = 1 := by
  have hports : ∀ port ∈ (topDecompressorModule model).ports, Ident.owner port.name = none := by
    simp [topDecompressorModule, Ident.owner]
  constructor
  · refine width_of_group rfl hset hports decompressorItems_owner rfl ?_
    simp [decompressorItems, Item.declarations, widthOf]
  · refine width_of_group rfl hset hports decompressorItems_owner rfl ?_
    simp [decompressorItems, Item.declarations, widthOf, lookup_cons_ite]

section Items

variable {width : Ident → ℕ} {instances : Ident → Store Ident → Option (Store Ident)}

theorem decompressorItems_frame (x : PatternSet × ℕ) (s : Store Ident) (y : Ident)
    (hy : y.owner ≠ some x.2) :
    (decompressorItems model x).foldl (Item.run width instances) s y = s y := by
  have h₁ : y ≠ block x.2 := by rintro rfl; exact hy rfl
  have h₂ : y ≠ valid x.2 := by rintro rfl; exact hy rfl
  simp only [decompressorItems, List.foldl_cons, List.foldl_nil, Item.run]
  cases instances (decompressor x.2) (connect s (decompressorInputs x)) with
  | none => rfl
  | some out => simp [drive, h₁, h₂]

theorem decompressorItems_run {x : PatternSet × ℕ} {s out : Store Ident}
    (hout : instances (decompressor x.2) (connect s (decompressorInputs x)) = some out) :
    (decompressorItems model x).foldl (Item.run width instances) s =
      drive width out s [(blockO, block x.2), (validO, valid x.2)] := by
  simp only [decompressorItems, List.foldl_cons, List.foldl_nil, Item.run, hout]

end Items

theorem blockOf_mod (set : PatternSet) (p : Pattern) (v : ℕ) :
    blockOf set p (v % 2 ^ (set.dictionarySize.val * 8)) = blockOf set p v := by
  rw [blockOf, unpack_mod]
  rfl

theorem pack_blockOf_mod {n v : ℕ} (h : p.size = n) :
    pack (blockOf set p v) % 2 ^ (n * 8) = pack (blockOf set p v) := by
  have hlt := pack_lt (blockOf set p v)
  have hlen : (blockOf set p v).length = n := by rw [blockOf, List.length_map, ← h, Pattern.size]
  rw [hlen] at hlt
  exact Nat.mod_eq_of_lt hlt

/-- The low bits of the top ports reach the decompressor of set `i`. -/
theorem connect_decompressorInputs (h : HardwareModel model) (hset : model.sets[i]? = some set)
    {inputs t : Store Ident} {id : SizeT} (hid : inputs patternIdI = id.val)
    (hfits : id.val < 2 ^ (set.metadataBytes.val * 8))
    (ht : ∀ x, x.owner = none → t x = (topDecompressorModule model).start inputs x) :
    connect t (decompressorInputs (set, i)) patternIdI = id.val ∧
      connect t (decompressorInputs (set, i)) dictionaryI =
        inputs dictionaryI % 2 ^ (set.dictionarySize.val * 8) := by
  have hmem := List.mem_of_getElem? hset
  have hlt := (h.valid.sets_valid set hmem).metadata_lt
  have hdict := val_dictionarySize hlt
  have hbytes := h.bytes_pos set hmem
  have htarget := h.target_lt set hmem
  obtain ⟨hw₁, hw₂⟩ := h.widths hmem
  constructor
  · have hconnect : connect t (decompressorInputs (set, i)) patternIdI =
        field (t patternIdI) 0 ((set.metadataBytes * 8 - 1).val + 1) := rfl
    have hstart : (topDecompressorModule model).start inputs patternIdI =
        inputs patternIdI % 2 ^ ((maxIdBits model - 1).val + 1) := rfl
    rw [hconnect, ht patternIdI rfl, hstart, hid, field_zero, val_bits hbytes (by omega),
      Nat.mod_eq_of_lt (hfits.trans_le (Nat.pow_le_pow_right (by decide) hw₁)),
      Nat.mod_eq_of_lt hfits]
  · have hconnect : connect t (decompressorInputs (set, i)) dictionaryI =
        field (t dictionaryI) 0 ((set.dictionarySize * 8 - 1).val + 1) := rfl
    have hstart : (topDecompressorModule model).start inputs dictionaryI =
        inputs dictionaryI % 2 ^ ((maxDictionaryBytes model * 8 - 1).val + 1) := rfl
    rw [hconnect, ht dictionaryI rfl, hstart, field_zero,
      @val_bits set.dictionarySize (by omega) (by omega),
      Nat.mod_mod_of_dvd _ (Nat.pow_dvd_pow 2 hw₂)]

/-- The items of set `i`, run from a store that has the identifier and the dictionary. -/
theorem decompressorItems_result (h : HardwareModel model)
    (hbytes8 : ∀ set ∈ model.sets, set.metadataBytes.val ≤ 8)
    (hsizes : ∀ set ∈ model.sets, set.patterns.toList ≠ [] → model.blockSize.val < 2 ^ 61)
    (hset : model.sets[i]? = some set) {inputs : Store Ident} {id : SizeT}
    (hid : inputs patternIdI = id.val) (hfits : id.val < 2 ^ (set.metadataBytes.val * 8))
    {t t' : Store Ident}
    (ht : ∀ x, x.owner = none → t x = (topDecompressorModule model).start inputs x)
    (ht' : (decompressorItems model (set, i)).foldl (Item.run (topDecompressorModule model).width
      (instantiate (design model) (Module.run (design model) 1))) t = t') :
    DecompressorResult set id (inputs dictionaryI) (t' (block i)) (t' (valid i)) := by
  have hmem := List.mem_of_getElem? hset
  have hvs := h.valid.sets_valid set hmem
  obtain ⟨hidIn, hdictIn⟩ := connect_decompressorInputs h hset hid hfits ht
  have hresult := decompressorModule_result (i := i) hvs (h.bytes_pos set hmem)
    (hbytes8 set hmem) (h.target_lt set hmem) (hsizes set hmem) (design model) 0 hidIn hfits rfl
  have hinstance : instantiate (design model) (Module.run (design model) 1) (decompressor i)
      (connect t (decompressorInputs (set, i))) =
      some ((decompressorModule model set i).run (design model) 1
        (connect t (decompressorInputs (set, i)))) := by
    simp [instantiate, design, hset]
  obtain ⟨h₁, h₂⟩ := decompressorItems_declarations hset
  rw [decompressorItems_run (x := (set, i)) hinstance] at ht'
  subst ht'
  constructor
  · intro hnone
    simp [drive, h₂, hresult.refuses hnone]
  · intro j p hd hp
    obtain ⟨hflag, hblock⟩ := hresult.accepts j p hd hp
    have hpm := List.mem_of_getElem? hp
    have hwide := hsizes set hmem (List.ne_nil_of_mem hpm)
    rw [hdictIn, blockOf_mod] at hblock
    rw [val_bits h.valid.block_pos hwide] at h₁
    have hcut := @pack_blockOf_mod set p _ (inputs dictionaryI) (hvs.size_eq p hpm)
    simp [drive, h₁, h₂, hflag, hblock, hcut]

theorem run_topDecompressorModule {inputs s : Store Ident} (depth : ℕ)
    (design : Ident → Option (Module Ident))
    (hs : (model.sets.zipIdx.flatMap (decompressorItems model)).foldl (Item.run
      (topDecompressorModule model).width (instantiate design (Module.run design depth)))
      ((topDecompressorModule model).start inputs) = s) :
    ∃ t : Store Ident, (∀ y i, y.owner = some i → t y = s y) ∧ t targetSizeI = s targetSizeI ∧
      (topDecompressorModule model).run design (depth + 1) inputs =
        execAll (topDecompressorModule model).width t (selectArm t (t targetSizeI)
          ⟨.inline, [⟨.var blockO, .zeros⟩, ⟨.var validO, .bit false⟩]⟩
          (model.sets.zipIdx.map targetArm)).body := by
  have hrun : (topDecompressorModule model).run design (depth + 1) inputs =
      execBody (topDecompressorModule model).width s [
        .assign ⟨.var blockO, .zeros⟩, .assign ⟨.var validO, .bit false⟩,
        .caseOf targetSizeI (model.sets.zipIdx.map targetArm)
          ⟨.inline, [⟨.var blockO, .zeros⟩, ⟨.var validO, .bit false⟩]⟩] := by
    rw [Module.run]
    conv_lhs => rw [topDecompressorModule]
    rw [List.foldl_append, ← hs]
    rfl
  rw [hrun]
  refine ⟨_, ?_, ?_, rfl⟩
  · intro y i hy
    have h₁ : y ≠ blockO := by rintro rfl; cases hy
    have h₂ : y ≠ validO := by rintro rfl; cases hy
    simp [Stmt.exec, Assign.exec, Target.name, h₁, h₂]
  · simp [Stmt.exec, Assign.exec, Target.name]

/-- The encoded block that an identifier and a dictionary stand for. -/
def portBlock (model : Model) (set : PatternSet) (i j : ℕ) (id : SizeT) (dictionary : ℕ) :
    EncodedBlock where
  compressed := true
  originalSize := model.blockSize
  encodedSize := set.targetSize
  allocatedSize := set.targetSize
  setIndex := i
  patternIndex := j
  metadata := id
  dictionary := unpack dictionary set.dictionarySize

theorem decompress_portBlock (hv : ValidModel model) (hset : model.sets[i]? = some set)
    {id : SizeT} (hd : decodePatternMetadata set id = .ok j)
    (hp : set.patterns.toList[j]? = some p) (dictionary : ℕ) :
    decompress (portBlock model set i j id dictionary) model = .ok (blockOf set p dictionary) := by
  have hvs := hv.sets_valid set (List.mem_of_getElem? hset)
  have hsize := hvs.size_eq p (List.mem_of_getElem? hp)
  exact (decompress_compressed_iff rfl).mpr
    ⟨set, p, hset, hp, hvs.encode_of_decode hd, hsize, length_unpack _ _, rfl⟩

/-- The outputs of the top module are the software decoder's answer. -/
structure DecompressorOutputs (model : Model) (target : ℕ) (id : SizeT) (dictionary : ℕ)
    (out : Store Ident) : Prop where
  valid_iff : out validO = 1 ↔ ∃ set ∈ model.sets, set.targetSize.val = target ∧
    ∃ j, decodePatternMetadata set id = .ok j
  block : ∀ set i j, model.sets[i]? = some set → set.targetSize.val = target →
    decodePatternMetadata set id = .ok j →
    ∃ output, decompress (portBlock model set i j id dictionary) model = .ok output ∧
      out blockO = pack output

/-- No other set has the target of a set. -/
theorem ValidModel.target_unique (hv : ValidModel model) (hset : model.sets[i]? = some set)
    {x : PatternSet × ℕ} (hx : model.sets[x.2]? = some x.1)
    (he : x.1.targetSize.val = set.targetSize.val) : x = (set, i) := by
  have hindex : x.2 = i := by
    obtain ⟨hlt, -⟩ := List.getElem?_eq_some_iff.mp hx
    apply (List.getElem?_inj (by simpa using hlt) hv.targets_nodup).mp
    rw [List.getElem?_map, List.getElem?_map, hx, hset, Option.map_some, Option.map_some,
      Fin.ext he]
  rw [hindex, hset] at hx
  exact Prod.ext (Option.some.inj hx).symm hindex

/-- The body of the arm of a set. -/
theorem targetArm_outputs (h : HardwareModel model)
    (hsizes : ∀ set ∈ model.sets, set.patterns.toList ≠ [] → model.blockSize.val < 2 ^ 61)
    (hset : model.sets[i]? = some set) {id : SizeT} {dictionary : ℕ}
    (hresult : DecompressorResult set id dictionary (t (block i)) (t (valid i))) :
    DecompressorOutputs model set.targetSize.val id dictionary
      (execAll (topDecompressorModule model).width t (targetArm (set, i)).2.body) := by
  have hmem := List.mem_of_getElem? hset
  have hbody : execAll (topDecompressorModule model).width t (targetArm (set, i)).2.body =
      Function.update (Function.update t blockO
        (t (block i) % 2 ^ ((model.blockSize * 8 - 1).val + 1))) validO (t (valid i) % 2 ^ 1) := rfl
  rw [hbody]
  constructor
  · rw [Function.update_self]
    constructor
    · intro hvalid
      refine ⟨set, hmem, rfl, ?_⟩
      by_contra hnone
      rw [hresult.refuses fun j hd => hnone ⟨j, hd⟩] at hvalid
      cases hvalid
    · rintro ⟨s, hs, he, j, hd⟩
      obtain ⟨k, hk⟩ := List.getElem?_of_mem hs
      have heq := h.valid.target_unique hset (x := (s, k)) hk he
      cases heq
      obtain ⟨-, hj, -⟩ := (decodePatternMetadata_iff (h.valid.sets_valid set hmem).layout).mp hd
      rw [(hresult.accepts j _ hd (List.getElem?_eq_getElem hj)).1]
      rfl
  · intro s k j hs he hd
    have heq := h.valid.target_unique hset (x := (s, k)) hs he
    cases heq
    have hvs := h.valid.sets_valid set hmem
    obtain ⟨-, hj, -⟩ := (decodePatternMetadata_iff hvs.layout).mp hd
    have hp := List.getElem?_eq_getElem hj
    have hpm := List.mem_of_getElem? hp
    have hwide := hsizes set hmem (List.ne_nil_of_mem hpm)
    refine ⟨_, decompress_portBlock h.valid hset hd hp dictionary, ?_⟩
    rw [Function.update_of_ne (by decide), Function.update_self, val_bits h.valid.block_pos hwide,
      (hresult.accepts j _ hd hp).2, pack_blockOf_mod (hvs.size_eq _ hpm)]

theorem targetArm_label (h : HardwareModel model) {x : PatternSet × ℕ}
    (hx : x ∈ model.sets.zipIdx) : (targetArm x).1.eval t = x.1.targetSize.val := by
  have hset := List.mem_zipIdx_iff_getElem?.mp hx
  exact Nat.mod_eq_of_lt (h.target_lt x.1 (List.mem_of_getElem? hset))

theorem topDecompressorModule_outputs (h : HardwareModel model)
    (hbytes8 : ∀ set ∈ model.sets, set.metadataBytes.val ≤ 8)
    (hsizes : ∀ set ∈ model.sets, set.patterns.toList ≠ [] → model.blockSize.val < 2 ^ 61)
    {inputs : Store Ident} {id : SizeT} (htargetI : inputs targetSizeI < 2 ^ 16)
    (hid : inputs patternIdI = id.val)
    (hfits : ∀ set ∈ model.sets, set.targetSize.val = inputs targetSizeI →
      id.val < 2 ^ (set.metadataBytes.val * 8)) :
    DecompressorOutputs model (inputs targetSizeI) id (inputs dictionaryI)
      ((topDecompressorModule model).run (design model) 2 inputs) := by
  obtain ⟨t, hkeep, htarget, hrun⟩ :=
    @run_topDecompressorModule model inputs _ 1 (design model) rfl
  obtain ⟨hframe, hgroups⟩ := run_groups (nodup_snd_zipIdx model.sets)
    (fun x _ => @decompressorItems_frame model _ _ x)
    ((topDecompressorModule model).start inputs)
  have hstart : (topDecompressorModule model).start inputs targetSizeI =
      inputs targetSizeI % 2 ^ 16 := rfl
  rw [hframe targetSizeI (by simp [Ident.owner]), hstart, Nat.mod_eq_of_lt htargetI] at htarget
  rw [htarget] at hrun
  have hresult : ∀ set i, model.sets[i]? = some set → set.targetSize.val = inputs targetSizeI →
      DecompressorResult set id (inputs dictionaryI) (t (block i)) (t (valid i)) := by
    intro set i hset he
    have hmem := List.mem_of_getElem? hset
    obtain ⟨u, hu, hfinal⟩ := hgroups (set, i) (List.mem_zipIdx_iff_getElem?.mpr hset)
    rw [hkeep _ i rfl, hkeep _ i rfl, hfinal (block i) rfl, hfinal (valid i) rfl]
    exact decompressorItems_result h hbytes8 hsizes hset hid (hfits set hmem he) hu rfl
  rw [hrun]
  by_cases hex : ∃ set ∈ model.sets, set.targetSize.val = inputs targetSizeI
  · obtain ⟨set, hmem, he⟩ := hex
    obtain ⟨i, hset⟩ := List.getElem?_of_mem hmem
    have hmemz : (set, i) ∈ model.sets.zipIdx := List.mem_zipIdx_iff_getElem?.mpr hset
    have hunique : ∀ x ∈ model.sets.zipIdx,
        (targetArm x).1.eval t = inputs targetSizeI → x = (set, i) := by
      intro x hx hvalue
      rw [targetArm_label h hx, ← he] at hvalue
      exact h.valid.target_unique hset (List.mem_zipIdx_iff_getElem?.mp hx) hvalue
    rw [selectArm_of_unique hmemz ((targetArm_label h hmemz).trans he) hunique, ← he]
    exact targetArm_outputs h hsizes hset (hresult set i hset he)
  · have hnone : ∀ x ∈ model.sets.zipIdx, (targetArm x).1.eval t ≠ inputs targetSizeI := by
      intro x hx hvalue
      rw [targetArm_label h hx] at hvalue
      exact hex ⟨x.1, List.fst_mem_of_mem_zipIdx hx, hvalue⟩
    rw [selectArm_of_none hnone]
    constructor
    · constructor
      · intro hvalid
        cases hvalid
      · rintro ⟨set, hmem, he, -⟩
        exact absurd ⟨set, hmem, he⟩ hex
    · intro set i j hset he _
      exact absurd ⟨set, List.mem_of_getElem? hset, he⟩ hex

/-- The generated decompressors accept what the software decoder accepts, and decode it to
the same block. -/
theorem decompressor_hardware_exact {model : Model} {top : Vec Char} {subs : ℕ → Vec Char}
    {inputs : Store Ident} {id : SizeT} (hv : validateModel model = .ok ())
    (hbytes : ∀ set ∈ model.sets, 1 ≤ set.metadataBytes.val ∧ set.metadataBytes.val ≤ 8)
    (htargets : ∀ set ∈ model.sets, set.targetSize.val < 65536)
    (htop : generateTopDecompressorSv model = .ok top)
    (hsubs : ∀ i < model.sets.length, generateDecompressorSv model i = .ok (subs i))
    (htargetI : inputs targetSizeI < 2 ^ 16) (hid : inputs patternIdI = id.val)
    (hfits : ∀ set ∈ model.sets, set.targetSize.val = inputs targetSizeI →
      id.val < 2 ^ (set.metadataBytes.val * 8)) :
    top.toList = (topDecompressorModule model).text Ident.text ∧
    (∀ set i, model.sets[i]? = some set →
      (subs i).toList = (decompressorModule model set i).text Ident.text) ∧
    DecompressorOutputs model (inputs targetSizeI) id (inputs dictionaryI)
      ((topDecompressorModule model).run (design model) 2 inputs) := by
  have hvm := validateModel_iff.mp hv
  have htexts : ∀ set i, model.sets[i]? = some set →
      (subs i).toList = (decompressorModule model set i).text Ident.text ∧
        ((decompressorModule model set i).text Ident.text).length < 2 ^ 63 := by
    intro set i hset
    obtain ⟨hi, -⟩ := List.getElem?_eq_some_iff.mp hset
    have htext := hsubs i hi
    rw [generateDecompressorSv_text hv hset] at htext
    exact makeString_ok htext
  rw [generateTopDecompressorSv_text hv] at htop
  refine ⟨(makeString_ok htop).1, fun set i hset => (htexts set i hset).1, ?_⟩
  refine topDecompressorModule_outputs ⟨hvm, fun set hs => (hbytes set hs).1, htargets⟩
    (fun set hs => (hbytes set hs).2) ?_ htargetI hid hfits
  intro set hmem hne
  obtain ⟨i, hi⟩ := List.getElem?_of_mem hmem
  obtain ⟨p, hp⟩ := List.exists_mem_of_ne_nil _ hne
  have hsize := (hvm.sets_valid set hmem).size_eq p hp
  have hlt := size_lt_of_decompressor_text hp (htexts set i hi).2
  omega

/-- The identifier of the only pattern, tag included, and a dictionary of two bytes. -/
def exampleInputs : Store Ident
  | targetSizeI => 3
  | patternIdI => 128
  | _ => pack [7, 9]

theorem taggedModel_decompressor_hardware_exact : ∃ top sub,
    generateTopDecompressorSv taggedModel = .ok top ∧
    generateDecompressorSv taggedModel 0 = .ok sub ∧
    top.toList = (topDecompressorModule taggedModel).text Ident.text ∧
    (∀ set i, taggedModel.sets[i]? = some set →
      sub.toList = (decompressorModule taggedModel set i).text Ident.text) ∧
    DecompressorOutputs taggedModel 3 128 (pack [7, 9])
      ((topDecompressorModule taggedModel).run (design taggedModel) 2 exampleInputs) := by
  let top : Vec Char := ⟨(topDecompressorModule taggedModel).text Ident.text, by decide +kernel⟩
  let sub : Vec Char :=
    ⟨(decompressorModule taggedModel taggedSet 0).text Ident.text, by decide +kernel⟩
  have htop : generateTopDecompressorSv taggedModel = .ok top :=
    (generateTopDecompressorSv_text (by decide)).trans (dif_pos top.size_lt)
  have hsub : generateDecompressorSv taggedModel 0 = .ok sub :=
    (generateDecompressorSv_text (by decide) rfl).trans (dif_pos sub.size_lt)
  have hsubs : ∀ i < taggedModel.sets.length, generateDecompressorSv taggedModel i = .ok sub := by
    intro i hi
    obtain rfl : i = 0 := Nat.lt_one_iff.mp hi
    exact hsub
  have htarget : exampleInputs targetSizeI < 2 ^ 16 := by decide
  have hfits : ∀ set ∈ taggedModel.sets, set.targetSize.val = exampleInputs targetSizeI →
      (128 : SizeT).val < 2 ^ (set.metadataBytes.val * 8) := by decide
  exact ⟨top, sub, htop, hsub, decompressor_hardware_exact (by decide) (by decide) (by decide)
    htop hsubs htarget rfl hfits⟩

end ByteSelect
