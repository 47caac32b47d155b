import ByteSelect.CodecExact
import ByteSelect.Guarded

/-! The decoder with every index and every shift checked, and compression of what it returns. -/
namespace ByteSelect.Checked

open Guarded

abbrev Run := Guarded.Run Error

def valueFitsBits (value bits : ℕ) : Run Bool :=
  if bits ≥ sizeDigits then return true
  else do
    let bound ← shift 64 bits (1 <<< bits)
    return decide (value < bound)

def validateMetadataLayout (set : PatternSet) : Run Unit := do
  lift (throwIf (set.metadataBytes.val > sizeMax / 8)
    (.invalidArgument "metadata width is too large"))
  lift (throwIf (set.metadataTagBits > set.metadataBits ∨ set.metadataTagBits.val > sizeDigits)
    (.invalidArgument "metadata tag layout is invalid"))
  let fits ← valueFitsBits set.metadataTagValue set.metadataTagBits
  lift (throwIf ((set.metadataTagBits ≠ 0 ∧ set.patternIdBits.val ≥ sizeDigits) ∨ ¬ fits)
    (.invalidArgument "metadata tag layout is invalid"))

def encodePatternMetadata (set : PatternSet) (patternIndex : ℕ) : Run SizeT := do
  validateMetadataLayout set
  lift (throwIf (patternIndex ≥ set.patterns.size)
    (.invalidArgument "pattern index is not present in the pattern set"))
  let fits ← valueFitsBits patternIndex set.patternIdBits
  lift (throwIf (¬ fits) (.invalidArgument "pattern index exceeds metadata capacity"))
  if set.metadataTagBits = 0 then
    return Fin.ofNat _ patternIndex
  else
    shift 64 set.patternIdBits
      ((set.metadataTagValue <<< set.patternIdBits) ||| Fin.ofNat _ patternIndex)

/-- One turn of the loop of `decompress`. -/
def decodeByte (dictionary : List Byte) (pattern : Pattern) (output : Block) (i : ℕ) :
    Run Block := do
  let symbol ← index pattern.symbols i
  let byte ← index dictionary symbol.val
  demand (i < output.length) (output.set i byte)

/-- What `decompress` does with the set of an encoded block. -/
def decompressWith (encoded : EncodedBlock) (set : PatternSet) : Run Block := do
  lift (throwIf (encoded.patternIndex ≥ set.patterns.size)
    (.invalidArgument "encoded pattern index is out of range"))
  let metadata ← encodePatternMetadata set encoded.patternIndex
  lift (throwIf (encoded.metadata ≠ metadata)
    (.invalidArgument "encoded metadata is inconsistent with pattern index"))
  let pattern ← index set.patterns.toList encoded.patternIndex
  lift (throwIf (pattern.size ≠ encoded.originalSize ∨
      encoded.dictionary.length ≠ set.dictionarySize)
    (.invalidArgument "encoded dictionary is inconsistent with pattern"))
  (List.range pattern.size).foldlM (decodeByte encoded.dictionary pattern)
    (List.replicate pattern.size 0)

def decompress (encoded : EncodedBlock) (model : Model) : Run Block :=
  if encoded.compressed = false then do
    lift (throwIf (encoded.raw.length ≠ encoded.originalSize)
      (.invalidArgument "invalid raw encoded block"))
    return encoded.raw
  else do
    lift (throwIf (encoded.setIndex ≥ model.sets.length)
      (.invalidArgument "encoded set index is out of range"))
    let set ← index model.sets encoded.setIndex
    decompressWith encoded set

variable {model : Model} {block output : Block} {set : PatternSet} {blockSize : SizeT}
  {encoded : EncodedBlock} {p : Pattern}

/-! The checked functions are the plain ones where no check fails. -/

/-- The width test keeps its own shift in range. -/
theorem valueFitsBits_eq (value bits : ℕ) :
    valueFitsBits value bits = .ok (ByteSelect.valueFitsBits value bits) := by
  unfold valueFitsBits ByteSelect.valueFitsBits
  split
  · rfl
  · rename_i hbits
    have hlt : bits < 64 := not_le.mp hbits
    rw [shift, demand, if_pos hlt]
    rfl

theorem checks_validateMetadataLayout (set : PatternSet) :
    Checks (ByteSelect.validateMetadataLayout set) (validateMetadataLayout set) := by
  unfold validateMetadataLayout
  rw [valueFitsBits_eq]
  exact .bind .same fun _ => .bind .same fun _ => .same

theorem checks_encodePatternMetadata (set : PatternSet) (patternIndex : ℕ) :
    Checks (ByteSelect.encodePatternMetadata set patternIndex)
      (encodePatternMetadata set patternIndex) := by
  unfold encodePatternMetadata
  rw [valueFitsBits_eq]
  refine (checks_validateMetadataLayout set).bind fun _ => .bind .same fun _ =>
    .bind .same fun _ => ?_
  split
  · exact .same
  · exact checks_shift _ _ _

theorem checks_decodeByte (dictionary : List Byte) (p : Pattern) (output : Block) (i : ℕ) :
    Checks (.ok (output.set i (dictionary.getD (p.symbols.getD i 0).val 0)))
      (decodeByte dictionary p output i) :=
  (checks_index p.symbols i 0).after <| (checks_index dictionary _ 0).after (checks_demand _)

/-- Writing the entries one after the other. -/
theorem foldl_set_eq_map {α β : Type} (f : α → β) (l : List α) (a : α) (b : β) :
    (List.range l.length).foldl (fun out i => out.set i (f (l.getD i a)))
      (List.replicate l.length b) = l.map f := by
  have hturns : ∀ n ≤ l.length, (List.range n).foldl (fun out i => out.set i (f (l.getD i a)))
      (List.replicate l.length b) = (l.take n).map f ++ List.replicate (l.length - n) b := by
    intro n
    induction n with
    | zero => simp
    | succ n ih =>
      intro hn
      have hlen : ((l.take n).map f).length = n := by simp; omega
      have hrest : l.length - n = l.length - (n + 1) + 1 := by omega
      rw [List.range_succ, List.foldl_append, ih (by omega), List.foldl_cons, List.foldl_nil,
        List.set_append_right _ _ hlen.le, hlen, Nat.sub_self, hrest, List.replicate_succ,
        List.set_cons_zero, List.getD_eq_getElem _ _ hn, List.take_succ_eq_append_getElem hn,
        List.map_append, List.append_assoc]
      rfl
  have hall := hturns l.length le_rfl
  rwa [List.take_length, Nat.sub_self, List.replicate_zero, List.append_nil] at hall

/-- The loop over the output writes what the plain decoder maps. -/
theorem checks_decodeBytes (dictionary : List Byte) (p : Pattern) :
    Checks (.ok (p.symbols.map fun symbol => dictionary.getD symbol.val 0))
      ((List.range p.size).foldlM (decodeByte dictionary p) (List.replicate p.size 0)) := by
  have hwrites := foldl_set_eq_map (fun symbol : Symbol => dictionary.getD symbol.val 0)
    p.symbols 0 0
  rw [← hwrites]
  exact checks_foldl (List.range p.size) _ fun output i => checks_decodeByte dictionary p output i

theorem checks_decompress (encoded : EncodedBlock) (model : Model) :
    Checks (ByteSelect.decompress encoded model) (decompress encoded model) := by
  unfold decompress ByteSelect.decompress
  split
  · exact .bind .same fun _ => .same
  · cases hset : model.sets[encoded.setIndex]? with
    | none =>
      rw [throwIf, if_pos (List.getElem?_eq_none_iff.mp hset)]
      exact .same
    | some set =>
      have hlt := (List.getElem?_eq_some_iff.mp hset).1
      rw [throwIf_neg (not_le.mpr hlt), index, hset]
      dsimp only
      change Checks _ (decompressWith encoded set)
      unfold decompressWith
      cases hp : set.patterns.toList[encoded.patternIndex]? with
      | none =>
        have hge : encoded.patternIndex ≥ set.patterns.size := List.getElem?_eq_none_iff.mp hp
        rw [throwIf, if_pos hge]
        exact .same
      | some p =>
        have hplt : encoded.patternIndex < set.patterns.size :=
          (List.getElem?_eq_some_iff.mp hp).1
        rw [throwIf_neg (not_le.mpr hplt), index, hp]
        exact (checks_encodePatternMetadata set encoded.patternIndex).bind fun metadata =>
          .bind .same fun _ => .bind .same fun _ => checks_decodeBytes encoded.dictionary p

/-! On a valid model no check fails. -/

theorem safe_throwIf {c : Prop} [Decidable c] {e : Error} :
    Safe (fun _ => ¬ c) (lift (throwIf c e)) :=
  safe_lift fun _ => throwIf_eq_ok.mp

theorem safe_validateMetadataLayout (set : PatternSet) :
    Safe (fun _ => TagLayout set) (validateMetadataLayout set) := by
  unfold validateMetadataLayout
  rw [valueFitsBits_eq]
  refine safe_throwIf.bind fun _ hbytes => safe_throwIf.bind fun _ htag =>
    safe_throwIf.mono fun _ hid => tagLayout_iff.mpr ?_
  rw [not_or] at htag hid
  exact ⟨hbytes, htag.1, htag.2, hid.1, not_not.mp hid.2⟩

/-- The tag is only shifted when the layout leaves less than a word below it. -/
theorem safe_encodePatternMetadata (set : PatternSet) (patternIndex : ℕ) :
    Safe (fun _ => True) (encodePatternMetadata set patternIndex) := by
  unfold encodePatternMetadata
  rw [valueFitsBits_eq]
  refine (safe_validateMetadataLayout set).bind fun _ hlayout => safe_throwIf.bind fun _ _ =>
    safe_throwIf.bind fun _ _ => ?_
  split
  · exact .returns trivial
  · rename_i htag
    have hid : set.patternIdBits.val < 64 := hlayout.val_patternIdBits ▸ hlayout.id_lt htag
    exact (safe_shift hid).mono fun _ _ => trivial

theorem safe_decodeByte {dictionary : List Byte} {i : ℕ} (hrank : p.rank ≤ dictionary.length)
    (hi : i < p.size) (hout : output.length = p.size) :
    Safe (fun out => out.length = p.size) (decodeByte dictionary p output i) := by
  refine (safe_index hi).bind fun symbol hsymbol => ?_
  have hlt := Pattern.val_lt_rank (List.mem_of_getElem? hsymbol)
  refine (safe_index (hlt.trans_le hrank)).bind fun byte _ => safe_demand (by omega) ?_
  rw [List.length_set, hout]

theorem safe_decompressWith (hv : ValidSet blockSize set) (encoded : EncodedBlock) :
    Safe (fun out => out.length = encoded.originalSize) (decompressWith encoded set) := by
  refine safe_throwIf.bind fun _ hindex =>
    (safe_encodePatternMetadata set encoded.patternIndex).bind fun metadata _ =>
    safe_throwIf.bind fun _ _ => (safe_index (not_le.mp hindex)).bind fun p hp =>
    safe_throwIf.bind fun _ hsizes => ?_
  obtain ⟨hsize, hdictionary⟩ := not_or.mp hsizes
  have hrank := hv.rank_le p (List.mem_of_getElem? hp)
  rw [← val_dictionarySize hv.metadata_lt, ← not_not.mp hdictionary] at hrank
  rw [← not_not.mp hsize]
  exact safe_foldlM_range (fun _ (out : Block) => out.length = p.size) List.length_replicate
    fun i out hi hout => safe_decodeByte hrank hi hout

theorem safe_decompress (hv : ValidModel model) (encoded : EncodedBlock) :
    Safe (fun out => out.length = encoded.originalSize) (decompress encoded model) := by
  unfold decompress
  split
  · exact safe_throwIf.bind fun _ hraw => .returns (not_not.mp hraw)
  · refine safe_throwIf.bind fun _ hindex => (safe_index (not_le.mp hindex)).bind fun set hset => ?_
    exact safe_decompressWith (hv.sets_valid set (List.mem_of_getElem? hset)) encoded

/-! Whatever is decoded is described by its pattern. -/

/-- Bytes chosen by the symbols, whichever they are, have the pattern. -/
theorem describes_select (p : Pattern) (choose : Symbol → Byte) :
    p.describes (p.symbols.map choose) = true :=
  Pattern.describes_iff.mpr ⟨(List.length_map choose).symm, ListKernel.kernel_le_map choose _⟩

/-- Compressing a decoded block finds the set it came from, or a smaller one. -/
theorem compress_decompressed (hv : ValidModel model) (hc : encoded.compressed = true)
    (h : ByteSelect.decompress encoded model = .ok output) :
    ∃ set encoded', model.sets[encoded.setIndex]? = some set ∧
      compress output model = .ok encoded' ∧ encoded'.compressed = true ∧
      encoded'.allocatedSize ≤ set.targetSize.val ∧
      (encoded'.setIndex = encoded.setIndex → encoded'.patternIndex ≤ encoded.patternIndex) := by
  obtain ⟨set, p, hset, hp, -, hsize, -, rfl⟩ := (decompress_compressed_iff hc).mp h
  have hmem := List.mem_of_getElem? hset
  have hpmem := List.mem_of_getElem? hp
  have hd := describes_select p fun symbol => encoded.dictionary.getD symbol.val 0
  have hdset : set.describes (p.symbols.map fun symbol => encoded.dictionary.getD symbol.val 0) =
      true := PatternSet.describes_iff.mpr ⟨p, hpmem, hd⟩
  have hlength : (p.symbols.map fun symbol => encoded.dictionary.getD symbol.val 0).length =
      model.blockSize.val := (List.length_map _).trans ((hv.sets_valid set hmem).size_eq p hpmem)
  obtain ⟨encoded', hrun, hsel⟩ := compress_selection hv hlength
  refine ⟨set, encoded', hset, hrun, ?_⟩
  cases hsel with
  | raw hnone =>
    rw [hnone set hmem] at hdset
    cases hdset
  | @pattern set' setIndex j q metadata hset' hleast hq hdq hfirst hm =>
    refine ⟨rfl, hleast set hmem hdset, fun hsame => ?_⟩
    obtain rfl : setIndex = encoded.setIndex := hsame
    obtain rfl : set = set' := Option.some.inj (hset.symm.trans hset')
    by_contra hlater
    have hnot := hfirst encoded.patternIndex (not_le.mp hlater) p hp
    rw [hd] at hnot
    cases hnot

/-- On every encoded block `decompress` throws or returns the declared number of bytes, with every
index and every shift in range, and compressing what it returns is no worse. -/
theorem decompress_safe_stable (hv : validateModel model = .ok ()) (encoded : EncodedBlock) :
    decompress encoded model = lift (ByteSelect.decompress encoded model) ∧
    ((∃ e, decompress encoded model = .error (.thrown e)) ∨
      ∃ output, decompress encoded model = .ok output ∧
        output.length = encoded.originalSize) ∧
    (encoded.compressed = true → ∀ output, ByteSelect.decompress encoded model = .ok output →
      ∃ set encoded', model.sets[encoded.setIndex]? = some set ∧
        compress output model = .ok encoded' ∧ encoded'.compressed = true ∧
        encoded'.allocatedSize ≤ set.targetSize.val ∧
        (encoded'.setIndex = encoded.setIndex →
          encoded'.patternIndex ≤ encoded.patternIndex)) := by
  have hvalid := validateModel_iff.mp hv
  have hsafe := safe_decompress hvalid encoded
  refine ⟨(checks_decompress encoded model).eq_lift hsafe, safe_iff.mp hsafe, ?_⟩
  exact fun hc output h => compress_decompressed hvalid hc h

/-- Both bytes of the dictionary are the same, and the sizes are not those of the set. -/
def repeatedBlock : EncodedBlock where
  compressed := true
  originalSize := 4
  metadata := 128
  dictionary := [9, 9]

theorem repeatedBlock_decompress_safe_stable :
    ∃ set encoded', taggedModel.sets[repeatedBlock.setIndex]? = some set ∧
      compress [9, 9, 9, 9] taggedModel = .ok encoded' ∧ encoded'.compressed = true ∧
      encoded'.allocatedSize ≤ set.targetSize.val ∧
      (encoded'.setIndex = repeatedBlock.setIndex →
        encoded'.patternIndex ≤ repeatedBlock.patternIndex) :=
  (decompress_safe_stable (show validateModel taggedModel = .ok () by decide) repeatedBlock).2.2
    rfl _ (by decide)

end ByteSelect.Checked
