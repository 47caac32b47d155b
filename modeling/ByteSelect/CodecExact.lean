import ByteSelect.Metadata

/-! What `compress` picks, and that `decompress` inverts it. -/
namespace ByteSelect

open SlotTable

variable {model : Model} {block : Block} {set : PatternSet} {blockSize : SizeT} {p : Pattern}

def PatternSet.describes (set : PatternSet) (block : Block) : Bool :=
  set.patterns.toList.any fun p => p.describes block

theorem PatternSet.describes_iff :
    set.describes block = true ↔ ∃ p ∈ set.patterns.toList, p.describes block = true := by
  simp [PatternSet.describes]

/-- The dictionary `makeDictionary` fills for a describing pattern. -/
def dictionaryOf (block : Block) (p : Pattern) : List Byte :=
  (firstWrites (List.replicate p.rank none) (p.entries block)).map fun slot => slot.getD 0

@[simp] theorem length_dictionaryOf : (dictionaryOf block p).length = p.rank := by
  simp [dictionaryOf]

theorem makeDictionary_eq : makeDictionary block p =
    if p.describes block then some (dictionaryOf block p) else none := rfl

/-- Reading the dictionary at the pattern's symbols gives the described block back. -/
theorem select_dictionaryOf (hd : p.describes block = true) (pad : List Byte) :
    (p.symbols.map fun symbol => (dictionaryOf block p ++ pad).getD symbol.val 0) = block := by
  obtain ⟨hs, hk⟩ := Pattern.describes_iff.mp hd
  apply List.ext_getElem?
  intro i
  rw [List.getElem?_map]
  cases hi : p.symbols[i]? with
  | none =>
    have hi' : block[i]? = none := by
      rw [List.getElem?_eq_none_iff] at hi ⊢
      exact hs ▸ hi
    rw [hi', Option.map_none]
  | some symbol =>
    have hlt : i < block.length := hs ▸ (List.getElem?_eq_some_iff.mp hi).1
    have hb : block[i]? = some block[i] := List.getElem?_eq_getElem hlt
    have hmem : (symbol.val, block[i]) ∈ p.entries block := by
      apply List.mem_of_getElem? (i := i)
      rw [Pattern.entries, List.getElem?_zip_eq_some, List.getElem?_map, hi]
      exact ⟨rfl, hb⟩
    have hf : Functional (p.entries block) := (Pattern.functional_entries_iff hs).mpr hk
    have hslot := getElem?_firstWrites_of_mem Pattern.entries_lt_rank hf hmem
    have hr : symbol.val < p.rank := Pattern.val_lt_rank (List.mem_of_getElem? hi)
    have hread : (dictionaryOf block p)[symbol.val]? = some block[i] := by
      rw [dictionaryOf, List.getElem?_map, hslot]
      rfl
    rw [hb, Option.map_some, List.getD_eq_getElem?_getD,
      List.getElem?_append_left (by simpa using hr), hread]
    rfl

/-- The pattern loop stops at the first describing pattern. -/
theorem compressWith_spec (hv : ValidSet blockSize set) (setIndex : ℕ) {k : ℕ}
    {ps : List Pattern} (hps : set.patterns.toList.drop k = ps) :
    (compressWith block set setIndex k ps = .ok none ∧ ∀ p ∈ ps, p.describes block = false) ∨
    ∃ j p metadata, ps[j]? = some p ∧ p.describes block = true ∧
      (∀ i < j, ∀ q, ps[i]? = some q → q.describes block = false) ∧
      encodePatternMetadata set (k + j) = .ok metadata ∧
      compressWith block set setIndex k ps = .ok (some (.ofPattern block set setIndex (k + j) p
        metadata (dictionaryOf block p))) := by
  induction ps generalizing k with
  | nil => exact Or.inl ⟨rfl, by simp⟩
  | cons p ps ih =>
    have hp : p ∈ set.patterns.toList := List.mem_of_mem_drop (hps ▸ List.mem_cons_self)
    have hk : k < set.patterns.size := by
      by_contra hge
      rw [List.drop_eq_nil_iff.mpr (not_lt.mp hge)] at hps
      simp at hps
    have hnext : set.patterns.toList.drop (k + 1) = ps := by
      rw [← List.drop_drop, hps, List.drop_succ_cons, List.drop_zero]
    have hfit : (dictionaryOf block p).length ≤ set.dictionarySize.val := by
      rw [length_dictionaryOf, val_dictionarySize hv.metadata_lt]
      exact hv.rank_le p hp
    rw [compressWith, makeDictionary_eq]
    by_cases hd : p.describes block = true
    · refine Or.inr ⟨0, p, _, rfl, hd, by simp, hv.encode_ok hk, ?_⟩
      simp only [hd, if_true, if_pos hfit]
      rw [hv.encode_ok hk]
      rfl
    · rw [Bool.not_eq_true] at hd
      simp only [hd, Bool.false_eq_true, if_false]
      rcases ih hnext with ⟨hnone, hall⟩ | ⟨j, q, m, hj, hq, hfirst, hm, hres⟩
      · exact Or.inl ⟨hnone, List.forall_mem_cons.mpr ⟨hd, hall⟩⟩
      · have hkj : k + (j + 1) = k + 1 + j := by omega
        refine Or.inr ⟨j + 1, q, m, hj, hq, ?_, hkj ▸ hm, hkj ▸ hres⟩
        intro i hi r hr
        cases i with
        | zero =>
          cases hr
          exact hd
        | succ i => exact hfirst i (by omega) r hr

/-- The set loop stops at the first set, in its order, that has a describing pattern. -/
theorem compressSets_spec {order : List (PatternSet × ℕ)}
    (hv : ∀ x ∈ order, ValidSet blockSize x.1) :
    (compressSets block order = .ok (.ofRaw block) ∧
      ∀ x ∈ order, x.1.describes block = false) ∨
    ∃ before set setIndex after j p metadata, order = before ++ (set, setIndex) :: after ∧
      (∀ x ∈ before, x.1.describes block = false) ∧
      set.patterns.toList[j]? = some p ∧ p.describes block = true ∧
      (∀ i < j, ∀ q, set.patterns.toList[i]? = some q → q.describes block = false) ∧
      encodePatternMetadata set j = .ok metadata ∧
      compressSets block order =
        .ok (.ofPattern block set setIndex j p metadata (dictionaryOf block p)) := by
  induction order with
  | nil => exact Or.inl ⟨rfl, by simp⟩
  | cons x order ih =>
    obtain ⟨set, setIndex⟩ := x
    have hset : ValidSet blockSize set := hv (set, setIndex) (by simp)
    have hlt : ¬ (set.metadataBytes ≥ set.targetSize) :=
      not_le.mpr (Fin.lt_def.mpr hset.metadata_lt)
    rw [compressSets, throwIf_neg hlt, ok_bind]
    rcases compressWith_spec hset setIndex (List.drop_zero (l := set.patterns.toList)) with
      ⟨hnone, hall⟩ | ⟨j, p, m, hj, hp, hfirst, hm, hres⟩
    · rw [hnone, ok_bind]
      have hnot : set.describes block = false := by
        simpa [PatternSet.describes] using hall
      rcases ih fun x hx => hv x (by simp [hx]) with
        ⟨hraw, hrest⟩ | ⟨before, s, si, after, j, p, m, he, hbefore, hj, hp, hfirst, hm, hres⟩
      · exact Or.inl ⟨hraw, List.forall_mem_cons.mpr ⟨hnot, hrest⟩⟩
      · refine Or.inr ⟨(set, setIndex) :: before, s, si, after, j, p, m, ?_, ?_, hj, hp, hfirst,
          hm, hres⟩
        · rw [he, List.cons_append]
        · exact List.forall_mem_cons.mpr ⟨hnot, hbefore⟩
    · rw [Nat.zero_add] at hm hres
      refine Or.inr ⟨[], set, setIndex, order, j, p, m, rfl, by simp, hj, hp, hfirst, hm, ?_⟩
      rw [hres]
      rfl

theorem mem_setOrder {x : PatternSet × ℕ} :
    x ∈ setOrder model ↔ model.sets[x.2]? = some x.1 := by
  rw [setOrder, List.mem_insertionSort, List.mem_zipIdx_iff_getElem?]

theorem setOrder_valid (hv : ValidModel model) :
    ∀ x ∈ setOrder model, ValidSet model.blockSize x.1 :=
  fun _ hx => hv.sets_valid _ (List.mem_of_getElem? (mem_setOrder.mp hx))

theorem setOrder_sorted (model : Model) :
    (setOrder model).Pairwise fun a b => a.1.targetSize ≤ b.1.targetSize := by
  have htotal : Std.Total fun a b : PatternSet × ℕ => a.1.targetSize ≤ b.1.targetSize :=
    ⟨fun a b => le_total _ _⟩
  have htrans : IsTrans (PatternSet × ℕ) fun a b => a.1.targetSize ≤ b.1.targetSize :=
    ⟨fun a b c => le_trans⟩
  exact List.pairwise_insertionSort _ _

/-- Where a block goes: nowhere, or to the first describing pattern of a set with the
smallest target size among those that describe it. -/
inductive Selection (model : Model) (block : Block) : EncodedBlock → Prop
  | raw (hnone : ∀ set ∈ model.sets, set.describes block = false) :
      Selection model block (.ofRaw block)
  | pattern {set : PatternSet} {setIndex j : ℕ} {p : Pattern} {metadata : SizeT}
      (hset : model.sets[setIndex]? = some set)
      (hleast : ∀ s ∈ model.sets, s.describes block = true → set.targetSize ≤ s.targetSize)
      (hp : set.patterns.toList[j]? = some p) (hd : p.describes block = true)
      (hfirst : ∀ i < j, ∀ q, set.patterns.toList[i]? = some q → q.describes block = false)
      (hm : encodePatternMetadata set j = .ok metadata) :
      Selection model block
        (.ofPattern block set setIndex j p metadata (dictionaryOf block p))

/-- One spec for `compress`, cited by every client. -/
theorem compress_selection (hv : ValidModel model) (hb : block.length = model.blockSize.val) :
    ∃ encoded, compress block model = .ok encoded ∧ Selection model block encoded := by
  rw [compress, throwIf_neg (not_not.mpr hb), ok_bind]
  rcases @compressSets_spec block _ _ (setOrder_valid hv) with
    ⟨hraw, hall⟩ | ⟨before, set, si, after, j, p, m, he, hbefore, hj, hp, hfirst, hm, hres⟩
  · refine ⟨_, hraw, .raw ?_⟩
    intro set hset
    obtain ⟨i, hi⟩ := List.getElem?_of_mem hset
    exact hall (set, i) (mem_setOrder.mpr hi)
  · have hmem : (set, si) ∈ setOrder model := he ▸ by simp
    refine ⟨_, hres, .pattern (mem_setOrder.mp hmem) ?_ hj hp hfirst hm⟩
    intro s hs hdesc
    obtain ⟨i, hi⟩ := List.getElem?_of_mem hs
    have hsi : (s, i) ∈ before ++ (set, si) :: after := he ▸ mem_setOrder.mpr hi
    have hsorted := setOrder_sorted model
    rw [he, List.pairwise_append, List.pairwise_cons] at hsorted
    rcases List.mem_append.mp hsi with hin | hin
    · rw [hbefore _ hin] at hdesc
      exact absurd hdesc (by simp)
    · rcases List.mem_cons.mp hin with heq | hin
      · cases heq
        exact le_rfl
      · exact hsorted.2.1.1 _ hin

/-- What the five checks of `decompress` let through, and what it then returns. -/
theorem decompress_compressed_iff {encoded : EncodedBlock} {output : Block}
    (hc : encoded.compressed = true) : decompress encoded model = .ok output ↔
      ∃ set p, model.sets[encoded.setIndex]? = some set ∧
        set.patterns.toList[encoded.patternIndex]? = some p ∧
        encodePatternMetadata set encoded.patternIndex = .ok encoded.metadata ∧
        p.size = encoded.originalSize ∧ encoded.dictionary.length = set.dictionarySize.val ∧
        output = p.symbols.map fun symbol => encoded.dictionary.getD symbol.val 0 := by
  unfold decompress
  rw [if_neg (by simp [hc])]
  cases hset : model.sets[encoded.setIndex]? with
  | none => simp
  | some set =>
    dsimp only
    cases hp : set.patterns.toList[encoded.patternIndex]? with
    | none => simp [hp]
    | some p =>
      simp only [bind_eq_ok, throwIf_eq_ok, not_not, not_or, pure, Except.pure, Except.ok.injEq]
      constructor
      · rintro ⟨m, hm, -, rfl, -, ⟨hs, hd⟩, rfl⟩
        exact ⟨set, p, rfl, hp, hm, hs, hd, rfl⟩
      · rintro ⟨s, q, hs, hq, hm, hsize, hd, rfl⟩
        cases hs
        cases hp.symm.trans hq
        exact ⟨_, hm, (), rfl, (), ⟨hsize, hd⟩, rfl⟩

theorem decompress_raw_iff {encoded : EncodedBlock} {output : Block}
    (hc : encoded.compressed = false) : decompress encoded model = .ok output ↔
      encoded.raw.length = encoded.originalSize ∧ output = encoded.raw := by
  rw [decompress, if_pos hc, check_bind_eq_ok, throwIf_eq_ok, not_not]
  simp [pure, Except.pure, eq_comm]

/-- Whatever is picked decodes to the block. -/
theorem Selection.decompress_eq {encoded : EncodedBlock} (hv : ValidModel model)
    (hb : block.length = model.blockSize.val) (h : Selection model block encoded) :
    decompress encoded model = .ok block := by
  cases h with
  | raw hnone => exact (decompress_raw_iff rfl).mpr ⟨rfl, rfl⟩
  | @pattern set si j p m hset hleast hp hd hfirst hm =>
    have hvs := hv.sets_valid set (List.mem_of_getElem? hset)
    have hpm := List.mem_of_getElem? hp
    have hrank := hvs.rank_le p hpm
    have hdict := val_dictionarySize hvs.metadata_lt
    refine (decompress_compressed_iff rfl).mpr
      ⟨set, p, hset, hp, hm, (hvs.size_eq p hpm).trans hb.symm, ?_, ?_⟩
    · simp only [EncodedBlock.ofPattern, List.length_append, List.length_replicate,
        length_dictionaryOf]
      omega
    · exact (select_dictionaryOf hd _).symm

/-- The result for a block, in terms of the model alone. -/
structure CompressExact (model : Model) (block : Block) (encoded : EncodedBlock) : Prop where
  compressed_iff : encoded.compressed = true ↔ ∃ set ∈ model.sets, set.describes block = true
  target_least : encoded.compressed = true →
    IsLeast {t | ∃ set ∈ model.sets, set.describes block = true ∧ set.targetSize.val = t}
      encoded.allocatedSize
  pattern_least : encoded.compressed = true → ∃ set p, model.sets[encoded.setIndex]? = some set ∧
    set.targetSize.val = encoded.allocatedSize ∧
    IsLeast {i | ∃ q, set.patterns.toList[i]? = some q ∧ q.describes block = true}
      encoded.patternIndex ∧
    set.patterns.toList[encoded.patternIndex]? = some p ∧
    set.metadataBytes.val + p.rank = encoded.encodedSize
  sizes : encoded.compressed = true → encoded.encodedSize ≤ encoded.allocatedSize ∧
    encoded.allocatedSize < model.blockSize.val
  raw_sizes : encoded.compressed = false → encoded.encodedSize = model.blockSize.val ∧
    encoded.allocatedSize = model.blockSize.val

theorem Selection.exact {encoded : EncodedBlock} (hv : ValidModel model)
    (hb : block.length = model.blockSize.val) (h : Selection model block encoded) :
    CompressExact model block encoded := by
  cases h with
  | raw hnone =>
    refine ⟨?_, by simp [EncodedBlock.ofRaw], by simp [EncodedBlock.ofRaw],
      by simp [EncodedBlock.ofRaw], fun _ => ⟨hb, hb⟩⟩
    constructor
    · simp [EncodedBlock.ofRaw]
    · rintro ⟨set, hset, hd⟩
      rw [hnone set hset] at hd
      simp at hd
  | @pattern set si j p m hset hleast hp hd hfirst hm =>
    have hmem := List.mem_of_getElem? hset
    have hvs := hv.sets_valid set hmem
    have hpm := List.mem_of_getElem? hp
    have hdesc : set.describes block = true := PatternSet.describes_iff.mpr ⟨p, hpm, hd⟩
    refine ⟨⟨fun _ => ⟨set, hmem, hdesc⟩, fun _ => rfl⟩, fun _ => ⟨⟨set, hmem, hdesc, rfl⟩, ?_⟩,
      fun _ => ⟨set, p, hset, rfl, ⟨⟨p, hp, hd⟩, ?_⟩, hp, rfl⟩, fun _ => ⟨?_, hvs.target_lt⟩, ?_⟩
    · rintro t ⟨s, hs, hds, rfl⟩
      exact hleast s hs hds
    · rintro i ⟨q, hq, hdq⟩
      by_contra hlt
      rw [hfirst i (not_le.mp hlt) q hq] at hdq
      simp at hdq
    · have hrank := hvs.rank_le p hpm
      have hlt := hvs.metadata_lt
      change set.metadataBytes.val + p.rank ≤ set.targetSize.val
      omega
    · simp [EncodedBlock.ofPattern]

/-- The edits after which a block still finds the patterns it had. -/
inductive ModelEdit : Model → Model → Prop
  | permute {blockSize : SizeT} {sets sets' : List PatternSet} (h : sets.Perm sets') :
      ModelEdit ⟨blockSize, sets⟩ ⟨blockSize, sets'⟩
  | addSet {blockSize : SizeT} {before after : List PatternSet} (set : PatternSet) :
      ModelEdit ⟨blockSize, before ++ after⟩ ⟨blockSize, before ++ set :: after⟩
  | appendPatterns {blockSize : SizeT} {before after : List PatternSet} (set : PatternSet)
      (patterns : Vec Pattern) (h : set.patterns.toList <+: patterns.toList) :
      ModelEdit ⟨blockSize, before ++ set :: after⟩
        ⟨blockSize, before ++ { set with patterns := patterns } :: after⟩

/-- Every set of the first model has a counterpart with its target and its patterns. -/
def Covers (model model' : Model) : Prop :=
  model.blockSize = model'.blockSize ∧ ∀ set ∈ model.sets, ∃ set' ∈ model'.sets,
    set'.targetSize = set.targetSize ∧ set.patterns.toList ⊆ set'.patterns.toList

theorem Covers.refl (model : Model) : Covers model model :=
  ⟨rfl, fun set hs => ⟨set, hs, rfl, fun _ hp => hp⟩⟩

theorem Covers.trans {m₁ m₂ m₃ : Model} (h₁ : Covers m₁ m₂) (h₂ : Covers m₂ m₃) :
    Covers m₁ m₃ := by
  refine ⟨h₁.1.trans h₂.1, ?_⟩
  intro set hs
  obtain ⟨s₂, hs₂, ht₂, hp₂⟩ := h₁.2 set hs
  obtain ⟨s₃, hs₃, ht₃, hp₃⟩ := h₂.2 s₂ hs₂
  exact ⟨s₃, hs₃, ht₃.trans ht₂, fun _ hp => hp₃ (hp₂ hp)⟩

theorem ModelEdit.covers {m m' : Model} (h : ModelEdit m m') : Covers m m' := by
  cases h with
  | permute h =>
    exact ⟨rfl, fun set hs => ⟨set, h.mem_iff.mp hs, rfl, fun _ hp => hp⟩⟩
  | addSet added =>
    refine ⟨rfl, fun set hs => ⟨set, ?_, rfl, fun _ hp => hp⟩⟩
    rcases List.mem_append.mp hs with h | h <;> simp [h]
  | appendPatterns grown patterns hpre =>
    refine ⟨rfl, ?_⟩
    intro set hs
    rcases List.mem_append.mp hs with h | h
    · exact ⟨set, by simp [h], rfl, fun _ hp => hp⟩
    · rcases List.mem_cons.mp h with rfl | h
      · exact ⟨{ set with patterns := patterns }, by simp, rfl, hpre.subset⟩
      · exact ⟨set, by simp [h], rfl, fun _ hp => hp⟩

theorem covers_of_edits {m m' : Model} (h : Relation.ReflTransGen ModelEdit m m') :
    Covers m m' := by
  induction h with
  | refl => exact Covers.refl m
  | tail _ hstep ih => exact ih.trans hstep.covers

/-- A model that covers another never needs more bytes for a block. -/
theorem allocated_le_of_covers {m m' : Model} {e e' : EncodedBlock}
    (hc : Covers m m') (h : CompressExact m block e) (h' : CompressExact m' block e') :
    e'.allocatedSize ≤ e.allocatedSize := by
  cases he : e.compressed with
  | false =>
    have hraw := (h.raw_sizes he).2
    rw [hraw, hc.1]
    cases he' : e'.compressed with
    | false => exact (h'.raw_sizes he').2.le
    | true => exact (h'.sizes he').2.le
  | true =>
    obtain ⟨set, hs, hd, ht⟩ := (h.target_least he).1
    obtain ⟨set', hs', ht', hsub⟩ := hc.2 set hs
    obtain ⟨p, hp, hdp⟩ := PatternSet.describes_iff.mp hd
    have hd' : set'.describes block = true := PatternSet.describes_iff.mpr ⟨p, hsub hp, hdp⟩
    have hcomp : e'.compressed = true := h'.compressed_iff.mpr ⟨set', hs', hd'⟩
    rw [← ht, ← ht']
    exact (h'.target_least hcomp).2 ⟨set', hs', hd', rfl⟩

theorem compress_lossless_exact {model : Model} {block : Block}
    (hv : validateModel model = .ok ()) (hb : block.length = model.blockSize.val) :
    ∃ encoded, compress block model = .ok encoded ∧ decompress encoded model = .ok block ∧
      CompressExact model block encoded ∧
      ∀ model', Relation.ReflTransGen ModelEdit model model' → validateModel model' = .ok () →
        ∃ encoded', compress block model' = .ok encoded' ∧
          encoded'.allocatedSize ≤ encoded.allocatedSize := by
  have hvm := validateModel_iff.mp hv
  obtain ⟨e, hc, hsel⟩ := compress_selection hvm hb
  refine ⟨e, hc, hsel.decompress_eq hvm hb, hsel.exact hvm hb, ?_⟩
  intro model' hedits hv'
  have hvm' := validateModel_iff.mp hv'
  have hcov := covers_of_edits hedits
  have hb' : block.length = model'.blockSize.val := hcov.1 ▸ hb
  obtain ⟨e', hc', hsel'⟩ := compress_selection hvm' hb'
  exact ⟨e', hc', allocated_le_of_covers hcov (hsel.exact hvm hb) (hsel'.exact hvm' hb')⟩

theorem taggedModel_compress_lossless_exact :
    ∃ encoded, compress [7, 7, 9, 7] taggedModel = .ok encoded ∧
      decompress encoded taggedModel = .ok [7, 7, 9, 7] ∧
      CompressExact taggedModel [7, 7, 9, 7] encoded ∧
      ∀ model', Relation.ReflTransGen ModelEdit taggedModel model' →
        validateModel model' = .ok () → ∃ encoded', compress [7, 7, 9, 7] model' = .ok encoded' ∧
          encoded'.allocatedSize ≤ encoded.allocatedSize :=
  compress_lossless_exact (by decide) (by decide)

end ByteSelect
