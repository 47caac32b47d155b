import ByteSelect.Codec
import ByteSelect.PatternOrder

/-! What an accepted model satisfies, in natural-number arithmetic without wrap-around. -/
namespace ByteSelect

/-- The tag layout checks, shared by the model validator and the metadata field functions. -/
structure TagLayout (set : PatternSet) : Prop where
  bytes_le : set.metadataBytes.val ≤ sizeMax / 8
  tag_le : set.metadataTagBits.val ≤ set.metadataBytes.val * 8
  tag_le_digits : set.metadataTagBits.val ≤ 64
  id_lt : set.metadataTagBits ≠ 0 → set.metadataBytes.val * 8 - set.metadataTagBits.val < 64
  value_fits : set.metadataTagBits.val < 64 →
    set.metadataTagValue.val < 2 ^ set.metadataTagBits.val

structure ValidSet (blockSize : SizeT) (set : PatternSet) : Prop where
  target_pos : 0 < set.targetSize.val
  metadata_lt : set.metadataBytes.val < set.targetSize.val
  target_lt : set.targetSize.val < blockSize.val
  layout : TagLayout set
  count_fits : set.metadataBytes.val * 8 - set.metadataTagBits.val < 64 →
    set.patterns.size ≤ 2 ^ (set.metadataBytes.val * 8 - set.metadataTagBits.val)
  size_eq : ∀ p ∈ set.patterns.toList, p.size = blockSize.val
  rank_le : ∀ p ∈ set.patterns.toList, p.rank ≤ set.targetSize.val - set.metadataBytes.val

structure ValidModel (model : Model) : Prop where
  block_pos : 0 < model.blockSize.val
  sets_ne : model.sets ≠ []
  sets_valid : ∀ set ∈ model.sets, ValidSet model.blockSize set
  targets_nodup : (model.sets.map PatternSet.targetSize).Nodup

section Widths

variable {set : PatternSet}

theorem val_metadataBits (h : set.metadataBytes.val ≤ sizeMax / 8) :
    set.metadataBits.val = set.metadataBytes.val * 8 := by
  have h8 : ((8 : SizeT) : ℕ) = 8 := rfl
  rw [PatternSet.metadataBits, Fin.val_mul, h8, Nat.mod_eq_of_lt]
  simp only [sizeMax] at h
  omega

theorem TagLayout.val_patternIdBits (h : TagLayout set) :
    set.patternIdBits.val = set.metadataBytes.val * 8 - set.metadataTagBits.val := by
  have hb := val_metadataBits h.bytes_le
  have ht := h.tag_le
  rw [PatternSet.patternIdBits, Fin.sub_val_of_le (by rw [Fin.le_def]; omega), hb]

theorem val_dictionarySize (h : set.metadataBytes.val < set.targetSize.val) :
    set.dictionarySize.val = set.targetSize.val - set.metadataBytes.val :=
  Fin.sub_val_of_le (by rw [Fin.le_def]; omega)

theorem valueFitsBits_iff {value bits : ℕ} :
    valueFitsBits value bits = true ↔ (bits < 64 → value < 2 ^ bits) := by
  unfold valueFitsBits sizeDigits
  split <;> simp [Nat.shiftLeft_eq] <;> omega

theorem countFitsBits_iff {count bits : ℕ} :
    countFitsBits count bits = true ↔ (bits < 64 → count ≤ 2 ^ bits) := by
  unfold countFitsBits sizeDigits
  split <;> simp [Nat.shiftLeft_eq] <;> omega

/-- The five checks of the tag layout, as both validators combine them. -/
theorem tagLayout_iff : TagLayout set ↔
    ¬ (set.metadataBytes.val > sizeMax / 8) ∧ ¬ (set.metadataTagBits > set.metadataBits) ∧
      ¬ (set.metadataTagBits.val > sizeDigits) ∧
      ¬ (set.metadataTagBits ≠ 0 ∧ set.patternIdBits.val ≥ sizeDigits) ∧
      valueFitsBits set.metadataTagValue set.metadataTagBits = true := by
  constructor
  · intro h
    have hb := val_metadataBits h.bytes_le
    refine ⟨Nat.not_lt.mpr h.bytes_le, ?_, Nat.not_lt.mpr h.tag_le_digits, ?_, ?_⟩
    · have := h.tag_le
      rw [gt_iff_lt, Fin.lt_def]
      omega
    · rintro ⟨ht, hid⟩
      have := h.id_lt ht
      rw [h.val_patternIdBits, sizeDigits] at hid
      omega
    · exact valueFitsBits_iff.mpr h.value_fits
  · rintro ⟨hb, ht, hd, hid, hv⟩
    have hbits := val_metadataBits (Nat.not_lt.mp hb)
    have hle : set.metadataTagBits.val ≤ set.metadataBytes.val * 8 := by
      rw [gt_iff_lt, Fin.lt_def] at ht
      omega
    refine ⟨Nat.not_lt.mp hb, hle, Nat.not_lt.mp hd, ?_, valueFitsBits_iff.mp hv⟩
    intro hne
    have hidv : set.patternIdBits.val = set.metadataBytes.val * 8 - set.metadataTagBits.val := by
      rw [PatternSet.patternIdBits, Fin.sub_val_of_le (by rw [Fin.le_def]; omega), hbits]
    have := not_and.mp hid hne
    rw [sizeDigits] at this
    omega

theorem validateMetadataLayout_iff {u : Unit} :
    validateMetadataLayout set = .ok u ↔ TagLayout set := by
  simp only [validateMetadataLayout, check_bind_eq_ok, throwIf_eq_ok, tagLayout_iff,
    not_or, not_not, and_assoc]

theorem TagLayout.ok (h : TagLayout set) : validateMetadataLayout set = .ok () :=
  validateMetadataLayout_iff.mpr h

end Widths

theorem validateSet_iff {blockSize : SizeT} {targetSizes : List SizeT} {set : PatternSet}
    {u : Unit} : validateSet blockSize targetSizes set = .ok u ↔
      ValidSet blockSize set ∧ set.targetSize ∉ targetSizes := by
  simp only [validateSet, check_bind_eq_ok, throwIf_eq_ok, not_or, not_not]
  constructor
  · rintro ⟨⟨hpos, hlt⟩, htb, ⟨h₁, h₂, h₃, h₄, h₅⟩, hnew, hcount, hpats⟩
    have hl : TagLayout set := tagLayout_iff.mpr ⟨h₁, h₂, h₃, h₄, h₅⟩
    have hmt : set.metadataBytes.val < set.targetSize.val := Fin.lt_def.mp (not_le.mp hlt)
    refine ⟨⟨by omega, hmt, Fin.lt_def.mp (not_le.mp htb), hl, ?_, ?_, ?_⟩, hnew⟩
    · rw [← hl.val_patternIdBits]
      exact countFitsBits_iff.mp hcount
    · intro p hp
      by_contra hne
      exact hpats ⟨p, hp, Or.inl hne⟩
    · intro p hp
      by_contra hgt
      refine hpats ⟨p, hp, Or.inr ?_⟩
      rw [val_dictionarySize hmt]
      omega
  · rintro ⟨h, hnew⟩
    obtain ⟨h₁, h₂, h₃, h₄, h₅⟩ := tagLayout_iff.mp h.layout
    have hpos := h.target_pos
    have hmt := h.metadata_lt
    have htb := h.target_lt
    refine ⟨⟨?_, ?_⟩, ?_, ⟨h₁, h₂, h₃, h₄, h₅⟩, hnew, ?_, ?_⟩
    · intro he
      rw [he] at hpos
      exact absurd hpos (by simp)
    · exact not_le.mpr (Fin.lt_def.mpr hmt)
    · exact not_le.mpr (Fin.lt_def.mpr htb)
    · rw [countFitsBits_iff, h.layout.val_patternIdBits]
      exact h.count_fits
    · rintro ⟨p, hp, hne | hgt⟩
      · exact hne (h.size_eq p hp)
      · have := h.rank_le p hp
        rw [val_dictionarySize hmt] at hgt
        omega

theorem validateSets_iff {blockSize : SizeT} {targetSizes : List SizeT} {sets : List PatternSet}
    {u : Unit} : validateSets blockSize targetSizes sets = .ok u ↔
      (∀ set ∈ sets, ValidSet blockSize set) ∧ (sets.map PatternSet.targetSize).Nodup ∧
        ∀ set ∈ sets, set.targetSize ∉ targetSizes := by
  induction sets generalizing targetSizes with
  | nil => simp [validateSets]
  | cons set sets ih =>
    rw [validateSets, check_bind_eq_ok, validateSet_iff, ih, List.forall_mem_cons,
      List.forall_mem_cons, List.map_cons, List.nodup_cons]
    simp only [List.mem_map, List.mem_cons, not_or, not_exists, not_and]
    constructor
    · rintro ⟨⟨hs, hnew⟩, hrest, hnodup, htail⟩
      exact ⟨⟨hs, hrest⟩, ⟨fun s hm => (htail s hm).1, hnodup⟩, hnew, fun s hm => (htail s hm).2⟩
    · rintro ⟨⟨hs, hrest⟩, ⟨hfresh, hnodup⟩, hnew, htail⟩
      exact ⟨⟨hs, hnew⟩, hrest, hnodup, fun s hm => ⟨hfresh s hm, htail s hm⟩⟩

/-- The validator accepts exactly the valid models. -/
theorem validateModel_iff {model : Model} {u : Unit} :
    validateModel model = .ok u ↔ ValidModel model := by
  simp only [validateModel, check_bind_eq_ok, throwIf_eq_ok, validateSets_iff, not_or]
  constructor
  · rintro ⟨⟨hpos, hne⟩, hv, hn, -⟩
    refine ⟨Nat.pos_of_ne_zero ?_, hne, hv, hn⟩
    intro he
    exact hpos (Fin.ext he)
  · rintro ⟨hpos, hne, hv, hn⟩
    refine ⟨⟨?_, hne⟩, hv, hn, by simp⟩
    intro he
    rw [he] at hpos
    exact absurd hpos (by simp)

end ByteSelect
