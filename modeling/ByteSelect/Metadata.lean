import ByteSelect.ModelValid

/-! The metadata field: a tag shifted above the pattern index in one 64-bit word. -/
namespace ByteSelect

variable {set : PatternSet} {blockSize metadata : SizeT} {i : ℕ}

/-- The bits left to the pattern index, without wrap-around. -/
def PatternSet.idWidth (set : PatternSet) : ℕ :=
  set.metadataBytes.val * 8 - set.metadataTagBits.val

/-- Encoding returns the index of every pattern, and decoding accepts nothing else. -/
def MetadataDecodable (set : PatternSet) : Prop :=
  (∀ i < set.patterns.size, ∃ metadata, encodePatternMetadata set i = .ok metadata ∧
    decodePatternMetadata set metadata = .ok i) ∧
  ∀ metadata i, decodePatternMetadata set metadata = .ok i →
    encodePatternMetadata set i = .ok metadata

/-- The shifted tag loses no bit, or there is nothing to encode. -/
def TagFitsWord (set : PatternSet) : Prop :=
  set.patterns.size = 0 ∨ set.metadataTagBits = 0 ∨
    set.metadataTagValue.val * 2 ^ set.patternIdBits.val < 2 ^ 64

theorem two_pow_split {k : ℕ} (hk : k ≤ 64) : (2 : ℕ) ^ 64 = 2 ^ (64 - k) * 2 ^ k := by
  rw [← Nat.pow_add]
  congr 1
  omega

/-- A 64-bit left shift drops the bits it moves past the top. -/
theorem shiftLeft_mod {t k : ℕ} (hk : k ≤ 64) : t <<< k % 2 ^ 64 = t % 2 ^ (64 - k) * 2 ^ k := by
  rw [Nat.shiftLeft_eq, two_pow_split hk, Nat.mul_mod_mul_right]

theorem val_shiftLeft_or {tag : SizeT} {id : SizeT} (hid : id.val ≤ 64) (hi : i < 2 ^ id.val) :
    ((tag <<< id) ||| Fin.ofNat _ i).val = tag.val % 2 ^ (64 - id.val) * 2 ^ id.val + i := by
  have hi64 : i % 2 ^ 64 = i :=
    Nat.mod_eq_of_lt (lt_of_lt_of_le hi (Nat.pow_le_pow_right (by decide) hid))
  have hshift : (tag <<< id).val = tag.val % 2 ^ (64 - id.val) * 2 ^ id.val :=
    shiftLeft_mod hid
  have hlt : tag.val % 2 ^ (64 - id.val) * 2 ^ id.val + i < 2 ^ 64 := by
    have hm : tag.val % 2 ^ (64 - id.val) < 2 ^ (64 - id.val) :=
      Nat.mod_lt _ (Nat.two_pow_pos _)
    calc tag.val % 2 ^ (64 - id.val) * 2 ^ id.val + i
        < (tag.val % 2 ^ (64 - id.val) + 1) * 2 ^ id.val := by rw [Nat.succ_mul]; omega
      _ ≤ 2 ^ (64 - id.val) * 2 ^ id.val := Nat.mul_le_mul_right _ hm
      _ = 2 ^ 64 := (two_pow_split hid).symm
  change ((tag <<< id).val ||| i % 2 ^ 64) % 2 ^ 64 = _
  rw [hshift, hi64, ← Nat.shiftLeft_eq, ← Nat.shiftLeft_add_eq_or_of_lt hi, Nat.shiftLeft_eq,
    Nat.mod_eq_of_lt hlt]

theorem encodePatternMetadata_iff (h : TagLayout set) :
    encodePatternMetadata set i = .ok metadata ↔
      i < set.patterns.size ∧ (set.idWidth < 64 → i < 2 ^ set.idWidth) ∧
      metadata = if set.metadataTagBits = 0 then Fin.ofNat _ i
        else (set.metadataTagValue <<< set.patternIdBits) ||| Fin.ofNat _ i := by
  have hid : set.patternIdBits.val = set.idWidth := h.val_patternIdBits
  simp only [encodePatternMetadata, check_bind_eq_ok, h.ok, throwIf_eq_ok, true_and, not_le,
    not_not, valueFitsBits_iff, hid]
  split <;> simp [pure, Except.pure, eq_comm]

theorem decodePatternMetadata_iff (h : TagLayout set) :
    decodePatternMetadata set metadata = .ok i ↔
      (set.metadataBytes.val * 8 < 64 → metadata.val < 2 ^ (set.metadataBytes.val * 8)) ∧
      i < set.patterns.size ∧
      (set.metadataTagBits = 0 → metadata.val = i) ∧
      (set.metadataTagBits ≠ 0 → metadata.val / 2 ^ set.idWidth = set.metadataTagValue.val ∧
        metadata.val % 2 ^ set.idWidth = i) := by
  have hid : set.patternIdBits.val = set.idWidth := h.val_patternIdBits
  simp only [decodePatternMetadata, check_bind_eq_ok, h.ok, throwIf_eq_ok, true_and,
    not_not, valueFitsBits_iff, val_metadataBits h.bytes_le]
  by_cases ht : set.metadataTagBits = 0
  · simp only [ht, if_true, check_bind_eq_ok, throwIf_eq_ok, not_le, pure, Except.pure]
    constructor
    · rintro ⟨hf, hlt, he⟩
      cases he
      exact ⟨hf, hlt, fun _ => rfl, fun hne => absurd rfl hne⟩
    · rintro ⟨hf, hlt, he, -⟩
      rw [he trivial] at hf ⊢
      exact ⟨hf, hlt, rfl⟩
  · have hmask : metadata.val &&& lowBitsMask set.idWidth = metadata.val % 2 ^ set.idWidth := by
      have hlt : ¬ 64 ≤ set.idWidth := not_le.mpr (h.id_lt ht)
      rw [lowBitsMask, sizeDigits, if_neg hlt, Nat.shiftLeft_eq, Nat.one_mul,
        Nat.and_two_pow_sub_one_eq_mod]
    simp only [if_neg ht, check_bind_eq_ok, throwIf_eq_ok, not_le, not_not, pure, Except.pure, hid,
      hmask, Nat.shiftRight_eq_div_pow]
    constructor
    · rintro ⟨hf, htag, hlt, he⟩
      cases he
      exact ⟨hf, hlt, fun h0 => absurd h0 ht, fun _ => ⟨htag, rfl⟩⟩
    · rintro ⟨hf, hlt, -, hs⟩
      obtain ⟨htag, he⟩ := hs ht
      subst he
      exact ⟨hf, htag, hlt, rfl⟩

theorem ValidSet.index_lt (h : ValidSet blockSize set) (hi : i < set.patterns.size) :
    set.idWidth < 64 → i < 2 ^ set.idWidth :=
  fun hw => lt_of_lt_of_le hi (h.count_fits hw)

/-- Within a valid set every pattern index is encoded. -/
theorem ValidSet.encode_ok (h : ValidSet blockSize set) (hi : i < set.patterns.size) :
    encodePatternMetadata set i = .ok (if set.metadataTagBits = 0 then Fin.ofNat _ i
      else (set.metadataTagValue <<< set.patternIdBits) ||| Fin.ofNat _ i) :=
  (encodePatternMetadata_iff h.layout).mpr ⟨hi, h.index_lt hi, rfl⟩

theorem ValidSet.val_tagged (h : ValidSet blockSize set) (ht : set.metadataTagBits ≠ 0)
    (hi : i < set.patterns.size) :
    ((set.metadataTagValue <<< set.patternIdBits) ||| Fin.ofNat _ i).val =
      set.metadataTagValue.val % 2 ^ (64 - set.idWidth) * 2 ^ set.idWidth + i := by
  have hid : set.patternIdBits.val = set.idWidth := h.layout.val_patternIdBits
  have hlt : set.idWidth < 64 := h.layout.id_lt ht
  rw [val_shiftLeft_or (by omega) (by rw [hid]; exact h.index_lt hi hlt), hid]

theorem val_ofNat_index (hi : i < set.patterns.size) : (Fin.ofNat (2 ^ 64) i).val = i := by
  have hs := set.patterns.size_lt
  have hi' : i < set.patterns.toList.length := hi
  exact Nat.mod_eq_of_lt (by omega)

theorem mul_two_pow_lt_iff {t w : ℕ} (hw : w ≤ 64) : t * 2 ^ w < 2 ^ 64 ↔ t < 2 ^ (64 - w) := by
  rw [two_pow_split hw, Nat.mul_lt_mul_right (Nat.two_pow_pos w)]

/-- Decoding is one-sided safe: what it accepts is what the encoder writes. -/
theorem ValidSet.encode_of_decode (h : ValidSet blockSize set)
    (hd : decodePatternMetadata set metadata = .ok i) :
    encodePatternMetadata set i = .ok metadata := by
  obtain ⟨-, hi, hplain, htagged⟩ := (decodePatternMetadata_iff h.layout).mp hd
  rw [h.encode_ok hi]
  congr 1
  apply Fin.ext
  by_cases ht : set.metadataTagBits = 0
  · rw [if_pos ht, val_ofNat_index hi, hplain ht]
  · obtain ⟨hdiv, hmod⟩ := htagged ht
    have hw : set.idWidth < 64 := h.layout.id_lt ht
    have hsplit := Nat.div_add_mod metadata.val (2 ^ set.idWidth)
    rw [hdiv, hmod, Nat.mul_comm] at hsplit
    have hm := metadata.isLt
    have htag : set.metadataTagValue.val < 2 ^ (64 - set.idWidth) :=
      (mul_two_pow_lt_iff hw.le).mp (by omega)
    rw [if_neg ht, h.val_tagged ht hi, Nat.mod_eq_of_lt htag, hsplit]

/-- What decoding makes of an encoded index, whether or not the shift dropped tag bits. -/
theorem ValidSet.decode_encoded_iff (h : ValidSet blockSize set) (hi : i < set.patterns.size)
    (he : encodePatternMetadata set i = .ok metadata) :
    decodePatternMetadata set metadata = .ok i ↔
      set.metadataTagBits = 0 ∨ set.metadataTagValue.val * 2 ^ set.patternIdBits.val < 2 ^ 64 := by
  rw [h.encode_ok hi, Except.ok.injEq] at he
  subst he
  rw [decodePatternMetadata_iff h.layout]
  by_cases ht : set.metadataTagBits = 0
  · have hfits : set.metadataBytes.val * 8 < 64 → i < 2 ^ (set.metadataBytes.val * 8) := by
      intro hb
      have hw : set.idWidth = set.metadataBytes.val * 8 := by simp [PatternSet.idWidth, ht]
      rw [← hw] at hb ⊢
      exact h.index_lt hi hb
    simp only [if_pos ht, val_ofNat_index hi]
    simpa [ht, hi] using hfits
  · have hw : set.idWidth < 64 := h.layout.id_lt ht
    have hid : set.patternIdBits.val = set.idWidth := h.layout.val_patternIdBits
    have hiw : i < 2 ^ set.idWidth := h.index_lt hi hw
    rw [if_neg ht, h.val_tagged ht hi, hid, mul_two_pow_lt_iff hw.le]
    have hdiv : (set.metadataTagValue.val % 2 ^ (64 - set.idWidth) * 2 ^ set.idWidth + i) /
        2 ^ set.idWidth = set.metadataTagValue.val % 2 ^ (64 - set.idWidth) := by
      rw [Nat.mul_comm, Nat.mul_add_div (Nat.two_pow_pos _), Nat.div_eq_of_lt hiw, Nat.add_zero]
    have hmod : (set.metadataTagValue.val % 2 ^ (64 - set.idWidth) * 2 ^ set.idWidth + i) %
        2 ^ set.idWidth = i := by
      rw [Nat.mul_comm, Nat.mul_add_mod, Nat.mod_eq_of_lt hiw]
    simp only [hdiv, hmod, ht, false_or, ne_eq, not_false_eq_true, forall_const, and_true, hi,
      false_implies, true_and]
    constructor
    · rintro ⟨-, hk⟩
      rw [← hk]
      exact Nat.mod_lt _ (Nat.two_pow_pos _)
    · intro htag
      rw [Nat.mod_eq_of_lt htag]
      refine ⟨?_, rfl⟩
      intro hb
      have htl := h.layout.tag_le
      have hv := h.layout.value_fits (by omega)
      have hsum : set.metadataBytes.val * 8 = set.metadataTagBits.val + set.idWidth := by
        unfold PatternSet.idWidth
        omega
      rw [hsum, Nat.pow_add]
      calc set.metadataTagValue.val * 2 ^ set.idWidth + i
          < (set.metadataTagValue.val + 1) * 2 ^ set.idWidth := by rw [Nat.succ_mul]; omega
        _ ≤ 2 ^ set.metadataTagBits.val * 2 ^ set.idWidth := Nat.mul_le_mul_right _ hv

theorem ValidSet.tagFits_of_bytes (hv : ValidSet blockSize set)
    (h : 0 < set.metadataTagBits.val → set.metadataBytes.val ≤ 8) :
    set.metadataTagBits = 0 ∨ set.metadataTagValue.val * 2 ^ set.patternIdBits.val < 2 ^ 64 := by
  by_cases ht : set.metadataTagBits = 0
  · exact Or.inl ht
  · right
    have hbytes := h (Fin.pos_iff_ne_zero.mpr ht)
    have hle := hv.layout.tag_le
    rw [hv.layout.val_patternIdBits, mul_two_pow_lt_iff (by omega)]
    by_cases hfull : set.metadataTagBits.val < 64
    · refine (hv.layout.value_fits hfull).trans_le (Nat.pow_le_pow_right (by decide) ?_)
      omega
    · have hdigits := hv.layout.tag_le_digits
      have hvalue := set.metadataTagValue.isLt
      have hzero : 64 - (set.metadataBytes.val * 8 - set.metadataTagBits.val) = 64 := by omega
      rwa [hzero]

/-- A set's metadata field is decodable exactly when the shift keeps its whole tag. -/
theorem ValidSet.metadataDecodable_iff (h : ValidSet blockSize set) :
    MetadataDecodable set ↔ TagFitsWord set := by
  constructor
  · rintro ⟨henc, -⟩
    rcases Nat.eq_zero_or_pos set.patterns.size with h0 | hpos
    · exact Or.inl h0
    · obtain ⟨m, he, hd⟩ := henc 0 hpos
      exact Or.inr ((h.decode_encoded_iff hpos he).mp hd)
  · intro hfit
    refine ⟨?_, fun m i hd => h.encode_of_decode hd⟩
    intro i hi
    rcases hfit with h0 | hfit
    · omega
    · exact ⟨_, h.encode_ok hi, (h.decode_encoded_iff hi (h.encode_ok hi)).mpr hfit⟩

/-- The tagged set of the repository's tests. -/
def taggedSet : PatternSet where
  targetSize := 3
  metadataBytes := 1
  patterns := ⟨[Pattern.ofSymbols [0, 0, 1, 0]], by decide⟩
  metadataTagBits := 1
  metadataTagValue := 1

def taggedModel : Model where
  blockSize := 4
  sets := [taggedSet]

theorem metadata_decodable_iff_tag_fits {model : Model} (hv : validateModel model = .ok ())
    {set : PatternSet} (hs : set ∈ model.sets) : MetadataDecodable set ↔ TagFitsWord set :=
  ((validateModel_iff.mp hv).sets_valid set hs).metadataDecodable_iff

theorem taggedSet_decodable_iff : MetadataDecodable taggedSet ↔ TagFitsWord taggedSet :=
  metadata_decodable_iff_tag_fits (show validateModel taggedModel = .ok () by decide)
    (by simp [taggedModel])

/-- Nine metadata bytes with a nine-bit tag: the tag 2 shifted by 63 leaves nothing. -/
def droppedTagModel : Model where
  blockSize := 11
  sets := [{ targetSize := 10, metadataBytes := 9,
             patterns := ⟨[Pattern.ofSymbols (List.replicate 11 0)], by decide⟩,
             metadataTagBits := 9, metadataTagValue := 2 }]

theorem droppedTagModel_not_decodable :
    validateModel droppedTagModel = .ok () ∧
      ∃ set ∈ droppedTagModel.sets, 0 < set.patterns.size ∧
        encodePatternMetadata set 0 = .ok 0 ∧ Throws (decodePatternMetadata set 0) ∧
        ¬ MetadataDecodable set := by
  have hv : validateModel droppedTagModel = .ok () := by decide
  refine ⟨hv, droppedTagModel.sets[0], by simp, by decide, by decide,
    ⟨.invalidArgument "metadata tag does not match target pattern set", by decide⟩, ?_⟩
  rw [((validateModel_iff.mp hv).sets_valid _ (by simp)).metadataDecodable_iff, TagFitsWord]
  decide

end ByteSelect
