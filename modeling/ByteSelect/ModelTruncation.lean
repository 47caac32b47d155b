import ByteSelect.Metadata
import ByteSelect.ModelLoad

/-! Cut model files: when `load_model` tells them from whole ones. -/
namespace ByteSelect

open TextStream

variable {model model' : Model} {set set' : PatternSet} {before after : List PatternSet}
  {t v : Text}

theorem finishLoad_ok {blockSize : SizeT} {loaded : List PatternSet × Loader}
    (h : finishLoad blockSize loaded = .ok model) :
    model = ⟨blockSize, loaded.1⟩ ∧ ValidModel model := by
  simp only [finishLoad, check_bind_eq_ok] at h
  obtain ⟨-, hv, h⟩ := h
  cases h
  exact ⟨rfl, validateModel_iff.mp hv⟩

theorem finishLoad_drained {blockSize : SizeT} {loaded : List PatternSet × Loader}
    (hd : Drained loaded.2.input) (hv : ValidModel ⟨blockSize, loaded.1⟩) :
    finishLoad blockSize loaded = .ok ⟨blockSize, loaded.1⟩ := by
  have heof := skipSpace_drained hd
  have hvalid : validateModel ⟨blockSize, loaded.1⟩ = .ok () := validateModel_iff.mpr hv
  rw [finishLoad, throwIf_neg (by simp [heof]), ok_bind, hvalid]
  rfl

theorem loadModel_header (hv : ValidModel model) (rest : Text) :
    loadModel (headerText model ++ rest) =
      loadSets 2 model.blockSize model.sets.length [] ⟨setsWord, [], .ofText rest⟩ >>=
        finishLoad model.blockSize := by
  rw [loadModel, loadHeader_full hv rest]
  rfl

/-- The text of a valid model loads as that model. -/
theorem loadModel_modelText (hv : ValidModel model) : loadModel (modelText model) = .ok model := by
  obtain ⟨s, hs, -, hload⟩ := @loadSets_full model.blockSize [] model.sets [] hv.sets_valid
    ⟨setsWord, [], .ofText (model.sets.flatMap setText)⟩ (by rw [List.append_nil]) 0
  rw [Nat.add_zero, List.nil_append, loadSets] at hload
  rw [modelText, loadModel_header hv, hload, ok_bind]
  have hd : Drained s.input := by
    rw [hs]
    refine ⟨rfl, ?_⟩
    intro hfail
    cases hfail
  exact finishLoad_drained hd hv

theorem model_file_round_trip {model : Model} (hv : validateModel model = .ok ()) :
    ∃ text, saveModel model = .ok text ∧ loadModel text = .ok model := by
  have hsave : saveModel model = .ok (modelText model) := by
    rw [saveModel, hv]
    rfl
  exact ⟨modelText model, hsave, loadModel_modelText (validateModel_iff.mp hv)⟩

/-- A set with a tag and a pattern before one without either. -/
def mixedModel : Model := ⟨4, [taggedSet, { targetSize := 2, metadataBytes := 0 }]⟩

theorem mixedModel_file_round_trip :
    ∃ text, saveModel mixedModel = .ok text ∧ loadModel text = .ok mixedModel :=
  model_file_round_trip (by decide)

/-- No text that ends in the header is accepted. -/
theorem loadModel_header_cut (hv : ValidModel model) (ht : t <+: headerText model)
    (hne : t ≠ headerText model) : loadModel t ≠ .ok model' := by
  intro h
  simp only [loadModel, bind_eq_ok] at h
  obtain ⟨header, hheader, loaded, hloaded, h⟩ := h
  obtain ⟨htoken, hd⟩ := loadHeader_cut hv ht hne hheader
  obtain ⟨rfl, hvalid⟩ := finishLoad_ok h
  cases hcount : header.2.2.1.val with
  | zero =>
    rw [hcount] at hloaded
    cases hloaded
    exact hvalid.sets_ne rfl
  | succ n =>
    rw [hcount, loadSets, bind_eq_ok] at hloaded
    obtain ⟨⟨first, s⟩, hfirst, -⟩ := hloaded
    have hword := loadSet_token hfirst
    rw [(readWord_drained hd _).1, htoken] at hword
    exact absurd hword (by decide)

/-- Where a cut of the sets' text falls: inside the text of one set. -/
theorem cut_position {sets : List PatternSet} (hv : v <+: sets.flatMap setText)
    (hne : v ≠ sets.flatMap setText) : ∃ before set after w, sets = before ++ set :: after ∧
      v = before.flatMap setText ++ w ∧ w <+: setText set ∧ w ≠ setText set := by
  induction sets generalizing v with
  | nil => exact absurd (List.prefix_nil.mp hv) hne
  | cons set sets ih =>
    rw [List.flatMap_cons] at hv hne
    rcases List.prefix_or_prefix_of_prefix hv (List.prefix_append (setText set) _) with hin | hpast
    · by_cases he : v = setText set
      · subst he
        have hrest : ([] : Text) ≠ sets.flatMap setText := by
          intro hnil
          exact hne (by rw [← hnil, List.append_nil])
        obtain ⟨before, next, after, w, hsets, hw, hpre, hwne⟩ := ih List.nil_prefix hrest
        refine ⟨set :: before, next, after, w, by rw [hsets, List.cons_append], ?_, hpre, hwne⟩
        rw [List.flatMap_cons, List.append_assoc, ← hw, List.append_nil]
      · exact ⟨[], set, sets, v, rfl, rfl, hin, he⟩
    · obtain ⟨u, rfl⟩ := hpast
      have hu := (List.prefix_append_right_inj (setText set)).mp hv
      have hune : u ≠ sets.flatMap setText := by
        rintro rfl
        exact hne rfl
      obtain ⟨before, next, after, w, hsets, rfl, hpre, hwne⟩ := ih hu hune
      exact ⟨set :: before, next, after, w, by rw [hsets, List.cons_append],
        by rw [List.flatMap_cons, List.append_assoc], hpre, hwne⟩

/-- The model a cut leaves: the sets before it, what is left of the set it falls in, and
default sets for those after it. -/
def cutModel (blockSize : SizeT) (before : List PatternSet) (set' : PatternSet) (missing : ℕ) :
    Model := ⟨blockSize, before ++ set' :: List.replicate missing {}⟩

/-- The sets before a cut are read whole. -/
theorem loadModel_before (hv : ValidModel model) (hsets : model.sets = before ++ set :: after)
    (w : Text) : ∃ s : Loader, s.input = .ofText w ∧
      loadModel (headerText model ++ (before.flatMap setText ++ w)) =
        (loadSets 2 model.blockSize (after.length + 1) before s >>=
          finishLoad model.blockSize) := by
  have hvalid : ∀ set ∈ before, ValidSet model.blockSize set :=
    fun set hs => hv.sets_valid set (hsets ▸ List.mem_append_left _ hs)
  obtain ⟨s, hs, -, hload⟩ := @loadSets_full model.blockSize w before [] hvalid
    ⟨setsWord, [], .ofText (before.flatMap setText ++ w)⟩ rfl (after.length + 1)
  have hlen : model.sets.length = before.length + (after.length + 1) := by
    rw [hsets, List.length_append, List.length_cons]
  refine ⟨s, hs, ?_⟩
  rw [loadModel_header hv, hlen, hload, List.nil_append]

theorem loadModel_cut (hv : ValidModel model) (hsets : model.sets = before ++ set :: after)
    {w : Text} (hw : w <+: setText set) (hne : w ≠ setText set)
    (h : loadModel (headerText model ++ (before.flatMap setText ++ w)) = .ok model') :
    ∃ set', CutSet set set' ∧ model' = cutModel model.blockSize before set' after.length ∧
      ValidModel model' := by
  obtain ⟨s, hs, hload⟩ := loadModel_before hv hsets w
  rw [hload, loadSets, bind_eq_ok] at h
  obtain ⟨loaded, hloaded, hfinish⟩ := h
  rw [bind_eq_ok] at hloaded
  obtain ⟨⟨set', s'⟩, hset, hrest⟩ := hloaded
  obtain ⟨hcut, htoken, hd⟩ := loadSet_cut hw hne hs hset
  obtain ⟨s'', hdrained, -⟩ := @loadSets_drained model.blockSize s' hd htoken after.length
    (before ++ [set'])
  dsimp only at hrest
  rw [hdrained, Except.ok.injEq] at hrest
  subst hrest
  obtain ⟨rfl, hvalid⟩ := finishLoad_ok hfinish
  refine ⟨set', hcut, ?_, hvalid⟩
  simp [cutModel]

/-- A cut that the loop over the sets accepts, and whose model is valid, is accepted. -/
theorem loadModel_of_cut (hv : ValidModel model) (hsets : model.sets = before ++ set :: after)
    {w : Text} (hw : ∀ s : Loader, s.input = .ofText w → ∃ s',
      loadSet 2 model.blockSize s = .ok (set', s') ∧ s'.token = setWord ∧ Drained s'.input)
    (hvalid : ValidModel (cutModel model.blockSize before set' after.length)) :
    loadModel (headerText model ++ (before.flatMap setText ++ w)) =
      .ok (cutModel model.blockSize before set' after.length) := by
  obtain ⟨s, hs, hload⟩ := loadModel_before hv hsets w
  obtain ⟨s', hset, htoken, hd⟩ := hw s hs
  obtain ⟨s'', hdrained, hd'⟩ := @loadSets_drained model.blockSize s' hd htoken after.length
    (before ++ [set'])
  have hlist : before ++ [set'] ++ List.replicate after.length ({} : PatternSet) =
      before ++ set' :: List.replicate after.length {} := by simp
  rw [hlist] at hdrained
  rw [hload, loadSets, hset, ok_bind]
  dsimp only
  rw [hdrained, ok_bind]
  exact @finishLoad_drained _ (before ++ set' :: List.replicate after.length {}, s'') hd' hvalid

/-! Valid cut models. -/

theorem validSet_plain {blockSize targetSize metadataBytes : SizeT} :
    ValidSet blockSize { targetSize, metadataBytes } ↔ metadataBytes.val < targetSize.val ∧
      targetSize.val < blockSize.val ∧ metadataBytes.val ≤ sizeMax / 8 := by
  constructor
  · intro h
    exact ⟨h.metadata_lt, h.target_lt, h.layout.bytes_le⟩
  · rintro ⟨hm, ht, hb⟩
    refine ⟨Nat.zero_lt_of_lt hm, hm, ht, ⟨hb, Nat.zero_le _, Nat.zero_le _, ?_, ?_⟩, ?_, ?_, ?_⟩
    · intro hne
      exact absurd rfl hne
    · intro _
      exact Nat.one_pos
    · intro _
      exact Nat.zero_le _
    · intro p hp
      cases hp
    · intro p hp
      cases hp

/-- The target sizes that are taken. -/
def targets (sets : List PatternSet) : List SizeT := sets.map PatternSet.targetSize

theorem targets_cut {blockSize : SizeT} {missing : ℕ} : targets (cutModel blockSize before set'
    missing).sets = targets before ++ set'.targetSize :: List.replicate missing 32 := by
  simp [cutModel, targets]

/-- More than one missing set leaves the default target size twice. -/
theorem nodup_targets_cut {blockSize : SizeT} {missing : ℕ} (hnodup : (targets before).Nodup) :
    (targets (cutModel blockSize before set' missing).sets).Nodup ↔
      set'.targetSize ∉ targets before ∧
        (missing = 0 ∨ missing = 1 ∧ 32 ∉ targets before ∧ set'.targetSize ≠ 32) := by
  rw [targets_cut, List.nodup_append, List.nodup_cons]
  constructor
  · rintro ⟨-, ⟨hfresh, hreplicate⟩, hdisjoint⟩
    refine ⟨fun hmem => hdisjoint _ hmem _ List.mem_cons_self rfl, ?_⟩
    cases missing with
    | zero => exact Or.inl rfl
    | succ n =>
      have hdefault : (32 : SizeT) ∈ List.replicate (n + 1) 32 :=
        List.mem_replicate.mpr ⟨n.succ_ne_zero, rfl⟩
      have hone := List.nodup_replicate.mp hreplicate
      refine Or.inr ⟨by omega, ?_, ?_⟩
      · intro hmem
        exact hdisjoint _ hmem _ (List.mem_cons_of_mem _ hdefault) rfl
      · intro he
        exact hfresh (he ▸ hdefault)
  · rintro ⟨hfresh, rfl | ⟨rfl, hfree, hne⟩⟩
    · refine ⟨hnodup, by simp, ?_⟩
      rintro t ht u hu rfl
      rcases List.mem_cons.mp hu with rfl | hu
      · exact hfresh ht
      · cases hu
    · refine ⟨hnodup, by simp [hne], ?_⟩
      rintro t ht u hu rfl
      rcases List.mem_cons.mp hu with rfl | hu
      · exact hfresh ht
      · exact hfree (List.eq_of_mem_replicate hu ▸ ht)

theorem validModel_cut {blockSize : SizeT} {missing : ℕ}
    (hbefore : ∀ s ∈ before, ValidSet blockSize s) (hnodup : (targets before).Nodup) :
    ValidModel (cutModel blockSize before set' missing) ↔
      ValidSet blockSize set' ∧ set'.targetSize ∉ targets before ∧
        (missing = 0 ∨ missing = 1 ∧ 32 < blockSize.val ∧ 32 ∉ targets before ∧
          set'.targetSize ≠ 32) := by
  constructor
  · intro hv
    have hset := hv.sets_valid set' (by simp [cutModel])
    obtain ⟨hfresh, hmissing⟩ := (nodup_targets_cut hnodup).mp hv.targets_nodup
    refine ⟨hset, hfresh, ?_⟩
    rcases hmissing with hzero | ⟨hone, hfree, hne⟩
    · exact Or.inl hzero
    · have hplain := hv.sets_valid {} (by simp [cutModel, hone])
      exact Or.inr ⟨hone, hplain.target_lt, hfree, hne⟩
  · rintro ⟨hset, hfresh, hmissing⟩
    refine ⟨hset.target_pos.trans hset.target_lt, by simp [cutModel], ?_, ?_⟩
    · intro s hs
      rcases List.mem_append.mp hs with hs | hs
      · exact hbefore s hs
      · rcases List.mem_cons.mp hs with rfl | hs
        · exact hset
        · obtain ⟨hne, rfl⟩ := List.mem_replicate.mp hs
          rcases hmissing with h | ⟨-, hblock, -⟩
          · exact absurd h hne
          · exact validSet_plain.mpr ⟨by decide, hblock, by decide⟩
    · refine (nodup_targets_cut hnodup).mpr ⟨hfresh, ?_⟩
      rcases hmissing with hzero | ⟨hone, -, hfree, hne⟩
      · exact Or.inl hzero
      · exact Or.inr ⟨hone, hfree, hne⟩

/-! Sets that a cut cannot change. -/

/-- Nothing that a cut leaves out of the text of such a set differs from the default, unless
what it makes of the target size is taken. -/
structure Settled (taken : List SizeT) (set : PatternSet) : Prop where
  patterns_nil : set.patterns.toList = []
  bits_zero : set.metadataTagBits = 0
  value_zero : set.metadataTagValue = 0
  metadata_one : set.targetSize ≠ 1 → set.metadataBytes = 1
  cut_taken : ∀ n : SizeT, numeral n.val <+: numeral set.targetSize.val → n ≠ set.targetSize →
    2 ≤ n.val → n ∈ taken

section Settled

variable {blockSize : SizeT} {taken : List SizeT}

theorem Settled.eq_plain (hs : Settled taken set) :
    set = { targetSize := set.targetSize, metadataBytes := set.metadataBytes } :=
  PatternSet.eq_of_fields rfl rfl hs.patterns_nil hs.bits_zero hs.value_zero

theorem Settled.cut_eq (hs : Settled taken set) (hv : ValidSet blockSize set)
    (hcut : CutSet set set') (hv' : ValidSet blockSize set') (hfree : set'.targetSize ∉ taken) :
    set' = set ∨ set' = {} := by
  cases hcut with
  | beforeTarget => exact Or.inr rfl
  | @inTarget n hn =>
    left
    obtain ⟨htwo, -, -⟩ := validSet_plain.mp hv'
    have hone : ((1 : SizeT) : ℕ) = 1 := rfl
    by_cases he : n = set.targetSize
    · subst he
      have hm : set.metadataBytes = 1 := by
        apply hs.metadata_one
        intro ht
        rw [ht] at htwo
        exact absurd htwo (lt_irrefl _)
      rw [hs.eq_plain, hm]
    · exact absurd (hs.cut_taken n hn he (by omega)) hfree
  | @inMetadata n hn =>
    left
    have hm : n = set.metadataBytes := by
      have hlt : set.metadataBytes.val < 10 := by
        by_cases ht : set.targetSize = 1
        · have hlt := hv.metadata_lt
          rw [ht] at hlt
          have hone : ((1 : SizeT) : ℕ) = 1 := rfl
          omega
        · rw [hs.metadata_one ht]
          decide
      exact Fin.ext (eq_of_cut_digit hlt hn)
    rw [hs.eq_plain, hm]
  | later htarget hblank => exact Or.inl (hblank hs.patterns_nil hs.bits_zero hs.value_zero)

end Settled

/-! Cuts that are read as sets. -/

/-- A cut of the text of a set that the loop over the sets reads as the other set. -/
def ReadsAs (blockSize : SizeT) (set set' : PatternSet) : Prop :=
  ∃ w, w <+: setText set ∧ w ≠ setText set ∧ ∀ s : Loader, s.input = .ofText w →
    ∃ s', loadSet 2 blockSize s = .ok (set', s') ∧ s'.token = setWord ∧ Drained s'.input

theorem cut_of_append {text w rest : Text} (h : text = w ++ rest) (hrest : rest ≠ []) :
    w <+: text ∧ w ≠ text := by
  refine ⟨h ▸ List.prefix_append w rest, ?_⟩
  rintro rfl
  exact hrest (List.append_right_eq_self.mp h.symm)

section Reads

variable {blockSize : SizeT} {n : SizeT}

theorem exists_setText_numbers (set : PatternSet) : ∃ rest, setText set = setWord ++
    ' ' :: (numeral set.targetSize.val ++ ' ' :: (numeral set.metadataBytes.val ++ ' ' :: rest)) :=
  ⟨_, setText_fields set⟩

theorem readsAs_default (set : PatternSet) : ReadsAs blockSize set {} := by
  obtain ⟨hpre, hne⟩ := cut_of_append (setText_fields set) (by simp [fieldsText])
  refine ⟨setWord, hpre, hne, ?_⟩
  intro s hs
  have hword : readWord s.token s.input = (setWord, ⟨[], true, false⟩) := by
    rw [hs]
    exact @readWord_last [] setWord (by simp) (by decide) (no_space rfl) s.token
  exact loadSet_of_fields hword (readSetFields_drained (drained_end false) {})

theorem readWord_set (s : Loader) {rest : Text} (hs : s.input = .ofText (setWord ++ ' ' :: rest)) :
    readWord s.token s.input = (setWord, .ofText (' ' :: rest)) := by
  rw [hs]
  exact @readWord_entry [] setWord rest ' ' (by simp) (by decide) (no_space rfl) rfl s.token

theorem readsAs_target (hn : numeral n.val <+: numeral set.targetSize.val) :
    ReadsAs blockSize set { targetSize := n } := by
  obtain ⟨cut, hcut⟩ := hn
  obtain ⟨rest, hrest⟩ := exists_setText_numbers set
  have htext : setText set = (setWord ++ ' ' :: numeral n.val) ++
      (cut ++ ' ' :: (numeral set.metadataBytes.val ++ ' ' :: rest)) := by
    rw [hrest, ← hcut]
    simp only [List.append_assoc, List.cons_append]
  obtain ⟨hpre, hne⟩ := cut_of_append htext (by simp)
  refine ⟨setWord ++ ' ' :: numeral n.val, hpre, hne, ?_⟩
  intro s hs
  have hread := @readUnsigned_last [' '] 64 n.val isSpace_blank n.isLt ({} : PatternSet).targetSize
  exact loadSet_of_fields (readWord_set s hs) (readSetFields_target hread (drained_end false))

theorem readsAs_metadata (set : PatternSet) : ReadsAs blockSize set
    { targetSize := set.targetSize, metadataBytes := set.metadataBytes } := by
  obtain ⟨rest, hrest⟩ := exists_setText_numbers set
  have htext : setText set = (setWord ++ ' ' :: (numeral set.targetSize.val ++
      ' ' :: numeral set.metadataBytes.val)) ++ ' ' :: rest := by
    rw [hrest]
    simp only [List.append_assoc, List.cons_append]
  obtain ⟨hpre, hne⟩ := cut_of_append htext (by simp)
  refine ⟨_, hpre, hne, ?_⟩
  intro s hs
  have hfirst := readSize_full rfl set.targetSize ({} : PatternSet).targetSize
    (numeral set.metadataBytes.val) (c := ' ')
  have hread := @readUnsigned_last [' '] 64 set.metadataBytes.val isSpace_blank
    set.metadataBytes.isLt ({} : PatternSet).metadataBytes
  exact loadSet_of_fields (readWord_set s hs)
    (readSetFields_metadata hfirst hread (drained_end false))

end Reads

/-! Detection. -/

/-- No other model is returned for a part of the text. -/
def CutsDetected (model : Model) : Prop :=
  ∀ t, t <+: modelText model → t ≠ modelText model → ∀ model', loadModel t = .ok model' →
    model' = model

/-- The last set survives its own cuts, a default set is refused after it is left out, and
the set before it survives the cuts that leave the last one to the defaults. -/
def TruncationSafe (model : Model) : Prop :=
  ∃ before last, model.sets = before ++ [last] ∧ Settled (targets before) last ∧
    (32 < model.blockSize.val → 32 ∈ targets model.sets) ∧
    ∀ first prev, before = first ++ [prev] → 32 < model.blockSize.val → 32 ∉ targets first →
      if prev.targetSize = 32 then 3 ∈ targets first else Settled (32 :: targets first) prev

theorem valid_of_split (hv : ValidModel model) (hsets : model.sets = before ++ set :: after) :
    (∀ s ∈ before, ValidSet model.blockSize s) ∧ ValidSet model.blockSize set ∧
      (targets before).Nodup ∧ set.targetSize ∉ targets before := by
  have hvalid := hv.sets_valid
  have hnodup := hv.targets_nodup
  rw [hsets] at hvalid hnodup
  rw [List.map_append, List.nodup_append] at hnodup
  refine ⟨fun s hs => hvalid s (List.mem_append_left _ hs), hvalid set (by simp), hnodup.1, ?_⟩
  intro hmem
  exact hnodup.2.2 _ hmem _ (by simp) rfl

theorem cutsDetected_of_cutModel (hv : ValidModel model)
    (hcuts : ∀ before set after set', model.sets = before ++ set :: after → CutSet set set' →
      ValidModel (cutModel model.blockSize before set' after.length) →
        cutModel model.blockSize before set' after.length = model) : CutsDetected model := by
  intro t ht hne model' hload
  have hbody : ∃ v, t = headerText model ++ v := by
    rcases List.prefix_or_prefix_of_prefix ht (List.prefix_append (headerText model) _) with
      hheader | ⟨v, hv⟩
    · by_cases he : t = headerText model
      · exact ⟨[], by rw [he, List.append_nil]⟩
      · exact absurd hload (loadModel_header_cut hv hheader he)
    · exact ⟨v, hv.symm⟩
  obtain ⟨v, rfl⟩ := hbody
  have hpre := (List.prefix_append_right_inj (headerText model)).mp ht
  have hcut : v ≠ model.sets.flatMap setText := by
    rintro rfl
    exact hne rfl
  obtain ⟨before, set, after, w, hsets, rfl, hw, hwne⟩ := cut_position hpre hcut
  obtain ⟨set', hset, rfl, hvalid⟩ := loadModel_cut hv hsets hw hwne hload
  exact hcuts before set after set' hsets hset hvalid

theorem cut_eq_of_cutsDetected (hv : ValidModel model) (hdetected : CutsDetected model)
    (hsets : model.sets = before ++ set :: after) (hreads : ReadsAs model.blockSize set set')
    (hvalid : ValidModel (cutModel model.blockSize before set' after.length)) :
    set' = set ∧ after = List.replicate after.length {} := by
  obtain ⟨w, ⟨cut, hcut⟩, hwne, hw⟩ := hreads
  have hne : cut ++ after.flatMap setText ≠ [] := by
    intro hnil
    rw [(List.append_eq_nil_iff.mp hnil).1, List.append_nil] at hcut
    exact hwne hcut
  have htext : modelText model = (headerText model ++ (before.flatMap setText ++ w)) ++
      (cut ++ after.flatMap setText) := by
    rw [modelText, hsets, List.flatMap_append, List.flatMap_cons, ← hcut]
    simp only [List.append_assoc]
  obtain ⟨hpre, htne⟩ := cut_of_append htext hne
  have he := hdetected _ hpre htne _ (loadModel_of_cut hv hsets hw hvalid)
  have hsets' : before ++ set' :: List.replicate after.length {} = before ++ set :: after := by
    rw [← hsets, ← congrArg Model.sets he]
    rfl
  obtain ⟨hset, hafter⟩ := List.cons.inj (List.append_cancel_left hsets')
  exact ⟨hset, hafter.symm⟩

/-- The cuts of three are enough: after the word, after the target size, and after the
number of metadata bytes. -/
theorem settled_of_reads {blockSize : SizeT} {taken : List SizeT} (hv : ValidSet blockSize set)
    (hfree : set.targetSize ∉ taken) (hreads : ∀ set', ReadsAs blockSize set set' →
      ValidSet blockSize set' → set'.targetSize ∉ taken → set' = set) : Settled taken set := by
  have hone : ((1 : SizeT) : ℕ) = 1 := rfl
  have hplain := hreads _ (readsAs_metadata set)
    (validSet_plain.mpr ⟨hv.metadata_lt, hv.target_lt, hv.layout.bytes_le⟩) hfree
  have hle : (1 : SizeT).val ≤ sizeMax / 8 := by decide
  refine ⟨?_, ?_, ?_, ?_, ?_⟩
  · exact congrArg (fun s => s.patterns.toList) hplain.symm
  · exact congrArg PatternSet.metadataTagBits hplain.symm
  · exact congrArg PatternSet.metadataTagValue hplain.symm
  · intro hne
    have htwo : 1 < set.targetSize.val := by
      have hpos := hv.target_pos
      have hval : set.targetSize.val ≠ 1 := fun he => hne (Fin.ext he)
      omega
    have htarget := hreads _ (readsAs_target List.prefix_rfl)
      (validSet_plain.mpr ⟨htwo, hv.target_lt, hle⟩) hfree
    exact congrArg PatternSet.metadataBytes htarget.symm
  · intro n hn hne htwo
    obtain ⟨m, hm, hnumeral⟩ := exists_numeral_of_cut (numeral_ne_nil n.val) hn
    have hlt : n.val < blockSize.val := by
      rw [numeral_injective hnumeral]
      exact hm.trans_lt hv.target_lt
    by_contra hnew
    have htarget := hreads _ (readsAs_target hn) (validSet_plain.mpr ⟨by omega, hlt, hle⟩) hnew
    exact hne (congrArg PatternSet.targetSize htarget)

theorem cut_of_default {n : SizeT} (h : numeral n.val <+: numeral 32) : n = 3 ∨ n = 32 := by
  have hnumeral : numeral 32 = numeral 3 ++ ['2'] := by decide
  rw [hnumeral, List.prefix_concat_iff, ← hnumeral] at h
  rcases h with h | h
  · exact Or.inr (Fin.ext (numeral_injective h))
  · exact Or.inl (Fin.ext (eq_of_cut_digit (by decide) h))

theorem Settled.eq_default {taken : List SizeT} (hs : Settled taken set)
    (ht : set.targetSize = 32) : set = {} := by
  have hm : set.metadataBytes = 1 := by
    apply hs.metadata_one
    rw [ht]
    decide
  rw [hs.eq_plain, ht, hm]

theorem mem_targets_append {sets : List PatternSet} {n : SizeT} :
    n ∈ targets (sets ++ [set]) ↔ n ∈ targets sets ∨ set.targetSize = n := by
  simp [targets, eq_comm]

section Safe

variable {blockSize : SizeT} (hset : ValidSet blockSize set) (hcut : CutSet set set')
  (hset' : ValidSet blockSize set') (hnew : set'.targetSize ∉ targets before)
include hset hcut hset' hnew

/-- What an accepted cut makes of the last set of a safe model is that set. -/
theorem last_cut_eq (hlast : Settled (targets before) set)
    (hdefault : 32 < blockSize.val → 32 ∈ targets (before ++ [set])) : set' = set := by
  rcases hlast.cut_eq hset hcut hset' hnew with he | rfl
  · exact he
  · have hmem := hdefault hset'.target_lt
    rw [mem_targets_append] at hmem
    rcases hmem with hmem | ht
    · exact absurd hmem hnew
    · exact (hlast.eq_default ht).symm

/-- The same of the set before the last one, when the default target size is still free. -/
theorem prev_cut_eq (hne : set'.targetSize ≠ 32) (hprev : if set.targetSize = 32
    then 3 ∈ targets before else Settled (32 :: targets before) set) :
    set' = set ∧ set.targetSize ≠ 32 := by
  split at hprev
  · rename_i ht
    cases hcut with
    | beforeTarget => exact absurd rfl hne
    | @inTarget n hn =>
      rw [ht] at hn
      rcases cut_of_default hn with rfl | rfl
      · exact absurd hprev hnew
      · exact absurd rfl hne
    | inMetadata hn => exact absurd ht hne
    | later htarget hblank => exact absurd (htarget.trans ht) hne
  · rename_i ht
    refine ⟨?_, ht⟩
    rcases hprev.cut_eq hset hcut hset' (List.not_mem_cons_of_ne_of_not_mem hne hnew) with he | rfl
    · exact he
    · exact absurd rfl hne

end Safe

theorem cutsDetected_of_safe (hv : ValidModel model) (hsafe : TruncationSafe model) :
    CutsDetected model := by
  obtain ⟨front, last, hmodel, hlast, hdefault, hprev⟩ := hsafe
  apply cutsDetected_of_cutModel hv
  intro before set after set' hsets hcut hvalid
  obtain ⟨hbefore, hset, hnodup, hfresh⟩ := valid_of_split hv hsets
  obtain ⟨hset', hnew, hmissing⟩ := (validModel_cut hbefore hnodup).mp hvalid
  rw [hmodel] at hdefault
  rcases hmissing with hzero | ⟨hone, hblock, hfree, hne⟩
  · rw [List.eq_nil_of_length_eq_zero hzero] at hsets ⊢
    obtain ⟨rfl, hlastEq⟩ := List.append_inj' (hmodel.symm.trans hsets) rfl
    cases hlastEq
    have heq := last_cut_eq hset hcut hset' hnew hlast hdefault
    rw [heq, cutModel, List.length_nil, List.replicate_zero, ← hmodel]
  · obtain ⟨next, rfl⟩ := List.length_eq_one_iff.mp hone
    have hsplit : front ++ [last] = (before ++ [set]) ++ [next] := by
      rw [← hmodel, hsets, List.append_assoc]
      rfl
    obtain ⟨rfl, hnext⟩ := List.append_inj' hsplit rfl
    cases hnext
    obtain ⟨heq, ht⟩ := prev_cut_eq hset hcut hset' hnew hne (hprev before set rfl hblock hfree)
    have hlast32 : last.targetSize = 32 := by
      have hmem := hdefault hblock
      rw [mem_targets_append, mem_targets_append] at hmem
      rcases hmem with (hmem | hmem) | hmem
      · exact absurd hmem hfree
      · exact absurd hmem ht
      · exact hmem
    have hlastDefault := hlast.eq_default hlast32
    rw [List.append_assoc] at hmodel
    rw [heq, cutModel, List.length_singleton, List.replicate_one, ← hlastDefault]
    change Model.mk model.blockSize (before ++ ([set] ++ [last])) = model
    rw [← hmodel]

theorem safe_of_cutsDetected (hv : ValidModel model) (hdetected : CutsDetected model) :
    TruncationSafe model := by
  obtain ⟨front, last, hmodel⟩ : ∃ front last, model.sets = front ++ [last] := by
    rcases List.eq_nil_or_concat' model.sets with hnil | ⟨front, last, hmodel⟩
    · exact absurd hnil hv.sets_ne
    · exact ⟨front, last, hmodel⟩
  obtain ⟨hfront, hlast, hnodup, hfresh⟩ := valid_of_split hv hmodel
  have hcutLast : ∀ set', ReadsAs model.blockSize last set' → ValidSet model.blockSize set' →
      set'.targetSize ∉ targets front → set' = last := by
    intro set' hreads hset' hnew
    have hvalid := (validModel_cut hfront hnodup).mpr ⟨hset', hnew, Or.inl rfl⟩
    exact (cut_eq_of_cutsDetected hv hdetected hmodel hreads hvalid).1
  refine ⟨front, last, hmodel, settled_of_reads hlast hfresh hcutLast, ?_, ?_⟩
  · intro hblock
    rw [hmodel, mem_targets_append]
    by_contra hmem
    obtain ⟨hfree, hne⟩ := not_or.mp hmem
    have hplain : ValidSet model.blockSize {} := validSet_plain.mpr ⟨by decide, hblock, by decide⟩
    have heq := hcutLast {} (readsAs_default last) hplain hfree
    exact hne (congrArg PatternSet.targetSize heq).symm
  · intro first prev hsplit hblock hfree
    rw [hsplit, List.append_assoc] at hmodel
    obtain ⟨hfirst, hprev, hnodup, hfresh⟩ := valid_of_split hv hmodel
    have hcutPrev : ∀ set', ReadsAs model.blockSize prev set' → ValidSet model.blockSize set' →
        set'.targetSize ∉ 32 :: targets first → set' = prev := by
      intro set' hreads hset' hnew
      rw [List.mem_cons, not_or] at hnew
      obtain ⟨hne, hnew⟩ := hnew
      have hvalid := (validModel_cut hfirst hnodup).mpr
        ⟨hset', hnew, Or.inr ⟨rfl, hblock, hfree, hne⟩⟩
      exact (cut_eq_of_cutsDetected hv hdetected hmodel hreads hvalid).1
    split
    · rename_i ht
      by_contra hnew
      have hstart : numeral ((3 : SizeT) : ℕ) <+: numeral prev.targetSize.val := by
        rw [ht]
        decide
      have hthree : ((3 : SizeT) : ℕ) = 3 := rfl
      have hplain : ValidSet model.blockSize { targetSize := 3 } :=
        validSet_plain.mpr ⟨by decide, by omega, by decide⟩
      have heq := hcutPrev _ (readsAs_target hstart) hplain
        (List.not_mem_cons_of_ne_of_not_mem (by decide) hnew)
      have ht' := congrArg PatternSet.targetSize heq
      rw [ht] at ht'
      exact absurd ht' (by decide)
    · rename_i ht
      exact settled_of_reads hprev (List.not_mem_cons_of_ne_of_not_mem ht hfresh) hcutPrev

/-- A cut model file is refused or loads as the same model exactly for the safe models. -/
theorem truncation_detected_iff {text : Text} (hsave : saveModel model = .ok text) :
    (∀ t, t <+: text → t ≠ text → ∀ model', loadModel t = .ok model' → model' = model) ↔
      TruncationSafe model := by
  obtain ⟨hv, rfl⟩ := saveModel_ok hsave
  exact ⟨safe_of_cutsDetected hv, cutsDetected_of_safe hv⟩

/-- Two sets without patterns or tags, the last one with the default numbers. -/
def defaultsModel : Model := ⟨64, [{ targetSize := 3 }, {}]⟩

theorem truncationSafe_defaultsModel : TruncationSafe defaultsModel := by
  refine ⟨[{ targetSize := 3 }], {}, rfl, ⟨rfl, rfl, rfl, fun _ => rfl, ?_⟩, fun _ => by decide, ?_⟩
  · intro n hn hne htwo
    rcases cut_of_default hn with rfl | rfl
    · decide
    · exact absurd rfl hne
  · intro first prev hsplit hblock hfree
    have hsplit' : [] ++ [({ targetSize := 3 } : PatternSet)] = first ++ [prev] := hsplit
    obtain ⟨rfl, hprev⟩ := List.append_inj' hsplit' rfl
    cases hprev
    rw [if_neg (by decide)]
    refine ⟨rfl, rfl, rfl, fun _ => rfl, ?_⟩
    intro n hn hne htwo
    exact absurd (Fin.ext (eq_of_cut_digit (by decide) hn)) hne

theorem defaultsModel_truncation_detected :
    saveModel defaultsModel = .ok (modelText defaultsModel) ∧ CutsDetected defaultsModel := by
  have hsave : saveModel defaultsModel = .ok (modelText defaultsModel) := by decide
  exact ⟨hsave, (truncation_detected_iff hsave).mpr truncationSafe_defaultsModel⟩

theorem patternModel_size : [Pattern.ofSymbols [0, 0, 1, 0]].length < 2 ^ 63 := by decide

/-- One set with one pattern. -/
def patternModel : Model :=
  ⟨4, [{ targetSize := 3, patterns := ⟨[.ofSymbols [0, 0, 1, 0]], patternModel_size⟩ }]⟩

/-- A cut in the set line drops the pattern. -/
theorem patternModel_cut_undetected :
    saveModel patternModel =
      .ok "BSEL_MODEL 2\nblock_size 4\nsets 1\nset 3 1 0 0 1\npattern 0 0 1 0\n".toList ∧
    "BSEL_MODEL 2\nblock_size 4\nsets 1\nset 3 1 0 0".toList <+:
      "BSEL_MODEL 2\nblock_size 4\nsets 1\nset 3 1 0 0 1\npattern 0 0 1 0\n".toList ∧
    "BSEL_MODEL 2\nblock_size 4\nsets 1\nset 3 1 0 0".toList ≠
      "BSEL_MODEL 2\nblock_size 4\nsets 1\nset 3 1 0 0 1\npattern 0 0 1 0\n".toList ∧
    loadModel "BSEL_MODEL 2\nblock_size 4\nsets 1\nset 3 1 0 0".toList =
      .ok ⟨4, [{ targetSize := 3 }]⟩ ∧
    Model.mk 4 [{ targetSize := 3 }] ≠ patternModel := by
  decide

end ByteSelect
