import ByteSelect.Accounting
import ByteSelect.Baseline.Evaluation

/-! The counters of the three evaluations: what they add up to, and how those of two lists of
blocks are merged. -/
namespace ByteSelect

open Accounting Baseline

def mergeEvaluation (result other : Evaluation) : Except Error Evaluation := do
  throwIf (result.setBlocks.length ≠ other.setBlocks.length)
    (.invalidArgument "cannot merge evaluations for different models")
  return {
    blocks := addU64 result.blocks other.blocks
    originalBytes := addU64 result.originalBytes other.originalBytes
    encodedBytes := addU64 result.encodedBytes other.encodedBytes
    allocatedBytes := addU64 result.allocatedBytes other.allocatedBytes
    compressedBlocks := addU64 result.compressedBlocks other.compressedBlocks
    setBlocks := List.zipWith addU64 result.setBlocks other.setBlocks }

def mergeUpperBound (result other : UpperBoundEvaluation) : Except Error UpperBoundEvaluation := do
  throwIf (result.metadataBytes ≠ other.metadataBytes ∨ result.targetSizes ≠ other.targetSizes ∨
      result.targetBlocks.length ≠ other.targetBlocks.length)
    (.invalidArgument "cannot merge upper bounds with different settings")
  return {
    blocks := addU64 result.blocks other.blocks
    originalBytes := addU64 result.originalBytes other.originalBytes
    uniqueBytes := addU64 result.uniqueBytes other.uniqueBytes
    uniqueWithMetadataBytes :=
      addU64 result.uniqueWithMetadataBytes other.uniqueWithMetadataBytes
    quantizedBytes := addU64 result.quantizedBytes other.quantizedBytes
    compressedBlocks := addU64 result.compressedBlocks other.compressedBlocks
    metadataBytes := result.metadataBytes
    targetSizes := result.targetSizes
    targetBlocks := List.zipWith addU64 result.targetBlocks other.targetBlocks }

def mergeBaselineEvaluation (result other : BaselineEvaluation) :
    Except Error BaselineEvaluation := do
  throwIf (result.kind ≠ other.kind ∨ result.targetSizes ≠ other.targetSizes ∨
      result.targetBlocks.length ≠ other.targetBlocks.length)
    (.invalidArgument "cannot merge baseline evaluations with different settings")
  return {
    kind := result.kind
    blocks := addU64 result.blocks other.blocks
    originalBytes := addU64 result.originalBytes other.originalBytes
    encodedBytes := addU64 result.encodedBytes other.encodedBytes
    allocatedBytes := addU64 result.allocatedBytes other.allocatedBytes
    compressedBlocks := addU64 result.compressedBlocks other.compressedBlocks
    targetSizes := result.targetSizes
    targetBlocks := List.zipWith addU64 result.targetBlocks other.targetBlocks }

/-! The counters as a book. -/

def Evaluation.totals (result : Evaluation) : Totals where
  items := result.blocks
  size := result.originalBytes
  used := result.encodedBytes
  granted := result.allocatedBytes
  slotted := result.compressedBlocks
  slots := result.setBlocks

def Evaluation.ofTotals (t : Totals) : Evaluation where
  blocks := t.items
  originalBytes := t.size
  encodedBytes := t.used
  allocatedBytes := t.granted
  compressedBlocks := t.slotted
  setBlocks := t.slots

def UpperBoundEvaluation.totals (result : UpperBoundEvaluation) : Totals where
  items := result.blocks
  weight := result.uniqueBytes
  size := result.originalBytes
  used := result.uniqueWithMetadataBytes
  granted := result.quantizedBytes
  slotted := result.compressedBlocks
  slots := result.targetBlocks

def UpperBoundEvaluation.ofTotals (metadataBytes : SizeT) (targetSizes : List SizeT) (t : Totals) :
    UpperBoundEvaluation where
  blocks := t.items
  originalBytes := t.size
  uniqueBytes := t.weight
  uniqueWithMetadataBytes := t.used
  quantizedBytes := t.granted
  compressedBlocks := t.slotted
  metadataBytes := metadataBytes
  targetSizes := targetSizes
  targetBlocks := t.slots

def Baseline.BaselineEvaluation.totals (result : BaselineEvaluation) : Totals where
  items := result.blocks
  size := result.originalBytes
  used := result.encodedBytes
  granted := result.allocatedBytes
  slotted := result.compressedBlocks
  slots := result.targetBlocks

def Baseline.BaselineEvaluation.ofTotals (kind : BaselineKind) (targetSizes : List SizeT)
    (t : Totals) : BaselineEvaluation where
  kind := kind
  blocks := t.items
  originalBytes := t.size
  encodedBytes := t.used
  allocatedBytes := t.granted
  compressedBlocks := t.slotted
  targetSizes := targetSizes
  targetBlocks := t.slots

/-- Over blocks of `n` bytes, the counters of a result account for every block and every byte, and
the results of two lists are merged into the result of both. -/
structure Tallies {ρ : Type} (evaluation : BlockVector → Except Error ρ)
    (merge : ρ → ρ → Except Error ρ) (totalsOf : ρ → Totals) (targetsOf : ρ → List ℕ) (n : ℕ) :
    Prop where
  conserved : ∀ blocks : BlockVector, (∀ block ∈ blocks.toList, block.length = n) →
    ∀ result, evaluation blocks = .ok result →
      (totalsOf result).items = blocks.toList.length ∧
      (totalsOf result).Conserved (targetsOf result) n
  merged : ∀ xs ys zs : BlockVector, zs.toList = xs.toList ++ ys.toList →
    (∀ block ∈ zs.toList, block.length = n) →
    ∀ a b, evaluation xs = .ok a → evaluation ys = .ok b →
      ∃ c, evaluation zs = .ok c ∧ merge a b = .ok c

theorem Tallies.exists_merged {ρ : Type} {evaluation : BlockVector → Except Error ρ}
    {merge : ρ → ρ → Except Error ρ} {totalsOf : ρ → Totals} {targetsOf : ρ → List ℕ} {n : ℕ}
    (h : Tallies evaluation merge totalsOf targetsOf n) {xs ys zs : BlockVector}
    (hzs : zs.toList = xs.toList ++ ys.toList) (hn : ∀ block ∈ zs.toList, block.length = n)
    (hxs : ∃ a, evaluation xs = .ok a) (hys : ∃ b, evaluation ys = .ok b) :
    ∃ a b c, evaluation xs = .ok a ∧ evaluation ys = .ok b ∧ evaluation zs = .ok c ∧
      merge a b = .ok c ∧ (totalsOf c).Conserved (targetsOf c) n := by
  obtain ⟨a, ha⟩ := hxs
  obtain ⟨b, hb⟩ := hys
  obtain ⟨c, hc, hmerge⟩ := h.merged xs ys zs hzs hn a b ha hb
  exact ⟨a, b, c, ha, hb, hc, hmerge, (h.conserved zs hn c hc).2⟩

/-! Evaluations that keep a book. -/

theorem exists_eq_ok {ε α : Type} {x : Except ε α} (h : x.isOk = true) : ∃ a, x = .ok a := by
  cases x with
  | error e => cases h
  | ok a => exact ⟨a, rfl⟩

theorem map_eq_ok {α β : Type} {x : Except Error α} {f : α → β} {b : β} :
    x.map f = .ok b ↔ ∃ a, x = .ok a ∧ b = f a := by
  cases x with
  | error e =>
    constructor
    · nofun
    · rintro ⟨a, ha, -⟩
      cases ha
  | ok a =>
    constructor
    · intro h
      cases h
      exact ⟨a, rfl, rfl⟩
    · rintro ⟨a', ha, rfl⟩
      cases ha
      rfl

section Books

variable {ρ : Type} {evaluation : BlockVector → Except Error ρ} {merge : ρ → ρ → Except Error ρ}
  {totalsOf : ρ → Totals} {targetsOf : ρ → List ℕ} {entryOf : Block → Except Error Entry}
  {book : Totals → ρ} {targets : List ℕ} {n : ℕ} {accepted : Prop}

/-- An evaluation that books an entry for each block, once its arguments are accepted. -/
structure Books (evaluation : BlockVector → Except Error ρ) (entryOf : Block → Except Error Entry)
    (book : Totals → ρ) (targets : List ℕ) (n : ℕ) (accepted : Prop) : Prop where
  run : ∀ blocks : BlockVector, (∀ block ∈ blocks.toList, block.length = n) → ∀ result,
    evaluation blocks = .ok result ↔ (blocks.toList ≠ [] → accepted) ∧
      ∃ entries, blocks.toList.mapM entryOf = .ok entries ∧
        result = book ((totals targets.length entries).wrap (2 ^ 64))
  sound : accepted → ∀ block : Block, block.length = n → ∀ entry, entryOf block = .ok entry →
    Sound targets n entry

/-- The bytes have distinct addresses, so no counter starts over. -/
theorem Books.totals_wrap (h : Books evaluation entryOf book targets n accepted)
    {blocks : BlockVector} (hn : ∀ block ∈ blocks.toList, block.length = n)
    (haccepted : blocks.toList ≠ [] → accepted) {entries : List Entry}
    (hentries : blocks.toList.mapM entryOf = .ok entries) :
    (totals targets.length entries).Conserved targets n ∧
      (totals targets.length entries).items = blocks.toList.length ∧
      (totals targets.length entries).wrap (2 ^ 64) = totals targets.length entries := by
  have hsound : ∀ entry ∈ entries, Sound targets n entry := by
    apply sound_mapM hentries
    intro block hblock
    exact h.sound (haccepted (List.ne_nil_of_mem hblock)) block (hn block hblock)
  have hconserved := conserved_totals hsound
  have hitems : (totals targets.length entries).items = blocks.toList.length := by
    rw [items_totals, (forall₂_mapM hentries).length_eq]
  have hsum : (blocks.toList.map List.length).sum = blocks.toList.length * n := by
    rw [List.map_congr_left hn, List.map_const', List.sum_replicate_nat]
  have hbytes := blocks.bytes_lt
  have hlength := blocks.size_lt
  refine ⟨hconserved, hitems, hconserved.wrap_eq ?_ ?_⟩
  · rw [hconserved.size_eq, hitems, ← hsum]
    exact hbytes
  · rw [hitems]
    omega

theorem Books.tallies (h : Books evaluation entryOf book targets n accepted)
    (hmerge : ∀ t u : Totals, t.slots.length = u.slots.length →
      merge (book t) (book u) = .ok (book (t.mergeMod (2 ^ 64) u)))
    (htotals : ∀ t : Totals, t.Conserved targets n → (totalsOf (book t)).items = t.items ∧
      (totalsOf (book t)).Conserved (targetsOf (book t)) n) :
    Tallies evaluation merge totalsOf targetsOf n where
  conserved blocks hn result hresult := by
    obtain ⟨haccepted, entries, hentries, rfl⟩ := (h.run blocks hn result).mp hresult
    obtain ⟨hconserved, hitems, hwrap⟩ := h.totals_wrap hn haccepted hentries
    rw [hwrap, ← hitems]
    exact htotals _ hconserved
  merged xs ys zs hzs hn a b ha hb := by
    rw [hzs, List.forall_mem_append] at hn
    obtain ⟨hxsAccepted, es, hes, rfl⟩ := (h.run xs hn.1 a).mp ha
    obtain ⟨hysAccepted, fs, hfs, rfl⟩ := (h.run ys hn.2 b).mp hb
    have hentries : zs.toList.mapM entryOf = .ok (es ++ fs) := by
      rw [hzs, List.mapM_append, hes, hfs]
      rfl
    have haccepted : zs.toList ≠ [] → accepted := by
      intro hne
      rw [hzs, ne_eq, List.append_eq_nil_iff, not_and_or] at hne
      exact hne.elim hxsAccepted hysAccepted
    have hsame : ((totals targets.length es).wrap (2 ^ 64)).slots.length =
        ((totals targets.length fs).wrap (2 ^ 64)).slots.length := by
      simp only [Totals.wrap, List.length_map, length_slots_totals]
    refine ⟨book ((totals targets.length (es ++ fs)).wrap (2 ^ 64)), ?_, ?_⟩
    · rw [h.run zs (by rw [hzs, List.forall_mem_append]; exact hn)]
      exact ⟨haccepted, _, hentries, rfl⟩
    · rw [hmerge _ _ hsame, totals_append, wrap_merge]

/-- An evaluation that checks its arguments against the first block, and books the blocks in a
loop. -/
theorem Books.of_front (loop : ℕ → List Block → Except Error ρ)
    (heval : ∀ blocks : BlockVector, evaluation blocks = match blocks.toList with
      | [] => .ok (book (.empty targets.length))
      | front :: _ => loop front.length blocks.toList)
    (hloop : ∀ blocks result, loop n blocks = .ok result ↔ accepted ∧ ∃ entries,
      blocks.mapM entryOf = .ok entries ∧
        result = book ((totals targets.length entries).wrap (2 ^ 64)))
    (hsound : accepted → ∀ block : Block, block.length = n → ∀ entry, entryOf block = .ok entry →
      Sound targets n entry) : Books evaluation entryOf book targets n accepted where
  run blocks hn result := by
    rw [heval]
    cases hlist : blocks.toList with
    | nil =>
      have hempty := wrap_empty (2 ^ 64) targets.length
      constructor
      · intro h
        cases h
        exact ⟨fun hne => absurd rfl hne, [], rfl, congrArg book hempty.symm⟩
      · rintro ⟨-, entries, hentries, rfl⟩
        cases hentries
        exact congrArg (Except.ok ∘ book) hempty.symm
    | cons front rest =>
      have hfront : front.length = n := hn front (hlist ▸ List.mem_cons_self)
      dsimp only
      rw [hfront, hloop]
      constructor
      · exact fun h => ⟨fun _ => h.1, h.2⟩
      · exact fun h => ⟨h.1 (List.cons_ne_nil _ _), h.2⟩
  sound := hsound

end Books

/-! The three books. -/

section Model

variable {model : Model} {block : Block} {encoded : EncodedBlock}

def EncodedBlock.entry (block : Block) (encoded : EncodedBlock) : Entry where
  size := block.length
  used := encoded.encodedSize
  granted := encoded.allocatedSize
  slot := if encoded.compressed then some encoded.setIndex else none

def Model.targets (model : Model) : List ℕ := model.sets.map fun set => set.targetSize.val

theorem Selection.sound (hv : ValidModel model) (hb : block.length = model.blockSize.val)
    (h : Selection model block encoded) :
    Sound model.targets block.length (encoded.entry block) := by
  cases h with
  | raw hnone =>
    exact ⟨rfl, Nat.zero_le _, le_rfl, le_rfl, nofun, fun _ => rfl⟩
  | @pattern set setIndex j p metadata hset hleast hp hd hfirst hmeta =>
    have hvs := hv.sets_valid set (List.mem_of_getElem? hset)
    have hmetadata := hvs.metadata_lt
    have hrank := hvs.rank_le p (List.mem_of_getElem? hp)
    have htarget := hvs.target_lt
    refine ⟨rfl, Nat.zero_le _, ?_, ?_, ?_, nofun⟩
    · change set.metadataBytes.val + p.rank ≤ set.targetSize.val
      omega
    · change set.targetSize.val ≤ block.length
      omega
    · intro i hi
      cases hi
      rw [Model.targets, List.getElem?_map]
      exact congrArg (Option.map fun set => set.targetSize.val) hset

theorem evaluateBlock_ofTotals (model : Model) (t : Totals) (block : Block) :
    evaluateBlock model (.ofTotals (t.wrap (2 ^ 64))) block =
      ((compress block model).map (EncodedBlock.entry block)).map fun entry =>
        .ofTotals ((t.add entry).wrap (2 ^ 64)) := by
  unfold evaluateBlock
  cases compress block model with
  | error e => rfl
  | ok encoded =>
    change _ = Except.ok (Evaluation.ofTotals ((t.add (encoded.entry block)).wrap (2 ^ 64)))
    rw [ok_bind, wrap_add, EncodedBlock.entry]
    cases encoded.compressed with
    | true => rfl
    | false => rfl

theorem evaluate_books (hv : ValidModel model) (n : ℕ) :
    Books (evaluate · model) (fun block => (compress block model).map (EncodedBlock.entry block))
      Evaluation.ofTotals model.targets n True where
  run blocks hn result := by
    have hstart : ({ setBlocks := List.replicate model.sets.length 0 } : Evaluation) =
        .ofTotals ((Totals.empty model.targets.length).wrap (2 ^ 64)) := by
      rw [wrap_empty, Model.targets, List.length_map]
      rfl
    rw [evaluate, hstart, foldlM_book (evaluateBlock_ofTotals model), map_eq_ok]
    constructor
    · exact fun h => ⟨fun _ => trivial, h⟩
    · exact fun h => h.2
  sound _ block hn entry hentry := by
    obtain ⟨encoded, hcompress, rfl⟩ := map_eq_ok.mp hentry
    have hb : block.length = model.blockSize.val := by
      have hrun := hcompress
      rw [compress, check_bind_eq_ok, throwIf_eq_ok, not_not] at hrun
      exact hrun.1
    obtain ⟨encoded', hcompress', hselect⟩ := compress_selection hv hb
    cases hcompress.symm.trans hcompress'
    rw [← hn]
    exact hselect.sound hv hb

theorem mergeEvaluation_ofTotals {t u : Totals} (hlen : t.slots.length = u.slots.length) :
    mergeEvaluation (.ofTotals t) (.ofTotals u) = .ok (.ofTotals (t.mergeMod (2 ^ 64) u)) := by
  rw [mergeEvaluation, throwIf_neg, ok_bind]
  · rfl
  · exact not_not.mpr hlen

theorem evaluate_tallies (hv : ValidModel model) (n : ℕ) :
    Tallies (evaluate · model) mergeEvaluation Evaluation.totals (fun _ => model.targets) n := by
  apply (evaluate_books hv n).tallies
  · exact fun t u hlen => mergeEvaluation_ofTotals hlen
  · intro t ht
    exact ⟨rfl, ht.slots_length, ht.slotted_eq, ht.slotted_le, ht.granted_eq, Nat.zero_le _,
      ht.used_le, ht.granted_le, ht.size_eq⟩

end Model

section UpperBound

variable {targetSizes : List SizeT} {metadataBytes : SizeT} {n : ℕ} {block : Block}

def upperBoundEntry (targetSizes : List SizeT) (metadataBytes : SizeT) (blockSize : ℕ)
    (block : Block) : Except Error Entry := do
  throwIf (block.length ≠ blockSize)
    (.invalidArgument "upper-bound blocks have inconsistent sizes")
  let unique := (Pattern.simplest block).rank
  return {
    weight := unique
    size := blockSize
    used := uniqueWithMetadata blockSize metadataBytes unique
    granted := quantizedSize blockSize targetSizes metadataBytes unique
    slot := fittingTarget targetSizes metadataBytes unique }

theorem upperBoundBlock_ofTotals (t : Totals) (block : Block) :
    upperBoundBlock n (.ofTotals metadataBytes targetSizes (t.wrap (2 ^ 64))) block =
      (upperBoundEntry targetSizes metadataBytes n block).map fun entry =>
        .ofTotals metadataBytes targetSizes ((t.add entry).wrap (2 ^ 64)) := by
  unfold upperBoundBlock upperBoundEntry
  by_cases hb : block.length = n
  · rw [throwIf_neg (not_not.mpr hb), ok_bind, ok_bind]
    simp only [wrap_add]
    rfl
  · rw [throwIf, if_pos hb]
    rfl

/-- What fits beside the metadata into a target is charged at most the target. -/
theorem uniqueWithMetadata_le_target {blockSize metadata target unique : ℕ}
    (hlt : target < blockSize) (hmetadata : metadata < target) (hfits : unique ≤ target - metadata) :
    uniqueWithMetadata blockSize metadata unique ≤ target := by
  rw [uniqueWithMetadata, if_neg (by omega)]
  exact (min_le_right _ _).trans (by omega)

theorem upperBoundEntry_sound (htargets : ∀ target ∈ targetSizes,
      metadataBytes.val < target.val ∧ target.val < n) {entry : Entry}
    (hb : block.length = n)
    (h : upperBoundEntry targetSizes metadataBytes n block = .ok entry) :
    Sound (targetSizes.map Fin.val) n entry := by
  rw [upperBoundEntry, throwIf_neg (not_not.mpr hb), ok_bind] at h
  cases h
  have hrank := rank_simplest_le_length block
  rw [hb] at hrank
  have hweight := le_uniqueWithMetadata hrank metadataBytes
  cases hfitting : fittingTarget targetSizes metadataBytes (Pattern.simplest block).rank with
  | none =>
    have hquantized : quantizedSize n targetSizes metadataBytes (Pattern.simplest block).rank =
        n := by
      rw [quantizedSize, hfitting]
    refine ⟨rfl, hweight, ?_, hquantized.le, ?_, fun _ => hquantized⟩
    · exact (uniqueWithMetadata_le _ _ _).trans hquantized.ge
    · intro i hi
      cases hi
  | some i =>
    obtain ⟨hlt, hfits, -⟩ := List.findIdx?_eq_some_iff_getElem.mp hfitting
    obtain ⟨hmetadata, htarget⟩ := htargets _ (List.getElem_mem hlt)
    have hquantized : quantizedSize n targetSizes metadataBytes (Pattern.simplest block).rank =
        targetSizes[i].val := by
      rw [quantizedSize, hfitting]
      dsimp only
      rw [List.getD_eq_getElem?_getD, List.getElem?_eq_getElem hlt]
      rfl
    have hsub : (targetSizes[i] - metadataBytes).val = targetSizes[i].val - metadataBytes.val :=
      Fin.sub_val_of_le (Fin.le_def.mpr hmetadata.le)
    have hunique := of_decide_eq_true hfits
    rw [hsub] at hunique
    refine ⟨rfl, hweight, ?_, hquantized.le.trans htarget.le, ?_, ?_⟩
    · exact (uniqueWithMetadata_le_target htarget hmetadata hunique).trans hquantized.ge
    · intro i' hi'
      cases hi'
      rw [List.getElem?_map, List.getElem?_eq_getElem hlt]
      exact congrArg some hquantized.symm
    · intro hi
      cases hi

def UpperBoundAccepts (targetSizes : List SizeT) (metadataBytes : SizeT) (blockSize : ℕ) : Prop :=
  blockSize ≠ 0 ∧ ¬ ∃ targetSize ∈ targetSizes,
    targetSize = 0 ∨ targetSize.val ≥ blockSize ∨ metadataBytes ≥ targetSize

/-- `evaluateByteSelectUpperBound` once there is a first block. -/
def upperBoundLoop (targetSizes : List SizeT) (metadataBytes : SizeT) (blockSize : ℕ)
    (blocks : List Block) : Except Error UpperBoundEvaluation := do
  throwIf (blockSize = 0) (.invalidArgument "upper-bound blocks must be non-empty")
  throwIf (∃ targetSize ∈ targetSizes, targetSize = 0 ∨ targetSize.val ≥ blockSize ∨
      metadataBytes ≥ targetSize) (.invalidArgument "invalid upper-bound target size")
  blocks.foldlM (upperBoundBlock blockSize)
    (.ofTotals metadataBytes targetSizes (.empty targetSizes.length))

theorem upperBoundLoop_eq_ok {blocks : List Block} {result : UpperBoundEvaluation} :
    upperBoundLoop targetSizes metadataBytes n blocks = .ok result ↔
      UpperBoundAccepts targetSizes metadataBytes n ∧ ∃ entries,
        blocks.mapM (upperBoundEntry targetSizes metadataBytes n) = .ok entries ∧
          result = .ofTotals metadataBytes targetSizes
            ((totals targetSizes.length entries).wrap (2 ^ 64)) := by
  rw [upperBoundLoop, check_bind_eq_ok, check_bind_eq_ok, throwIf_eq_ok, throwIf_eq_ok,
    ← wrap_empty (2 ^ 64), foldlM_book upperBoundBlock_ofTotals, map_eq_ok, UpperBoundAccepts,
    and_assoc]
  rfl

theorem upperBound_books (targetSizes : List SizeT) (metadataBytes : SizeT) (n : ℕ) :
    Books (evaluateByteSelectUpperBound · targetSizes metadataBytes)
      (upperBoundEntry (sortUnique targetSizes) metadataBytes n)
      (UpperBoundEvaluation.ofTotals metadataBytes (sortUnique targetSizes))
      ((sortUnique targetSizes).map Fin.val) n
      (UpperBoundAccepts (sortUnique targetSizes) metadataBytes n) := by
  apply Books.of_front (upperBoundLoop (sortUnique targetSizes) metadataBytes)
  · intro blocks
    rw [List.length_map]
    rfl
  · intro blocks result
    rw [List.length_map]
    exact upperBoundLoop_eq_ok
  · rintro ⟨-, hgood⟩ block hb entry hentry
    refine upperBoundEntry_sound ?_ hb hentry
    intro target htarget
    constructor
    · by_contra hle
      exact hgood ⟨target, htarget, .inr (.inr (Fin.le_def.mpr (not_lt.mp hle)))⟩
    · by_contra hge
      exact hgood ⟨target, htarget, .inr (.inl (not_lt.mp hge))⟩

theorem mergeUpperBound_ofTotals {t u : Totals} (hlen : t.slots.length = u.slots.length) :
    mergeUpperBound (.ofTotals metadataBytes targetSizes t) (.ofTotals metadataBytes targetSizes u) =
      .ok (.ofTotals metadataBytes targetSizes (t.mergeMod (2 ^ 64) u)) := by
  rw [mergeUpperBound, throwIf_neg, ok_bind]
  · rfl
  · rintro (h | h | h)
    · exact h rfl
    · exact h rfl
    · exact h hlen

theorem upperBound_tallies (n : ℕ) (targetSizes : List SizeT) (metadataBytes : SizeT) :
    Tallies (evaluateByteSelectUpperBound · targetSizes metadataBytes) mergeUpperBound
      UpperBoundEvaluation.totals (fun result => result.targetSizes.map Fin.val) n := by
  apply (upperBound_books targetSizes metadataBytes n).tallies
  · exact fun t u hlen => mergeUpperBound_ofTotals hlen
  · intro t ht
    exact ⟨rfl, ht⟩

end UpperBound

section Baseline

variable {libraries : Libraries} {kind : BaselineKind} {targetSizes : List SizeT} {n : ℕ}
  {block : Block}

def baselineEntry (libraries : Libraries) (kind : BaselineKind) (targetSizes : List SizeT)
    (blockSize : ℕ) (block : Block) : Except Error Entry := do
  throwIf (block.length ≠ blockSize)
    (.invalidArgument "baseline blocks have inconsistent sizes")
  let encodedSize ← baselineEncodedSize libraries block kind
  let (allocatedSize, targetIndex) := Baseline.quantizedSize encodedSize blockSize targetSizes 0
  return {
    size := blockSize
    used := encodedSize
    granted := allocatedSize
    slot := if allocatedSize < blockSize then some targetIndex else none }

theorem baselineBlock_ofTotals (t : Totals) (block : Block) :
    baselineBlock libraries kind n (.ofTotals kind targetSizes (t.wrap (2 ^ 64))) block =
      (baselineEntry libraries kind targetSizes n block).map fun entry =>
        .ofTotals kind targetSizes ((t.add entry).wrap (2 ^ 64)) := by
  unfold baselineBlock baselineEntry
  by_cases hb : block.length = n
  · rw [throwIf_neg (not_not.mpr hb), ok_bind, ok_bind]
    cases baselineEncodedSize libraries block kind with
    | error e => rfl
    | ok size =>
      rw [ok_bind, ok_bind]
      dsimp only [BaselineEvaluation.ofTotals]
      generalize Baseline.quantizedSize size n targetSizes 0 = quantized
      obtain ⟨allocated, index⟩ := quantized
      change _ = Except.ok (BaselineEvaluation.ofTotals kind targetSizes ((t.add _).wrap (2 ^ 64)))
      rw [wrap_add]
      by_cases hlt : allocated < n
      · simp only [if_pos hlt]
        rfl
      · have hslotted : t.slotted % 2 ^ 64 = (t.slotted % 2 ^ 64 + 0) % 2 ^ 64 :=
          (Nat.mod_mod _ _).symm
        simp only [if_neg hlt]
        exact congrArg (fun slotted => Except.ok {
          BaselineEvaluation.ofTotals kind targetSizes (((t.wrap (2 ^ 64)).addMod (2 ^ 64)
            { size := n, used := size, granted := allocated, slot := none }))
          with compressedBlocks := slotted }) hslotted
  · rw [throwIf, if_pos hb]
    rfl

theorem baselineEntry_sound (htargets : ∀ target ∈ targetSizes, target.val < n) {entry : Entry}
    (hb : block.length = n) (h : baselineEntry libraries kind targetSizes n block = .ok entry) :
    Sound (targetSizes.map Fin.val) n entry := by
  rw [baselineEntry, throwIf_neg (not_not.mpr hb), ok_bind] at h
  obtain ⟨size, hsize, hentry⟩ := bind_eq_ok.mp h
  have hle := baselineEncodedSize_le hsize
  rw [hb] at hle
  have hcases := quantizedSize_cases size n targetSizes 0
  generalize Baseline.quantizedSize size n targetSizes 0 = quantized at hentry hcases
  obtain ⟨allocated, index⟩ := quantized
  cases hentry
  rcases hcases with hraw | ⟨target, htarget, hgranted, hfits⟩
  · have hslot : (if allocated < n then some index else none) = none := if_neg hraw.not_lt
    refine ⟨rfl, Nat.zero_le _, hle.trans hraw.ge, hraw.le, ?_, fun _ => hraw⟩
    intro i hi
    cases hslot.symm.trans hi
  · have hlt : allocated < n :=
      hgranted.trans_lt (htargets target (List.mem_of_getElem? htarget))
    have hslot : (if allocated < n then some index else none) = some index := if_pos hlt
    refine ⟨rfl, Nat.zero_le _, hfits.trans hgranted.ge, hlt.le, ?_, ?_⟩
    · intro i hi
      cases hslot.symm.trans hi
      rw [List.getElem?_map]
      exact (congrArg (Option.map Fin.val) htarget).trans (congrArg some hgranted.symm)
    · intro hi
      cases hslot.symm.trans hi

def BaselineAccepts (targetSizes : List SizeT) (blockSize : ℕ) : Prop :=
  blockSize ≠ 0 ∧ ¬ targetSizes.any fun targetSize => targetSize = 0 ∨ targetSize.val ≥ blockSize

/-- `evaluateBaseline` once there is a first block. -/
def baselineLoop (libraries : Libraries) (kind : BaselineKind) (targetSizes : List SizeT)
    (blockSize : ℕ) (blocks : List Block) : Except Error BaselineEvaluation := do
  throwIf (blockSize = 0) (.invalidArgument "baseline blocks must be non-empty")
  throwIf (targetSizes.any fun targetSize => targetSize = 0 ∨ targetSize.val ≥ blockSize)
    (.invalidArgument "baseline target must be smaller than block size")
  blocks.foldlM (baselineBlock libraries kind blockSize)
    (.ofTotals kind targetSizes (.empty targetSizes.length))

theorem baselineLoop_eq_ok {blocks : List Block} {result : BaselineEvaluation} :
    baselineLoop libraries kind targetSizes n blocks = .ok result ↔
      BaselineAccepts targetSizes n ∧ ∃ entries,
        blocks.mapM (baselineEntry libraries kind targetSizes n) = .ok entries ∧
          result = .ofTotals kind targetSizes
            ((totals targetSizes.length entries).wrap (2 ^ 64)) := by
  rw [baselineLoop, check_bind_eq_ok, check_bind_eq_ok, throwIf_eq_ok, throwIf_eq_ok,
    ← wrap_empty (2 ^ 64), foldlM_book baselineBlock_ofTotals, map_eq_ok, BaselineAccepts,
    and_assoc]
  rfl

theorem baseline_books (libraries : Libraries) (kind : BaselineKind) (targetSizes : List SizeT)
    (n : ℕ) :
    Books (evaluateBaseline libraries · kind targetSizes)
      (baselineEntry libraries kind (sortUnique targetSizes) n)
      (BaselineEvaluation.ofTotals kind (sortUnique targetSizes))
      ((sortUnique targetSizes).map Fin.val) n (BaselineAccepts (sortUnique targetSizes) n) := by
  apply Books.of_front (baselineLoop libraries kind (sortUnique targetSizes))
  · intro blocks
    rw [List.length_map]
    rfl
  · intro blocks result
    rw [List.length_map]
    exact baselineLoop_eq_ok
  · rintro ⟨-, hgood⟩ block hb entry hentry
    refine baselineEntry_sound ?_ hb hentry
    intro target htarget
    by_contra hge
    exact hgood (List.any_eq_true.mpr ⟨target, htarget, decide_eq_true (.inr (not_lt.mp hge))⟩)

theorem mergeBaselineEvaluation_ofTotals {t u : Totals} (hlen : t.slots.length = u.slots.length) :
    mergeBaselineEvaluation (.ofTotals kind targetSizes t) (.ofTotals kind targetSizes u) =
      .ok (.ofTotals kind targetSizes (t.mergeMod (2 ^ 64) u)) := by
  rw [mergeBaselineEvaluation, throwIf_neg, ok_bind]
  · rfl
  · rintro (h | h | h)
    · exact h rfl
    · exact h rfl
    · exact h hlen

theorem baseline_tallies (libraries : Libraries) (n : ℕ) (kind : BaselineKind)
    (targetSizes : List SizeT) :
    Tallies (evaluateBaseline libraries · kind targetSizes) mergeBaselineEvaluation
      BaselineEvaluation.totals (fun result => result.targetSizes.map Fin.val) n := by
  apply (baseline_books libraries kind targetSizes n).tallies
  · exact fun t u hlen => mergeBaselineEvaluation_ofTotals hlen
  · intro t ht
    exact ⟨rfl, ht.slots_length, ht.slotted_eq, ht.slotted_le, ht.granted_eq, Nat.zero_le _,
      ht.used_le, ht.granted_le, ht.size_eq⟩

end Baseline

/-- Each evaluation accounts for its blocks and bytes, and its merge evaluates both lists. -/
theorem evaluations_tally (libraries : Libraries) (n : ℕ) :
    (∀ model, validateModel model = .ok () →
      Tallies (evaluate · model) mergeEvaluation Evaluation.totals (fun _ => model.targets) n) ∧
    (∀ targetSizes metadataBytes,
      Tallies (evaluateByteSelectUpperBound · targetSizes metadataBytes) mergeUpperBound
        UpperBoundEvaluation.totals (fun result => result.targetSizes.map Fin.val) n) ∧
    (∀ kind targetSizes,
      Tallies (evaluateBaseline libraries · kind targetSizes) mergeBaselineEvaluation
        BaselineEvaluation.totals (fun result => result.targetSizes.map Fin.val) n) := by
  refine ⟨?_, upperBound_tallies n, baseline_tallies libraries n⟩
  intro model hv
  exact evaluate_tallies (validateModel_iff.mp hv) n

/-- What the compressors write for a few bytes: a header and the bytes. -/
def shortLibraries : Libraries where
  zstdCompress block := .ok ([0x28, 0xb5, 0x2f, 0xfd, 0x20, toByte block.length,
    toByte (8 * block.length + 1), 0, 0] ++ block)
  lz4Compress block := toByte (16 * block.length) :: block

def shortBlocks : BlockVector := ⟨[[7, 7, 9, 7], [1, 2, 3, 4]], by decide, by decide⟩
def shortFront : BlockVector := ⟨[[7, 7, 9, 7]], by decide, by decide⟩
def shortBack : BlockVector := ⟨[[1, 2, 3, 4]], by decide, by decide⟩

theorem evaluations_tally_short :
    (∃ a b c, evaluate shortFront taggedModel = .ok a ∧ evaluate shortBack taggedModel = .ok b ∧
      evaluate shortBlocks taggedModel = .ok c ∧ mergeEvaluation a b = .ok c ∧
      c.totals.Conserved taggedModel.targets 4) ∧
    (∃ a b c, evaluateByteSelectUpperBound shortFront [2] 1 = .ok a ∧
      evaluateByteSelectUpperBound shortBack [2] 1 = .ok b ∧
      evaluateByteSelectUpperBound shortBlocks [2] 1 = .ok c ∧ mergeUpperBound a b = .ok c ∧
      c.totals.Conserved (c.targetSizes.map Fin.val) 4) ∧
    (∃ a b c, evaluateBaseline shortLibraries shortFront .lz4 [2] = .ok a ∧
      evaluateBaseline shortLibraries shortBack .lz4 [2] = .ok b ∧
      evaluateBaseline shortLibraries shortBlocks .lz4 [2] = .ok c ∧
      mergeBaselineEvaluation a b = .ok c ∧ c.totals.Conserved (c.targetSizes.map Fin.val) 4) := by
  obtain ⟨hevaluate, hupper, hbaseline⟩ := evaluations_tally shortLibraries 4
  refine ⟨?_, ?_, ?_⟩
  · exact (hevaluate taggedModel (by decide)).exists_merged rfl (by decide)
      (exists_eq_ok (by decide +kernel)) (exists_eq_ok (by decide +kernel))
  · have haccepts : UpperBoundAccepts [2] 1 4 := by
      refine ⟨by decide, ?_⟩
      rintro ⟨target, htarget, hbad⟩
      cases List.mem_singleton.mp htarget
      revert hbad
      decide
    have hbooks := upperBound_books [2] 1 4
    exact (hupper [2] 1).exists_merged rfl (by decide)
      ⟨_, (hbooks.run _ (by decide) _).mpr ⟨fun _ => haccepts, _, rfl, rfl⟩⟩
      ⟨_, (hbooks.run _ (by decide) _).mpr ⟨fun _ => haccepts, _, rfl, rfl⟩⟩
  · exact (hbaseline .lz4 [2]).exists_merged rfl (by decide)
      (exists_eq_ok (by decide +kernel)) (exists_eq_ok (by decide +kernel))

end ByteSelect
