import ByteSelect.CodecExact
import Mathlib.Data.List.Destutter

/-! Evaluation of a model over a list of blocks, and the bound that counting distinct bytes
gives without any model. -/
namespace ByteSelect

/-- Blocks that are in memory together: their bytes have distinct 64-bit addresses. -/
structure BlockVector where
  toList : List Block
  size_lt : toList.length < 2 ^ 63
  bytes_lt : (toList.map List.length).sum < 2 ^ 64

/-- `+=` on a `std::uint64_t`. -/
def addU64 (a b : ℕ) : ℕ := (a + b) % 2 ^ 64

structure Evaluation where
  blocks : ℕ := 0
  originalBytes : ℕ := 0
  encodedBytes : ℕ := 0
  allocatedBytes : ℕ := 0
  compressedBlocks : ℕ := 0
  setBlocks : List ℕ := []

structure UpperBoundEvaluation where
  blocks : ℕ := 0
  originalBytes : ℕ := 0
  uniqueBytes : ℕ := 0
  uniqueWithMetadataBytes : ℕ := 0
  quantizedBytes : ℕ := 0
  compressedBlocks : ℕ := 0
  metadataBytes : SizeT := 0
  targetSizes : List SizeT := []
  targetBlocks : List ℕ := []

/-- One turn of the loop of `evaluate`. -/
def evaluateBlock (model : Model) (result : Evaluation) (block : Block) :
    Except Error Evaluation := do
  let encoded ← compress block model
  return {
    blocks := addU64 result.blocks 1
    originalBytes := addU64 result.originalBytes block.length
    encodedBytes := addU64 result.encodedBytes encoded.encodedSize
    allocatedBytes := addU64 result.allocatedBytes encoded.allocatedSize
    compressedBlocks := addU64 result.compressedBlocks (if encoded.compressed then 1 else 0)
    setBlocks := if encoded.compressed
      then result.setBlocks.modify encoded.setIndex (addU64 · 1) else result.setBlocks }

def evaluate (blocks : BlockVector) (model : Model) : Except Error Evaluation :=
  blocks.toList.foldlM (evaluateBlock model)
    { setBlocks := List.replicate model.sets.length 0 }

/-- `std::sort`, then `std::unique` and `erase`. -/
def sortUnique (targetSizes : List SizeT) : List SizeT :=
  (targetSizes.insertionSort (· ≤ ·)).destutter (· ≠ ·)

def uniqueWithMetadata (blockSize metadataBytes unique : ℕ) : ℕ :=
  if unique > blockSize - min metadataBytes blockSize then blockSize
  else min blockSize (unique + metadataBytes)

/-- The index of the first target that holds the distinct bytes. -/
def fittingTarget (targetSizes : List SizeT) (metadataBytes : SizeT) (unique : ℕ) : Option ℕ :=
  targetSizes.findIdx? fun targetSize => unique ≤ (targetSize - metadataBytes).val

/-- `allocated` after the loop over the targets. -/
def quantizedSize (blockSize : ℕ) (targetSizes : List SizeT) (metadataBytes : SizeT)
    (unique : ℕ) : ℕ :=
  match fittingTarget targetSizes metadataBytes unique with
  | some i => (targetSizes.getD i 0).val
  | none => blockSize

/-- One turn of the loop over the blocks. -/
def upperBoundBlock (blockSize : ℕ) (result : UpperBoundEvaluation) (block : Block) :
    Except Error UpperBoundEvaluation := do
  throwIf (block.length ≠ blockSize)
    (.invalidArgument "upper-bound blocks have inconsistent sizes")
  let unique := (Pattern.simplest block).rank
  let fitting := fittingTarget result.targetSizes result.metadataBytes unique
  return {
    blocks := addU64 result.blocks 1
    originalBytes := addU64 result.originalBytes blockSize
    uniqueBytes := addU64 result.uniqueBytes unique
    uniqueWithMetadataBytes := addU64 result.uniqueWithMetadataBytes
      (uniqueWithMetadata blockSize result.metadataBytes unique)
    quantizedBytes := addU64 result.quantizedBytes
      (quantizedSize blockSize result.targetSizes result.metadataBytes unique)
    compressedBlocks := addU64 result.compressedBlocks (if fitting.isSome then 1 else 0)
    metadataBytes := result.metadataBytes
    targetSizes := result.targetSizes
    targetBlocks := match fitting with
      | some i => result.targetBlocks.modify i (addU64 · 1)
      | none => result.targetBlocks }

def evaluateByteSelectUpperBound (blocks : BlockVector) (targetSizes : List SizeT)
    (metadataBytes : SizeT) : Except Error UpperBoundEvaluation :=
  let targetSizes := sortUnique targetSizes
  let result : UpperBoundEvaluation := {
    metadataBytes := metadataBytes
    targetSizes := targetSizes
    targetBlocks := List.replicate targetSizes.length 0 }
  match blocks.toList with
  | [] => return result
  | front :: _ => do
    let blockSize := front.length
    throwIf (blockSize = 0) (.invalidArgument "upper-bound blocks must be non-empty")
    throwIf (∃ targetSize ∈ targetSizes, targetSize = 0 ∨ targetSize.val ≥ blockSize ∨
        metadataBytes ≥ targetSize) (.invalidArgument "invalid upper-bound target size")
    blocks.toList.foldlM (upperBoundBlock blockSize) result

variable {model : Model} {block : Block} {blocks : List Block} {m : SizeT}
  {e : Evaluation} {u : UpperBoundEvaluation}

/-! One block. -/

theorem mem_destutter' {α : Type} [DecidableEq α] {x a : α} {l : List α} (h : x ∈ a :: l) :
    x ∈ l.destutter' (· ≠ ·) a := by
  induction l generalizing a with
  | nil => exact h
  | cons b l ih =>
    by_cases hab : a = b
    · rw [List.destutter'_cons_neg _ (not_not.mpr hab)]
      apply ih
      subst hab
      rwa [List.mem_cons, List.mem_cons, or_self_left, ← List.mem_cons] at h
    · rw [List.destutter'_cons_pos _ hab]
      rcases List.mem_cons.mp h with rfl | hx
      · exact List.mem_cons_self
      · exact List.mem_cons_of_mem a (ih hx)

theorem mem_sortUnique {targetSizes : List SizeT} {t : SizeT} :
    t ∈ sortUnique targetSizes ↔ t ∈ targetSizes := by
  rw [← @List.mem_insertionSort _ (· ≤ ·) _ targetSizes t, sortUnique]
  constructor
  · intro h
    exact (List.destutter_sublist _ _).subset h
  · intro h
    cases hsort : targetSizes.insertionSort (· ≤ ·) with
    | nil =>
      rw [hsort] at h
      cases h
    | cons a l =>
      rw [hsort] at h
      exact mem_destutter' h

theorem sortUnique_sorted (targetSizes : List SizeT) :
    (sortUnique targetSizes).Pairwise (· ≤ ·) :=
  (List.pairwise_insertionSort _ _).sublist (List.destutter_sublist _ _)

/-- The first target that fits is the smallest one. -/
theorem fittingTarget_le {targetSizes : List SizeT} (hsorted : targetSizes.Pairwise (· ≤ ·))
    {t : SizeT} (ht : t ∈ targetSizes) {unique : ℕ} (hfit : unique ≤ (t - m).val) :
    ∃ i, fittingTarget targetSizes m unique = some i ∧ targetSizes.getD i 0 ≤ t := by
  induction targetSizes with
  | nil => cases ht
  | cons t₀ targetSizes ih =>
    obtain ⟨hfirst, hrest⟩ := List.pairwise_cons.mp hsorted
    rw [fittingTarget, List.findIdx?_cons]
    by_cases h₀ : unique ≤ (t₀ - m).val
    · refine ⟨0, if_pos (decide_eq_true h₀), ?_⟩
      rcases List.mem_cons.mp ht with rfl | ht
      · exact le_rfl
      · exact hfirst t ht
    · rcases List.mem_cons.mp ht with rfl | ht
      · exact absurd hfit h₀
      · obtain ⟨i, hi, hle⟩ := ih hrest ht
        rw [fittingTarget] at hi
        refine ⟨i + 1, ?_, hle⟩
        rw [if_neg (by simpa using h₀), hi]
        rfl

theorem quantizedSize_le {blockSize unique : ℕ} {targetSizes : List SizeT}
    (h : ∀ t ∈ targetSizes, t.val ≤ blockSize) :
    quantizedSize blockSize targetSizes m unique ≤ blockSize := by
  unfold quantizedSize
  split
  · rename_i i hi
    obtain ⟨hlt, -⟩ := List.findIdx?_eq_some_iff_getElem.mp hi
    rw [List.getD_eq_getElem?_getD, List.getElem?_eq_getElem hlt]
    exact h _ (List.getElem_mem hlt)
  · exact le_rfl

theorem rank_simplest_le_length (block : Block) : (Pattern.simplest block).rank ≤ block.length := by
  rw [Pattern.rank_eq_distinct, ← Pattern.size_simplest block]
  exact Pattern.distinct_le_length _

theorem uniqueWithMetadata_le (blockSize metadataBytes unique : ℕ) :
    uniqueWithMetadata blockSize metadataBytes unique ≤ blockSize := by
  unfold uniqueWithMetadata
  split
  · exact le_rfl
  · exact min_le_left _ _

theorem le_uniqueWithMetadata {blockSize unique : ℕ} (h : unique ≤ blockSize) (metadataBytes : ℕ) :
    unique ≤ uniqueWithMetadata blockSize metadataBytes unique := by
  unfold uniqueWithMetadata
  split
  · exact h
  · exact le_min h (Nat.le_add_right _ _)

/-- What both evaluations charge for a block. -/
structure Charges (model : Model) (m : SizeT) (block : Block) (encoded : EncodedBlock) : Prop where
  unique_le : (Pattern.simplest block).rank ≤
    uniqueWithMetadata model.blockSize m (Pattern.simplest block).rank
  encoded_ge : uniqueWithMetadata model.blockSize m (Pattern.simplest block).rank ≤
    encoded.encodedSize
  encoded_le : encoded.encodedSize ≤ model.blockSize.val
  allocated_ge : quantizedSize model.blockSize (sortUnique (model.sets.map PatternSet.targetSize)) m
    (Pattern.simplest block).rank ≤ encoded.allocatedSize
  allocated_le : encoded.allocatedSize ≤ model.blockSize.val
  compressed_le : encoded.compressed = true → (fittingTarget
    (sortUnique (model.sets.map PatternSet.targetSize)) m (Pattern.simplest block).rank).isSome

/-- No pattern that describes a block has fewer symbols than the block has distinct bytes. -/
theorem Selection.charges (hv : ValidModel model) (hm : ∀ set ∈ model.sets, m ≤ set.metadataBytes)
    (hb : block.length = model.blockSize.val) {encoded : EncodedBlock}
    (h : Selection model block encoded) : Charges model m block encoded := by
  have hrank := rank_simplest_le_length block
  rw [hb] at hrank
  have hunique := le_uniqueWithMetadata hrank m
  have hwith := uniqueWithMetadata_le model.blockSize m (Pattern.simplest block).rank
  have hsorted := sortUnique_sorted (model.sets.map PatternSet.targetSize)
  cases h with
  | raw hnone =>
    have hquantized : quantizedSize model.blockSize
        (sortUnique (model.sets.map PatternSet.targetSize)) m (Pattern.simplest block).rank ≤
        model.blockSize.val := by
      apply quantizedSize_le
      intro t ht
      obtain ⟨set, hset, rfl⟩ := List.mem_map.mp (mem_sortUnique.mp ht)
      exact (hv.sets_valid set hset).target_lt.le
    exact ⟨hunique, hwith.trans hb.ge, hb.le, hquantized.trans hb.ge, hb.le, nofun⟩
  | @pattern set setIndex j p metadata hset hleast hp hd hfirst hmeta =>
    have hmem := List.mem_of_getElem? hset
    have hvs := hv.sets_valid set hmem
    have hmset := Fin.le_def.mp (hm set hmem)
    have hlt := hvs.metadata_lt
    have hprank := hvs.rank_le p (List.mem_of_getElem? hp)
    have hle : (Pattern.simplest block).rank ≤ p.rank := by
      obtain ⟨hsize, hleq⟩ := Pattern.describes_iff_simplest_leq.mp hd
      exact Pattern.rank_le_of_leq ((Pattern.size_simplest block).trans hsize.symm) hleq
    have hsub : (set.targetSize - m).val = set.targetSize.val - m.val :=
      Fin.sub_val_of_le (by rw [Fin.le_def]; omega)
    have htarget : set.targetSize ∈ sortUnique (model.sets.map PatternSet.targetSize) :=
      mem_sortUnique.mpr (List.mem_map_of_mem hmem)
    obtain ⟨i, hi, hfit⟩ := fittingTarget_le hsorted htarget
      (show (Pattern.simplest block).rank ≤ (set.targetSize - m).val by omega)
    have htlt := hvs.target_lt
    refine ⟨hunique, ?_, ?_, ?_, htlt.le, fun _ => by rw [hi]; rfl⟩
    · change _ ≤ set.metadataBytes.val + p.rank
      rw [uniqueWithMetadata, if_neg (by omega)]
      omega
    · change set.metadataBytes.val + p.rank ≤ _
      omega
    · rw [quantizedSize, hi]
      exact hfit

/-! Lists of blocks. -/

theorem addU64_eq {a b : ℕ} (h : a + b < 2 ^ 64) : addU64 a b = a + b := Nat.mod_eq_of_lt h

theorem addU64_le_addU64 {a b c d : ℕ} (hab : a ≤ b) (hcd : c ≤ d) (hlt : b + d < 2 ^ 64) :
    addU64 a c ≤ addU64 b d := by
  rw [addU64_eq hlt, addU64_eq ((Nat.add_le_add hab hcd).trans_lt hlt)]
  exact Nat.add_le_add hab hcd

/-- The two evaluations after `n` blocks. -/
structure Bounded (model : Model) (m : SizeT) (n : ℕ) (u : UpperBoundEvaluation) (e : Evaluation) :
    Prop where
  metadata_eq : u.metadataBytes = m
  targets_eq : u.targetSizes = sortUnique (model.sets.map PatternSet.targetSize)
  unique_le : u.uniqueBytes ≤ u.uniqueWithMetadataBytes
  with_le : u.uniqueWithMetadataBytes ≤ e.encodedBytes
  encoded_le : e.encodedBytes ≤ n * model.blockSize.val
  quantized_le : u.quantizedBytes ≤ e.allocatedBytes
  allocated_le : e.allocatedBytes ≤ n * model.blockSize.val
  compressed_le : e.compressedBlocks ≤ u.compressedBlocks
  blocks_le : u.compressedBlocks ≤ n

/-- One turn of both loops. -/
theorem Bounded.step (hv : ValidModel model) (hm : ∀ set ∈ model.sets, m ≤ set.metadataBytes)
    (hb : block.length = model.blockSize.val) {n : ℕ} (h : Bounded model m n u e)
    (hn : (n + 1) * model.blockSize.val < 2 ^ 64) : ∃ u' e',
      upperBoundBlock model.blockSize u block = .ok u' ∧ evaluateBlock model e block = .ok e' ∧
      Bounded model m (n + 1) u' e' := by
  obtain ⟨encoded, hcompress, hselect⟩ := compress_selection hv hb
  obtain ⟨hunique, hencoded, hencodedLe, hallocated, hallocatedLe, hcompressed⟩ :=
    hselect.charges hv hm hb
  have hpos := hv.block_pos
  have hcount : n + 1 < 2 ^ 64 := (Nat.le_mul_of_pos_right _ hpos).trans_lt hn
  rw [Nat.succ_mul] at hn
  obtain ⟨hm₀, ht₀, hunique₀, hwith₀, hencoded₀, hquantized₀, hallocated₀, hcompressed₀,
    hblocks₀⟩ := h
  have hflag : (if encoded.compressed = true then 1 else 0) ≤ (if (fittingTarget
      (sortUnique (model.sets.map PatternSet.targetSize)) m (Pattern.simplest block).rank).isSome
        = true then 1 else 0) := by
    split
    · rw [if_pos (hcompressed ‹_›)]
    · exact Nat.zero_le _
  have hflagLe : (if (fittingTarget (sortUnique (model.sets.map PatternSet.targetSize)) m
      (Pattern.simplest block).rank).isSome = true then 1 else 0) ≤ 1 := by
    split
    · exact le_rfl
    · exact Nat.zero_le _
  refine ⟨_, _, by rw [upperBoundBlock, throwIf_neg (not_not.mpr hb), ok_bind]; rfl,
    by rw [evaluateBlock, hcompress, ok_bind]; rfl, ?_⟩
  refine ⟨hm₀, ht₀, ?_, ?_, ?_, ?_, ?_, ?_, ?_⟩ <;> dsimp only
  · rw [hm₀]
    exact addU64_le_addU64 hunique₀ hunique (by omega)
  · rw [hm₀]
    exact addU64_le_addU64 hwith₀ hencoded (by omega)
  · rw [addU64_eq (by omega), Nat.succ_mul]
    exact Nat.add_le_add hencoded₀ hencodedLe
  · rw [hm₀, ht₀]
    exact addU64_le_addU64 hquantized₀ hallocated (by omega)
  · rw [addU64_eq (by omega), Nat.succ_mul]
    exact Nat.add_le_add hallocated₀ hallocatedLe
  · rw [hm₀, ht₀]
    exact addU64_le_addU64 hcompressed₀ hflag (by omega)
  · rw [hm₀, ht₀, addU64_eq (by omega)]
    exact Nat.add_le_add hblocks₀ hflagLe

/-- Both loops over the rest of the blocks. -/
theorem Bounded.run (hv : ValidModel model) (hm : ∀ set ∈ model.sets, m ≤ set.metadataBytes)
    (hb : ∀ block ∈ blocks, block.length = model.blockSize.val) {n : ℕ} (h : Bounded model m n u e)
    (hn : (n + blocks.length) * model.blockSize.val < 2 ^ 64) : ∃ u' e',
      blocks.foldlM (upperBoundBlock model.blockSize) u = .ok u' ∧
      blocks.foldlM (evaluateBlock model) e = .ok e' ∧
      Bounded model m (n + blocks.length) u' e' := by
  induction blocks generalizing n u e with
  | nil => exact ⟨u, e, rfl, rfl, h⟩
  | cons block blocks ih =>
    rw [List.forall_mem_cons] at hb
    have hlen : n + (block :: blocks).length = n + 1 + blocks.length := by
      rw [List.length_cons]
      omega
    have hnext : (n + 1) * model.blockSize.val < 2 ^ 64 :=
      (Nat.mul_le_mul_right _ (by omega)).trans_lt hn
    obtain ⟨u₁, e₁, hu, he, hstep⟩ := h.step hv hm hb.1 hnext
    obtain ⟨u', e', hu', he', hrun⟩ := ih hb.2 hstep (hlen ▸ hn)
    refine ⟨u', e', ?_, ?_, hlen ▸ hrun⟩
    · rw [List.foldlM_cons, hu, ok_bind, hu']
    · rw [List.foldlM_cons, he, ok_bind, he']

/-- The targets of a valid model pass the check of the arguments. -/
theorem targets_accepted (hv : ValidModel model) (hm : ∀ set ∈ model.sets, m ≤ set.metadataBytes) :
    ¬ ∃ targetSize ∈ sortUnique (model.sets.map PatternSet.targetSize),
      targetSize = 0 ∨ targetSize.val ≥ model.blockSize.val ∨ m ≥ targetSize := by
  rintro ⟨t, ht, hbad⟩
  obtain ⟨set, hset, rfl⟩ := List.mem_map.mp (mem_sortUnique.mp ht)
  have hvs := hv.sets_valid set hset
  have hmset := Fin.le_def.mp (hm set hset)
  have hmlt := hvs.metadata_lt
  have htlt := hvs.target_lt
  rcases hbad with h0 | hge | hge
  · rw [h0] at hmlt
    exact absurd hmlt (Nat.not_lt_zero _)
  · omega
  · have := Fin.le_def.mp hge
    omega

/-- Counting distinct bytes bounds every model from below. -/
theorem upper_bound_bounds {model : Model} (hv : validateModel model = .ok ())
    (blocks : BlockVector) (hb : ∀ block ∈ blocks.toList, block.length = model.blockSize.val)
    (m : SizeT) (hm : ∀ set ∈ model.sets, m ≤ set.metadataBytes) :
    ∃ u e, evaluateByteSelectUpperBound blocks (model.sets.map PatternSet.targetSize) m = .ok u ∧
      evaluate blocks model = .ok e ∧ u.uniqueBytes ≤ u.uniqueWithMetadataBytes ∧
      u.uniqueWithMetadataBytes ≤ e.encodedBytes ∧ u.quantizedBytes ≤ e.allocatedBytes ∧
      e.compressedBlocks ≤ u.compressedBlocks := by
  have hv := validateModel_iff.mp hv
  have hstart : Bounded model m 0
      { metadataBytes := m
        targetSizes := sortUnique (model.sets.map PatternSet.targetSize)
        targetBlocks :=
          List.replicate (sortUnique (model.sets.map PatternSet.targetSize)).length 0 }
      { setBlocks := List.replicate model.sets.length 0 } :=
    ⟨rfl, rfl, le_rfl, le_rfl, Nat.zero_le _, le_rfl, Nat.zero_le _, le_rfl, le_rfl⟩
  have hsum : (blocks.toList.map List.length).sum = blocks.toList.length * model.blockSize.val := by
    rw [List.map_congr_left hb, List.map_const', List.sum_replicate_nat]
  have hbytes := blocks.bytes_lt
  rw [hsum, ← Nat.zero_add blocks.toList.length] at hbytes
  obtain ⟨u, e, hu, he, h⟩ := hstart.run hv hm hb hbytes
  refine ⟨u, e, ?_, he, h.unique_le, h.with_le, h.quantized_le, h.compressed_le⟩
  rw [evaluateByteSelectUpperBound]
  cases hlist : blocks.toList with
  | nil =>
    rw [hlist] at hu
    exact hu
  | cons front rest =>
    have hfront : front.length = model.blockSize.val := hb front (hlist ▸ List.mem_cons_self)
    have hpos := hv.block_pos
    rw [hlist] at hu
    dsimp only
    rw [hfront, throwIf_neg (by omega), ok_bind, throwIf_neg (targets_accepted hv hm), ok_bind]
    exact hu

theorem taggedModel_upper_bound_bounds :
    ∃ u e, evaluateByteSelectUpperBound ⟨[[7, 7, 9, 7], [1, 2, 3, 4]], by decide, by decide⟩
        (taggedModel.sets.map PatternSet.targetSize) 1 = .ok u ∧
      evaluate ⟨[[7, 7, 9, 7], [1, 2, 3, 4]], by decide, by decide⟩ taggedModel = .ok e ∧
      u.uniqueBytes ≤ u.uniqueWithMetadataBytes ∧ u.uniqueWithMetadataBytes ≤ e.encodedBytes ∧
      u.quantizedBytes ≤ e.allocatedBytes ∧ e.compressedBlocks ≤ u.compressedBlocks :=
  upper_bound_bounds (by decide) _ (by decide) 1 (by decide)

end ByteSelect
