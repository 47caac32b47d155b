import ByteSelect.FpcBsel.CodecExact
import ByteSelect.PackedBytes

/-! Model files: every accepted file is the one that its model is saved as. -/
namespace FpcBsel

open ByteSelect ByteStream PackedBytes

/-! Writing. -/

def writeU32 (value : ℕ) : Bytes := (List.range 4).map fun i => toByte (value >>> (8 * i))

/-- The loop of `write_set` over the patterns. -/
def writePatterns (blockSize : ℕ) : List Pattern → Except Error Bytes
  | [] => .ok []
  | pattern :: patterns => do
    throwIf (pattern.symbols.length ≠ blockSize) (.invalidArgument "invalid model pattern")
    let rest ← writePatterns blockSize patterns
    return pattern.symbols ++ rest

def writeSet (set : BselModel) : Except Error Bytes := do
  let patterns ← writePatterns set.blockSize set.patterns
  return writeU32 set.blockSize ++ writeU32 set.patterns.length ++ patterns

/-- The text `FPCBSEL1`. -/
def modelMagic : Bytes := [70, 80, 67, 66, 83, 69, 76, 49]

/-- What `save_model` throws, or the bytes of its file. -/
def saveModel (model : Model) : Except Error Bytes := do
  let prefixSet ← writeSet model.prefixModel
  let residual ← writeSet model.residual
  return modelMagic ++ writeU32 1 ++ prefixSet ++ residual

/-! Reading. -/

abbrev ModelReader := ByteStream.Reader Byte Error

/-- The loop of `read_u32` from byte `i` on, with `n` bytes to go. -/
def readU32From (i value : ℕ) : ℕ → ModelReader ℕ
  | 0 => pure value
  | n + 1 => do
    match ← ByteStream.get with
    | none => (.error (.runtimeError "truncated model") : Except Error ℕ)
    | some c => readU32From (i + 1) (value ||| c.val <<< (8 * i)) n

def readU32 : ModelReader ℕ := readU32From 0 0 4

def readPattern (blockSize : ℕ) : ModelReader Pattern := do
  let symbols ← read 0 blockSize
  let bad ← failed
  throwIf (bad = true) (.runtimeError "truncated model pattern")
  throwIf (∃ symbol ∈ symbols, symbol.val ≥ Pattern.rank ⟨symbols⟩)
    (.runtimeError "invalid pattern symbol")
  return ⟨symbols⟩

/-- The loop of `read_set` over `n` patterns. -/
def readPatterns (blockSize : ℕ) : ℕ → ModelReader (List Pattern)
  | 0 => pure []
  | n + 1 => do
    let pattern ← readPattern blockSize
    let patterns ← readPatterns blockSize n
    return pattern :: patterns

def readSet : ModelReader BselModel := do
  let blockSize ← readU32
  let count ← readU32
  throwIf (blockSize = 0 ∨ blockSize > 64 ∨ count > 65535)
    (.runtimeError "invalid model dimensions")
  let patterns ← readPatterns blockSize count
  return { blockSize := blockSize, patterns := patterns }

/-- `load_model` up to the look at what follows the sets. -/
def readModel : ModelReader Model := do
  let magic ← read 0 8
  let bad ← failed
  throwIf (bad = true ∨ magic ≠ modelMagic) (.runtimeError "unsupported FPC-BSEL model")
  let version ← readU32
  throwIf (version ≠ 1) (.runtimeError "unsupported FPC-BSEL model")
  let prefixModel ← readSet
  let residual ← readSet
  throwIf (prefixModel.blockSize ≠ kWordCount ∨ residual.blockSize ≠ kBlockSize)
    (.runtimeError "model has incorrect block dimensions")
  return { prefixModel := prefixModel, residual := residual }

def loadModel (bytes : Bytes) : Except Error Model := do
  let (model, input) ← readModel ⟨bytes, false⟩
  throwIf (peek input ≠ none) (.runtimeError "trailing data in model")
  return model

/-! Numbers. -/

theorem writeU32_eq (value : ℕ) : writeU32 value = unpack value 4 := by
  have hbyte : ∀ i, toByte (value >>> (8 * i)) = Fin.ofNat _ (value / 2 ^ (8 * i)) := by
    intro i
    rw [toByte, Nat.shiftRight_eq_div_pow]
  change [toByte (value >>> (8 * 0)), toByte (value >>> (8 * 1)), toByte (value >>> (8 * 2)),
    toByte (value >>> (8 * 3))] = _
  simp only [hbyte, unpack, Nat.div_div_eq_div_mul]
  norm_num

/-- What is known of the value once `t` has been read. -/
theorem or_pack {value i : ℕ} (h : value < 2 ^ (8 * i)) (c : Byte) (t : Bytes) :
    value ||| c.val <<< (8 * i) < 2 ^ (8 * (i + 1)) ∧
      (value ||| c.val <<< (8 * i)) + 2 ^ (8 * (i + 1)) * pack t =
        value + 2 ^ (8 * i) * pack (c :: t) := by
  have hc : c.val < 2 ^ 8 := c.isLt
  have hpow : 2 ^ (8 * (i + 1)) = 2 ^ (8 * i) * 2 ^ 8 := by
    rw [Nat.mul_add, Nat.pow_add]
  rw [BitStream.or_shiftLeft _ h, hpow, pack]
  constructor
  · calc value + 2 ^ (8 * i) * c.val
        < 2 ^ (8 * i) + 2 ^ (8 * i) * c.val := Nat.add_lt_add_right h _
      _ = 2 ^ (8 * i) * (c.val + 1) := by ring
      _ ≤ 2 ^ (8 * i) * 2 ^ 8 := Nat.mul_le_mul_left _ hc
  · ring

theorem consumes_readU32From {i value : ℕ} (h : value < 2 ^ (8 * i)) (n : ℕ) :
    Consumes (readU32From i value n) fun v t =>
      t.length = n ∧ v = value + 2 ^ (8 * i) * pack t := by
  induction n generalizing i value with
  | zero => exact consumes_pure ⟨rfl, rfl⟩
  | succ n ih =>
    refine consumes_get (fun s => ⟨_, rfl⟩) ?_
    intro c rest v s' hrun
    obtain ⟨hlt, -⟩ := or_pack h c []
    obtain ⟨t, rest', rfl, rfl, hlen, rfl⟩ := ih hlt _ _ _ hrun
    exact ⟨t, rest', rfl, rfl, congrArg (· + 1) hlen, (or_pack h c t).2⟩

/-- A number that is read was written as what it was read from. -/
theorem consumes_readU32 : Consumes readU32 fun v t => t = writeU32 v ∧ v < 2 ^ 32 := by
  intro rest v s' hrun
  obtain ⟨t, rest', rfl, rfl, hlen, rfl⟩ :=
    consumes_readU32From (show 0 < 2 ^ (8 * 0) by decide) 4 _ _ _ hrun
  have hv : 0 + 2 ^ (8 * 0) * pack t = pack t := by
    rw [Nat.zero_add, Nat.mul_zero, Nat.pow_zero, Nat.one_mul]
  have hlt := pack_lt t
  rw [hlen] at hlt
  refine ⟨t, rest', rfl, rfl, ?_, by rwa [hv]⟩
  rw [hv, writeU32_eq, ← hlen, unpack_pack]

theorem yields_readU32From {i value : ℕ} (h : value < 2 ^ (8 * i)) (t : Bytes) :
    Yields (readU32From i value t.length) t (.ok (value + 2 ^ (8 * i) * pack t)) := by
  induction t generalizing i value with
  | nil => exact yields_pure _
  | cons c t ih =>
    obtain ⟨hlt, hvalue⟩ := or_pack h c t
    rw [← hvalue]
    exact (yields_get c).step (ih hlt)

theorem yields_readU32 {v : ℕ} (h : v < 2 ^ 32) : Yields readU32 (writeU32 v) (.ok v) := by
  have hrun := yields_readU32From (show 0 < 2 ^ (8 * 0) by decide) (unpack v 4)
  rw [length_unpack, pack_unpack, Nat.mod_eq_of_lt h, Nat.zero_add, Nat.mul_zero, Nat.pow_zero,
    Nat.one_mul] at hrun
  rw [writeU32_eq]
  exact hrun

/-! Sets of patterns. -/

variable {set : BselModel} {patterns : List Pattern} {blockSize : ℕ}

def patternBytes (patterns : List Pattern) : Bytes := patterns.flatMap Pattern.symbols

def setBytes (set : BselModel) : Bytes :=
  writeU32 set.blockSize ++ writeU32 set.patterns.length ++ patternBytes set.patterns

theorem writePatterns_eq (h : ∀ pattern ∈ patterns, pattern.symbols.length = blockSize) :
    writePatterns blockSize patterns = .ok (patternBytes patterns) := by
  induction patterns with
  | nil => rfl
  | cons pattern patterns ih =>
    rw [List.forall_mem_cons] at h
    rw [writePatterns, throwIf_neg (not_not.mpr h.1), ok_bind, ih h.2]
    rfl

theorem writeSet_eq (h : ∀ pattern ∈ set.patterns, pattern.symbols.length = set.blockSize) :
    writeSet set = .ok (setBytes set) := by
  rw [writeSet, writePatterns_eq h]
  rfl

/-- The check of the symbols never throws: a rank is above all symbols. -/
theorem symbols_lt_rank (pattern : Pattern) :
    ¬ ∃ symbol ∈ pattern.symbols, symbol.val ≥ pattern.rank := by
  rintro ⟨symbol, hmem, hge⟩
  have := lt_rank hmem
  omega

theorem consumes_readPattern (blockSize : ℕ) : Consumes (readPattern blockSize) fun pattern t =>
    t = pattern.symbols ∧ pattern.symbols.length = blockSize := by
  refine consumes_read (fun t s => ⟨_, rfl⟩) ?_
  intro t ht
  refine Consumes.check fun _ _ => Consumes.check fun _ _ => consumes_pure ?_
  exact ⟨List.append_nil t, ht⟩

theorem yields_readPattern (pattern : Pattern) :
    Yields (readPattern pattern.symbols.length) pattern.symbols (.ok pattern) := by
  refine (yields_read 0 pattern.symbols).last (yields_failed.last ?_)
  rw [throwIf_neg (by decide)]
  refine Yields.lift_ok ?_
  rw [throwIf_neg (symbols_lt_rank pattern)]
  exact Yields.lift_ok (yields_pure pattern)

theorem consumes_readPatterns (blockSize n : ℕ) :
    Consumes (readPatterns blockSize n) fun patterns t =>
      t = patternBytes patterns ∧ patterns.length = n ∧
        ∀ pattern ∈ patterns, pattern.symbols.length = blockSize := by
  induction n with
  | zero => exact consumes_pure ⟨rfl, rfl, by simp⟩
  | succ n ih =>
    refine (consumes_readPattern blockSize).bind ?_
    rintro pattern t ⟨rfl, hlen⟩
    refine ih.bind ?_
    rintro patterns u ⟨rfl, hcount, hall⟩
    refine consumes_pure ⟨?_, congrArg (· + 1) hcount, List.forall_mem_cons.mpr ⟨hlen, hall⟩⟩
    rw [List.append_nil, patternBytes, patternBytes, List.flatMap_cons]

theorem yields_readPatterns (h : ∀ pattern ∈ patterns, pattern.symbols.length = blockSize) :
    Yields (readPatterns blockSize patterns.length) (patternBytes patterns) (.ok patterns) := by
  induction patterns with
  | nil => exact yields_pure _
  | cons pattern patterns ih =>
    obtain ⟨rfl, hall⟩ := List.forall_mem_cons.mp h
    exact (yields_readPattern pattern).step ((ih hall).last (yields_pure _))

/-- What `load_model` accepts as a set. -/
structure ValidSet (set : BselModel) : Prop where
  pos : set.blockSize ≠ 0
  le : set.blockSize ≤ 64
  count_le : set.patterns.length ≤ 65535
  symbols : ∀ pattern ∈ set.patterns, pattern.symbols.length = set.blockSize

theorem consumes_readSet : Consumes readSet fun set t => t = setBytes set ∧ ValidSet set := by
  refine consumes_readU32.bind ?_
  rintro blockSize t ⟨rfl, -⟩
  refine consumes_readU32.bind ?_
  rintro count u ⟨rfl, -⟩
  refine Consumes.check fun _ hcheck => (consumes_readPatterns blockSize count).bind ?_
  rintro patterns v ⟨rfl, rfl, hall⟩
  simp only [throwIf_eq_ok, not_or, gt_iff_lt, not_lt] at hcheck
  obtain ⟨hpos, hle, hcount⟩ := hcheck
  refine consumes_pure ⟨?_, hpos, hle, hcount, hall⟩
  rw [List.append_nil, ← List.append_assoc]
  rfl

theorem yields_readSet (h : ValidSet set) : Yields readSet (setBytes set) (.ok set) := by
  obtain ⟨hpos, hle, hcount, hall⟩ := h
  rw [setBytes, List.append_assoc]
  refine (yields_readU32 (by omega)).step ((yields_readU32 (by omega)).step ?_)
  rw [throwIf_neg (by omega)]
  exact Yields.lift_ok ((yields_readPatterns hall).last (yields_pure set))

/-! Models. -/

variable {model : Model} {bytes : Bytes}

def modelBytes (model : Model) : Bytes :=
  modelMagic ++ writeU32 1 ++ setBytes model.prefixModel ++ setBytes model.residual

theorem saveModel_eq (h : Dimensions model) : saveModel model = .ok (modelBytes model) := by
  rw [saveModel, writeSet_eq (h.prefix_size ▸ h.prefix_symbols), ok_bind,
    writeSet_eq (h.residual_size ▸ h.residual_symbols)]
  rfl

theorem consumes_readModel :
    Consumes readModel fun model t => t = modelBytes model ∧ Dimensions model := by
  refine consumes_read (fun t s => ⟨_, rfl⟩) ?_
  intro t ht
  refine Consumes.check fun _ hmagic => consumes_readU32.bind ?_
  rintro version u ⟨rfl, -⟩
  refine Consumes.check fun _ hversion => consumes_readSet.bind ?_
  rintro prefixModel v ⟨rfl, hprefix⟩
  refine consumes_readSet.bind ?_
  rintro residual w ⟨rfl, hresidual⟩
  refine Consumes.check fun _ hsizes => consumes_pure ?_
  simp only [throwIf_eq_ok, not_or, ne_eq, not_not] at hmagic hversion hsizes
  obtain ⟨-, rfl⟩ := hmagic
  obtain rfl := hversion
  obtain ⟨hp, hr⟩ := hsizes
  refine ⟨?_, hp, hr, hp ▸ hprefix.symbols, hr ▸ hresidual.symbols, hprefix.count_le,
    hresidual.count_le⟩
  rw [modelBytes, List.append_nil]
  simp only [List.append_assoc]

theorem yields_readModel (h : Dimensions model) :
    Yields readModel (modelBytes model) (.ok model) := by
  have hp := h.prefix_size
  have hr := h.residual_size
  have hprefix : ValidSet model.prefixModel := ⟨by rw [hp]; decide, by rw [hp]; decide,
    h.prefix_count, hp ▸ h.prefix_symbols⟩
  have hresidual : ValidSet model.residual := ⟨by rw [hr]; decide, by rw [hr]; decide,
    h.residual_count, hr ▸ h.residual_symbols⟩
  have hsizes : ¬ (model.prefixModel.blockSize ≠ kWordCount ∨
      model.residual.blockSize ≠ kBlockSize) := by
    rw [hp, hr]
    simp
  rw [modelBytes, List.append_assoc, List.append_assoc]
  refine (yields_read 0 modelMagic).step (Yields.failed_bind ?_)
  rw [throwIf_neg (by simp)]
  refine Yields.lift_ok ((yields_readU32 (by decide)).step ?_)
  rw [throwIf_neg (by simp)]
  refine Yields.lift_ok ((yields_readSet hprefix).step ((yields_readSet hresidual).last ?_))
  rw [throwIf_neg hsizes]
  exact Yields.lift_ok (yields_pure model)

/-- What is loaded has the dimensions of a model, and is saved as the file it came from. -/
theorem modelBytes_of_loadModel (h : loadModel bytes = .ok model) :
    Dimensions model ∧ bytes = modelBytes model := by
  obtain ⟨⟨loaded, input⟩, hread, h⟩ := bind_eq_ok.mp h
  obtain ⟨hpeek, hmodel⟩ := check_bind_eq_ok.mp h
  cases hmodel
  obtain ⟨t, rest, rfl, rfl, rfl, hdim⟩ := consumes_readModel _ _ _ hread
  rw [throwIf_eq_ok, not_not] at hpeek
  obtain rfl : rest = [] := List.head?_eq_none_iff.mp hpeek
  exact ⟨hdim, List.append_nil _⟩

theorem loadModel_modelBytes (h : Dimensions model) : loadModel (modelBytes model) = .ok model := by
  have hread := yields_readModel h []
  rw [List.append_nil] at hread
  rw [loadModel, hread]
  rfl

/-- Loading and saving are inverse to each other, so no two files load as the same model. -/
theorem model_file_bijection :
    (∀ bytes model, loadModel bytes = .ok model →
      Dimensions model ∧ saveModel model = .ok bytes) ∧
    (∀ model, Dimensions model →
      ∃ bytes, saveModel model = .ok bytes ∧ loadModel bytes = .ok model) ∧
    ∀ bytes bytes' model, loadModel bytes = .ok model → loadModel bytes' = .ok model →
      bytes = bytes' := by
  refine ⟨?_, ?_, ?_⟩
  · intro bytes model h
    obtain ⟨hdim, rfl⟩ := modelBytes_of_loadModel h
    exact ⟨hdim, saveModel_eq hdim⟩
  · intro model h
    exact ⟨modelBytes model, saveModel_eq h, loadModel_modelBytes h⟩
  · intro bytes bytes' model h h'
    rw [(modelBytes_of_loadModel h).2, (modelBytes_of_loadModel h').2]

theorem gappedModel_file : ∃ bytes, saveModel gappedModel = .ok bytes ∧
    loadModel bytes = .ok gappedModel :=
  model_file_bijection.2.1 gappedModel ⟨rfl, rfl, by decide, by decide, by decide, by decide⟩

end FpcBsel
