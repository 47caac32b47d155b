import ByteSelect.Baseline.Values
import Mathlib.Data.Finset.Max

/-! Base-delta-immediate compression: one base and deltas of a fixed width, in the shortest of
several modes. -/
namespace ByteSelect.Baseline

open BitStream PackedBytes

/-- The bytes of a value that the loops push, the lowest one first. -/
def littleEndian (value width : ℕ) : List Byte :=
  (List.range width).map fun i => toByte (value >>> (8 * i))

def allEqual (values : List ℕ) : Bool := values.tail.all fun value => value = values.headD 0

def deltaRangeFits (values : List ℕ) (deltaBytes : ℕ) : Bool :=
  decide (values.max?.getD 0 - values.min?.getD 0 ≤ 1 <<< (deltaBytes * 8) - 1)

structure BdiMode where
  valueBytes : ℕ
  deltaBytes : ℕ
  baseBytes : ℕ

def bdiModes : List BdiMode :=
  [⟨8, 1, 8⟩, ⟨8, 2, 8⟩, ⟨8, 4, 8⟩, ⟨4, 1, 4⟩, ⟨4, 2, 4⟩, ⟨2, 1, 2⟩]

def keepShorter (candidate best : List Byte) : List Byte :=
  if candidate.length < best.length then candidate else best

/-- The stream of a mode. -/
def bdiStream (modeIndex : ℕ) (mode : BdiMode) (base : ℕ) (deltas : List ℕ) : List Byte :=
  toByte (3 + modeIndex) :: (littleEndian base mode.baseBytes ++
    deltas.flatMap fun delta => littleEndian delta mode.deltaBytes)

/-- One turn of the loop of `bdi_encode` over the modes. -/
def bdiEncodeMode (block : Block) (best : List Byte) (entry : BdiMode × ℕ) :
    Except Error (List Byte) := do
  let (mode, modeIndex) := entry
  let values ← valuesForWidth block mode.valueBytes
  if deltaRangeFits values mode.deltaBytes then
    let base := values.min?.getD 0
    return keepShorter (bdiStream modeIndex mode base (values.map (· - base))) best
  else return best

def bdiEncode (block : Block) : Except Error (List Byte) := do
  throwIf (block = [] ∨ block.length % 8 ≠ 0)
    (.invalidArgument "BDI requires a non-empty block divisible by eight bytes")
  let best := 0 :: block
  let values8 ← valuesForWidth block 8
  let best := if values8.all (· = 0) then [1] else best
  let best := if allEqual values8 then keepShorter (2 :: block.take 8) best else best
  bdiModes.zipIdx.foldlM (bdiEncodeMode block) best

def bdiDecode (encoded : List Byte) (outputSize : ℕ) : Except Error Block := do
  throwIf (encoded = [] ∨ outputSize = 0 ∨ outputSize % 8 ≠ 0)
    (.invalidArgument "invalid BDI stream or output size")
  let tag := (encoded.getD 0 0).val
  if tag = 0 then
    throwIf (encoded.length ≠ outputSize + 1) (.runtimeError "invalid raw BDI stream")
    return encoded.tail
  else if tag = 1 then
    throwIf (outputSize ≥ 2 ^ 63)
      (.lengthError "cannot create std::vector larger than max_size()")
    return List.replicate outputSize 0
  else if tag = 2 then
    throwIf (encoded.length ≠ 9) (.runtimeError "invalid repeated BDI stream")
    -- `insert` refuses what no vector can hold
    throwIf (outputSize ≥ 2 ^ 63) (.lengthError "vector::_M_range_insert")
    return (List.range (outputSize / 8)).foldl (fun out _ => out ++ encoded.tail) []
  else
    match bdiModes[tag - 3]? with
    | none => throw (.runtimeError "invalid BDI mode")
    | some mode =>
      throwIf (outputSize % mode.valueBytes ≠ 0 ∨ encoded.length ≠
          1 + mode.baseBytes + outputSize / mode.valueBytes * mode.deltaBytes)
        (.runtimeError "invalid BDI payload size")
      let base := loadLittleEndian encoded 1 mode.baseBytes
      throwIf (outputSize ≥ 2 ^ 63) (.lengthError "vector::reserve")
      return (List.range (outputSize / mode.valueBytes)).flatMap fun word =>
        let delta := loadLittleEndian encoded (1 + mode.baseBytes + word * mode.deltaBytes)
          mode.deltaBytes
        littleEndian ((base + delta) % 2 ^ 64) mode.valueBytes

variable {block : Block} {mode : BdiMode} {values deltas : List ℕ} {base value width n i : ℕ}
  {encoded : List Byte}

/-! Values and their bytes. -/

theorem littleEndian_eq (value width : ℕ) : littleEndian value width = unpack value width := by
  induction width with
  | zero => rfl
  | succ n ih =>
    rw [littleEndian, List.range_succ, List.map_append, ← littleEndian, ih, unpack_succ,
      List.map_singleton, Nat.shiftRight_eq_div_pow, Nat.mul_comm 8]
    rfl

@[simp] theorem length_littleEndian (value width : ℕ) :
    (littleEndian value width).length = width := by
  rw [littleEndian_eq, length_unpack]

theorem littleEndian_mod (value : ℕ) {m : ℕ} (h : width * 8 ≤ m) :
    littleEndian (value % 2 ^ m) width = littleEndian value width := by
  have hdvd : 2 ^ (width * 8) ∣ 2 ^ m := Nat.pow_dvd_pow 2 h
  rw [littleEndian_eq, littleEndian_eq, ← unpack_mod, Nat.mod_mod_of_dvd _ hdvd, unpack_mod]

/-- A value is loaded from the bytes at its offset. -/
theorem loadLittleEndian_of_drop {l bytes u : List Byte} {offset : ℕ}
    (h : l.drop offset = bytes ++ u) : loadLittleEndian l offset bytes.length = pack bytes := by
  rw [loadLittleEndian_eq]
  congr 1
  apply List.ext_getElem (by simp)
  intro i hi hi'
  have hget := congrArg (fun l => l[i]?) h
  rw [List.getElem?_drop, List.getElem?_append_left hi', List.getElem?_eq_getElem hi'] at hget
  rw [List.getElem_map, List.getElem_range, List.getD_eq_getElem?_getD, hget, Option.getD_some]

theorem loadLittleEndian_littleEndian {l u : List Byte} {offset : ℕ}
    (h : l.drop offset = littleEndian value width ++ u) (hv : value < 2 ^ (width * 8)) :
    loadLittleEndian l offset width = value := by
  have hload := loadLittleEndian_of_drop h
  rw [length_littleEndian, littleEndian_eq, pack_unpack, Nat.mod_eq_of_lt hv] at hload
  exact hload

theorem loadLittleEndian_lt (l : List Byte) (offset width : ℕ) :
    loadLittleEndian l offset width < 2 ^ (width * 8) := by
  have hlt := pack_lt ((List.range width).map fun i => l.getD (offset + i) 0)
  rw [List.length_map, List.length_range] at hlt
  rwa [loadLittleEndian_eq]

/-- The values of a block. -/
def valuesOf (block : Block) (width : ℕ) : List ℕ :=
  (List.range (block.length / width)).map fun i => loadLittleEndian block (i * width) width

theorem valuesForWidth_eq (hw : width ≠ 0) (h : block.length % width = 0) :
    valuesForWidth block width = .ok (valuesOf block width) := by
  rw [valuesForWidth, throwIf_neg (by simp [hw, h]), ok_bind]
  rfl

theorem lt_of_mem_valuesOf (h : value ∈ valuesOf block width) : value < 2 ^ (width * 8) := by
  obtain ⟨i, -, rfl⟩ := List.mem_map.mp h
  exact loadLittleEndian_lt _ _ _

theorem length_valuesOf (block : Block) (width : ℕ) :
    (valuesOf block width).length = block.length / width := by
  rw [valuesOf, List.length_map, List.length_range]

/-- The slices of a list, one after the other. -/
theorem flatMap_slices {α : Type} (l : List α) (width n : ℕ) :
    (List.range n).flatMap (fun i => (l.drop (i * width)).take width) = l.take (n * width) := by
  induction n with
  | zero => simp
  | succ n ih =>
    rw [List.range_succ, List.flatMap_append, ih, List.flatMap_singleton, Nat.succ_mul,
      List.take_add]

theorem littleEndian_loadLittleEndian {l : List Byte} {offset : ℕ}
    (h : offset + width ≤ l.length) :
    littleEndian (loadLittleEndian l offset width) width = (l.drop offset).take width := by
  have hlen : ((l.drop offset).take width).length = width := by
    rw [List.length_take, List.length_drop]
    omega
  have hload := loadLittleEndian_of_drop (List.take_append_drop width (l.drop offset)).symm
  have hbytes := unpack_pack ((l.drop offset).take width)
  rw [hlen] at hload hbytes
  rw [hload, littleEndian_eq, hbytes]

/-- A block is the bytes of its values. -/
theorem flatMap_valuesOf (h : block.length / width * width = block.length) :
    (valuesOf block width).flatMap (fun value => littleEndian value width) = block := by
  have hslices := flatMap_slices block width (block.length / width)
  rw [h, List.take_length] at hslices
  rw [valuesOf, List.flatMap_map]
  refine Eq.trans (List.flatMap_congr fun i hi => ?_) hslices
  have hlt := List.mem_range.mp hi
  have hle : (i + 1) * width ≤ block.length / width * width := Nat.mul_le_mul_right width hlt
  rw [Nat.succ_mul, h] at hle
  exact littleEndian_loadLittleEndian hle

theorem drop_flatMap {α β : Type} {f : α → List β} (hf : ∀ a, (f a).length = width) (l : List α)
    (i : ℕ) : (l.flatMap f).drop (i * width) = (l.drop i).flatMap f := by
  induction l generalizing i with
  | nil => simp
  | cons a l ih =>
    cases i with
    | zero => simp
    | succ i =>
      rw [List.flatMap_cons, List.drop_succ_cons, Nat.succ_mul, Nat.add_comm, ← List.drop_drop,
        List.drop_left' (hf a), ih]

theorem length_flatMap_littleEndian (values : List ℕ) (width : ℕ) :
    (values.flatMap fun value => littleEndian value width).length = values.length * width := by
  simp

/-- The values of a block that is the bytes of some numbers. -/
theorem valuesOf_flatMap (hw : 0 < width) (values : List ℕ) :
    valuesOf (values.flatMap fun value => littleEndian value width) width =
      values.map (· % 2 ^ (width * 8)) := by
  have hlen := length_flatMap_littleEndian values width
  apply List.ext_getElem
  · rw [length_valuesOf, hlen, Nat.mul_div_cancel _ hw, List.length_map]
  · intro i hi hi'
    rw [List.length_map] at hi'
    have hdrop := drop_flatMap (fun value => length_littleEndian value width) values i
    rw [List.drop_eq_getElem_cons hi', List.flatMap_cons] at hdrop
    have hload := loadLittleEndian_of_drop hdrop
    rw [length_littleEndian, littleEndian_eq, pack_unpack] at hload
    simp only [valuesOf, List.getElem_map, List.getElem_range]
    exact hload

/-! Modes. -/

/-- The length of the streams of a mode. -/
def BdiMode.size (mode : BdiMode) (outputSize : ℕ) : ℕ :=
  1 + mode.baseBytes + outputSize / mode.valueBytes * mode.deltaBytes

/-- The values follow one of them, up to the width of a delta, on the circle of all values. -/
def BdiMode.Wraps (mode : BdiMode) (values : List ℕ) : Prop :=
  ∃ base ∈ values, ∀ value ∈ values,
    (value + 2 ^ (mode.valueBytes * 8) - base) % 2 ^ (mode.valueBytes * 8) <
      2 ^ (mode.deltaBytes * 8)

instance (mode : BdiMode) (values : List ℕ) : Decidable (mode.Wraps values) :=
  inferInstanceAs (Decidable (∃ base ∈ values, ∀ value ∈ values,
    (value + 2 ^ (mode.valueBytes * 8) - base) % 2 ^ (mode.valueBytes * 8) <
      2 ^ (mode.deltaBytes * 8)))

theorem add_sub_mod_of_lt {m b v : ℕ} (hb : b < m) (hv : v < m) :
    (b + (v + m - b) % m) % m = v := by
  rw [Nat.add_mod_mod, show b + (v + m - b) = v + m by omega, Nat.add_mod_right,
    Nat.mod_eq_of_lt hv]

theorem sub_mod_of_add {m b e : ℕ} (hb : b < m) : ((b + e) % m + m - b) % m = e % m := by
  have hsum : (b + e) % m = (b + e % m) % m := (Nat.add_mod_mod b e m).symm
  have he : e % m < m := Nat.mod_lt _ (by omega)
  rw [hsum]
  rcases Nat.lt_or_ge (b + e % m) m with hlt | hge
  · rw [Nat.mod_eq_of_lt hlt, show b + e % m + m - b = e % m + m by omega, Nat.add_mod_right,
      Nat.mod_eq_of_lt he]
  · rw [Nat.mod_eq_sub_mod hge, Nat.mod_eq_of_lt (show b + e % m - m < m by omega),
      show b + e % m - m + m - b = e % m by omega, Nat.mod_eq_of_lt he]

/-- One base and deltas of the width of the mode, added as the decoder adds them, give the
values. -/
theorem BdiMode.wraps_iff (hne : values ≠ [])
    (hlt : ∀ value ∈ values, value < 2 ^ (mode.valueBytes * 8)) :
    mode.Wraps values ↔ ∃ base, ∀ value ∈ values, ∃ delta < 2 ^ (mode.deltaBytes * 8),
      value = (base + delta) % 2 ^ (mode.valueBytes * 8) := by
  constructor
  · rintro ⟨base, hbase, hwraps⟩
    exact ⟨base, fun value hvalue => ⟨_, hwraps value hvalue,
      (add_sub_mod_of_lt (hlt base hbase) (hlt value hvalue)).symm⟩⟩
  · rintro ⟨base, hdeltas⟩
    choose! delta hdelta hvalue using hdeltas
    obtain ⟨first, hfirst, hleast⟩ := Finset.exists_min_image values.toFinset delta
      (List.toFinset_nonempty_iff values |>.mpr hne)
    rw [List.mem_toFinset] at hfirst
    refine ⟨first, hfirst, fun value hmem => ?_⟩
    have hle := hleast value (List.mem_toFinset.mpr hmem)
    obtain ⟨e, he⟩ := Nat.exists_eq_add_of_le hle
    have hsum : value = (first + e) % 2 ^ (mode.valueBytes * 8) := by
      rw [hvalue value hmem, he, ← Nat.add_assoc, hvalue first hfirst, Nat.mod_add_mod]
      rw [← hvalue first hfirst]
    have hmod := @sub_mod_of_add (2 ^ (mode.valueBytes * 8)) first e (hlt first hfirst)
    rw [hsum, hmod]
    have hbound := hdelta value hmem
    exact (Nat.mod_le _ _).trans_lt (by omega)

structure BdiMode.Sound (mode : BdiMode) : Prop where
  value_pos : 0 < mode.valueBytes
  value_le : mode.valueBytes ≤ 8
  value_dvd : mode.valueBytes ∣ 8
  base_eq : mode.baseBytes = mode.valueBytes

theorem sound_of_mem (h : mode ∈ bdiModes) : mode.Sound := by
  simp only [bdiModes, List.mem_cons, List.not_mem_nil, or_false] at h
  rcases h with rfl | rfl | rfl | rfl | rfl | rfl <;>
    exact ⟨by decide, by decide, by decide, rfl⟩

theorem BdiMode.Sound.div_mul (h : mode.Sound) (h8 : n % 8 = 0) :
    n / mode.valueBytes * mode.valueBytes = n :=
  Nat.div_mul_cancel (h.value_dvd.trans (Nat.dvd_of_mod_eq_zero h8))

/-! Decoding. -/

/-- What a stream of some length can stand for. -/
inductive BdiRepresents (block : Block) : ℕ → Prop
  | raw : BdiRepresents block (block.length + 1)
  | zeros (h : ∀ b ∈ block, b = 0) (k : ℕ) : BdiRepresents block (k + 1)
  | repeated {bytes : List Byte} (hlen : bytes.length = 8)
      (h : block = (List.replicate (block.length / 8) bytes).flatten) : BdiRepresents block 9
  | mode {mode : BdiMode} (hmode : mode ∈ bdiModes)
      (h : mode.Wraps (valuesOf block mode.valueBytes)) :
      BdiRepresents block (mode.size block.length)

theorem foldl_append_replicate {α : Type} (bytes : List α) (n : ℕ) :
    (List.range n).foldl (fun out _ => out ++ bytes) [] = (List.replicate n bytes).flatten := by
  induction n with
  | zero => rfl
  | succ n ih =>
    rw [List.range_succ, List.foldl_append, ih, List.foldl_cons, List.foldl_nil,
      List.replicate_succ', List.flatten_append, List.flatten_singleton]

/-- The deltas of a stream are read back one by one. -/
theorem map_loadLittleEndian_deltas (index : ℕ)
    (hdeltas : ∀ delta ∈ deltas, delta < 2 ^ (mode.deltaBytes * 8)) :
    (List.range deltas.length).map (fun word => loadLittleEndian
      (bdiStream index mode base deltas) (1 + mode.baseBytes + word * mode.deltaBytes)
      mode.deltaBytes) = deltas := by
  apply List.ext_getElem (by simp)
  intro word hrange hword
  have hslice := drop_flatMap (fun value => length_littleEndian value mode.deltaBytes) deltas word
  have hrest : (bdiStream index mode base deltas).drop (1 + mode.baseBytes) =
      deltas.flatMap fun delta => littleEndian delta mode.deltaBytes := by
    rw [← List.drop_drop]
    exact List.drop_left' (length_littleEndian _ _)
  rw [List.drop_eq_getElem_cons hword, List.flatMap_cons, ← hrest, List.drop_drop] at hslice
  rw [List.getElem_map, List.getElem_range]
  exact loadLittleEndian_littleEndian hslice (hdeltas _ (List.getElem_mem hword))

/-- The stream of a mode is decoded to the sums of its base and its deltas. -/
theorem bdiDecode_bdiStream {index : ℕ} (hmode : bdiModes[index]? = some mode)
    (hbase : base < 2 ^ (mode.valueBytes * 8))
    (hdeltas : ∀ delta ∈ deltas, delta < 2 ^ (mode.deltaBytes * 8))
    (hn : n = deltas.length * mode.valueBytes) (hpos : n ≠ 0) (h8 : n % 8 = 0)
    (hlt : n < 2 ^ 63) : bdiDecode (bdiStream index mode base deltas) n =
      .ok (deltas.flatMap fun delta => littleEndian (base + delta) mode.valueBytes) := by
  have hsound := sound_of_mem (List.mem_of_getElem? hmode)
  have hwidth := hsound.value_pos
  have hindex : index < 6 := (List.getElem?_eq_some_iff.mp hmode).1
  have htag : (toByte (3 + index)).val = 3 + index := Nat.mod_eq_of_lt (by omega)
  have hcount : n / mode.valueBytes = deltas.length := by
    rw [hn, Nat.mul_div_cancel _ hwidth]
  have hmod : n % mode.valueBytes = 0 := by rw [hn, Nat.mul_mod_left]
  have hdrop : (bdiStream index mode base deltas).drop 1 = littleEndian base mode.baseBytes ++
      deltas.flatMap fun delta => littleEndian delta mode.deltaBytes := rfl
  have hsize : (bdiStream index mode base deltas).length =
      1 + mode.baseBytes + n / mode.valueBytes * mode.deltaBytes := by
    rw [bdiStream, List.length_cons, List.length_append, length_littleEndian,
      length_flatMap_littleEndian, hcount]
    omega
  have hload : loadLittleEndian (bdiStream index mode base deltas) 1 mode.baseBytes = base :=
    loadLittleEndian_littleEndian hdrop (by rwa [hsound.base_eq])
  unfold bdiDecode
  rw [throwIf_neg (by simp [bdiStream, hpos, h8]), ok_bind]
  have hhead : (bdiStream index mode base deltas).getD 0 0 = toByte (3 + index) := rfl
  rw [hhead, htag]
  dsimp only
  rw [if_neg (by omega), if_neg (by omega), if_neg (by omega), Nat.add_sub_cancel_left, hmode]
  dsimp only
  rw [throwIf_neg (by rw [hmod, hsize]; simp), ok_bind, throwIf_neg (by omega), ok_bind, hload,
    hcount]
  refine congrArg Except.ok ?_
  have hlist := @map_loadLittleEndian_deltas mode deltas base index hdeltas
  have hle := hsound.value_le
  nth_rewrite 3 [← hlist]
  rw [List.flatMap_map]
  exact List.flatMap_congr fun word _ => littleEndian_mod _ (by omega)

/-- Sums of one base and deltas of a mode are values that the base reaches around the circle. -/
theorem BdiMode.Sound.wraps_of_sums (hsound : mode.Sound) (hpos : block.length ≠ 0)
    (h8 : block.length % 8 = 0) (base : ℕ)
    (hout : ((List.range (block.length / mode.valueBytes)).flatMap fun word =>
      littleEndian ((base + loadLittleEndian encoded
        (1 + mode.baseBytes + word * mode.deltaBytes) mode.deltaBytes) % 2 ^ 64)
        mode.valueBytes) = block) : mode.Wraps (valuesOf block mode.valueBytes) := by
  rw [← List.flatMap_map (fun word => (base + loadLittleEndian encoded
    (1 + mode.baseBytes + word * mode.deltaBytes) mode.deltaBytes) % 2 ^ 64)
    (fun value => littleEndian value mode.valueBytes)] at hout
  have hvalues := (congrArg (valuesOf · mode.valueBytes) hout.symm).trans
    (valuesOf_flatMap hsound.value_pos _)
  have hcount := length_valuesOf block mode.valueBytes
  have hne : valuesOf block mode.valueBytes ≠ [] := by
    have hmul := hsound.div_mul h8
    intro hnil
    rw [hnil, List.length_nil] at hcount
    rw [← hcount, Nat.zero_mul] at hmul
    exact hpos hmul.symm
  refine (BdiMode.wraps_iff hne fun value => lt_of_mem_valuesOf).mpr ⟨base, ?_⟩
  intro value hvalue
  rw [hvalues, List.map_map, List.mem_map] at hvalue
  obtain ⟨word, -, rfl⟩ := hvalue
  have hdvd : 2 ^ (mode.valueBytes * 8) ∣ 2 ^ 64 :=
    Nat.pow_dvd_pow 2 (by have hle := hsound.value_le; omega)
  exact ⟨_, loadLittleEndian_lt _ _ _, Nat.mod_mod_of_dvd _ hdvd⟩

/-- What a decoded stream stands for. -/
theorem represents_of_bdiDecode (hpos : block.length ≠ 0) (h8 : block.length % 8 = 0)
    (h : bdiDecode encoded block.length = .ok block) : BdiRepresents block encoded.length := by
  unfold bdiDecode at h
  rw [check_bind_eq_ok, throwIf_eq_ok] at h
  obtain ⟨hcheck, h⟩ := h
  dsimp only at h
  obtain ⟨k, hk⟩ : ∃ k, encoded.length = k + 1 := by
    cases encoded with
    | nil => simp at hcheck
    | cons b rest => exact ⟨rest.length, rfl⟩
  split at h
  · rw [check_bind_eq_ok, throwIf_eq_ok, not_not] at h
    rw [h.1]
    exact .raw
  split at h
  · rw [check_bind_eq_ok] at h
    have hout := Except.ok.inj h.2
    rw [hk]
    exact .zeros (fun b hb => List.eq_of_mem_replicate (hout ▸ hb)) k
  split at h
  · rw [check_bind_eq_ok, throwIf_eq_ok, not_not] at h
    obtain ⟨hlen, h⟩ := h
    rw [check_bind_eq_ok] at h
    have hout := Except.ok.inj h.2
    rw [foldl_append_replicate] at hout
    rw [hlen]
    exact .repeated (by rw [List.length_tail, hlen]) hout.symm
  · split at h
    · cases h
    · rename_i mode hmode
      have hmem := List.mem_of_getElem? hmode
      rw [check_bind_eq_ok, throwIf_eq_ok, not_or, not_not, not_not] at h
      obtain ⟨⟨-, hlen⟩, h⟩ := h
      rw [check_bind_eq_ok] at h
      rw [hlen]
      exact .mode hmem ((sound_of_mem hmem).wraps_of_sums hpos h8 _ (Except.ok.inj h.2))

/-! Candidates. -/

/-- Blocks that repeat eight bytes. -/
theorem valuesOf_replicate {bytes : List Byte} (hlen : bytes.length = 8) {m : ℕ}
    (h : block = (List.replicate m bytes).flatten) :
    valuesOf block 8 = List.replicate m (pack bytes) := by
  have hbytes := unpack_pack bytes
  rw [hlen, ← littleEndian_eq] at hbytes
  have hlt := pack_lt bytes
  rw [hlen] at hlt
  have hflat : (List.replicate m bytes).flatten =
      (List.replicate m (pack bytes)).flatMap fun value => littleEndian value 8 := by
    rw [List.flatMap_def, List.map_replicate, hbytes]
  rw [h, hflat, valuesOf_flatMap (by decide), List.map_replicate, Nat.mod_eq_of_lt hlt]

theorem allEqual_iff (hne : values ≠ []) :
    allEqual values = true ↔ values = List.replicate values.length (values.headD 0) := by
  cases values with
  | nil => exact absurd rfl hne
  | cons a rest =>
    rw [allEqual, List.tail_cons, List.headD_cons, List.length_cons, List.replicate_succ,
      List.cons_eq_cons, List.eq_replicate_iff, List.all_eq_true]
    simp

theorem flatMap_valuesOf_eight (h8 : block.length % 8 = 0) :
    (valuesOf block 8).flatMap (fun value => littleEndian value 8) = block :=
  flatMap_valuesOf (by omega)

/-- The values are all equal when the block repeats its first eight bytes. -/
theorem allEqual_valuesOf (hpos : block.length ≠ 0) (h8 : block.length % 8 = 0) :
    allEqual (valuesOf block 8) = true ↔
      block = (List.replicate (block.length / 8) (block.take 8)).flatten := by
  have hlen := length_valuesOf block 8
  have hne : valuesOf block 8 ≠ [] := List.ne_nil_of_length_pos (by omega)
  have htake : (block.take 8).length = 8 := List.length_take_of_le (by omega)
  rw [allEqual_iff hne]
  constructor
  · intro h
    have hblock := flatMap_valuesOf_eight h8
    rw [h, hlen, List.flatMap_def, List.map_replicate] at hblock
    generalize (valuesOf block 8).headD 0 = value at hblock
    obtain ⟨m, hm⟩ : ∃ m, block.length / 8 = m + 1 := ⟨block.length / 8 - 1, by omega⟩
    have hfirst : block.take 8 = littleEndian value 8 := by
      rw [← hblock, hm, List.replicate_succ, List.flatten_cons,
        List.take_left' (length_littleEndian value 8)]
    rw [hfirst, hblock]
  · intro h
    have hvalues := valuesOf_replicate htake h
    obtain ⟨m, hm⟩ : ∃ m, block.length / 8 = m + 1 := ⟨block.length / 8 - 1, by omega⟩
    rw [hvalues, List.length_replicate, hm, List.replicate_succ, List.headD_cons,
      ← List.replicate_succ]

theorem all_zero_valuesOf (h8 : block.length % 8 = 0) :
    (valuesOf block 8).all (· = 0) = true ↔ ∀ b ∈ block, b = 0 := by
  simp only [List.all_eq_true, decide_eq_true_eq]
  constructor
  · intro h b hb
    rw [← flatMap_valuesOf_eight h8, List.mem_flatMap] at hb
    obtain ⟨value, hvalue, hb⟩ := hb
    rw [h value hvalue, littleEndian, List.mem_map] at hb
    obtain ⟨i, -, rfl⟩ := hb
    rw [Nat.zero_shiftRight]
    rfl
  · intro h value hvalue
    obtain ⟨i, -, rfl⟩ := List.mem_map.mp hvalue
    have hzeros : ((List.range 8).map fun j => block.getD (i * 8 + j) 0) =
        List.replicate 8 0 := by
      rw [List.eq_replicate_iff]
      refine ⟨by simp, fun b hb => ?_⟩
      obtain ⟨j, -, rfl⟩ := List.mem_map.mp hb
      rw [List.getD_eq_getElem?_getD]
      cases hget : block[i * 8 + j]? with
      | none => rfl
      | some b => exact h b (List.mem_of_getElem? hget)
    rw [loadLittleEndian_eq, hzeros, pack_zeros]

/-- The least value, and how far the values reach above it. -/
theorem deltaRangeFits_iff (hne : values ≠ []) {deltaBytes : ℕ} :
    deltaRangeFits values deltaBytes = true ↔ ∃ least ∈ values, values.min? = some least ∧
      ∀ value ∈ values, least ≤ value ∧ value - least < 2 ^ (deltaBytes * 8) := by
  have hpos := Nat.two_pow_pos (deltaBytes * 8)
  obtain ⟨least, hleast⟩ := Option.isSome_iff_exists.mp (List.isSome_min?_of_ne_nil hne)
  obtain ⟨most, hmost⟩ := Option.isSome_iff_exists.mp (List.isSome_max?_of_ne_nil hne)
  obtain ⟨hmem, hle⟩ := List.min?_eq_some_iff.mp hleast
  obtain ⟨hmem', hle'⟩ := List.max?_eq_some_iff.mp hmost
  rw [deltaRangeFits, hleast, hmost, Option.getD_some, Option.getD_some, Nat.one_shiftLeft,
    decide_eq_true_iff]
  constructor
  · intro h
    refine ⟨least, hmem, rfl, fun value hvalue => ⟨hle value hvalue, ?_⟩⟩
    have hbelow := hle' value hvalue
    omega
  · rintro ⟨least', -, heq, h⟩
    cases heq
    have hspan := (h most hmem').2
    omega

/-- The stream the encoder compares for a mode. -/
def bdiModeStream (block : Block) (entry : BdiMode × ℕ) : List Byte :=
  bdiStream entry.2 entry.1 ((valuesOf block entry.1.valueBytes).min?.getD 0)
    ((valuesOf block entry.1.valueBytes).map
      (· - (valuesOf block entry.1.valueBytes).min?.getD 0))

def bdiModeFits (block : Block) (entry : BdiMode × ℕ) : Bool :=
  deltaRangeFits (valuesOf block entry.1.valueBytes) entry.1.deltaBytes

/-- The streams the encoder compares. -/
inductive BdiCandidate (block : Block) : List Byte → Prop
  | raw : BdiCandidate block (0 :: block)
  | zeros (h : (valuesOf block 8).all (· = 0) = true) : BdiCandidate block [1]
  | repeated (h : allEqual (valuesOf block 8) = true) : BdiCandidate block (2 :: block.take 8)
  | mode {entry : BdiMode × ℕ} (hmode : bdiModes[entry.2]? = some entry.1)
      (h : bdiModeFits block entry = true) : BdiCandidate block (bdiModeStream block entry)

theorem length_bdiStream (index : ℕ) (mode : BdiMode) (base : ℕ) (deltas : List ℕ) :
    (bdiStream index mode base deltas).length =
      1 + mode.baseBytes + deltas.length * mode.deltaBytes := by
  rw [bdiStream, List.length_cons, List.length_append, length_littleEndian,
    length_flatMap_littleEndian]
  omega

theorem valuesOf_ne_nil (hmode : mode ∈ bdiModes) (hpos : block.length ≠ 0)
    (h8 : block.length % 8 = 0) : valuesOf block mode.valueBytes ≠ [] := by
  have hmul := (sound_of_mem hmode).div_mul h8
  intro hnil
  have hcount := length_valuesOf block mode.valueBytes
  rw [hnil, List.length_nil] at hcount
  rw [← hcount, Nat.zero_mul] at hmul
  exact hpos hmul.symm

/-- A stream whose sums are the values of the block is decoded to the block. -/
theorem bdiDecode_values {index : ℕ} (hmode : bdiModes[index]? = some mode)
    (hpos : block.length ≠ 0) (h8 : block.length % 8 = 0) (hlt : block.length < 2 ^ 63)
    (hbase : base < 2 ^ (mode.valueBytes * 8)) {delta : ℕ → ℕ}
    (hdelta : ∀ value ∈ valuesOf block mode.valueBytes, delta value < 2 ^ (mode.deltaBytes * 8))
    (hsum : ∀ value ∈ valuesOf block mode.valueBytes,
      (base + delta value) % 2 ^ (mode.valueBytes * 8) = value) :
    bdiDecode (bdiStream index mode base ((valuesOf block mode.valueBytes).map delta))
      block.length = .ok block := by
  have hsound := sound_of_mem (List.mem_of_getElem? hmode)
  have hmul := hsound.div_mul h8
  have hcount := length_valuesOf block mode.valueBytes
  rw [bdiDecode_bdiStream hmode hbase (by simpa using hdelta)
    (by rw [List.length_map, hcount, hmul]) hpos h8 hlt, List.flatMap_map]
  have hblock := flatMap_valuesOf hmul
  refine congrArg Except.ok (Eq.trans (List.flatMap_congr fun value hvalue => ?_) hblock)
  rw [← littleEndian_mod (base + delta value) (Nat.le_refl _), hsum value hvalue]

section Tags

variable (hpos : n ≠ 0) (h8 : n % 8 = 0)
include hpos h8

theorem bdiDecode_raw {bytes : List Byte} (h : bytes.length = n) :
    bdiDecode (0 :: bytes) n = .ok bytes := by
  have htag : ((0 :: bytes).getD 0 0).val = 0 := rfl
  unfold bdiDecode
  rw [throwIf_neg (by simp [hpos, h8]), ok_bind, htag]
  dsimp only
  rw [if_pos rfl, throwIf_neg (by simp [h]), ok_bind]
  rfl

theorem bdiDecode_zeros (hlt : n < 2 ^ 63) (rest : List Byte) :
    bdiDecode (1 :: rest) n = .ok (List.replicate n 0) := by
  have htag : ((1 :: rest).getD 0 0).val = 1 := rfl
  unfold bdiDecode
  rw [throwIf_neg (by simp [hpos, h8]), ok_bind, htag]
  dsimp only
  rw [if_neg (by decide), if_pos rfl, throwIf_neg (by omega), ok_bind]
  rfl

theorem bdiDecode_repeated (hlt : n < 2 ^ 63) {bytes : List Byte} (h : bytes.length = 8) :
    bdiDecode (2 :: bytes) n = .ok (List.replicate (n / 8) bytes).flatten := by
  have htag : ((2 :: bytes).getD 0 0).val = 2 := rfl
  unfold bdiDecode
  rw [throwIf_neg (by simp [hpos, h8]), ok_bind, htag]
  dsimp only
  rw [if_neg (by decide), if_neg (by decide), if_pos rfl, throwIf_neg (by simp [h]), ok_bind,
    throwIf_neg (by omega), ok_bind, List.tail_cons, foldl_append_replicate]
  rfl

end Tags

/-- Whatever the encoder compares is decoded to the block. -/
theorem BdiCandidate.decode (h : BdiCandidate block encoded) (hpos : block.length ≠ 0)
    (h8 : block.length % 8 = 0) (hlt : block.length < 2 ^ 63) :
    bdiDecode encoded block.length = .ok block := by
  cases h with
  | raw => exact bdiDecode_raw hpos h8 rfl
  | zeros h =>
    rw [bdiDecode_zeros hpos h8 hlt]
    exact congrArg Except.ok (List.eq_replicate_iff.mpr ⟨rfl, (all_zero_valuesOf h8).mp h⟩).symm
  | repeated h =>
    rw [bdiDecode_repeated hpos h8 hlt (List.length_take_of_le (by omega))]
    exact congrArg Except.ok ((allEqual_valuesOf hpos h8).mp h).symm
  | mode hmode h =>
    have hmem := List.mem_of_getElem? hmode
    obtain ⟨least, hleast, hmin, hrange⟩ :=
      (deltaRangeFits_iff (valuesOf_ne_nil hmem hpos h8)).mp h
    rw [bdiModeStream, hmin, Option.getD_some]
    refine bdiDecode_values hmode hpos h8 hlt (lt_of_mem_valuesOf hleast)
      (fun value hvalue => (hrange value hvalue).2) fun value hvalue => ?_
    rw [Nat.add_sub_cancel' (hrange value hvalue).1, Nat.mod_eq_of_lt (lt_of_mem_valuesOf hvalue)]

/-! The encoder. -/

/-- The better of two streams. -/
theorem keepShorter_spec (candidate best : List Byte) :
    (keepShorter candidate best = candidate ∨ keepShorter candidate best = best) ∧
      (keepShorter candidate best).length ≤ candidate.length ∧
      (keepShorter candidate best).length ≤ best.length := by
  unfold keepShorter
  split
  · exact ⟨Or.inl rfl, Nat.le_refl _, by omega⟩
  · exact ⟨Or.inr rfl, by omega, Nat.le_refl _⟩

/-- A candidate that is no longer than any other one. -/
structure BdiShortest (block : Block) (candidates : List Byte → Prop) (best : List Byte) :
    Prop where
  mem : BdiCandidate block best
  least : ∀ candidate, candidates candidate → best.length ≤ candidate.length

/-- A turn that compares one more stream, when the block fits it. -/
theorem BdiShortest.keep {candidates : List Byte → Prop} {best candidate : List Byte} {fits : Bool}
    (h : BdiShortest block candidates best) (hc : fits = true → BdiCandidate block candidate) :
    BdiShortest block (fun c => candidates c ∨ (fits = true ∧ c = candidate))
      (if fits then keepShorter candidate best else best) := by
  obtain ⟨hcases, hcandidate, hbest⟩ := keepShorter_spec candidate best
  by_cases hfits : fits = true
  · rw [if_pos hfits]
    refine ⟨?_, ?_⟩
    · rcases hcases with heq | heq <;> rw [heq]
      · exact hc hfits
      · exact h.mem
    · rintro c (hold | ⟨-, rfl⟩)
      · exact hbest.trans (h.least c hold)
      · exact hcandidate
  · rw [if_neg hfits]
    refine ⟨h.mem, ?_⟩
    rintro c (hold | ⟨hfits', -⟩)
    · exact h.least c hold
    · exact absurd hfits' hfits

theorem bdiEncodeMode_eq (h8 : block.length % 8 = 0) {entry : BdiMode × ℕ}
    (hmode : bdiModes[entry.2]? = some entry.1) (best : List Byte) :
    bdiEncodeMode block best entry = .ok
      (if bdiModeFits block entry then keepShorter (bdiModeStream block entry) best else best) := by
  have hsound := sound_of_mem (List.mem_of_getElem? hmode)
  have hpos := hsound.value_pos
  have hmod : block.length % entry.1.valueBytes = 0 := by
    rw [← hsound.div_mul h8, Nat.mul_mod_left]
  unfold bdiEncodeMode
  dsimp only
  rw [valuesForWidth_eq (by omega) hmod, ok_bind]
  unfold bdiModeFits
  split <;> rfl

/-- The loop over the modes keeps the shortest stream of those that fit. -/
theorem foldlM_bdiEncodeMode (h8 : block.length % 8 = 0) {entries : List (BdiMode × ℕ)}
    (hentries : ∀ entry ∈ entries, bdiModes[entry.2]? = some entry.1)
    {candidates : List Byte → Prop} {best : List Byte}
    (h : BdiShortest block candidates best) :
    ∃ encoded, entries.foldlM (bdiEncodeMode block) best = .ok encoded ∧
      BdiShortest block (fun c => candidates c ∨
        ∃ entry ∈ entries, bdiModeFits block entry = true ∧ c = bdiModeStream block entry)
        encoded := by
  induction entries generalizing candidates best with
  | nil => exact ⟨best, rfl, h.mem, fun c hc => h.least c (by simpa using hc)⟩
  | cons entry entries ih =>
    rw [List.forall_mem_cons] at hentries
    obtain ⟨encoded, hrun, hshortest⟩ :=
      ih hentries.2 (h.keep fun hfits => .mode hentries.1 hfits)
    refine ⟨encoded, ?_, hshortest.mem, ?_⟩
    · rw [List.foldlM_cons, bdiEncodeMode_eq h8 hentries.1, ok_bind, hrun]
    · rintro c (hold | ⟨entry', hmem, hfits, rfl⟩)
      · exact hshortest.least c (Or.inl (Or.inl hold))
      · rcases List.mem_cons.mp hmem with rfl | hmem
        · exact hshortest.least _ (Or.inl (Or.inr ⟨hfits, rfl⟩))
        · exact hshortest.least _ (Or.inr ⟨entry', hmem, hfits, rfl⟩)

/-- The encoder returns the shortest of its candidates. -/
theorem bdiEncode_spec (hpos : block.length ≠ 0) (h8 : block.length % 8 = 0) :
    ∃ encoded, bdiEncode block = .ok encoded ∧
      BdiShortest block (BdiCandidate block) encoded := by
  have hne : block ≠ [] := List.ne_nil_of_length_pos (Nat.pos_of_ne_zero hpos)
  have hraw : BdiShortest block (fun c => c = 0 :: block) (0 :: block) :=
    ⟨.raw, by rintro c rfl; exact Nat.le_refl _⟩
  have hone : keepShorter [1] (0 :: block) = [1] :=
    if_pos (Nat.succ_lt_succ (Nat.pos_of_ne_zero hpos))
  have hzeros := hraw.keep fun h => .zeros h
  have hrepeated := hzeros.keep fun h => .repeated h
  rw [hone] at hrepeated
  obtain ⟨encoded, hrun, hshortest⟩ := @foldlM_bdiEncodeMode block h8 bdiModes.zipIdx
    (fun entry hentry => List.mem_zipIdx_iff_getElem?.mp hentry) _ _ hrepeated
  refine ⟨encoded, ?_, hshortest.mem, ?_⟩
  · rw [bdiEncode, throwIf_neg (by simp [hne, h8]), ok_bind, valuesForWidth_eq (by decide) h8,
      ok_bind]
    exact hrun
  · intro c hc
    cases hc with
    | raw => exact hshortest.least _ (Or.inl (Or.inl (Or.inl rfl)))
    | zeros h => exact hshortest.least _ (Or.inl (Or.inl (Or.inr ⟨h, rfl⟩)))
    | repeated h => exact hshortest.least _ (Or.inl (Or.inr ⟨h, rfl⟩))
    | @mode entry hmode h =>
      exact hshortest.least _
        (Or.inr ⟨entry, List.mem_zipIdx_iff_getElem?.mpr hmode, h, rfl⟩)

/-- Decoding what encoding wrote gives the block back, and a stream is at most one byte longer
than its block. -/
theorem bdi_round_trip {block : Vec Byte} (hne : block.toList ≠ [])
    (h8 : block.toList.length % 8 = 0) :
    ∃ encoded, bdiEncode block.toList = .ok encoded ∧
      bdiDecode encoded block.toList.length = .ok block.toList ∧
      encoded.length ≤ block.toList.length + 1 := by
  have hpos : block.toList.length ≠ 0 := List.length_eq_zero_iff.not.mpr hne
  obtain ⟨encoded, hencode, hshortest⟩ := bdiEncode_spec hpos h8
  exact ⟨encoded, hencode, hshortest.mem.decode hpos h8 block.size_lt, hshortest.least _ .raw⟩

/-- Two values near the largest one. -/
def exampleNear : Vec Byte :=
  ⟨[250, 255, 255, 255, 255, 255, 255, 255, 255, 255, 255, 255, 255, 255, 255, 255], by decide⟩

theorem exampleNear_bdi_round_trip :
    ∃ encoded, bdiEncode exampleNear.toList = .ok encoded ∧
      bdiDecode encoded exampleNear.toList.length = .ok exampleNear.toList ∧
      encoded.length ≤ exampleNear.toList.length + 1 :=
  bdi_round_trip (by decide) (by decide)

/-! The shortest stream. -/

/-- Some stream the encoder compares has at most `k` bytes. -/
def BdiWithin (block : Block) (k : ℕ) : Prop :=
  block.length + 1 ≤ k ∨ (valuesOf block 8).all (· = 0) = true ∧ 1 ≤ k ∨
    allEqual (valuesOf block 8) = true ∧ 9 ≤ k ∨
    ∃ mode ∈ bdiModes, deltaRangeFits (valuesOf block mode.valueBytes) mode.deltaBytes = true ∧
      mode.size block.length ≤ k

instance (block : Block) (k : ℕ) : Decidable (BdiWithin block k) :=
  inferInstanceAs (Decidable (_ ∨ _ ∨ _ ∨ ∃ mode ∈ bdiModes, _ ∧ _))

theorem length_bdiModeStream (block : Block) (entry : BdiMode × ℕ) :
    (bdiModeStream block entry).length = entry.1.size block.length := by
  rw [bdiModeStream, length_bdiStream, List.length_map, length_valuesOf]
  rfl

/-- The lengths the encoder can reach. -/
theorem bdiWithin_iff {k : ℕ} (hpos : block.length ≠ 0) (h8 : block.length % 8 = 0) :
    BdiWithin block k ↔ ∃ candidate, BdiCandidate block candidate ∧ candidate.length ≤ k := by
  have htake : (2 :: block.take 8).length = 9 := by
    rw [List.length_cons, List.length_take_of_le (by omega)]
  constructor
  · rintro (hraw | ⟨hzeros, hk⟩ | ⟨hequal, hk⟩ | ⟨mode, hmode, hfits, hk⟩)
    · exact ⟨_, .raw, hraw⟩
    · exact ⟨_, .zeros hzeros, hk⟩
    · exact ⟨_, .repeated hequal, htake.trans_le hk⟩
    · obtain ⟨index, hindex⟩ := List.getElem?_of_mem hmode
      exact ⟨_, @BdiCandidate.mode block (mode, index) hindex hfits,
        (length_bdiModeStream block (mode, index)).trans_le hk⟩
  · rintro ⟨candidate, hcandidate, hk⟩
    cases hcandidate with
    | raw => exact Or.inl hk
    | zeros h => exact Or.inr (Or.inl ⟨h, hk⟩)
    | repeated h => exact Or.inr (Or.inr (Or.inl ⟨h, htake.symm.trans_le hk⟩))
    | @mode entry hmode h =>
      exact Or.inr (Or.inr (Or.inr ⟨entry.1, List.mem_of_getElem? hmode, h,
        (length_bdiModeStream block entry).symm.trans_le hk⟩))

/-- Only a mode can stand for a block in fewer bytes than the encoder writes. -/
theorem BdiShortest.length_le {best : List Byte} {k : ℕ}
    (h : BdiShortest block (BdiCandidate block) best) (hpos : block.length ≠ 0)
    (h8 : block.length % 8 = 0) (hk : BdiRepresents block k)
    (hmodes : ∀ mode ∈ bdiModes, mode.Wraps (valuesOf block mode.valueBytes) →
      BdiWithin block (mode.size block.length)) : best.length ≤ k := by
  cases hk with
  | raw => exact h.least _ .raw
  | zeros hzeros k =>
    have hle := h.least _ (.zeros ((all_zero_valuesOf h8).mpr hzeros))
    exact hle.trans (Nat.succ_le_succ (Nat.zero_le k))
  | @repeated bytes hlen hblock =>
    have hvalues := valuesOf_replicate hlen hblock
    obtain ⟨m, hm⟩ : ∃ m, block.length / 8 = m + 1 := ⟨block.length / 8 - 1, by omega⟩
    have hequal : allEqual (valuesOf block 8) = true := by
      rw [allEqual_iff (by rw [hvalues, hm]; simp), hvalues, List.length_replicate, hm,
        List.replicate_succ, List.headD_cons, ← List.replicate_succ]
    have hle := h.least _ (.repeated hequal)
    rwa [List.length_cons, List.length_take_of_le (by omega)] at hle
  | mode hmode hwraps =>
    obtain ⟨candidate, hcandidate, hle⟩ := (bdiWithin_iff hpos h8).mp (hmodes _ hmode hwraps)
    exact (h.least _ hcandidate).trans hle

/-- The encoder finds the shortest stream of a block unless the values of the block, taken with
the addition of the decoder, reach from below zero to above it. -/
theorem bdi_shortest_iff {block : Vec Byte} (hne : block.toList ≠ [])
    (h8 : block.toList.length % 8 = 0) :
    (∃ encoded, bdiEncode block.toList = .ok encoded ∧
      (∀ stream, stream.length < encoded.length →
        bdiDecode stream block.toList.length ≠ .ok block.toList) ∧
      ∀ mode ∈ bdiModes,
        (∃ base, ∀ value ∈ valuesOf block.toList mode.valueBytes,
          ∃ delta < 2 ^ (mode.deltaBytes * 8),
            value = (base + delta) % 2 ^ (mode.valueBytes * 8)) →
        encoded.length ≤ mode.size block.toList.length) ↔
      ∀ mode ∈ bdiModes, mode.Wraps (valuesOf block.toList mode.valueBytes) →
        BdiWithin block.toList (mode.size block.toList.length) := by
  have hpos : block.toList.length ≠ 0 := List.length_eq_zero_iff.not.mpr hne
  have hwraps : ∀ mode ∈ bdiModes, mode.Wraps (valuesOf block.toList mode.valueBytes) ↔ _ :=
    fun mode hmode => BdiMode.wraps_iff (valuesOf_ne_nil hmode hpos h8)
      fun value => lt_of_mem_valuesOf
  obtain ⟨encoded, hencode, hshortest⟩ := bdiEncode_spec hpos h8
  constructor
  · rintro ⟨encoded', hencode', -, hmodes⟩ mode hmode h
    rw [hencode] at hencode'
    cases hencode'
    exact (bdiWithin_iff hpos h8).mpr
      ⟨encoded, hshortest.mem, hmodes mode hmode ((hwraps mode hmode).mp h)⟩
  · intro hmodes
    refine ⟨encoded, hencode, ?_, ?_⟩
    · intro stream hlt hdecode
      have hle := hshortest.length_le hpos h8 (represents_of_bdiDecode hpos h8 hdecode) hmodes
      omega
    · intro mode hmode h
      exact hshortest.length_le hpos h8 (.mode hmode ((hwraps mode hmode).mpr h)) hmodes

theorem exampleNear_bdi_shortest :
    ∃ encoded, bdiEncode exampleNear.toList = .ok encoded ∧
      (∀ stream, stream.length < encoded.length →
        bdiDecode stream exampleNear.toList.length ≠ .ok exampleNear.toList) ∧
      ∀ mode ∈ bdiModes,
        (∃ base, ∀ value ∈ valuesOf exampleNear.toList mode.valueBytes,
          ∃ delta < 2 ^ (mode.deltaBytes * 8),
            value = (base + delta) % 2 ^ (mode.valueBytes * 8)) →
        encoded.length ≤ mode.size exampleNear.toList.length :=
  (bdi_shortest_iff (by decide) (by decide)).mpr (by decide +kernel)

/-- Minus one and zero. -/
def exampleSigned : Block := List.replicate 8 255 ++ List.replicate 8 0

/-- One base and a byte for each delta make eleven bytes, the encoder writes seventeen. -/
theorem not_bdi_shortest :
    ¬ ∀ block : Block, block ≠ [] → block.length % 8 = 0 →
      ∀ encoded, bdiEncode block = .ok encoded →
        ∀ stream : List Byte, stream.length < encoded.length →
          bdiDecode stream block.length ≠ .ok block := by
  intro h
  refine h exampleSigned (by decide) (by decide) (0 :: exampleSigned) (by decide +kernel)
    (3 :: List.replicate 8 255 ++ [0, 1]) (by decide) ?_
  decide +kernel

end ByteSelect.Baseline
