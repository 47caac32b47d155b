import ByteSelect.FpcBsel.CodecExact
import ByteSelect.FpcBsel.Container

/-! The container is lossless, and no accepted container begins another one. -/
namespace FpcBsel

open BitStream FpcFormat ByteSelect

variable {model : Model} {input more output result encoded block : Bytes} {offset : ℕ}

/-! Decoded blocks. -/

theorem length_of_joinFrom {parts : FpcParts} {word n : ℕ} {reader reader' : BitReader}
    (h : joinFrom parts word output n reader = .ok (result, reader')) :
    result.length = output.length + 4 * n := by
  induction n generalizing word output reader with
  | zero =>
    cases h
    rfl
  | succ n ih =>
    obtain ⟨value, reader₁, -, hrest⟩ := run_bind_eq_ok.mp h
    rw [ih hrest, List.length_append, length_store32]
    omega

theorem length_of_decodeWords {used used' n : ℕ} {reader reader' : BitReader}
    (h : decodeWords output used n reader = .ok ((result, used'), reader')) :
    result.length = output.length + 4 * n := by
  induction n generalizing output used reader with
  | zero =>
    cases h
    rfl
  | succ n ih =>
    obtain ⟨tag, reader₁, -, h⟩ := run_bind_eq_ok.mp h
    obtain ⟨width, reader₂, -, h⟩ := run_bind_eq_ok.mp h
    obtain ⟨value, reader₃, -, hrest⟩ := run_bind_eq_ok.mp h
    rw [ih hrest, List.length_append, length_store32]
    omega

theorem length_of_fpcDecode (h : fpcDecode encoded = .ok block) : block.length = kBlockSize := by
  obtain ⟨⟨⟨result, used⟩, reader⟩, hwords, h⟩ := bind_eq_ok.mp h
  obtain ⟨-, hresult⟩ := check_bind_eq_ok.mp h
  cases hresult
  have hlen := length_of_decodeWords hwords
  exact hlen

theorem length_of_joinFpc {parts : FpcParts} (h : joinFpc parts = .ok block) :
    block.length = kBlockSize := by
  obtain ⟨-, h⟩ := check_bind_eq_ok.mp h
  obtain ⟨⟨result, reader⟩, hwords, hresult⟩ := bind_eq_ok.mp h
  cases hresult
  have hlen := length_of_joinFrom hwords
  exact hlen

/-- Whatever block is accepted, in each of the three modes, it has 64 bytes. -/
theorem length_of_decodeBlock (h : decodeBlock encoded model = .ok block) :
    block.length = kBlockSize := by
  cases encoded with
  | nil => cases h
  | cons mode rest =>
    rw [decodeBlock] at h
    split at h
    · obtain ⟨hsize, hblock⟩ := check_bind_eq_ok.mp h
      cases hblock
      rw [throwIf_eq_ok, not_not, List.length_cons] at hsize
      omega
    · split at h
      · exact length_of_fpcDecode h
      · obtain ⟨-, h⟩ := check_bind_eq_ok.mp h
        obtain ⟨-, h⟩ := check_bind_eq_ok.mp h
        obtain ⟨⟨tags, offset⟩, -, h⟩ := bind_eq_ok.mp h
        obtain ⟨size, -, h⟩ := bind_eq_ok.mp h
        obtain ⟨⟨regular, offset⟩, -, h⟩ := bind_eq_ok.mp h
        obtain ⟨⟨residual, offset⟩, -, h⟩ := bind_eq_ok.mp h
        obtain ⟨-, h⟩ := check_bind_eq_ok.mp h
        exact length_of_joinFpc h

/-! Frames. -/

/-- What one turn of the loop over the frames reads. -/
structure Frame (input : Bytes) (model : Model) (offset size : ℕ) (block : Bytes) : Prop where
  size_eq : getU16 input offset (.runtimeError "truncated container") = .ok size
  fits : offset + 2 + size ≤ input.length
  decoded : decodeBlock ((input.drop (offset + 2)).take size) model = .ok block

theorem Frame.step {size : ℕ} (h : Frame input model offset size block) (output : Bytes) :
    decodeFrames input model offset output =
      decodeFrames input model (offset + 2 + size) (output ++ block) := by
  obtain ⟨hsize, hfits, hblock⟩ := h
  rw [decodeFrames, if_pos (by omega), hsize, ok_bind, throwIf_neg (by omega), ok_bind, hblock,
    ok_bind]

/-- The loop only returns over another frame, or at the end. -/
theorem frame_of_decodeFrames (hoffset : offset < input.length)
    (h : decodeFrames input model offset output = .ok result) :
    ∃ size block, Frame input model offset size block := by
  rw [decodeFrames, if_pos hoffset] at h
  obtain ⟨size, hsize, h⟩ := bind_eq_ok.mp h
  obtain ⟨hfits, h⟩ := check_bind_eq_ok.mp h
  obtain ⟨block, hblock, -⟩ := bind_eq_ok.mp h
  rw [throwIf_eq_ok, gt_iff_lt, not_lt] at hfits
  exact ⟨size, block, hsize, hfits, hblock⟩

theorem decodeFrames_end (h : input.length ≤ offset) :
    decodeFrames input model offset output = .ok output := by
  rw [decodeFrames, if_neg (by omega)]
  rfl

theorem getU16_append {size : ℕ} {what : Error} (h : getU16 input offset what = .ok size) :
    getU16 (input ++ more) offset what = .ok size := by
  obtain ⟨hfits, h⟩ := check_bind_eq_ok.mp h
  rw [throwIf_eq_ok, gt_iff_lt, not_lt] at hfits
  have hget : ∀ i, i < input.length → (input ++ more).getD i 0 = input.getD i 0 := by
    intro i hi
    rw [List.getD_eq_getElem?_getD, List.getElem?_append_left hi, List.getD_eq_getElem?_getD]
  rw [getU16, throwIf_neg (by rw [List.length_append]; omega), ok_bind, hget _ (by omega),
    hget _ (by omega)]
  exact h

/-- A frame is read alike when more follows. -/
theorem Frame.append {size : ℕ} (h : Frame input model offset size block) :
    Frame (input ++ more) model offset size block := by
  obtain ⟨hsize, hfits, hblock⟩ := h
  refine ⟨getU16_append hsize, by rw [List.length_append]; omega, ?_⟩
  rw [List.drop_append_of_le_length (by omega),
    List.take_append_of_le_length (by rw [List.length_drop]; omega)]
  exact hblock

/-- Frames read to the end are read alike when more follows. -/
theorem decodeFrames_append (hoffset : offset ≤ input.length)
    (h : decodeFrames input model offset output = .ok result) :
    decodeFrames (input ++ more) model offset output =
      decodeFrames (input ++ more) model input.length result := by
  induction hn : input.length - offset using Nat.strong_induction_on generalizing offset output with
  | _ n ih =>
    rcases Nat.lt_or_eq_of_le hoffset with hlt | rfl
    · obtain ⟨size, block, hframe⟩ := frame_of_decodeFrames hlt h
      have hfits := hframe.fits
      rw [hframe.step] at h
      rw [hframe.append.step]
      exact ih _ (by omega) hfits h rfl
    · rw [decodeFrames_end le_rfl] at h
      cases h
      rfl

theorem length_le_of_decodeFrames (h : decodeFrames input model offset output = .ok result) :
    output.length ≤ result.length := by
  induction hn : input.length - offset using Nat.strong_induction_on generalizing offset output with
  | _ n ih =>
    rcases Nat.lt_or_ge offset input.length with hlt | hge
    · obtain ⟨size, block, hframe⟩ := frame_of_decodeFrames hlt h
      rw [hframe.step] at h
      have hle := ih _ (by omega) h rfl
      rw [List.length_append] at hle
      omega
    · rw [decodeFrames_end hge] at h
      cases h
      rfl

/-- Bytes after the last frame make the output longer. -/
theorem length_lt_of_decodeFrames (hoffset : offset < input.length)
    (h : decodeFrames input model offset output = .ok result) :
    output.length < result.length := by
  obtain ⟨size, block, hframe⟩ := frame_of_decodeFrames hoffset h
  rw [hframe.step] at h
  have hle := length_le_of_decodeFrames h
  have hblock : block.length = 64 := length_of_decodeBlock hframe.decoded
  rw [List.length_append] at hle
  omega

/-! Containers. -/

/-- What an accepted container holds. -/
structure Accepted (input : Bytes) (model : Model) (output : Bytes) : Prop where
  long : 16 ≤ input.length
  size_eq : getU64 input 8 = .ok output.length
  frames_eq : decodeFrames input model 16 [] = .ok output

theorem accepted_of_decompressFile (h : decompressFile input model = .ok output) :
    Accepted input model output := by
  obtain ⟨hstart, h⟩ := check_bind_eq_ok.mp h
  obtain ⟨originalSize, hsize, h⟩ := bind_eq_ok.mp h
  obtain ⟨-, h⟩ := check_bind_eq_ok.mp h
  obtain ⟨-, h⟩ := check_bind_eq_ok.mp h
  obtain ⟨result, hframes, h⟩ := bind_eq_ok.mp h
  obtain ⟨hlast, hresult⟩ := check_bind_eq_ok.mp h
  cases hresult
  rw [throwIf_eq_ok, not_or] at hstart
  rw [throwIf_eq_ok, not_not] at hlast
  exact ⟨by omega, hlast ▸ hsize, hframes⟩

theorem getU64_append (h : 16 ≤ input.length) : getU64 (input ++ more) 8 = getU64 input 8 := by
  rw [getU64, getU64, throwIf_neg (by rw [List.length_append]; omega), throwIf_neg (by omega),
    ok_bind, ok_bind]
  congr 1
  apply List.foldl_ext
  intro value i hi
  rw [List.mem_range] at hi
  rw [List.getD_eq_getElem?_getD, List.getElem?_append_left (by omega),
    List.getD_eq_getElem?_getD]

/-- No accepted container is a proper beginning of another one. -/
theorem decompressFile_self_delimiting {output' : Bytes}
    (h : decompressFile input model = .ok output)
    (h' : decompressFile (input ++ more) model = .ok output') : more = [] := by
  obtain ⟨hlong, hsize, hframes⟩ := accepted_of_decompressFile h
  obtain ⟨-, hsize', hframes'⟩ := accepted_of_decompressFile h'
  rw [getU64_append hlong, hsize] at hsize'
  have hsame : output.length = output'.length := Except.ok.inj hsize'
  rw [decodeFrames_append hlong hframes] at hframes'
  by_contra hmore
  have hlonger : input.length < (input ++ more).length := by
    rw [List.length_append]
    have := List.length_pos_of_ne_nil hmore
    omega
  have := length_lt_of_decodeFrames hlonger hframes'
  omega

/-! What `compress_file` writes. -/

theorem length_putU64 (value : ℕ) : (putU64 value).length = 8 := rfl

theorem getU64_putU64 {value : ℕ} (hvalue : value < 2 ^ 64) (before rest : Bytes) :
    getU64 (before ++ putU64 value ++ rest) before.length = .ok value := by
  have hget : ∀ i, i < 8 → ((before ++ putU64 value ++ rest).getD (before.length + i) 0).val =
      value / 2 ^ (i * 8) % 2 ^ 8 := by
    intro i hi
    have hi' : i < (putU64 value).length := hi
    rw [List.getD_eq_getElem?_getD, List.append_assoc,
      List.getElem?_append_right (Nat.le_add_right _ _), Nat.add_sub_cancel_left,
      List.getElem?_append_left hi', List.getElem?_eq_getElem hi', Option.getD_some]
    simp only [putU64, List.getElem_map, List.getElem_range]
    rw [Nat.mul_comm i 8, ← Nat.shiftRight_eq_div_pow]
    rfl
  have hloop : ∀ n, n ≤ 8 → (List.range n).foldl (fun value' i => value' |||
      ((before ++ putU64 value ++ rest).getD (before.length + i) 0).val <<< (8 * i)) 0 =
        value % 2 ^ (n * 8) := by
    intro n hn
    induction n with
    | zero => rw [Nat.zero_mul, Nat.pow_zero, Nat.mod_one]; rfl
    | succ n ih =>
      rw [List.range_succ, List.foldl_append, ih (by omega), List.foldl_cons, List.foldl_nil,
        hget n hn, Nat.mul_comm 8 n, or_next_byte]
  rw [getU64, throwIf_neg (by simp only [List.length_append, length_putU64]; omega), ok_bind,
    hloop 8 le_rfl, Nat.mod_eq_of_lt hvalue]
  rfl

/-- Blocks are written as frames that are read back. -/
theorem compressBlocks_ok (hm : Dimensions model) {blocks : List Bytes}
    (hblocks : ∀ block ∈ blocks, block.length = kBlockSize) (output : Bytes) :
    ∃ frames, blocks.foldlM (compressBlock model) output = .ok (output ++ frames) ∧
      ∀ before decoded, decodeFrames (before ++ frames) model before.length decoded =
        .ok (decoded ++ blocks.flatten) := by
  induction blocks generalizing output with
  | nil =>
    refine ⟨[], by rw [List.append_nil]; rfl, ?_⟩
    intro before decoded
    rw [List.append_nil, decodeFrames_end le_rfl, List.flatten_nil, List.append_nil]
  | cons block blocks ih =>
    rw [List.forall_mem_cons] at hblocks
    obtain ⟨encoded, -, hencode, -, hdecode, -, h65, -⟩ := encodeBlock_ok hm hblocks.1
    have hsize : encoded.bytes.length ≤ 0xffff := by omega
    have hcompress : compressBlock model output block =
        .ok (output ++ u16Bytes encoded.bytes.length ++ encoded.bytes) := by
      rw [compressBlock, hencode, ok_bind, putU16_ok hsize, ok_bind]
      rfl
    obtain ⟨frames, hrun, hread⟩ := ih hblocks.2
      (output ++ u16Bytes encoded.bytes.length ++ encoded.bytes)
    refine ⟨u16Bytes encoded.bytes.length ++ encoded.bytes ++ frames, ?_, ?_⟩
    · rw [List.foldlM_cons, hcompress, ok_bind, hrun]
      simp only [List.append_assoc]
    · intro before decoded
      have hdrop : (before ++ (u16Bytes encoded.bytes.length ++ encoded.bytes ++ frames)).drop
          (before.length + 2) = encoded.bytes ++ frames := by
        rw [← List.drop_drop, List.drop_left, List.append_assoc]
        exact List.drop_left' rfl
      have hframe : Frame (before ++ (u16Bytes encoded.bytes.length ++ encoded.bytes ++ frames))
          model before.length encoded.bytes.length block := by
        refine ⟨getU16_ok hsize ?_ _, ?_, ?_⟩
        · rw [List.drop_left, List.append_assoc]
          exact List.prefix_append _ _
        · simp only [List.length_append]
          have htwo : (u16Bytes encoded.bytes.length).length = 2 := rfl
          omega
        · rw [hdrop, List.take_left]
          exact hdecode
      have hafter : (before ++ u16Bytes encoded.bytes.length ++ encoded.bytes).length =
          before.length + 2 + encoded.bytes.length := by
        simp only [List.length_append]
        rfl
      have hrest := hread (before ++ u16Bytes encoded.bytes.length ++ encoded.bytes)
        (decoded ++ block)
      rw [hafter] at hrest
      rw [hframe.step, List.flatten_cons]
      simp only [List.append_assoc] at hrest ⊢
      exact hrest

/-- Input of whole blocks is written as a container that is read back. -/
theorem decompressFile_compressFile (hm : Dimensions model) {input : Vec Byte}
    (hne : input.toList ≠ []) (h64 : input.size % kBlockSize = 0) :
    ∃ container, compressFile input model = .ok container ∧
      decompressFile container model = .ok input.toList := by
  have hpos : 0 < input.size := List.length_pos_of_ne_nil hne
  have hlt : input.size < 2 ^ 63 := input.size_lt
  have hwhole : input.toList.length % kBlockSize = 0 := h64
  have hflat : (fullBlocks kBlockSize input.toList).flatten = input.toList := by
    rw [flatten_fullBlocks, Nat.div_mul_cancel (Nat.dvd_of_mod_eq_zero hwhole), List.take_length]
  obtain ⟨frames, hrun, hread⟩ :=
    compressBlocks_ok hm length_of_mem_fullBlocks (containerMagic ++ putU64 input.size)
  have hframes := hread (containerMagic ++ putU64 input.size) []
  rw [List.nil_append, hflat] at hframes
  have hsize : getU64 (containerMagic ++ putU64 input.size ++ frames) 8 = .ok input.size :=
    getU64_putU64 (by omega) containerMagic frames
  refine ⟨containerMagic ++ putU64 input.size ++ frames, ?_, ?_⟩
  · have hcheck : ¬ (input.toList = [] ∨ input.toList.length % kBlockSize ≠ 0) := by
      rintro (h | h)
      · exact hne h
      · exact h hwhole
    rw [compressFile, blocksFrom, throwIf_neg hcheck, ok_bind]
    exact hrun
  · have hmagic : (containerMagic ++ putU64 input.size ++ frames).take 8 = containerMagic := by
      rw [List.append_assoc]
      exact List.take_left' rfl
    have hstart : ¬ ((containerMagic ++ putU64 input.size ++ frames).length < 16 ∨
        (containerMagic ++ putU64 input.size ++ frames).take 8 ≠ containerMagic) := by
      rintro (h | h)
      · rw [List.length_append] at h
        exact absurd h (Nat.not_lt.mpr (Nat.le_add_right 16 _))
      · exact h hmagic
    rw [decompressFile, throwIf_neg hstart, ok_bind, hsize,
      ok_bind, throwIf_neg (by omega), ok_bind, throwIf_neg (Nat.not_le.mpr hlt), ok_bind]
    change (decodeFrames _ model (containerMagic ++ putU64 input.size).length [] >>= _) = _
    rw [hframes, ok_bind, throwIf_neg (show ¬ input.toList.length ≠ input.size from fun h => h rfl)]
    rfl

/-- The container is read back, and it neither begins nor continues another accepted one. -/
theorem container_exact {model : Model} (hm : Dimensions model) {input : Vec Byte}
    (hne : input.toList ≠ []) (h64 : input.size % kBlockSize = 0) :
    ∃ container, compressFile input model = .ok container ∧
      decompressFile container model = .ok input.toList ∧
      (∀ cut more, container = cut ++ more → more ≠ [] → Throws (decompressFile cut model)) ∧
      ∀ more, more ≠ [] → Throws (decompressFile (container ++ more) model) := by
  obtain ⟨container, hwrite, hread⟩ := decompressFile_compressFile hm hne h64
  refine ⟨container, hwrite, hread, ?_, ?_⟩
  · rintro cut more rfl hmore
    cases hcut : decompressFile cut model with
    | error e => exact ⟨e, rfl⟩
    | ok output => exact absurd (decompressFile_self_delimiting hcut hread) hmore
  · intro more hmore
    cases hlong : decompressFile (container ++ more) model with
    | error e => exact ⟨e, rfl⟩
    | ok output => exact absurd (decompressFile_self_delimiting hread hlong) hmore

def exampleInput : Vec Byte := ⟨List.replicate 64 77 ++ List.replicate 64 5, by simp⟩

theorem gappedModel_container_exact :
    ∃ container, compressFile exampleInput gappedModel = .ok container ∧
      decompressFile container gappedModel = .ok exampleInput.toList ∧
      (∀ cut more, container = cut ++ more → more ≠ [] →
        Throws (decompressFile cut gappedModel)) ∧
      ∀ more, more ≠ [] → Throws (decompressFile (container ++ more) gappedModel) :=
  container_exact ⟨rfl, rfl, by decide, by decide, by decide, by decide⟩ (by simp [exampleInput])
    (by simp [exampleInput, Vec.size, kBlockSize])

end FpcBsel
