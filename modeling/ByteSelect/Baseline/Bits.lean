import ByteSelect.BitStream
import ByteSelect.Machine

/-! Bit streams and sign extension of the baseline codecs. -/
namespace ByteSelect.Baseline

open BitStream PackedBytes

/-- `static_cast<std::uint8_t>`. -/
def toByte (value : ℕ) : Byte := Fin.ofNat _ value

def loadLittleEndian (block : Block) (offset width : ℕ) : ℕ :=
  (List.range width).foldl (fun value i => value ||| (block.getD (offset + i) 0).val <<< (8 * i)) 0

structure BitWriter where
  bytes : List Byte := []
  bits : ℕ := 0

/-- One turn of the loop of `put`. -/
def BitWriter.putBit (writer : BitWriter) (value : ℕ) : BitWriter :=
  let bytes := if writer.bits &&& 7 = 0 then writer.bytes ++ [0] else writer.bytes
  let bytes := if value &&& 1 ≠ 0
    then bytes.modifyLast fun back => back ||| toByte (1 <<< (writer.bits &&& 7)) else bytes
  { bytes := bytes, bits := writer.bits + 1 }

def BitWriter.put (writer : BitWriter) (value count : ℕ) : BitWriter :=
  (List.range count).foldl (fun writer i => writer.putBit (value >>> i)) writer

/-- Positions are counted in ℕ: no vector that fits into memory has more bits than a
`std::size_t` counts. -/
structure BitReader where
  bytes : List Byte
  bit : ℕ := 0

abbrev Reading := StateT BitReader (Except Error)

def get (count : ℕ) : Reading ℕ := fun reader =>
  if reader.bit + count > reader.bytes.length * 8 then
    .error (.runtimeError "truncated baseline bitstream")
  else
    .ok ((List.range count).foldl (fun value i => value |||
      (((reader.bytes.getD ((reader.bit + i) / 8) 0).val >>> ((reader.bit + i) &&& 7)) &&& 1) <<< i)
      0, { reader with bit := reader.bit + count })

/-- The value `sign_extend` returns, as the `std::uint32_t` it is converted to. -/
def signExtend (value : BitVec 32) (bits : ℕ) : BitVec 32 :=
  let sign := 1#32 <<< (bits - 1)
  (value ^^^ sign) - sign

def isSignExtended (value : BitVec 32) (payloadBits : ℕ) : Bool :=
  let payloadMask := 1#32 <<< payloadBits - 1#32
  let payload := value &&& payloadMask
  let signBit := 1#32 <<< (payloadBits - 1)
  let extended := if payload &&& signBit = 0 then payload else payload ||| ~~~payloadMask
  value = extended

def halfwordIsSignExtendedByte (value : BitVec 16) : Bool :=
  -128 ≤ value.toInt && value.toInt ≤ 127

theorem loadLittleEndian_eq (block : Block) (offset width : ℕ) :
    loadLittleEndian block offset width =
      pack ((List.range width).map fun i => block.getD (offset + i) 0) := by
  induction width with
  | zero => rfl
  | succ n ih =>
    have hlt := pack_lt ((List.range n).map fun i => block.getD (offset + i) 0)
    rw [List.length_map, List.length_range, Nat.mul_comm] at hlt
    rw [loadLittleEndian, List.range_succ, List.foldl_append, ← loadLittleEndian, ih,
      List.foldl_cons, List.foldl_nil, or_shiftLeft _ hlt, List.map_append, pack_append,
      List.length_map, List.length_range, List.map_singleton, pack, pack, Nat.mul_zero,
      Nat.add_zero]

variable {l u : List Bool} {writer : BitWriter} {reader : BitReader}

/-! Writing. -/

/-- A writer that has been given these bits. -/
structure BitWriter.Holds (writer : BitWriter) (l : List Bool) : Prop where
  bytes_eq : writer.bytes = toOctets l
  bits_eq : writer.bits = l.length

theorem holds_empty : ({} : BitWriter).Holds [] := ⟨rfl, rfl⟩

theorem and_seven (n : ℕ) : n &&& 7 = n % 8 := Nat.and_two_pow_sub_one_eq_mod n 3

theorem or_zero_byte (b : Byte) : b ||| 0 = b := by
  apply Fin.ext
  change (b.val ||| 0) % 2 ^ 8 = b.val
  rw [Nat.or_zero, Nat.mod_eq_of_lt b.isLt]

theorem modifyLast_or_zero (bytes : List Byte) :
    bytes.modifyLast (fun back => back ||| 0) = bytes := by
  rcases List.eq_nil_or_concat bytes with rfl | ⟨front, back, rfl⟩
  · rfl
  · rw [List.concat_eq_append, List.modifyLast_concat, or_zero_byte]

theorem BitWriter.Holds.putBit (h : writer.Holds l) (value : ℕ) :
    (writer.putBit value).Holds (l ++ [value.testBit 0]) := by
  refine ⟨?_, ?_⟩
  · have hone : value &&& 1 = (value.testBit 0).toNat := by
      rw [toNat_testBit_zero, Nat.and_one_is_mod]
    rw [toOctets_concat, ← h.bytes_eq, ← h.bits_eq, ← and_seven, BitWriter.putBit, hone]
    cases value.testBit 0 with
    | true => rfl
    | false =>
      have hzero : ∀ n, Fin.ofNat (2 ^ 8) (false.toNat <<< n) = 0 := fun n => by
        rw [Bool.toNat_false, Nat.zero_shiftLeft]
        rfl
      rw [hzero, modifyLast_or_zero]
      rfl
  · rw [List.length_append, ← h.bits_eq]
    rfl

theorem BitWriter.Holds.put (h : writer.Holds l) (value n : ℕ) :
    (writer.put value n).Holds (l ++ bitsOf value n) := by
  induction n with
  | zero =>
    rw [bitsOf, List.append_nil]
    exact h
  | succ n ih =>
    rw [BitWriter.put, List.range_succ, List.foldl_append, bitsOf_succ, ← List.append_assoc]
    have hstep := ih.putBit (value >>> n)
    rw [Nat.testBit_shiftRight, Nat.add_zero] at hstep
    exact hstep

theorem BitWriter.Holds.put_put (h : writer.Holds l) (value n value' n' : ℕ) :
    ((writer.put value n).put value' n').Holds (l ++ (bitsOf value n ++ bitsOf value' n')) := by
  rw [← List.append_assoc]
  exact (h.put value n).put value' n'

/-! Reading. -/

/-- The bits a reader stands before. -/
structure BitReader.Before (reader : BitReader) (l : List Bool) : Prop where
  le : reader.bit ≤ reader.bytes.length * 8
  drop_eq : (ofOctets reader.bytes).drop reader.bit = l

theorem before_start (bytes : List Byte) :
    BitReader.Before { bytes := bytes } (ofOctets bytes) :=
  ⟨Nat.zero_le _, rfl⟩

theorem BitReader.Before.length_eq (h : reader.Before l) :
    reader.bit + l.length = reader.bytes.length * 8 := by
  have hle := h.le
  rw [← h.drop_eq, List.length_drop, length_ofOctets]
  omega

/-- One bit of the loop of `get`. -/
theorem BitReader.Before.bit_eq (h : reader.Before l) {i : ℕ} (hi : i < l.length) :
    ((reader.bytes.getD ((reader.bit + i) / 8) 0).val >>> ((reader.bit + i) &&& 7)) &&& 1 =
      l[i].toNat := by
  have hlen := h.length_eq
  have hbyte : (reader.bit + i) / 8 < reader.bytes.length := by omega
  have hsplit : reader.bit + i = (reader.bit + i) / 8 * 8 + (reader.bit + i) % 8 := by omega
  have hget := getElem?_ofOctets reader.bytes ((reader.bit + i) / 8)
    (Nat.mod_lt (reader.bit + i) (show 0 < 8 by decide))
  rw [← hsplit, ← List.getElem?_drop, h.drop_eq, List.getElem?_eq_getElem hi,
    List.getElem?_eq_getElem hbyte, Option.map_some, Option.some_inj] at hget
  rw [hget, List.getD_eq_getElem _ _ hbyte, and_seven, Nat.toNat_testBit, Nat.and_one_is_mod,
    Nat.shiftRight_eq_div_pow]

/-- The loop of `get` gathers the bits from the lowest on. -/
theorem get_loop (h : reader.Before l) {n : ℕ} (hn : n ≤ l.length) :
    (List.range n).foldl (fun value i => value |||
      (((reader.bytes.getD ((reader.bit + i) / 8) 0).val >>> ((reader.bit + i) &&& 7)) &&& 1) <<< i)
      0 = ofBits (l.take n) := by
  induction n with
  | zero => rfl
  | succ n ih =>
    have hlt : n < l.length := hn
    have hlen : (l.take n).length = n := List.length_take_of_le hlt.le
    have hvalue := ofBits_lt (l.take n)
    rw [hlen] at hvalue
    have hone : ofBits [l[n]] = l[n].toNat := by simp [ofBits]
    rw [List.range_succ, List.foldl_append, ih hlt.le, List.foldl_cons, List.foldl_nil,
      h.bit_eq hlt, or_shiftLeft _ hvalue, List.take_succ_eq_append_getElem hlt, ofBits_append,
      hlen, hone]

theorem get_eq_ok (h : reader.Before l) {n : ℕ} (hn : n ≤ l.length) :
    get n reader = .ok (ofBits (l.take n), { reader with bit := reader.bit + n }) := by
  have hlen := h.length_eq
  rw [get, if_neg (by omega), get_loop h hn]

theorem BitReader.Before.advance (h : reader.Before l) {n : ℕ} (hn : n ≤ l.length) :
    BitReader.Before { reader with bit := reader.bit + n } (l.drop n) := by
  have hlen := h.length_eq
  refine ⟨?_, ?_⟩
  · dsimp only
    omega
  · rw [← h.drop_eq, List.drop_drop]

/-- Reading a field takes its bits. -/
theorem get_implements (n : ℕ) : Implements BitReader.Before (get n) (takeBits n) := by
  constructor
  · intro reader l a u h hp
    unfold takeBits at hp
    split at hp
    · rename_i hn
      cases hp
      exact ⟨_, get_eq_ok h hn, h.advance hn⟩
    · cases hp
  · intro reader l h hp
    have hlen := h.length_eq
    unfold takeBits at hp
    split at hp
    · cases hp
    · rw [get, if_pos (by omega)]
      exact ⟨_, rfl⟩

theorem get_decodes {value n : ℕ} (h : value < 2 ^ n) :
    Decodes BitReader.Before (get n) (bitsOf value n) value :=
  decodes_field get_implements h

/-- A reader of a whole stream may ignore the bits that fill up its last byte. -/
theorem run_of_decodes {α : Type} {m : Reading α} {t : List Bool} {a : α}
    (h : Decodes BitReader.Before m t a) :
    ∃ reader, m { bytes := toOctets t } = .ok (a, reader) := by
  have hstart := before_start (toOctets t)
  rw [ofOctets_toOctets] at hstart
  obtain ⟨reader, hrun, -⟩ := h _ _ hstart
  exact ⟨reader, hrun⟩

/-! Sequences of fields, each a value and the number of its bits. -/

/-- Writing fields one after the other, as the encoders do. -/
def BitWriter.putAll (writer : BitWriter) (fields : List (ℕ × ℕ)) : BitWriter :=
  fields.foldl (fun writer field => writer.put field.1 field.2) writer

/-- Reading fields of these sizes one after the other. -/
def getAll (counts : List ℕ) : Reading (List ℕ) := counts.mapM get

def fieldBits (fields : List (ℕ × ℕ)) : List Bool :=
  fields.flatMap fun field => bitsOf field.1 field.2

theorem length_fieldBits (fields : List (ℕ × ℕ)) :
    (fieldBits fields).length = (fields.map Prod.snd).sum := by
  rw [fieldBits, List.length_flatMap]
  congr 1
  apply List.map_congr_left
  intro field _
  exact length_bitsOf field.1 field.2

theorem BitWriter.Holds.putAll (h : writer.Holds l) (fields : List (ℕ × ℕ)) :
    (writer.putAll fields).Holds (l ++ fieldBits fields) := by
  induction fields generalizing writer l with
  | nil =>
    rw [fieldBits, List.flatMap_nil, List.append_nil]
    exact h
  | cons field fields ih =>
    have hrest := ih (h.put field.1 field.2)
    rw [List.append_assoc] at hrest
    exact hrest

theorem getAll_eq_ok {fields : List (ℕ × ℕ)} (h : reader.Before (fieldBits fields ++ u)) :
    getAll (fields.map Prod.snd) reader = .ok (fields.map fun field => field.1 % 2 ^ field.2,
      { reader with bit := reader.bit + (fields.map Prod.snd).sum }) := by
  induction fields generalizing reader with
  | nil => rfl
  | cons field fields ih =>
    have hbits : fieldBits (field :: fields) ++ u =
        bitsOf field.1 field.2 ++ (fieldBits fields ++ u) := by
      rw [fieldBits, List.flatMap_cons, List.append_assoc]
      rfl
    have hlen : (bitsOf field.1 field.2).length = field.2 := length_bitsOf field.1 field.2
    rw [hbits] at h
    have hle : field.2 ≤ (bitsOf field.1 field.2 ++ (fieldBits fields ++ u)).length := by
      rw [List.length_append, hlen]
      exact Nat.le_add_right _ _
    have hget := get_eq_ok h hle
    rw [List.take_left' hlen, ofBits_bitsOf] at hget
    have hrest := h.advance hle
    rw [List.drop_left' hlen] at hrest
    have hih := ih hrest
    have hrun : getAll ((field :: fields).map Prod.snd) reader =
        (do
          let value ← get field.2
          let values ← getAll (fields.map Prod.snd)
          pure (value :: values) : Reading (List ℕ)) reader := by
      rw [getAll, List.map_cons, List.mapM_cons]
      rfl
    rw [hrun]
    change (get field.2 reader >>= _) = _
    rw [hget]
    change (getAll (fields.map Prod.snd) _ >>= _) = _
    rw [hih, List.map_cons, List.map_cons, List.sum_cons, ← Nat.add_assoc]
    rfl

/-- The bits of the bytes past the last field. -/
theorem BitWriter.Holds.testBit_eq_false (h : writer.Holds l) {i j : ℕ} (hj : j < 8)
    (hpast : l.length ≤ i * 8 + j) : (writer.bytes.getD i 0).val.testBit j = false := by
  have hget := getElem?_ofOctets writer.bytes i hj
  rw [h.bytes_eq, ofOctets_toOctets, List.getElem?_append_right hpast,
    List.getElem?_replicate] at hget
  rw [h.bytes_eq, List.getD_eq_getElem?_getD]
  cases hbyte : (toOctets l)[i]? with
  | none =>
    rw [Option.getD_none]
    exact Nat.zero_testBit j
  | some byte =>
    rw [hbyte, Option.map_some] at hget
    split at hget
    · rw [Option.getD_some]
      exact (Option.some_inj.mp hget).symm
    · cases hget

theorem get_fails_iff (count : ℕ) (reader : BitReader) :
    get count reader = .error (.runtimeError "truncated baseline bitstream") ↔
      reader.bytes.length * 8 < reader.bit + count := by
  constructor
  · intro herror
    by_contra hlt
    rw [get, if_neg hlt] at herror
    cases herror
  · intro hlt
    rw [get, if_pos hlt]

def written (fields : List (ℕ × ℕ)) : List Byte := (BitWriter.putAll {} fields).bytes

def bitCount (fields : List (ℕ × ℕ)) : ℕ := (fields.map Prod.snd).sum

/-- What is written field by field is read back field by field: the bytes are as few as the
bits allow and filled up with zero bits, and no reader gets past the last of them. -/
theorem getAll_putAll (fields : List (ℕ × ℕ)) :
    (written fields).length = (bitCount fields + 7) / 8 ∧
    (∀ i j, j < 8 → bitCount fields ≤ i * 8 + j →
      ((written fields).getD i 0).val.testBit j = false) ∧
    getAll (fields.map Prod.snd) { bytes := written fields } =
      .ok (fields.map fun field => field.1 % 2 ^ field.2,
        { bytes := written fields, bit := bitCount fields }) ∧
    ∀ bit count, (written fields).length * 8 < bit + count →
      get count { bytes := written fields, bit := bit } =
        .error (.runtimeError "truncated baseline bitstream") := by
  have hholds := holds_empty.putAll fields
  rw [List.nil_append] at hholds
  have hlen := length_fieldBits fields
  refine ⟨?_, ?_, ?_, fun bit count => (get_fails_iff count { bit := bit, .. }).mpr⟩
  · rw [written, hholds.bytes_eq, length_toOctets, hlen, bitCount]
  · intro i j hj hpast
    rw [bitCount, ← hlen] at hpast
    exact hholds.testBit_eq_false hj hpast
  · have hstart := before_start (BitWriter.putAll {} fields).bytes
    rw [hholds.bytes_eq, ofOctets_toOctets, ← hholds.bytes_eq] at hstart
    have hread := getAll_eq_ok hstart
    rw [Nat.zero_add] at hread
    exact hread

end ByteSelect.Baseline
