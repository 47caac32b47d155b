import ByteSelect.BackReference
import ByteSelect.Baseline.Bits
import ByteSelect.WhileLoop

/-! LZ77-lite: literals and back references in groups of eight, behind a byte of flags. -/
namespace ByteSelect.Baseline

open BackReference BitStream

/-! The encoder. -/

structure LzMatch where
  offset : ℕ := 0
  length : ℕ := 0

/-- One turn of the loop that measures how far a candidate matches. -/
def matchStep (block : Block) (candidate position maxLength length : ℕ) : Option ℕ :=
  if length < maxLength ∧ position + length < block.length ∧
      block.getD (candidate + length) 0 = block.getD (position + length) 0 then some (length + 1)
  else none

def matchLength (block : Block) (candidate position maxLength : ℕ) : ℕ :=
  WhileLoop.run (matchStep block candidate position maxLength) maxLength 0

/-- One turn of the loop over the candidates. -/
def lzCandidate (block : Block) (position maxLength : ℕ) (best : LzMatch) (candidate : ℕ) :
    LzMatch :=
  let length := matchLength block candidate position maxLength
  if length > best.length then { offset := position - candidate, length := length } else best

def findLzMatch (block : Block) (position window maxLength : ℕ) : LzMatch :=
  let first := if position > window then position - window else 0
  (List.range' first (position - first)).foldl (lzCandidate block position maxLength) {}

def kWindow : ℕ := 255
def kMaxLength : ℕ := 255
def kMinMatch : ℕ := 3

/-- One turn of the loop of `lz77_lite_encode` over the tokens of a group. -/
def lz77EncodeToken (block : Block) (flagsAt : ℕ) (state : List Byte × ℕ) (token : ℕ) :
    List Byte × ℕ :=
  let (output, position) := state
  if position < block.length then
    let found := findLzMatch block position kWindow kMaxLength
    if found.length ≥ kMinMatch then
      (output.modify flagsAt (fun flags => flags ||| toByte (1 <<< token)) ++
        [toByte found.offset, toByte found.length], position + found.length)
    else (output ++ [block.getD position 0], position + 1)
  else state

/-- One turn of the loop over the groups. -/
def lz77EncodeGroup (block : Block) (state : List Byte × ℕ) : Option (List Byte × ℕ) :=
  let (output, position) := state
  if position < block.length then
    let flagsAt := output.length
    some ((List.range 8).foldl (lz77EncodeToken block flagsAt) (output ++ [0], position))
  else none

def lz77LiteEncode (block : Block) : Except Error (List Byte) := do
  throwIf (block = []) (.invalidArgument "LZ77-lite requires a non-empty block")
  let (output, _) := WhileLoop.run (lz77EncodeGroup block) block.length ([], 0)
  return output

/-! The decoder. -/

/-- One turn of the loop of `lz77_lite_decode` over the tokens of a group. -/
def lz77DecodeToken (encoded : List Byte) (outputSize : ℕ) (flags : Byte) (state : ℕ × Block)
    (token : ℕ) : Except Error (ℕ × Block) :=
  let (input, output) := state
  if output.length < outputSize then
    if flags.val &&& 1 <<< token = 0 then do
      throwIf (input ≥ encoded.length) (.runtimeError "truncated LZ77-lite literal")
      return (input + 1, output ++ [encoded.getD input 0])
    else do
      throwIf (input + 1 ≥ encoded.length) (.runtimeError "truncated LZ77-lite match")
      let offset := (encoded.getD input 0).val
      let length := (encoded.getD (input + 1) 0).val
      throwIf (offset = 0 ∨ offset > output.length ∨ length < kMinMatch ∨
        output.length + length > outputSize) (.runtimeError "invalid LZ77-lite match")
      return (input + 2, copyBack 0 offset length output)
  else .ok state

/-- The loop over the groups, with at most `n` turns; every turn adds to the output. -/
def lz77DecodeGroups (encoded : List Byte) (outputSize : ℕ) :
    ℕ → ℕ × Block → Except Error Block
  | 0, (_, output) => .ok output
  | n + 1, (input, output) =>
    if output.length < outputSize then do
      throwIf (input ≥ encoded.length) (.runtimeError "truncated LZ77-lite flags")
      let flags := encoded.getD input 0
      let state ← (List.range 8).foldlM (lz77DecodeToken encoded outputSize flags)
        (input + 1, output)
      lz77DecodeGroups encoded outputSize n state
    else .ok output

def lz77LiteDecode (encoded : List Byte) (outputSize : ℕ) : Except Error Block := do
  -- `reserve` refuses what no vector can hold
  throwIf (outputSize ≥ 2 ^ 63) (.lengthError "vector::reserve")
  lz77DecodeGroups encoded outputSize outputSize (0, [])

variable {block : Block} {p q n token input outputSize : ℕ} {bits : List Bool}
  {bytes encoded : List Byte}

/-! Matches. -/

/-- The block repeats, `offset` places further on, for as long as the match says. -/
structure Repeats (block : Block) (p : ℕ) (found : LzMatch) : Prop where
  offset_pos : 0 < found.offset
  offset_le : found.offset ≤ p
  offset_lt : found.offset < 2 ^ 8
  length_lt : found.length < 2 ^ 8
  le_length : p + found.length ≤ block.length
  eq : ∀ k < found.length, block[p - found.offset + k]? = block[p + k]?

theorem matchStep_some {candidate maxLength length length' : ℕ}
    (h : matchStep block candidate p maxLength length = some length') :
    length' = length + 1 ∧ length < maxLength ∧ p + length < block.length ∧
      block.getD (candidate + length) 0 = block.getD (p + length) 0 := by
  unfold matchStep at h
  split at h
  · rename_i hc
    cases h
    exact ⟨rfl, hc⟩
  · cases h

theorem matchLength_spec {candidate maxLength : ℕ} (hc : candidate < p) (hp : p ≤ block.length) :
    matchLength block candidate p maxLength ≤ maxLength ∧
      p + matchLength block candidate p maxLength ≤ block.length ∧
      ∀ k < matchLength block candidate p maxLength, block[candidate + k]? = block[p + k]? := by
  let inv := fun length => length ≤ maxLength ∧ p + length ≤ block.length ∧
    ∀ k < length, block[candidate + k]? = block[p + k]?
  have hstep : ∀ length length', inv length →
      matchStep block candidate p maxLength length = some length' → inv length' := by
    rintro length length' ⟨-, -, heq⟩ hs
    obtain ⟨rfl, hmax, hlt, hbyte⟩ := matchStep_some hs
    refine ⟨hmax, hlt, fun k hk => ?_⟩
    rcases Nat.lt_succ_iff_lt_or_eq.mp hk with hk | rfl
    · exact heq k hk
    · have hcandidate : candidate + k < block.length := by omega
      rw [List.getD_eq_getElem _ _ hcandidate, List.getD_eq_getElem _ _ hlt] at hbyte
      rw [List.getElem?_eq_getElem hcandidate, List.getElem?_eq_getElem hlt, hbyte]
  exact WhileLoop.run_invariant hstep maxLength ⟨Nat.zero_le _, hp, fun k hk => by omega⟩

/-- The search finds a repetition, or nothing. -/
theorem findLzMatch_spec (hp : p ≤ block.length) :
    (findLzMatch block p kWindow kMaxLength).length = 0 ∨
      Repeats block p (findLzMatch block p kWindow kMaxLength) := by
  unfold findLzMatch
  dsimp only
  generalize hfirst : (if p > kWindow then p - kWindow else 0) = first
  have hmem : ∀ candidate ∈ List.range' first (p - first),
      candidate < p ∧ p - candidate ≤ kWindow := by
    intro candidate hc
    rw [List.mem_range'_1] at hc
    split at hfirst <;> omega
  generalize List.range' first (p - first) = candidates at hmem
  suffices ∀ best : LzMatch, best.length = 0 ∨ Repeats block p best →
      (candidates.foldl (lzCandidate block p kMaxLength) best).length = 0 ∨
        Repeats block p (candidates.foldl (lzCandidate block p kMaxLength) best) from
    this {} (Or.inl rfl)
  induction candidates with
  | nil => exact fun best h => h
  | cons candidate candidates ih =>
    intro best hbest
    rw [List.forall_mem_cons] at hmem
    refine ih hmem.2 _ ?_
    unfold lzCandidate
    dsimp only
    split
    · obtain ⟨hc, hwindow⟩ := hmem.1
      obtain ⟨hmax, hle, heq⟩ := @matchLength_spec block p candidate kMaxLength hc hp
      have hwindow' : p - candidate ≤ 255 := hwindow
      have hmax' : matchLength block candidate p kMaxLength ≤ 255 := hmax
      refine Or.inr ⟨by dsimp only; omega, by dsimp only; omega, by dsimp only; omega,
        by dsimp only; omega, hle, fun k hk => ?_⟩
      rw [show p - (p - candidate) + k = candidate + k by omega]
      exact heq k hk
    · exact hbest

/-! Groups. -/

/-- The flags and the bytes of at most `n` tokens, which take the block from one position to
another. -/
inductive CodedTokens (block : Block) : ℕ → ℕ → List Bool → List Byte → ℕ → Prop
  | full {p : ℕ} : CodedTokens block 0 p [] [] p
  | finished {n p : ℕ} (h : block.length ≤ p) : CodedTokens block n p [] [] p
  | literal {n p q : ℕ} {bits : List Bool} {bytes : List Byte} (h : p < block.length)
      (hrest : CodedTokens block n (p + 1) bits bytes q) :
      CodedTokens block (n + 1) p (false :: bits) (block[p] :: bytes) q
  | copy {n p q : ℕ} {bits : List Bool} {bytes : List Byte} {found : LzMatch}
      (h : Repeats block p found) (hmin : kMinMatch ≤ found.length)
      (hrest : CodedTokens block n (p + found.length) bits bytes q) :
      CodedTokens block (n + 1) p (true :: bits)
        (toByte found.offset :: toByte found.length :: bytes) q

/-- No token is longer than what it stands for. -/
theorem CodedTokens.length_le (h : CodedTokens block n p bits bytes q) :
    p + bytes.length ≤ q := by
  induction h with
  | full => simp
  | finished => simp
  | literal h _ ih =>
    rw [List.length_cons]
    omega
  | copy h hmin _ ih =>
    unfold kMinMatch at hmin
    rw [List.length_cons, List.length_cons]
    omega

theorem CodedTokens.length_bits_le (h : CodedTokens block n p bits bytes q) : bits.length ≤ n := by
  induction h with
  | full => exact Nat.le_refl 0
  | finished => exact Nat.zero_le _
  | literal _ _ ih => exact Nat.succ_le_succ ih
  | copy _ _ _ ih => exact Nat.succ_le_succ ih

/-- A group that does not reach the end of the block uses all of its tokens. -/
theorem CodedTokens.add_le (h : CodedTokens block n p bits bytes q) (hq : q < block.length) :
    p + n ≤ q := by
  induction h with
  | full => exact Nat.le_refl _
  | finished h => omega
  | literal _ _ ih =>
    have hrest := ih hq
    omega
  | copy _ hmin _ ih =>
    have hrest := ih hq
    unfold kMinMatch at hmin
    omega

theorem CodedTokens.le_length (h : CodedTokens block n p bits bytes q) (hp : p ≤ block.length) :
    q ≤ block.length := by
  induction h with
  | full => exact hp
  | finished => exact hp
  | literal h _ ih => exact ih h
  | copy h _ _ ih => exact ih h.le_length

/-! Writing a group. -/

theorem modify_middle {α : Type} (f : α → α) (pre : List α) (a : α) (mid : List α) :
    (pre ++ a :: mid).modify pre.length f = pre ++ f a :: mid := by
  induction pre with
  | nil => rfl
  | cons b pre ih =>
    rw [List.cons_append, List.length_cons, List.modify_succ_cons, ih, List.cons_append]

theorem toByte_val (b : Byte) : toByte b.val = b := Fin.ofNat_val_eq_self b

/-- The loop stays where it is behind the end of the block. -/
theorem foldl_encodeToken_finished (h : block.length ≤ p) (flagsAt : ℕ) (output : List Byte)
    (tokens : List ℕ) :
    tokens.foldl (lz77EncodeToken block flagsAt) (output, p) = (output, p) := by
  induction tokens with
  | nil => rfl
  | cons token tokens ih =>
    have hstay : lz77EncodeToken block flagsAt (output, p) token = (output, p) :=
      if_neg (Nat.not_lt.mpr h)
    rw [List.foldl_cons, hstay, ih]

theorem encodeToken_literal (h : p < block.length)
    (hmin : ¬ kMinMatch ≤ (findLzMatch block p kWindow kMaxLength).length) (pre : List Byte)
    (flags : Byte) (mid : List Byte) (token : ℕ) :
    lz77EncodeToken block pre.length (pre ++ flags :: mid, p) token =
      (pre ++ flags :: (mid ++ [block[p]]), p + 1) := by
  unfold lz77EncodeToken
  dsimp only
  rw [if_pos h, if_neg hmin, List.getD_eq_getElem _ _ h, List.append_assoc, List.cons_append]

theorem encodeToken_copy (h : p < block.length)
    (hmin : kMinMatch ≤ (findLzMatch block p kWindow kMaxLength).length) (pre : List Byte)
    {flags : Byte} (mid : List Byte) (hflags : flags.val < 2 ^ token) (htoken : token < 8) :
    lz77EncodeToken block pre.length (pre ++ flags :: mid, p) token =
      (pre ++ toByte (flags.val + 2 ^ token * 1) ::
        (mid ++ [toByte (findLzMatch block p kWindow kMaxLength).offset,
          toByte (findLzMatch block p kWindow kMaxLength).length]),
        p + (findLzMatch block p kWindow kMaxLength).length) := by
  have hor := @or_bit flags.val token 1 hflags (by omega) (by decide)
  have hflag : flags ||| toByte (1 <<< token) = toByte (flags.val + 2 ^ token * 1) := by
    rw [toByte, toByte, hor, Fin.ofNat_val_eq_self]
  unfold lz77EncodeToken
  dsimp only
  rw [if_pos h, if_pos hmin, modify_middle, hflag, List.append_assoc, List.cons_append]

/-- The tokens of a group from one on, and what the byte of flags becomes. -/
theorem foldl_encodeToken (hp : p ≤ block.length) (pre : List Byte) {flags : Byte}
    (mid : List Byte) (hflags : flags.val < 2 ^ token) (htoken : token + n ≤ 8) :
    ∃ bits bytes q, CodedTokens block n p bits bytes q ∧
      (List.range' token n).foldl (lz77EncodeToken block pre.length) (pre ++ flags :: mid, p) =
        (pre ++ toByte (flags.val + 2 ^ token * ofBits bits) :: (mid ++ bytes), q) := by
  induction n generalizing token p flags mid with
  | zero =>
    refine ⟨[], [], p, .full, ?_⟩
    rw [ofBits, Nat.mul_zero, Nat.add_zero, toByte_val, List.append_nil]
    rfl
  | succ n ih =>
    rcases Nat.lt_or_ge p block.length with hlt | hge
    · rw [List.range'_succ, List.foldl_cons]
      have hpow := Nat.pow_succ 2 token
      by_cases hmin : kMinMatch ≤ (findLzMatch block p kWindow kMaxLength).length
      · have hrepeats : Repeats block p (findLzMatch block p kWindow kMaxLength) := by
          refine (findLzMatch_spec hp).resolve_left fun hzero => ?_
          rw [hzero] at hmin
          exact absurd hmin (by decide)
        have hfit : 2 ^ (token + 1) ≤ 2 ^ 8 := Nat.pow_le_pow_right (by decide) (by omega)
        have hval : (toByte (flags.val + 2 ^ token * 1)).val = flags.val + 2 ^ token * 1 :=
          Nat.mod_eq_of_lt (by omega)
        obtain ⟨bits, bytes, q, hcoded, hfold⟩ := @ih
          (p + (findLzMatch block p kWindow kMaxLength).length) (token + 1)
          hrepeats.le_length (toByte (flags.val + 2 ^ token * 1))
          (mid ++ [toByte (findLzMatch block p kWindow kMaxLength).offset,
            toByte (findLzMatch block p kWindow kMaxLength).length])
          (by rw [hval]; omega) (by omega)
        refine ⟨true :: bits, _, q, .copy hrepeats hmin hcoded, ?_⟩
        have hsum : flags.val + 2 ^ token * 1 + 2 ^ (token + 1) * ofBits bits =
            flags.val + 2 ^ token * ofBits (true :: bits) := by
          rw [ofBits, Bool.toNat_true, hpow]
          ring
        rw [encodeToken_copy hlt hmin pre mid hflags (by omega), hfold, hval, hsum, List.append_assoc,
          List.cons_append, List.cons_append, List.nil_append]
      · obtain ⟨bits, bytes, q, hcoded, hfold⟩ := @ih (p + 1) (token + 1) hlt flags
          (mid ++ [block[p]]) (by omega) (by omega)
        refine ⟨false :: bits, _, q, .literal hlt hcoded, ?_⟩
        have hsum : 2 ^ (token + 1) * ofBits bits = 2 ^ token * ofBits (false :: bits) := by
          rw [ofBits, Bool.toNat_false, hpow]
          ring
        rw [encodeToken_literal hlt hmin, hfold, hsum, List.append_assoc, List.cons_append,
          List.nil_append]
    · refine ⟨[], [], p, .finished hge, ?_⟩
      rw [foldl_encodeToken_finished hge, ofBits, Nat.mul_zero, Nat.add_zero, toByte_val,
        List.append_nil]

/-! Reading a group. -/

theorem drop_eq_cons {α : Type} {l rest : List α} {i : ℕ} {a d : α} (h : l.drop i = a :: rest) :
    i < l.length ∧ l.getD i d = a ∧ l.drop (i + 1) = rest := by
  have hlt : i < l.length := by
    by_contra hge
    rw [List.drop_eq_nil_of_le (Nat.not_lt.mp hge)] at h
    cases h
  rw [List.drop_eq_getElem_cons hlt, List.cons_eq_cons] at h
  exact ⟨hlt, by rw [List.getD_eq_getElem _ _ hlt, h.1], h.2⟩

theorem flag_eq_zero_iff (flags : Byte) (token : ℕ) :
    flags.val &&& 1 <<< token = 0 ↔ flags.val.testBit token = false := by
  have hpos := Nat.two_pow_pos token
  rw [Nat.one_shiftLeft, Nat.and_two_pow]
  cases flags.val.testBit token <;> simp

theorem foldlM_decodeToken_finished {state : ℕ × Block} (h : outputSize ≤ state.2.length)
    (encoded : List Byte) (flags : Byte) (tokens : List ℕ) :
    tokens.foldlM (lz77DecodeToken encoded outputSize flags) state = .ok state := by
  induction tokens with
  | nil => rfl
  | cons token tokens ih =>
    have hstay : lz77DecodeToken encoded outputSize flags state token = .ok state :=
      if_neg (Nat.not_lt.mpr h)
    rw [List.foldlM_cons, hstay, ok_bind, ih]

theorem decodeToken_literal (h : p < block.length) {flags : Byte}
    (hflag : flags.val.testBit token = false) {u : List Byte}
    (hdrop : encoded.drop input = block[p] :: u) :
    lz77DecodeToken encoded block.length flags (input, block.take p) token =
      .ok (input + 1, block.take (p + 1)) := by
  obtain ⟨hlt, hbyte, -⟩ := @drop_eq_cons _ _ _ _ _ 0 hdrop
  rw [← flag_eq_zero_iff] at hflag
  unfold lz77DecodeToken
  dsimp only
  rw [if_pos (by rw [List.length_take]; omega), if_pos hflag, throwIf_neg (by omega), ok_bind,
    hbyte, List.take_succ_eq_append_getElem h]
  rfl

theorem decodeToken_copy {found : LzMatch} (h : Repeats block p found)
    (hmin : kMinMatch ≤ found.length) {flags : Byte} (hflag : flags.val.testBit token = true)
    {u : List Byte}
    (hdrop : encoded.drop input = toByte found.offset :: toByte found.length :: u) :
    lz77DecodeToken encoded block.length flags (input, block.take p) token =
      .ok (input + 2, block.take (p + found.length)) := by
  obtain ⟨hlt, hoffset, hnext⟩ := @drop_eq_cons _ _ _ _ _ 0 hdrop
  obtain ⟨hlt', hlength, -⟩ := @drop_eq_cons _ _ _ _ _ 0 hnext
  rw [← Bool.not_eq_false, ← flag_eq_zero_iff] at hflag
  have hoffsetVal : (toByte found.offset).val = found.offset := Nat.mod_eq_of_lt h.offset_lt
  have hlengthVal : (toByte found.length).val = found.length := Nat.mod_eq_of_lt h.length_lt
  have hpos := h.offset_pos
  have hle := h.offset_le
  have hend := h.le_length
  have hmin' : 3 ≤ found.length := hmin
  have hsize : (block.take p).length = p := List.length_take_of_le (by omega)
  unfold lz77DecodeToken
  dsimp only
  rw [hsize, if_pos (by omega), if_neg hflag, throwIf_neg (by omega), ok_bind, hoffset, hlength,
    hoffsetVal, hlengthVal, throwIf_neg (by unfold kMinMatch; omega), ok_bind,
    copyBack_take hpos hle hend h.eq]
  rfl

/-- The flags behind the first one. -/
theorem testBit_tail {flags bit : ℕ} {b : Bool}
    (h : ∀ i (hi : i < (b :: bits).length), flags.testBit (bit + i) = (b :: bits)[i]) :
    flags.testBit bit = b ∧ ∀ i (hi : i < bits.length), flags.testBit (bit + 1 + i) = bits[i] := by
  constructor
  · exact h 0 (Nat.succ_pos _)
  · intro i hi
    have htail := h (i + 1) (Nat.succ_lt_succ hi)
    rwa [List.getElem_cons_succ, show bit + (i + 1) = bit + 1 + i by omega] at htail

/-- The tokens of a group are read back one by one. -/
theorem foldlM_decodeToken (h : CodedTokens block n p bits bytes q) (hp : p ≤ block.length)
    {flags : Byte} (hflags : ∀ i (hi : i < bits.length), flags.val.testBit (token + i) = bits[i])
    {u : List Byte} (hdrop : encoded.drop input = bytes ++ u) :
    (List.range' token n).foldlM (lz77DecodeToken encoded block.length flags)
      (input, block.take p) = .ok (input + bytes.length, block.take q) := by
  induction h generalizing token input with
  | full => rfl
  | finished h =>
    exact foldlM_decodeToken_finished (by rw [List.length_take]; omega) encoded flags _
  | @literal n p q bits bytes h hrest ih =>
    obtain ⟨-, -, hnext⟩ := @drop_eq_cons _ _ _ _ _ 0 hdrop
    obtain ⟨hflag, htail⟩ := testBit_tail hflags
    rw [List.range'_succ, List.foldlM_cons, decodeToken_literal h hflag hdrop, ok_bind,
      ih h htail hnext, List.length_cons]
    congr 2
    omega
  | @copy n p q bits bytes found h hmin hrest ih =>
    obtain ⟨-, -, hnext⟩ := @drop_eq_cons _ _ _ _ _ 0 hdrop
    obtain ⟨-, -, hnext'⟩ := @drop_eq_cons _ _ _ _ _ 0 hnext
    obtain ⟨hflag, htail⟩ := testBit_tail hflags
    rw [List.range'_succ, List.foldlM_cons, decodeToken_copy h hmin hflag hdrop, ok_bind,
      ih h.le_length htail hnext', List.length_cons, List.length_cons]
    congr 2
    omega

/-! Streams. -/

/-- The bits of a byte of flags. -/
theorem testBit_flags (hbits : bits.length ≤ 8) {i : ℕ} (hi : i < bits.length) :
    (toByte (ofBits bits)).val.testBit i = bits[i] := by
  have hlt : ofBits bits < 2 ^ 8 :=
    (ofBits_lt bits).trans_le (Nat.pow_le_pow_right (by decide) hbits)
  have hval : (toByte (ofBits bits)).val = ofBits bits := Nat.mod_eq_of_lt hlt
  have hget := getElem?_bitsOf (ofBits bits) bits.length i
  rw [bitsOf_ofBits, if_pos hi, List.getElem?_eq_getElem hi, Option.some_inj] at hget
  rw [hval, hget]

theorem lz77EncodeGroup_eq (h : p < block.length) (output : List Byte) :
    ∃ bits bytes q, CodedTokens block 8 p bits bytes q ∧
      lz77EncodeGroup block (output, p) =
        some (output ++ toByte (ofBits bits) :: bytes, q) := by
  obtain ⟨bits, bytes, q, hcoded, hfold⟩ := @foldl_encodeToken block p 8 0 (Nat.le_of_lt h) output
    0 [] (by decide) (by decide)
  refine ⟨bits, bytes, q, hcoded, ?_⟩
  have hzero : (0 : Byte).val + 2 ^ 0 * ofBits bits = ofBits bits := by
    rw [Nat.pow_zero, Nat.one_mul]
    exact Nat.zero_add _
  rw [hzero, List.nil_append, ← List.range_eq_range'] at hfold
  unfold lz77EncodeGroup
  dsimp only
  rw [if_pos h, hfold]

theorem CodedTokens.progress (h : CodedTokens block 8 p bits bytes q) (hlt : p < block.length) :
    p < q := by
  rcases Nat.lt_or_ge q block.length with hq | hq
  · have hnext := h.add_le hq
    omega
  · omega

/-- A group is read back behind its byte of flags. -/
theorem decodeGroups_coded (h : CodedTokens block 8 p bits bytes q) (hlt : p < block.length)
    {u : List Byte} (hdrop : encoded.drop input = toByte (ofBits bits) :: (bytes ++ u)) (m : ℕ) :
    lz77DecodeGroups encoded block.length (m + 1) (input, block.take p) =
      lz77DecodeGroups encoded block.length m (input + 1 + bytes.length, block.take q) := by
  obtain ⟨hinput, hflags, hnext⟩ := @drop_eq_cons _ _ _ _ _ 0 hdrop
  have htokens := @foldlM_decodeToken block p q 8 0 (input + 1) bits bytes encoded h hlt.le
    (toByte (ofBits bits))
    (fun i hi => by rw [Nat.zero_add]; exact testBit_flags h.length_bits_le hi) _ hnext
  rw [← List.range_eq_range'] at htokens
  rw [lz77DecodeGroups, if_pos (by rw [List.length_take]; omega), throwIf_neg (by omega),
    ok_bind, hflags]
  dsimp only
  rw [htokens, ok_bind]

/-- What is written from a position on is read back, group by group, and is not much longer than
the rest of the block. -/
theorem run_lz77EncodeGroup (hp : p ≤ block.length) (hn : block.length - p ≤ n)
    (output : List Byte) : ∃ stream,
      WhileLoop.run (lz77EncodeGroup block) n (output, p) = (output ++ stream, block.length) ∧
      stream.length ≤ block.length - p + (block.length - p + 7) / 8 ∧
      ∀ encoded input u m, encoded.drop input = stream ++ u → block.length - p ≤ m →
        lz77DecodeGroups encoded block.length m (input, block.take p) = .ok block := by
  induction n generalizing p output with
  | zero =>
    obtain rfl : p = block.length := by omega
    refine ⟨[], by rw [List.append_nil]; rfl, Nat.zero_le _, fun encoded input u m _ _ => ?_⟩
    have hall := List.take_length (l := block)
    cases m with
    | zero => rw [lz77DecodeGroups, hall]
    | succ m => rw [lz77DecodeGroups, hall, if_neg (Nat.lt_irrefl _)]
  | succ n ih =>
    rcases Nat.lt_or_ge p block.length with hlt | hge
    · obtain ⟨bits, bytes, q, hcoded, hgroup⟩ := lz77EncodeGroup_eq hlt output
      have hq := hcoded.le_length hp
      have hbytes := hcoded.length_le
      have hfull := hcoded.add_le
      have hprogress := hcoded.progress hlt
      obtain ⟨stream, hrun, hlength, hread⟩ := ih hq (by omega)
        (output ++ toByte (ofBits bits) :: bytes)
      refine ⟨toByte (ofBits bits) :: bytes ++ stream, ?_, ?_, ?_⟩
      · rw [WhileLoop.run_succ hgroup, hrun, List.append_assoc]
      · rw [List.length_append, List.length_cons]
        rcases Nat.lt_or_ge q block.length with hq' | hq'
        · have hnext := hfull hq'
          omega
        · omega
      · intro encoded input u m hdrop hm
        obtain ⟨m, rfl⟩ : ∃ k, m = k + 1 := ⟨m - 1, by omega⟩
        rw [List.cons_append, List.cons_append, List.append_assoc] at hdrop
        obtain ⟨-, -, hnext⟩ := @drop_eq_cons _ _ _ _ _ 0 hdrop
        rw [decodeGroups_coded hcoded hlt hdrop]
        refine hread encoded _ u m ?_ (by omega)
        rw [← List.drop_drop, hnext, List.drop_left]
    · obtain rfl : p = block.length := by omega
      have hhalted : lz77EncodeGroup block (output, block.length) = none :=
        if_neg (Nat.lt_irrefl _)
      obtain ⟨stream, hrun, hrest⟩ := ih (Nat.le_refl _) (by omega) output
      exact ⟨stream, by rw [WhileLoop.run_of_halted hhalted, ← hrun,
        WhileLoop.run_of_halted hhalted], hrest⟩

/-- Decoding what encoding wrote gives the block back, and a byte of flags for eight literals is
the most a block grows by. -/
theorem lz77_lite_round_trip {block : Vec Byte} (hne : block.toList ≠ []) :
    ∃ encoded, lz77LiteEncode block.toList = .ok encoded ∧
      lz77LiteDecode encoded block.toList.length = .ok block.toList ∧
      encoded.length ≤ block.toList.length + (block.toList.length + 7) / 8 := by
  have hsize := block.size_lt
  obtain ⟨stream, hrun, hlength, hread⟩ := @run_lz77EncodeGroup block.toList 0
    block.toList.length (Nat.zero_le _) (Nat.sub_le _ _) []
  rw [List.nil_append] at hrun
  rw [Nat.sub_zero] at hlength
  refine ⟨stream, ?_, ?_, hlength⟩
  · rw [lz77LiteEncode, throwIf_neg hne, ok_bind, hrun]
    rfl
  · rw [lz77LiteDecode, throwIf_neg (by omega), ok_bind]
    exact hread stream 0 [] _ (by rw [List.drop_zero, List.append_nil]) (Nat.sub_le _ _)

/-- Literals, and a match that overlaps the position being written. -/
def exampleRun : Vec Byte := ⟨[1, 2, 1, 2, 1, 2, 1, 2, 3], by decide⟩

theorem exampleRun_lz77_lite_round_trip :
    ∃ encoded, lz77LiteEncode exampleRun.toList = .ok encoded ∧
      lz77LiteDecode encoded exampleRun.toList.length = .ok exampleRun.toList ∧
      encoded.length ≤ exampleRun.toList.length + (exampleRun.toList.length + 7) / 8 :=
  lz77_lite_round_trip (by decide)

end ByteSelect.Baseline
