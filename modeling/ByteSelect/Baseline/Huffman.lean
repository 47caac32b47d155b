import ByteSelect.Baseline.HuffmanLengths
import ByteSelect.BitPlanes

/-! Huffman coding: canonical codes of the code lengths, a table of lengths, and the payload. -/
namespace ByteSelect.Baseline

open BitStream CanonicalCode

structure HuffmanCode where
  bits : BitVec 32 := 0
  length : Byte := 0

/-- The code with its bits reversed: `BitWriter` writes the lowest bit first. -/
def reverseCode (code : BitVec 32) (length : ℕ) : BitVec 32 :=
  (List.range length).foldl (fun reversed i =>
    reversed ||| ((code >>> (length - 1 - i)) &&& 1) <<< i) 0

/-- One turn of the loop over the ordered symbols. -/
def canonicalStep (state : ByteTable HuffmanCode × BitVec 32 × ℕ) (entry : ℕ × Byte) :
    ByteTable HuffmanCode × BitVec 32 × ℕ :=
  let (result, code, previousLength) := state
  let (length, symbol) := entry
  let code := code <<< (length - previousLength)
  (result.put symbol { bits := reverseCode code length, length := toByte length }, code + 1, length)

/-- The symbols that have a length, ordered by length and then by value. -/
def orderedSymbols (lengths : ByteTable Byte) : List (ℕ × Byte) :=
  (((List.finRange 256).filter fun symbol => lengths.get symbol ≠ 0).map fun symbol =>
    ((lengths.get symbol).val, symbol)).insertionSort pairLe

def canonicalHuffmanCodes (lengths : ByteTable Byte) : ByteTable HuffmanCode :=
  ((orderedSymbols lengths).foldl canonicalStep (.fill {}, 0, 0)).1

/-- The table of lengths: each symbol that has one, and its length. -/
def lengthTable (lengths : ByteTable Byte) : List Byte :=
  (List.finRange 256).flatMap fun symbol =>
    if lengths.get symbol ≠ 0 then [symbol, lengths.get symbol] else []

def huffmanEncode (block : Block) : Except Error (List Byte) := do
  throwIf (block = []) (.invalidArgument "Huffman requires a non-empty block")
  let lengths := huffmanCodeLengths block
  let codes := canonicalHuffmanCodes lengths
  let symbolCount := ((List.finRange 256).countP fun symbol => lengths.get symbol ≠ 0) % 2 ^ 16
  let payload := block.foldl (fun writer symbol =>
    writer.put (codes.get symbol).bits.toNat (codes.get symbol).length.val) ({} : BitWriter)
  return [toByte (symbolCount &&& 0xff), toByte (symbolCount >>> 8)] ++ lengthTable lengths ++
    payload.bytes

/-- One turn of the loop of `huffman_decode` over the table of lengths. -/
def readLength (encoded : List Byte) (lengths : ByteTable Byte) (i : ℕ) :
    Except Error (ByteTable Byte) := do
  let symbol := encoded.getD (2 + i * 2) 0
  let length := encoded.getD (2 + i * 2 + 1) 0
  throwIf (length = 0 ∨ lengths.get symbol ≠ 0) (.runtimeError "invalid Huffman code table")
  return lengths.put symbol length

def readLengths (encoded : List Byte) (count : ℕ) : Except Error (ByteTable Byte) :=
  (List.range count).foldlM (readLength encoded) (.fill 0)

structure DecodeEntry where
  bits : BitVec 32
  length : ℕ
  symbol : Byte

def decodeTable (codes : ByteTable HuffmanCode) : List DecodeEntry :=
  (List.finRange 256).filterMap fun symbol =>
    let code := codes.get symbol
    if code.length ≠ 0 then
      some { bits := code.bits, length := code.length.val, symbol := symbol }
    else none

/-- The search for the next symbol, with `n` more bits to try. -/
def searchSymbol (table : List DecodeEntry) : ℕ → ℕ → BitVec 32 → Reading Byte
  | 0, _, _ => throw (.runtimeError "invalid Huffman payload")
  | n + 1, length, bits => do
    let bits := bits ||| BitVec.ofNat 32 (← get 1) <<< (length - 1)
    match table.find? fun entry => entry.length = length ∧ entry.bits = bits with
    | some entry => return entry.symbol
    | none => searchSymbol table n (length + 1) bits

/-- The loop of `huffman_decode` with `n` symbols to go. -/
def decodeSymbols (table : List DecodeEntry) (output : Block) : ℕ → Reading Block
  | 0 => pure output
  | n + 1 => do
    let symbol ← searchSymbol table 32 1 0
    decodeSymbols table (output ++ [symbol]) n

def huffmanDecode (encoded : List Byte) (outputSize : ℕ) : Except Error Block := do
  throwIf (encoded.length < 2) (.runtimeError "truncated Huffman header")
  let count := (encoded.getD 0 0).val ||| (encoded.getD 1 0).val <<< 8
  throwIf (count = 0 ∨ count > 256 ∨ encoded.length < 2 + count * 2)
    (.runtimeError "invalid Huffman header")
  let lengths ← readLengths encoded count
  let table := decodeTable (canonicalHuffmanCodes lengths)
  let payload := encoded.drop (2 + count * 2)
  -- `reserve` refuses what no vector can hold
  throwIf (outputSize ≥ 2 ^ 63) (.lengthError "vector::reserve")
  let (output, _) ← decodeSymbols table [] outputSize { bytes := payload }
  return output

variable {lengths : ByteTable Byte} {codes : ByteTable HuffmanCode} {symbol : Byte}
  {value length : ℕ} {l t : List Bool}

/-! Canonical codes. -/

theorem getLsbD_reverseCode (code : BitVec 32) (length k : ℕ) :
    (reverseCode code length).getLsbD k =
      (decide (k < 32 ∧ k < length) && code.getLsbD (length - 1 - k)) :=
  BitPlanes.getLsbD_collect (fun _ => code) (fun i => length - 1 - i) length k

theorem reverseCode_lt (code : BitVec 32) (length : ℕ) :
    (reverseCode code length).toNat < 2 ^ length := by
  apply Nat.lt_pow_two_of_testBit
  intro k hk
  have hbit := getLsbD_reverseCode code length k
  rw [decide_eq_false (by omega), Bool.false_and] at hbit
  exact hbit

/-- The reversed code is written as the code word. -/
theorem bitsOf_reverseCode (hl : length ≤ 32) :
    bitsOf (reverseCode (BitVec.ofNat 32 value) length).toNat length = word value length := by
  apply List.ext_getElem?
  intro i
  rw [getElem?_bitsOf, word]
  by_cases hi : i < length
  · rw [if_pos hi, List.getElem?_reverse (by rwa [length_bitsOf]), length_bitsOf, getElem?_bitsOf,
      if_pos (by omega), BitVec.testBit_toNat, getLsbD_reverseCode, BitVec.getLsbD_ofNat,
      decide_eq_true (by omega), decide_eq_true (by omega), Bool.true_and, Bool.true_and]
  · rw [if_neg hi, List.getElem?_eq_none (by simpa using hi)]

theorem ofNat_shiftLeft (value k : ℕ) :
    BitVec.ofNat 32 value <<< k = BitVec.ofNat 32 (value * 2 ^ k) := by
  apply BitVec.eq_of_toNat_eq
  rw [BitVec.toNat_shiftLeft, BitVec.toNat_ofNat, BitVec.toNat_ofNat, Nat.shiftLeft_eq,
    Nat.mod_mul_mod]

/-- The code of a word. -/
def codeOf (value length : ℕ) : HuffmanCode :=
  { bits := reverseCode (BitVec.ofNat 32 value) length, length := toByte length }

/-- The loop gives every symbol the word that counting up assigns to it. -/
theorem foldl_canonicalStep {ordered : List (ℕ × Byte)} (h : (ordered.map Prod.snd).Nodup)
    (result : ByteTable HuffmanCode) (code previous : ℕ) :
    let final := (ordered.foldl canonicalStep (result, BitVec.ofNat 32 code, previous)).1
    (∀ entry ∈ assign code previous ordered, final.get entry.1 = codeOf entry.2.1 entry.2.2) ∧
      ∀ symbol ∉ ordered.map Prod.snd, final.get symbol = result.get symbol := by
  induction ordered generalizing result code previous with
  | nil => exact ⟨fun entry hentry => absurd hentry List.not_mem_nil, fun symbol _ => rfl⟩
  | cons first rest ih =>
    obtain ⟨length, symbol⟩ := first
    rw [List.map_cons, List.nodup_cons] at h
    have hstep : canonicalStep (result, BitVec.ofNat 32 code, previous) (length, symbol) =
        (result.put symbol (codeOf (code * 2 ^ (length - previous)) length),
          BitVec.ofNat 32 (code * 2 ^ (length - previous) + 1), length) := by
      unfold canonicalStep
      dsimp only
      rw [ofNat_shiftLeft, BitVec.ofNat_add]
      rfl
    rw [List.foldl_cons, hstep]
    obtain ⟨hin, hout⟩ := ih h.2
      (result.put symbol (codeOf (code * 2 ^ (length - previous)) length)) (code * 2 ^ (length - previous) + 1) length
    constructor
    · intro entry hentry
      cases List.mem_cons.mp hentry with
      | inl hfirst =>
        subst hfirst
        rw [hout symbol h.1, ByteTable.get_put_self]
      | inr hrest => exact hin entry hrest
    · intro a ha
      rw [List.map_cons, List.mem_cons, not_or] at ha
      rw [hout a ha.2, ByteTable.get_put_of_ne ha.1]

theorem orderedSymbols_perm (lengths : ByteTable Byte) : (orderedSymbols lengths).Perm
    (((List.finRange 256).filter fun symbol => lengths.get symbol ≠ 0).map fun symbol =>
      ((lengths.get symbol).val, symbol)) :=
  List.perm_insertionSort _ _

theorem mem_orderedSymbols {entry : ℕ × Byte} : entry ∈ orderedSymbols lengths ↔
    lengths.get entry.2 ≠ 0 ∧ entry.1 = (lengths.get entry.2).val := by
  rw [(orderedSymbols_perm lengths).mem_iff, List.mem_map]
  constructor
  · rintro ⟨symbol, hmem, rfl⟩
    exact ⟨by simpa using (List.mem_filter.mp hmem).2, rfl⟩
  · rintro ⟨hne, hlength⟩
    exact ⟨entry.2, List.mem_filter.mpr ⟨List.mem_finRange _, by simpa using hne⟩,
      Prod.ext hlength.symm rfl⟩

theorem sorted_orderedSymbols (lengths : ByteTable Byte) :
    ((orderedSymbols lengths).map Prod.fst).Pairwise (· ≤ ·) :=
  List.pairwise_map.mpr ((List.pairwise_insertionSort pairLe _).imp fun hle => hle.fst_le)

theorem nodup_orderedSymbols (lengths : ByteTable Byte) :
    ((orderedSymbols lengths).map Prod.snd).Nodup := by
  refine ((orderedSymbols_perm lengths).map Prod.snd).nodup_iff.mpr ?_
  rw [List.map_map]
  exact ((List.nodup_finRange 256).filter _).map fun _ _ h => h

theorem kraft_orderedSymbols (D : ℕ) (lengths : ByteTable Byte) :
    kraft D ((orderedSymbols lengths).map Prod.fst) = kraft D (usedLengths lengths) := by
  have hperm := (orderedSymbols_perm lengths).map Prod.fst
  rw [List.map_map] at hperm
  exact (hperm.map _).sum_eq

/-- The bits a symbol is written as. -/
def codeBits (codes : ByteTable HuffmanCode) (symbol : Byte) : List Bool :=
  bitsOf (codes.get symbol).bits.toNat (codes.get symbol).length.val

/-- Codes none of which begins the code of another symbol. -/
structure PrefixCode (codes : ByteTable HuffmanCode) : Prop where
  fits : ∀ symbol, (codes.get symbol).bits.toNat < 2 ^ (codes.get symbol).length.val
  le : ∀ symbol, (codes.get symbol).length.val ≤ 32
  prefix_free : ∀ symbol other, (codes.get symbol).length ≠ 0 → (codes.get other).length ≠ 0 →
    codeBits codes symbol <+: codeBits codes other → symbol = other

/-- Every symbol with a length gets a word of that length. -/
theorem canonicalHuffmanCodes_get (h : lengths.get symbol ≠ 0) : ∃ value,
    (symbol, value, (lengths.get symbol).val) ∈ assign 0 0 (orderedSymbols lengths) ∧
      (canonicalHuffmanCodes lengths).get symbol = codeOf value (lengths.get symbol).val := by
  have hmem : ((lengths.get symbol).val, symbol) ∈ orderedSymbols lengths :=
    mem_orderedSymbols.mpr ⟨h, rfl⟩
  rw [← map_symbol_assign 0 0 (orderedSymbols lengths)] at hmem
  obtain ⟨⟨a, value, length⟩, hentry, hsame⟩ := List.mem_map.mp hmem
  obtain ⟨hlength, hsymbol⟩ := Prod.mk.inj hsame
  dsimp only at hlength hsymbol
  subst hsymbol hlength
  exact ⟨value, hentry,
    (foldl_canonicalStep (nodup_orderedSymbols lengths) (.fill {}) 0 0).1 _ hentry⟩

theorem canonicalHuffmanCodes_get_of_zero (h : lengths.get symbol = 0) :
    (canonicalHuffmanCodes lengths).get symbol = {} := by
  have hout : symbol ∉ (orderedSymbols lengths).map Prod.snd := by
    intro hmem
    obtain ⟨entry, hentry, rfl⟩ := List.mem_map.mp hmem
    exact (mem_orderedSymbols.mp hentry).1 h
  have hget := (foldl_canonicalStep (nodup_orderedSymbols lengths) (.fill {}) 0 0).2 symbol hout
  rw [ByteTable.get_fill] at hget
  exact hget

theorem length_canonicalHuffmanCodes (lengths : ByteTable Byte) (symbol : Byte) :
    ((canonicalHuffmanCodes lengths).get symbol).length = lengths.get symbol := by
  by_cases h : lengths.get symbol = 0
  · rw [canonicalHuffmanCodes_get_of_zero h, h]
  · obtain ⟨value, -, hget⟩ := canonicalHuffmanCodes_get h
    rw [hget]
    exact Fin.ofNat_val_eq_self _

/-- Lengths that leave room for all words give a prefix code. -/
theorem canonicalHuffmanCodes_prefixCode (hle : ∀ symbol, (lengths.get symbol).val ≤ 32)
    (hkraft : kraft 32 (usedLengths lengths) ≤ 2 ^ 32) :
    PrefixCode (canonicalHuffmanCodes lengths) := by
  have hsorted := sorted_orderedSymbols lengths
  have hD : ∀ entry ∈ orderedSymbols lengths, entry.1 ≤ 32 := by
    intro entry hentry
    rw [(mem_orderedSymbols.mp hentry).2]
    exact hle entry.2
  rw [← kraft_orderedSymbols] at hkraft
  have hbits : ∀ symbol value,
      (canonicalHuffmanCodes lengths).get symbol = codeOf value (lengths.get symbol).val →
        codeBits (canonicalHuffmanCodes lengths) symbol =
          word value (lengths.get symbol).val := by
    intro symbol value hget
    rw [codeBits, length_canonicalHuffmanCodes, hget]
    exact bitsOf_reverseCode (hle symbol)
  refine ⟨?_, ?_, ?_⟩
  · intro symbol
    by_cases h : lengths.get symbol = 0
    · rw [canonicalHuffmanCodes_get_of_zero h]
      exact Nat.one_pos
    · obtain ⟨value, -, hget⟩ := canonicalHuffmanCodes_get h
      rw [length_canonicalHuffmanCodes, hget]
      exact reverseCode_lt _ _
  · intro symbol
    rw [length_canonicalHuffmanCodes]
    exact hle symbol
  · intro symbol other hsymbol hother hword
    rw [length_canonicalHuffmanCodes] at hsymbol hother
    obtain ⟨value, hentry, hget⟩ := canonicalHuffmanCodes_get hsymbol
    obtain ⟨value', hentry', hget'⟩ := canonicalHuffmanCodes_get hother
    rw [hbits symbol value hget, hbits other value' hget'] at hword
    have hsame := eq_of_prefix hsorted hD hkraft hentry hentry' hword
    exact congrArg Prod.fst hsame

/-! The payload. -/

variable {p q : List Bool} {writer : BitWriter} {block : Block} {n : ℕ}

@[simp] theorem length_codeBits (codes : ByteTable HuffmanCode) (symbol : Byte) :
    (codeBits codes symbol).length = (codes.get symbol).length.val :=
  length_bitsOf _ _

/-- The bits read so far are the code of a symbol when its table entry matches them. -/
theorem PrefixCode.matches_iff (h : PrefixCode codes) (hp : p.length ≤ 32) :
    (codes.get symbol).length.val = p.length ∧
      (codes.get symbol).bits = BitVec.ofNat 32 (ofBits p) ↔ codeBits codes symbol = p := by
  have hvalue : ofBits p % 2 ^ 32 = ofBits p :=
    Nat.mod_eq_of_lt ((ofBits_lt p).trans_le (Nat.pow_le_pow_right (by decide) hp))
  constructor
  · rintro ⟨hlength, hbits⟩
    rw [codeBits, hlength, hbits, BitVec.toNat_ofNat, hvalue, bitsOf_ofBits]
  · intro hcode
    have hlength := length_codeBits codes symbol
    rw [hcode] at hlength
    refine ⟨hlength.symm, BitVec.eq_of_toNat_eq ?_⟩
    rw [BitVec.toNat_ofNat, hvalue, ← hcode, codeBits, ofBits_bitsOf,
      Nat.mod_eq_of_lt (h.fits symbol)]

theorem mem_decodeTable {entry : DecodeEntry} : entry ∈ decodeTable codes ↔
    ∃ symbol, (codes.get symbol).length ≠ 0 ∧
      entry = ⟨(codes.get symbol).bits, (codes.get symbol).length.val, symbol⟩ := by
  rw [decodeTable, List.mem_filterMap]
  constructor
  · rintro ⟨symbol, -, hentry⟩
    dsimp only at hentry
    split at hentry
    · rename_i hused
      cases hentry
      exact ⟨symbol, hused, rfl⟩
    · cases hentry
  · rintro ⟨symbol, hused, rfl⟩
    exact ⟨symbol, List.mem_finRange symbol, if_pos hused⟩

/-- One more bit above those read. -/
theorem ofNat_or_bit (p : List Bool) (b : Bool) :
    BitVec.ofNat 32 (ofBits p) ||| BitVec.ofNat 32 b.toNat <<< p.length =
      BitVec.ofNat 32 (ofBits (p ++ [b])) := by
  have hsum : ofBits (p ++ [b]) = ofBits p ||| b.toNat <<< p.length := by
    rw [or_shiftLeft _ (ofBits_lt p), ofBits_append]
    simp [ofBits]
  rw [hsum, ofNat_shiftLeft, ← Nat.shiftLeft_eq]
  apply BitVec.eq_of_toNat_eq
  rw [BitVec.toNat_or, BitVec.toNat_ofNat, BitVec.toNat_ofNat, BitVec.toNat_ofNat,
    Nat.or_mod_two_pow]

/-- The search stops at the code of the symbol: no code begins another one. -/
theorem searchSymbol_decodes (h : PrefixCode codes) (hused : (codes.get symbol).length ≠ 0)
    (hq : q ≠ []) (hcode : codeBits codes symbol = p ++ q) (hn : q.length ≤ n) :
    Decodes BitReader.Before (searchSymbol (decodeTable codes) n (p.length + 1)
      (BitVec.ofNat 32 (ofBits p))) q symbol := by
  induction q generalizing p n with
  | nil => exact absurd rfl hq
  | cons b q ih =>
    rw [List.length_cons] at hn
    obtain ⟨n, rfl⟩ : ∃ m, n = m + 1 := ⟨n - 1, by omega⟩
    have hnext : codeBits codes symbol = (p ++ [b]) ++ q := by rw [hcode]; simp
    have hlength := congrArg List.length hcode
    rw [length_codeBits, List.length_append, List.length_cons] at hlength
    have hle := h.le symbol
    have hlast : (p ++ [b]).length = p.length + 1 := by simp
    have hbit : bitsOf b.toNat 1 = [b] := by cases b <;> rfl
    have hread : Decodes BitReader.Before (get 1) [b] b.toNat := by
      rw [← hbit]
      exact get_decodes (by cases b <;> decide)
    refine hread.bind ?_
    dsimp only
    rw [Nat.add_sub_cancel, ofNat_or_bit p b, ← hlast]
    have hmatch : ∀ other, (codes.get other).length.val = (p ++ [b]).length ∧
        (codes.get other).bits = BitVec.ofNat 32 (ofBits (p ++ [b])) ↔
          codeBits codes other = p ++ [b] :=
      fun other => h.matches_iff (by omega)
    cases hfind : (decodeTable codes).find? fun entry =>
        decide (entry.length = (p ++ [b]).length ∧
          entry.bits = BitVec.ofNat 32 (ofBits (p ++ [b]))) with
    | some entry =>
      obtain ⟨other, hother, rfl⟩ := mem_decodeTable.mp (List.mem_of_find?_eq_some hfind)
      have hbits := (hmatch other).mp (by simpa using List.find?_some hfind)
      have hsame : other = symbol := h.prefix_free other symbol hother hused ⟨q, by
        rw [hbits, hnext]⟩
      subst hsame
      have hdone : q = [] := by
        rw [hbits] at hnext
        simpa using hnext
      rw [hdone]
      exact decodes_pure other
    | none =>
      have hrest : q ≠ [] := by
        rintro rfl
        rw [List.append_nil] at hnext
        have hentry := List.find?_eq_none.mp hfind _ (mem_decodeTable.mpr ⟨symbol, hused, rfl⟩)
        exact hentry (decide_eq_true ((hmatch symbol).mpr hnext))
      exact ih hrest hnext (by omega)

/-- A symbol is found only where its code stands. -/
theorem searchSymbol_prefix (h : PrefixCode codes) {reader reader' : BitReader}
    (hbefore : reader.Before l) (hn : p.length + n ≤ 32)
    (hrun : searchSymbol (decodeTable codes) n (p.length + 1) (BitVec.ofNat 32 (ofBits p)) reader =
      .ok (symbol, reader')) :
    (codes.get symbol).length ≠ 0 ∧ codeBits codes symbol <+: p ++ l := by
  induction n generalizing p l reader with
  | zero => cases hrun
  | succ n ih =>
    rw [searchSymbol] at hrun
    cases l with
    | nil =>
      have hend := hbefore.length_eq
      rw [List.length_nil] at hend
      have hfail := (get_fails_iff 1 reader).mpr (by omega)
      change (get 1 reader >>= _) = _ at hrun
      rw [hfail] at hrun
      cases hrun
    | cons b l =>
      have hone : 1 ≤ (b :: l).length := Nat.le_add_left 1 l.length
      have hlast : (p ++ [b]).length = p.length + 1 := by simp
      have hvalue : ofBits ((b :: l).take 1) = b.toNat := by simp [ofBits]
      have hrest := hbefore.advance hone
      have happend : p ++ b :: l = (p ++ [b]) ++ l := by simp
      change (get 1 reader >>= _) = _ at hrun
      rw [get_eq_ok hbefore hone, hvalue] at hrun
      change (match (decodeTable codes).find? _ with
        | some entry => pure entry.symbol
        | none => searchSymbol _ n _ _ : Reading Byte) _ = _ at hrun
      rw [Nat.add_sub_cancel, ofNat_or_bit p b, ← hlast] at hrun
      rw [happend]
      cases hfind : (decodeTable codes).find? fun entry =>
          decide (entry.length = (p ++ [b]).length ∧
            entry.bits = BitVec.ofNat 32 (ofBits (p ++ [b]))) with
      | some entry =>
        obtain ⟨other, hother, rfl⟩ := mem_decodeTable.mp (List.mem_of_find?_eq_some hfind)
        rw [hfind] at hrun
        cases hrun
        have hbits := (h.matches_iff (hlast.trans_le (by omega))).mp
          (by simpa using List.find?_some hfind)
        rw [hbits]
        exact ⟨hother, List.prefix_append _ _⟩
      | none =>
        rw [hfind] at hrun
        exact ih hrest (by omega) hrun

/-- The search finds the one symbol whose code stands at the reader, when there is one. -/
theorem searchSymbol_ok_iff (h : PrefixCode codes) {reader : BitReader} (hbefore : reader.Before l) :
    (∃ reader', searchSymbol (decodeTable codes) 32 1 0 reader = .ok (symbol, reader')) ↔
      (codes.get symbol).length ≠ 0 ∧ codeBits codes symbol <+: l := by
  constructor
  · rintro ⟨reader', hrun⟩
    have hfound := searchSymbol_prefix (p := []) h hbefore (by simp) hrun
    rwa [List.nil_append] at hfound
  · rintro ⟨hused, u, rfl⟩
    have hcode : codeBits codes symbol ≠ [] := by
      apply List.ne_nil_of_length_pos
      rw [length_codeBits, Nat.pos_iff_ne_zero]
      exact fun hzero => hused (Fin.ext hzero)
    have hlen : (codeBits codes symbol).length ≤ 32 := (length_codeBits _ _).trans_le (h.le symbol)
    have hread := @searchSymbol_decodes codes symbol [] _ 32 h hused hcode rfl hlen
    obtain ⟨reader', hrun, -⟩ := hread reader u hbefore
    exact ⟨reader', hrun⟩

/-- The turn of the search for the length of this entry matches it, on the bits `l` ahead. -/
def DecodeEntry.Matches (entry : DecodeEntry) (l : List Bool) : Prop :=
  entry.length ≤ l.length ∧ entry.bits = BitVec.ofNat 32 (ofBits (l.take entry.length))

theorem PrefixCode.entry_eq (h : PrefixCode codes) {entry entry' : DecodeEntry}
    (hentry : entry ∈ decodeTable codes) (hentry' : entry' ∈ decodeTable codes)
    (hmatch : entry.Matches l) (hmatch' : entry'.Matches l) : entry = entry' := by
  obtain ⟨symbol, hused, rfl⟩ := mem_decodeTable.mp hentry
  obtain ⟨other, hother, rfl⟩ := mem_decodeTable.mp hentry'
  have hstands : ∀ s, (codes.get s).length.val ≤ l.length → (codes.get s).bits =
      BitVec.ofNat 32 (ofBits (l.take (codes.get s).length.val)) → codeBits codes s <+: l := by
    intro s hle hbits
    have htake : (l.take (codes.get s).length.val).length = (codes.get s).length.val :=
      List.length_take_of_le hle
    rw [(h.matches_iff (htake.trans_le (h.le s))).mp ⟨htake.symm, hbits⟩]
    exact List.take_prefix _ _
  have hcode := hstands symbol hmatch.1 hmatch.2
  have hcode' := hstands other hmatch'.1 hmatch'.2
  have hsame : symbol = other := by
    rcases List.prefix_or_prefix_of_prefix hcode hcode' with hstart | hstart
    · exact h.prefix_free symbol other hused hother hstart
    · exact (h.prefix_free other symbol hother hused hstart).symm
  rw [hsame]

theorem decodeSymbols_decodes (h : PrefixCode codes)
    (hused : ∀ symbol ∈ block, (codes.get symbol).length ≠ 0) (output : Block) :
    Decodes BitReader.Before (decodeSymbols (decodeTable codes) output block.length)
      (block.flatMap (codeBits codes)) (output ++ block) := by
  induction block generalizing output with
  | nil =>
    rw [List.append_nil]
    exact decodes_pure output
  | cons symbol rest ih =>
    have hfirst := hused symbol List.mem_cons_self
    have hcode : codeBits codes symbol ≠ [] := by
      apply List.ne_nil_of_length_pos
      rw [length_codeBits, Nat.pos_iff_ne_zero]
      exact fun hzero => hfirst (Fin.ext hzero)
    have hlen : (codeBits codes symbol).length ≤ 32 := (length_codeBits _ _).trans_le (h.le symbol)
    have hread := @searchSymbol_decodes codes symbol [] _ 32 h hfirst hcode rfl hlen
    have hrest := ih (fun a ha => hused a (List.mem_cons_of_mem _ ha)) (output ++ [symbol])
    rw [List.append_assoc, List.singleton_append] at hrest
    exact hread.bind hrest

theorem payload_holds (codes : ByteTable HuffmanCode) (block : Block) (h : writer.Holds l) :
    (block.foldl (fun writer symbol =>
      writer.put (codes.get symbol).bits.toNat (codes.get symbol).length.val) writer).Holds
        (l ++ block.flatMap (codeBits codes)) := by
  induction block generalizing writer l with
  | nil =>
    rw [List.flatMap_nil, List.append_nil]
    exact h
  | cons symbol rest ih =>
    rw [List.flatMap_cons, ← List.append_assoc]
    exact ih (h.put _ _)

/-! The table of lengths. -/

theorem mem_usedSymbols : symbol ∈ usedSymbols lengths ↔ lengths.get symbol ≠ 0 := by
  rw [usedSymbols, List.mem_filter, decide_eq_true_iff]
  exact and_iff_right (List.mem_finRange symbol)

theorem length_usedSymbols_le (lengths : ByteTable Byte) : (usedSymbols lengths).length ≤ 256 :=
  length_filter_finRange_le _

theorem lengthTable_eq (lengths : ByteTable Byte) : lengthTable lengths =
    (usedSymbols lengths).flatMap fun symbol => [symbol, lengths.get symbol] := by
  rw [lengthTable, usedSymbols]
  induction List.finRange 256 with
  | nil => rfl
  | cons symbol rest ih =>
    rw [List.flatMap_cons, ih]
    by_cases h : lengths.get symbol ≠ 0
    · rw [if_pos h, List.filter_cons_of_pos (by simpa using h), List.flatMap_cons]
    · rw [if_neg h, List.filter_cons_of_neg (by simpa using h), List.nil_append]

/-- Where the table has a symbol and its length. -/
theorem getElem?_pairs {α : Type} (f : α → α) (u : List α) (i : ℕ) :
    (u.flatMap fun a => [a, f a])[i * 2]? = u[i]? ∧
      (u.flatMap fun a => [a, f a])[i * 2 + 1]? = u[i]?.map f := by
  induction u generalizing i with
  | nil => simp
  | cons a u ih =>
    cases i with
    | zero => simp
    | succ i =>
      have hindex : (i + 1) * 2 = i * 2 + 1 + 1 := by omega
      rw [hindex, List.flatMap_cons, List.cons_append, List.cons_append, List.nil_append,
        List.getElem?_cons_succ, List.getElem?_cons_succ, List.getElem?_cons_succ,
        List.getElem?_cons_succ, List.getElem?_cons_succ]
      exact ih i

theorem length_lengthTable (lengths : ByteTable Byte) :
    (lengthTable lengths).length = (usedSymbols lengths).length * 2 := by
  rw [lengthTable_eq]
  induction usedSymbols lengths with
  | nil => rfl
  | cons a u ih =>
    rw [List.flatMap_cons, List.length_append, ih, List.length_cons]
    dsimp only [List.length_cons, List.length_nil]
    omega

theorem ByteTable.ext_get {α : Type} {table table' : ByteTable α}
    (h : ∀ a, table.get a = table'.get a) : table = table' :=
  Vector.ext fun i hi => h ⟨i, hi⟩

theorem readLength_lengthTable (low high : Byte) (payload : List Byte) {table : ByteTable Byte}
    (hn : n < (usedSymbols lengths).length) (hnew : table.get (usedSymbols lengths)[n] = 0) :
    readLength (low :: high :: (lengthTable lengths ++ payload)) table n =
      .ok (table.put (usedSymbols lengths)[n] (lengths.get (usedSymbols lengths)[n])) := by
  have hsize := length_lengthTable lengths
  have hbyte : ∀ i < (lengthTable lengths).length,
      (low :: high :: (lengthTable lengths ++ payload)).getD (2 + i) 0 =
        (lengthTable lengths).getD i 0 := by
    intro i hi
    rw [Nat.add_comm 2 i, List.getD_cons_succ, List.getD_cons_succ, List.getD_append _ _ _ _ hi]
  obtain ⟨hat, hafter⟩ := getElem?_pairs lengths.get (usedSymbols lengths) n
  rw [← lengthTable_eq, List.getElem?_eq_getElem hn] at hat hafter
  have hsymbol : (low :: high :: (lengthTable lengths ++ payload)).getD (2 + n * 2) 0 =
      (usedSymbols lengths)[n] := by
    rw [hbyte _ (by omega), List.getD_eq_getElem?_getD, hat]
    rfl
  have hlength : (low :: high :: (lengthTable lengths ++ payload)).getD (2 + n * 2 + 1) 0 =
      lengths.get (usedSymbols lengths)[n] := by
    rw [Nat.add_assoc, hbyte _ (by omega), List.getD_eq_getElem?_getD, hafter]
    rfl
  have hused := mem_usedSymbols.mp (List.getElem_mem hn)
  unfold readLength
  rw [hsymbol, hlength]
  dsimp only
  rw [throwIf_neg (by rintro (hzero | hseen); exacts [hused hzero, hseen hnew]), ok_bind]
  rfl

/-- The loop over the table restores the lengths. -/
theorem readLengths_lengthTable (lengths : ByteTable Byte) (low high : Byte) (payload : List Byte) :
    readLengths (low :: high :: (lengthTable lengths ++ payload)) (usedSymbols lengths).length =
      .ok lengths := by
  have hnodup : (usedSymbols lengths).Nodup := (List.nodup_finRange 256).filter _
  have hloop : ∀ n ≤ (usedSymbols lengths).length, ∃ table : ByteTable Byte,
      readLengths (low :: high :: (lengthTable lengths ++ payload)) n = .ok table ∧
        (∀ a ∈ (usedSymbols lengths).take n, table.get a = lengths.get a) ∧
          ∀ a ∉ (usedSymbols lengths).take n, table.get a = 0 := by
    intro n hn
    induction n with
    | zero => exact ⟨.fill 0, rfl, fun a ha => by simp at ha, fun a _ => ByteTable.get_fill 0 a⟩
    | succ n ih =>
      obtain ⟨table, hrun, hold, hzero⟩ := ih (by omega)
      have hnew : (usedSymbols lengths)[n] ∉ (usedSymbols lengths).take n := by
        intro hseen
        obtain ⟨i, hi, heq⟩ := List.getElem_of_mem hseen
        rw [List.length_take] at hi
        rw [List.getElem_take] at heq
        have hindex := hnodup.getElem_inj_iff.mp heq
        omega
      refine ⟨table.put (usedSymbols lengths)[n] (lengths.get (usedSymbols lengths)[n]), ?_, ?_⟩
      · rw [readLengths] at hrun
        rw [readLengths, List.range_succ, List.foldlM_append, hrun, ok_bind, List.foldlM_cons,
          readLength_lengthTable low high payload hn (hzero _ hnew)]
        rfl
      · rw [List.take_succ_eq_append_getElem hn]
        constructor
        · intro a ha
          by_cases hsame : a = (usedSymbols lengths)[n]
          · rw [hsame, ByteTable.get_put_self]
          · rw [ByteTable.get_put_of_ne hsame]
            exact hold a ((List.mem_append.mp ha).resolve_right (mt List.mem_singleton.mp hsame))
        · intro a ha
          rw [List.mem_append, List.mem_singleton, not_or] at ha
          rw [ByteTable.get_put_of_ne ha.2]
          exact hzero a ha.1
  obtain ⟨table, hrun, hold, hzero⟩ := hloop _ (Nat.le_refl _)
  rw [List.take_length] at hold hzero
  have hall : table = lengths := by
    refine ByteTable.ext_get fun a => ?_
    by_cases hused : a ∈ usedSymbols lengths
    · exact hold a hused
    · rw [hzero a hused, not_not.mp (mt mem_usedSymbols.mpr hused)]
  rw [hrun, hall]

/-- A count is read from its two bytes. -/
theorem count_bytes {count : ℕ} (h : count < 2 ^ 16) :
    (toByte (count &&& 0xff)).val ||| (toByte (count >>> 8)).val <<< 8 = count := by
  have hlow : (toByte (count &&& 0xff)).val = count % 2 ^ 8 := by
    have hmask : count &&& 0xff = count % 2 ^ 8 := Nat.and_two_pow_sub_one_eq_mod count 8
    rw [hmask]
    exact Nat.mod_mod count (2 ^ 8)
  have hhigh : (toByte (count >>> 8)).val = count / 2 ^ 8 := by
    rw [Nat.shiftRight_eq_div_pow]
    exact Nat.mod_eq_of_lt (by omega)
  rw [hlow, hhigh, or_shiftLeft _ (Nat.mod_lt _ (by decide)), Nat.mod_add_div]

/-- The decoder reads the header, the table and the payload of a prefix code. -/
theorem huffmanDecode_stream (hcodes : PrefixCode (canonicalHuffmanCodes lengths))
    (hused : ∀ symbol ∈ block, lengths.get symbol ≠ 0) (hne : block ≠ [])
    (hlen : block.length < 2 ^ 63) :
    let count := (usedSymbols lengths).length
    huffmanDecode (toByte (count &&& 0xff) :: toByte (count >>> 8) :: (lengthTable lengths ++
      toOctets (block.flatMap (codeBits (canonicalHuffmanCodes lengths))))) block.length =
        .ok block := by
  have hsize := length_lengthTable lengths
  have hmax := length_usedSymbols_le lengths
  have hpos : 0 < (usedSymbols lengths).length := by
    obtain ⟨symbol, hsymbol⟩ := List.exists_mem_of_ne_nil block hne
    exact List.length_pos_of_mem (mem_usedSymbols.mpr (hused symbol hsymbol))
  have hread := decodeSymbols_decodes hcodes
    (fun symbol hsymbol => by
      rw [length_canonicalHuffmanCodes]
      exact hused symbol hsymbol) []
  obtain ⟨reader, hrun⟩ := run_of_decodes hread
  have hlengths := readLengths_lengthTable lengths
    (toByte ((usedSymbols lengths).length &&& 0xff)) (toByte ((usedSymbols lengths).length >>> 8))
    (toOctets (block.flatMap (codeBits (canonicalHuffmanCodes lengths))))
  dsimp only
  generalize toOctets (block.flatMap (codeBits (canonicalHuffmanCodes lengths))) = payload at *
  have hcount := count_bytes (show (usedSymbols lengths).length < 2 ^ 16 by omega)
  generalize (usedSymbols lengths).length = count at *
  generalize toByte (count &&& 0xff) = low at *
  generalize toByte (count >>> 8) = high at *
  have hdrop :
      (low :: high :: (lengthTable lengths ++ payload)).drop (2 + count * 2) = payload := by
    rw [Nat.add_comm 2, List.drop_succ_cons, List.drop_succ_cons]
    exact List.drop_left' hsize
  have htotal : 2 + count * 2 ≤ (low :: high :: (lengthTable lengths ++ payload)).length := by
    rw [List.length_cons, List.length_cons, List.length_append]
    omega
  have hheader : ((low :: high :: (lengthTable lengths ++ payload)).getD 0 0).val |||
      ((low :: high :: (lengthTable lengths ++ payload)).getD 1 0).val <<< 8 = count := hcount
  rw [huffmanDecode, throwIf_neg (by omega), ok_bind]
  dsimp only
  rw [hheader, throwIf_neg (by omega), ok_bind, hlengths, ok_bind, throwIf_neg (by omega), ok_bind,
    hdrop, hrun]
  rfl

/-- Decoding what encoding wrote gives the block back, and no code is longer than 32 bits. -/
theorem huffman_round_trip (hne : block ≠ []) (hlen : block.length < 9227465) :
    (∃ encoded, huffmanEncode block = .ok encoded ∧
      huffmanDecode encoded block.length = .ok block) ∧
        ∀ symbol, ((huffmanCodeLengths block).get symbol).val ≤ 32 := by
  have hsmall : block.length < 2 ^ 63 := by omega
  have hfib : Nat.fib (32 + 3) = 9227465 := by decide
  rw [← hfib] at hlen
  have hle := huffmanCodeLengths_le (show 1 ≤ 32 by decide) hne hlen
  have hcodes := canonicalHuffmanCodes_prefixCode hle (kraft_huffmanCodeLengths hne hlen)
  have hused : ∀ symbol ∈ block, (huffmanCodeLengths block).get symbol ≠ 0 :=
    fun symbol hsymbol => (huffmanCodeLengths_ne_zero hne symbol).mpr (mem_symbolsOf.mpr hsymbol)
  refine ⟨⟨_, ?_, huffmanDecode_stream hcodes hused hne hsmall⟩, hle⟩
  have hpayload := payload_holds (canonicalHuffmanCodes (huffmanCodeLengths block)) block
    holds_empty
  have hcount : ((List.finRange 256).countP fun symbol =>
      (huffmanCodeLengths block).get symbol ≠ 0) % 2 ^ 16 =
        (usedSymbols (huffmanCodeLengths block)).length := by
    rw [List.countP_eq_length_filter]
    exact Nat.mod_eq_of_lt ((length_usedSymbols_le _).trans_lt (by decide))
  rw [huffmanEncode, throwIf_neg hne, ok_bind]
  dsimp only
  rw [hcount, hpayload.bytes_eq, List.nil_append, List.append_assoc, List.cons_append,
    List.cons_append, List.nil_append]
  rfl

/-- A block with code words of one, two and three bits. -/
def exampleBytes : Block := [1, 2, 3, 1, 1, 2, 7]

theorem exampleBytes_huffman_round_trip :
    (∃ encoded, huffmanEncode exampleBytes = .ok encoded ∧
      huffmanDecode encoded exampleBytes.length = .ok exampleBytes) ∧
        ∀ symbol, ((huffmanCodeLengths exampleBytes).get symbol).val ≤ 32 :=
  huffman_round_trip (by decide) (by decide)

end ByteSelect.Baseline
