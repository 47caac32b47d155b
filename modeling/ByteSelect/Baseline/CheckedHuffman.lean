import ByteSelect.Baseline.Huffman
import ByteSelect.Baseline.Checked

/-! The Huffman decoder with every index and every shift checked: which tables of lengths take it
out of the defined behaviour. -/
namespace ByteSelect.Baseline.Checked

open Guarded

/-! Canonical codes. -/

/-- One turn of the loop that reverses a code. -/
def reverseBit (code : BitVec 32) (length : ℕ) (reversed : BitVec 32) (i : ℕ) :
    Run (BitVec 32) := do
  let bit ← shift 32 (length - 1 - i) ((code >>> (length - 1 - i)) &&& 1)
  shift 32 i (reversed ||| bit <<< i)

def reverseCode (code : BitVec 32) (length : ℕ) : Run (BitVec 32) :=
  (List.range length).foldlM (reverseBit code length) 0

/-- One turn of the loop over the ordered symbols. The difference of the lengths is unsigned. -/
def canonicalStep (state : ByteTable HuffmanCode × BitVec 32 × ℕ) (entry : ℕ × Byte) :
    Run (ByteTable HuffmanCode × BitVec 32 × ℕ) := do
  let (result, code, previousLength) := state
  let (length, symbol) := entry
  let difference ← demand (previousLength ≤ length) (length - previousLength)
  let code ← shift 32 difference (code <<< difference)
  let reversed ← reverseCode code length
  return (result.put symbol { bits := reversed, length := toByte length }, code + 1, length)

def canonicalHuffmanCodes (lengths : ByteTable Byte) : Run (ByteTable HuffmanCode) := do
  let (result, _) ← (orderedSymbols lengths).foldlM canonicalStep (.fill {}, 0, 0)
  return result

/-! The decoder. -/

def readLength (encoded : List Byte) (lengths : ByteTable Byte) (i : ℕ) :
    Run (ByteTable Byte) := do
  let symbol ← index encoded (2 + i * 2)
  let length ← index encoded (2 + i * 2 + 1)
  throwIf (length = 0 ∨ lengths.get symbol ≠ 0) (.runtimeError "invalid Huffman code table")
  return lengths.put symbol length

def readLengths (encoded : List Byte) (count : ℕ) : Run (ByteTable Byte) :=
  (List.range count).foldlM (readLength encoded) (.fill 0)

def searchSymbol (table : List DecodeEntry) : ℕ → ℕ → BitVec 32 → Reading Byte
  | 0, _, _ => throw (.thrown (.runtimeError "invalid Huffman payload"))
  | n + 1, length, bits => do
    let bit ← get 1
    let bits ← shift 32 (length - 1) (bits ||| BitVec.ofNat 32 bit <<< (length - 1))
    match table.find? fun entry => entry.length = length ∧ entry.bits = bits with
    | some entry => return entry.symbol
    | none => searchSymbol table n (length + 1) bits

def decodeSymbols (table : List DecodeEntry) (output : Block) : ℕ → Reading Block
  | 0 => pure output
  | n + 1 => do
    let symbol ← searchSymbol table 32 1 0
    decodeSymbols table (output ++ [symbol]) n

def huffmanDecode (encoded : List Byte) (outputSize : ℕ) : Run Block := do
  throwIf (encoded.length < 2) (.runtimeError "truncated Huffman header")
  let low ← index encoded 0
  let high ← index encoded 1
  let count ← shift 64 8 (low.val ||| high.val <<< 8)
  throwIf (count = 0 ∨ count > 256 ∨ encoded.length < 2 + count * 2)
    (.runtimeError "invalid Huffman header")
  let lengths ← readLengths encoded count
  let codes ← canonicalHuffmanCodes lengths
  let payload := encoded.drop (2 + count * 2)
  throwIf (outputSize ≥ 2 ^ 63) (.lengthError "vector::reserve")
  let (output, _) ← decodeSymbols (decodeTable codes) [] outputSize { bytes := payload }
  return output

variable {lengths : ByteTable Byte} {encoded : List Byte} {count length outputSize n : ℕ}

/-! The same runs without the checks. -/

theorem checks_reverseCode (code : BitVec 32) (length : ℕ) :
    Checks (.ok (Baseline.reverseCode code length)) (reverseCode code length) :=
  checks_foldl _ _ fun _ _ => (checks_shift _ _ _).after (checks_shift _ _ _)

theorem checks_canonicalStep (state : ByteTable HuffmanCode × BitVec 32 × ℕ) (entry : ℕ × Byte) :
    Checks (.ok (Baseline.canonicalStep state entry)) (canonicalStep state entry) :=
  (checks_demand _).after ((checks_shift _ _ _).after ((checks_reverseCode _ _).after .same))

theorem checks_canonicalHuffmanCodes (lengths : ByteTable Byte) :
    Checks (.ok (Baseline.canonicalHuffmanCodes lengths)) (canonicalHuffmanCodes lengths) :=
  (checks_foldl _ _ checks_canonicalStep).after .same

theorem checks_readLengths (encoded : List Byte) (count : ℕ) :
    Checks (Baseline.readLengths encoded count) (readLengths encoded count) :=
  checks_foldlM _ _ fun _ _ => (checks_index _ _ 0).after ((checks_index _ _ 0).after
    ((checks_throwIf _ _).bind fun _ => .same))

theorem checks_searchSymbol (table : List DecodeEntry) (n length : ℕ) (bits : BitVec 32) :
    ChecksState (Baseline.searchSymbol table n length bits) (searchSymbol table n length bits) := by
  induction n generalizing length bits with
  | zero => exact checksState_throw _
  | succ n ih =>
    refine (checks_get 1).bind fun bit => .after (checks_shift _ _ _) ?_
    dsimp only
    generalize table.find? _ = found
    cases found with
    | some entry => exact checksState_pure _
    | none => exact ih _ _

theorem checks_decodeSymbols (table : List DecodeEntry) (output : Block) (n : ℕ) :
    ChecksState (Baseline.decodeSymbols table output n) (decodeSymbols table output n) := by
  induction n generalizing output with
  | zero => exact checksState_pure output
  | succ n ih => exact (checks_searchSymbol table 32 1 0).bind fun symbol => ih _

theorem checks_huffmanDecode (encoded : List Byte) (outputSize : ℕ) :
    Checks (Baseline.huffmanDecode encoded outputSize) (huffmanDecode encoded outputSize) := by
  refine (checks_throwIf _ _).bind fun _ => (checks_index _ _ 0).after
    ((checks_index _ _ 0).after ((checks_shift _ _ _).after ?_))
  refine (checks_throwIf _ _).bind fun _ => (checks_readLengths _ _).bind fun lengths =>
    (checks_canonicalHuffmanCodes lengths).after ?_
  exact (checks_throwIf _ _).bind fun _ => (checks_decodeSymbols _ _ _ _).bind fun _ => .same

/-! Tables of lengths. -/

/-- The symbols and lengths of a table. -/
def tableEntries (encoded : List Byte) (count : ℕ) : List (Byte × Byte) :=
  (List.range count).map fun i => (encoded.getD (2 + i * 2) 0, encoded.getD (2 + i * 2 + 1) 0)

/-- The count in the header. -/
def tableCount (encoded : List Byte) : ℕ := (encoded.getD 0 0).val ||| (encoded.getD 1 0).val <<< 8

/-- Header and table pass the checks of the decoder. -/
structure AcceptsTable (encoded : List Byte) : Prop where
  two_le : 2 ≤ encoded.length
  count_pos : 0 < tableCount encoded
  count_le : tableCount encoded ≤ 256
  length_le : 2 + tableCount encoded * 2 ≤ encoded.length
  lengths_ne : ∀ entry ∈ tableEntries encoded (tableCount encoded), entry.2 ≠ 0
  nodup : ((tableEntries encoded (tableCount encoded)).map Prod.fst).Nodup

/-- The lengths are those of the entries. -/
def LengthsOf (entries : List (Byte × Byte)) (lengths : ByteTable Byte) : Prop :=
  ∀ symbol length, (symbol, length) ∈ entries ↔ lengths.get symbol = length ∧ length ≠ 0

theorem tableEntries_succ (encoded : List Byte) (n : ℕ) : tableEntries encoded (n + 1) =
    tableEntries encoded n ++ [(encoded.getD (2 + n * 2) 0, encoded.getD (2 + n * 2 + 1) 0)] := by
  rw [tableEntries, List.range_succ, List.map_append]
  rfl

theorem lengthsOf_nil : LengthsOf [] (.fill 0) := by
  intro symbol length
  rw [ByteTable.get_fill]
  constructor
  · intro h
    cases h
  · rintro ⟨rfl, h⟩
    exact absurd rfl h

section Entries

variable {entries : List (Byte × Byte)} {symbol value : Byte}

theorem LengthsOf.put (h : LengthsOf entries lengths) (hvalue : value ≠ 0)
    (hnew : lengths.get symbol = 0) :
    LengthsOf (entries ++ [(symbol, value)]) (lengths.put symbol value) := by
  intro a length
  rw [List.mem_append, List.mem_singleton, h]
  by_cases ha : a = symbol
  · subst ha
    rw [ByteTable.get_put_self, hnew]
    constructor
    · rintro (⟨rfl, hne⟩ | heq)
      · exact absurd rfl hne
      · cases heq
        exact ⟨rfl, hvalue⟩
    · rintro ⟨rfl, -⟩
      exact Or.inr rfl
  · rw [ByteTable.get_put_of_ne ha]
    constructor
    · rintro (hold | heq)
      · exact hold
      · cases heq
        exact absurd rfl ha
    · exact Or.inl

theorem LengthsOf.get_eq_zero (h : LengthsOf entries lengths)
    (hnew : symbol ∉ entries.map Prod.fst) : lengths.get symbol = 0 := by
  by_contra hne
  exact hnew (List.mem_map.mpr ⟨_, (h symbol _).mpr ⟨rfl, hne⟩, rfl⟩)

theorem LengthsOf.not_mem (h : LengthsOf entries lengths) (hnew : lengths.get symbol = 0) :
    symbol ∉ entries.map Prod.fst := by
  intro hmem
  obtain ⟨⟨a, length⟩, hentry, rfl⟩ := List.mem_map.mp hmem
  obtain ⟨hget, hne⟩ := (h a length).mp hentry
  exact hne (hget.symm.trans hnew)

/-- The lengths of the entries, in the order of the canonical code. -/
theorem LengthsOf.mem_orderedSymbols_iff (h : LengthsOf entries lengths) {n : ℕ} :
    (n, symbol) ∈ orderedSymbols lengths ↔ ∃ length, (symbol, length) ∈ entries ∧ n = length.val := by
  rw [mem_orderedSymbols]
  constructor
  · rintro ⟨hne, hn⟩
    exact ⟨_, (h symbol _).mpr ⟨rfl, hne⟩, hn⟩
  · rintro ⟨length, hentry, hn⟩
    obtain ⟨rfl, hne⟩ := (h symbol length).mp hentry
    exact ⟨hne, hn⟩

end Entries

/-- Whatever table the loop lets through has a length for each of its symbols. -/
theorem safe_readLengths (hlen : 2 + count * 2 ≤ encoded.length) :
    Safe (fun lengths => LengthsOf (tableEntries encoded count) lengths ∧
      ((tableEntries encoded count).map Prod.fst).Nodup) (readLengths encoded count) := by
  refine safe_foldlM_range (fun i lengths => LengthsOf (tableEntries encoded i) lengths ∧
    ((tableEntries encoded i).map Prod.fst).Nodup) ⟨lengthsOf_nil, List.nodup_nil⟩ ?_
  rintro i lengths hi ⟨hlengths, hnodup⟩
  refine (safe_index (by omega)).bind fun symbol hsymbol => (safe_index (by omega)).bind
    fun length hlength => safe_throwIf.bind fun _ hcheck => .returns ?_
  rw [not_or, not_not] at hcheck
  rw [tableEntries_succ, List.getD_eq_getElem?_getD, List.getD_eq_getElem?_getD, hsymbol, hlength,
    List.map_append]
  refine ⟨hlengths.put hcheck.1 hcheck.2, List.nodup_append.mpr ⟨hnodup, by simp, ?_⟩⟩
  rintro a ha b hb rfl
  cases List.mem_singleton.mp hb
  exact hlengths.not_mem hcheck.2 ha

/-- A table without repetitions is let through. -/
theorem AcceptsTable.readLengths (h : AcceptsTable encoded) :
    ∃ lengths, readLengths encoded (tableCount encoded) = .ok lengths ∧
      LengthsOf (tableEntries encoded (tableCount encoded)) lengths := by
  have hlen := h.length_le
  refine returns_foldlM_range (fun i lengths => LengthsOf (tableEntries encoded i) lengths)
    lengthsOf_nil fun i lengths hi hlengths => ?_
  have hsub : (tableEntries encoded (i + 1)).Sublist (tableEntries encoded (tableCount encoded)) :=
    (List.range_sublist.mpr hi).map _
  have hnodup := h.nodup.sublist (hsub.map Prod.fst)
  rw [tableEntries_succ] at hnodup hsub ⊢
  have hlast := hsub.subset (List.mem_append_right _ (List.mem_singleton.mpr rfl))
  rw [List.map_append, List.nodup_append] at hnodup
  have hnew := hlengths.get_eq_zero fun hmem =>
    hnodup.2.2 _ hmem _ (List.mem_singleton.mpr rfl) rfl
  refine ⟨_, ?_, hlengths.put (h.lengths_ne _ hlast) hnew⟩
  have hsymbol : index encoded (2 + i * 2) = .ok (encoded.getD (2 + i * 2) 0) :=
    index_eq_ok (by omega) 0
  have hlength : index encoded (2 + i * 2 + 1) = .ok (encoded.getD (2 + i * 2 + 1) 0) :=
    index_eq_ok (by omega) 0
  have hcheck := h.lengths_ne _ hlast
  rw [readLength, hsymbol, Guarded.ok_bind, hlength, Guarded.ok_bind, throwIf,
    if_neg (by rintro (hzero | hseen); exacts [hcheck hzero, hseen hnew])]
  rfl

/-! Canonical codes of a table. -/

theorem safe_reverseCode (code : BitVec 32) (hlen : length ≤ 32) :
    Safe (fun _ => True) (reverseCode code length) := by
  refine safe_foldlM_range (fun _ _ => True) trivial fun i reversed hi _ => ?_
  exact (safe_shift (by omega)).bind fun bit _ => (safe_shift (by omega)).mono fun _ _ => trivial

/-- A code of more than 32 bits is shifted too far. -/
theorem reverseCode_undefined (code : BitVec 32) (hlen : 32 < length) :
    reverseCode code length = .error .undefined := by
  obtain ⟨n, rfl⟩ : ∃ n, length = n + 1 := ⟨length - 1, by omega⟩
  have hfirst : ∀ reversed, reverseBit code (n + 1) reversed 0 = .error .undefined := by
    intro reversed
    rw [reverseBit, shift, Guarded.shift, demand, if_neg (by omega)]
    rfl
  rw [reverseCode, List.range_succ_eq_map, List.foldlM_cons, hfirst]
  rfl

/-- Lengths that grow by less than 32 from one to the next keep every shift in range. -/
theorem safe_foldlM_canonicalStep {entries : List (ℕ × Byte)}
    (hsorted : (entries.map Prod.fst).Pairwise (· ≤ ·))
    (hle : ∀ entry ∈ entries, 1 ≤ entry.1 ∧ entry.1 ≤ 32)
    {state : ByteTable HuffmanCode × BitVec 32 × ℕ}
    (hprevious : ∀ entry ∈ entries, state.2.2 ≤ entry.1)
    (hgap : ∀ entry ∈ entries.head?, entry.1 - state.2.2 < 32) :
    Safe (fun _ => True) (entries.foldlM canonicalStep state) := by
  induction entries generalizing state with
  | nil => exact .returns trivial
  | cons entry entries ih =>
    obtain ⟨result, code, previousLength⟩ := state
    obtain ⟨length, symbol⟩ := entry
    rw [List.forall_mem_cons] at hle hprevious
    rw [List.map_cons, List.pairwise_cons] at hsorted
    have hfirst := hgap _ rfl
    have hnext : ∀ entry ∈ entries, length ≤ entry.1 := fun entry hentry =>
      hsorted.1 _ (List.mem_map_of_mem hentry)
    rw [List.foldlM_cons]
    refine Safe.bind (p := fun next => next.2.2 = length) ?_ fun next hlength =>
      ih hsorted.2 hle.2 (fun entry hentry => hlength.trans_le (hnext entry hentry))
        fun entry hentry => ?_
    · have hdifference : Safe (fun d => d = length - previousLength)
          (demand (previousLength ≤ length) (length - previousLength) : Run ℕ) :=
        safe_demand hprevious.1 rfl
      refine hdifference.bind ?_
      rintro _ rfl
      exact (safe_shift hfirst).bind fun code _ =>
        (safe_reverseCode code hle.1.2).bind fun reversed _ => .returns rfl
    · have hone := hle.1.1
      have hlast := (hle.2 entry (List.mem_of_mem_head? hentry)).2
      dsimp only at hone
      omega

/-- A turn on a length above 32 leaves the defined behaviour. -/
theorem canonicalStep_undefined (state : ByteTable HuffmanCode × BitVec 32 × ℕ)
    {entry : ℕ × Byte} (hlen : 32 < entry.1) : canonicalStep state entry = .error .undefined := by
  obtain ⟨result, code, previousLength⟩ := state
  obtain ⟨length, symbol⟩ := entry
  have hdemand : ∀ d : ℕ, (demand (previousLength ≤ length) d : Run ℕ) = .error .undefined ∨
      (demand (previousLength ≤ length) d : Run ℕ) = .ok d := by
    intro d
    unfold demand
    split
    · exact Or.inr rfl
    · exact Or.inl rfl
  have hreverse := fun code => @reverseCode_undefined length code hlen
  unfold canonicalStep
  dsimp only
  rcases hdemand (length - previousLength) with heq | heq
  · rw [heq]
    rfl
  rw [heq, Guarded.ok_bind]
  unfold shift Guarded.shift demand
  split
  · rw [Guarded.ok_bind, hreverse]
    rfl
  · rfl

/-- The shifts of the canonical code are in range when no length is above 32 and some is below. -/
theorem safe_canonicalHuffmanCodes (hle : ∀ entry ∈ orderedSymbols lengths, entry.1 ≤ 32)
    (hshort : ∃ entry ∈ orderedSymbols lengths, entry.1 ≤ 31) :
    Safe (fun _ => True) (canonicalHuffmanCodes lengths) := by
  have hsorted := sorted_orderedSymbols lengths
  have hpos : ∀ entry ∈ orderedSymbols lengths, 1 ≤ entry.1 := by
    intro entry hentry
    obtain ⟨hne, hlength⟩ := mem_orderedSymbols.mp hentry
    rw [hlength]
    exact Nat.pos_of_ne_zero fun hzero => hne (Fin.ext hzero)
  refine (safe_foldlM_canonicalStep hsorted (fun entry hentry =>
    ⟨hpos entry hentry, hle entry hentry⟩) (fun _ _ => Nat.zero_le _) ?_).bind
    fun state _ => .returns trivial
  intro first hfirst
  obtain ⟨entry, hentry, hlow⟩ := hshort
  cases hordered : orderedSymbols lengths with
  | nil =>
    rw [hordered] at hentry
    cases hentry
  | cons top rest =>
    rw [hordered] at hfirst hentry hsorted
    cases hfirst
    rw [List.map_cons, List.pairwise_cons] at hsorted
    rcases List.mem_cons.mp hentry with rfl | hrest
    · omega
    · have hfirst := hsorted.1 _ (List.mem_map_of_mem hrest)
      omega

/-- Otherwise some shift is not. -/
theorem canonicalHuffmanCodes_undefined (hne : orderedSymbols lengths ≠ [])
    (h : (∃ entry ∈ orderedSymbols lengths, 32 < entry.1) ∨
      ∀ entry ∈ orderedSymbols lengths, 31 < entry.1) :
    canonicalHuffmanCodes lengths = .error .undefined := by
  have hloop : (orderedSymbols lengths).foldlM canonicalStep (.fill {}, 0, 0) =
      .error .undefined := by
    rcases h with ⟨entry, hentry, hlong⟩ | hlong
    · exact foldlM_undefined _ checks_canonicalStep hentry fun state =>
        canonicalStep_undefined state hlong
    · cases hordered : orderedSymbols lengths with
      | nil => exact absurd hordered hne
      | cons top rest =>
        rw [hordered, List.forall_mem_cons] at hlong
        have hstep : canonicalStep (.fill {}, 0, 0) top = .error .undefined := by
          obtain ⟨length, symbol⟩ := top
          unfold canonicalStep
          dsimp only
          rw [demand, if_pos (Nat.zero_le _), Guarded.ok_bind, shift, Guarded.shift, demand,
            if_neg (by have := hlong.1; dsimp only at this; omega)]
          rfl
        rw [List.foldlM_cons, hstep]
        rfl
  rw [canonicalHuffmanCodes, hloop]
  rfl

/-! The payload. -/

theorem stays_searchSymbol (table : List DecodeEntry) (hlen : 1 ≤ length) (hn : length + n ≤ 33)
    (bits : BitVec 32) : Stays (fun _ => True) (searchSymbol table n length bits) := by
  induction n generalizing length bits with
  | zero => exact stays_throw _
  | succ n ih =>
    refine (stays_get (by decide)).bind fun bit _ =>
      (stays_lift (safe_shift (by omega))).bind fun bits _ => ?_
    split
    · exact stays_pure trivial
    · exact ih (by omega) (by omega) _

theorem stays_decodeSymbols (table : List DecodeEntry) (output : Block) (n : ℕ) :
    Stays (fun out => out.length = output.length + n) (decodeSymbols table output n) := by
  induction n generalizing output with
  | zero => exact stays_pure rfl
  | succ n ih =>
    refine (stays_searchSymbol table (by decide) (by decide) 0).bind fun symbol _ =>
      (ih _).mono fun out hout => ?_
    rw [hout, List.length_append, List.length_singleton]
    omega

/-! The decoder. -/

/-- Lengths for which every shift is in range. -/
def ShiftsInRange (encoded : List Byte) : Prop :=
  (∀ entry ∈ tableEntries encoded (tableCount encoded), entry.2.val ≤ 32) ∧
    ∃ entry ∈ tableEntries encoded (tableCount encoded), entry.2.val ≤ 31

theorem safe_huffmanDecode (h : AcceptsTable encoded → ShiftsInRange encoded) (outputSize : ℕ) :
    Safe (fun out => out.length = outputSize) (huffmanDecode encoded outputSize) := by
  refine safe_throwIf.bind fun _ hsize => ?_
  refine (safe_index (by omega)).bind fun low hlow => (safe_index (by omega)).bind fun high hhigh =>
    (safe_shift (by decide)).bind ?_
  rintro _ rfl
  have hcount : low.val ||| high.val <<< 8 = tableCount encoded := by
    rw [tableCount, List.getD_eq_getElem?_getD, List.getD_eq_getElem?_getD, hlow, hhigh]
    rfl
  rw [hcount]
  refine safe_throwIf.bind fun _ hheader => (safe_readLengths (by omega)).bind ?_
  rintro lengths ⟨hlengths, hnodup⟩
  have haccepts : AcceptsTable encoded := by
    refine ⟨by omega, by omega, by omega, by omega, fun entry hentry => ?_, hnodup⟩
    exact ((hlengths _ _).mp hentry).2
  obtain ⟨hle, ⟨symbol, value⟩, hentry, hshort⟩ := h haccepts
  refine (safe_canonicalHuffmanCodes ?_ ?_).bind fun codes _ => safe_throwIf.bind fun _ _ =>
    (stays_decodeSymbols _ [] outputSize _).bind fun r hr => .returns ?_
  · rintro ⟨n, symbol⟩ hn
    obtain ⟨value, hentry, rfl⟩ := hlengths.mem_orderedSymbols_iff.mp hn
    exact hle _ hentry
  · exact ⟨_, hlengths.mem_orderedSymbols_iff.mpr ⟨value, hentry, rfl⟩, hshort⟩
  · rw [hr, List.length_nil, Nat.zero_add]

/-- Where its shifts are in range the decoder is the one without the checks. -/
theorem huffmanDecode_eq_lift (h : AcceptsTable encoded → ShiftsInRange encoded)
    (outputSize : ℕ) : huffmanDecode encoded outputSize =
      lift (Baseline.huffmanDecode encoded outputSize) :=
  (checks_huffmanDecode encoded outputSize).eq_lift (safe_huffmanDecode h outputSize)

theorem huffmanDecode_undefined (h : AcceptsTable encoded) (hshift : ¬ ShiftsInRange encoded)
    (outputSize : ℕ) : huffmanDecode encoded outputSize = .error .undefined := by
  obtain ⟨lengths, hrun, hlengths⟩ := h.readLengths
  have htwo := h.two_le
  have hlow : index encoded 0 = .ok (encoded.getD 0 0) := index_eq_ok (by omega) 0
  have hhigh : index encoded 1 = .ok (encoded.getD 1 0) := index_eq_ok (by omega) 0
  have hcount : shift 64 8 ((encoded.getD 0 0).val ||| (encoded.getD 1 0).val <<< 8) =
      .ok (tableCount encoded) := rfl
  have hpos := h.count_pos
  have hle := h.count_le
  have hlen := h.length_le
  have hcodes : canonicalHuffmanCodes lengths = .error .undefined := by
    apply canonicalHuffmanCodes_undefined
    · have hfirst : (encoded.getD 2 0, encoded.getD 3 0) ∈
          tableEntries encoded (tableCount encoded) :=
        List.mem_map.mpr ⟨0, List.mem_range.mpr hpos, rfl⟩
      exact List.ne_nil_of_mem (hlengths.mem_orderedSymbols_iff.mpr ⟨_, hfirst, rfl⟩)
    · by_cases hlong : ∃ entry ∈ orderedSymbols lengths, 32 < entry.1
      · exact Or.inl hlong
      · refine Or.inr fun entry hn => Nat.lt_of_not_le fun hlow => hshift ⟨?_, ?_⟩
        · rintro ⟨symbol, value⟩ hentry
          exact Nat.le_of_not_lt fun hlt => hlong
            ⟨_, hlengths.mem_orderedSymbols_iff.mpr ⟨value, hentry, rfl⟩, hlt⟩
        · obtain ⟨n, symbol⟩ := entry
          obtain ⟨value, hentry, rfl⟩ := hlengths.mem_orderedSymbols_iff.mp hn
          exact ⟨_, hentry, hlow⟩
  rw [huffmanDecode, throwIf, if_neg (by omega), Guarded.ok_bind, hlow, Guarded.ok_bind,
    hhigh, Guarded.ok_bind, hcount, Guarded.ok_bind, throwIf, if_neg (by omega),
    Guarded.ok_bind, hrun, Guarded.ok_bind, hcodes]
  rfl

/-- The decoder throws or returns exactly the bytes it was asked for, with every index and every
shift in range, unless the table it accepts has a length above 32 or none below. -/
theorem huffmanDecode_defined_iff (encoded : List Byte) (outputSize : ℕ) :
    ((∃ e, huffmanDecode encoded outputSize = .error (.thrown e)) ∨
      ∃ out, huffmanDecode encoded outputSize = .ok out ∧ out.length = outputSize) ↔
      (AcceptsTable encoded → ShiftsInRange encoded) := by
  rw [← safe_iff]
  constructor
  · intro hsafe haccepts
    by_contra hshift
    rw [huffmanDecode_undefined haccepts hshift] at hsafe
    cases hsafe
  · intro h
    exact safe_huffmanDecode h outputSize

/-- One symbol with a code of 32 bits: the code is shifted by 32. -/
def exampleLongCode : List Byte := [1, 0, 65, 32]

theorem not_huffmanDecode_defined : ¬ ∀ encoded outputSize,
    (∃ e, huffmanDecode encoded outputSize = .error (.thrown e)) ∨
      ∃ out, huffmanDecode encoded outputSize = .ok out ∧ out.length = outputSize := by
  intro h
  have hentries : tableEntries exampleLongCode (tableCount exampleLongCode) = [(65, 32)] := rfl
  have haccepts : AcceptsTable exampleLongCode :=
    ⟨by decide, by decide, by decide, by decide, by rw [hentries]; simp,
      hentries ▸ List.nodup_singleton _⟩
  have hshift : ¬ ShiftsInRange exampleLongCode := by
    rintro ⟨-, hshort⟩
    revert hshort
    decide
  have hsafe := safe_iff.mpr (h exampleLongCode 0)
  rw [huffmanDecode_undefined haccepts hshift] at hsafe
  cases hsafe

/-! Codes that no code begins. -/

theorem canonicalHuffmanCodes_of_unused (h : orderedSymbols lengths = []) :
    Safe (fun _ => True) (canonicalHuffmanCodes lengths) := by
  rw [canonicalHuffmanCodes, h]
  exact .returns trivial

/-- The bound of the Kraft sum is room for all words. -/
theorem kraft_le_of_sum_le (hle : ∀ symbol, (lengths.get symbol).val ≤ 32)
    (hkraft : ((usedLengths lengths).map fun length => (1 / 2 : ℚ) ^ length).sum ≤ 1) :
    CanonicalCode.kraft 32 (usedLengths lengths) ≤ 2 ^ 32 := by
  have hlengths : ∀ n ∈ usedLengths lengths, n ≤ 32 := by
    intro n hn
    obtain ⟨symbol, -, rfl⟩ := List.mem_map.mp hn
    exact hle symbol
  have hcast := OptimalCode.kraft_eq_mul_sum (K := ℚ) hlengths
  have hscaled : (CanonicalCode.kraft 32 (usedLengths lengths) : ℚ) ≤ 2 ^ 32 := by
    rw [hcast]
    exact mul_le_of_le_one_right (by positivity) hkraft
  exact_mod_cast hscaled

/-- Where a length below 32 is used, or none, no code is shifted too far. -/
theorem canonicalHuffmanCodes_safe (hle : ∀ symbol, (lengths.get symbol).val ≤ 32)
    (hshort : ∀ symbol, lengths.get symbol ≠ 0 →
      ∃ other, lengths.get other ≠ 0 ∧ (lengths.get other).val ≤ 31) :
    Safe (fun _ => True) (canonicalHuffmanCodes lengths) := by
  cases hordered : orderedSymbols lengths with
  | nil => exact canonicalHuffmanCodes_of_unused hordered
  | cons first rest =>
    have hfirst : first ∈ orderedSymbols lengths := hordered ▸ List.mem_cons_self
    obtain ⟨other, hother, hlow⟩ := hshort first.2 (mem_orderedSymbols.mp hfirst).1
    refine safe_canonicalHuffmanCodes (fun entry hentry => ?_)
      ⟨(_, other), mem_orderedSymbols.mpr ⟨hother, rfl⟩, hlow⟩
    rw [(mem_orderedSymbols.mp hentry).2]
    exact hle entry.2

/-- Lengths that leave room for all words, some of them below 32, get codes none of which
begins another one; so wherever the decoder stands in a stream, at most one entry matches. -/
theorem canonicalHuffmanCodes_prefix_free (lengths : ByteTable Byte)
    (hle : ∀ symbol, (lengths.get symbol).val ≤ 32)
    (hshort : ∀ symbol, lengths.get symbol ≠ 0 →
      ∃ other, lengths.get other ≠ 0 ∧ (lengths.get other).val ≤ 31)
    (hkraft : ((usedLengths lengths).map fun length => (1 / 2 : ℚ) ^ length).sum ≤ 1) :
    let codes := Baseline.canonicalHuffmanCodes lengths
    canonicalHuffmanCodes lengths = .ok codes ∧
    (∀ symbol, (codes.get symbol).length = lengths.get symbol) ∧
    (∀ symbol other, lengths.get symbol ≠ 0 → lengths.get other ≠ 0 → symbol ≠ other →
      codeBits codes symbol ≠ codeBits codes other ∧
        ¬ codeBits codes symbol <+: codeBits codes other) ∧
    ∀ reader l, BitReader.Before reader l →
      (∀ entry ∈ decodeTable codes, ∀ entry' ∈ decodeTable codes,
        entry.Matches l → entry'.Matches l → entry = entry') ∧
      ∀ symbol, (∃ reader', Baseline.searchSymbol (decodeTable codes) 32 1 0 reader =
        .ok (symbol, reader')) ↔ lengths.get symbol ≠ 0 ∧ codeBits codes symbol <+: l := by
  intro codes
  have hcodes : PrefixCode codes :=
    canonicalHuffmanCodes_prefixCode hle (kraft_le_of_sum_le hle hkraft)
  have hlength : ∀ symbol, (codes.get symbol).length = lengths.get symbol :=
    length_canonicalHuffmanCodes lengths
  refine ⟨?_, hlength, ?_, ?_⟩
  · exact (checks_canonicalHuffmanCodes lengths).eq_lift (canonicalHuffmanCodes_safe hle hshort)
  · intro symbol other hsymbol hother hne
    rw [← hlength] at hsymbol hother
    have hfree : ¬ codeBits codes symbol <+: codeBits codes other :=
      fun hstart => hne (hcodes.prefix_free symbol other hsymbol hother hstart)
    refine ⟨fun hsame => hfree ?_, hfree⟩
    rw [hsame]
  · intro reader l hbefore
    refine ⟨fun entry hentry entry' hentry' => hcodes.entry_eq hentry hentry', fun symbol => ?_⟩
    rw [← hlength]
    exact searchSymbol_ok_iff hcodes hbefore

theorem canonicalHuffmanCodes_prefix_free_eight :
    let lengths : ByteTable Byte := .fill 8
    let codes := Baseline.canonicalHuffmanCodes lengths
    (∀ symbol, (lengths.get symbol).val ≤ 32) ∧
    (∀ symbol, lengths.get symbol ≠ 0 →
      ∃ other, lengths.get other ≠ 0 ∧ (lengths.get other).val ≤ 31) ∧
    ((usedLengths lengths).map fun length => (1 / 2 : ℚ) ^ length).sum ≤ 1 ∧
    canonicalHuffmanCodes lengths = .ok codes ∧
    (∀ symbol, (codes.get symbol).length = lengths.get symbol) ∧
    (∀ symbol other, lengths.get symbol ≠ 0 → lengths.get other ≠ 0 → symbol ≠ other →
      codeBits codes symbol ≠ codeBits codes other ∧
        ¬ codeBits codes symbol <+: codeBits codes other) ∧
    ∀ reader l, BitReader.Before reader l →
      (∀ entry ∈ decodeTable codes, ∀ entry' ∈ decodeTable codes,
        entry.Matches l → entry'.Matches l → entry = entry') ∧
      ∀ symbol, (∃ reader', Baseline.searchSymbol (decodeTable codes) 32 1 0 reader =
        .ok (symbol, reader')) ↔ lengths.get symbol ≠ 0 ∧ codeBits codes symbol <+: l := by
  intro lengths codes
  have hget : ∀ symbol, lengths.get symbol = 8 := ByteTable.get_fill 8
  have hle : ∀ symbol, (lengths.get symbol).val ≤ 32 := by
    intro symbol
    rw [hget]
    decide
  have hshort : ∀ symbol, lengths.get symbol ≠ 0 →
      ∃ other, lengths.get other ≠ 0 ∧ (lengths.get other).val ≤ 31 := by
    intro symbol hsymbol
    refine ⟨symbol, hsymbol, ?_⟩
    rw [hget]
    decide
  have hused : usedLengths lengths = List.replicate 256 8 := by
    simp [usedLengths, usedSymbols, hget]
  have hkraft : ((usedLengths lengths).map fun length => (1 / 2 : ℚ) ^ length).sum ≤ 1 := by
    rw [hused, List.map_replicate, List.sum_replicate]
    norm_num
  exact ⟨hle, hshort, hkraft, canonicalHuffmanCodes_prefix_free lengths hle hshort hkraft⟩

end ByteSelect.Baseline.Checked
