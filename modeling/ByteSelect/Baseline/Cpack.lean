import ByteSelect.Baseline.Fpc

/-! C-Pack: words coded against a dictionary of recent words that both sides keep. -/
namespace ByteSelect.Baseline

open BitStream
open FpcBsel (Word load32 store32 wordsTo)

def kDictionaryEntries : ℕ := 16
def kIndexBits : ℕ := 4

/-- `byte0` to `byte3` of a word. -/
def byteAt (word : Word) (i : ℕ) : BitVec 8 := ((word >>> (8 * i)) &&& 0xff).setWidth 8

/-- How many bytes match an entry, counting from the most significant one. -/
def matchedBytes (word entry : Word) : ℕ :=
  if byteAt word 3 = byteAt entry 3 ∧ byteAt word 2 = byteAt entry 2 then
    if byteAt word 1 = byteAt entry 1 then
      if byteAt word 0 = byteAt entry 0 then 4 else 3
    else 2
  else 0

/-- The scan of the dictionary from one index on, with `best_matches` and `best_index`. -/
def bestMatch (word : Word) (best : ℕ × ℕ) (index : ℕ) : List Word → ℕ × ℕ
  | [] => best
  | entry :: entries =>
    let matched := matchedBytes word entry
    if matched > best.1 then bestMatch word (matched, index) (index + 1) entries
    else bestMatch word best (index + 1) entries

/-- One turn of the loop of `cpack_encode`. -/
def cpackEncodeWord (block : Block) (state : BitWriter × List Word) (offset : ℕ) :
    BitWriter × List Word :=
  let (writer, dictionary) := state
  let word := BitVec.ofNat 32 (loadLittleEndian block offset 4)
  if word = 0 then (writer.put 0 2, dictionary)
  else if byteAt word 1 = 0 ∧ byteAt word 2 = 0 ∧ byteAt word 3 = 0 then
    ((writer.put 11 4).put (byteAt word 0).toNat 8, dictionary)
  else
    let (bestMatches, bestIndex) := bestMatch word (1, 0) 0 dictionary
    let writer :=
      if bestMatches = 4 then (writer.put 1 2).put bestIndex kIndexBits
      else if bestMatches = 3 then
        ((writer.put 7 4).put bestIndex kIndexBits).put (byteAt word 0).toNat 8
      else if bestMatches = 2 then
        ((writer.put 3 4).put bestIndex kIndexBits).put (word &&& 0xffff).toNat 16
      else (writer.put 2 2).put word.toNat 32
    (writer, if dictionary.length < kDictionaryEntries then dictionary ++ [word]
      else dictionary.tail ++ [word])

def cpackEncode (block : Block) : Except Error (List Byte) := do
  throwIf (block = [] ∨ block.length % 4 ≠ 0)
    (.invalidArgument "C-Pack requires a non-empty block divisible by four bytes")
  let (writer, _) := (List.range (block.length / 4)).foldl
    (fun state word => cpackEncodeWord block state (word * 4)) (({} : BitWriter), ([] : List Word))
  return writer.bytes

/-- A dictionary entry that must be there. -/
def readEntry (dictionary : List Word) : Reading Word := do
  let index ← get kIndexBits
  match dictionary[index]? with
  | none => throw (.runtimeError "invalid C-Pack index")
  | some entry => return entry

/-- The word of one turn of the loop of `cpack_decode`, and whether it updates the dictionary. -/
def cpackReadWord (dictionary : List Word) : Reading (Word × Bool) := do
  let first ← get 2
  if first = 0 then return (0, false)
  else if first = 2 then return (BitVec.ofNat 32 (← get 32), true)
  else if first = 1 then return (← readEntry dictionary, true)
  else
    let subtype ← get 2
    if subtype = 2 then return (BitVec.ofNat 32 (← get 8), false)
    else
      let entry ← readEntry dictionary
      if subtype = 0 then
        return (BitVec.ofNat 32 ((entry &&& 0xffff0000).toNat ||| (← get 16)), true)
      else if subtype = 1 then
        return (BitVec.ofNat 32 ((entry &&& 0xffffff00).toNat ||| (← get 8)), true)
      else throw (.runtimeError "invalid C-Pack subtype")

/-- The loop of `cpack_decode` with `n` words to go. -/
def cpackDecodeWords (dictionary : List Word) (output : Block) : ℕ → Reading Block
  | 0 => pure output
  | n + 1 => do
    let (word, update) ← cpackReadWord dictionary
    let dictionary :=
      if update then
        (if dictionary.length = kDictionaryEntries then dictionary.tail else dictionary) ++ [word]
      else dictionary
    cpackDecodeWords dictionary (output ++ valueBytes word) n

def cpackDecode (encoded : List Byte) (outputSize : ℕ) : Except Error Block := do
  throwIf (outputSize = 0 ∨ outputSize % 4 ≠ 0) (.invalidArgument "invalid C-Pack output size")
  -- `reserve` refuses what no vector can hold
  throwIf (outputSize ≥ 2 ^ 63) (.lengthError "vector::reserve")
  let (output, _) ← cpackDecodeWords [] [] (outputSize / 4) { bytes := encoded }
  return output

variable {word entry : Word} {dictionary : List Word} {writer : BitWriter} {l t : List Bool}

/-! Bytes of words. -/

theorem toNat_byteAt (word : Word) (i : ℕ) :
    (byteAt word i).toNat = word.toNat / 2 ^ (8 * i) % 2 ^ 8 := by
  have hmask : ((word >>> (8 * i)) &&& 0xff).toNat = (word >>> (8 * i)).toNat % 2 ^ 8 :=
    @FpcBsel.toNat_and_mask 8 (by decide) _
  rw [byteAt, BitVec.toNat_setWidth, hmask, Nat.mod_mod, BitVec.toNat_ushiftRight,
    Nat.shiftRight_eq_div_pow]

theorem toNat_byteAt_zero (word : Word) : (byteAt word 0).toNat = word.toNat % 2 ^ 8 := by
  rw [toNat_byteAt, Nat.mul_zero, Nat.pow_zero, Nat.div_one]

theorem byteAt_eq_iff {i : ℕ} : byteAt word i = byteAt entry i ↔
    word.toNat / 2 ^ (8 * i) % 2 ^ 8 = entry.toNat / 2 ^ (8 * i) % 2 ^ 8 := by
  rw [← BitVec.toNat_inj, toNat_byteAt, toNat_byteAt]

/-- Matched bytes are those above what was not matched. -/
theorem div_eq_of_matchedBytes {n : ℕ} (h : matchedBytes word entry = n) (hn : 2 ≤ n) :
    entry.toNat / 2 ^ (8 * (4 - n)) = word.toNat / 2 ^ (8 * (4 - n)) := by
  have hword := word.isLt
  have hentry := entry.isLt
  unfold matchedBytes at h
  simp only [byteAt_eq_iff] at h
  split at h
  · rename_i htop
    split at h
    · rename_i hmiddle
      split at h
      · subst h
        simp only [Nat.sub_self, Nat.mul_zero, Nat.pow_zero, Nat.div_one]
        omega
      · subst h
        omega
    · subst h
      omega
  · omega

theorem bestMatch_spec (word : Word) (all : List Word) {best : ℕ × ℕ} {seen rest : List Word}
    (hall : all = seen ++ rest)
    (hbest : best.1 = 1 ∨ 2 ≤ best.1 ∧
      ∃ entry, all[best.2]? = some entry ∧ matchedBytes word entry = best.1) :
    let final := bestMatch word best seen.length rest
    final.1 = 1 ∨ 2 ≤ final.1 ∧
      ∃ entry, all[final.2]? = some entry ∧ matchedBytes word entry = final.1 := by
  induction rest generalizing best seen with
  | nil => exact hbest
  | cons entry rest ih =>
    have hall' : all = (seen ++ [entry]) ++ rest := by simp [hall]
    have hlen : seen.length + 1 = (seen ++ [entry]).length := by simp
    rw [bestMatch, hlen]
    dsimp only
    split
    · rename_i hmore
      refine ih hall' (Or.inr ⟨?_, entry, by simp [hall], rfl⟩)
      rcases hbest with hone | ⟨htwo, -⟩
      · dsimp only
        omega
      · dsimp only
        omega
    · exact ih hall' hbest

/-! The code of a word against a dictionary. -/

/-- The bits a word may be coded by, and whether it then enters the dictionary. -/
inductive Coded (dictionary : List Word) (word : Word) : List Bool → Bool → Prop
  | zero (h : word = 0) : Coded dictionary word (bitsOf 0 2) false
  | narrow (h : word.toNat < 2 ^ 8) :
      Coded dictionary word (bitsOf 11 4 ++ bitsOf word.toNat 8) false
  | full {index : ℕ} (hindex : index < 2 ^ kIndexBits) (h : dictionary[index]? = some word) :
      Coded dictionary word (bitsOf 1 2 ++ bitsOf index kIndexBits) true
  | three {index : ℕ} {entry : Word} (hindex : index < 2 ^ kIndexBits)
      (h : dictionary[index]? = some entry) (he : entry.toNat / 2 ^ 8 = word.toNat / 2 ^ 8) :
      Coded dictionary word
        (bitsOf 7 4 ++ bitsOf index kIndexBits ++ bitsOf (word.toNat % 2 ^ 8) 8) true
  | two {index : ℕ} {entry : Word} (hindex : index < 2 ^ kIndexBits)
      (h : dictionary[index]? = some entry) (he : entry.toNat / 2 ^ 16 = word.toNat / 2 ^ 16) :
      Coded dictionary word
        (bitsOf 3 4 ++ bitsOf index kIndexBits ++ bitsOf (word.toNat % 2 ^ 16) 16) true
  | literal : Coded dictionary word (bitsOf 2 2 ++ bitsOf word.toNat 32) true

/-- The dictionary after a word: first in, first out. -/
def nextDictionary (dictionary : List Word) (word : Word) (update : Bool) : List Word :=
  if update then
    if dictionary.length < kDictionaryEntries then dictionary ++ [word]
    else dictionary.tail ++ [word]
  else dictionary

theorem length_nextDictionary_le {update : Bool} (h : dictionary.length ≤ kDictionaryEntries) :
    (nextDictionary dictionary word update).length ≤ kDictionaryEntries := by
  unfold nextDictionary kDictionaryEntries at *
  split
  · split
    · rw [List.length_append, List.length_singleton]
      omega
    · rw [List.length_append, List.length_tail, List.length_singleton]
      omega
  · exact h

/-- What `cpack_encode` writes for a word that is neither zero nor narrow. -/
theorem putMatch_coded (h : writer.Holds l) (hd : dictionary.length ≤ kDictionaryEntries)
    (word : Word) :
    let best := bestMatch word (1, 0) 0 dictionary
    ∃ t, Coded dictionary word t true ∧
      (if best.1 = 4 then (writer.put 1 2).put best.2 kIndexBits
        else if best.1 = 3 then
          ((writer.put 7 4).put best.2 kIndexBits).put (byteAt word 0).toNat 8
        else if best.1 = 2 then
          ((writer.put 3 4).put best.2 kIndexBits).put (word &&& 0xffff).toNat 16
        else (writer.put 2 2).put word.toNat 32).Holds (l ++ t) := by
  have hspec := @bestMatch_spec word dictionary (1, 0) [] dictionary rfl (Or.inl rfl)
  rw [List.length_nil] at hspec
  generalize bestMatch word (1, 0) 0 dictionary = best at hspec ⊢
  dsimp only at hspec ⊢
  have hindex : ∀ entry, dictionary[best.2]? = some entry → best.2 < 2 ^ kIndexBits := by
    intro entry hentry
    obtain ⟨hlt, -⟩ := List.getElem?_eq_some_iff.mp hentry
    exact hlt.trans_le hd
  by_cases h₄ : best.1 = 4
  · rw [h₄] at hspec
    obtain ⟨-, entry, hentry, hmatched⟩ := hspec.resolve_left (by decide)
    have heq := div_eq_of_matchedBytes hmatched (by decide)
    simp only [Nat.sub_self, Nat.mul_zero, Nat.pow_zero, Nat.div_one] at heq
    obtain rfl : entry = word := BitVec.eq_of_toNat_eq heq
    rw [if_pos h₄]
    exact ⟨_, .full (hindex entry hentry) hentry, h.put_put 1 2 best.2 kIndexBits⟩
  rw [if_neg h₄]
  by_cases h₃ : best.1 = 3
  · rw [h₃] at hspec
    obtain ⟨-, entry, hentry, hmatched⟩ := hspec.resolve_left (by decide)
    have heq := div_eq_of_matchedBytes hmatched (by decide)
    refine ⟨_, .three (hindex entry hentry) hentry heq, ?_⟩
    rw [if_pos h₃, toNat_byteAt_zero, ← List.append_assoc, ← List.append_assoc]
    exact ((h.put 7 4).put best.2 kIndexBits).put (word.toNat % 2 ^ 8) 8
  rw [if_neg h₃]
  by_cases h₂ : best.1 = 2
  · rw [h₂] at hspec
    obtain ⟨-, entry, hentry, hmatched⟩ := hspec.resolve_left (by decide)
    have heq := div_eq_of_matchedBytes hmatched (by decide)
    have hlow : (word &&& 0xffff).toNat = word.toNat % 2 ^ 16 :=
      @FpcBsel.toNat_and_mask 16 (by decide) word
    refine ⟨_, .two (hindex entry hentry) hentry heq, ?_⟩
    rw [if_pos h₂, hlow, ← List.append_assoc, ← List.append_assoc]
    exact ((h.put 3 4).put best.2 kIndexBits).put (word.toNat % 2 ^ 16) 16
  rw [if_neg h₂]
  exact ⟨_, .literal, h.put_put 2 2 word.toNat 32⟩

/-- The encoder's choice is a code of the word, and both sides see the same dictionary next. -/
theorem cpackEncodeWord_coded (h : writer.Holds l) (hd : dictionary.length ≤ kDictionaryEntries)
    (block : Block) (offset : ℕ) :
    ∃ t update, Coded dictionary (load32 block offset) t update ∧
      (cpackEncodeWord block (writer, dictionary) offset).1.Holds (l ++ t) ∧
      (cpackEncodeWord block (writer, dictionary) offset).2 =
        nextDictionary dictionary (load32 block offset) update := by
  unfold cpackEncodeWord
  rw [loadLittleEndian_word]
  generalize load32 block offset = word
  have hword := word.isLt
  dsimp only
  by_cases hzero : word = 0
  · rw [if_pos hzero]
    exact ⟨_, false, .zero hzero, h.put 0 2, rfl⟩
  rw [if_neg hzero]
  by_cases hnarrow : byteAt word 1 = 0 ∧ byteAt word 2 = 0 ∧ byteAt word 3 = 0
  · have hlt : word.toNat < 2 ^ 8 := by
      simp only [← BitVec.toNat_inj, toNat_byteAt] at hnarrow
      change _ = 0 ∧ _ = 0 ∧ _ = 0 at hnarrow
      omega
    rw [if_pos hnarrow, toNat_byteAt_zero, Nat.mod_eq_of_lt hlt]
    exact ⟨_, false, .narrow hlt, h.put_put 11 4 word.toNat 8, rfl⟩
  rw [if_neg hnarrow]
  obtain ⟨t, hcoded, hput⟩ := putMatch_coded h hd word
  exact ⟨t, true, hcoded, hput, rfl⟩

/-! Reading a code. -/

theorem readEntry_decodes {index : ℕ} (hindex : index < 2 ^ kIndexBits)
    (h : dictionary[index]? = some entry) :
    Decodes BitReader.Before (readEntry dictionary) (bitsOf index kIndexBits) entry := by
  refine (get_decodes hindex).last ?_
  rw [h]
  exact decodes_pure entry

/-- A mask of the bits from `n` on clears those below. -/
theorem toNat_and_high {n : ℕ} (mask entry : Word)
    (hmask : ∀ i : Fin 32, mask.getLsbD i.val = decide (n ≤ i.val)) :
    (entry &&& mask).toNat = entry.toNat / 2 ^ n * 2 ^ n := by
  apply Nat.eq_of_testBit_eq
  intro i
  rw [BitVec.toNat_and, Nat.testBit_and, ← Nat.shiftLeft_eq, Nat.testBit_shiftLeft,
    ← Nat.shiftRight_eq_div_pow, Nat.testBit_shiftRight]
  by_cases hi : i < 32
  · rw [BitVec.testBit_toNat mask, hmask ⟨i, hi⟩, Bool.and_comm]
    by_cases hn : n ≤ i
    · simp [hn]
    · simp [hn]
  · have hout : entry.toNat.testBit i = false :=
      Nat.testBit_lt_two_pow (entry.isLt.trans_le (Nat.pow_le_pow_right (by decide) (by omega)))
    by_cases hn : n ≤ i
    · simp [hn, hout]
    · simp [hn, hout]

/-- The high bits of an entry with the low bits of a word are the word. -/
theorem ofNat_and_or {n : ℕ} {mask : Word}
    (hmask : ∀ i : Fin 32, mask.getLsbD i.val = decide (n ≤ i.val))
    (he : entry.toNat / 2 ^ n = word.toNat / 2 ^ n) :
    BitVec.ofNat 32 ((entry &&& mask).toNat ||| word.toNat % 2 ^ n) = word := by
  have hlow : word.toNat % 2 ^ n < 2 ^ n := Nat.mod_lt _ (Nat.two_pow_pos n)
  have hsplit := Nat.div_add_mod' word.toNat (2 ^ n)
  rw [toNat_and_high mask entry hmask, he, ← Nat.shiftLeft_eq, ← Nat.shiftLeft_add_eq_or_of_lt hlow,
    Nat.shiftLeft_eq, hsplit, BitVec.ofNat_toNat, BitVec.setWidth_eq]

/-- Every code of a word is read as the word. -/
theorem cpackReadWord_decodes {update : Bool} (h : Coded dictionary word t update) :
    Decodes BitReader.Before (cpackReadWord dictionary) t (word, update) := by
  have hword := word.isLt
  cases h with
  | zero hzero =>
    subst hzero
    exact (get_decodes (by decide)).last (decodes_pure _)
  | narrow hlt =>
    have hcode : bitsOf 11 4 ++ bitsOf word.toNat 8 =
        bitsOf 3 2 ++ (bitsOf 2 2 ++ bitsOf word.toNat 8) := rfl
    rw [hcode]
    refine (get_decodes (by decide)).bind ((get_decodes (by decide)).bind
      ((get_decodes hlt).last ?_))
    rw [BitVec.ofNat_toNat, BitVec.setWidth_eq]
    exact decodes_pure _
  | full hindex hentry =>
    refine (get_decodes (by decide)).bind ((readEntry_decodes hindex hentry).last ?_)
    exact decodes_pure _
  | @three index entry hindex hentry he =>
    have hcode : bitsOf 7 4 ++ bitsOf index kIndexBits ++ bitsOf (word.toNat % 2 ^ 8) 8 =
        bitsOf 3 2 ++ (bitsOf 1 2 ++ (bitsOf index kIndexBits ++ bitsOf (word.toNat % 2 ^ 8) 8)) :=
      List.append_assoc (bitsOf 7 4) _ _
    have hlow : word.toNat % 2 ^ 8 < 2 ^ 8 := Nat.mod_lt _ (by decide)
    rw [hcode]
    refine (get_decodes (by decide)).bind ((get_decodes (by decide)).bind
      ((readEntry_decodes hindex hentry).bind ((get_decodes hlow).last ?_)))
    rw [ofNat_and_or (by decide) he]
    exact decodes_pure _
  | @two index entry hindex hentry he =>
    have hcode : bitsOf 3 4 ++ bitsOf index kIndexBits ++ bitsOf (word.toNat % 2 ^ 16) 16 =
        bitsOf 3 2 ++ (bitsOf 0 2 ++
          (bitsOf index kIndexBits ++ bitsOf (word.toNat % 2 ^ 16) 16)) :=
      List.append_assoc (bitsOf 3 4) _ _
    have hlow : word.toNat % 2 ^ 16 < 2 ^ 16 := Nat.mod_lt _ (by decide)
    rw [hcode]
    refine (get_decodes (by decide)).bind ((get_decodes (by decide)).bind
      ((readEntry_decodes hindex hentry).bind ((get_decodes hlow).last ?_)))
    rw [ofNat_and_or (by decide) he]
    exact decodes_pure _
  | literal =>
    refine (get_decodes (by decide)).bind ((get_decodes hword).last ?_)
    rw [BitVec.ofNat_toNat, BitVec.setWidth_eq]
    exact decodes_pure _

/-! Blocks. -/

/-- The code of a sequence of words, against the dictionary that the words before left. -/
inductive CodedWords : List Word → List Word → List Bool → Prop
  | nil {dictionary : List Word} : CodedWords dictionary [] []
  | cons {dictionary words : List Word} {word : Word} {t u : List Bool} {update : Bool}
      (h : Coded dictionary word t update)
      (hrest : CodedWords (nextDictionary dictionary word update) words u) :
      CodedWords dictionary (word :: words) (t ++ u)

/-- The loop of the encoder writes a code of the words it passes. -/
theorem foldl_cpackEncodeWord_coded (block : Block) (offsets : List ℕ) (h : writer.Holds l)
    (hd : dictionary.length ≤ kDictionaryEntries) :
    ∃ t, CodedWords dictionary (offsets.map fun i => load32 block (i * 4)) t ∧
      (offsets.foldl (fun state word => cpackEncodeWord block state (word * 4))
        (writer, dictionary)).1.Holds (l ++ t) := by
  induction offsets generalizing writer dictionary l with
  | nil => exact ⟨[], .nil, by rwa [List.append_nil]⟩
  | cons i offsets ih =>
    obtain ⟨t, update, hcoded, hholds, hnext⟩ := cpackEncodeWord_coded h hd block (i * 4)
    have hlen := @length_nextDictionary_le (load32 block (i * 4)) dictionary update hd
    rw [← hnext] at hlen
    obtain ⟨u, hrest, hfinal⟩ := ih hholds hlen
    rw [hnext] at hrest
    refine ⟨t ++ u, .cons hcoded hrest, ?_⟩
    rw [List.foldl_cons, ← List.append_assoc]
    exact hfinal

/-- The loop of the decoder keeps the dictionary of the encoder. -/
theorem cpackDecodeWords_decodes {words : List Word} (output : Block)
    (hd : dictionary.length ≤ kDictionaryEntries) (h : CodedWords dictionary words t) :
    Decodes BitReader.Before (cpackDecodeWords dictionary output words.length) t
      (output ++ words.flatMap store32) := by
  induction h generalizing output with
  | nil =>
    rw [List.flatMap_nil, List.append_nil]
    exact decodes_pure output
  | @cons dictionary words word t u update h hrest ih =>
    have hnext : (if update then (if dictionary.length = kDictionaryEntries then dictionary.tail
        else dictionary) ++ [word] else dictionary) = nextDictionary dictionary word update := by
      unfold nextDictionary
      cases update with
      | false => rfl
      | true =>
        rw [if_pos rfl, if_pos rfl]
        by_cases hfull : dictionary.length = kDictionaryEntries
        · rw [if_pos hfull, if_neg (by omega)]
        · rw [if_neg hfull, if_pos (by omega)]
    have hloop := ih (output ++ store32 word) (length_nextDictionary_le hd)
    rw [List.flatMap_cons, ← List.append_assoc]
    refine (cpackReadWord_decodes h).bind ?_
    dsimp only
    rw [hnext]
    exact hloop

/-- Decoding what encoding wrote gives the block back. -/
theorem cpack_round_trip {block : Vec Byte} (hne : block.toList ≠ [])
    (h4 : block.toList.length % 4 = 0) :
    ∃ encoded, cpackEncode block.toList = .ok encoded ∧
      cpackDecode encoded block.toList.length = .ok block.toList := by
  have hlen := block.size_lt
  have hpos : 0 < block.toList.length := List.length_pos_iff.mpr hne
  have hwords : block.toList.length = block.toList.length / 4 * 4 := by omega
  obtain ⟨t, hcoded, hholds⟩ := @foldl_cpackEncodeWord_coded [] {} [] block.toList
    (List.range (block.toList.length / 4)) holds_empty (Nat.zero_le _)
  rw [List.nil_append] at hholds
  refine ⟨toOctets t, ?_, ?_⟩
  · rw [cpackEncode, throwIf_neg (by simp [hne, h4]), ok_bind]
    exact congrArg Except.ok hholds.bytes_eq
  · obtain ⟨reader, hrun⟩ :=
      run_of_decodes (cpackDecodeWords_decodes [] (Nat.zero_le _) hcoded)
    have hblock := FpcBsel.flatMap_store32_wordsTo hwords
    rw [List.length_map, List.length_range, List.nil_append] at hrun
    rw [cpackDecode, throwIf_neg (by omega), ok_bind, throwIf_neg (by omega), ok_bind, hrun]
    exact congrArg Except.ok hblock

/-- A zero word, a narrow one, a new one and three that match it more and more. -/
def exampleWords : Vec Byte :=
  ⟨[0, 0, 0, 0, 9, 0, 0, 0, 1, 2, 3, 4, 5, 6, 3, 4, 7, 6, 3, 4, 7, 6, 3, 4], by decide⟩

theorem exampleWords_cpack_round_trip :
    ∃ encoded, cpackEncode exampleWords.toList = .ok encoded ∧
      cpackDecode encoded exampleWords.toList.length = .ok exampleWords.toList :=
  cpack_round_trip (by decide) (by decide)

end ByteSelect.Baseline
