import ByteSelect.FpcBsel.Blocks
import ByteSelect.SlotTable

/-! The block codec is lossless, and its streams are the shortest of those it tries. -/
namespace FpcBsel

open BitStream FpcFormat ByteSelect SlotTable ListKernel

variable {ws : List Word} {v : Word} {block dictionary stream : Bytes} {pattern : Pattern}

/-! Pattern coding. -/

theorem foldl_rank_le_iff {symbols : Bytes} {m n : ℕ} :
    symbols.foldl (fun result symbol => max result (symbol.val + 1)) m ≤ n ↔
      m ≤ n ∧ ∀ symbol ∈ symbols, symbol.val < n := by
  induction symbols generalizing m with
  | nil => simp
  | cons x symbols ih =>
    rw [List.foldl_cons, ih, List.forall_mem_cons, max_le_iff, and_assoc]
    rfl

theorem rank_le_iff {n : ℕ} : pattern.rank ≤ n ↔ ∀ symbol ∈ pattern.symbols, symbol.val < n := by
  rw [Pattern.rank, foldl_rank_le_iff]
  exact and_iff_right (Nat.zero_le n)

theorem lt_rank {symbol : Byte} (h : symbol ∈ pattern.symbols) : symbol.val < pattern.rank :=
  rank_le_iff.mp le_rfl symbol h

/-- A dictionary that spells the values at their symbols. -/
def Spells (dictionary : Bytes) (pairs : List (Byte × Byte)) : Prop :=
  ∀ x ∈ pairs, dictionary.getD x.1.val 0 = x.2

/-- Equal symbols stand for equal bytes. -/
def Pattern.Describes (pattern : Pattern) (block : Bytes) : Prop :=
  ∀ i j : ℕ, pattern.symbols[i]? = pattern.symbols[j]? → block[i]? = block[j]?

/-- The positions of a pattern with the bytes of a block. -/
def entriesOf (pairs : List (Byte × Byte)) : List (ℕ × Byte) := pairs.map fun x => (x.1.val, x.2)

/-- The dictionary of a block: the first byte at each symbol, and zero for the symbols left out. -/
def dictionaryOf (pattern : Pattern) (block : Bytes) : Bytes :=
  (List.range pattern.rank).map fun k =>
    ((entriesOf (pattern.symbols.zip block)).lookup k).getD 0

theorem describes_iff (hsize : pattern.symbols.length = block.length) :
    pattern.Describes block ↔ Functional (entriesOf (pattern.symbols.zip block)) := by
  have hentries : entriesOf (pattern.symbols.zip block) =
      (pattern.symbols.map Fin.val).zip block := by
    rw [entriesOf, List.zip_map_left]
    rfl
  have hkernel : kernel (pattern.symbols.map Fin.val) = kernel pattern.symbols :=
    kernel_map fun _ _ _ _ h => Fin.ext h
  rw [hentries, functional_zip_iff (by rw [List.length_map, hsize]), hkernel, kernel_le_iff]
  rfl

theorem entries_lt_rank : ∀ z ∈ entriesOf (pattern.symbols.zip block), z.1 < pattern.rank := by
  intro z hz
  obtain ⟨x, hx, rfl⟩ := List.mem_map.mp hz
  exact lt_rank (List.of_mem_zip hx).1

/-- The dictionary and its marks are a table of slots, written once each. -/
theorem matchSymbols_slots {slots : List (Option Byte)} {pairs : List (Byte × Byte)}
    (hpairs : ∀ z ∈ entriesOf pairs, z.1 < slots.length) :
    matchSymbols (slots.map fun slot => slot.getD 0) (slots.map Option.isSome) pairs =
      .ok (if agree slots (entriesOf pairs)
        then some ((firstWrites slots (entriesOf pairs)).map fun slot => slot.getD 0)
        else none) := by
  induction pairs generalizing slots with
  | nil => rfl
  | cons x pairs ih =>
    obtain ⟨symbol, value⟩ := x
    rw [entriesOf, List.map_cons, ← entriesOf, List.forall_mem_cons] at hpairs
    obtain ⟨hsymbol, hrest⟩ := hpairs
    dsimp only at hsymbol
    have hslot : slots[symbol.val]? = some slots[symbol.val] := List.getElem?_eq_getElem hsymbol
    have hmark : (slots.map Option.isSome).getD symbol.val false = slots[symbol.val].isSome := by
      rw [List.getD_eq_getElem?_getD, List.getElem?_map, hslot]
      rfl
    have hheld : (slots.map fun slot => slot.getD 0).getD symbol.val 0 =
        slots[symbol.val].getD 0 := by
      rw [List.getD_eq_getElem?_getD, List.getElem?_map, hslot]
      rfl
    rw [matchSymbols, throwIf_neg (by simpa using hsymbol), ok_bind, hmark, hheld, entriesOf,
      List.map_cons, ← entriesOf, agree, firstWrites, hslot, Option.join_some]
    cases hvalue : slots[symbol.val] with
    | none =>
      have hwritten : ∀ z ∈ entriesOf pairs, z.1 < (slots.set symbol.val (some value)).length := by
        rw [List.length_set]
        exact hrest
      have hset := ih hwritten
      rw [List.map_set, List.map_set] at hset
      exact hset
    | some held =>
      dsimp only [Option.isSome_some, Option.getD_some]
      rw [if_neg (by decide)]
      by_cases hsame : held = value
      · rw [if_neg (not_not.mpr hsame), ih hrest]
        simp only [if_pos hsame, reduceCtorEq, if_false]
      · rw [if_pos hsame]
        simp only [if_neg hsame, Bool.false_eq_true, if_false]
        rfl

theorem matchSymbols_eq (hsize : pattern.symbols.length = block.length) :
    (pattern.Describes block → matchSymbols (List.replicate pattern.rank 0)
      (List.replicate pattern.rank false) (pattern.symbols.zip block) =
        .ok (some (dictionaryOf pattern block))) ∧
    (¬ pattern.Describes block → matchSymbols (List.replicate pattern.rank 0)
      (List.replicate pattern.rank false) (pattern.symbols.zip block) = .ok none) := by
  have hbound : ∀ z ∈ entriesOf (pattern.symbols.zip block),
      z.1 < (List.replicate pattern.rank (none : Option Byte)).length := by
    rw [List.length_replicate]
    exact entries_lt_rank
  have hrun := matchSymbols_slots hbound
  rw [List.map_replicate, List.map_replicate] at hrun
  have hlt : ∀ z ∈ entriesOf (pattern.symbols.zip block), z.1 < pattern.rank := entries_lt_rank
  have hagree := agree_empty_iff hlt
  rw [← describes_iff hsize] at hagree
  have hdictionary : (firstWrites (List.replicate pattern.rank none)
      (entriesOf (pattern.symbols.zip block))).map (fun slot => slot.getD 0) =
      dictionaryOf pattern block := by
    apply List.ext_getElem
    · rw [dictionaryOf, List.length_map, List.length_map, length_firstWrites, List.length_range,
        List.length_replicate]
    · intro k hk _
      rw [List.length_map] at hk
      have hlt : k < pattern.rank := by rwa [length_firstWrites, List.length_replicate] at hk
      have hjoin := join_getElem?_firstWrites hbound k
      rw [List.getElem?_replicate, if_pos hlt, List.getElem?_eq_getElem hk, Option.join_some,
        Option.join_some, Option.none_or] at hjoin
      simp only [dictionaryOf, List.getElem_map, List.getElem_range, hjoin]
  refine ⟨fun h => ?_, fun h => ?_⟩
  · rw [if_pos (hagree.mpr h), hdictionary] at hrun
    exact hrun
  · rw [if_neg (mt hagree.mp h)] at hrun
    exact hrun

/-- The dictionary of a block that is described spells it. -/
theorem spells_dictionaryOf (hsize : pattern.symbols.length = block.length)
    (h : pattern.Describes block) :
    Spells (dictionaryOf pattern block) (pattern.symbols.zip block) := by
  intro x hx
  have hlt := lt_rank (List.of_mem_zip hx).1
  have hlookup := lookup_of_functional ((describes_iff hsize).mp h)
    (List.mem_map_of_mem (f := fun x : Byte × Byte => (x.1.val, x.2)) hx)
  rw [dictionaryOf, List.getD_eq_getElem?_getD, List.getElem?_map, List.getElem?_range hlt,
    Option.map_some, Option.getD_some, hlookup, Option.getD_some]

/-- The two bytes of a 16-bit number. -/
def u16Bytes (value : ℕ) : Bytes := [toByte value, toByte (value >>> 8)]

theorem putU16_ok {value : ℕ} (h : value ≤ 0xffff) (what : Error) :
    putU16 value what = .ok (u16Bytes value) := by
  rw [putU16, throwIf_neg (by omega), ok_bind]
  rfl

theorem getU16_ok {data : Bytes} {offset value : ℕ} (hvalue : value ≤ 0xffff)
    (h : u16Bytes value <+: data.drop offset) (what : Error) :
    getU16 data offset what = .ok value := by
  obtain ⟨rest, hrest⟩ := h
  have hlen := congrArg List.length hrest
  rw [List.length_append, List.length_drop] at hlen
  have htwo : (u16Bytes value).length = 2 := rfl
  have hget : ∀ i, data.getD (offset + i) 0 = (u16Bytes value ++ rest).getD i 0 := by
    intro i
    rw [hrest, List.getD_eq_getElem?_getD, List.getD_eq_getElem?_getD, List.getElem?_drop]
  have hlow : (toByte value).val = value % 2 ^ 8 := rfl
  have hhigh : (toByte (value >>> 8)).val = value / 2 ^ 8 := by
    change value >>> 8 % 2 ^ 8 = _
    rw [Nat.shiftRight_eq_div_pow]
    omega
  rw [getU16, throwIf_neg (by omega), ok_bind]
  change Except.ok ((data.getD (offset + 0) 0).val ||| (data.getD (offset + 1) 0).val <<< 8) = _
  rw [hget, hget]
  change Except.ok ((toByte value).val ||| (toByte (value >>> 8)).val <<< 8) = _
  rw [hlow, hhigh, or_shiftLeft _ (Nat.mod_lt _ (by decide))]
  congr 1
  omega

/-- A stream that codes a block by a pattern of the model. -/
structure Codes (model : BselModel) (block stream : Bytes) (id : ℕ) (pattern : Pattern)
    (dictionary : Bytes) : Prop where
  id_le : id ≤ 0xffff
  pattern_eq : model.patterns[id]? = some pattern
  stream_eq : stream = u16Bytes id ++ dictionary
  length_eq : dictionary.length = pattern.rank
  spells : Spells dictionary (pattern.symbols.zip block)

def IsCode (model : BselModel) (block stream : Bytes) : Prop :=
  ∃ id pattern dictionary, Codes model block stream id pattern dictionary

/-- The stream of a pattern for a block that it describes. -/
def patternCode (id : ℕ) (pattern : Pattern) (block : Bytes) : Bytes :=
  u16Bytes id ++ dictionaryOf pattern block

theorem length_dictionaryOf (pattern : Pattern) (block : Bytes) :
    (dictionaryOf pattern block).length = pattern.rank := by
  rw [dictionaryOf, List.length_map, List.length_range]

theorem length_patternCode (id : ℕ) (pattern : Pattern) (block : Bytes) :
    (patternCode id pattern block).length = 2 + pattern.rank := by
  rw [patternCode, List.length_append, length_dictionaryOf]
  rfl

/-- The pattern with the shortest stream, of the lowest id among those. -/
structure Shortest (patterns : List Pattern) (block : Bytes) (id : ℕ) (pattern : Pattern) :
    Prop where
  pattern_eq : patterns[id]? = some pattern
  describes : pattern.Describes block
  le : ∀ j q, patterns[j]? = some q → q.Describes block →
    (patternCode id pattern block).length ≤ (patternCode j q block).length
  lt : ∀ j q, j < id → patterns[j]? = some q → q.Describes block →
    (patternCode id pattern block).length < (patternCode j q block).length

/-- What the encoder is to find among these patterns. -/
def Best (patterns : List Pattern) (block : Bytes) : Option Bytes → Prop
  | none => ∀ q ∈ patterns, ¬ q.Describes block
  | some stream => ∃ id pattern, Shortest patterns block id pattern ∧
    stream = patternCode id pattern block

variable {before patterns : List Pattern} {best : Option Bytes}

theorem getElem?_concat_eq_some {α : Type} {l : List α} {a q : α} {j : ℕ} :
    (l ++ [a])[j]? = some q ↔ l[j]? = some q ∨ j = l.length ∧ q = a := by
  rcases Nat.lt_trichotomy j l.length with hlt | rfl | hgt
  · rw [List.getElem?_append_left hlt]
    simp [hlt.ne]
  · simp [eq_comm]
  · have hlong : (l ++ [a]).length ≤ j := by
      rw [List.length_append, List.length_singleton]
      omega
    rw [List.getElem?_eq_none hlong, List.getElem?_eq_none hgt.le]
    simp [hgt.ne']

/-- A pattern that does not describe the block changes nothing. -/
theorem Best.concat_of_not (h : Best before block best) (hnot : ¬ pattern.Describes block) :
    Best (before ++ [pattern]) block best := by
  cases best with
  | none =>
    intro q hq
    rcases List.mem_append.mp hq with hq | hq
    · exact h q hq
    · rw [List.mem_singleton.mp hq]
      exact hnot
  | some stream =>
    obtain ⟨id, p, hp, rfl⟩ := h
    refine ⟨id, p, ⟨getElem?_concat_eq_some.mpr (.inl hp.pattern_eq), hp.describes, ?_, ?_⟩, rfl⟩
    · intro j q hq hd
      rcases getElem?_concat_eq_some.mp hq with hq | ⟨-, rfl⟩
      · exact hp.le j q hq hd
      · exact absurd hd hnot
    · intro j q hj hq hd
      rcases getElem?_concat_eq_some.mp hq with hq | ⟨-, rfl⟩
      · exact hp.lt j q hj hq hd
      · exact absurd hd hnot

/-- A shorter stream replaces the best one so far, and one of the same length does not. -/
theorem best_concat_of_describes (hd : pattern.Describes block) :
    Best before block best → Best (before ++ [pattern]) block
      (if (match best with
        | none => true
        | some best => decide ((patternCode before.length pattern block).length < best.length)) =
          true then some (patternCode before.length pattern block) else best) := by
  intro h
  have hlast : (before ++ [pattern])[before.length]? = some pattern :=
    getElem?_concat_eq_some.mpr (.inr ⟨rfl, rfl⟩)
  cases best with
  | none =>
    refine ⟨before.length, pattern, ⟨hlast, hd, ?_, ?_⟩, rfl⟩
    · intro j q hq hq'
      rcases getElem?_concat_eq_some.mp hq with hq | ⟨rfl, rfl⟩
      · exact absurd hq' (h q (List.mem_of_getElem? hq))
      · exact le_rfl
    · intro j q hj hq hq'
      rcases getElem?_concat_eq_some.mp hq with hq | ⟨rfl, rfl⟩
      · exact absurd hq' (h q (List.mem_of_getElem? hq))
      · exact absurd hj (Nat.lt_irrefl _)
  | some stream =>
    obtain ⟨id, p, hp, rfl⟩ := h
    dsimp only
    by_cases hshorter : (patternCode before.length pattern block).length <
        (patternCode id p block).length
    · rw [if_pos (decide_eq_true hshorter)]
      refine ⟨before.length, pattern, ⟨hlast, hd, ?_, ?_⟩, rfl⟩
      · intro j q hq hq'
        rcases getElem?_concat_eq_some.mp hq with hq | ⟨rfl, rfl⟩
        · exact hshorter.le.trans (hp.le j q hq hq')
        · exact le_rfl
      · intro j q hj hq hq'
        rcases getElem?_concat_eq_some.mp hq with hq | ⟨rfl, rfl⟩
        · exact hshorter.trans_le (hp.le j q hq hq')
        · exact absurd hj (Nat.lt_irrefl _)
    · rw [if_neg (by simpa using hshorter)]
      refine ⟨id, p, ⟨getElem?_concat_eq_some.mpr (.inl hp.pattern_eq), hp.describes, ?_, ?_⟩, rfl⟩
      · intro j q hq hq'
        rcases getElem?_concat_eq_some.mp hq with hq | ⟨rfl, rfl⟩
        · exact hp.le j q hq hq'
        · exact not_lt.mp hshorter
      · intro j q hj hq hq'
        rcases getElem?_concat_eq_some.mp hq with hq | ⟨rfl, rfl⟩
        · exact hp.lt j q hj hq hq'
        · have hid := (List.getElem?_eq_some_iff.mp hp.pattern_eq).1
          omega

theorem encodeFrom_best (hcount : (before ++ patterns).length ≤ 65536)
    (hsizes : ∀ pattern ∈ patterns, pattern.symbols.length = block.length)
    (h : Best before block best) :
    ∃ found, encodeFrom block before.length best patterns = .ok found ∧
      Best (before ++ patterns) block found := by
  induction patterns generalizing before best with
  | nil =>
    rw [List.append_nil]
    exact ⟨best, rfl, h⟩
  | cons pattern patterns ih =>
    rw [List.forall_mem_cons] at hsizes
    obtain ⟨hsize, hsizes⟩ := hsizes
    have hlen : (before ++ [pattern]).length = before.length + 1 := List.length_append
    have hid : before.length ≤ 0xffff := by
      rw [List.length_append, List.length_cons] at hcount
      omega
    rw [List.append_cons] at hcount ⊢
    rw [encodeFrom, throwIf_neg (by simpa using hsize), ok_bind, ← hlen]
    by_cases hd : pattern.Describes block
    · rw [(matchSymbols_eq hsize).1 hd, ok_bind]
      dsimp only
      rw [putU16_ok hid, ok_bind]
      exact ih hcount hsizes (best_concat_of_describes hd h)
    · rw [(matchSymbols_eq hsize).2 hd, ok_bind]
      exact ih hcount hsizes (h.concat_of_not hd)

/-- The encoder finds the shortest stream, of the lowest id, if there is one. -/
theorem bselEncode_best {model : BselModel} (hsize : block.length = model.blockSize)
    (hcount : model.patterns.length ≤ 65536)
    (hsizes : ∀ pattern ∈ model.patterns, pattern.symbols.length = block.length) :
    ∃ found, bselEncode block model = .ok found ∧ Best model.patterns block found := by
  rw [bselEncode, throwIf_neg (by simpa using hsize), ok_bind]
  have hnone : Best [] block none := fun q hq => absurd hq List.not_mem_nil
  have hall : ([] ++ model.patterns).length ≤ 65536 := hcount
  exact encodeFrom_best hall hsizes hnone

theorem Shortest.isCode {model : BselModel} {id : ℕ} (hcount : model.patterns.length ≤ 65536)
    (hsizes : ∀ pattern ∈ model.patterns, pattern.symbols.length = block.length)
    (h : Shortest model.patterns block id pattern) :
    IsCode model block (patternCode id pattern block) := by
  have hid := (List.getElem?_eq_some_iff.mp h.pattern_eq).1
  have hsize := hsizes pattern (List.mem_of_getElem? h.pattern_eq)
  exact ⟨id, pattern, dictionaryOf pattern block, by omega, h.pattern_eq, rfl,
    length_dictionaryOf _ _, spells_dictionaryOf hsize h.describes⟩

theorem bselEncode_ok {model : BselModel} (hsize : block.length = model.blockSize)
    (hcount : model.patterns.length ≤ 65535)
    (hsizes : ∀ pattern ∈ model.patterns, pattern.symbols.length = block.length) :
    ∃ found, bselEncode block model = .ok found ∧
      ∀ stream ∈ found, IsCode model block stream := by
  obtain ⟨found, hrun, hbest⟩ := bselEncode_best hsize (by omega) hsizes
  refine ⟨found, hrun, ?_⟩
  rintro stream rfl
  obtain ⟨id, pattern, hshortest, rfl⟩ := hbest
  exact hshortest.isCode (by omega) hsizes

/-- A pattern code is decoded to its block. -/
theorem bselDecode_code {model : BselModel} (h : IsCode model block stream)
    (hsizes : ∀ pattern ∈ model.patterns, pattern.symbols.length = block.length) :
    bselDecode stream model = .ok block := by
  obtain ⟨id, pattern, dictionary, hid, hindex, rfl, hlen, hspells⟩ := h
  have hsize := hsizes pattern (List.mem_of_getElem? hindex)
  have hread : getU16 (u16Bytes id ++ dictionary) 0 (.runtimeError "truncated BSEL stream") =
      .ok id := getU16_ok hid (List.prefix_append _ _) _
  have hstart : ∀ k, (u16Bytes id ++ dictionary).getD (2 + k) 0 = dictionary.getD k 0 := by
    intro k
    rw [List.getD_eq_getElem?_getD, List.getElem?_append_right (Nat.le_add_right 2 k),
      show 2 + k - (u16Bytes id).length = k from Nat.add_sub_cancel_left 2 k,
      List.getD_eq_getElem?_getD]
  have hbytes : pattern.symbols.map (fun symbol => (u16Bytes id ++ dictionary).getD
      (2 + symbol.val) 0) = block := by
    apply List.ext_getElem (by rw [List.length_map, hsize])
    intro i hi hi'
    rw [List.length_map] at hi
    rw [List.getElem_map, hstart]
    have hmem : (pattern.symbols[i], block[i]) ∈ pattern.symbols.zip block := by
      rw [← List.getElem_zip (h := by rw [List.length_zip]; omega)]
      exact List.getElem_mem _
    exact hspells _ hmem
  rw [bselDecode, hread, ok_bind, hindex]
  dsimp only
  rw [throwIf_neg (by rw [List.length_append, hlen]; exact not_not.mpr rfl), ok_bind, hbytes]
  rfl

/-- The size of a pattern code is known before the code is cut out. -/
theorem bselStreamSize_code {model : BselModel} (h : IsCode model block stream) {data : Bytes}
    {offset : ℕ} (hdata : stream <+: data.drop offset) :
    bselStreamSize data offset model = .ok stream.length := by
  obtain ⟨id, pattern, dictionary, hid, hindex, rfl, hlen, -⟩ := h
  rw [bselStreamSize, getU16_ok hid ((List.prefix_append _ _).trans hdata), ok_bind, hindex]
  dsimp only
  rw [List.length_append, hlen]
  rfl

/-! The combined mode. -/

/-- What the loop over the words has spread after `n` of them. -/
theorem spread_eq (hlen : ws.length = kWordCount) {n : ℕ} (hn : n ≤ kWordCount) :
    (List.range n).foldl (spreadWord (tagsOf ws) (rawOf ws)) (List.replicate kBlockSize 0, 0) =
      (residualOf (ws.take n) ++ List.replicate (64 - n * 4) 0, (rawOf (ws.take n)).length) := by
  induction n with
  | zero => rfl
  | succ n ih =>
    have hlt : n < ws.length := by omega
    have htake : ws.take (n + 1) = ws.take n ++ [ws[n]] := List.take_succ_eq_append_getElem hlt
    have htag : (tagsOf ws).getD n 0 = classify ws[n] := by
      rw [tagsOf, List.getD_eq_getElem _ _ (by simpa using hlt), List.getElem_map]
    have hbefore : (residualOf (ws.take n)).length = n * 4 := by
      rw [length_residualOf, List.length_take_of_le hlt.le]
    rw [List.range_succ, List.foldl_append, ih (by omega), List.foldl_cons, List.foldl_nil,
      spreadWord, htag]
    dsimp only
    by_cases h7 : tagOf ws[n] = 7
    · have hsplit : rawOf ws = rawOf (ws.take n) ++ (store32 ws[n] ++ rawOf (ws.drop (n + 1))) := by
        nth_rewrite 1 [← List.take_append_drop n ws, List.drop_eq_getElem_cons hlt]
        rw [rawOf, List.flatMap_append, List.flatMap_cons, if_pos h7]
        rfl
      have hraw : ((rawOf ws).drop (rawOf (ws.take n)).length).take 4 = store32 ws[n] := by
        rw [hsplit, List.drop_left, List.take_left' (length_store32 _)]
      have hzeros : 64 - n * 4 - 4 = 64 - (n + 1) * 4 := by omega
      rw [if_pos (classify_eq_seven.mpr h7), copyN_replicate hbefore, hraw, hzeros, htake,
        residualOf, residualOf, rawOf, rawOf, List.flatMap_append, List.flatMap_singleton,
        if_pos h7, List.flatMap_append, List.flatMap_singleton, if_pos h7, List.length_append,
        length_store32]
    · have hfill : List.replicate (64 - n * 4) (0 : Byte) =
          List.replicate 4 0 ++ List.replicate (64 - (n + 1) * 4) 0 := by
        have hn16 : n + 1 ≤ 16 := hn
        rw [← List.replicate_add]
        congr 1
        omega
      rw [if_neg (mt classify_eq_seven.mp h7), hfill, htake, residualOf, residualOf, rawOf, rawOf,
        List.flatMap_append, List.flatMap_singleton, if_neg h7, List.flatMap_append,
        List.flatMap_singleton, if_neg h7, List.append_nil, List.append_assoc]

theorem slice_ok {data piece : Bytes} {offset : ℕ} (h : piece <+: data.drop offset)
    (hoffset : offset ≤ data.length) :
    slice data offset piece.length = .ok (piece, offset + piece.length) := by
  have hle := h.length_le
  rw [List.length_drop] at hle
  rw [slice, throwIf_neg (by omega), ok_bind, ← List.prefix_iff_eq_take.mp h]
  rfl

theorem classify_le (v : Word) : ¬ classify v > 7 := by
  rw [classify_eq, gt_iff_lt, Fin.lt_def, tagByte]
  have hlt := (tagOf v).isLt
  change ¬ 7 < (tagOf v).val
  omega

/-- A stream as `encode_block` keeps it: patterned, or plain. -/
def IsStream (model : BselModel) (block plain stream : Bytes) (patterned : Bool) : Prop :=
  if patterned then IsCode model block stream else stream = plain

theorem shorter_spec {model : BselModel} {found : Option Bytes}
    (h : ∀ stream ∈ found, IsCode model block stream) (plain : Bytes) :
    ∃ stream patterned, shorter found plain = (stream, patterned) ∧
      IsStream model block plain stream patterned := by
  cases found with
  | none => exact ⟨plain, false, rfl, rfl⟩
  | some encoded =>
    by_cases hlt : encoded.length < plain.length
    · exact ⟨encoded, true, if_pos hlt, h encoded rfl⟩
    · exact ⟨plain, false, if_neg hlt, rfl⟩

/-- Either stream of the tags is decoded to them. -/
theorem decodeTags_ok {model : BselModel} {encoded stream : Bytes} {patterned : Bool}
    (hlen : ws.length = kWordCount)
    (hstream : IsStream model (tagsOf ws) (packTags (tagsOf ws)) stream patterned)
    (hsizes : ∀ pattern ∈ model.patterns, pattern.symbols.length = kWordCount)
    (hdata : stream <+: encoded.drop 2) (htwo : 2 ≤ encoded.length) :
    decodeTags encoded patterned model = .ok (tagsOf ws, 2 + stream.length) := by
  have hslice := slice_ok hdata htwo
  have htags : (tagsOf ws).length = kWordCount := by rw [tagsOf, List.length_map, hlen]
  cases patterned with
  | true =>
    have hcopy : copyN (tagsOf ws) 0 (tagsOf ws).length (List.replicate kWordCount 0) 0 =
        tagsOf ws := by
      rw [copyN, List.take_zero, List.drop_zero, List.take_length, List.nil_append,
        List.drop_of_length_le (by rw [List.length_replicate]; omega), List.append_nil]
    have hsmall : ¬ ∃ tag ∈ tagsOf ws, tag > 7 := by
      rintro ⟨tag, htag, hgt⟩
      obtain ⟨v, -, rfl⟩ := List.mem_map.mp htag
      exact classify_le v hgt
    rw [decodeTags, if_pos rfl, bselStreamSize_code hstream hdata, ok_bind, hslice, ok_bind]
    dsimp only
    rw [bselDecode_code hstream (htags ▸ hsizes), ok_bind, hcopy, throwIf_neg hsmall]
    rfl
  | false =>
    obtain rfl : stream = packTags (tagsOf ws) := hstream
    have hsix : (packTags (tagsOf ws)).length = 6 := by
      rw [packTags_eq, length_toOctets, length_tagBits, hlen]
      rfl
    rw [hsix] at hslice ⊢
    rw [decodeTags, if_neg (by decide), hslice, ok_bind]
    dsimp only
    rw [unpackTags_packTags hlen]
    rfl

/-- Either stream of the residual is decoded to the residual block. -/
theorem decodeResidual_ok {model : BselModel} {encoded stream : Bytes} {patterned : Bool}
    {offset : ℕ} (hlen : ws.length = kWordCount)
    (hstream : IsStream model (residualOf ws) (rawOf ws) stream patterned)
    (hsizes : ∀ pattern ∈ model.patterns, pattern.symbols.length = kBlockSize)
    (hdata : stream <+: encoded.drop offset) (hoffset : offset ≤ encoded.length) :
    decodeResidual encoded offset patterned (tagsOf ws) model =
      .ok (residualOf ws, offset + stream.length) := by
  have hslice := slice_ok hdata hoffset
  cases patterned with
  | true =>
    have hresidual : (residualOf ws).length = kBlockSize := by
      rw [length_residualOf, hlen]
      rfl
    rw [decodeResidual, if_pos rfl, bselStreamSize_code hstream hdata, ok_bind, hslice, ok_bind]
    dsimp only
    rw [bselDecode_code hstream (hresidual ▸ hsizes)]
    rfl
  | false =>
    obtain rfl : stream = rawOf ws := hstream
    have hspread := @spread_eq ws hlen kWordCount le_rfl
    rw [List.take_of_length_le hlen.le, show 64 - kWordCount * 4 = 0 from rfl, List.replicate_zero,
      List.append_nil] at hspread
    rw [decodeResidual, if_neg (by decide), rawResidualSize_eq, hslice, ok_bind]
    dsimp only
    rw [hspread]
    rfl

/-- The models that training and loading return. -/
structure Dimensions (model : Model) : Prop where
  prefix_size : model.prefixModel.blockSize = kWordCount
  residual_size : model.residual.blockSize = kBlockSize
  prefix_symbols : ∀ pattern ∈ model.prefixModel.patterns, pattern.symbols.length = kWordCount
  residual_symbols : ∀ pattern ∈ model.residual.patterns, pattern.symbols.length = kBlockSize
  prefix_count : model.prefixModel.patterns.length ≤ 65535
  residual_count : model.residual.patterns.length ≤ 65535

def combinedFlags (prefixBsel residualBsel : Bool) : Byte :=
  (if prefixBsel then 1 else 0) ||| (if residualBsel then 2 else 0)

theorem combinedFlags_spec (p r : Bool) :
    ¬ ((combinedFlags p r).val &&& (2 ^ 32 - 1 - 3) ≠ 0) ∧
      decide (combinedFlags p r &&& 1 ≠ 0) = p ∧ decide (combinedFlags p r &&& 2 ≠ 0) = r := by
  cases p <;> cases r <;> decide

theorem decodeCombined_ok {model : Model} (hm : Dimensions model) (hlen : ws.length = kWordCount)
    {p r : Bool} {tags residual : Bytes}
    (htags : IsStream model.prefixModel (tagsOf ws) (packTags (tagsOf ws)) tags p)
    (hresidual : IsStream model.residual (residualOf ws) (rawOf ws) residual r) :
    decodeCombined (2 :: combinedFlags p r :: (tags ++ toOctets (regularBits ws) ++ residual))
      model = .ok (ws.flatMap store32) := by
  obtain ⟨hflags, hp, hr⟩ := combinedFlags_spec p r
  set encoded := 2 :: combinedFlags p r :: (tags ++ toOctets (regularBits ws) ++ residual)
    with hencoded
  have htotal : encoded.length = 2 + tags.length + (toOctets (regularBits ws)).length +
      residual.length := by
    rw [hencoded]
    simp only [List.length_cons, List.length_append]
    omega
  have hdata₁ : tags <+: encoded.drop 2 := by
    rw [hencoded, List.drop_succ_cons, List.drop_succ_cons, List.drop_zero, List.append_assoc]
    exact List.prefix_append _ _
  have hdrop₂ : encoded.drop (2 + tags.length) = toOctets (regularBits ws) ++ residual := by
    rw [← List.drop_drop, hencoded, List.drop_succ_cons, List.drop_succ_cons, List.drop_zero,
      List.append_assoc, List.drop_left]
  have hdrop₃ : encoded.drop (2 + tags.length + (toOctets (regularBits ws)).length) =
      residual := by
    rw [← List.drop_drop, hdrop₂, List.drop_left]
  have hblock : (residualOf ws).length = kBlockSize := by
    rw [length_residualOf, hlen]
    rfl
  have hslice := @slice_ok encoded (toOctets (regularBits ws)) (2 + tags.length)
    (hdrop₂ ▸ List.prefix_append _ _) (by omega)
  have hone : encoded.getD 1 0 = combinedFlags p r := rfl
  rw [decodeCombined, hone, throwIf_neg hflags, ok_bind, hp, hr,
    decodeTags_ok hlen htags hm.prefix_symbols hdata₁ (by omega), ok_bind]
  dsimp only
  rw [regularPayloadSize_eq, ok_bind, ← length_toOctets, hslice, ok_bind]
  dsimp only
  rw [decodeResidual_ok hlen hresidual hm.residual_symbols (hdrop₃ ▸ List.prefix_rfl) (by omega),
    ok_bind]
  dsimp only
  rw [throwIf_neg (by omega), ok_bind]
  exact joinFpc_eq hlen hblock fun i v hi h7 => load32_residualOf hi h7

theorem encodeCombined_eq {model : Model} {parts : FpcParts} {foundTags foundResidual : Option Bytes}
    {tags residual : Bytes} {p r : Bool} (hsplit : splitFpc block = .ok parts)
    (htags : bselEncode parts.tags model.prefixModel = .ok foundTags)
    (hresidual : bselEncode parts.residualBlock model.residual = .ok foundResidual)
    (hp : shorter foundTags (packTags parts.tags) = (tags, p))
    (hr : shorter foundResidual parts.rawResidual = (residual, r)) :
    encodeCombined block model = .ok ⟨.fpcBsel,
      2 :: combinedFlags p r :: (tags ++ parts.regularPayload ++ residual), p, r⟩ := by
  simp only [encodeCombined, hsplit, ok_bind, htags, hresidual, hp, hr]
  rfl

/-- The combination of both codings is decoded to its block. -/
theorem encodeCombined_ok {model : Model} (hm : Dimensions model)
    (h : block.length = kBlockSize) : ∃ combined, encodeCombined block model = .ok combined ∧
      decodeBlock combined.bytes model = .ok block := by
  have hlen : (words block).length = kWordCount := length_words block
  have htags : (tagsOf (words block)).length = kWordCount := by
    rw [tagsOf, List.length_map, hlen]
  have hblock : (residualOf (words block)).length = kBlockSize := by
    rw [length_residualOf, hlen]
    rfl
  obtain ⟨foundTags, hrunTags, hcodeTags⟩ := bselEncode_ok (htags.trans hm.prefix_size.symm)
    hm.prefix_count (htags ▸ hm.prefix_symbols)
  obtain ⟨foundResidual, hrunResidual, hcodeResidual⟩ :=
    bselEncode_ok (hblock.trans hm.residual_size.symm) hm.residual_count
      (hblock ▸ hm.residual_symbols)
  obtain ⟨tags, p, hshortTags, htagStream⟩ :=
    shorter_spec hcodeTags (packTags (tagsOf (words block)))
  obtain ⟨residual, r, hshortResidual, hresidualStream⟩ :=
    shorter_spec hcodeResidual (rawOf (words block))
  have hdecode := decodeCombined_ok hm hlen htagStream hresidualStream
  rw [flatMap_store32_words h] at hdecode
  refine ⟨_, encodeCombined_eq (splitFpc_eq h) hrunTags hrunResidual hshortTags hshortResidual, ?_⟩
  rw [decodeBlock, if_neg (by decide), if_neg (by decide), throwIf_neg (by simp [BlockMode.byte])]
  exact hdecode

/-- What every block is encoded as: a stream that is decoded, one byte at least, and no longer
than the raw block or the combination of both codings. -/
theorem encodeBlock_ok {model : Model} (hm : Dimensions model) (h : block.length = kBlockSize) :
    ∃ encoded combined, encodeBlock block model = .ok encoded ∧
      encodeCombined block model = .ok combined ∧ decodeBlock encoded.bytes model = .ok block ∧
      0 < encoded.bytes.length ∧ encoded.bytes.length ≤ 65 ∧
      encoded.bytes.length ≤ combined.bytes.length := by
  have hlen : block.length = 64 := h
  have hsize : (BlockMode.raw.byte :: block).length = 65 := congrArg (· + 1) hlen
  obtain ⟨combined, hcombined, hdecode⟩ := encodeCombined_ok hm h
  have hnonempty : 0 < combined.bytes.length := by
    rcases hbytes : combined.bytes with _ | ⟨mode, rest⟩
    · rw [hbytes] at hdecode
      cases hdecode
    · exact Nat.succ_pos _
  have hraw : decodeBlock (BlockMode.raw.byte :: block) model = .ok block := by
    have hraw : ¬ (BlockMode.raw.byte :: block).length ≠ 1 + kBlockSize := not_not.mpr hsize
    rw [decodeBlock, if_pos rfl, throwIf_neg hraw]
    rfl
  have hplain : decodeBlock (BlockMode.fpc.byte :: toOctets (blockBits (words block))) model =
      .ok block := by
    rw [decodeBlock, if_neg (by decide), if_pos rfl]
    exact fpcDecode_encode h
  rw [encodeBlock, throwIf_neg (not_not.mpr h), ok_bind, fpcEncode_eq h, ok_bind, hcombined,
    ok_bind]
  dsimp only
  rw [hsize]
  by_cases hfpc : 1 + (toOctets (blockBits (words block))).length < 65
  · rw [if_pos hfpc]
    have hbest : (BlockMode.fpc.byte :: toOctets (blockBits (words block))).length < 65 := by
      rw [List.length_cons]
      omega
    by_cases hshort : combined.bytes.length <
        (BlockMode.fpc.byte :: toOctets (blockBits (words block))).length
    · exact ⟨combined, combined, congrArg _ (if_pos hshort), rfl, hdecode, hnonempty,
        (hshort.trans hbest).le, le_rfl⟩
    · exact ⟨_, combined, congrArg _ (if_neg hshort), rfl, hplain, Nat.succ_pos _, hbest.le,
        not_lt.mp hshort⟩
  · rw [if_neg hfpc]
    by_cases hshort : combined.bytes.length < (BlockMode.raw.byte :: block).length
    · exact ⟨combined, combined, congrArg _ (if_pos hshort), rfl, hdecode, hnonempty,
        (hshort.trans_eq hsize).le, le_rfl⟩
    · exact ⟨_, combined, congrArg _ (if_neg hshort), rfl, hraw, Nat.succ_pos _, hsize.le,
        not_lt.mp hshort⟩

/-- Blocks are decoded to themselves, from streams no longer than any of the three codings. -/
theorem encodeBlock_exact {model : Model} (hm : Dimensions model) {block : Bytes}
    (h : block.length = kBlockSize) : ∃ encoded fpc combined,
      encodeBlock block model = .ok encoded ∧ fpcEncode block = .ok fpc ∧
      encodeCombined block model = .ok combined ∧
      decodeBlock encoded.bytes model = .ok block ∧ encoded.bytes.length ≤ 65 ∧
      encoded.bytes.length ≤ 1 + fpc.length ∧
      encoded.bytes.length ≤ combined.bytes.length := by
  have hlen : block.length = 64 := h
  obtain ⟨combined, hcombined, hdecode⟩ := encodeCombined_ok hm h
  have hraw : decodeBlock (BlockMode.raw.byte :: block) model = .ok block := by
    rw [decodeBlock, if_pos rfl, throwIf_neg (by
      rw [List.length_cons, hlen]
      exact not_not.mpr rfl)]
    rfl
  set fpc := toOctets (blockBits (words block)) with hfpc
  have hplain : decodeBlock (BlockMode.fpc.byte :: fpc) model = .ok block := by
    rw [decodeBlock, if_neg (by decide), if_pos rfl]
    exact fpcDecode_encode h
  obtain ⟨best, hbest, hdecodeBest, h65, hle⟩ : ∃ best : EncodedBlock,
      (if 1 + fpc.length < (BlockMode.raw.byte :: block).length
        then { mode := .fpc, bytes := BlockMode.fpc.byte :: fpc }
        else { bytes := BlockMode.raw.byte :: block }) = best ∧
      decodeBlock best.bytes model = .ok block ∧ best.bytes.length ≤ 65 ∧
      best.bytes.length ≤ 1 + fpc.length := by
    by_cases hshort : 1 + fpc.length < (BlockMode.raw.byte :: block).length
    · rw [List.length_cons, hlen] at hshort
      refine ⟨_, if_pos (by simpa [hlen] using hshort), hplain, ?_, ?_⟩
      · rw [List.length_cons]
        omega
      · rw [List.length_cons, Nat.add_comm]
    · rw [List.length_cons, hlen] at hshort
      refine ⟨_, if_neg (by simpa [hlen] using hshort), hraw, ?_, ?_⟩
      · rw [List.length_cons, hlen]
      · rw [List.length_cons, hlen]
        omega
  refine ⟨if combined.bytes.length < best.bytes.length then combined else best, fpc, combined, ?_,
    fpcEncode_eq h, hcombined, ?_⟩
  · rw [encodeBlock, throwIf_neg (by simpa using h), ok_bind, fpcEncode_eq h, ok_bind, hcombined,
      ok_bind, ← hfpc, hbest]
    rfl
  · by_cases hshort : combined.bytes.length < best.bytes.length
    · rw [if_pos hshort]
      exact ⟨hdecode, by omega, by omega, le_rfl⟩
    · rw [if_neg hshort]
      exact ⟨hdecodeBest, h65, hle, by omega⟩

/-- One pattern for either stream, with gaps in its symbols. -/
def gappedModel : Model where
  prefixModel := { blockSize := 16, patterns := [⟨List.replicate 8 3 ++ List.replicate 8 9⟩] }
  residual := { blockSize := 64, patterns := [⟨List.replicate 64 200⟩] }

theorem gappedModel_encodeBlock_exact : ∃ encoded fpc combined,
    encodeBlock (List.replicate 64 77) gappedModel = .ok encoded ∧
    fpcEncode (List.replicate 64 77) = .ok fpc ∧
    encodeCombined (List.replicate 64 77) gappedModel = .ok combined ∧
    decodeBlock encoded.bytes gappedModel = .ok (List.replicate 64 77) ∧
    encoded.bytes.length ≤ 65 ∧ encoded.bytes.length ≤ 1 + fpc.length ∧
    encoded.bytes.length ≤ combined.bytes.length :=
  encodeBlock_exact ⟨rfl, rfl, by decide, by decide, by decide, by decide⟩ rfl

end FpcBsel
