import ByteSelect.ContainerExact
import ByteSelect.FpcBsel.Codec
import ByteSelect.FpcBsel.FpcExact

/-! The words of a block: split into tags, fields and raw words, and put together again. -/
namespace FpcBsel

open BitStream FpcFormat PackedBytes ByteSelect

variable {l u : List Bool} {v : Word} {ws : List Word} {block : Bytes} {reader : BitReader}

/-! Words. -/

/-- The first `n` words of a block. -/
def wordsTo (block : Bytes) (n : ℕ) : List Word :=
  (List.range n).map fun i => load32 block (i * 4)

def words (block : Bytes) : List Word := wordsTo block kWordCount

@[simp] theorem length_words (block : Bytes) : (words block).length = 16 := by
  simp [words, wordsTo, kWordCount]

theorem wordsTo_succ (block : Bytes) (n : ℕ) :
    wordsTo block (n + 1) = wordsTo block n ++ [load32 block (n * 4)] := by
  rw [wordsTo, List.range_succ, List.map_append]
  rfl

theorem bytesAt_eq {offset : ℕ} (h : offset + 4 ≤ block.length) :
    bytesAt block offset = (block.drop offset).take 4 := by
  apply List.ext_getElem
  · rw [List.length_take, List.length_drop, bytesAt]
    simp only [List.length_cons, List.length_nil]
    omega
  · intro i hi _
    have hi4 : i < 4 := hi
    rw [List.getElem_take, List.getElem_drop]
    have hcases : i = 0 ∨ i = 1 ∨ i = 2 ∨ i = 3 := by omega
    rcases hcases with rfl | rfl | rfl | rfl <;>
      simp only [bytesAt, List.getElem_cons_zero, List.getElem_cons_succ, Nat.add_zero] <;>
      rw [List.getD_eq_getElem _ _ (by omega)]

/-- The bytes of the words are those of the block. -/
theorem flatMap_store32_wordsTo {n : ℕ} (h : block.length = n * 4) :
    (wordsTo block n).flatMap store32 = block := by
  have hchunks : (wordsTo block n).flatMap store32 = (fullBlocks 4 block).flatten := by
    rw [wordsTo, List.flatMap_map, fullBlocks, List.flatten_eq_flatMap, List.flatMap_map, h,
      Nat.mul_div_cancel n (by decide)]
    refine List.flatMap_congr fun i hi => ?_
    have hlt := List.mem_range.mp hi
    rw [store32_load32, bytesAt_eq (by omega)]
    rfl
  rw [hchunks, flatten_fullBlocks, h, List.take_of_length_le (by omega)]

theorem flatMap_store32_words (h : block.length = kBlockSize) :
    (words block).flatMap store32 = block := flatMap_store32_wordsTo h

/-! The whole block. -/

/-- The bits of the words, each under its least tag. -/
def blockBits (ws : List Word) : List Bool := ws.flatMap fun v => wordBits (tagOf v) v.toNat

theorem encodeWord_holds {writer : BitWriter} (h : writer.Holds l) (block : Bytes) (word : ℕ) :
    ∃ writer', encodeWord block writer word = .ok writer' ∧
      writer'.Holds (l ++ wordBits (tagOf (load32 block (word * 4)))
        (load32 block (word * 4)).toNat) := by
  have htag := h.put (tagOf (load32 block (word * 4))).val 3
  obtain ⟨writer', hwrite, hholds⟩ := writePayload_holds htag (tagOf (load32 block (word * 4)))
    (load32 block (word * 4))
  refine ⟨writer', ?_, ?_⟩
  · rw [encodeWord, classify_eq]
    exact hwrite
  · rw [wordBits, ← List.append_assoc]
    exact hholds

theorem fpcEncode_eq (h : block.length = kBlockSize) :
    fpcEncode block = .ok (toOctets (blockBits (words block))) := by
  obtain ⟨writer, hrun, hholds⟩ := foldlM_range_ok (f := encodeWord block) (b := {})
    (n := kWordCount) (fun i writer => writer.Holds (blockBits (wordsTo block i))) holds_empty
    (by
      intro i writer _ hholds
      obtain ⟨writer', hstep, hnext⟩ := encodeWord_holds hholds block i
      refine ⟨writer', hstep, ?_⟩
      rw [wordsTo_succ, blockBits, List.flatMap_append, List.flatMap_singleton]
      exact hnext)
  rw [fpcEncode, throwIf_neg (by simpa using h), ok_bind, hrun, ok_bind]
  exact congrArg Except.ok hholds.data_eq

/-- The tags and values of `n` words. -/
def parseWords : ℕ → Parser (List (Fin 8 × ℕ))
  | 0 => pure []
  | n + 1 => do
    let tag ← parseTag
    let value ← parsePayload tag
    let rest ← parseWords n
    return (tag, value) :: rest

theorem parseWords_bits (ws : List Word) (u : List Bool) : parseWords ws.length
    (blockBits ws ++ u) = some (ws.map fun v => (tagOf v, v.toNat), u) := by
  induction ws with
  | nil => rfl
  | cons v ws ih =>
    have hrest : blockBits (v :: ws) ++ u = bitsOf (tagOf v).val 3 ++
        (fieldBits (tagOf v) v.toNat ++ (blockBits ws ++ u)) := by
      simp only [blockBits, List.flatMap_cons, wordBits, List.append_assoc]
    rw [hrest, List.length_cons, parseWords]
    refine Parser.bind_eq_some.mpr ⟨_, _, parseTag_bits _ _, ?_⟩
    refine Parser.bind_eq_some.mpr ⟨_, _, parsePayload_bits (isTag_tagOf v).represents _, ?_⟩
    exact Parser.bind_eq_some.mpr ⟨_, _, ih, rfl⟩

/-- What `decode` makes of the words that were parsed. -/
def outputOf (parsed : List (Fin 8 × ℕ)) : Bytes :=
  parsed.flatMap fun x => store32 (BitVec.ofNat 32 x.2)

def usedBits (parsed : List (Fin 8 × ℕ)) : ℕ := (parsed.map fun x => 3 + width x.1).sum

theorem toByte_eq_tagByte {tag : ℕ} (h : tag < 2 ^ 3) : toByte tag = tagByte (Fin.ofNat 8 tag) := by
  apply Fin.ext
  change tag % 2 ^ 8 = tag % 8
  omega

theorem lift_ok_bind {α γ : Type} (a : α) (k : α → Reading γ) :
    ((liftM (.ok a : Except Error α) : Reading α) >>= k) = k a := rfl

theorem decodeWords_implements (n : ℕ) (output : Bytes) (used : ℕ) :
    Implements BitReader.Before (decodeWords output used n)
      (do let parsed ← parseWords n
          return (output ++ outputOf parsed, used + usedBits parsed)) := by
  induction n generalizing output used with
  | zero =>
    rw [parseWords, pure_bind]
    simp only [outputOf, usedBits, List.flatMap_nil, List.append_nil, List.map_nil, List.sum_nil,
      Nat.add_zero]
    exact implements_pure _
  | succ n ih =>
    have hparse : (parseWords (n + 1) >>= fun parsed =>
        (pure (output ++ outputOf parsed, used + usedBits parsed) : Parser (Bytes × ℕ))) =
        takeBits 3 >>= fun tag =>
          (parsePayload (Fin.ofNat 8 tag) >>= fun value => pure (BitVec.ofNat 32 value)) >>=
          fun value => parseWords n >>= fun parsed =>
            pure (output ++ store32 value ++ outputOf parsed,
              used + (3 + width (Fin.ofNat 8 tag)) + usedBits parsed) := by
      simp only [parseWords, parseTag, bind_assoc, pure_bind, outputOf, usedBits,
        List.flatMap_cons, List.map_cons, List.sum_cons, List.append_assoc, Nat.add_assoc]
    have hrun : decodeWords output used (n + 1) = get 3 >>= fun tag =>
        (liftM (payloadBits (toByte tag)) : Reading ℕ) >>= fun width =>
          readPayload (toByte tag) >>= fun value =>
            decodeWords (output ++ store32 value) (used + (3 + width)) n := rfl
    rw [hparse, hrun]
    refine (get_implements 3).bind fun tag htag => ?_
    rw [toByte_eq_tagByte (lt_of_returns_takeBits htag), payloadBits_tagByte, lift_ok_bind]
    exact (readPayload_implements _).bind fun value _ => ih _ _

/-- The decoder accepts what parses, if its length is what the words take. -/
theorem fpcDecode_of_parse {encoded : Bytes} {parsed : List (Fin 8 × ℕ)}
    (h : parseWords kWordCount (ofOctets encoded) = some (parsed, u)) :
    fpcDecode encoded = if encoded.length = (usedBits parsed + 7) / 8 then .ok (outputOf parsed)
      else .error (.runtimeError "invalid FPC stream length") := by
  have hparse : (parseWords kWordCount >>= fun parsed => (pure ([] ++ outputOf parsed,
      0 + usedBits parsed) : Parser (Bytes × ℕ))) (ofOctets encoded) =
      some (([] ++ outputOf parsed, 0 + usedBits parsed), u) :=
    Parser.bind_eq_some.mpr ⟨parsed, u, h, rfl⟩
  obtain ⟨reader, hrun, -⟩ := (decodeWords_implements kWordCount [] 0).accepts _ _ _ _
    (before_start encoded) hparse
  have hbits : 0 + usedBits parsed = usedBits parsed := Nat.zero_add _
  rw [fpcDecode, hrun, ok_bind]
  simp only [List.nil_append, hbits]
  split
  · rename_i hlen
    rw [throwIf_neg (by simpa using hlen)]
    rfl
  · rename_i hlen
    rw [throwIf, if_pos hlen]
    rfl

theorem fpcDecode_of_no_parse {encoded : Bytes}
    (h : parseWords kWordCount (ofOctets encoded) = none) : Throws (fpcDecode encoded) := by
  have hnone : (parseWords kWordCount >>= fun parsed => (pure ([] ++ outputOf parsed,
      0 + usedBits parsed) : Parser (Bytes × ℕ))) (ofOctets encoded) = none := by
    change (parseWords kWordCount (ofOctets encoded)).bind _ = none
    rw [h]
    rfl
  obtain ⟨e, he⟩ := (decodeWords_implements kWordCount [] 0).refuses _ _ (before_start encoded) hnone
  refine ⟨e, ?_⟩
  rw [fpcDecode, he]
  rfl

theorem outputOf_words (ws : List Word) :
    outputOf (ws.map fun v => (tagOf v, v.toNat)) = ws.flatMap store32 := by
  rw [outputOf, List.flatMap_map]
  refine List.flatMap_congr fun v _ => ?_
  rw [BitVec.ofNat_toNat, BitVec.setWidth_eq]

theorem length_blockBits (ws : List Word) :
    (blockBits ws).length = usedBits (ws.map fun v => (tagOf v, v.toNat)) := by
  rw [blockBits, List.length_flatMap, usedBits, List.map_map]
  congr 1
  exact List.map_congr_left fun v _ => length_wordBits _ _

theorem fpcDecode_encode (h : block.length = kBlockSize) :
    fpcDecode (toOctets (blockBits (words block))) = .ok block := by
  have hparse := parseWords_bits (words block)
    (List.replicate (((blockBits (words block)).length + 7) / 8 * 8 -
      (blockBits (words block)).length) false)
  rw [length_words, ← ofOctets_toOctets] at hparse
  rw [fpcDecode_of_parse hparse, ← length_blockBits, length_toOctets, if_pos rfl, outputOf_words,
    flatMap_store32_words h]

/-! The three parts. -/

/-- The fields of the words that are not kept raw. -/
def regularBits (ws : List Word) : List Bool :=
  ws.flatMap fun v => if tagOf v = 7 then [] else fieldBits (tagOf v) v.toNat

def rawOf (ws : List Word) : Bytes := ws.flatMap fun v => if tagOf v = 7 then store32 v else []

/-- The raw words in their places, zeros elsewhere. -/
def residualOf (ws : List Word) : Bytes :=
  ws.flatMap fun v => if tagOf v = 7 then store32 v else List.replicate 4 0

def tagsOf (ws : List Word) : List Byte := ws.map classify

def partsOf (ws : List Word) : FpcParts where
  tags := tagsOf ws
  regularPayload := toOctets (regularBits ws)
  rawResidual := rawOf ws
  residualBlock := residualOf ws

theorem classify_eq_seven : classify v = 7 ↔ tagOf v = 7 := by
  rw [classify_eq]
  exact @tagByte_inj (tagOf v) 7

theorem length_residualOf (ws : List Word) : (residualOf ws).length = ws.length * 4 := by
  induction ws with
  | nil => rfl
  | cons v ws ih =>
    rw [residualOf, List.flatMap_cons, List.length_append, List.length_cons, Nat.succ_mul,
      Nat.add_comm, ← ih]
    congr 1
    split
    · exact length_store32 v
    · rfl

/-- What the loop of `split_fpc` has done after some words. -/
structure Splitting (block : Bytes) (n : ℕ) (state : FpcParts × BitWriter) : Prop where
  tags_eq : state.1.tags = tagsOf (wordsTo block n) ++ List.replicate (16 - n) 0
  payload_eq : state.1.regularPayload = []
  raw_eq : state.1.rawResidual = rawOf (wordsTo block n)
  residual_eq : state.1.residualBlock =
    residualOf (wordsTo block n) ++ List.replicate (64 - n * 4) 0
  holds : state.2.Holds (regularBits (wordsTo block n))

theorem length_wordsTo (block : Bytes) (n : ℕ) : (wordsTo block n).length = n := by
  simp [wordsTo]

theorem set_replicate {α : Type} (l : List α) (a b : α) {k n : ℕ} (hk : l.length = k)
    (hn : 0 < n) : (l ++ List.replicate n a).set k b = l ++ b :: List.replicate (n - 1) a := by
  subst hk
  obtain ⟨m, rfl⟩ := Nat.exists_eq_succ_of_ne_zero hn.ne'
  rw [List.set_append_right _ _ le_rfl, Nat.sub_self, List.replicate_succ, List.set_cons_zero]
  rfl

/-- A copy to where the zeros start. -/
theorem copyN_replicate {l source : Bytes} {first k n : ℕ} (hk : l.length = k) :
    copyN source first 4 (l ++ List.replicate n 0) k =
      l ++ (source.drop first).take 4 ++ List.replicate (n - 4) 0 := by
  subst hk
  have hdrop : (l ++ List.replicate n (0 : Byte)).drop (l.length + 4) =
      List.replicate (n - 4) 0 := by
    rw [List.drop_append, List.drop_replicate, List.drop_of_length_le (by omega),
      Nat.add_sub_cancel_left, List.nil_append]
  rw [copyN, List.take_left, hdrop]

theorem splitWord_splitting (hblock : block.length = kBlockSize) {n : ℕ} (hn : n < kWordCount)
    {state : FpcParts × BitWriter} (h : Splitting block n state) :
    ∃ state', splitWord block state n = .ok state' ∧ Splitting block (n + 1) state' := by
  have hn16 : n < 16 := hn
  have hlen : block.length = 64 := hblock
  have htags : state.1.tags.set n (classify (load32 block (n * 4))) =
      tagsOf (wordsTo block (n + 1)) ++ List.replicate (16 - (n + 1)) 0 := by
    rw [h.tags_eq, set_replicate _ _ _ (by rw [tagsOf, List.length_map, length_wordsTo])
      (by omega), wordsTo_succ, tagsOf, tagsOf, List.map_append, List.append_assoc]
    rfl
  have hzeros : 64 - n * 4 - 4 = 64 - (n + 1) * 4 := by omega
  by_cases h7 : tagOf (load32 block (n * 4)) = 7
  · refine ⟨_, if_pos (classify_eq_seven.mpr h7), htags, h.payload_eq, ?_, ?_, ?_⟩
    · dsimp only
      rw [h.raw_eq, wordsTo_succ, rawOf, rawOf, List.flatMap_append, List.flatMap_singleton,
        if_pos h7]
    · dsimp only
      rw [h.residual_eq, copyN_replicate (by rw [length_residualOf, length_wordsTo]), hzeros,
        wordsTo_succ, residualOf, residualOf, List.flatMap_append, List.flatMap_singleton,
        if_pos h7, store32_load32, bytesAt_eq (by omega)]
    · rw [wordsTo_succ, regularBits, List.flatMap_append, List.flatMap_singleton, if_pos h7,
        List.append_nil]
      exact h.holds
  · obtain ⟨regular, hwrite, hholds⟩ := writePayload_holds h.holds
      (tagOf (load32 block (n * 4))) (load32 block (n * 4))
    rw [← classify_eq] at hwrite
    refine ⟨({ state.1 with tags := state.1.tags.set n (classify (load32 block (n * 4))) },
      regular), ?_, htags, h.payload_eq, ?_, ?_, ?_⟩
    · rw [splitWord]
      dsimp only
      rw [if_neg (mt classify_eq_seven.mp h7), hwrite]
      rfl
    · dsimp only
      rw [h.raw_eq, wordsTo_succ, rawOf, rawOf, List.flatMap_append, List.flatMap_singleton,
        if_neg h7, List.append_nil]
    · dsimp only
      have hfill : List.replicate (64 - n * 4) (0 : Byte) =
          List.replicate 4 0 ++ List.replicate (64 - (n + 1) * 4) 0 := by
        rw [← List.replicate_add]
        congr 1
        omega
      rw [h.residual_eq, wordsTo_succ, residualOf, residualOf, List.flatMap_append,
        List.flatMap_singleton, if_neg h7, List.append_assoc, hfill]
    · rw [wordsTo_succ, regularBits, List.flatMap_append, List.flatMap_singleton, if_neg h7]
      exact hholds

theorem splitFpc_eq (h : block.length = kBlockSize) :
    splitFpc block = .ok (partsOf (words block)) := by
  obtain ⟨⟨parts, writer⟩, hrun, hsplit⟩ := foldlM_range_ok (f := splitWord block)
    (b := ({ residualBlock := List.replicate kBlockSize 0 }, {})) (n := kWordCount)
    (Splitting block) ⟨rfl, rfl, rfl, rfl, holds_empty⟩
    (fun n state hn hs => splitWord_splitting h hn hs)
  have hfull : { parts with regularPayload := writer.bytes } = partsOf (words block) := by
    have htags := hsplit.tags_eq
    have hresidual := hsplit.residual_eq
    rw [show 16 - kWordCount = 0 from rfl, List.replicate_zero, List.append_nil] at htags
    rw [show 64 - kWordCount * 4 = 0 from rfl, List.replicate_zero, List.append_nil] at hresidual
    have hraw := hsplit.raw_eq
    have hdata := hsplit.holds.data_eq
    dsimp only at htags hresidual hraw hdata
    rw [partsOf, htags, hresidual, hraw, BitWriter.bytes, hdata]
    rfl
  rw [splitFpc, throwIf_neg (by simpa using h), ok_bind, hrun, ok_bind, ← hfull]
  rfl

/-! Joining. -/

theorem load32_eq {offset : ℕ} (h : bytesAt block offset = store32 v) : load32 block offset = v := by
  apply BitVec.eq_of_toNat_eq
  rw [load32_toNat, h, store32_eq, pack_unpack, Nat.mod_eq_of_lt v.isLt]

/-- A raw word is found in its place. -/
theorem load32_residualOf {i : ℕ} (hi : ws[i]? = some v) (h7 : tagOf v = 7) :
    load32 (residualOf ws) (i * 4) = v := by
  obtain ⟨hlt, hget⟩ := List.getElem?_eq_some_iff.mp hi
  have hsplit : residualOf ws =
      residualOf (ws.take i) ++ (store32 v ++ residualOf (ws.drop (i + 1))) := by
    nth_rewrite 1 [← List.take_append_drop i ws, List.drop_eq_getElem_cons hlt, hget]
    rw [residualOf, List.flatMap_append, List.flatMap_cons, if_pos h7]
    rfl
  have hbefore : (residualOf (ws.take i)).length = i * 4 := by
    rw [length_residualOf, List.length_take_of_le hlt.le]
  have htotal := length_residualOf ws
  apply load32_eq
  rw [bytesAt_eq (by omega), hsplit, List.drop_left' hbefore, List.take_left' (length_store32 v)]

/-- A residual block that has the raw words in their places. -/
def HoldsRaw (residual : Bytes) (ws : List Word) : Prop :=
  ∀ i v, ws[i]? = some v → tagOf v = 7 → load32 residual (i * 4) = v

/-- The field of a word is read back as the word. -/
theorem readPayload_before {v : Word}
    (h : reader.Before (fieldBits (tagOf v) v.toNat ++ u)) : ∃ reader',
    readPayload (classify v) reader = .ok (v, reader') ∧ reader'.Before u := by
  have hparse : (parsePayload (tagOf v) >>= fun n => (pure (BitVec.ofNat 32 n) : Parser Word))
      (fieldBits (tagOf v) v.toNat ++ u) = some (v, u) := by
    refine Parser.bind_eq_some.mpr ⟨_, _, parsePayload_bits (isTag_tagOf v).represents _, ?_⟩
    rw [BitVec.ofNat_toNat, BitVec.setWidth_eq]
    rfl
  rw [classify_eq]
  exact (readPayload_implements (tagOf v)).accepts _ _ _ _ h hparse

theorem joinFrom_before {parts : FpcParts} {before rest : List Word} {output : Bytes}
    (htags : parts.tags = tagsOf (before ++ rest))
    (hraw : HoldsRaw parts.residualBlock (before ++ rest))
    (h : reader.Before (regularBits rest ++ u)) : ∃ reader',
    joinFrom parts before.length output rest.length reader =
      .ok (output ++ rest.flatMap store32, reader') := by
  induction rest generalizing before output reader with
  | nil =>
    refine ⟨reader, ?_⟩
    rw [List.flatMap_nil, List.append_nil]
    rfl
  | cons v rest ih =>
    have hcons : before ++ v :: rest = (before ++ [v]) ++ rest := by simp
    have hindex : (before ++ v :: rest)[before.length]? = some v := by simp
    have htag : parts.tags.getD before.length 0 = classify v := by
      rw [htags, tagsOf, List.getD_eq_getElem?_getD, List.getElem?_map, hindex]
      rfl
    rw [hcons] at htags
    have hlen : (before ++ [v]).length = before.length + 1 := List.length_append
    have hout : output ++ (v :: rest).flatMap store32 =
        output ++ store32 v ++ rest.flatMap store32 := by
      rw [List.flatMap_cons, List.append_assoc]
    have hrun : ∀ reader, joinFrom parts before.length output (rest.length + 1) reader =
        ((if classify v = 7 then pure (load32 parts.residualBlock (before.length * 4))
          else readPayload (classify v)) >>= fun value =>
            joinFrom parts (before.length + 1) (output ++ store32 value) rest.length :
          Reading Bytes) reader := by
      intro reader
      rw [joinFrom, htag]
    rw [List.length_cons, hrun, hout]
    by_cases h7 : tagOf v = 7
    · rw [if_pos (classify_eq_seven.mpr h7), pure_bind, hraw _ _ hindex h7, ← hlen]
      refine ih htags (hcons ▸ hraw) ?_
      rw [regularBits, List.flatMap_cons, if_pos h7, List.nil_append] at h
      exact h
    · have hfield : regularBits (v :: rest) ++ u =
          fieldBits (tagOf v) v.toNat ++ (regularBits rest ++ u) := by
        rw [regularBits, List.flatMap_cons, if_neg h7, List.append_assoc]
        rfl
      rw [hfield] at h
      obtain ⟨reader₁, hread, hbefore⟩ := readPayload_before h
      obtain ⟨reader₂, hjoin⟩ := ih htags (hcons ▸ hraw) hbefore
      refine ⟨reader₂, ?_⟩
      rw [if_neg (mt classify_eq_seven.mp h7)]
      have hbind : (readPayload (classify v) >>= fun value => joinFrom parts
          (before.length + 1) (output ++ store32 value) rest.length) reader =
          (readPayload (classify v) reader).bind fun x => joinFrom parts
            (before.length + 1) (output ++ store32 x.1) rest.length x.2 := rfl
      rw [hbind, hread, ← hlen]
      exact hjoin

/-- Joining puts a block together from its tags, its fields and its raw words. -/
theorem joinFpc_eq {residual raw : Bytes} (hlen : ws.length = kWordCount)
    (hresidual : residual.length = kBlockSize) (hraw : HoldsRaw residual ws) :
    joinFpc ⟨tagsOf ws, toOctets (regularBits ws), raw, residual⟩ = .ok (ws.flatMap store32) := by
  have hstart := before_start (toOctets (regularBits ws))
  rw [ofOctets_toOctets] at hstart
  obtain ⟨reader, hrun⟩ := @joinFrom_before _ _ ⟨tagsOf ws, toOctets (regularBits ws), raw, residual⟩
    [] ws [] rfl hraw hstart
  rw [joinFpc, throwIf_neg (by simpa using hresidual), ok_bind, ← hlen]
  rw [List.length_nil] at hrun
  rw [hrun]
  rfl

/-! Tags and sizes. -/

def tagBits (ws : List Word) : List Bool := ws.flatMap fun v => bitsOf (tagOf v).val 3

theorem length_tagBits (ws : List Word) : (tagBits ws).length = ws.length * 3 := by
  induction ws with
  | nil => rfl
  | cons v ws ih =>
    rw [tagBits, List.flatMap_cons, List.length_append, length_bitsOf, List.length_cons,
      Nat.succ_mul, Nat.add_comm, ← ih]
    rfl

theorem packTags_eq (ws : List Word) : packTags (tagsOf ws) = toOctets (tagBits ws) := by
  have hput : ∀ (ws : List Word) (writer : BitWriter) (l : List Bool), writer.Holds l →
      ((tagsOf ws).foldl (fun writer tag => writer.put tag.val 3) writer).Holds
        (l ++ tagBits ws) := by
    intro ws
    induction ws with
    | nil =>
      intro writer l h
      rw [tagBits, List.flatMap_nil, List.append_nil]
      exact h
    | cons v ws ih =>
      intro writer l h
      have hnext := ih _ _ (h.put (tagOf v).val 3)
      rw [List.append_assoc] at hnext
      rw [tagsOf, List.map_cons, List.foldl_cons, classify_eq]
      exact hnext
  exact (hput ws {} [] holds_empty).data_eq

theorem readTags_before (h : reader.Before (tagBits ws ++ u)) :
    ∃ reader', readTags ws.length reader = .ok (tagsOf ws, reader') := by
  induction ws generalizing reader with
  | nil => exact ⟨reader, rfl⟩
  | cons v ws ih =>
    rw [tagBits, List.flatMap_cons, List.append_assoc] at h
    obtain ⟨reader₁, hget, hbefore⟩ :=
      (get_implements 3).accepts _ _ _ _ h (takeBits_bitsOf (tagOf v).val 3 _)
    obtain ⟨reader₂, hrest⟩ := ih hbefore
    have hbyte : toByte ((tagOf v).val % 2 ^ 3) = classify v := by
      rw [classify_eq, toByte_eq_tagByte (Nat.mod_lt _ (by decide)), tagByte_inj]
      have hlt := (tagOf v).isLt
      apply Fin.ext
      rw [Fin.val_ofNat]
      omega
    have hrun : readTags (v :: ws).length reader = (get 3 reader).bind fun x =>
        (readTags ws.length x.2).bind fun y => .ok (toByte x.1 :: y.1, y.2) := rfl
    refine ⟨reader₂, ?_⟩
    rw [hrun, hget, Except.bind, hrest, Except.bind, hbyte]
    rfl

theorem unpackTags_packTags (h : ws.length = kWordCount) :
    unpackTags (packTags (tagsOf ws)) = .ok (tagsOf ws) := by
  have hsize : (packTags (tagsOf ws)).length = 6 := by
    rw [packTags_eq, length_toOctets, length_tagBits, h]
    rfl
  have hstart := before_start (packTags (tagsOf ws))
  rw [packTags_eq, ofOctets_toOctets, ← packTags_eq] at hstart
  obtain ⟨reader, hrun⟩ := readTags_before hstart
  rw [h] at hrun
  rw [unpackTags, throwIf_neg (by simpa using hsize), ok_bind, hrun]
  rfl

theorem regularPayloadSize_map (tags : List (Fin 8)) : regularPayloadSize (tags.map tagByte) =
    .ok (((tags.map fun tag => if tag = 7 then 0 else width tag).sum + 7) / 8) := by
  have hsum : ∀ bits, (tags.map tagByte).foldlM (fun bits tag =>
      if tag ≠ 7 then do return bits + (← payloadBits tag) else .ok bits) bits =
      (.ok (bits + (tags.map fun tag => if tag = 7 then 0 else width tag).sum) :
        Except Error ℕ) := by
    induction tags with
    | nil => exact fun bits => rfl
    | cons tag tags ih =>
      intro bits
      have hseven : tagByte tag = 7 ↔ tag = 7 := tagByte_inj (t := 7)
      rw [List.map_cons, List.foldlM_cons, List.map_cons, List.sum_cons, ← Nat.add_assoc]
      by_cases h7 : tag = 7
      · rw [if_neg (not_not.mpr (hseven.mpr h7)), ok_bind, if_pos h7]
        exact ih bits
      · rw [if_pos (mt hseven.mp h7), payloadBits_tagByte, if_neg h7]
        exact ih (bits + width tag)
  rw [regularPayloadSize, hsum, Nat.zero_add]
  rfl

theorem length_regularBits (ws : List Word) : (regularBits ws).length =
    ((ws.map tagOf).map fun tag => if tag = 7 then 0 else width tag).sum := by
  rw [regularBits, List.length_flatMap, List.map_map]
  congr 1
  apply List.map_congr_left
  intro v _
  by_cases h7 : tagOf v = 7
  · rw [if_pos h7, Function.comp_apply, if_pos h7, List.length_nil]
  · rw [if_neg h7, Function.comp_apply, if_neg h7, length_fieldBits]

theorem regularPayloadSize_eq (ws : List Word) :
    regularPayloadSize (tagsOf ws) = .ok (((regularBits ws).length + 7) / 8) := by
  have htags : tagsOf ws = (ws.map tagOf).map tagByte := by
    rw [List.map_map]
    exact List.map_congr_left fun v _ => classify_eq v
  rw [htags, regularPayloadSize_map, length_regularBits]

theorem rawResidualSize_eq_count (tags : List Byte) : rawResidualSize tags = 4 * tags.count 7 := by
  have hsum : ∀ count, tags.foldl (fun count tag => count + if tag = 7 then 4 else 0) count =
      count + 4 * tags.count 7 := by
    induction tags with
    | nil => exact fun count => rfl
    | cons tag tags ih =>
      intro count
      rw [List.foldl_cons, ih, List.count_cons]
      by_cases htag : tag = 7
      · rw [if_pos htag, if_pos (beq_iff_eq.mpr htag)]
        omega
      · rw [if_neg htag, if_neg (by simpa using htag)]
        omega
  rw [rawResidualSize, hsum, Nat.zero_add]

theorem rawResidualSize_eq (ws : List Word) : rawResidualSize (tagsOf ws) = (rawOf ws).length := by
  rw [rawResidualSize_eq_count]
  induction ws with
  | nil => rfl
  | cons v ws ih =>
    rw [rawOf, List.flatMap_cons, List.length_append, ← rawOf, ← ih, tagsOf, List.map_cons,
      ← tagsOf, List.count_cons]
    by_cases h7 : tagOf v = 7
    · rw [if_pos (beq_iff_eq.mpr (classify_eq_seven.mpr h7)), if_pos h7, length_store32]
      omega
    · rw [if_neg (by simpa using mt classify_eq_seven.mp h7), if_neg h7, List.length_nil]
      omega

end FpcBsel
