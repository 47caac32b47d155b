import ByteSelect.RtlText
import ByteSelect.CodecExact

/-! The generated compressors: what their modules output for a block. -/
namespace ByteSelect

open SystemVerilog PackedBytes ListKernel Ident

variable {model : Model} {set : PatternSet} {p : Pattern} {block : Block} {s t : Store Ident}

/-! First positions and the guard. -/

theorem getD_foldl_first {n k : ℕ} {l : List Symbol} {result : List ℕ} (hk : k + l.length ≤ n)
    (x : Symbol) (hx : x.val < result.length) :
    ((l.zipIdx k).foldl (fun result z =>
      if result.getD z.1.val 0 = n then result.set z.1.val z.2 else result) result).getD x.val 0 =
      if result.getD x.val 0 = n ∧ x ∈ l then k + l.idxOf x else result.getD x.val 0 := by
  induction l generalizing k result with
  | nil => simp
  | cons s l ih =>
    rw [List.length_cons] at hk
    have hset : (if result.getD s.val 0 = n then result.set s.val k else result).getD x.val 0 =
        if x = s ∧ result.getD x.val 0 = n then k else result.getD x.val 0 := by
      by_cases hxs : x = s
      · subst hxs
        split <;> simp_all
      · have hval : s.val ≠ x.val := fun he => hxs (Fin.ext he.symm)
        split <;> simp [hxs, hval, List.getD_eq_getElem?_getD]
    rw [List.zipIdx_cons, List.foldl_cons, ih (by omega) (by split <;> simpa using hx), hset]
    by_cases hxs : x = s
    · subst hxs
      by_cases hr : result.getD x.val 0 = n
      · have hkn : k ≠ n := by omega
        simp only [hr, hkn, and_self, if_true, false_and, if_false, List.mem_cons, true_or,
          List.idxOf_cons_self, Nat.add_zero]
      · simp only [hr, and_false, if_false, false_and]
    · have hsx : s ≠ x := fun he => hxs he.symm
      simp only [hxs, false_and, if_false, List.mem_cons, false_or, List.idxOf_cons_ne _ hsx]
      split <;> omega

/-- The loop leaves, for every symbol of the pattern, where it occurs first. -/
theorem getD_firstPositions {x : Symbol} (hx : x ∈ p.symbols) :
    (firstPositions p).getD x.val 0 = p.symbols.idxOf x := by
  have hrank := Pattern.val_lt_rank hx
  have hfold := @getD_foldl_first p.size 0 p.symbols (List.replicate p.rank p.size)
    (Nat.zero_add _).le x (by simpa using hrank)
  have hempty : (List.replicate p.rank p.size).getD x.val 0 = p.size := by
    simp [List.getD_eq_getElem?_getD, hrank]
  rw [hempty, if_pos ⟨rfl, hx⟩, Nat.zero_add] at hfold
  exact hfold

theorem mem_guardPairs {x : ℕ × ℕ} : x ∈ guardPairs p ↔
    ∃ symbol, p.symbols[x.1]? = some symbol ∧ x.2 = p.symbols.idxOf symbol ∧ x.1 ≠ x.2 := by
  rw [guardPairs, List.mem_filter, List.mem_map]
  constructor
  · rintro ⟨⟨⟨symbol, i⟩, hmem, rfl⟩, hne⟩
    have hi := List.mem_zipIdx_iff_getElem?.mp hmem
    exact ⟨symbol, hi, getD_firstPositions (List.mem_of_getElem? hi), by simpa using hne⟩
  · rintro ⟨symbol, hi, hfirst, hne⟩
    obtain ⟨i, first⟩ := x
    refine ⟨⟨(symbol, i), List.mem_zipIdx_iff_getElem?.mpr hi, ?_⟩, by simpa using hne⟩
    exact Prod.ext rfl ((getD_firstPositions (List.mem_of_getElem? hi)).trans hfirst.symm)

theorem getElem?_idxOf {x : Symbol} {l : List Symbol} (hx : x ∈ l) : l[l.idxOf x]? = some x := by
  rw [List.getElem?_eq_getElem (List.idxOf_lt_length_of_mem hx), List.getElem_idxOf]

/-- Comparing every position with the first of its symbol compares all positions of a symbol. -/
theorem guardPairs_iff (hsize : p.size = block.length) :
    (∀ x ∈ guardPairs p, block[x.1]? = block[x.2]?) ↔ p.describes block = true := by
  rw [Pattern.describes_iff]
  constructor
  · intro h
    refine ⟨hsize, kernel_le_iff.mpr ?_⟩
    intro i j hij
    have hfirst : ∀ (k : ℕ) (symbol : Symbol), p.symbols[k]? = some symbol →
        block[k]? = block[p.symbols.idxOf symbol]? := by
      intro k symbol hk
      by_cases hne : k = p.symbols.idxOf symbol
      · rw [← hne]
      · exact h (k, p.symbols.idxOf symbol) (mem_guardPairs.mpr ⟨symbol, hk, rfl, hne⟩)
    cases hi : p.symbols[i]? with
    | none =>
      have hj : p.symbols[j]? = none := hij.symm.trans hi
      have hlen : p.symbols.length = block.length := hsize
      rw [List.getElem?_eq_none_iff] at hi hj
      rw [List.getElem?_eq_none (by omega), List.getElem?_eq_none (by omega)]
    | some symbol => rw [hfirst i symbol hi, hfirst j symbol (hij.symm.trans hi)]
  · rintro ⟨-, hk⟩ x hx
    obtain ⟨symbol, hi, hfirst, -⟩ := mem_guardPairs.mp hx
    apply kernel_le_iff.mp hk
    rw [hi, hfirst, getElem?_idxOf (List.mem_of_getElem? hi)]

theorem lt_of_mem_guardPairs {x : ℕ × ℕ} (hx : x ∈ guardPairs p) : x.1 < p.size ∧ x.2 < p.size := by
  obtain ⟨symbol, hi, hfirst, -⟩ := mem_guardPairs.mp hx
  obtain ⟨hlt, -⟩ := List.getElem?_eq_some_iff.mp hi
  have hidx := List.idxOf_lt_length_of_mem (List.mem_of_getElem? hi)
  rw [← hfirst] at hidx
  exact ⟨hlt, hidx⟩

theorem bit_eq {i : ℕ} (h : i < 2 ^ 61) : bit i = i * 8 := Nat.mod_eq_of_lt (by omega)

theorem eval_byteAt {x : Ident} {i : ℕ} (hx : s x = pack block) (h : i < 2 ^ 61) :
    (Expr.byteAt x (bit i)).eval s = (block.getD i 0).val := by
  rw [Expr.eval, hx, bit_eq h, field_pack]

/-- The guard holds of the blocks the pattern describes. -/
theorem guardExpr_eval (hs : s blockI = pack block) (hsize : p.size = block.length)
    (hlt : block.length < 2 ^ 61) :
    (guardExpr p).eval s ≠ 0 ↔ p.describes block = true := by
  have hchain : ∀ (l : List (ℕ × ℕ)) (e : Expr Ident),
      (l.foldl (fun e x => Expr.and e (.paren (.eq (.byteAt blockI (bit x.1))
        (.byteAt blockI (bit x.2))))) e).eval s ≠ 0 ↔
      e.eval s ≠ 0 ∧ ∀ x ∈ l, (Expr.byteAt blockI (bit x.1)).eval s =
        (Expr.byteAt blockI (bit x.2)).eval s := by
    intro l
    induction l with
    | nil => simp
    | cons x l ih =>
      intro e
      rw [List.foldl_cons, ih, List.forall_mem_cons, ← and_assoc, eval_and_ne_zero, eval_paren,
        eval_eq_ne_zero]
  rw [guardExpr, hchain, ← guardPairs_iff hsize]
  have hbytes : ∀ x ∈ guardPairs p, ((Expr.byteAt blockI (bit x.1)).eval s =
      (Expr.byteAt blockI (bit x.2)).eval s ↔ block[x.1]? = block[x.2]?) := by
    intro x hx
    obtain ⟨h₁, h₂⟩ := lt_of_mem_guardPairs hx
    rw [eval_byteAt hs (by omega), eval_byteAt hs (by omega), Fin.val_inj,
      List.getD_eq_getElem _ _ (by omega), List.getD_eq_getElem _ _ (by omega),
      List.getElem?_eq_getElem (by omega), List.getElem?_eq_getElem (by omega), Option.some_inj]
  constructor
  · rintro ⟨-, h⟩ x hx
    exact (hbytes x hx).mp (h x hx)
  · intro h
    exact ⟨by simp [Expr.eval], fun x hx => (hbytes x hx).mpr (h x hx)⟩

/-- Every position but the first of its symbol is compared, and there are few symbols. -/
theorem length_guardPairs (p : Pattern) : p.size ≤ (guardPairs p).length + 2 ^ 16 := by
  have hpairs : guardPairs p = (p.symbols.zipIdx.filter fun z =>
      z.2 ≠ (firstPositions p).getD z.1.val 0).map fun z =>
        (z.2, (firstPositions p).getD z.1.val 0) := by
    rw [guardPairs, List.filter_map]
    rfl
  let firsts := p.symbols.zipIdx.filter fun z => z.2 = (firstPositions p).getD z.1.val 0
  have hsplit : p.size = (guardPairs p).length + firsts.length := by
    have h := List.length_eq_length_filter_add (l := p.symbols.zipIdx)
      (fun z => decide (z.2 ≠ (firstPositions p).getD z.1.val 0))
    rw [List.length_zipIdx] at h
    rw [hpairs, List.length_map, Pattern.size, h]
    simp [firsts]
  have hnodup : (firsts.map Prod.fst).Nodup := by
    have hzip : p.symbols.zipIdx.Nodup := by
      apply List.Nodup.of_map Prod.snd
      rw [List.zipIdx_map_snd]
      exact List.nodup_range'
    apply List.Nodup.map_on _ (hzip.filter _)
    intro x hx y hy hxy
    have hx2 : x.2 = _ := of_decide_eq_true (List.mem_filter.mp hx).2
    have hy2 : y.2 = _ := of_decide_eq_true (List.mem_filter.mp hy).2
    exact Prod.ext hxy (by rw [hx2, hy2, hxy])
  have hle := hnodup.length_le_card
  rw [List.length_map, Fintype.card_fin] at hle
  omega

theorem length_pairText (x : ℕ × ℕ) : 32 ≤ (pairText x).length := by
  have h₁ : (literal " && (block_i[").length = 13 := by unfold literal; rfl
  have h₂ : (literal " +: 8] == block_i[").length = 18 := by unfold literal; rfl
  have h₃ : (literal " +: 8])").length = 7 := by unfold literal; rfl
  simp only [pairText, List.length_append, h₁, h₂, h₃]
  omega

theorem length_forEach_ge {α : Type} {f : α → Text} {n : ℕ} {l : List α}
    (h : ∀ a ∈ l, n ≤ (f a).length) : n * l.length ≤ (forEach l f).length := by
  induction l with
  | nil => simp
  | cons a l ih =>
    rw [List.forall_mem_cons] at h
    have hl := ih h.2
    rw [forEach_cons, List.length_append, List.length_cons, Nat.mul_add, Nat.mul_one]
    omega

theorem length_le_forEach {α : Type} {f : α → Text} {l : List α} {a : α} (h : a ∈ l) :
    (f a).length ≤ (forEach l f).length := by
  obtain ⟨before, after, rfl⟩ := List.append_of_mem h
  simp only [forEach_append, forEach_cons, List.length_append]
  omega

theorem makeString_ok {text : Text} {v : Vec Char} (h : makeString text = .ok v) :
    v.toList = text ∧ text.length < 2 ^ 63 := by
  unfold makeString at h
  split at h
  · cases h
    exact ⟨rfl, ‹_›⟩
  · cases h

/-- A compressor whose text fits a string has no position beyond the index arithmetic. -/
theorem size_lt_of_compressor_text {model : Model} {set : PatternSet} {i : ℕ}
    (hp : p ∈ set.patterns.toList)
    (htext : ((compressorModule model set i).text Ident.text).length < 2 ^ 63) :
    p.size < 2 ^ 61 := by
  obtain ⟨j, hj⟩ := List.getElem?_of_mem hp
  have hstmt : ((compressorStmt set (p, j)).text Ident.text).length ≤
      ((compressorModule model set i).text Ident.text).length := by
    have hmem : (p, j) ∈ set.patterns.toList.zipIdx := List.mem_zipIdx_iff_getElem?.mpr hj
    have hle := @length_le_forEach _ (fun x => (compressorStmt set x).text Ident.text) _ _ hmem
    simp only [compressorModule, Module.text, forEach_cons, forEach_map, Item.text,
      List.length_append]
    omega
  have hguard : ((guardExpr p).text Ident.text).length ≤
      ((compressorStmt set (p, j)).text Ident.text).length := by
    simp only [compressorStmt, Stmt.text, Expr.text, List.length_append]
    omega
  have hpairs := @length_forEach_ge _ pairText 32 (guardPairs p) fun x _ => length_pairText x
  have hsize := length_guardPairs p
  rw [guardExpr_text, List.length_append] at hguard
  omega

/-! One set. -/

/-- The dictionary is read off at the first position of every symbol. -/
theorem dictionaryOf_eq (hd : p.describes block = true) : dictionaryOf block p =
    (List.range p.rank).map fun n => block.getD ((firstPositions p).getD n 0) 0 := by
  apply List.ext_getElem (by simp)
  intro n hn _
  rw [length_dictionaryOf] at hn
  obtain ⟨x, hx, rfl⟩ := Pattern.exists_symbol hn
  have hblock := select_dictionaryOf hd []
  have hidx := getElem?_idxOf hx
  have hentry : block[p.symbols.idxOf x]? = some ((dictionaryOf block p).getD x.val 0) := by
    rw [List.append_nil] at hblock
    conv_lhs => rw [← hblock]
    rw [List.getElem?_map, hidx]
    rfl
  rw [List.getElem_map, List.getElem_range, getD_firstPositions hx, List.getD_eq_getElem?_getD,
    hentry, Option.getD_some, List.getD_eq_getElem _ _ (by rwa [length_dictionaryOf])]

theorem compressorBody_eq (hlt : p.size < 2 ^ 61) (hrank : p.rank < 2 ^ 61) (j : ℕ) :
    compressorBody set p j = ⟨.var successO, .bit true⟩ ::
      ⟨.var patternIdO, .sized (set.metadataBytes * 8).val (idOf set j).val⟩ ::
      copyBytes dictionaryO blockI 0
        ((List.range p.rank).map fun n => (firstPositions p).getD n 0) := by
  have hfirst : ∀ n < p.rank, (firstPositions p).getD n 0 < 2 ^ 61 := by
    intro n hn
    obtain ⟨x, hx, rfl⟩ := Pattern.exists_symbol hn
    rw [getD_firstPositions hx]
    exact (List.idxOf_lt_length_of_mem hx).trans hlt
  have hcopy : (List.range p.rank).map (fun n => (⟨.byteAt dictionaryO (bit n),
      .byteAt blockI (bit ((firstPositions p).getD n 0))⟩ : Assign Ident)) =
      copyBytes dictionaryO blockI 0
        ((List.range p.rank).map fun n => (firstPositions p).getD n 0) := by
    apply List.ext_getElem (by simp [copyBytes])
    intro n hn _
    have hn : n < p.rank := by simpa using hn
    simp only [copyBytes, List.getElem_map, List.getElem_zipIdx, List.getElem_range, Nat.zero_add,
      bit_eq (hn.trans hrank), bit_eq (hfirst n hn)]
  rw [compressorBody, hcopy]

variable {width : Ident → ℕ}

/-- What the body of a pattern leaves, for a block the pattern describes. -/
theorem execAll_compressorBody (hs : s blockI = pack block) (hzero : s dictionaryO = 0)
    (hd : p.describes block = true) (hlt : block.length < 2 ^ 61)
    (hwidth : p.rank * 8 ≤ width dictionaryO) (hrank : p.rank < 2 ^ 61) (j : ℕ) :
    execAll width s (compressorBody set p j) =
      Function.update (Function.update (Function.update s successO (1 % 2 ^ width successO))
        patternIdO ((idOf set j).val % 2 ^ (set.metadataBytes * 8).val % 2 ^ width patternIdO))
        dictionaryO (pack (dictionaryOf block p)) := by
  obtain ⟨hsize, -⟩ := Pattern.describes_iff.mp hd
  rw [compressorBody_eq (by omega) hrank, execAll_cons, execAll_cons, exec_var, exec_var]
  let t := Function.update (Function.update s successO (1 % 2 ^ width successO)) patternIdO
    ((idOf set j).val % 2 ^ (set.metadataBytes * 8).val % 2 ^ width patternIdO)
  have ht : t blockI = pack block := hs
  have htzero : t dictionaryO = pack [] := hzero
  have hcopy := execAll_copyBytes (by decide) htzero ht
    (show (([] : List Byte).length + ((List.range p.rank).map fun n =>
      (firstPositions p).getD n 0).length) * 8 ≤ width dictionaryO by simpa using hwidth)
  rw [List.nil_append, List.map_map] at hcopy
  rw [dictionaryOf_eq hd]
  exact hcopy

section Module

variable {i : ℕ}

theorem width_successO : (compressorModule model set i).width successO = 1 := rfl

theorem width_patternIdO : (compressorModule model set i).width patternIdO =
    (set.metadataBytes * 8 - 1).val + 1 := rfl

theorem width_dictionaryO : (compressorModule model set i).width dictionaryO =
    (set.dictionarySize * 8 - 1).val + 1 := rfl

theorem val_bits {n : SizeT} (hpos : 0 < n.val) (hlt : n.val < 2 ^ 61) :
    (n * 8 - 1).val + 1 = n.val * 8 := by
  have h8 : (n * 8).val = n.val * 8 := by
    have h : ((8 : SizeT) : ℕ) = 8 := rfl
    rw [Fin.val_mul, h]
    omega
  have h1 : ((1 : SizeT) : ℕ) = 1 := rfl
  rw [Fin.sub_val_of_le (by rw [Fin.le_def]; omega), h8, h1]
  omega

/-- The first three statements reset the outputs. -/
theorem run_compressorModule (design : Ident → Option (Module Ident)) (depth : ℕ)
    (inputs : Store Ident) : ∃ s : Store Ident,
      s blockI = inputs blockI % 2 ^ ((model.blockSize * 8 - 1).val + 1) ∧ s successO = 0 ∧
      s patternIdO = 0 ∧ s dictionaryO = 0 ∧
      (compressorModule model set i).run design (depth + 1) inputs =
        execBody (compressorModule model set i).width s
          (set.patterns.toList.zipIdx.map (compressorStmt set)) := by
  refine ⟨_, ?_, ?_, ?_, ?_, rfl⟩
  · rfl
  · rfl
  · rfl
  · rfl

/-- What the three outputs of a compressor say of a block. -/
structure CompressorResult (set : PatternSet) (block : Block) (flag id dict : ℕ) : Prop where
  fails : set.describes block = false → flag = 0
  succeeds : ∀ j p, set.patterns.toList[j]? = some p → p.describes block = true →
    (∀ i < j, ∀ q, set.patterns.toList[i]? = some q → q.describes block = false) →
    flag = 1 ∧ id = (idOf set j).val % 2 ^ (set.metadataBytes.val * 8) ∧
      dict = pack (dictionaryOf block p)

/-- The block as the patterns of a set see it. -/
theorem patterns_see_block (hvs : ValidSet model.blockSize set)
    (hb : block.length = model.blockSize.val)
    (hsizes : set.patterns.toList ≠ [] → model.blockSize.val < 2 ^ 61) {inputs : Store Ident}
    (hin : set.patterns.toList ≠ [] → inputs blockI = pack block)
    (hblock : s blockI = inputs blockI % 2 ^ ((model.blockSize * 8 - 1).val + 1))
    (hp : p ∈ set.patterns.toList) : p.size = block.length ∧ block.length < 2 ^ 61 ∧
      p.rank ≤ set.dictionarySize.val ∧ s blockI = pack block := by
  have hne : set.patterns.toList ≠ [] := List.ne_nil_of_mem hp
  have hsize := hsizes hne
  have hpos := hvs.target_pos.trans hvs.target_lt
  have hpack := pack_lt block
  have hdict := val_dictionarySize hvs.metadata_lt
  refine ⟨(hvs.size_eq p hp).trans hb.symm, by omega, hdict ▸ hvs.rank_le p hp, ?_⟩
  rw [hblock, hin hne, val_bits hpos hsize, ← hb, Nat.mod_eq_of_lt hpack]

/-- What the body of a pattern leaves on the ports of the module. -/
theorem compressorModule_body (hvs : ValidSet model.blockSize set)
    (hbytes : 1 ≤ set.metadataBytes.val) (htarget : set.targetSize.val < 65536)
    (hs : s blockI = pack block) (hzero : s dictionaryO = 0) (hwide : block.length < 2 ^ 61)
    (hrank : p.rank ≤ set.dictionarySize.val) (hd : p.describes block = true) (j : ℕ) :
    execAll (compressorModule model set i).width s (compressorBody set p j) =
      Function.update (Function.update (Function.update s successO 1) patternIdO
        ((idOf set j).val % 2 ^ (set.metadataBytes.val * 8)))
        dictionaryO (pack (dictionaryOf block p)) := by
  have hlt := hvs.metadata_lt
  have hdict := val_dictionarySize hlt
  have hidbits : (set.metadataBytes * 8).val = set.metadataBytes.val * 8 :=
    val_metadataBits hvs.layout.bytes_le
  have hwidth : p.rank * 8 ≤ (compressorModule model set i).width dictionaryO := by
    rw [width_dictionaryO, val_bits (by omega) (by omega)]
    omega
  rw [execAll_compressorBody hs hzero hd hwide hwidth (by omega), width_successO,
    width_patternIdO, val_bits hbytes (by omega), hidbits, Nat.mod_mod,
    show 1 % 2 ^ 1 = 1 from rfl]

theorem find?_zipIdx_first {α : Type} {l : List α} {q : α × ℕ → Bool} {f : α → Bool} {j : ℕ}
    {a : α} (hq : ∀ x ∈ l.zipIdx, q x = f x.1) (hj : l[j]? = some a) (ha : f a = true)
    (hfirst : ∀ k < j, ∀ b, l[k]? = some b → f b = false) : l.zipIdx.find? q = some (a, j) := by
  obtain ⟨hlt, hget⟩ := List.getElem?_eq_some_iff.mp hj
  have hmem : (a, j) ∈ l.zipIdx := List.mem_zipIdx_iff_getElem?.mpr hj
  refine List.find?_eq_some_iff_getElem.mpr
    ⟨(hq _ hmem).trans ha, j, by simpa using hlt, by simp [hget], ?_⟩
  intro k hk
  have hx := hq _ (List.getElem_mem (l := l.zipIdx) (by simpa using hk.trans hlt))
  rw [List.getElem_zipIdx] at hx ⊢
  rw [hx, hfirst k hk _ (by simp [List.getElem?_eq_getElem (hk.trans hlt)])]
  rfl

/-- The first guard that holds decides the outputs. -/
theorem compressorModule_result (hvs : ValidSet model.blockSize set)
    (hbytes : 1 ≤ set.metadataBytes.val) (htarget : set.targetSize.val < 65536)
    (hb : block.length = model.blockSize.val)
    (hsizes : set.patterns.toList ≠ [] → model.blockSize.val < 2 ^ 61)
    (design : Ident → Option (Module Ident)) (depth : ℕ) {inputs out : Store Ident}
    (hin : set.patterns.toList ≠ [] → inputs blockI = pack block)
    (hout : (compressorModule model set i).run design (depth + 1) inputs = out) :
    CompressorResult set block (out successO) (out patternIdO) (out dictionaryO) := by
  obtain ⟨s, hblock, hflag, -, hzero, hrun⟩ :=
    @run_compressorModule model set i design depth inputs
  rw [← hout, hrun]
  have hguard : ∀ x ∈ set.patterns.toList.zipIdx,
      decide ((Expr.paren (guardExpr x.1)).eval s ≠ 0) = x.1.describes block := by
    intro x hx
    obtain ⟨hsize, hwide, -, hs⟩ :=
      patterns_see_block hvs hb hsizes hin hblock (List.fst_mem_of_mem_zipIdx hx)
    rw [eval_paren, Bool.eq_iff_iff, decide_eq_true_iff]
    exact guardExpr_eval hs hsize hwide
  have hbody : ∀ x ∈ set.patterns.toList.zipIdx, x.1.describes block = true →
      execAll (compressorModule model set i).width s (compressorBody set x.1 x.2) =
        Function.update (Function.update (Function.update s successO 1) patternIdO
          ((idOf set x.2).val % 2 ^ (set.metadataBytes.val * 8)))
          dictionaryO (pack (dictionaryOf block x.1)) := by
    intro x hx hd
    obtain ⟨-, hwide, hrank, hs⟩ :=
      patterns_see_block hvs hb hsizes hin hblock (List.fst_mem_of_mem_zipIdx hx)
    exact compressorModule_body hvs hbytes htarget hs hzero hwide hrank hd x.2
  have hprio := @execBody_priority _ s _ (compressorModule model set i).width _ successO
    (fun x : Pattern × ℕ => .paren (guardExpr x.1)) (fun x => compressorBody set x.1 x.2)
    set.patterns.toList.zipIdx hflag (by
      intro x hx hc
      rw [hbody x hx ((hguard x hx).symm.trans (decide_eq_true hc))]
      simp)
  change execBody _ s (set.patterns.toList.zipIdx.map (compressorStmt set)) = _ at hprio
  rw [hprio]
  constructor
  · intro hnone
    have hfind : set.patterns.toList.zipIdx.find? (fun x =>
        decide ((Expr.paren (guardExpr x.1)).eval s ≠ 0)) = none := by
      rw [List.find?_eq_none]
      intro x hx hc
      have hd := (hguard x hx).symm.trans hc
      have hset := PatternSet.describes_iff.mpr ⟨x.1, List.fst_mem_of_mem_zipIdx hx, hd⟩
      rw [hnone] at hset
      cases hset
    rw [hfind]
    exact hflag
  · intro j p hp hd hfirst
    have hmem : (p, j) ∈ set.patterns.toList.zipIdx := List.mem_zipIdx_iff_getElem?.mpr hp
    rw [find?_zipIdx_first hguard hp hd hfirst]
    dsimp only
    rw [hbody (p, j) hmem hd]
    simp

end Module

/-! The top module. -/

/-- The instance a wire of a top module belongs to. -/
def Ident.owner : Ident → Option ℕ
  | success i | patternId i | dictionary i | Ident.block i | valid i => some i
  | _ => none

theorem compressorItems_owner (x : PatternSet × ℕ) :
    ∀ d ∈ (compressorItems x).flatMap Item.declarations, Ident.owner d.1 = some x.2 := by
  simp [compressorItems, Item.declarations, Ident.owner]

theorem nodup_snd_zipIdx {α : Type} (l : List α) : (l.zipIdx.map Prod.snd).Nodup := by
  rw [List.zipIdx_map_snd]
  exact List.nodup_range'

theorem width_wire (hset : model.sets[i]? = some set) {y : Ident} {w : ℕ} (hy : y.owner = some i)
    (hself : ((compressorItems (set, i)).flatMap Item.declarations).lookup y = some w) :
    (topCompressorModule model).width y = w :=
  width_of_group rfl hset (by simp [topCompressorModule, Ident.owner]) compressorItems_owner hy
    hself

theorem compressorItems_declarations (hset : model.sets[i]? = some set) :
    (topCompressorModule model).width (success i) = 1 ∧
    (topCompressorModule model).width (patternId i) = (set.metadataBytes * 8 - 1).val + 1 ∧
    (topCompressorModule model).width (dictionary i) = (set.dictionarySize * 8 - 1).val + 1 := by
  refine ⟨width_wire hset rfl ?_, width_wire hset rfl ?_, width_wire hset rfl ?_⟩ <;>
    simp [compressorItems, Item.declarations, widthOf, lookup_cons_ite]

section Items

variable {width : Ident → ℕ} {instances : Ident → Store Ident → Option (Store Ident)}

theorem compressorItems_frame (x : PatternSet × ℕ) (s : Store Ident) (y : Ident)
    (hy : y.owner ≠ some x.2) :
    (compressorItems x).foldl (Item.run width instances) s y = s y := by
  have h₁ : y ≠ success x.2 := by rintro rfl; exact hy rfl
  have h₂ : y ≠ patternId x.2 := by rintro rfl; exact hy rfl
  have h₃ : y ≠ dictionary x.2 := by rintro rfl; exact hy rfl
  simp only [compressorItems, List.foldl_cons, List.foldl_nil, Item.run]
  cases instances (compressor x.2) (connect s [(blockI, .var blockI)]) with
  | none => rfl
  | some out => simp [drive, h₁, h₂, h₃]

theorem compressorItems_run {x : PatternSet × ℕ} {s out : Store Ident}
    (hout : instances (compressor x.2) (connect s [(blockI, .var blockI)]) = some out) :
    (compressorItems x).foldl (Item.run width instances) s =
      drive width out s [(successO, success x.2), (patternIdO, patternId x.2),
        (dictionaryO, dictionary x.2)] := by
  simp only [compressorItems, List.foldl_cons, List.foldl_nil, Item.run, hout]

end Items

theorem foldl_max_spec {α : Type} {f : α → SizeT} {l : List α} {m b : SizeT} {n : ℕ}
    (hm : m.val < n) (hf : ∀ a ∈ l, (f a).val < n)
    (hb : l.foldl (fun result a => max result (f a)) m = b) :
    b.val < n ∧ m ≤ b ∧ ∀ a ∈ l, f a ≤ b := by
  induction l generalizing m with
  | nil =>
    subst hb
    exact ⟨hm, le_rfl, by simp⟩
  | cons a l ih =>
    rw [List.forall_mem_cons] at hf
    have hmax : (max m (f a)).val < n := by
      rcases max_choice m (f a) with h | h <;> rw [h]
      · exact hm
      · exact hf.1
    obtain ⟨hlt, hle, hall⟩ := ih hmax hf.2 hb
    exact ⟨hlt, (le_max_left _ _).trans hle,
      List.forall_mem_cons.mpr ⟨(le_max_right _ _).trans hle, hall⟩⟩

/-- The model's own bounds: with these no size of the hardware wraps. -/
structure HardwareModel (model : Model) : Prop where
  valid : ValidModel model
  bytes_pos : ∀ set ∈ model.sets, 1 ≤ set.metadataBytes.val
  target_lt : ∀ set ∈ model.sets, set.targetSize.val < 65536

/-- Each set's ports fit into those of the top modules. -/
theorem HardwareModel.widths (h : HardwareModel model) (hset : set ∈ model.sets) :
    set.metadataBytes.val * 8 ≤ (maxIdBits model - 1).val + 1 ∧
    set.dictionarySize.val * 8 ≤ (maxDictionaryBytes model * 8 - 1).val + 1 := by
  have hsets : ∀ set ∈ model.sets, (set.metadataBytes * 8).val = set.metadataBytes.val * 8 ∧
      (set.metadataBytes * 8).val < 2 ^ 20 ∧ set.dictionarySize.val < 2 ^ 16 := by
    intro set hset
    have hvs := h.valid.sets_valid set hset
    have hlt := hvs.metadata_lt
    have htarget := h.target_lt set hset
    have hbits : (set.metadataBytes * 8).val = _ := val_metadataBits hvs.layout.bytes_le
    have hdict := val_dictionarySize hlt
    exact ⟨hbits, by omega, by omega⟩
  obtain ⟨hbits, hbits20, hdict⟩ := hsets set hset
  have hpos := h.bytes_pos set hset
  obtain ⟨-, -, hid⟩ := foldl_max_spec (b := maxIdBits model) (m := 0) (n := 2 ^ 20) (by decide)
    (fun set hset => (hsets set hset).2.1) rfl
  obtain ⟨hmax, -, hdictMax⟩ := foldl_max_spec (b := maxDictionaryBytes model) (m := 0)
    (n := 2 ^ 16) (by decide) (fun set hset => (hsets set hset).2.2) rfl
  have h₁ := Fin.le_def.mp (hid set hset)
  have h₂ := Fin.le_def.mp (hdictMax set hset)
  have hone : ((1 : SizeT) : ℕ) = 1 := rfl
  have hlt := (h.valid.sets_valid set hset).metadata_lt
  have hsize := val_dictionarySize hlt
  constructor
  · rw [Fin.sub_val_of_le (by rw [Fin.le_def]; omega), hone]
    omega
  · rw [val_bits (by omega) (by omega)]
    omega

theorem mod_two_pow_of_le {v m n : ℕ} (h : m ≤ n) : v % 2 ^ m % 2 ^ n = v % 2 ^ m :=
  Nat.mod_eq_of_lt
    ((Nat.mod_lt _ (Nat.two_pow_pos m)).trans_le (Nat.pow_le_pow_right (by decide) h))

theorem pack_dictionaryOf_mod {n : ℕ} (h : p.rank * 8 ≤ n) :
    pack (dictionaryOf block p) % 2 ^ n = pack (dictionaryOf block p) := by
  have hlt := pack_lt (dictionaryOf block p)
  rw [length_dictionaryOf] at hlt
  exact Nat.mod_eq_of_lt (hlt.trans_le (Nat.pow_le_pow_right (by decide) h))

/-- Wires as wide as the outputs lose nothing. -/
theorem CompressorResult.cut {flag id dict a b c : ℕ} (h : CompressorResult set block flag id dict)
    (ha : 1 ≤ a) (hb : set.metadataBytes.val * 8 ≤ b)
    (hc : ∀ p ∈ set.patterns.toList, p.rank * 8 ≤ c) :
    CompressorResult set block (flag % 2 ^ a) (id % 2 ^ b) (dict % 2 ^ c) := by
  constructor
  · intro hnone
    rw [h.fails hnone, Nat.zero_mod]
  · intro j p hj hp hfirst
    obtain ⟨hflag, hid, hdict⟩ := h.succeeds j p hj hp hfirst
    have hone : 1 < 2 ^ a := Nat.one_lt_two_pow (by omega)
    have hrank := hc p (List.mem_of_getElem? hj)
    rw [hflag, hid, hdict, Nat.mod_eq_of_lt hone, mod_two_pow_of_le hb,
      pack_dictionaryOf_mod hrank]
    exact ⟨rfl, rfl, rfl⟩

/-- The wires of every set carry what its compressor says of the block. -/
def WiresCarry (model : Model) (block : Block) (s : Store Ident) : Prop :=
  ∀ set i, model.sets[i]? = some set →
    CompressorResult set block (s (success i)) (s (patternId i)) (s (dictionary i))

/-- The items of set `i`, run from a store that has the block. -/
theorem compressorItems_result (h : HardwareModel model) (hb : block.length = model.blockSize.val)
    (hsizes : ∀ set ∈ model.sets, set.patterns.toList ≠ [] → model.blockSize.val < 2 ^ 61)
    {inputs : Store Ident} (hin : inputs blockI = pack block) (hset : model.sets[i]? = some set)
    {t t' : Store Ident} (ht : t blockI = (topCompressorModule model).start inputs blockI)
    (ht' : (compressorItems (set, i)).foldl (Item.run (topCompressorModule model).width
      (instantiate (design model) (Module.run (design model) 1))) t = t') :
    CompressorResult set block (t' (success i)) (t' (patternId i)) (t' (dictionary i)) := by
  have hmem := List.mem_of_getElem? hset
  have hvs := h.valid.sets_valid set hmem
  have hlt := hvs.metadata_lt
  have hdict := val_dictionarySize hlt
  have hbytes := h.bytes_pos set hmem
  have htarget := h.target_lt set hmem
  have hconnect : set.patterns.toList ≠ [] →
      connect t [(blockI, .var blockI)] blockI = pack block := by
    intro hne
    have hsize := hsizes set hmem hne
    have hstart : (topCompressorModule model).start inputs blockI =
        inputs blockI % 2 ^ ((model.blockSize * 8 - 1).val + 1) := rfl
    have hvar : connect t [(blockI, .var blockI)] blockI = t blockI := rfl
    rw [hvar, ht, hstart, hin, val_bits h.valid.block_pos hsize, ← hb,
      Nat.mod_eq_of_lt (pack_lt block)]
  have hresult := compressorModule_result (i := i) hvs hbytes htarget hb (hsizes set hmem)
    (design model) 0 hconnect rfl
  obtain ⟨h₁, h₂, h₃⟩ := compressorItems_declarations hset
  rw [val_bits (by omega) (by omega)] at h₂ h₃
  have hranks : ∀ p ∈ set.patterns.toList, p.rank * 8 ≤ set.dictionarySize.val * 8 := by
    intro p hp
    have hrank := hvs.rank_le p hp
    omega
  have hcut := hresult.cut le_rfl le_rfl hranks
  have hinstance : instantiate (design model) (Module.run (design model) 1) (compressor i)
      (connect t [(blockI, .var blockI)]) =
      some ((compressorModule model set i).run (design model) 1
        (connect t [(blockI, .var blockI)])) := by
    simp [instantiate, design, hset]
  rw [compressorItems_run (x := (set, i)) hinstance] at ht'
  subst ht'
  simpa [drive, h₁, h₂, h₃] using hcut

/-- What the items leave on the wires. -/
theorem topCompressor_wires (h : HardwareModel model) (hb : block.length = model.blockSize.val)
    (hsizes : ∀ set ∈ model.sets, set.patterns.toList ≠ [] → model.blockSize.val < 2 ^ 61)
    {inputs s : Store Ident} (hin : inputs blockI = pack block)
    (hs : (model.sets.zipIdx.flatMap compressorItems).foldl (Item.run
      (topCompressorModule model).width (instantiate (design model) (Module.run (design model) 1)))
      ((topCompressorModule model).start inputs) = s) :
    WiresCarry model block s := by
  intro set i hset
  obtain ⟨-, hgroups⟩ := run_groups (nodup_snd_zipIdx model.sets)
    (fun x _ => compressorItems_frame x) ((topCompressorModule model).start inputs)
  obtain ⟨t, ht, hfinal⟩ := hgroups (set, i) (List.mem_zipIdx_iff_getElem?.mpr hset)
  rw [← hs, hfinal (success i) rfl, hfinal (patternId i) rfl, hfinal (dictionary i) rfl]
  exact compressorItems_result h hb hsizes hin hset (ht blockI rfl) rfl

theorem compress_cases (hv : ValidModel model) (hb : block.length = model.blockSize.val) :
    (compress block model = .ok (.ofRaw block) ∧
      ∀ x ∈ setOrder model, x.1.describes block = false) ∨
    ∃ before set i after j p metadata, setOrder model = before ++ (set, i) :: after ∧
      (∀ x ∈ before, x.1.describes block = false) ∧
      set.patterns.toList[j]? = some p ∧ p.describes block = true ∧
      (∀ k < j, ∀ q, set.patterns.toList[k]? = some q → q.describes block = false) ∧
      encodePatternMetadata set j = .ok metadata ∧
      compress block model = .ok (.ofPattern block set i j p metadata (dictionaryOf block p)) := by
  rw [compress, throwIf_neg (not_not.mpr hb), ok_bind]
  exact compressSets_spec (setOrder_valid hv)

/-- The body of the chosen set, on reset outputs. -/
theorem execAll_selectBody {w : Ident → ℕ} (x : PatternSet × ℕ) (hid : s patternIdO = 0)
    (hdict : s dictionaryO = 0) : execAll w s (selectBody x) =
    Function.update (Function.update (Function.update (Function.update s
      successO (1 % 2 ^ w successO))
      patternIdO (s (patternId x.2) % 2 ^ ((x.1.metadataBytes * 8 - 1).val + 1) % 2 ^ w patternIdO))
      dictionaryO
        (s (dictionary x.2) % 2 ^ ((x.1.dictionarySize * 8 - 1).val + 1) % 2 ^ w dictionaryO))
      targetSizeO (x.1.targetSize.val % 2 ^ 16 % 2 ^ w targetSizeO) := by
  simp [selectBody, execAll, Assign.exec, Target.name, Target.write, Expr.eval, hid, hdict,
    setField_zero]

theorem run_topCompressorModule {inputs s : Store Ident} (depth : ℕ)
    (design : Ident → Option (Module Ident))
    (hs : (model.sets.zipIdx.flatMap compressorItems).foldl (Item.run
      (topCompressorModule model).width (instantiate design (Module.run design depth)))
      ((topCompressorModule model).start inputs) = s) :
    ∃ t : Store Ident, t successO = 0 ∧ t patternIdO = 0 ∧ t dictionaryO = 0 ∧
      (∀ y i, y.owner = some i → t y = s y) ∧
      (topCompressorModule model).run design (depth + 1) inputs =
        execBody (topCompressorModule model).width t ((setOrder model).map selectStmt) := by
  have hrun : (topCompressorModule model).run design (depth + 1) inputs =
      execBody (topCompressorModule model).width s (.assign ⟨.var successO, .bit false⟩ ::
        .assign ⟨.var patternIdO, .zeros⟩ :: .assign ⟨.var dictionaryO, .zeros⟩ ::
        .assign ⟨.var targetSizeO, .unsized model.blockSize.val⟩ ::
        (setOrder model).map selectStmt) := by
    rw [Module.run]
    conv_lhs => rw [topCompressorModule]
    rw [List.foldl_append, ← hs]
    rfl
  rw [hrun]
  refine ⟨_, ?_, ?_, ?_, ?_, rfl⟩
  · simp [Stmt.exec, Assign.exec, Target.name, Target.write, Expr.eval]
  · simp [Stmt.exec, Assign.exec, Target.name, Target.write, Expr.eval]
  · simp [Stmt.exec, Assign.exec, Target.name, Target.write, Expr.eval]
  · intro y i hy
    have h₁ : y ≠ successO := by rintro rfl; cases hy
    have h₂ : y ≠ patternIdO := by rintro rfl; cases hy
    have h₃ : y ≠ dictionaryO := by rintro rfl; cases hy
    have h₄ : y ≠ targetSizeO := by rintro rfl; cases hy
    simp [Stmt.exec, Assign.exec, Target.name, h₁, h₂, h₃, h₄]

/-- A set that describes a block has a first pattern that does. -/
theorem PatternSet.exists_first (hd : set.describes block = true) :
    ∃ (j : ℕ) (p : Pattern), set.patterns.toList[j]? = some p ∧ p.describes block = true ∧
      ∀ k < j, ∀ q, set.patterns.toList[k]? = some q → q.describes block = false := by
  obtain ⟨p, hp, hdp⟩ := PatternSet.describes_iff.mp hd
  obtain ⟨i, hi⟩ := List.getElem?_of_mem hp
  have hex : ∃ (j : ℕ) (q : Pattern), set.patterns.toList[j]? = some q ∧
      q.describes block = true := ⟨i, p, hi, hdp⟩
  classical
  obtain ⟨q, hq, hdq⟩ := Nat.find_spec hex
  refine ⟨Nat.find hex, q, hq, hdq, ?_⟩
  intro k hk r hr
  have hmin := Nat.find_min hex hk
  rw [← Bool.not_eq_true]
  intro hdr
  exact hmin ⟨r, hr, hdr⟩

theorem WiresCarry.success_iff (hw : WiresCarry model block t) (hset : model.sets[i]? = some set) :
    t (success i) ≠ 0 ↔ set.describes block = true := by
  have hresult := hw set i hset
  cases hd : set.describes block with
  | false => simp [hresult.fails hd]
  | true =>
    obtain ⟨j, p, hj, hp, hfirst⟩ := PatternSet.exists_first hd
    simp [(hresult.succeeds j p hj hp hfirst).1]

/-- The outputs of the top module for a block are the codec's result for it. -/
structure CompressorOutputs (model : Model) (encoded : EncodedBlock) (out : Store Ident) :
    Prop where
  success_iff : out successO = 1 ↔ encoded.compressed = true
  target : encoded.compressed = true → out targetSizeO = encoded.allocatedSize
  metadata : encoded.compressed = true → ∃ set, model.sets[encoded.setIndex]? = some set ∧
    out patternIdO = encoded.metadata.val % 2 ^ (set.metadataBytes.val * 8)
  dictionary : encoded.compressed = true → out dictionaryO = pack encoded.dictionary

theorem width_top_successO : (topCompressorModule model).width successO = 1 := rfl

theorem width_top_targetSizeO : (topCompressorModule model).width targetSizeO = 16 := rfl

theorem width_top_patternIdO : (topCompressorModule model).width patternIdO =
    (maxIdBits model - 1).val + 1 := rfl

theorem width_top_dictionaryO : (topCompressorModule model).width dictionaryO =
    (maxDictionaryBytes model * 8 - 1).val + 1 := rfl

/-- The chosen set's body puts its wires on the outputs. -/
theorem selectBody_outputs (h : HardwareModel model) (hw : WiresCarry model block t)
    (hid : t patternIdO = 0) (hdict : t dictionaryO = 0) (hset : model.sets[i]? = some set)
    {j : ℕ} (hj : set.patterns.toList[j]? = some p) (hp : p.describes block = true)
    (hfirst : ∀ k < j, ∀ q, set.patterns.toList[k]? = some q → q.describes block = false)
    {metadata : SizeT} (hm : encodePatternMetadata set j = .ok metadata) :
    CompressorOutputs model (.ofPattern block set i j p metadata (dictionaryOf block p))
      (execAll (topCompressorModule model).width t (selectBody (set, i))) := by
  have hmem := List.mem_of_getElem? hset
  have hvs := h.valid.sets_valid set hmem
  have hlt := hvs.metadata_lt
  have hsize := val_dictionarySize hlt
  have hpos := h.bytes_pos set hmem
  have htarget := h.target_lt set hmem
  have hrank := hvs.rank_le p (List.mem_of_getElem? hj)
  obtain ⟨hw₁, hw₂⟩ := h.widths hmem
  obtain ⟨-, hidO, hdictO⟩ := (hw set i hset).succeeds j p hj hp hfirst
  have hidof : idOf set j = metadata := by rw [idOf, hm]
  rw [execAll_selectBody (set, i) hid hdict, width_top_successO, width_top_targetSizeO,
    width_top_patternIdO, width_top_dictionaryO]
  dsimp only
  rw [hidO, hdictO, val_bits (by omega) (by omega), val_bits (by omega) (by omega), Nat.mod_mod,
    mod_two_pow_of_le hw₁, hidof, pack_dictionaryOf_mod (by omega), pack_dictionaryOf_mod (by omega)]
  refine ⟨?_, ?_, ?_, ?_⟩
  · simp [EncodedBlock.ofPattern]
  · intro _
    simp only [Function.update_self, EncodedBlock.ofPattern]
    omega
  · intro _
    exact ⟨set, hset, rfl⟩
  · intro _
    exact (pack_append_zeros _ _).symm

theorem topCompressorModule_outputs (h : HardwareModel model)
    (hb : block.length = model.blockSize.val)
    (hsizes : ∀ set ∈ model.sets, set.patterns.toList ≠ [] → model.blockSize.val < 2 ^ 61)
    {inputs : Store Ident} (hin : inputs blockI = pack block) :
    ∃ encoded, compress block model = .ok encoded ∧ CompressorOutputs model encoded
      ((topCompressorModule model).run (design model) 2 inputs) := by
  obtain ⟨t, hflag, hid, hdict, hkeep, hrun⟩ :=
    @run_topCompressorModule model inputs _ 1 (design model) rfl
  rw [hrun]
  have hw : WiresCarry model block t := by
    intro set i hset
    rw [hkeep _ i rfl, hkeep _ i rfl, hkeep _ i rfl]
    exact topCompressor_wires h hb hsizes hin rfl set i hset
  have hcond : ∀ x ∈ setOrder model,
      ((Expr.var (success x.2)).eval t ≠ 0 ↔ x.1.describes block = true) := by
    intro x hx
    exact hw.success_iff (mem_setOrder.mp hx)
  have hprio := @execBody_priority _ t _ (topCompressorModule model).width _ successO
    (fun x : PatternSet × ℕ => .var (success x.2)) selectBody (setOrder model) hflag (by
      intro x _ _
      rw [execAll_selectBody x hid hdict, width_top_successO]
      simp)
  change execBody _ t ((setOrder model).map selectStmt) = _ at hprio
  rw [hprio]
  rcases compress_cases h.valid hb with ⟨hraw, hall⟩ |
    ⟨before, set, i, after, j, p, m, he, hbefore, hj, hp, hfirst, hm, hres⟩
  · have hfind : (setOrder model).find? (fun x => (Expr.var (success x.2)).eval t ≠ 0) = none := by
      rw [List.find?_eq_none]
      intro x hx hc
      have hd := (hcond x hx).mp (of_decide_eq_true hc)
      rw [hall x hx] at hd
      cases hd
    rw [hfind]
    exact ⟨_, hraw, by simp [EncodedBlock.ofRaw, hflag], nofun, nofun, nofun⟩
  · have hmem : (set, i) ∈ setOrder model := he ▸ by simp
    have hd : set.describes block = true :=
      PatternSet.describes_iff.mpr ⟨p, List.mem_of_getElem? hj, hp⟩
    have hfind : (setOrder model).find? (fun x => (Expr.var (success x.2)).eval t ≠ 0) =
        some (set, i) := by
      refine List.find?_eq_some_iff_append.mpr
        ⟨decide_eq_true ((hcond _ hmem).mpr hd), before, after, he, ?_⟩
      intro x hx
      have hiff := hcond x (he ▸ by simp [hx])
      simpa [hbefore x hx] using hiff
    rw [hfind]
    exact ⟨_, hres, selectBody_outputs h hw hid hdict (mem_setOrder.mp hmem) hj hp hfirst hm⟩

/-- The generated compressors compute what the codec computes. -/
theorem compressor_hardware_exact {model : Model} {top : Vec Char} {subs : ℕ → Vec Char}
    {block : Block} {inputs : Store Ident} (hv : validateModel model = .ok ())
    (hbytes : ∀ set ∈ model.sets, 1 ≤ set.metadataBytes.val)
    (htargets : ∀ set ∈ model.sets, set.targetSize.val < 65536)
    (htop : generateTopCompressorSv model = .ok top)
    (hsubs : ∀ i < model.sets.length, generateCompressorSv model i = .ok (subs i))
    (hb : block.length = model.blockSize.val) (hin : inputs blockI = pack block) :
    top.toList = (topCompressorModule model).text Ident.text ∧
    (∀ set i, model.sets[i]? = some set →
      (subs i).toList = (compressorModule model set i).text Ident.text) ∧
    ∃ encoded, compress block model = .ok encoded ∧ CompressorOutputs model encoded
      ((topCompressorModule model).run (design model) 2 inputs) := by
  have hvm := validateModel_iff.mp hv
  have htexts : ∀ set i, model.sets[i]? = some set →
      (subs i).toList = (compressorModule model set i).text Ident.text ∧
        ((compressorModule model set i).text Ident.text).length < 2 ^ 63 := by
    intro set i hset
    obtain ⟨hi, -⟩ := List.getElem?_eq_some_iff.mp hset
    have htext := hsubs i hi
    rw [generateCompressorSv_text hv hset] at htext
    exact makeString_ok htext
  rw [generateTopCompressorSv_text hv] at htop
  refine ⟨(makeString_ok htop).1, fun set i hset => (htexts set i hset).1, ?_⟩
  refine topCompressorModule_outputs ⟨hvm, hbytes, htargets⟩ hb ?_ hin
  intro set hmem hne
  obtain ⟨i, hi⟩ := List.getElem?_of_mem hmem
  obtain ⟨p, hp⟩ := List.exists_mem_of_ne_nil _ hne
  have hsize := (hvm.sets_valid set hmem).size_eq p hp
  have hlt := size_lt_of_compressor_text hp (htexts set i hi).2
  omega

theorem taggedModel_compressor_hardware_exact : ∃ top sub,
    generateTopCompressorSv taggedModel = .ok top ∧ generateCompressorSv taggedModel 0 = .ok sub ∧
    top.toList = (topCompressorModule taggedModel).text Ident.text ∧
    (∀ set i, taggedModel.sets[i]? = some set →
      sub.toList = (compressorModule taggedModel set i).text Ident.text) ∧
    ∃ encoded, compress [7, 7, 9, 7] taggedModel = .ok encoded ∧
      CompressorOutputs taggedModel encoded
        ((topCompressorModule taggedModel).run (design taggedModel) 2
          fun _ => pack [7, 7, 9, 7]) := by
  let top : Vec Char := ⟨(topCompressorModule taggedModel).text Ident.text, by decide +kernel⟩
  let sub : Vec Char :=
    ⟨(compressorModule taggedModel taggedSet 0).text Ident.text, by decide +kernel⟩
  have htop : generateTopCompressorSv taggedModel = .ok top :=
    (generateTopCompressorSv_text (by decide)).trans (dif_pos top.size_lt)
  have hsub : generateCompressorSv taggedModel 0 = .ok sub :=
    (generateCompressorSv_text (by decide) rfl).trans (dif_pos sub.size_lt)
  have hsubs : ∀ i < taggedModel.sets.length, generateCompressorSv taggedModel i = .ok sub := by
    intro i hi
    obtain rfl : i = 0 := Nat.lt_one_iff.mp hi
    exact hsub
  exact ⟨top, sub, htop, hsub, compressor_hardware_exact (by decide) (by decide) (by decide)
    htop hsubs (by decide) rfl⟩

end ByteSelect
