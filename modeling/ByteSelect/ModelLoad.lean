import ByteSelect.ModelIO
import ByteSelect.ModelValid

/-! What `load_model` reads from a text that `save_model` wrote, whole or cut. -/
namespace ByteSelect

open TextStream

variable {model : Model} {set : PatternSet} {p : Pattern} {blockSize : SizeT}
  {tok line rest t : Text} {s : Loader}

theorem saveModel_ok {text : Text} (h : saveModel model = .ok text) :
    ValidModel model ∧ text = modelText model := by
  simp only [saveModel, check_bind_eq_ok] at h
  obtain ⟨hvalid, h⟩ := h
  cases h
  exact ⟨validateModel_iff.mp hvalid, rfl⟩

/-! Patterns. -/

def separatedSymbol (symbol : Symbol) : Text := ' ' :: numeral symbol.val

theorem Pattern.ofSymbols_symbols (p : Pattern) : Pattern.ofSymbols p.symbols = p := by
  obtain ⟨symbols, hcanonical⟩ := p
  simp only [Pattern.ofSymbols, hcanonical]

theorem toText_cons {symbol : Symbol} {symbols : List Symbol}
    (h : p.symbols = symbol :: symbols) :
    p.toText = numeral symbol.val ++ symbols.flatMap separatedSymbol := by
  have hjoin : ∀ (x : Symbol) (l : List Symbol),
      [' '].intercalate ((x :: l).map fun symbol => numeral symbol.val) =
        numeral x.val ++ l.flatMap separatedSymbol := by
    intro x l
    induction l generalizing x with
    | nil => simp [List.intercalate]
    | cons y l ih =>
      have hrest := ih y
      simp only [List.intercalate, List.map_cons, List.intersperse_cons_cons, List.flatten_cons,
        List.flatMap_cons, separatedSymbol] at hrest ⊢
      rw [hrest]
      rfl
  rw [Pattern.toText, h]
  exact hjoin symbol symbols

theorem parseSymbols_spec {sp : Text} (hsp : ∀ c ∈ sp, isSpace c = true) {symbol : Symbol}
    {symbols acc : List Symbol} {fuel : ℕ} (hfuel : symbols.length + 2 ≤ fuel) :
    parseSymbols fuel (.ofText (sp ++ (numeral symbol.val ++ symbols.flatMap separatedSymbol)))
      acc = .ok (acc ++ symbol :: symbols, ⟨[], true, true⟩) := by
  have hlt : symbol.val < 2 ^ 32 := by omega
  have hfits : ¬ symbol.val > 65535 := by omega
  induction symbols generalizing sp symbol acc fuel with
  | nil =>
    obtain ⟨fuel, rfl⟩ : ∃ k, fuel = k + 2 := ⟨fuel - 2, by simp at hfuel; omega⟩
    rw [List.flatMap_nil, List.append_nil, parseSymbols, readUnsigned_last hsp hlt]
    dsimp only
    rw [if_neg (by simp), throwIf_neg hfits, ok_bind, parseSymbols]
    simp [readUnsigned, formatted, IStream.good, pure, Except.pure]
  | cons next symbols ih =>
    obtain ⟨fuel, rfl⟩ : ∃ k, fuel = k + 1 := ⟨fuel - 1, by simp at hfuel; omega⟩
    have hread := @readUnsigned_numeral sp (numeral next.val ++ symbols.flatMap separatedSymbol)
      ' ' 32 ⟨symbol.val, hlt⟩ hsp rfl 0
    have hnext := @ih [' '] (by simp [isSpace]) next (acc ++ [symbol]) fuel
      (by simp at hfuel; omega) (by omega) (by omega)
    rw [List.flatMap_cons, separatedSymbol, List.cons_append, parseSymbols, hread]
    dsimp only
    rw [if_neg (by simp [IStream.ofText]), throwIf_neg hfits, ok_bind]
    simpa using hnext

theorem length_flatMap_separated (symbols : List Symbol) :
    symbols.length ≤ (symbols.flatMap separatedSymbol).length := by
  induction symbols with
  | nil => simp
  | cons symbol symbols ih =>
    simp only [List.flatMap_cons, separatedSymbol, List.length_append, List.length_cons] at ih ⊢
    omega

/-- `parse` reads back what `to_string` printed. -/
theorem parse_toText (hp : p.symbols ≠ []) : Pattern.parse p.toText = .ok p := by
  obtain ⟨symbol, symbols, hsymbols⟩ := List.exists_cons_of_ne_nil hp
  have htext := toText_cons hsymbols
  have hne := numeral_ne_nil symbol.val
  have hlen := length_flatMap_separated symbols
  have hpos := List.length_pos_iff.mpr hne
  have hparse := @parseSymbols_spec [] (by simp) symbol symbols [] (p.toText.length + 1)
    (by rw [htext, List.length_append]; omega)
  rw [List.nil_append, List.nil_append, ← htext, ← hsymbols] at hparse
  rw [Pattern.parse, hparse]
  simp only [ok_bind, Bool.true_eq_false, not_false_eq_true, throwIf_neg, hp, false_and]
  exact congrArg Except.ok (Pattern.ofSymbols_symbols p)

theorem no_newline_toText (p : Pattern) : ∀ c ∈ p.toText, c ≠ '\n' := by
  cases hsymbols : p.symbols with
  | nil => simp [Pattern.toText, hsymbols]
  | cons symbol symbols =>
    rw [toText_cons hsymbols]
    rintro c hc rfl
    rcases List.mem_append.mp hc with hmem | hmem
    · cases isDigit_numeral hmem
    · obtain ⟨next, -, hnext⟩ := List.mem_flatMap.mp hmem
      rcases List.mem_cons.mp hnext with h | h
      · cases h
      · cases isDigit_numeral h

/-- The line of a pattern, without its end. -/
theorem patternLine_eq (p : Pattern) :
    patternLine p = (patternPrefix ++ p.toText) ++ ['\n'] := rfl

theorem no_newline_line (p : Pattern) : ∀ c ∈ patternPrefix ++ p.toText, c ≠ '\n' := by
  intro c hc
  rcases List.mem_append.mp hc with h | h
  · rintro rfl
    exact absurd h (by decide)
  · exact no_newline_toText p c h

theorem loadPatterns_lines {ps : List Pattern} (hsizes : ∀ p ∈ ps, p.size = blockSize.val)
    (hpos : 0 < blockSize.val) {v : Vec Pattern} (hv : v.toList = set.patterns.toList ++ ps) :
    ∃ line', loadPatterns blockSize ps.length set
        ⟨tok, line, .ofText (ps.flatMap patternLine ++ rest)⟩ =
      .ok ({ set with patterns := v }, ⟨tok, line', .ofText rest⟩) := by
  induction ps generalizing set line with
  | nil =>
    rw [List.append_nil] at hv
    have hset : { set with patterns := v } = set := by
      cases set
      cases v
      simp_all
    exact ⟨line, by rw [hset]; rfl⟩
  | cons p ps ih =>
    rw [List.forall_mem_cons] at hsizes
    have hne : p.symbols ≠ [] := by
      intro hnil
      have hsize := hsizes.1
      rw [Pattern.size, hnil] at hsize
      simp at hsize
      omega
    have hvlt := v.size_lt
    have hlen : (set.patterns.toList ++ [p]).length < 2 ^ 63 := by
      rw [hv] at hvlt
      simp at hvlt ⊢
      omega
    have hline : getLine line (.ofText ((p :: ps).flatMap patternLine ++ rest)) =
        (patternPrefix ++ p.toText, .ofText (ps.flatMap patternLine ++ rest)) := by
      rw [List.flatMap_cons, patternLine_eq, List.append_assoc, List.append_assoc,
        List.singleton_append]
      exact getLine_line (no_newline_line p) line
    obtain ⟨line', hload⟩ := @ih { set with patterns := ⟨_, hlen⟩ }
      (patternPrefix ++ p.toText) hsizes.2 (by simp [hv])
    refine ⟨line', ?_⟩
    rw [List.length_cons, loadPatterns, hline]
    dsimp only
    rw [throwIf_neg (not_not.mpr (List.prefix_append _ _)), ok_bind, List.drop_left,
      parse_toText hne, ok_bind, throwIf_neg (not_not.mpr hsizes.1), ok_bind, pushBack,
      dif_pos hlen, ok_bind, hload]

/-! Set lines. -/

/-- The numbers of a set line, with what follows its end. -/
def fieldsText (set : PatternSet) (rest : Text) : Text :=
  [' '] ++ (numeral set.targetSize.val ++ ' ' :: (numeral set.metadataBytes.val ++ ' ' ::
    (numeral set.metadataTagBits.val ++ ' ' :: (numeral set.metadataTagValue.val ++ ' ' ::
      (numeral set.patterns.size ++ '\n' :: rest)))))

theorem setText_eq (set : PatternSet) (rest : Text) : setText set ++ rest =
    setWord ++ fieldsText set (set.patterns.toList.flatMap patternLine ++ rest) := by
  simp only [setText, setLine, fieldsText, List.append_assoc, List.cons_append, List.nil_append]

theorem setText_fields (set : PatternSet) :
    setText set = setWord ++ fieldsText set (set.patterns.toList.flatMap patternLine) := by
  have h := setText_eq set []
  rwa [List.append_nil, List.append_nil] at h

theorem isSpace_blank : ∀ c ∈ [' '], isSpace c = true := by simp [isSpace]

def patternCount (set : PatternSet) : SizeT :=
  ⟨set.patterns.size, set.patterns.size_lt.trans (by decide)⟩

theorem readSize_full {c : Char} (hc : c.isDigit = false) (n target : SizeT) (rest : Text) :
    readUnsigned 64 target (.ofText ([' '] ++ (numeral n.val ++ c :: rest))) =
      (n, .ofText ([c] ++ rest)) :=
  readUnsigned_numeral isSpace_blank hc target

theorem fieldsText_eq (set : PatternSet) (rest : Text) : fieldsText set rest =
    [' '] ++ (numeral set.targetSize.val ++ ' ' :: (numeral set.metadataBytes.val ++ ' ' ::
      (numeral set.metadataTagBits.val ++ ' ' :: (numeral set.metadataTagValue.val ++ ' ' ::
        (numeral (patternCount set).val ++ '\n' :: rest))))) := rfl

theorem readSetFields_full (set : PatternSet) (rest : Text) :
    readSetFields 2 {} (.ofText (fieldsText set rest)) =
      ({ set with patterns := ⟨[], by decide⟩ }, patternCount set, .ofText ('\n' :: rest)) := by
  rw [fieldsText_eq, readSetFields, readSize_full rfl]
  dsimp only
  rw [readSize_full rfl]
  dsimp only
  rw [if_pos rfl, readSize_full rfl]
  dsimp only
  rw [if_pos rfl, readSize_full rfl]
  dsimp only
  rw [readSize_full rfl]
  rfl

theorem loadSet_full {s : Loader} (hv : ValidSet blockSize set) (hs : s.input =
    .ofText (setText set ++ rest)) : ∃ line', loadSet 2 blockSize s =
      .ok (set, ⟨setWord, line', .ofText rest⟩) := by
  have hpos := hv.target_pos.trans hv.target_lt
  have hword : readWord s.token s.input = (setWord, .ofText (fieldsText set
      (set.patterns.toList.flatMap patternLine ++ rest))) := by
    rw [hs, setText_eq]
    exact @readWord_entry [] setWord _ ' ' (by simp) (by decide) (no_space rfl) rfl s.token
  have hline : getLine s.line (.ofText ('\n' :: (set.patterns.toList.flatMap patternLine ++ rest)))
      = ([], .ofText (set.patterns.toList.flatMap patternLine ++ rest)) :=
    @getLine_line [] _ (by simp) s.line
  obtain ⟨line', hload⟩ := @loadPatterns_lines { set with patterns := ⟨[], by decide⟩ } blockSize
    setWord [] rest set.patterns.toList hv.size_eq hpos set.patterns (by simp)
  refine ⟨line', ?_⟩
  rw [loadSet, hword]
  dsimp only
  rw [readSetFields_full]
  dsimp only
  rw [throwIf_neg (by simp), ok_bind, hline]
  exact hload

/-- The loop over the sets reads whole sets back. -/
theorem loadSets_full {sets acc : List PatternSet} (hv : ∀ set ∈ sets, ValidSet blockSize set)
    {s : Loader} (hs : s.input = .ofText (sets.flatMap setText ++ rest)) (n : ℕ) :
    ∃ s', s'.input = .ofText rest ∧ s'.token = (if sets = [] then s.token else setWord) ∧
      loadSets 2 blockSize (sets.length + n) acc s = loadSets 2 blockSize n (acc ++ sets) s' := by
  induction sets generalizing acc s with
  | nil => exact ⟨s, by simpa using hs, rfl, by simp⟩
  | cons set sets ih =>
    rw [List.forall_mem_cons] at hv
    rw [List.flatMap_cons, List.append_assoc] at hs
    obtain ⟨line', hload⟩ := loadSet_full hv.1 hs
    obtain ⟨s', hs', htoken, hrest⟩ := @ih (acc ++ [set]) hv.2
      ⟨setWord, line', .ofText (sets.flatMap setText ++ rest)⟩ rfl
    refine ⟨s', hs', ?_, ?_⟩
    · rw [htoken]
      simp
    · have hlen : (set :: sets).length + n = sets.length + n + 1 := by
        rw [List.length_cons]
        omega
      rw [hlen, loadSets, hload, ok_bind]
      dsimp only
      rw [hrest, List.append_assoc, List.singleton_append]

/-! Cut texts. -/

/-- What one turn of the loop over the sets can make of a set whose text is cut. -/
inductive CutSet (set : PatternSet) : PatternSet → Prop
  | beforeTarget : CutSet set {}
  | inTarget {n : SizeT} (hn : numeral n.val <+: numeral set.targetSize.val) :
      CutSet set { targetSize := n }
  | inMetadata {n : SizeT} (hn : numeral n.val <+: numeral set.metadataBytes.val) :
      CutSet set { targetSize := set.targetSize, metadataBytes := n }
  | later {set' : PatternSet} (htarget : set'.targetSize = set.targetSize)
      (hblank : set.patterns.toList = [] → set.metadataTagBits = 0 → set.metadataTagValue = 0 →
        set' = set) : CutSet set set'

theorem prefix_rest {w t : Text} {c : Char} (h : t <+: w) : c :: t <+: [c] ++ w :=
  List.cons_prefix_cons.mpr ⟨rfl, h⟩

/-- From a drained stream every number keeps its default. -/
theorem readSetFields_drained {input : IStream} (h : Drained input) (set : PatternSet) :
    (readSetFields 2 set input).1 = set ∧ (readSetFields 2 set input).2.1 = 0 ∧
      Drained (readSetFields 2 set input).2.2 := by
  obtain ⟨ht, h⟩ := readUnsigned_drained h set.targetSize
  obtain ⟨hm, h⟩ := readUnsigned_drained h set.metadataBytes
  obtain ⟨hb, h⟩ := readUnsigned_drained h set.metadataTagBits
  obtain ⟨hv, h⟩ := readUnsigned_drained h set.metadataTagValue
  obtain ⟨hc, h⟩ := readUnsigned_drained h (0 : SizeT)
  simp only [readSetFields, if_true]
  rw [ht, hm, hb, hv, hc]
  exact ⟨rfl, rfl, h⟩

/-- The fields with the count, as far as a cut line gives them. -/
def CutFields (set : PatternSet) (fields : PatternSet × SizeT × IStream) : Prop :=
  Drained fields.2.2 ∧
    ((CutSet set fields.1 ∧ fields.2.1 = 0) ∨
      (fields.1.targetSize = set.targetSize ∧ fields.1.metadataBytes = set.metadataBytes ∧
        fields.1.patterns.toList = [] ∧
        (set.metadataTagBits = 0 → fields.1.metadataTagBits = 0) ∧
        (set.metadataTagValue = 0 → fields.1.metadataTagValue = 0) ∧
        (set.patterns.toList = [] → fields.2.1 = 0)))

theorem zero_of_cut_zero {m n : SizeT} (h : m = 0 ∨ numeral m.val <+: numeral n.val)
    (hn : n = 0) : m = 0 := by
  subst hn
  rcases h with h | h
  · exact h
  · exact Fin.ext (eq_of_cut_digit (by decide) h)

section Fields

variable {input input₁ input₂ : IStream} {n m : SizeT}

/-- Nothing after the target size: the rest are defaults. -/
theorem readSetFields_target
    (ht : readUnsigned 64 ({} : PatternSet).targetSize input = (n, input₁)) (hd : Drained input₁) :
    (readSetFields 2 {} input).1 = { targetSize := n } ∧ (readSetFields 2 {} input).2.1 = 0 ∧
      Drained (readSetFields 2 {} input).2.2 := by
  obtain ⟨hm, hd⟩ := readUnsigned_drained hd ({} : PatternSet).metadataBytes
  obtain ⟨hb, hd⟩ := readUnsigned_drained hd ({} : PatternSet).metadataTagBits
  obtain ⟨hv, hd⟩ := readUnsigned_drained hd ({} : PatternSet).metadataTagValue
  obtain ⟨hc, hd⟩ := readUnsigned_drained hd (0 : SizeT)
  simp only [readSetFields, if_true, ht]
  rw [hm, hb, hv, hc]
  exact ⟨rfl, rfl, hd⟩

theorem readSetFields_metadata
    (ht : readUnsigned 64 ({} : PatternSet).targetSize input = (n, input₁))
    (hm : readUnsigned 64 ({} : PatternSet).metadataBytes input₁ = (m, input₂))
    (hd : Drained input₂) :
    (readSetFields 2 {} input).1 = { targetSize := n, metadataBytes := m } ∧
      (readSetFields 2 {} input).2.1 = 0 ∧ Drained (readSetFields 2 {} input).2.2 := by
  obtain ⟨hb, hd⟩ := readUnsigned_drained hd ({} : PatternSet).metadataTagBits
  obtain ⟨hv, hd⟩ := readUnsigned_drained hd ({} : PatternSet).metadataTagValue
  obtain ⟨hc, hd⟩ := readUnsigned_drained hd (0 : SizeT)
  simp only [readSetFields, if_true, ht, hm]
  rw [hb, hv, hc]
  exact ⟨rfl, rfl, hd⟩

end Fields

/-- A prefix of the numbers of a set line has them all, or leaves defaults. -/
theorem readSetFields_cut (h : t <+: fieldsText set rest) :
    (∃ t', t' <+: rest ∧ t = fieldsText set t') ∨
      CutFields set (readSetFields 2 {} (.ofText t)) := by
  rw [fieldsText_eq] at h
  rcases readUnsigned_cut isSpace_blank rfl h ({} : PatternSet).targetSize with
    ⟨t₁, ht₁, rfl, h₁⟩ | ⟨hd, hcase⟩
  · rcases readUnsigned_cut isSpace_blank rfl (prefix_rest ht₁)
        ({} : PatternSet).metadataBytes with ⟨t₂, ht₂, he₂, h₂⟩ | ⟨hd, hcase⟩
    · rcases readUnsigned_cut isSpace_blank rfl (prefix_rest ht₂)
          ({} : PatternSet).metadataTagBits with ⟨t₃, ht₃, he₃, h₃⟩ | ⟨hd, hcase⟩
      · rcases readUnsigned_cut isSpace_blank rfl (prefix_rest ht₃)
            ({} : PatternSet).metadataTagValue with ⟨t₄, ht₄, he₄, h₄⟩ | ⟨hd, hcase⟩
        · rcases readUnsigned_cut isSpace_blank rfl (prefix_rest ht₄) (0 : SizeT) with
            ⟨t₅, ht₅, he₅, -⟩ | ⟨hd, hcase⟩
          · left
            refine ⟨t₅, ht₅, ?_⟩
            rw [fieldsText_eq, (List.cons.inj he₂).2, (List.cons.inj he₃).2,
              (List.cons.inj he₄).2, (List.cons.inj he₅).2]
            rfl
          · right
            simp only [CutFields, readSetFields, if_true, h₁, h₂, h₃, h₄]
            refine ⟨hd, Or.inr ⟨trivial, trivial, trivial, id, id, ?_⟩⟩
            intro hnil
            refine zero_of_cut_zero hcase (Fin.ext ?_)
            simp [patternCount, Vec.size, hnil]
        · right
          obtain ⟨hc, h⟩ := readUnsigned_drained hd (0 : SizeT)
          simp only [CutFields, readSetFields, if_true, h₁, h₂, h₃]
          rw [hc]
          exact ⟨h, Or.inr ⟨trivial, trivial, trivial, id, zero_of_cut_zero hcase, fun _ => rfl⟩⟩
      · right
        obtain ⟨hv, h⟩ := readUnsigned_drained hd ({} : PatternSet).metadataTagValue
        obtain ⟨hc, h⟩ := readUnsigned_drained h (0 : SizeT)
        simp only [CutFields, readSetFields, if_true, h₁, h₂]
        rw [hv, hc]
        exact ⟨h, Or.inr ⟨trivial, trivial, trivial, zero_of_cut_zero hcase, fun _ => rfl,
          fun _ => rfl⟩⟩
    · right
      obtain ⟨hset, hzero, hd⟩ := readSetFields_metadata h₁ Prod.mk.eta.symm hd
      refine ⟨hd, Or.inl ⟨?_, hzero⟩⟩
      rw [hset]
      rcases hcase with he | hn
      · rw [he]
        exact .inTarget List.prefix_rfl
      · exact .inMetadata hn
  · right
    obtain ⟨hset, hzero, hd⟩ := readSetFields_target Prod.mk.eta.symm hd
    refine ⟨hd, Or.inl ⟨?_, hzero⟩⟩
    rw [hset]
    rcases hcase with he | hn
    · rw [he]
      exact .beforeTarget
    · exact .inTarget hn

section Lines

variable {set' : PatternSet} {s' : Loader} {n : ℕ}

theorem loadPatterns_succ (h : loadPatterns blockSize (n + 1) set s = .ok (set', s')) :
    ∃ patterns, loadPatterns blockSize n { set with patterns }
      ⟨s.token, (getLine s.line s.input).1, (getLine s.line s.input).2⟩ = .ok (set', s') := by
  simp only [loadPatterns, bind_eq_ok] at h
  obtain ⟨-, -, pattern, -, -, -, patterns, -, h⟩ := h
  exact ⟨patterns, h⟩

/-- The pattern loop touches nothing but the patterns. -/
theorem loadPatterns_keeps (h : loadPatterns blockSize n set s = .ok (set', s')) :
    s'.token = s.token ∧ set'.targetSize = set.targetSize ∧ (n = 0 → set' = set) := by
  induction n generalizing set s with
  | zero =>
    cases h
    exact ⟨rfl, rfl, fun _ => rfl⟩
  | succ n ih =>
    obtain ⟨patterns, h⟩ := loadPatterns_succ h
    obtain ⟨htoken, htarget, -⟩ := ih h
    exact ⟨htoken, htarget, fun he => absurd he n.succ_ne_zero⟩

theorem loadPatterns_drained (hd : Drained s.input)
    (h : loadPatterns blockSize n set s = .ok (set', s')) : Drained s'.input := by
  induction n generalizing set s with
  | zero =>
    cases h
    exact hd
  | succ n ih =>
    obtain ⟨patterns, h⟩ := loadPatterns_succ h
    exact ih (getLine_drained hd s.line) h

/-- Lines that are cut drain the stream. -/
theorem loadPatterns_cut {ps : List Pattern} (ht : t <+: ps.flatMap patternLine)
    (hne : t ≠ ps.flatMap patternLine) (hs : s.input = .ofText t)
    (h : loadPatterns blockSize ps.length set s = .ok (set', s')) : Drained s'.input := by
  induction ps generalizing set s t with
  | nil => exact absurd (List.prefix_nil.mp ht) hne
  | cons p ps ih =>
    obtain ⟨patterns, h⟩ := loadPatterns_succ h
    rw [List.flatMap_cons, patternLine_eq, List.append_assoc, List.singleton_append] at ht hne
    have hentry := @prefix_entry [] (patternPrefix ++ p.toText) _ t '\n' ht
    rcases hentry with hnil | ⟨v, -, hv, rfl⟩ | ⟨t', ht', rfl⟩
    · refine loadPatterns_drained ?_ h
      rw [hs]
      exact getLine_last (fun c hc => absurd (hnil.subset hc) (by simp)) s.line
    · refine loadPatterns_drained ?_ h
      rw [hs]
      exact getLine_last (fun c hc => no_newline_line p c (hv.subset hc)) s.line
    · have hline : getLine s.line s.input = (patternPrefix ++ p.toText, .ofText t') := by
        rw [hs]
        exact getLine_line (no_newline_line p) s.line
      rw [hline] at h
      refine ih ht' ?_ rfl h
      rintro rfl
      exact hne rfl

end Lines

section Sets

variable {set' : PatternSet} {s' : Loader}

theorem loadSet_token {version : ℤ} (h : loadSet version blockSize s = .ok (set', s')) :
    (readWord s.token s.input).1 = setWord := by
  simp only [loadSet, check_bind_eq_ok, throwIf_eq_ok, not_not] at h
  exact h.1

theorem loadSet_ok (h : loadSet 2 blockSize s = .ok (set', s')) :
    (readWord s.token s.input).1 = setWord ∧
      ∃ line, loadPatterns blockSize
        (readSetFields 2 {} (readWord s.token s.input).2).2.1.val
        (readSetFields 2 {} (readWord s.token s.input).2).1
        ⟨setWord, line, (getLine s.line (readSetFields 2 {} (readWord s.token s.input).2).2.2).2⟩ =
          .ok (set', s') := by
  simp only [loadSet, check_bind_eq_ok, throwIf_eq_ok, not_not] at h
  obtain ⟨hword, h⟩ := h
  rw [hword] at h
  exact ⟨hword, _, h⟩

/-- A set of which only defaults and numbers were read, with no patterns. -/
theorem loadSet_of_fields {input : IStream} (hword : readWord s.token s.input = (setWord, input))
    (hfields : (readSetFields 2 {} input).1 = set' ∧ (readSetFields 2 {} input).2.1 = 0 ∧
      Drained (readSetFields 2 {} input).2.2) :
    ∃ s', loadSet 2 blockSize s = .ok (set', s') ∧ s'.token = setWord ∧ Drained s'.input := by
  obtain ⟨hset, hzero, hd⟩ := hfields
  refine ⟨⟨setWord, (getLine s.line (readSetFields 2 {} input).2.2).1,
    (getLine s.line (readSetFields 2 {} input).2.2).2⟩, ?_, rfl, getLine_drained hd s.line⟩
  rw [loadSet, hword]
  dsimp only
  rw [hset, hzero]
  rw [throwIf_neg (by simp), ok_bind]
  rfl

/-- After the end of the text every set is the default one, as long as the word is there. -/
theorem loadSet_drained (hd : Drained s.input) (htoken : s.token = setWord) :
    ∃ s', loadSet 2 blockSize s = .ok ({}, s') ∧ s'.token = setWord ∧ Drained s'.input := by
  obtain ⟨hword, hd⟩ := readWord_drained hd s.token
  exact loadSet_of_fields (Prod.ext (hword.trans htoken) rfl) (readSetFields_drained hd {})

theorem loadSets_drained (hd : Drained s.input) (htoken : s.token = setWord) (n : ℕ)
    (acc : List PatternSet) : ∃ s', loadSets 2 blockSize n acc s =
      .ok (acc ++ List.replicate n ({} : PatternSet), s') ∧ Drained s'.input := by
  induction n generalizing acc s with
  | zero => exact ⟨s, by simp [loadSets], hd⟩
  | succ n ih =>
    obtain ⟨s₁, hload, htoken₁, hd₁⟩ := @loadSet_drained blockSize s hd htoken
    obtain ⟨s', hrest, hd'⟩ := ih hd₁ htoken₁ (acc ++ [({} : PatternSet)])
    refine ⟨s', ?_, hd'⟩
    rw [loadSets, hload, ok_bind]
    dsimp only
    rw [hrest, List.append_assoc, List.singleton_append, ← List.replicate_succ]

theorem PatternSet.eq_of_fields {a b : PatternSet} (ht : a.targetSize = b.targetSize)
    (hm : a.metadataBytes = b.metadataBytes) (hp : a.patterns.toList = b.patterns.toList)
    (hb : a.metadataTagBits = b.metadataTagBits) (hv : a.metadataTagValue = b.metadataTagValue) :
    a = b := by
  obtain ⟨_, _, ⟨_, _⟩, _, _⟩ := a
  obtain ⟨_, _, ⟨_, _⟩, _, _⟩ := b
  simp_all

/-- A set whose text is cut is a cut set, and nothing is left to read. -/
theorem loadSet_cut (ht : t <+: setText set) (hne : t ≠ setText set)
    (hs : s.input = .ofText t) (h : loadSet 2 blockSize s = .ok (set', s')) :
    CutSet set set' ∧ s'.token = setWord ∧ Drained s'.input := by
  obtain ⟨hword, line', hpatterns⟩ := loadSet_ok h
  obtain ⟨htoken, htarget, hcount⟩ := loadPatterns_keeps hpatterns
  rw [hs] at hword hpatterns htarget hcount
  rw [setText_fields] at ht hne
  have hstart : fieldsText set (set.patterns.toList.flatMap patternLine) = ' ' :: _ := rfl
  rw [hstart] at ht
  rcases @readWord_cut [] setWord _ t ' ' (by simp) (no_space rfl) rfl (by decide) ht s.token with
    ⟨t', ht', rfl, hread⟩ | ⟨hd, -⟩
  · rw [List.nil_append] at hne
    rw [hread] at hpatterns htarget hcount
    have hpre : ' ' :: t' <+: fieldsText set (set.patterns.toList.flatMap patternLine) :=
      List.cons_prefix_cons.mpr ⟨rfl, ht'⟩
    rcases readSetFields_cut hpre with ⟨lines, hlines, he⟩ | ⟨hd, hfields⟩
    · rw [he, readSetFields_full] at hpatterns htarget
      have hcut : lines ≠ set.patterns.toList.flatMap patternLine := by
        rintro rfl
        exact hne (by rw [he])
      have hline : getLine s.line (.ofText ('\n' :: lines)) = ([], .ofText lines) :=
        @getLine_line [] lines (by simp) s.line
      refine ⟨.later htarget ?_, htoken, loadPatterns_cut hlines hcut (by rw [hline]) hpatterns⟩
      intro hnil
      rw [hnil] at hlines hcut
      exact absurd (List.prefix_nil.mp hlines) hcut
    · refine ⟨?_, htoken, loadPatterns_drained (getLine_drained hd s.line) hpatterns⟩
      rcases hfields with ⟨hcut, hzero⟩ | ⟨ht, hm, hp, hb, hv, hc⟩
      · rw [hcount (by rw [hzero]; rfl)]
        exact hcut
      · refine .later (htarget.trans ht) ?_
        intro hnil hbits hvalue
        rw [hcount (by rw [hc hnil]; rfl)]
        exact PatternSet.eq_of_fields ht hm (hp.trans hnil.symm) ((hb hbits).trans hbits.symm)
          ((hv hvalue).trans hvalue.symm)
  · obtain ⟨hset, hzero, hd⟩ := readSetFields_drained hd ({} : PatternSet)
    rw [hcount (by rw [hzero]; rfl), hset]
    exact ⟨.beforeTarget, htoken, loadPatterns_drained (getLine_drained hd s.line) hpatterns⟩

end Sets

/-! The header. -/

theorem isSpace_newline : ∀ c ∈ ['\n'], isSpace c = true := by simp [isSpace]

theorem headerText_eq (model : Model) (rest : Text) : headerText model ++ rest =
    [] ++ (formatWord ++ ' ' :: (numeral 2 ++ '\n' :: (blockSizeWord ++ ' ' ::
      (numeral model.blockSize.val ++ '\n' :: (setsWord ++ ' ' ::
        (numeral model.sets.length ++ '\n' :: rest)))))) := by
  simp only [headerText, List.append_assoc, List.cons_append, List.nil_append]

/-- A valid model has fewer sets than there are target sizes. -/
theorem length_sets_lt (hv : ValidModel model) : model.sets.length < 2 ^ 64 := by
  have hnodup : (0 :: model.sets.map PatternSet.targetSize).Nodup := by
    refine List.nodup_cons.mpr ⟨?_, hv.targets_nodup⟩
    intro hzero
    obtain ⟨set, hset, he⟩ := List.mem_map.mp hzero
    have hpos := (hv.sets_valid set hset).target_pos
    rw [he] at hpos
    simp at hpos
  have hle := hnodup.length_le_card
  rw [List.length_cons, List.length_map, Fintype.card_fin] at hle
  omega

def setCount (hv : ValidModel model) : SizeT := ⟨model.sets.length, length_sets_lt hv⟩

theorem readWord_line {w : Text} (hw : w ≠ []) (hword : ∀ c ∈ w, isSpace c = false)
    (target rest : Text) : readWord target (.ofText ('\n' :: (w ++ ' ' :: rest))) =
      (w, .ofText (' ' :: rest)) :=
  readWord_entry isSpace_newline hw hword rfl target

theorem readSize_line (n target : SizeT) (rest : Text) :
    readUnsigned 64 target (.ofText (' ' :: (numeral n.val ++ '\n' :: rest))) =
      (n, .ofText ('\n' :: rest)) :=
  readUnsigned_numeral isSpace_blank rfl target

theorem readVersion_line (rest : Text) :
    readInt 0 (.ofText (' ' :: (numeral 2 ++ '\n' :: rest))) = (2, .ofText ('\n' :: rest)) :=
  @readInt_entry [' '] ('\n' :: rest) 2 isSpace_blank (by simp) (by decide) 0

theorem loadHeader_full (hv : ValidModel model) (rest : Text) :
    loadHeader (headerText model ++ rest) =
      .ok (2, model.blockSize, setCount hv, ⟨setsWord, [], .ofText rest⟩) := by
  have hcount : model.sets.length = (setCount hv).val := rfl
  rw [headerText_eq, hcount, loadHeader, readWord_entry (by simp) (by decide) (no_space rfl) rfl]
  dsimp only
  rw [readVersion_line]
  dsimp only
  rw [throwIf_neg (by decide), ok_bind, readWord_line (by decide) (no_space rfl)]
  dsimp only
  rw [readSize_line]
  dsimp only
  rw [throwIf_neg (by simp), ok_bind, readWord_line (by decide) (no_space rfl)]
  dsimp only
  rw [readSize_line]
  dsimp only
  rw [throwIf_neg (by simp), ok_bind]
  rfl

/-- A cut header is refused, or else nothing is left and the last word stays. -/
theorem loadHeader_cut (hv : ValidModel model) (ht : t <+: headerText model)
    (hne : t ≠ headerText model) {header : ℤ × SizeT × SizeT × Loader}
    (h : loadHeader t = .ok header) :
    header.2.2.2.token = setsWord ∧ Drained header.2.2.2.input := by
  have hfull := headerText_eq model []
  rw [List.append_nil] at hfull
  rw [hfull] at ht hne
  have hcount : model.sets.length = (setCount hv).val := rfl
  rw [hcount] at ht hne
  simp only [loadHeader, check_bind_eq_ok, throwIf_eq_ok, not_not, not_or, not_and_or] at h
  obtain ⟨⟨hformat, hversion⟩, hblock, hsets, h⟩ := h
  cases h
  refine ⟨hsets, getLine_drained ?_ []⟩
  rcases readWord_cut (by simp) (no_space rfl) rfl (by decide) ht [] with
    ⟨t₁, ht₁, rfl, h₁⟩ | ⟨hd, -⟩
  · rw [h₁] at hversion hblock hsets ⊢
    dsimp only at hversion hblock hsets ⊢
    rcases readInt_cut isSpace_blank (by decide) rfl (prefix_rest ht₁) 0 with
      ⟨t₂, ht₂, he₂, h₂⟩ | hd
    · rw [h₂] at hblock hsets ⊢
      dsimp only at hblock hsets ⊢
      rcases readWord_cut isSpace_newline (no_space rfl) rfl (by decide) (prefix_rest ht₂)
          formatWord with ⟨t₃, ht₃, he₃, h₃⟩ | ⟨hd, -⟩
      · rw [h₃] at hsets ⊢
        dsimp only at hsets ⊢
        rcases readUnsigned_cut isSpace_blank rfl (prefix_rest ht₃) 64 with
          ⟨t₄, ht₄, he₄, h₄⟩ | ⟨hd, -⟩
        · rw [h₄]
          dsimp only
          rcases readWord_cut isSpace_newline (no_space rfl) rfl (by decide) (prefix_rest ht₄)
              blockSizeWord with ⟨t₅, ht₅, he₅, h₅⟩ | ⟨hd, -⟩
          · rw [h₅]
            rcases readUnsigned_cut isSpace_blank rfl (prefix_rest ht₅) 0 with
              ⟨t₆, ht₆, he₆, -⟩ | ⟨hd, -⟩
            · refine absurd ?_ hne
              rw [List.prefix_nil.mp ht₆] at he₆
              rw [(List.cons.inj he₂).2, (List.cons.inj he₃).2, (List.cons.inj he₄).2,
                (List.cons.inj he₅).2, (List.cons.inj he₆).2]
              rfl
            · exact hd
          · exact (readUnsigned_drained hd 0).2
        · rw [(readWord_drained hd blockSizeWord).1] at hsets
          exact absurd hsets (by decide)
      · rw [hblock, (readWord_drained (readUnsigned_drained hd 64).2 blockSizeWord).1] at hsets
        exact absurd hsets (by decide)
    · rw [(readWord_drained hd formatWord).1] at hblock
      exact absurd hblock (by decide)
  · rw [(readInt_drained hd 0).1] at hversion
    simp at hversion

end ByteSelect
