import ByteSelect.Rtl
import ByteSelect.Metadata

/-! The generated texts are those of the modules. -/
namespace ByteSelect

open SystemVerilog Ident

variable {model : Model} {set : PatternSet} {blockSize : SizeT}

@[simp] theorem forEach_nil {α : Type} (f : α → Text) : forEach [] f = [] := rfl

@[simp] theorem forEach_cons {α : Type} (a : α) (l : List α) (f : α → Text) :
    forEach (a :: l) f = f a ++ forEach l f := rfl

@[simp] theorem forEach_append {α : Type} (l l' : List α) (f : α → Text) :
    forEach (l ++ l') f = forEach l f ++ forEach l' f := List.flatMap_append

@[simp] theorem forEach_map {α γ : Type} (l : List γ) (g : γ → α) (f : α → Text) :
    forEach (l.map g) f = forEach l fun x => f (g x) := by
  simp [forEach, List.flatMap_map]

theorem forEach_flatMap {α γ : Type} (l : List γ) (g : γ → List α) (f : α → Text) :
    forEach (l.flatMap g) f = forEach l fun x => forEach (g x) f := by
  simp [forEach, List.flatMap_assoc]

/-! Adjacent literals are merged, so that both sides have the same maximal literals. -/

theorem literal_append (a b : String) : literal a ++ literal b = literal (a ++ b) := by
  unfold literal
  exact String.toList_append.symm

theorem literal_append_assoc (a b : String) (x : Text) :
    literal a ++ (literal b ++ x) = literal (a ++ b) ++ x := by
  rw [← literal_append, List.append_assoc]

theorem forEach_filter {α : Type} (l : List α) (c : α → Bool) (f : α → Text) :
    forEach (l.filter c) f = forEach l fun x => if c x then f x else [] := by
  induction l with
  | nil => rfl
  | cons x l ih =>
    rw [List.filter_cons, forEach_cons]
    split
    · rw [forEach_cons, ih]
    · rw [ih, List.nil_append]

def pairText (x : ℕ × ℕ) : Text :=
  " && (block_i[" ++ num (bit x.1) ++ " +: 8] == block_i[" ++ num (bit x.2) ++ " +: 8])"

/-- The guard is printed pair by pair. -/
theorem guardExpr_text (pattern : Pattern) :
    (guardExpr pattern).text Ident.text = "1'b1" ++ forEach (guardPairs pattern) pairText := by
  have hchain : ∀ (l : List (ℕ × ℕ)) (e : Expr Ident),
      (l.foldl (fun e x => Expr.and e (.paren (.eq (.byteAt blockI (bit x.1))
        (.byteAt blockI (bit x.2))))) e).text Ident.text =
      e.text Ident.text ++ forEach l pairText := by
    intro l
    induction l with
    | nil => simp
    | cons x l ih =>
      intro e
      rw [List.foldl_cons, ih, forEach_cons]
      simp only [Expr.text, Ident.text, Ident.base, Ident.index, indexText, pairText,
        List.append_assoc, List.nil_append, literal_append_assoc, String.reduceAppend]
  exact hchain _ _

theorem guardPairs_text (pattern : Pattern) :
    forEach (guardPairs pattern) pairText = forEach pattern.symbols.zipIdx fun (symbol, i) =>
      let representative := (firstPositions pattern).getD symbol.val 0
      if i ≠ representative then
        " && (block_i[" ++ num (bit i) ++ " +: 8] == block_i[" ++ num (bit representative) ++
          " +: 8])"
      else [] := by
  rw [guardPairs, forEach_filter, forEach_map]
  simp only [decide_eq_true_eq, pairText]

theorem encode_idOf (h : ValidSet blockSize set) {p : ℕ} (hp : p < set.patterns.size) :
    encodePatternMetadata set p = .ok (idOf set p) := by
  rw [idOf, h.encode_ok hp]

theorem compressorPatterns_text (h : ValidSet blockSize set) {p : ℕ} (patterns : List Pattern)
    (hp : p + patterns.length ≤ set.patterns.size) :
    compressorPatterns set (set.metadataBytes * 8) p patterns =
      .ok (forEach (patterns.zipIdx p) fun x => (compressorStmt set x).text Ident.text) := by
  induction patterns generalizing p with
  | nil => rfl
  | cons pattern patterns ih =>
    rw [List.length_cons] at hp
    have hk : p < set.patterns.size := by omega
    have hrest := ih (p := p + 1) (by omega)
    rw [compressorPatterns, encode_idOf h hk, hrest, ← guardPairs_text]
    simp only [ok_bind, pure, Except.pure, List.zipIdx_cons, forEach_cons, forEach_map,
      compressorStmt, compressorBody, Stmt.text, Expr.text, guardExpr_text, Assign.text,
      Target.text, Ident.text, Ident.base, Ident.index, indexText, List.append_assoc,
      List.nil_append, literal_append, literal_append_assoc, String.reduceAppend, if_true]

theorem decompressorPatterns_text (h : ValidSet blockSize set) {p : ℕ} (patterns : List Pattern)
    (hp : p + patterns.length ≤ set.patterns.size) :
    decompressorPatterns set (set.metadataBytes * 8) p patterns =
      .ok (forEach (patterns.zipIdx p) fun x => "      " ++
        (decompressorArm set x).1.text Ident.text ++ ":" ++
        (decompressorArm set x).2.text Ident.text) := by
  induction patterns generalizing p with
  | nil => rfl
  | cons pattern patterns ih =>
    rw [List.length_cons] at hp
    have hk : p < set.patterns.size := by omega
    have hrest := ih (p := p + 1) (by omega)
    rw [decompressorPatterns, encode_idOf h hk, hrest]
    simp only [ok_bind, pure, Except.pure, List.zipIdx_cons, forEach_cons, forEach_map,
      decompressorArm, Arm.text, Expr.text, Assign.text, Target.text, Ident.text, Ident.base,
      Ident.index, indexText, List.append_assoc, List.nil_append, literal_append,
      literal_append_assoc, String.reduceAppend]

theorem separated_cons_cons {α : Type} (separator : Text) (a b : α) (l : List α) (f : α → Text) :
    separated separator (a :: b :: l) f = f a ++ separator ++ separated separator (b :: l) f := by
  simp [separated, List.intercalate]

theorem separated_singleton {α : Type} (separator : Text) (a : α) (f : α → Text) :
    separated separator [a] f = f a := by
  simp [separated, List.intercalate]

theorem generateCompressorSv_text {i : ℕ} (hv : validateModel model = .ok ())
    (hset : model.sets[i]? = some set) : generateCompressorSv model i =
      makeString ((compressorModule model set i).text Ident.text) := by
  have hvs := (validateModel_iff.mp hv).sets_valid set (List.mem_of_getElem? hset)
  have hpatterns := compressorPatterns_text hvs set.patterns.toList (p := 0)
    (Nat.zero_add _).le
  rw [generateCompressorSv, hv, ok_bind, hset]
  dsimp only
  rw [hpatterns, ok_bind]
  simp only [compressorModule, Module.text, separated_cons_cons, separated_singleton, Port.text,
    directionText, rangeText, Item.text, Stmt.text, Assign.text, Target.text, Expr.text,
    Ident.text, Ident.base, Ident.index, indexText, forEach_cons, forEach_nil, forEach_map,
    List.append_assoc, List.append_nil, literal_append, literal_append_assoc,
    String.reduceAppend, if_true, if_false, Bool.false_eq_true]

theorem num_15 : num 15 = literal "15" := by
  unfold literal
  rfl

theorem num_16 : num 16 = literal "16" := by
  unfold literal
  rfl

theorem generateDecompressorSv_text {i : ℕ} (hv : validateModel model = .ok ())
    (hset : model.sets[i]? = some set) : generateDecompressorSv model i =
      makeString ((decompressorModule model set i).text Ident.text) := by
  have hvs := (validateModel_iff.mp hv).sets_valid set (List.mem_of_getElem? hset)
  have hpatterns := decompressorPatterns_text hvs set.patterns.toList (p := 0)
    (Nat.zero_add _).le
  rw [generateDecompressorSv, hv, ok_bind, hset]
  dsimp only
  rw [hpatterns, ok_bind]
  simp only [decompressorModule, Module.text, separated_cons_cons, separated_singleton, Port.text,
    directionText, rangeText, Item.text, Stmt.text, Arm.text, Assign.text, Target.text, Expr.text,
    Ident.text, Ident.base, Ident.index, indexText, forEach_cons, forEach_nil, forEach_map,
    List.append_assoc, List.append_nil, literal_append, literal_append_assoc,
    String.reduceAppend, if_true, if_false, Bool.false_eq_true]

theorem generateTopCompressorSv_text (hv : validateModel model = .ok ()) :
    generateTopCompressorSv model = makeString ((topCompressorModule model).text Ident.text) := by
  rw [generateTopCompressorSv, hv, ok_bind]
  simp only [topCompressorModule, compressorItems, selectStmt, selectBody, Module.text,
    separated_cons_cons, separated_singleton, Port.text, directionText, rangeText, Item.text,
    Stmt.text, Assign.text, Target.text, Expr.text, Ident.text, Ident.base, Ident.index,
    indexText, forEach_cons,
    forEach_nil, forEach_append, forEach_map, forEach_flatMap, List.map_cons, List.map_nil,
    List.cons_append, List.append_assoc, List.nil_append, List.append_nil, num_15, num_16,
    literal_append, literal_append_assoc, String.reduceAppend, if_true, if_false,
    Bool.false_eq_true]

theorem generateTopDecompressorSv_text (hv : validateModel model = .ok ()) :
    generateTopDecompressorSv model =
      makeString ((topDecompressorModule model).text Ident.text) := by
  rw [generateTopDecompressorSv, hv, ok_bind]
  simp only [topDecompressorModule, decompressorItems, decompressorInputs, targetArm,
    Module.text, separated_cons_cons, separated_singleton, Port.text, directionText, rangeText,
    Item.text, Stmt.text, Arm.text, Assign.text, Target.text, Expr.text, Ident.text, Ident.base,
    Ident.index, indexText, forEach_cons, forEach_nil, forEach_append, forEach_map, forEach_flatMap,
    List.map_cons, List.map_nil, List.cons_append, List.append_assoc, List.nil_append,
    List.append_nil, num_15, num_16, literal_append, literal_append_assoc, String.reduceAppend,
    if_true, if_false, Bool.false_eq_true]

/-! Names. -/

theorem num_injective : Function.Injective num := by
  intro m n h
  have hread := congrArg (Nat.ofDigitChars 10 · 0) h
  simpa only [num, Nat.ofDigitChars_ten_toDigits] using hread

theorem isDigit_of_mem_indexText {o : Option ℕ} {c : Char} (h : c ∈ indexText o) :
    c.isDigit = true := by
  cases o with
  | none => cases h
  | some n => exact Nat.isDigit_of_mem_toDigits (by decide) (by decide) h

theorem indexText_injective : Function.Injective indexText := by
  intro o o' h
  cases o with
  | none =>
    cases o' with
    | none => rfl
    | some n => exact absurd h.symm Nat.toDigits_ne_nil
  | some m =>
    cases o' with
    | none => exact absurd h Nat.toDigits_ne_nil
    | some n => exact congrArg some (num_injective h)

/-- Trailing digits can be split off in one way only. -/
theorem split_digits {a b d e : Text} (h : a ++ d = b ++ e)
    (ha : ∀ c ∈ a.getLast?, c.isDigit = false) (hb : ∀ c ∈ b.getLast?, c.isDigit = false)
    (hd : ∀ c ∈ d, c.isDigit = true) (he : ∀ c ∈ e, c.isDigit = true) : a = b ∧ d = e := by
  have hstep : ∀ (l m : Text), (∀ c ∈ (l ++ m).getLast?, c.isDigit = false) →
      (∀ c ∈ m, c.isDigit = true) → m = [] := by
    intro l m hlast hm
    by_contra hne
    have hdigit := hm _ (List.getLast_mem hne)
    have hend : m.getLast hne ∈ (l ++ m).getLast? := by
      rw [List.getLast?_append, List.getLast?_eq_some_getLast hne]
      rfl
    rw [hlast _ hend] at hdigit
    cases hdigit
  rcases List.append_eq_append_iff.mp h with ⟨m, rfl, rfl⟩ | ⟨m, rfl, rfl⟩
  · have hm := hstep a m hb fun c hc => hd c (List.mem_append_left _ hc)
    simp [hm]
  · have hm := hstep b m ha fun c hc => he c (List.mem_append_left _ hc)
    simp [hm]

theorem base_not_digit (x : Ident) : ∀ c ∈ (literal x.base).getLast?, c.isDigit = false := by
  have hall : (literal x.base).getLast?.all (fun c => !c.isDigit) = true := by
    unfold literal
    cases x <;> simp only [Ident.base] <;> decide
  intro c hc
  simpa using (Option.all_eq_true _ _).mp hall c hc

theorem eq_of_base_index {x y : Ident} (hb : x.base = y.base) (hi : x.index = y.index) : x = y := by
  cases x <;> cases y <;> simp_all [Ident.base, Ident.index]

/-- Different identifiers have different names in the text. -/
theorem ident_text_injective : Function.Injective Ident.text := by
  intro x y h
  obtain ⟨hbase, hindex⟩ := split_digits h (base_not_digit x) (base_not_digit y)
    (fun _ => isDigit_of_mem_indexText) (fun _ => isDigit_of_mem_indexText)
  apply eq_of_base_index _ (indexText_injective hindex)
  unfold literal at hbase
  exact String.toList_injective hbase

end ByteSelect
