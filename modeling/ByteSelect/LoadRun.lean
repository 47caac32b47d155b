import ByteSelect.ModelIO
import Mathlib.Logic.Relation

/-! The loops of `load_model` turn by turn: how far they can run ahead of the text. -/
namespace ByteSelect

open TextStream
open Relation (ReflTransGen)

/-- The set line that starts a turn of the loop over the sets. -/
def setHead (version : ℤ) (s : Loader) : Except Error (PatternSet × SizeT × Loader) := do
  let (token, input) := readWord s.token s.input
  let (set, patternCount, input) := readSetFields version {} input
  throwIf (token ≠ setWord) (.runtimeError "missing set")
  let (line, input) := getLine s.line input
  return (set, patternCount, ⟨token, line, input⟩)

/-- One turn of the loop over the patterns. -/
def patternTurn (blockSize : SizeT) (set : PatternSet) (s : Loader) :
    Except Error (PatternSet × Loader) := do
  let (line, input) := getLine s.line s.input
  throwIf (¬ patternPrefix <+: line) (.runtimeError "missing pattern")
  let pattern ← Pattern.parse (line.drop patternPrefix.length)
  throwIf (pattern.size ≠ blockSize) (.runtimeError "model pattern has incorrect block size")
  let patterns ← pushBack set.patterns pattern
  return ({ set with patterns }, ⟨s.token, line, input⟩)

/-- Where the loops stand: before a set with so many to go, or in a set before a pattern. -/
inductive Stage where
  | sets (left : ℕ) (loaded : List PatternSet) (s : Loader)
  | patterns (setsLeft : ℕ) (loaded : List PatternSet) (set : PatternSet) (left : ℕ) (s : Loader)

inductive Turn (version : ℤ) (blockSize : SizeT) : Stage → Stage → Prop
  | set {n : ℕ} {loaded : List PatternSet} {s s' : Loader} {set : PatternSet} {count : SizeT}
      (h : setHead version s = .ok (set, count, s')) :
      Turn version blockSize (.sets (n + 1) loaded s) (.patterns n loaded set count.val s')
  | pattern {n k : ℕ} {loaded : List PatternSet} {s s' : Loader} {set set' : PatternSet}
      (h : patternTurn blockSize set s = .ok (set', s')) :
      Turn version blockSize (.patterns n loaded set (k + 1) s) (.patterns n loaded set' k s')
  | push {n : ℕ} {loaded : List PatternSet} {s : Loader} {set : PatternSet} :
      Turn version blockSize (.patterns n loaded set 0 s) (.sets n (loaded ++ [set]) s)

def Stage.setCount : Stage → ℕ
  | .sets _ loaded _ => loaded.length
  | .patterns _ loaded _ _ _ => loaded.length

def Stage.patternCount : Stage → ℕ
  | .sets _ loaded _ => (loaded.map (·.patterns.size)).sum
  | .patterns _ loaded set _ _ => (loaded.map (·.patterns.size)).sum + set.patterns.size

variable {version : ℤ} {blockSize : SizeT} {stage stage' : Stage} {n k : ℕ}
  {loaded loaded' : List PatternSet} {set set' : PatternSet} {s s' : Loader} {text : Text}

/-! The turns are those of the loops. -/

theorem loadSets_turn : loadSets version blockSize (n + 1) loaded s = (do
    let (set, count, s) ← setHead version s
    let (set, s) ← loadPatterns blockSize count.val set s
    loadSets version blockSize n (loaded ++ [set]) s) := by
  rw [loadSets, loadSet, setHead]
  simp only [bind_assoc, pure_bind]

theorem loadPatterns_turn : loadPatterns blockSize (k + 1) set s = (do
    let (set, s) ← patternTurn blockSize set s
    loadPatterns blockSize k set s) := by
  rw [loadPatterns, patternTurn]
  simp only [bind_assoc, pure_bind]

/-- Loops that return do so after some run of turns. -/
theorem run_of_loadSets (h : loadSets version blockSize n loaded s = .ok (loaded', s')) :
    ReflTransGen (Turn version blockSize) (.sets n loaded s) (.sets 0 loaded' s') := by
  have hpatterns : ∀ (k n : ℕ) (loaded : List PatternSet) (set : PatternSet) (s : Loader)
      (set' : PatternSet) (s' : Loader), loadPatterns blockSize k set s = .ok (set', s') →
      ReflTransGen (Turn version blockSize) (.patterns n loaded set k s)
        (.sets n (loaded ++ [set']) s') := by
    intro k
    induction k with
    | zero =>
      intro n loaded set s set' s' hrun
      cases hrun
      exact .single .push
    | succ k ih =>
      intro n loaded set s set' s' hrun
      rw [loadPatterns_turn, bind_eq_ok] at hrun
      obtain ⟨⟨set₁, s₁⟩, hturn, hrest⟩ := hrun
      exact .head (.pattern hturn) (ih n loaded set₁ s₁ set' s' hrest)
  induction n generalizing loaded s with
  | zero =>
    cases h
    exact .refl
  | succ n ih =>
    rw [loadSets_turn, bind_eq_ok] at h
    obtain ⟨⟨set, count, s₁⟩, hhead, h⟩ := h
    dsimp only at h
    rw [bind_eq_ok] at h
    obtain ⟨⟨set₁, s₂⟩, hset, h⟩ := h
    exact (ReflTransGen.head (.set hhead) (hpatterns _ n loaded set s₁ set₁ s₂ hset)).trans (ih h)

/-! Turns that read what they check. -/

/-- The turn checks what it has just read, or what it checks is not what it looks for. -/
def Stage.Fresh : Stage → Prop
  | .sets 0 _ _ => True
  | .sets (_ + 1) _ s =>
    s.input.good = true ∧ (∃ c ∈ s.input.rest, isSpace c = false) ∨ s.token ≠ setWord
  | .patterns _ _ _ 0 _ => True
  | .patterns _ _ _ (_ + 1) s => s.input.good = true ∨ ¬ patternPrefix <+: s.line

/-- The words `set` and the pattern lines of a text. -/
def setWords (text : Text) : ℕ := (wordsOf text).count setWord
def patternLines (text : Text) : ℕ := (linesOf text).countP fun line => patternPrefix <+: line

/-- What a stream can still give. -/
def leftOf (count : Text → ℕ) (input : IStream) : ℕ := if input.good then count input.rest else 0

/-- What has been taken, together with what is left, is in the text. -/
structure Within (text : Text) (sets patterns : ℕ) (input : IStream) : Prop where
  sets : sets + leftOf setWords input ≤ setWords text
  patterns : patterns + leftOf patternLines input ≤ patternLines text

theorem setWords_append (t rest : Text) :
    setWords (t ++ '\n' :: rest) = setWords t + setWords rest := by
  rw [setWords, wordsOf_append rfl, List.count_append]
  rfl

theorem patternLines_append (t rest : Text) :
    patternLines (t ++ '\n' :: rest) = patternLines t + patternLines rest := by
  rw [patternLines, linesOf_append, List.countP_append]
  rfl

/-- Behind the end of a line there is no more left than in the text before it. -/
theorem leftOf_getLine_le {count : Text → ℕ} {rest : Text} {input : IStream} (line : Text)
    (hcount : ∀ t rest, count (t ++ '\n' :: rest) = count t + count rest)
    (h : input.rest <:+ rest) : leftOf count (getLine line input).2 ≤ count rest := by
  by_cases hend : (getLine line input).2.good = true
  · obtain ⟨front, rfl⟩ := h
    rw [leftOf, if_pos hend, (getLine_good hend).2.2, ← List.append_assoc, hcount]
    exact Nat.le_add_left _ _
  · rw [leftOf, if_neg hend]
    exact Nat.zero_le _

theorem readSetFields_suffix (version : ℤ) (set : PatternSet) (input : IStream) :
    (readSetFields version set input).2.2.rest <:+ input.rest := by
  have htwo := (readUnsigned_suffix 64 set.metadataBytes
    (readUnsigned 64 set.targetSize input).2).trans (readUnsigned_suffix 64 set.targetSize input)
  unfold readSetFields
  dsimp only
  refine (readUnsigned_suffix _ _ _).trans ?_
  by_cases hversion : version = 2
  · simp only [if_pos hversion]
    exact ((readUnsigned_suffix _ _ _).trans (readUnsigned_suffix _ _ _)).trans htwo
  · simp only [if_neg hversion]
    exact htwo

/-- A set line that is accepted starts with the word `set`, read now or kept from before. -/
theorem setHead_spec {count : SizeT} (h : setHead version s = .ok (set, count, s')) :
    (readWord s.token s.input).1 = setWord ∧ set.patterns.size = 0 ∧
      ∃ input, input.rest <:+ (readWord s.token s.input).2.rest ∧
        s'.input = (getLine s.line input).2 := by
  rw [setHead] at h
  dsimp only at h
  rw [check_bind_eq_ok, throwIf_eq_ok] at h
  obtain ⟨htoken, h⟩ := h
  cases h
  exact ⟨not_not.mp htoken, rfl, _, readSetFields_suffix _ _ _, rfl⟩

theorem patternTurn_spec (h : patternTurn blockSize set s = .ok (set', s')) :
    patternPrefix <+: (getLine s.line s.input).1 ∧ s'.input = (getLine s.line s.input).2 ∧
      set'.patterns.size = set.patterns.size + 1 := by
  rw [patternTurn] at h
  dsimp only at h
  rw [check_bind_eq_ok, throwIf_eq_ok] at h
  obtain ⟨hstart, h⟩ := h
  rw [bind_eq_ok] at h
  obtain ⟨pattern, -, h⟩ := h
  rw [check_bind_eq_ok] at h
  obtain ⟨-, h⟩ := h
  rw [bind_eq_ok] at h
  obtain ⟨patterns, hpush, h⟩ := h
  cases h
  refine ⟨not_not.mp hstart, rfl, ?_⟩
  unfold pushBack at hpush
  split at hpush
  · cases hpush
    simp [Vec.size]
  · cases hpush

theorem getLine_stale {input : IStream} {line : Text} (h : ¬ input.good = true) :
    (getLine line input).1 = line := by
  rw [getLine, if_neg h]

theorem patternLines_line {line : Text} (hline : ∀ c ∈ line, c ≠ '\n')
    (hstart : patternPrefix <+: line) : patternLines line = 1 := by
  rw [patternLines, linesOf_line hline, List.countP_singleton, if_pos (decide_eq_true hstart)]

/-- A pattern line that was read is one of those that were left. -/
theorem leftOf_getLine {input : IStream} {line : Text} (hg : input.good = true)
    (hstart : patternPrefix <+: (getLine line input).1) :
    leftOf patternLines (getLine line input).2 + 1 ≤ leftOf patternLines input := by
  have hleft : leftOf patternLines input = patternLines input.rest := if_pos hg
  rw [hleft]
  by_cases hend : (getLine line input).2.good = true
  · obtain ⟨-, hline, hrest⟩ := getLine_good hend
    rw [leftOf, if_pos hend, hrest, patternLines_append, patternLines_line hline hstart]
    omega
  · obtain ⟨hrest, hline⟩ := getLine_rest hg hend
    rw [hrest] at hstart
    rw [leftOf, if_neg hend, patternLines_line hline hstart]

/-- What each stage keeps: a set whose line is accepted has taken its word. -/
def Stage.Inv (text : Text) : Stage → Prop
  | .sets n loaded s =>
    Within text loaded.length (Stage.sets n loaded s).patternCount s.input
  | .patterns n loaded set k s =>
    Within text (loaded.length + 1) (Stage.patterns n loaded set k s).patternCount s.input

theorem Stage.Inv.counts (h : stage.Inv text) :
    stage.setCount ≤ setWords text ∧ stage.patternCount ≤ patternLines text := by
  cases stage with
  | sets n loaded s =>
    have hsets := h.sets
    have hpatterns := h.patterns
    constructor
    · exact (Nat.le_add_right _ _).trans hsets
    · exact (Nat.le_add_right _ _).trans hpatterns
  | patterns n loaded set k s =>
    have hsets := h.sets
    have hpatterns := h.patterns
    constructor
    · exact (Nat.le_add_right _ _).trans ((Nat.le_add_right _ _).trans hsets)
    · exact (Nat.le_add_right _ _).trans hpatterns

theorem inv_set {count : SizeT} (h : setHead version s = .ok (set, count, s'))
    (hfresh : (Stage.sets (n + 1) loaded s).Fresh)
    (hinv : (Stage.sets (n + 1) loaded s).Inv text) :
    (Stage.patterns n loaded set count.val s').Inv text := by
  obtain ⟨htoken, hempty, input, hsuffix, hinput⟩ := setHead_spec h
  have hread : s.input.good = true ∧ ∃ c ∈ s.input.rest, isSpace c = false := by
    rcases hfresh with hread | hstale
    · exact hread
    · by_contra hnone
      exact hstale ((readWord_stale s.token hnone).symm.trans htoken)
  have hwords := readWord_word s.token hread.1 hread.2
  have hleft : ∀ count : Text → ℕ, leftOf count s.input = count s.input.rest :=
    fun _ => if_pos hread.1
  have hsets := hinv.sets
  have hpatterns := hinv.patterns
  rw [hleft] at hsets hpatterns
  constructor
  · have hrest := leftOf_getLine_le s.line setWords_append hsuffix
    rw [← hinput] at hrest
    rw [setWords, hwords, htoken, List.count_cons_self] at hsets
    unfold setWords at hrest ⊢ hsets
    omega
  · have hrest := leftOf_getLine_le s.line patternLines_append
      (hsuffix.trans (readWord_suffix s.token s.input))
    rw [← hinput] at hrest
    unfold Stage.patternCount at hpatterns ⊢
    dsimp only at hpatterns ⊢
    omega

theorem inv_pattern (h : patternTurn blockSize set s = .ok (set', s'))
    (hfresh : (Stage.patterns n loaded set (k + 1) s).Fresh)
    (hinv : (Stage.patterns n loaded set (k + 1) s).Inv text) :
    (Stage.patterns n loaded set' k s').Inv text := by
  obtain ⟨hstart, hinput, hsize⟩ := patternTurn_spec h
  have hgood : s.input.good = true := by
    rcases hfresh with hgood | hstale
    · exact hgood
    · by_contra hbad
      rw [getLine_stale hbad] at hstart
      exact hstale hstart
  have hsets := hinv.sets
  have hpatterns := hinv.patterns
  constructor
  · have hrest := leftOf_getLine_le s.line setWords_append
      (List.suffix_rfl (l := s.input.rest))
    rw [leftOf, if_pos hgood] at hsets
    rw [hinput]
    exact (Nat.add_le_add_left hrest _).trans hsets
  · have hline := leftOf_getLine hgood hstart
    rw [hinput]
    unfold Stage.patternCount at hpatterns ⊢
    dsimp only at hpatterns ⊢
    omega

theorem inv_push (hinv : (Stage.patterns n loaded set 0 s).Inv text) :
    (Stage.sets n (loaded ++ [set]) s).Inv text := by
  have hsets := hinv.sets
  have hpatterns := hinv.patterns
  unfold Stage.patternCount at hpatterns
  constructor
  · rw [List.length_append]
    exact hsets
  · unfold Stage.patternCount
    simpa using hpatterns

theorem inv_turn (h : Turn version blockSize stage stage') (hfresh : stage.Fresh)
    (hinv : stage.Inv text) : stage'.Inv text := by
  cases h with
  | set h => exact inv_set h hfresh hinv
  | pattern h => exact inv_pattern h hfresh hinv
  | push => exact inv_push hinv

theorem loadHeader_spec {setCount : SizeT}
    (h : loadHeader text = .ok (version, blockSize, setCount, s)) :
    ∃ input, input.rest <:+ text ∧ s.input = (getLine [] input).2 := by
  rw [loadHeader] at h
  dsimp only at h
  rw [check_bind_eq_ok] at h
  obtain ⟨-, h⟩ := h
  rw [check_bind_eq_ok] at h
  obtain ⟨-, h⟩ := h
  rw [check_bind_eq_ok] at h
  obtain ⟨-, h⟩ := h
  cases h
  refine ⟨_, ?_, rfl⟩
  apply (readUnsigned_suffix _ _ _).trans
  apply (readWord_suffix _ _).trans
  apply (readUnsigned_suffix _ _ _).trans
  apply (readWord_suffix _ _).trans
  apply (readInt_suffix _ _).trans
  exact readWord_suffix [] (.ofText text)

theorem inv_loadHeader {setCount : SizeT}
    (h : loadHeader text = .ok (version, blockSize, setCount, s)) :
    (Stage.sets setCount.val [] s).Inv text := by
  obtain ⟨input, hsuffix, hinput⟩ := loadHeader_spec h
  constructor
  · rw [hinput, List.length_nil, Nat.zero_add]
    exact leftOf_getLine_le [] setWords_append hsuffix
  · rw [hinput, Stage.patternCount, List.map_nil, List.sum_nil, Nat.zero_add]
    exact leftOf_getLine_le [] patternLines_append hsuffix

/-- As long as every turn checks what it has just read, the loops stay behind the text. -/
theorem load_counts {setCount : SizeT}
    (hheader : loadHeader text = .ok (version, blockSize, setCount, s))
    (hrun : ReflTransGen (fun a b => a.Fresh ∧ Turn version blockSize a b)
      (.sets setCount.val [] s) stage) :
    stage.setCount ≤ setWords text ∧ stage.patternCount ≤ patternLines text := by
  have hinv : stage.Inv text := by
    induction hrun with
    | refl => exact inv_loadHeader hheader
    | tail _ hturn ih => exact inv_turn hturn.2 hturn.1 ih
  exact hinv.counts

/-! Turns that read nothing. -/

theorem readSetFields_failed {input : IStream} (h : input.good = false) :
    readSetFields version {} input = ({}, 0, { input with fail := true }) := by
  have hfailed : ∀ target : SizeT,
      readUnsigned 64 target input = (target, { input with fail := true }) := by
    intro target
    rw [readUnsigned, formatted, if_neg (by simp [h])]
  have hagain : ∀ target : SizeT, readUnsigned 64 target { input with fail := true } =
      (target, { input with fail := true }) := by
    intro target
    rw [readUnsigned, formatted, if_neg (by simp [IStream.good])]
  unfold readSetFields
  by_cases hversion : version = 2 <;> simp [hversion, hfailed, hagain]

/-- Once the stream has failed, the kept word `set` passes for as many sets as are declared. -/
theorem loadSets_failed (hbad : s.input.good = false) (htoken : s.token = setWord) :
    ∃ s', loadSets version blockSize n loaded s =
      .ok (loaded ++ List.replicate n ({} : PatternSet), s') := by
  induction n generalizing loaded s with
  | zero => exact ⟨s, by rw [List.replicate_zero, List.append_nil]; rfl⟩
  | succ n ih =>
    have hfailed : ({ s.input with fail := true } : IStream).good = false := by
      simp [IStream.good]
    have hword : readWord s.token s.input = (s.token, { s.input with fail := true }) := by
      rw [readWord, formatted, if_neg (by simp [hbad])]
    have hline : getLine s.line { s.input with fail := true } =
        (s.line, { s.input with fail := true }) := by
      rw [getLine, if_neg (by simp [hfailed])]
    have hhead : setHead version s =
        .ok ({}, 0, ⟨s.token, s.line, { s.input with fail := true }⟩) := by
      rw [setHead, hword]
      dsimp only
      rw [readSetFields_failed hfailed, throwIf_neg (not_not.mpr htoken), hline]
      rfl
    obtain ⟨s', hrun⟩ := @ih (loaded ++ [({} : PatternSet)])
      ⟨s.token, s.line, { s.input with fail := true }⟩ hfailed htoken
    refine ⟨s', ?_⟩
    rw [loadSets_turn, hhead, ok_bind, List.replicate_succ]
    rw [List.append_assoc] at hrun
    exact hrun

/-! A text whose turns all find what they look for. -/

def freshText : Text :=
  "BSEL_MODEL 2\nblock_size 2\nsets 1\nset 2 1 0 0 1\npattern 0 0\n".toList

/-- A set and its pattern, each of which is there. -/
theorem freshText_load_counts :
    (Stage.sets 0 [{ targetSize := 2, patterns := ⟨[.ofSymbols [0, 0]], by decide⟩ }]
      ⟨setWord, "pattern 0 0".toList, .ofText []⟩).setCount ≤ setWords freshText ∧
    (Stage.sets 0 [{ targetSize := 2, patterns := ⟨[.ofSymbols [0, 0]], by decide⟩ }]
      ⟨setWord, "pattern 0 0".toList, .ofText []⟩).patternCount ≤ patternLines freshText := by
  have hheader : loadHeader freshText = .ok (2, 2, 1,
      ⟨setsWord, [], .ofText "set 2 1 0 0 1\npattern 0 0\n".toList⟩) := by decide
  have hset : setHead 2 ⟨setsWord, [], .ofText "set 2 1 0 0 1\npattern 0 0\n".toList⟩ =
      .ok ({ targetSize := 2 }, 1, ⟨setWord, [], .ofText "pattern 0 0\n".toList⟩) := by decide
  have hpattern : patternTurn 2 { targetSize := 2 }
      ⟨setWord, [], .ofText "pattern 0 0\n".toList⟩ =
      .ok ({ targetSize := 2, patterns := ⟨[.ofSymbols [0, 0]], by decide⟩ },
        ⟨setWord, "pattern 0 0".toList, .ofText []⟩) := by decide
  refine load_counts hheader (.tail (.tail (.tail .refl ⟨?_, .set hset⟩) ⟨?_, .pattern hpattern⟩)
    ⟨trivial, .push⟩)
  · exact .inr (by decide)
  · exact .inl rfl

/-! A set line that is not there is read five times. -/

def staleText : Text := "BSEL_MODEL 2\nblock_size 4\nsets 5\nset 3".toList

theorem not_load_counts : ¬ ∀ (text : Text) (version : ℤ) (blockSize setCount : SizeT) (s : Loader)
    (stage : Stage), loadHeader text = .ok (version, blockSize, setCount, s) →
    ReflTransGen (Turn version blockSize) (.sets setCount.val [] s) stage →
    stage.setCount ≤ setWords text ∧ stage.patternCount ≤ patternLines text := by
  intro h
  have hheader : loadHeader staleText =
      .ok (2, 4, 5, ⟨setsWord, [], .ofText "set 3".toList⟩) := by decide
  have hload : loadSets 2 4 5 [] ⟨setsWord, [], .ofText "set 3".toList⟩ =
      .ok ([{ targetSize := 3 }, {}, {}, {}, {}], ⟨setWord, [], ⟨[], true, true⟩⟩) := by decide
  have hcounts := h staleText 2 4 5 _ _ hheader (run_of_loadSets hload)
  exact absurd hcounts.1 (by decide)

end ByteSelect
