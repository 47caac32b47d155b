import ByteSelect.Widths
import Mathlib.Algebra.Group.Int.Defs
import Mathlib.Data.Fin.Basic
import Mathlib.Data.List.TakeWhile

/-! Formatted input streams: white space, words, decimal numerals and lines. -/
namespace TextStream

abbrev Text := List Char

/-- `std::isspace` in the default locale. -/
def isSpace (c : Char) : Bool := c ∈ [' ', '\t', '\n', '\x0b', '\x0c', '\r']

/-- What is left of a stream, with its `eofbit` and `failbit`. -/
structure IStream where
  rest : Text
  eof : Bool
  fail : Bool
  deriving DecidableEq

def IStream.ofText (text : Text) : IStream := ⟨text, false, false⟩

def IStream.good (s : IStream) : Bool := !s.eof && !s.fail

theorem good_ofText (text : Text) : (IStream.ofText text).good = true := rfl

/-- A formatted extraction: without a good stream or a character after the white space, the
target keeps its value. -/
def formatted {α : Type} (target : α) (s : IStream) (extract : Text → α × IStream) :
    α × IStream :=
  if s.good then
    match s.rest.dropWhile isSpace with
    | [] => (target, ⟨[], true, true⟩)
    | text => extract text
  else (target, { s with fail := true })

/-- The stream after an extraction that looked at the character after what it took. -/
def IStream.after (rest : Text) (fail : Bool) : IStream := ⟨rest, rest.isEmpty, fail⟩

def readWord (target : Text) (s : IStream) : Text × IStream :=
  formatted target s fun text =>
    (text.takeWhile (!isSpace ·), .after (text.dropWhile (!isSpace ·)) false)

/-- A sign, and what follows it. -/
def splitSign : Text → Bool × Text
  | '-' :: text => (true, text)
  | '+' :: text => (false, text)
  | text => (false, text)

def digitsValue (digits : Text) : ℕ := Nat.ofDigitChars 10 digits 0

/-- An unsigned numeral of `w` bits: a minus sign wraps around, an overflow saturates. -/
def readUnsigned (w : ℕ) (target : Fin (2 ^ w)) (s : IStream) : Fin (2 ^ w) × IStream :=
  formatted target s fun text =>
    let (negative, text) := splitSign text
    let digits := text.takeWhile Char.isDigit
    let rest := text.dropWhile Char.isDigit
    if digits = [] then (0, .after rest true)
    else if h : digitsValue digits < 2 ^ w then
      (if negative then -⟨digitsValue digits, h⟩ else ⟨digitsValue digits, h⟩, .after rest false)
    else (⟨2 ^ w - 1, Nat.sub_one_lt (Nat.two_pow_pos w).ne'⟩, .after rest true)

/-- A signed numeral of 32 bits: an overflow saturates. -/
def readInt (target : ℤ) (s : IStream) : ℤ × IStream :=
  formatted target s fun text =>
    let (negative, text) := splitSign text
    let digits := text.takeWhile Char.isDigit
    let rest := text.dropWhile Char.isDigit
    let value : ℤ := if negative then -digitsValue digits else digitsValue digits
    if digits = [] then (0, .after rest true)
    else if value < -2 ^ 31 then (-2 ^ 31, .after rest true)
    else if value > 2 ^ 31 - 1 then (2 ^ 31 - 1, .after rest true)
    else (value, .after rest false)

def getLine (target : Text) (s : IStream) : Text × IStream :=
  if s.good then
    match s.rest.dropWhile (· ≠ '\n') with
    | [] => (s.rest, ⟨[], true, s.rest.isEmpty⟩)
    | _ :: rest => (s.rest.takeWhile (· ≠ '\n'), ⟨rest, false, false⟩)
  else (target, { s with fail := true })

def skipSpace (s : IStream) : IStream :=
  if s.good then .after (s.rest.dropWhile isSpace) false else { s with fail := true }

def numeral (n : ℕ) : Text := Nat.toDigits 10 n

/-! Drained streams: nothing is left, and only the end of the text has made them fail. -/

structure Drained (s : IStream) : Prop where
  rest_eq : s.rest = []
  eof_of_fail : s.fail = true → s.eof = true

section Drained

variable {s : IStream}

theorem Drained.eof_of_not_good (h : Drained s) (hg : ¬ s.good = true) : s.eof = true := by
  cases heof : s.eof with
  | true => rfl
  | false =>
    cases hfail : s.fail with
    | true => exact absurd (h.eof_of_fail hfail) (by simp [heof])
    | false => exact absurd (by simp [IStream.good, heof, hfail]) hg

theorem Drained.failed (h : Drained s) (hg : ¬ s.good = true) : Drained { s with fail := true } :=
  ⟨h.rest_eq, fun _ => h.eof_of_not_good hg⟩

theorem drained_end (fail : Bool) : Drained ⟨[], true, fail⟩ := ⟨rfl, fun _ => rfl⟩

theorem formatted_drained {α : Type} (h : Drained s) (target : α)
    (extract : Text → α × IStream) :
    (formatted target s extract).1 = target ∧ Drained (formatted target s extract).2 := by
  by_cases hg : s.good = true
  · rw [formatted, if_pos hg, h.rest_eq]
    exact ⟨rfl, drained_end true⟩
  · rw [formatted, if_neg hg]
    exact ⟨rfl, h.failed hg⟩

theorem getLine_drained (h : Drained s) (target : Text) : Drained (getLine target s).2 := by
  by_cases hg : s.good = true
  · rw [getLine, if_pos hg, h.rest_eq]
    exact drained_end true
  · rw [getLine, if_neg hg]
    exact h.failed hg

theorem skipSpace_drained (h : Drained s) : (skipSpace s).eof = true := by
  rw [skipSpace, h.rest_eq]
  by_cases hg : s.good = true
  · rw [if_pos hg]
    rfl
  · rw [if_neg hg]
    exact h.eof_of_not_good hg

end Drained

/-! Numerals. -/

theorem isDigit_numeral {n : ℕ} {c : Char} (h : c ∈ numeral n) : c.isDigit = true :=
  Nat.isDigit_of_mem_toDigits (by decide) (by decide) h

theorem numeral_ne_nil (n : ℕ) : numeral n ≠ [] := Nat.toDigits_ne_nil

@[simp] theorem digitsValue_numeral (n : ℕ) : digitsValue (numeral n) = n :=
  Nat.ofDigitChars_ten_toDigits

/-- What is left of a numeral, when it is cut, is the numeral of a number that is not larger. -/
theorem exists_numeral_of_cut {n : ℕ} {d : Text} (hd : d ≠ []) (h : d <+: numeral n) :
    ∃ m, m ≤ n ∧ d = numeral m := by
  induction n using Nat.strongRecOn with
  | ind n ih =>
    by_cases hn : n < 10
    · rw [numeral, Nat.toDigits_of_lt_base hn] at h
      refine ⟨n, le_rfl, ?_⟩
      rw [numeral, Nat.toDigits_of_lt_base hn]
      cases d with
      | nil => exact absurd rfl hd
      | cons c d =>
        obtain ⟨rfl, htail⟩ := List.cons_prefix_cons.mp h
        rw [List.prefix_nil.mp htail]
    · have hnumeral : numeral n = numeral (n / 10) ++ [(n % 10).digitChar] :=
        Nat.toDigits_of_base_le (by decide) (not_lt.mp hn)
      rw [hnumeral, List.prefix_concat_iff] at h
      rcases h with rfl | h
      · exact ⟨n, le_rfl, hnumeral.symm⟩
      · obtain ⟨m, hm, rfl⟩ := ih (n / 10) (by omega) h
        exact ⟨m, by omega, rfl⟩

theorem numeral_injective : Function.Injective numeral := by
  intro m n h
  rw [← digitsValue_numeral m, ← digitsValue_numeral n, h]

/-- A digit is not cut. -/
theorem eq_of_cut_digit {m n : ℕ} (hn : n < 10) (h : numeral m <+: numeral n) : m = n := by
  apply numeral_injective
  have hlen : (numeral n).length = 1 := by rw [numeral, Nat.toDigits_of_lt_base hn]; rfl
  have hpos := List.length_pos_iff.mpr (numeral_ne_nil m)
  exact h.eq_of_length_le (by omega)

/-! Extraction from a text that starts with white space and an entry. -/

section Entries

variable {sp w rest t : Text} {c : Char} {α : Type}

/-- Where a prefix of a text that starts with an entry ends: before it, in it, or after it. -/
theorem prefix_entry (h : t <+: sp ++ (w ++ c :: rest)) :
    t <+: sp ∨ (∃ v, v ≠ [] ∧ v <+: w ∧ t = sp ++ v) ∨
      ∃ t', t' <+: rest ∧ t = sp ++ (w ++ c :: t') := by
  obtain ⟨u, hu⟩ := h
  rcases List.append_eq_append_iff.mp hu with ⟨a, rfl, -⟩ | ⟨a, rfl, ha⟩
  · exact Or.inl (List.prefix_append t a)
  · by_cases hnil : a = []
    · exact Or.inl (by simp [hnil])
    · right
      rcases List.append_eq_append_iff.mp ha with ⟨b, rfl, hb⟩ | ⟨b, rfl, hb⟩
      · cases b with
        | nil => exact Or.inl ⟨w, by simpa using hnil, List.prefix_rfl, by simp⟩
        | cons d b =>
          cases hb
          exact Or.inr ⟨b, List.prefix_append b u, rfl⟩
      · exact Or.inl ⟨a, hnil, List.prefix_append a b, rfl⟩

theorem dropWhile_spaces (hsp : ∀ c ∈ sp, isSpace c = true) (text : Text) :
    (sp ++ text).dropWhile isSpace = text.dropWhile isSpace :=
  List.dropWhile_append_of_pos hsp

theorem formatted_spaces (hsp : ∀ c ∈ sp, isSpace c = true) (target : α)
    (extract : Text → α × IStream) :
    formatted target (.ofText sp) extract = (target, ⟨[], true, true⟩) := by
  have hdrop := dropWhile_spaces hsp []
  rw [List.append_nil] at hdrop
  simp [formatted, IStream.ofText, IStream.good, hdrop]

theorem formatted_entry (hsp : ∀ c ∈ sp, isSpace c = true) (hw : w ≠ [])
    (hfirst : ∀ c ∈ w, isSpace c = false) (text : Text) (target : α)
    (extract : Text → α × IStream) :
    formatted target (.ofText (sp ++ (w ++ text))) extract = extract (w ++ text) := by
  cases w with
  | nil => exact absurd rfl hw
  | cons c w =>
    have hc := hfirst c List.mem_cons_self
    have hdrop : (sp ++ (c :: w ++ text)).dropWhile isSpace = c :: (w ++ text) := by
      rw [dropWhile_spaces hsp, List.cons_append, List.dropWhile_cons, hc]
      rfl
    rw [formatted, if_pos (good_ofText _)]
    dsimp only [IStream.ofText]
    rw [hdrop]
    rfl

/-! Words. -/

theorem no_space (h : w.any isSpace = false) : ∀ c ∈ w, isSpace c = false := by
  simpa using h

theorem readWord_entry (hsp : ∀ c ∈ sp, isSpace c = true) (hw : w ≠ [])
    (hword : ∀ c ∈ w, isSpace c = false) (hc : isSpace c = true) (target : Text) :
    readWord target (.ofText (sp ++ (w ++ c :: rest))) = (w, .ofText (c :: rest)) := by
  have hp : ∀ d ∈ w, (!isSpace d) = true := fun d hd => by rw [hword d hd]; rfl
  rw [readWord, formatted_entry hsp hw hword]
  simp [List.takeWhile_append_of_pos hp, List.dropWhile_append_of_pos hp, hc, IStream.after,
    IStream.ofText]

theorem readWord_last (hsp : ∀ c ∈ sp, isSpace c = true) (hw : w ≠ [])
    (hword : ∀ c ∈ w, isSpace c = false) (target : Text) :
    readWord target (.ofText (sp ++ w)) = (w, ⟨[], true, false⟩) := by
  have hp : ∀ d ∈ w, (!isSpace d) = true := fun d hd => by rw [hword d hd]; rfl
  have hentry := formatted_entry hsp hw hword [] target fun text =>
    (text.takeWhile (!isSpace ·), IStream.after (text.dropWhile (!isSpace ·)) false)
  have htake := List.takeWhile_eq_self_iff.mpr hp
  have hdrop := List.dropWhile_eq_nil_iff.mpr hp
  rw [List.append_nil] at hentry
  rw [readWord, hentry, htake, hdrop]
  simp [IStream.after]

/-- What reading a word from a cut text gives: the whole word, or no more than a part of it
and then nothing. -/
theorem readWord_cut (hsp : ∀ c ∈ sp, isSpace c = true)
    (hword : ∀ c ∈ w, isSpace c = false) (hc : isSpace c = true) (hw : w ≠ [])
    (h : t <+: sp ++ (w ++ c :: rest)) (target : Text) :
    (∃ t', t' <+: rest ∧ t = sp ++ (w ++ c :: t') ∧
      readWord target (.ofText t) = (w, .ofText (c :: t'))) ∨
    (Drained (readWord target (.ofText t)).2 ∧ ((readWord target (.ofText t)).1 = target ∨
      (readWord target (.ofText t)).1 <+: w)) := by
  rcases prefix_entry h with hspace | ⟨v, hv, hpre, rfl⟩ | ⟨t', ht', rfl⟩
  · right
    rw [readWord, formatted_spaces fun d hd => hsp d (hspace.subset hd)]
    exact ⟨drained_end true, Or.inl rfl⟩
  · right
    rw [readWord_last hsp hv fun d hd => hword d (hpre.subset hd)]
    exact ⟨drained_end false, Or.inr hpre⟩
  · exact Or.inl ⟨t', ht', rfl, readWord_entry hsp hw hword hc target⟩

/-! Numerals of the right size. -/

theorem isSpace_of_isDigit {c : Char} (h : c.isDigit = true) : isSpace c = false := by
  rw [← Bool.not_eq_true]
  intro hs
  simp only [isSpace, List.mem_cons, List.not_mem_nil, or_false, decide_eq_true_eq] at hs
  rcases hs with rfl | rfl | rfl | rfl | rfl | rfl <;> cases h

theorem splitSign_digit {c : Char} (h : c.isDigit = true) (text : Text) :
    splitSign (c :: text) = (false, c :: text) := by
  unfold splitSign
  split
  · rename_i heq
    cases heq
    cases h
  · rename_i heq
    cases heq
    cases h
  · rfl

variable {d : Text} {m : ℕ}

/-- A run of digits is taken whole. -/
theorem split_digits_entry (hd : d ≠ []) (hdigits : ∀ c ∈ d, c.isDigit = true)
    (hrest : ∀ c ∈ rest.head?, c.isDigit = false) :
    splitSign (d ++ rest) = (false, d ++ rest) ∧ (d ++ rest).takeWhile Char.isDigit = d ∧
      (d ++ rest).dropWhile Char.isDigit = rest := by
  refine ⟨?_, ?_, ?_⟩
  · cases d with
    | nil => exact absurd rfl hd
    | cons c d => exact splitSign_digit (hdigits c List.mem_cons_self) _
  · rw [List.takeWhile_append_of_pos hdigits]
    cases rest with
    | nil => simp
    | cons c rest => simp [hrest c rfl]
  · rw [List.dropWhile_append_of_pos hdigits]
    cases rest with
    | nil => rfl
    | cons c rest => simp [hrest c rfl]

theorem readUnsigned_entry {n : ℕ} (hsp : ∀ c ∈ sp, isSpace c = true)
    (hrest : ∀ c ∈ rest.head?, c.isDigit = false) (hlt : n < 2 ^ m) (target : Fin (2 ^ m)) :
    readUnsigned m target (.ofText (sp ++ (numeral n ++ rest))) =
      (⟨n, hlt⟩, .after rest false) := by
  obtain ⟨hsign, htake, hdrop⟩ := split_digits_entry (numeral_ne_nil n)
    (fun _ => isDigit_numeral) hrest
  rw [readUnsigned, formatted_entry hsp (numeral_ne_nil n)
    fun c hc => isSpace_of_isDigit (isDigit_numeral hc), hsign]
  dsimp only
  rw [htake, hdrop, if_neg (numeral_ne_nil n), dif_pos (by rwa [digitsValue_numeral])]
  simp

theorem readInt_entry {n : ℕ} (hsp : ∀ c ∈ sp, isSpace c = true)
    (hrest : ∀ c ∈ rest.head?, c.isDigit = false) (hlt : n < 2 ^ 31) (target : ℤ) :
    readInt target (.ofText (sp ++ (numeral n ++ rest))) = ((n : ℤ), .after rest false) := by
  obtain ⟨hsign, htake, hdrop⟩ := split_digits_entry (numeral_ne_nil n)
    (fun _ => isDigit_numeral) hrest
  rw [readInt, formatted_entry hsp (numeral_ne_nil n)
    fun c hc => isSpace_of_isDigit (isDigit_numeral hc), hsign]
  dsimp only
  rw [htake, hdrop, if_neg (numeral_ne_nil n), digitsValue_numeral]
  simp only [Bool.false_eq_true, if_false]
  rw [if_neg (by omega), if_neg (by omega)]

theorem readUnsigned_numeral {n : Fin (2 ^ m)} (hsp : ∀ c ∈ sp, isSpace c = true)
    (hc : c.isDigit = false) (target : Fin (2 ^ m)) :
    readUnsigned m target (.ofText (sp ++ (numeral n.val ++ c :: rest))) =
      (n, .ofText (c :: rest)) := by
  have hrest : ∀ b ∈ (c :: rest).head?, b.isDigit = false := by
    rintro b ⟨⟩
    exact hc
  exact readUnsigned_entry hsp hrest n.isLt target

theorem readUnsigned_last {n : ℕ} (hsp : ∀ c ∈ sp, isSpace c = true) (hn : n < 2 ^ m)
    (target : Fin (2 ^ m)) :
    readUnsigned m target (.ofText (sp ++ numeral n)) = (⟨n, hn⟩, ⟨[], true, false⟩) := by
  have hend : ∀ c ∈ ([] : Text).head?, c.isDigit = false := nofun
  have hentry := readUnsigned_entry hsp hend hn target
  rw [List.append_nil] at hentry
  exact hentry

/-- What reading a signed numeral from a cut text gives. -/
theorem readInt_cut {n : ℕ} (hsp : ∀ c ∈ sp, isSpace c = true) (hn : n < 2 ^ 31)
    (hc : c.isDigit = false) (h : t <+: sp ++ (numeral n ++ c :: rest)) (target : ℤ) :
    (∃ t', t' <+: rest ∧ t = sp ++ (numeral n ++ c :: t') ∧
      readInt target (.ofText t) = ((n : ℤ), .ofText (c :: t'))) ∨
    Drained (readInt target (.ofText t)).2 := by
  rcases prefix_entry h with hspace | ⟨v, hv, hpre, rfl⟩ | ⟨t', ht', rfl⟩
  · right
    rw [readInt, formatted_spaces fun d hd => hsp d (hspace.subset hd)]
    exact drained_end true
  · right
    obtain ⟨k, hk, rfl⟩ := exists_numeral_of_cut hv hpre
    have hend : ∀ c ∈ ([] : Text).head?, c.isDigit = false := nofun
    have hentry := readInt_entry hsp hend (hk.trans_lt hn) target
    rw [List.append_nil] at hentry
    rw [hentry]
    exact drained_end false
  · refine Or.inl ⟨t', ht', rfl, readInt_entry hsp ?_ hn target⟩
    rintro b ⟨⟩
    exact hc

/-- What reading a numeral from a cut text gives: the number, or the number of what is left
of the numeral and then nothing. -/
theorem readUnsigned_cut {n : Fin (2 ^ m)} (hsp : ∀ c ∈ sp, isSpace c = true)
    (hc : c.isDigit = false) (h : t <+: sp ++ (numeral n.val ++ c :: rest))
    (target : Fin (2 ^ m)) :
    (∃ t', t' <+: rest ∧ t = sp ++ (numeral n.val ++ c :: t') ∧
      readUnsigned m target (.ofText t) = (n, .ofText (c :: t'))) ∨
    (Drained (readUnsigned m target (.ofText t)).2 ∧
      ((readUnsigned m target (.ofText t)).1 = target ∨
        numeral (readUnsigned m target (.ofText t)).1.val <+: numeral n.val)) := by
  rcases prefix_entry h with hspace | ⟨v, hv, hpre, rfl⟩ | ⟨t', ht', rfl⟩
  · right
    rw [readUnsigned, formatted_spaces fun d hd => hsp d (hspace.subset hd)]
    exact ⟨drained_end true, Or.inl rfl⟩
  · right
    obtain ⟨k, hk, rfl⟩ := exists_numeral_of_cut hv hpre
    rw [readUnsigned_last hsp (hk.trans_lt n.isLt)]
    exact ⟨drained_end false, Or.inr hpre⟩
  · exact Or.inl ⟨t', ht', rfl, readUnsigned_numeral hsp hc target⟩

theorem readUnsigned_drained {s : IStream} (h : Drained s) (target : Fin (2 ^ m)) :
    (readUnsigned m target s).1 = target ∧ Drained (readUnsigned m target s).2 :=
  formatted_drained h target _

theorem readInt_drained {s : IStream} (h : Drained s) (target : ℤ) :
    (readInt target s).1 = target ∧ Drained (readInt target s).2 :=
  formatted_drained h target _

theorem readWord_drained {s : IStream} (h : Drained s) (target : Text) :
    (readWord target s).1 = target ∧ Drained (readWord target s).2 :=
  formatted_drained h target _

/-! Lines. -/

theorem getLine_line (hw : ∀ c ∈ w, c ≠ '\n') (target : Text) :
    getLine target (.ofText (w ++ '\n' :: rest)) = (w, .ofText rest) := by
  have hp : ∀ c ∈ w, (decide (c ≠ '\n')) = true := fun c hc => decide_eq_true (hw c hc)
  have htake : (w ++ '\n' :: rest).takeWhile (· ≠ '\n') = w := by
    rw [List.takeWhile_append_of_pos hp]
    simp
  have hdrop : (w ++ '\n' :: rest).dropWhile (· ≠ '\n') = '\n' :: rest := by
    rw [List.dropWhile_append_of_pos hp]
    simp
  rw [getLine, if_pos (good_ofText _)]
  dsimp only [IStream.ofText]
  rw [hdrop, htake]

theorem getLine_last (hw : ∀ c ∈ w, c ≠ '\n') (target : Text) :
    Drained (getLine target (.ofText w)).2 := by
  have hp : ∀ c ∈ w, (decide (c ≠ '\n')) = true := fun c hc => decide_eq_true (hw c hc)
  have hdrop : w.dropWhile (· ≠ '\n') = [] := List.dropWhile_eq_nil_iff.mpr hp
  rw [getLine, if_pos (good_ofText _)]
  dsimp only [IStream.ofText]
  rw [hdrop]
  exact drained_end _

end Entries

/-! Chunks of a text. -/

/-- The maximal runs of characters without white space and, beyond their first character, without
a break. -/
def chunks (breaks : Char → Bool) : Text → List Text
  | [] => []
  | c :: text =>
    if isSpace c then chunks breaks text
    else if text.head?.any (!breaks ·) then
      match chunks breaks text with
      | [] => [[c]]
      | chunk :: more => (c :: chunk) :: more
    else [c] :: chunks breaks text

/-- The words of a text. -/
def wordsOf (text : Text) : List Text := chunks isSpace text

section Chunks

variable {breaks : Char → Bool} {c : Char} {text : Text}

theorem chunks_spaces {sp : Text} (hsp : ∀ c ∈ sp, isSpace c = true) (text : Text) :
    chunks breaks (sp ++ text) = chunks breaks text := by
  induction sp with
  | nil => rfl
  | cons c sp ih =>
    rw [List.forall_mem_cons] at hsp
    rw [List.cons_append, chunks, if_pos hsp.1, ih hsp.2]

/-- The first chunk runs to the next break. -/
theorem chunks_cons (hbreaks : ∀ c, isSpace c = true → breaks c = true)
    (hc : isSpace c = false) (text : Text) : chunks breaks (c :: text) =
      (c :: text.takeWhile (!breaks ·)) :: chunks breaks (text.dropWhile (!breaks ·)) := by
  induction text generalizing c with
  | nil => simp [chunks, hc]
  | cons d text ih =>
    cases hd : breaks d with
    | true => simp [chunks, hc, hd]
    | false =>
      have hspace : isSpace d = false := by
        cases hs : isSpace d with
        | true => exact absurd (hbreaks d hs) (by simp [hd])
        | false => rfl
      rw [chunks, hc, ih hspace]
      simp [hd]

theorem chunks_eq_nil (hbreaks : ∀ c, isSpace c = true → breaks c = true) :
    chunks breaks text = [] ↔ ∀ c ∈ text, isSpace c = true := by
  induction text with
  | nil => exact iff_of_true rfl (by simp)
  | cons c text ih =>
    rw [List.forall_mem_cons]
    cases hc : isSpace c with
    | true =>
      rw [chunks, if_pos hc, ih]
      exact (and_iff_right rfl).symm
    | false =>
      rw [chunks_cons hbreaks hc]
      exact iff_of_false (by simp) (by simp)

theorem head?_append_any (f : Char → Bool) (hbreaks : f c = false) (t rest : Text) :
    (t ++ c :: rest).head?.any f = t.head?.any f := by
  cases t with
  | nil => simp [hbreaks]
  | cons d t => rfl

/-- No chunk goes on behind white space. -/
theorem chunks_append (hbreaks : ∀ c, isSpace c = true → breaks c = true)
    (hc : isSpace c = true) (t rest : Text) :
    chunks breaks (t ++ c :: rest) = chunks breaks t ++ chunks breaks rest := by
  have hbreak : (!breaks c) = false := by rw [hbreaks c hc]; rfl
  induction t with
  | nil => simp [chunks, hc]
  | cons d t ih =>
    cases hd : isSpace d with
    | true =>
      rw [List.cons_append, chunks, if_pos hd, chunks, if_pos hd, ih]
    | false =>
      rw [List.cons_append, chunks, chunks, hd, head?_append_any _ hbreak, ih]
      cases hchunks : chunks breaks t with
      | cons chunk more => by_cases hany : t.head?.any (!breaks ·) = true <;> simp [hany]
      | nil =>
        have hspaces := (chunks_eq_nil hbreaks).mp hchunks
        have hany : t.head?.any (!breaks ·) = false := by
          cases t with
          | nil => rfl
          | cons e t =>
            have he := hbreaks e (hspaces e List.mem_cons_self)
            simp [he]
        simp [hany]

theorem wordsOf_append (hc : isSpace c = true) (t rest : Text) :
    wordsOf (t ++ c :: rest) = wordsOf t ++ wordsOf rest :=
  chunks_append (fun _ h => h) hc t rest

theorem wordsOf_spaces {sp : Text} (hsp : ∀ c ∈ sp, isSpace c = true) (text : Text) :
    wordsOf (sp ++ text) = wordsOf text :=
  chunks_spaces hsp text

theorem wordsOf_cons (hc : isSpace c = false) (text : Text) : wordsOf (c :: text) =
    (c :: text).takeWhile (!isSpace ·) :: wordsOf ((c :: text).dropWhile (!isSpace ·)) := by
  rw [wordsOf, chunks_cons (fun _ h => h) hc, List.takeWhile_cons_of_pos (by rw [hc]; rfl),
    List.dropWhile_cons_of_pos (by rw [hc]; rfl)]
  rfl

end Chunks

/-- The lines of a text; the last one does not end. -/
def linesOf : Text → List Text
  | [] => [[]]
  | c :: text =>
    if c = '\n' then [] :: linesOf text
    else
      match linesOf text with
      | [] => [[c]]
      | line :: more => (c :: line) :: more

theorem linesOf_ne_nil (text : Text) : linesOf text ≠ [] := by
  induction text with
  | nil => exact List.cons_ne_nil _ _
  | cons c text ih =>
    rw [linesOf]
    split
    · exact List.cons_ne_nil _ _
    · split <;> exact List.cons_ne_nil _ _

theorem linesOf_append (t rest : Text) :
    linesOf (t ++ '\n' :: rest) = linesOf t ++ linesOf rest := by
  induction t with
  | nil => rfl
  | cons c t ih =>
    rw [List.cons_append, linesOf, linesOf, ih]
    split
    · rfl
    · cases hlines : linesOf t with
      | nil => exact absurd hlines (linesOf_ne_nil t)
      | cons line more => rfl

theorem linesOf_line {line : Text} (h : ∀ c ∈ line, c ≠ '\n') : linesOf line = [line] := by
  induction line with
  | nil => rfl
  | cons c line ih =>
    rw [List.forall_mem_cons] at h
    rw [linesOf, if_neg h.1, ih h.2]

/-! What an extraction leaves is the end of what it started from. -/

section Suffixes

variable {s : IStream} {α : Type} {target : α} {extract : Text → α × IStream}

theorem dropWhile_suffix (f : Char → Bool) (text : Text) : text.dropWhile f <:+ text :=
  ⟨_, List.takeWhile_append_dropWhile⟩

theorem formatted_suffix (h : ∀ text, (extract text).2.rest <:+ text) :
    (formatted target s extract).2.rest <:+ s.rest := by
  unfold formatted
  split
  · split
    · exact List.nil_suffix
    · rename_i text _ heq
      exact (h _).trans (dropWhile_suffix isSpace s.rest)
  · exact List.suffix_rfl

theorem splitSign_suffix (text : Text) : (splitSign text).2 <:+ text := by
  unfold splitSign
  split
  · exact List.suffix_cons _ _
  · exact List.suffix_cons _ _
  · exact List.suffix_rfl

theorem readUnsigned_suffix (m : ℕ) (target : Fin (2 ^ m)) (s : IStream) :
    (readUnsigned m target s).2.rest <:+ s.rest := by
  refine formatted_suffix fun text => ?_
  have hrest := (dropWhile_suffix Char.isDigit (splitSign text).2).trans (splitSign_suffix text)
  dsimp only
  split
  · exact hrest
  · split <;> exact hrest

theorem readInt_suffix (target : ℤ) (s : IStream) : (readInt target s).2.rest <:+ s.rest := by
  refine formatted_suffix fun text => ?_
  have hrest := (dropWhile_suffix Char.isDigit (splitSign text).2).trans (splitSign_suffix text)
  dsimp only
  repeat' split
  all_goals exact hrest

theorem readWord_suffix (target : Text) (s : IStream) :
    (readWord target s).2.rest <:+ s.rest :=
  formatted_suffix fun text => dropWhile_suffix _ text

/-- With a word left, a good stream gives the first one. -/
theorem readWord_word (target : Text) (hg : s.good = true)
    (hword : ∃ c ∈ s.rest, isSpace c = false) :
    wordsOf s.rest = (readWord target s).1 :: wordsOf (readWord target s).2.rest := by
  have hsplit := (List.takeWhile_append_dropWhile (p := isSpace) (l := s.rest)).symm
  rw [readWord, formatted, if_pos hg]
  split
  · rename_i hdrop
    obtain ⟨c, hc, hspace⟩ := hword
    exact absurd (List.dropWhile_eq_nil_iff.mp hdrop c hc) (by simp [hspace])
  · cases hdrop : s.rest.dropWhile isSpace with
    | nil => contradiction
    | cons c text =>
      have hstop := List.head?_dropWhile_not isSpace s.rest
      rw [hdrop] at hstop
      rw [hsplit, wordsOf_spaces fun d hd => List.mem_takeWhile_imp hd, hdrop,
        wordsOf_cons (by simpa using hstop)]
      rfl

/-- Without one, the variable keeps its value. -/
theorem readWord_stale (target : Text)
    (h : ¬ (s.good = true ∧ ∃ c ∈ s.rest, isSpace c = false)) : (readWord target s).1 = target := by
  rw [readWord, formatted]
  split
  · rename_i hg
    have hspaces : s.rest.dropWhile isSpace = [] := by
      rw [List.dropWhile_eq_nil_iff]
      intro c hc
      cases hs : isSpace c with
      | true => rfl
      | false => exact absurd ⟨hg, c, hc, hs⟩ h
    rw [hspaces]
  · rfl

/-- A line that ends leaves what is behind its end. -/
theorem getLine_good {target : Text} (h : (getLine target s).2.good = true) :
    s.good = true ∧ (∀ c ∈ (getLine target s).1, c ≠ '\n') ∧
      s.rest = (getLine target s).1 ++ '\n' :: (getLine target s).2.rest := by
  unfold getLine at h ⊢
  by_cases hg : s.good = true
  · rw [if_pos hg] at h ⊢
    have hsplit := (List.takeWhile_append_dropWhile (p := (decide <| · ≠ '\n')) (l := s.rest)).symm
    split
    · rename_i hdrop
      rw [hdrop] at h
      cases h
    · rename_i c rest hdrop
      rw [hdrop] at hsplit
      have hstop := List.head?_dropWhile_not (decide <| · ≠ '\n') s.rest
      rw [hdrop] at hstop
      obtain rfl : c = '\n' := by simpa using hstop
      exact ⟨hg, fun d hd => by simpa using List.mem_takeWhile_imp hd, hsplit⟩
  · rw [if_neg hg] at h
    rw [IStream.good, Bool.and_eq_true] at h
    cases h.2

/-- A line that does not end is all that is left. -/
theorem getLine_rest {target : Text} (hg : s.good = true)
    (h : ¬ (getLine target s).2.good = true) :
    (getLine target s).1 = s.rest ∧ ∀ c ∈ s.rest, c ≠ '\n' := by
  unfold getLine at h ⊢
  rw [if_pos hg] at h ⊢
  split
  · rename_i hdrop
    exact ⟨rfl, fun c hc => of_decide_eq_true (List.dropWhile_eq_nil_iff.mp hdrop c hc)⟩
  · rename_i hdrop
    rw [hdrop] at h
    exact absurd rfl h

end Suffixes

end TextStream
