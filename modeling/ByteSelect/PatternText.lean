import ByteSelect.ModelIO

/-! Which texts `Pattern::parse` accepts, and which of them it reads only in part. -/
namespace ByteSelect

open TextStream

def isSign (c : Char) : Bool := c = '+' || c = '-'

/-- An extraction of a number also stops before a sign. -/
def isBreak (c : Char) : Bool := isSpace c || isSign c

/-- The runs of characters that the extractions of a text meet one by one. -/
def piecesOf (text : Text) : List Text := chunks isBreak text

def magnitude (w : Text) : ℕ := digitsValue (splitSign w).2

/-- The value of a numeral in an `unsigned int`: a minus sign wraps around. -/
def unsignedValue (w : Text) : ℕ :=
  (if (splitSign w).1 then 2 ^ 32 - magnitude w else magnitude w) % 2 ^ 32

def symbolOf (w : Text) : Symbol := Fin.ofNat _ (unsignedValue w)

/-- A decimal numeral, after a sign or none. -/
structure IsNumeral (w : Text) : Prop where
  ne_nil : (splitSign w).2 ≠ []
  digits : ∀ c ∈ (splitSign w).2, c.isDigit = true

/-- A numeral whose value is a symbol. -/
structure Reads (w : Text) : Prop extends IsNumeral w where
  fits : magnitude w < 2 ^ 32
  symbol : unsignedValue w ≤ 65535

/-- A sign without digits, or a numeral no `unsigned int` can hold. -/
structure Stuck (w : Text) : Prop where
  digits : ∀ c ∈ (splitSign w).2, c.isDigit = true
  no_value : (splitSign w).2 = [] ∨ 2 ^ 32 ≤ magnitude w

/-- The text is read up to its end: as numerals, and perhaps a last piece that is dropped because
the text ends with it. -/
structure Accepted (text : Text) (read : List Text) : Prop where
  reads : ∀ p ∈ read, Reads p
  pieces : piecesOf text = read ∨ ∃ dropped, Stuck dropped ∧ piecesOf text = read ++ [dropped] ∧
    ∀ c ∈ text.getLast?, isSpace c = false

variable {text rest sp q : Text} {c : Char} {fuel : ℕ} {symbols symbols' : List Symbol}
  {input : IStream} {read : List Text}

/-! Pieces. -/

theorem isBreak_of_isSpace (c : Char) (h : isSpace c = true) : isBreak c = true := by
  rw [isBreak, h, Bool.true_or]

theorem not_digit_of_isBreak (h : isBreak c = true) : c.isDigit = false := by
  rw [isBreak, Bool.or_eq_true, isSign, Bool.or_eq_true, decide_eq_true_iff,
    decide_eq_true_iff] at h
  rcases h with h | rfl | rfl
  · cases hd : c.isDigit with
    | true => exact absurd h (by simp [isSpace_of_isDigit hd])
    | false => rfl
  · rfl
  · rfl

/-- A piece at the head of a text, after white space. -/
structure Piece (sp : Text) (c : Char) (q rest : Text) : Prop where
  spaces : ∀ d ∈ sp, isSpace d = true
  head : isSpace c = false
  tail : ∀ d ∈ q, isBreak d = false
  stop : ∀ d ∈ rest.head?, isBreak d = true

theorem Piece.pieces_eq (h : Piece sp c q rest) :
    piecesOf (sp ++ (c :: q ++ rest)) = (c :: q) :: piecesOf rest := by
  have htail : ∀ d ∈ q, (!isBreak d) = true := fun d hd => by rw [h.tail d hd]; rfl
  have hstop : rest.takeWhile (!isBreak ·) = [] ∧ rest.dropWhile (!isBreak ·) = rest := by
    cases rest with
    | nil => exact ⟨rfl, rfl⟩
    | cons d rest => simp [h.stop d rfl]
  rw [piecesOf, chunks_spaces h.spaces, List.cons_append, chunks_cons isBreak_of_isSpace h.head,
    List.takeWhile_append_of_pos htail, List.dropWhile_append_of_pos htail, hstop.1, hstop.2,
    List.append_nil]
  rfl

theorem exists_piece (text : Text) : (∀ d ∈ text, isSpace d = true) ∨
    ∃ sp c q rest, Piece sp c q rest ∧ text = sp ++ (c :: q ++ rest) := by
  have htext := (List.takeWhile_append_dropWhile (p := isSpace) (l := text)).symm
  cases hdrop : text.dropWhile isSpace with
  | nil => exact Or.inl (List.dropWhile_eq_nil_iff.mp hdrop)
  | cons c t =>
    have hc := List.head?_dropWhile_not isSpace text
    rw [hdrop] at htext hc
    refine Or.inr ⟨text.takeWhile isSpace, c, t.takeWhile (!isBreak ·),
      t.dropWhile (!isBreak ·), ⟨?_, ?_, ?_, ?_⟩, ?_⟩
    · exact fun d hd => List.mem_takeWhile_imp hd
    · simpa using hc
    · exact fun d hd => by simpa using List.mem_takeWhile_imp hd
    · intro d hd
      have hstop := List.head?_dropWhile_not (!isBreak ·) t
      rw [hd] at hstop
      simpa using hstop
    · rw [List.cons_append, List.takeWhile_append_dropWhile]
      exact htext

theorem Piece.no_space (h : Piece sp c q rest) : ∀ d ∈ c :: q, isSpace d = false := by
  refine List.forall_mem_cons.mpr ⟨h.head, fun d hd => ?_⟩
  have hbreak := h.tail d hd
  rw [isBreak, Bool.or_eq_false_iff] at hbreak
  exact hbreak.1

theorem Piece.stop_digit (h : Piece sp c q rest) : ∀ d ∈ rest.head?, d.isDigit = false :=
  fun d hd => not_digit_of_isBreak (h.stop d hd)

/-! One extraction. -/

theorem splitSign_cases (c : Char) :
    (isSign c = true ∧ ∀ q, splitSign (c :: q) = (decide (c = '-'), q)) ∨
      (isSign c = false ∧ ∀ q, splitSign (c :: q) = (false, c :: q)) := by
  by_cases hminus : c = '-'
  · subst hminus
    exact Or.inl ⟨rfl, fun _ => rfl⟩
  by_cases hplus : c = '+'
  · subst hplus
    exact Or.inl ⟨rfl, fun _ => rfl⟩
  refine Or.inr ⟨by simp [isSign, hminus, hplus], fun q => ?_⟩
  unfold splitSign
  split
  · rename_i heq
    cases heq
    exact absurd rfl hminus
  · rename_i heq
    cases heq
    exact absurd rfl hplus
  · rfl

theorem splitSign_append (c : Char) (q t : Text) :
    splitSign (c :: q ++ t) = ((splitSign (c :: q)).1, (splitSign (c :: q)).2 ++ t) := by
  rcases splitSign_cases c with ⟨-, hsplit⟩ | ⟨-, hsplit⟩
  · rw [List.cons_append, hsplit, hsplit]
  · rw [List.cons_append, hsplit, hsplit]
    rfl

/-- The digits of a piece, and what is left behind them. -/
theorem Piece.readUnsigned_digits (h : Piece sp c q rest)
    (hdigits : ∀ d ∈ (splitSign (c :: q)).2, d.isDigit = true) (target : Fin (2 ^ 32)) :
    (Stuck (c :: q) ∧ (readUnsigned 32 target (.ofText (sp ++ (c :: q ++ rest)))).2 =
      .after rest true) ∨
    (IsNumeral (c :: q) ∧ magnitude (c :: q) < 2 ^ 32 ∧
      ∃ value, readUnsigned 32 target (.ofText (sp ++ (c :: q ++ rest))) =
        (value, .after rest false) ∧ value.val = unsignedValue (c :: q)) := by
  have hstop : rest.takeWhile Char.isDigit = [] ∧ rest.dropWhile Char.isDigit = rest := by
    cases rest with
    | nil => exact ⟨rfl, rfl⟩
    | cons d rest => simp [h.stop_digit d rfl]
  have hread := fun extract =>
    formatted_entry h.spaces (List.cons_ne_nil c q) h.no_space rest target extract
  rw [readUnsigned, hread, splitSign_append]
  dsimp only
  rw [List.takeWhile_append_of_pos hdigits, List.dropWhile_append_of_pos hdigits, hstop.1, hstop.2,
    List.append_nil]
  by_cases hnil : (splitSign (c :: q)).2 = []
  · rw [if_pos hnil]
    exact Or.inl ⟨⟨hdigits, Or.inl hnil⟩, rfl⟩
  rw [if_neg hnil]
  by_cases hfits : digitsValue (splitSign (c :: q)).2 < 2 ^ 32
  · rw [dif_pos hfits]
    refine Or.inr ⟨⟨hnil, hdigits⟩, hfits, _, rfl, ?_⟩
    rw [unsignedValue, magnitude]
    split
    · rfl
    · exact (Nat.mod_eq_of_lt hfits).symm
  · rw [dif_neg hfits]
    exact Or.inl ⟨⟨hdigits, Or.inr (Nat.le_of_not_lt hfits)⟩, rfl⟩

/-- Behind digits of its own a piece goes on without a break: only its first character may be a
sign. -/
theorem Piece.not_break (h : Piece sp c q rest) {d : Char} (hd : d.isDigit = false)
    (hmem : d ∈ (splitSign (c :: q)).2)
    (hsome : (splitSign (c :: q)).2.takeWhile Char.isDigit ≠ []) : isBreak d = false := by
  rcases splitSign_cases c with ⟨-, hsign⟩ | ⟨-, hall⟩
  · rw [hsign] at hmem
    exact h.tail d hmem
  · rw [hall] at hmem hsome
    rcases List.mem_cons.mp hmem with rfl | hq
    · exact absurd (List.takeWhile_cons_of_neg (by simp [hd])) hsome
    · exact h.tail d hq

/-- Behind the digits of any other piece something is left that stops the next extraction. -/
theorem Piece.readUnsigned_junk (h : Piece sp c q rest)
    (hdigits : ¬ ∀ d ∈ (splitSign (c :: q)).2, d.isDigit = true) (target : Fin (2 ^ 32)) :
    ∃ d junk fail, (readUnsigned 32 target (.ofText (sp ++ (c :: q ++ rest)))).2 =
      .after (d :: junk) fail ∧ d.isDigit = false ∧ (fail = false → isBreak d = false) := by
  have hread := fun extract =>
    formatted_entry h.spaces (List.cons_ne_nil c q) h.no_space rest target extract
  have hsplit := (List.takeWhile_append_dropWhile (p := Char.isDigit)
    (l := (splitSign (c :: q)).2)).symm
  rw [readUnsigned, hread, splitSign_append]
  dsimp only
  cases hdrop : (splitSign (c :: q)).2.dropWhile Char.isDigit with
  | nil => exact absurd (List.dropWhile_eq_nil_iff.mp hdrop) hdigits
  | cons d junk =>
    have hd : d.isDigit = false := by
      have hstop := List.head?_dropWhile_not Char.isDigit (splitSign (c :: q)).2
      rw [hdrop] at hstop
      simpa using hstop
    have hdigit : ∀ a ∈ (splitSign (c :: q)).2.takeWhile Char.isDigit, a.isDigit = true :=
      fun a ha => List.mem_takeWhile_imp ha
    rw [hdrop] at hsplit
    have hmem : d ∈ (splitSign (c :: q)).2 := by
      rw [hsplit]
      exact List.mem_append_right _ List.mem_cons_self
    have hbreak := h.not_break hd hmem
    generalize (splitSign (c :: q)).2 = u at hsplit hdigit hbreak
    generalize hdigits' : u.takeWhile Char.isDigit = digits at hsplit hdigit hbreak
    subst hsplit
    rw [List.append_assoc, List.takeWhile_append_of_pos hdigit, List.dropWhile_append_of_pos hdigit,
      List.cons_append, List.takeWhile_cons_of_neg (by simp [hd]),
      List.dropWhile_cons_of_neg (by simp [hd]), List.append_nil]
    by_cases hnil : digits = []
    · rw [if_pos hnil]
      exact ⟨d, _, true, rfl, hd, fun hfail => absurd hfail (by decide)⟩
    rw [if_neg hnil]
    by_cases hfits : digitsValue digits < 2 ^ 32
    · rw [dif_pos hfits]
      exact ⟨d, _, false, rfl, hd, fun _ => hbreak hnil⟩
    · rw [dif_neg hfits]
      exact ⟨d, _, true, rfl, hd, fun hfail => absurd hfail (by decide)⟩

/-! The loop. -/

/-- The loop leaves these symbols, and the end of the text behind it. -/
def EndsIn (fuel : ℕ) (input : IStream) (symbols symbols' : List Symbol) : Prop :=
  ∃ last, parseSymbols fuel input symbols = .ok (symbols', last) ∧ last.eof = true

theorem endsIn_of_fail (h : (readUnsigned 32 0 input).2.fail = true) :
    EndsIn (fuel + 1) input symbols symbols' ↔
      (readUnsigned 32 0 input).2.eof = true ∧ symbols' = symbols := by
  unfold EndsIn parseSymbols
  dsimp only
  rw [h, if_pos rfl]
  constructor
  · rintro ⟨last, hrun, heof⟩
    cases hrun
    exact ⟨heof, rfl⟩
  · rintro ⟨heof, rfl⟩
    exact ⟨_, rfl, heof⟩

theorem endsIn_of_value {value : Fin (2 ^ 32)} {next : IStream}
    (h : readUnsigned 32 0 input = (value, next)) (hfail : next.fail = false) :
    EndsIn (fuel + 1) input symbols symbols' ↔ value.val ≤ 65535 ∧
      EndsIn fuel next (symbols ++ [Fin.ofNat _ value.val]) symbols' := by
  unfold EndsIn
  rw [parseSymbols, h]
  dsimp only
  rw [hfail, if_neg (by decide)]
  by_cases hle : value.val ≤ 65535
  · rw [throwIf_neg (by omega), ok_bind]
    exact (and_iff_right hle).symm
  · rw [throwIf, if_pos (by omega)]
    refine iff_of_false ?_ fun h => hle h.1
    rintro ⟨last, hrun, -⟩
    cases hrun

/-- At the end of a text it does not matter whether the end has been seen. -/
theorem endsIn_after (hfuel : 0 < fuel) (rest : Text) :
    EndsIn fuel (.after rest false) symbols symbols' ↔
      EndsIn fuel (.ofText rest) symbols symbols' := by
  obtain ⟨fuel, rfl⟩ : ∃ n, fuel = n + 1 := ⟨fuel - 1, by omega⟩
  cases rest with
  | nil => rw [endsIn_of_fail rfl, endsIn_of_fail rfl]; rfl
  | cons d rest => exact Iff.rfl

/-- A piece that is no numeral and does not get the loop stuck at once makes it stop early. -/
theorem Piece.not_endsIn (h : Piece sp c q rest)
    (hdigits : ¬ ∀ d ∈ (splitSign (c :: q)).2, d.isDigit = true) :
    ¬ EndsIn (fuel + 2) (.ofText (sp ++ (c :: q ++ rest))) symbols symbols' := by
  obtain ⟨d, junk, fail, hnext, hd, hbreak⟩ := h.readUnsigned_junk hdigits 0
  generalize hread : readUnsigned 32 0 (.ofText (sp ++ (c :: q ++ rest))) = result at hnext
  obtain ⟨value, next⟩ := result
  dsimp only at hnext
  subst hnext
  cases fail with
  | true =>
    rw [endsIn_of_fail (by rw [hread]; rfl), hread]
    rintro ⟨heof, -⟩
    cases heof
  | false =>
    rw [endsIn_of_value hread rfl]
    rintro ⟨-, hends⟩
    have hspace : isSpace d = false ∧ isSign d = false :=
      Bool.or_eq_false_iff.mp (hbreak rfl)
    have hsign : splitSign (d :: junk) = (false, d :: junk) := by
      rcases splitSign_cases d with ⟨hsign, -⟩ | ⟨-, hsplit⟩
      · rw [hspace.2] at hsign
        cases hsign
      · exact hsplit junk
    have hstuck : (readUnsigned 32 0 (.ofText (d :: junk))).2 = .after (d :: junk) true := by
      have hnone : ∀ d ∈ ([] : Text), isSpace d = true := by simp
      have hentry := fun extract => @formatted_entry [] [d] _ hnone (List.cons_ne_nil d [])
        (by simpa using hspace.1) junk (0 : Fin (2 ^ 32)) extract
      rw [List.nil_append, List.singleton_append] at hentry
      rw [readUnsigned, hentry, hsign]
      dsimp only
      rw [List.takeWhile_cons_of_neg (by simp [hd]), List.dropWhile_cons_of_neg (by simp [hd]),
        if_pos rfl]
    change EndsIn (fuel + 1) (.ofText (d :: junk)) _ _ at hends
    rw [endsIn_of_fail (by rw [hstuck]; rfl), hstuck] at hends
    cases hends.1

/-! Accepted texts. -/

theorem Reads.not_stuck {w : Text} (h : Reads w) : ¬ Stuck w := by
  intro hstuck
  rcases hstuck.no_value with hnil | hle
  · exact h.ne_nil hnil
  · exact absurd h.fits (by omega)

theorem Accepted.head {w : Text} {more : List Text} (h : Accepted text read)
    (hpieces : piecesOf text = w :: more) : Reads w ∨ Stuck w := by
  rcases h.pieces with heq | ⟨dropped, hstuck, heq, -⟩
  · rw [hpieces] at heq
    exact Or.inl (h.reads w (heq ▸ List.mem_cons_self))
  · rw [hpieces] at heq
    cases read with
    | nil =>
      cases heq
      exact Or.inr hstuck
    | cons p read =>
      cases heq
      exact Or.inl (h.reads _ List.mem_cons_self)

theorem accepted_spaces (h : ∀ d ∈ text, isSpace d = true) : Accepted text read ↔ read = [] := by
  have hnil : piecesOf text = [] := (chunks_eq_nil isBreak_of_isSpace).mpr h
  constructor
  · intro haccepted
    rcases haccepted.pieces with heq | ⟨dropped, -, heq, -⟩
    · exact heq.symm.trans hnil
    · rw [hnil] at heq
      exact absurd heq.symm (by simp)
  · rintro rfl
    exact ⟨by simp, Or.inl hnil⟩

theorem getLast?_piece (hrest : rest ≠ []) :
    (sp ++ (c :: q ++ rest)).getLast? = rest.getLast? := by
  rw [← List.append_assoc, List.getLast?_append_of_ne_nil _ hrest]

/-- A piece that is read goes before what is read of the rest. -/
theorem Piece.accepted_of_reads (h : Piece sp c q rest) (hreads : Reads (c :: q)) :
    Accepted (sp ++ (c :: q ++ rest)) read ↔
      ∃ more, read = (c :: q) :: more ∧ Accepted rest more := by
  have hpieces := h.pieces_eq
  constructor
  · rintro ⟨hread, hcases⟩
    rw [hpieces] at hcases
    rcases hcases with rfl | ⟨dropped, hstuck, heq, hlast⟩
    · rw [List.forall_mem_cons] at hread
      exact ⟨_, rfl, hread.2, Or.inl rfl⟩
    · cases read with
      | nil =>
        obtain ⟨rfl, -⟩ := List.cons.inj heq
        exact absurd hstuck hreads.not_stuck
      | cons p more =>
        obtain ⟨rfl, hmore⟩ := List.cons.inj heq
        rw [List.forall_mem_cons] at hread
        have hrest : rest ≠ [] := by
          rintro rfl
          exact absurd hmore.symm (by simp [piecesOf, chunks])
        rw [getLast?_piece hrest] at hlast
        exact ⟨more, rfl, hread.2, Or.inr ⟨dropped, hstuck, hmore, hlast⟩⟩
  · rintro ⟨more, rfl, hread, hcases⟩
    refine ⟨List.forall_mem_cons.mpr ⟨hreads, hread⟩, ?_⟩
    rw [hpieces]
    rcases hcases with heq | ⟨dropped, hstuck, heq, hlast⟩
    · exact Or.inl (by rw [heq])
    · refine Or.inr ⟨dropped, hstuck, by rw [heq]; rfl, ?_⟩
      have hrest : rest ≠ [] := by
        rintro rfl
        exact absurd heq.symm (by simp [piecesOf, chunks])
      rwa [getLast?_piece hrest]

/-- A piece without a value is dropped when the text ends with it. -/
theorem Piece.accepted_of_stuck (h : Piece sp c q rest) (hstuck : Stuck (c :: q)) :
    Accepted (sp ++ (c :: q ++ rest)) read ↔ rest = [] ∧ read = [] := by
  have hpieces := h.pieces_eq
  constructor
  · rintro ⟨hread, hcases⟩
    rw [hpieces] at hcases
    have hnot : ∀ more, read ≠ (c :: q) :: more := by
      rintro more rfl
      exact (hread _ List.mem_cons_self).not_stuck hstuck
    rcases hcases with heq | ⟨dropped, -, heq, hlast⟩
    · exact absurd heq.symm (hnot _)
    · cases read with
      | cons p more =>
        obtain ⟨rfl, -⟩ := List.cons.inj heq
        exact absurd rfl (hnot more)
      | nil =>
        have hnil := (List.cons.inj heq).2
        rw [piecesOf, chunks_eq_nil isBreak_of_isSpace] at hnil
        refine ⟨?_, rfl⟩
        by_contra hrest
        rw [getLast?_piece hrest] at hlast
        have hmem := List.getLast_mem hrest
        have hspace := hlast _ (List.getLast?_eq_some_getLast hrest)
        rw [hnil _ hmem] at hspace
        cases hspace
  · rintro ⟨rfl, rfl⟩
    refine ⟨by simp, Or.inr ⟨c :: q, hstuck, hpieces, ?_⟩⟩
    intro d hd
    rw [List.append_nil, List.getLast?_append_of_ne_nil _ (List.cons_ne_nil c q)] at hd
    exact h.no_space d (List.mem_of_getLast? hd)

theorem endsIn_spaces (hspaces : ∀ d ∈ text, isSpace d = true) :
    EndsIn (fuel + 1) (.ofText text) symbols symbols' ↔
      ∃ read, Accepted text read ∧ symbols' = symbols ++ read.map symbolOf := by
  have hread := formatted_spaces hspaces (0 : Fin (2 ^ 32))
  rw [endsIn_of_fail (by rw [readUnsigned, hread]), readUnsigned, hread]
  constructor
  · rintro ⟨-, rfl⟩
    exact ⟨[], (accepted_spaces hspaces).mpr rfl, by simp⟩
  · rintro ⟨read, haccepted, rfl⟩
    rw [(accepted_spaces hspaces).mp haccepted]
    exact ⟨rfl, by simp⟩

/-- A piece that has no value stops the loop; it is the end of the text or a defect. -/
theorem Piece.endsIn_stuck (h : Piece sp c q rest) (hstuck : Stuck (c :: q))
    (hnext : (readUnsigned 32 0 (.ofText (sp ++ (c :: q ++ rest)))).2 = .after rest true) :
    EndsIn (fuel + 1) (.ofText (sp ++ (c :: q ++ rest))) symbols symbols' ↔
      ∃ read, Accepted (sp ++ (c :: q ++ rest)) read ∧
        symbols' = symbols ++ read.map symbolOf := by
  rw [endsIn_of_fail (by rw [hnext]; rfl), hnext]
  constructor
  · rintro ⟨heof, rfl⟩
    have hrest : rest = [] := List.isEmpty_iff.mp heof
    exact ⟨[], (h.accepted_of_stuck hstuck).mpr ⟨hrest, rfl⟩, by simp⟩
  · rintro ⟨read, haccepted, rfl⟩
    obtain ⟨rfl, rfl⟩ := (h.accepted_of_stuck hstuck).mp haccepted
    exact ⟨rfl, by simp⟩

/-- A numeral whose value is a symbol is taken, and the loop goes on behind it. -/
theorem Piece.endsIn_reads (h : Piece sp c q rest) (hreads : Reads (c :: q))
    (hmore : ∀ symbols, EndsIn fuel (.ofText rest) symbols symbols' ↔
      ∃ read, Accepted rest read ∧ symbols' = symbols ++ read.map symbolOf) :
    EndsIn fuel (.ofText rest) (symbols ++ [symbolOf (c :: q)]) symbols' ↔
      ∃ read, Accepted (sp ++ (c :: q ++ rest)) read ∧
        symbols' = symbols ++ read.map symbolOf := by
  rw [hmore]
  constructor
  · rintro ⟨more, haccepted, rfl⟩
    refine ⟨_, (h.accepted_of_reads hreads).mpr ⟨more, rfl, haccepted⟩, ?_⟩
    rw [List.map_cons, List.append_assoc]
    rfl
  · rintro ⟨read, haccepted, rfl⟩
    obtain ⟨more, rfl, hrest⟩ := (h.accepted_of_reads hreads).mp haccepted
    refine ⟨more, hrest, ?_⟩
    rw [List.map_cons, List.append_assoc]
    rfl

/-- The loop reads the whole text exactly when the text is accepted. -/
theorem endsIn_iff (hfuel : text.length < fuel) : EndsIn fuel (.ofText text) symbols symbols' ↔
    ∃ read, Accepted text read ∧ symbols' = symbols ++ read.map symbolOf := by
  induction fuel generalizing text symbols with
  | zero => omega
  | succ fuel ih =>
    rcases exists_piece text with hspaces | ⟨sp, c, q, rest, h, rfl⟩
    · exact endsIn_spaces hspaces
    have hlen : (sp ++ (c :: q ++ rest)).length = sp.length + (q.length + 1 + rest.length) := by
      rw [List.length_append, List.length_append, List.length_cons]
    by_cases hdigits : ∀ d ∈ (splitSign (c :: q)).2, d.isDigit = true
    · rcases h.readUnsigned_digits hdigits 0 with ⟨hstuck, hnext⟩ | hvalue
      · exact h.endsIn_stuck hstuck hnext
      · obtain ⟨hnumeral, hfits, value, hread, hvalue⟩ := hvalue
        rw [endsIn_of_value hread rfl, hvalue]
        by_cases hle : unsignedValue (c :: q) ≤ 65535
        · have hmore : EndsIn fuel (.ofText rest) (symbols ++ [symbolOf (c :: q)]) symbols' ↔ _ :=
            h.endsIn_reads ⟨hnumeral, hfits, hle⟩ fun symbols => @ih rest symbols (by omega)
          rw [endsIn_after (by omega)]
          exact (and_iff_right hle).trans hmore
        · refine iff_of_false (fun hends => hle hends.1) ?_
          rintro ⟨read, haccepted, -⟩
          rcases haccepted.head h.pieces_eq with hreads | hstuck
          · exact hle hreads.symbol
          · rcases hstuck.no_value with hnil | hge
            · exact hnumeral.ne_nil hnil
            · omega
    · obtain ⟨fuel, rfl⟩ : ∃ n, fuel = n + 1 := ⟨fuel - 1, by omega⟩
      refine iff_of_false (h.not_endsIn hdigits) ?_
      rintro ⟨read, haccepted, -⟩
      rcases haccepted.head h.pieces_eq with hreads | hstuck
      · exact hdigits hreads.digits
      · exact hdigits hstuck.digits

/-- What `parse` returns. -/
theorem parse_eq_ok_iff {p : Pattern} : Pattern.parse text = .ok p ↔
    ∃ read, Accepted text read ∧ (read ≠ [] ∨ text = []) ∧ p = .ofSymbols (read.map symbolOf) := by
  have hends := fun symbols' => @endsIn_iff text (text.length + 1) [] symbols' (Nat.lt_succ_self _)
  simp only [EndsIn, List.nil_append] at hends
  rw [Pattern.parse, bind_eq_ok]
  constructor
  · rintro ⟨⟨symbols', last⟩, hrun, h⟩
    dsimp only at h
    rw [check_bind_eq_ok, check_bind_eq_ok, throwIf_eq_ok, throwIf_eq_ok] at h
    obtain ⟨heof, hsome, hp⟩ := h
    obtain ⟨read, haccepted, rfl⟩ := (hends symbols').mp ⟨last, hrun, by simpa using heof⟩
    refine ⟨read, haccepted, ?_, (Except.ok.inj hp).symm⟩
    rw [not_and_or, not_not] at hsome
    exact hsome.imp_left fun hne hnil => hne (by rw [hnil]; rfl)
  · rintro ⟨read, haccepted, hsome, rfl⟩
    obtain ⟨last, hrun, heof⟩ := (hends _).mpr ⟨read, haccepted, rfl⟩
    refine ⟨_, hrun, ?_⟩
    dsimp only
    rw [throwIf_neg (by simp [heof]), ok_bind, throwIf_neg, ok_bind]
    · rfl
    · rintro ⟨hnil, htext⟩
      rcases hsome with hne | hempty
      · exact hne (List.map_eq_nil_iff.mp hnil)
      · exact htext hempty

/-! Words. -/

/-- A piece does not go on behind a sign, a word does: without inner signs they are the same. -/
theorem piecesOf_eq_wordsOf (h : ∀ w ∈ wordsOf text, ∀ d ∈ w.tail, isSign d = false) :
    piecesOf text = wordsOf text := by
  rw [piecesOf, wordsOf] at *
  induction text with
  | nil => rfl
  | cons c text ih =>
    cases hc : isSpace c with
    | true =>
      rw [chunks, if_pos hc] at h ⊢
      rw [chunks, if_pos hc]
      exact ih h
    | false =>
      have hspaces : ∀ c, isSpace c = true → isSpace c = true := fun _ h => h
      cases text with
      | nil => simp [chunks, hc]
      | cons d text =>
        cases hd : isSpace d with
        | true =>
          have hbreak := isBreak_of_isSpace d hd
          have hword : chunks isSpace (c :: d :: text) = [c] :: chunks isSpace (d :: text) := by
            rw [chunks, hc]
            simp [hd]
          rw [hword, List.forall_mem_cons] at h
          rw [hword, ← ih h.2, chunks, hc]
          simp [hbreak]
        | false =>
          have hword := chunks_cons hspaces hd text
          have hwhole : chunks isSpace (c :: d :: text) =
              (c :: d :: text.takeWhile (!isSpace ·)) ::
                chunks isSpace (text.dropWhile (!isSpace ·)) := by
            rw [chunks, hc, hword]
            simp [hd]
          rw [hwhole, List.forall_mem_cons, List.tail_cons, List.forall_mem_cons] at h
          obtain ⟨⟨hsign, htail⟩, hmore⟩ := h
          have hbreak : isBreak d = false := by rw [isBreak, hd, hsign]; rfl
          have hsame := ih (by rw [hword, List.forall_mem_cons]; exact ⟨htail, hmore⟩)
          rw [hwhole, chunks, hc, hsame, hword]
          simp [hbreak]

theorem IsNumeral.no_sign {w : Text} (h : IsNumeral w) : ∀ d ∈ w.tail, isSign d = false := by
  intro d hd
  cases w with
  | nil => cases hd
  | cons c w =>
    rw [List.tail_cons] at hd
    have hmem : d ∈ (splitSign (c :: w)).2 := by
      rcases splitSign_cases c with ⟨-, hsplit⟩ | ⟨-, hsplit⟩
      · rw [hsplit]
        exact hd
      · rw [hsplit]
        exact List.mem_cons_of_mem c hd
    have hdigit := h.digits d hmem
    cases hs : isSign d with
    | true =>
      have hbreak : isBreak d = true := by rw [isBreak, hs, Bool.or_true]
      rw [not_digit_of_isBreak hbreak] at hdigit
      cases hdigit
    | false => rfl

theorem piecesOf_of_reads (h : ∀ w ∈ wordsOf text, Reads w) : piecesOf text = wordsOf text :=
  piecesOf_eq_wordsOf fun w hw => (h w hw).no_sign

/-- Digits of a symbol, without a sign. -/
structure IsUnsigned (w : Text) : Prop where
  ne_nil : w ≠ []
  digits : ∀ c ∈ w, c.isDigit = true
  le : digitsValue w ≤ 65535

theorem IsUnsigned.reads {w : Text} (h : IsUnsigned w) : Reads w := by
  have hsplit : splitSign w = (false, w) := by
    cases w with
    | nil => rfl
    | cons c w => exact splitSign_digit (h.digits c List.mem_cons_self) w
  have hmagnitude : magnitude w = digitsValue w := by rw [magnitude, hsplit]
  have hle := h.le
  have hfits : magnitude w < 2 ^ 32 := by omega
  refine ⟨⟨by rw [hsplit]; exact h.ne_nil, by rw [hsplit]; exact h.digits⟩, hfits, ?_⟩
  rw [unsignedValue, hsplit, if_neg Bool.false_ne_true, Nat.mod_eq_of_lt hfits]
  omega

/-- The text has pieces that are read and is still not read as its words: some word is several
numerals, or the last piece is dropped. -/
def ReadInPart (text : Text) : Prop :=
  ∃ read, read ≠ [] ∧ (∀ p ∈ read, Reads p) ∧
    (piecesOf text = read ∧ wordsOf text ≠ read ∨
      ∃ dropped, Stuck dropped ∧ piecesOf text = read ++ [dropped] ∧
        ∀ c ∈ text.getLast?, isSpace c = false)

/-- Whatever `parse` returns is one symbol for each word, and it accepts all lists of symbols,
unless it reads the text in part. -/
theorem parse_words_iff (text : Text) :
    ((∀ p, Pattern.parse text = .ok p →
        (∀ w ∈ wordsOf text, Reads w) ∧ p = .ofSymbols ((wordsOf text).map symbolOf)) ∧
      (wordsOf text ≠ [] → (∀ w ∈ wordsOf text, IsUnsigned w) →
        ∃ p, Pattern.parse text = .ok p)) ↔ ¬ ReadInPart text := by
  constructor
  · rintro ⟨hparse, -⟩ ⟨read, hne, hread, hcases⟩
    have haccepted : Accepted text read := ⟨hread, hcases.imp_left And.left⟩
    obtain ⟨hwords, -⟩ := hparse _ (parse_eq_ok_iff.mpr ⟨read, haccepted, Or.inl hne, rfl⟩)
    have hsame := piecesOf_of_reads hwords
    rcases hcases with ⟨hpieces, hdiffer⟩ | ⟨dropped, hstuck, hpieces, -⟩
    · exact hdiffer (hsame.symm.trans hpieces)
    · refine (hwords dropped ?_).not_stuck hstuck
      rw [← hsame, hpieces]
      exact List.mem_append_right _ List.mem_cons_self
  · intro hwhole
    constructor
    · intro p hp
      obtain ⟨read, haccepted, hsome, rfl⟩ := parse_eq_ok_iff.mp hp
      rcases hsome with hne | rfl
      · have hpieces : piecesOf text = read := by
          rcases haccepted.pieces with hpieces | hdropped
          · exact hpieces
          · exact absurd ⟨read, hne, haccepted.reads, Or.inr hdropped⟩ hwhole
        have hwords : wordsOf text = read := by
          by_contra hdiffer
          exact hwhole ⟨read, hne, haccepted.reads, Or.inl ⟨hpieces, hdiffer⟩⟩
        rw [hwords]
        exact ⟨haccepted.reads, rfl⟩
      · have hnil := (accepted_spaces (List.forall_mem_nil _)).mp haccepted
        rw [hnil]
        exact ⟨by simp [wordsOf, chunks], rfl⟩
    · intro hne hunsigned
      have hwords : ∀ w ∈ wordsOf text, Reads w := fun w hw => (hunsigned w hw).reads
      exact ⟨_, parse_eq_ok_iff.mpr
        ⟨_, ⟨hwords, Or.inl (piecesOf_of_reads hwords)⟩, Or.inl hne, rfl⟩⟩

/-- A sign at the end is dropped. -/
theorem not_parse_words : ¬ ∀ text p, Pattern.parse text = .ok p →
    (∀ w ∈ wordsOf text, Reads w) ∧ p = .ofSymbols ((wordsOf text).map symbolOf) := by
  intro h
  have hlast := (h "1 -".toList (.ofSymbols [1]) (by decide)).1 ['-'] (by decide)
  exact hlast.ne_nil rfl

end ByteSelect
