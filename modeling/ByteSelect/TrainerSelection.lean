import ByteSelect.Trainer
import ByteSelect.WeightedCover
import ByteSelect.PatternOrder
import Mathlib.Data.List.Lex
import Mathlib.Order.Fin.Basic

/-! One round of selection, and what the rounds of both modes keep. -/
namespace ByteSelect

open WeightedCover WhileLoop

variable {lib : Library} {p q : Pattern} {atoms : CountMap}

/-- The atoms a pattern covers. -/
def below (p : Pattern) (atom : Pattern) : Bool := atom.leq p

def CountMap.weighted (map : CountMap) : List (Pattern × ℕ) :=
  map.entries.map fun entry => (entry.1, entry.2.val)

/-- The counts of a map do not overflow when added up. -/
def CountMap.Small (map : CountMap) : Prop := weight map.weighted < 2 ^ 64

theorem val_foldl_coverage {l : List (Pattern × U64)} {a : U64}
    (h : a.val + weight (l.map fun entry => (entry.1, entry.2.val)) < 2 ^ 64) :
    (l.foldl (fun total entry => if entry.1.leq p then total + entry.2 else total) a).val =
      a.val + gain (below p) (l.map fun entry => (entry.1, entry.2.val)) := by
  induction l generalizing a with
  | nil => simp [gain]
  | cons x l ih =>
    rw [List.map_cons, weight_cons] at h
    rw [List.foldl_cons, List.map_cons, gain, List.filter_cons, below]
    by_cases hx : x.1.leq p = true
    · have hadd : (a + x.2).val = a.val + x.2.val := by
        rw [Fin.val_add, Nat.mod_eq_of_lt (by omega)]
      rw [if_pos hx, if_pos hx, ih (by rw [hadd]; omega), hadd, weight_cons, gain]
      exact Nat.add_assoc _ _ _
    · rw [if_neg hx, if_neg hx, ih (by omega), gain]

/-- Coverage adds up the counts of the atoms below, in whatever order they are visited. -/
theorem val_coverage (h : atoms.Small) :
    (coverage lib p atoms).val = gain (below p) atoms.weighted := by
  have hperm := (lib.visit_perm atoms.entries).map fun entry => (entry.1, entry.2.val)
  have hsmall : (0 : U64).val + weight ((lib.visit atoms.entries).map
      fun entry => (entry.1, entry.2.val)) < 2 ^ 64 := by
    rw [weight_perm hperm]
    simpa [CountMap.Small, CountMap.weighted] using h
  rw [coverage, val_foldl_coverage hsmall, gain_perm hperm]
  exact Nat.zero_add _

theorem weighted_eraseBelow (atoms : CountMap) (p : Pattern) :
    (atoms.eraseBelow p).weighted = remove (below p) atoms.weighted := by
  simp only [CountMap.weighted, CountMap.eraseBelow, remove, List.filter_map]
  rfl

theorem small_eraseBelow (h : atoms.Small) : (atoms.eraseBelow p).Small := by
  rw [CountMap.Small, weighted_eraseBelow]
  exact lt_of_le_of_lt weight_remove_le h

/-- Erasing atoms never raises a coverage. -/
theorem coverage_eraseBelow_le (h : atoms.Small) :
    coverage lib q (atoms.eraseBelow p) ≤ coverage lib q atoms := by
  rw [Fin.le_def, val_coverage h, val_coverage (small_eraseBelow h), weighted_eraseBelow]
  exact gain_remove_le

/-! The order of the candidates. -/

theorem lt_iff : p.lt q = true ↔ p.symbols < q.symbols := by simp [Pattern.lt]

theorem not_lt_iff : p.lt q = false ↔ q.symbols ≤ p.symbols := by
  rw [← Bool.not_eq_true, lt_iff, not_lt]

theorem eq_of_symbols_eq (h : p.symbols = q.symbols) : p = q := by
  cases p
  cases q
  simp_all

/-- A candidate no other beats: by coverage first, by the lexicographic order second. -/
structure IsBest (lib : Library) (uncovered : CountMap) (candidates : List Pattern)
    (p : Pattern) (count : U64) : Prop where
  count_eq : count = coverage lib p uncovered
  mem : p ∈ candidates
  best : ∀ q ∈ candidates, coverage lib q uncovered < count ∨
    (coverage lib q uncovered = count ∧ p.symbols ≤ q.symbols)

theorem IsBest.unique {uncovered : CountMap} {candidates : List Pattern} {c d : U64}
    (hp : IsBest lib uncovered candidates p c) (hq : IsBest lib uncovered candidates q d) :
    p = q ∧ c = d := by
  have h₁ := hp.best q hq.mem
  have h₂ := hq.best p hp.mem
  rw [← hq.count_eq] at h₁
  rw [← hp.count_eq] at h₂
  rcases h₁ with h₁ | ⟨he, hle⟩
  · rcases h₂ with h₂ | ⟨he, -⟩
    · exact absurd h₁ (lt_asymm h₂)
    · exact absurd he h₁.ne'
  · rcases h₂ with h₂ | ⟨-, hge⟩
    · exact absurd he h₂.ne'
    · exact ⟨eq_of_symbols_eq (le_antisymm hle hge), he.symm⟩

theorem IsBest.perm {uncovered : CountMap} {candidates candidates' : List Pattern} {c : U64}
    (h : IsBest lib uncovered candidates p c) (hperm : candidates.Perm candidates') :
    IsBest lib uncovered candidates' p c :=
  ⟨h.count_eq, hperm.mem_iff.mp h.mem, fun q hq => h.best q (hperm.mem_iff.mpr hq)⟩

/-- The scan keeps the best of what it has looked at, with its index. -/
theorem bestCandidate_spec {uncovered : CountMap} {candidates seen rest : List Pattern}
    {best : ℕ × Pattern × U64} (hsplit : candidates = seen ++ rest)
    (hidx : candidates[best.1]? = some best.2.1)
    (hbest : IsBest lib uncovered seen best.2.1 best.2.2) :
    let final := bestCandidate lib uncovered best seen.length rest
    candidates[final.1]? = some final.2.1 ∧
      IsBest lib uncovered candidates final.2.1 final.2.2 := by
  induction rest generalizing seen best with
  | nil =>
    rw [List.append_nil] at hsplit
    exact ⟨hidx, hsplit ▸ hbest⟩
  | cons q rest ih =>
    have hsplit' : candidates = (seen ++ [q]) ++ rest := by simp [hsplit]
    have hlen : seen.length + 1 = (seen ++ [q]).length := by simp
    have hq : candidates[seen.length]? = some q := by simp [hsplit]
    rw [bestCandidate]
    split
    · rename_i hbetter
      rw [hlen]
      refine ih hsplit' hq ⟨rfl, by simp, ?_⟩
      intro r hr
      rcases List.mem_append.mp hr with hr | hr
      · rcases hbetter with hgt | ⟨heq, hlt⟩
        · rcases hbest.best r hr with h | ⟨h, -⟩
          · exact Or.inl (h.trans hgt)
          · exact Or.inl (h.trans_lt hgt)
        · rw [heq]
          rcases hbest.best r hr with h | ⟨h, hle⟩
          · exact Or.inl h
          · exact Or.inr ⟨h, ((lt_iff.mp hlt).trans_le hle).le⟩
      · rw [List.mem_singleton.mp hr]
        exact Or.inr ⟨rfl, le_rfl⟩
    · rename_i hworse
      rw [hlen]
      refine ih hsplit' hidx ⟨hbest.count_eq, by simp [hbest.mem], ?_⟩
      intro r hr
      rcases List.mem_append.mp hr with hr | hr
      · exact hbest.best r hr
      · rw [List.mem_singleton.mp hr]
        rw [not_or, not_and, not_lt] at hworse
        rcases hworse.1.lt_or_eq with h | h
        · exact Or.inl h
        · exact Or.inr ⟨h, not_lt_iff.mp (by simpa using hworse.2 h)⟩

/-- What one turn of the exhaustive loop does. -/
theorem exhaustiveStep_cases {maxPatterns : SizeT} {s s' : ExhaustiveState}
    (h : exhaustiveStep lib maxPatterns s = some s') :
    s.stopped = false ∧ s.patterns.length < maxPatterns.val ∧
    ∃ index p count, s.candidates[index]? = some p ∧
      IsBest lib s.uncovered s.candidates p count ∧
      let evaluated := { s.toSelected with
        coverageEvaluations := s.coverageEvaluations + s.candidates.length }
      ((count = 0 ∧ s' = { evaluated with stopped := true, candidates := s.candidates }) ∨
        (count ≠ 0 ∧ s' = { evaluated.select p count with
          candidates := s.candidates.eraseIdx index })) := by
  unfold exhaustiveStep at h
  split at h
  · cases h
  · rename_i hrun
    rw [not_or, not_le] at hrun
    refine ⟨by simpa using hrun.1, hrun.2, ?_⟩
    cases hc : s.candidates with
    | nil => simp [hc] at h
    | cons first others =>
      rw [hc] at h
      have hfirst : IsBest lib s.uncovered [first] first (coverage lib first s.uncovered) := by
        refine ⟨rfl, by simp, ?_⟩
        intro q hq
        rw [List.mem_singleton.mp hq]
        exact Or.inr ⟨rfl, le_rfl⟩
      have hsplit : first :: others = [first] ++ others := rfl
      have hspec := @bestCandidate_spec lib s.uncovered _ _ _
        (0, first, coverage lib first s.uncovered) hsplit rfl hfirst
      refine ⟨_, _, _, hspec.1, hspec.2, ?_⟩
      dsimp only at h
      split at h
      · rename_i hz
        exact Or.inl ⟨hz, (Option.some.inj h).symm⟩
      · rename_i hz
        exact Or.inr ⟨hz, (Option.some.inj h).symm⟩

/-- The exhaustive loop goes on while it may and has candidates. -/
theorem exhaustiveStep_some {maxPatterns : SizeT} {s : ExhaustiveState} (hrun : s.stopped = false)
    (hlen : s.patterns.length < maxPatterns.val) (hc : s.candidates ≠ []) :
    ∃ s', exhaustiveStep lib maxPatterns s = some s' := by
  have hnot : ¬ (s.stopped = true ∨ s.patterns.length ≥ maxPatterns.val) := by
    rw [hrun]
    simp [hlen]
  unfold exhaustiveStep
  rw [if_neg hnot]
  cases h : s.candidates with
  | nil => exact absurd h hc
  | cons first others =>
    dsimp only
    split
    · exact ⟨_, rfl⟩
    · exact ⟨_, rfl⟩

end ByteSelect
