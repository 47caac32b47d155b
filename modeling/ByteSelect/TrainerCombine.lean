import ByteSelect.TrainerMultiset

/-! What the combination phase returns: joins of atoms, none of which can be joined further. -/
namespace ByteSelect

open WhileLoop

variable {lib : Library} {atoms : CountMap} {n : ℕ} {patterns patterns' : List Pattern}
  {dictionarySize : SizeT} {p q : Pattern}

/-- A pattern above some atom, and below every pattern that is above the same atoms. -/
structure JoinOfAtoms (n : ℕ) (atoms : CountMap) (p : Pattern) : Prop where
  exists_below : ∃ a ∈ atoms.entries.map Prod.fst, a.leq p = true
  least : ∀ r : Pattern, r.size = n →
    (∀ a ∈ atoms.entries.map Prod.fst, a.leq p = true → a.leq r = true) → p.leq r = true

/-- What every turn of the combination loop keeps. -/
structure Combined (n : ℕ) (dictionarySize : SizeT) (atoms : CountMap) (patterns : List Pattern) :
    Prop extends Covering n atoms patterns where
  nodup : patterns.Nodup
  rank_le : ∀ p ∈ patterns, p.rank ≤ dictionarySize.val
  join : ∀ p ∈ patterns, JoinOfAtoms n atoms p

theorem joinOfAtoms_atom (h : p ∈ atoms.entries.map Prod.fst) : JoinOfAtoms n atoms p :=
  ⟨⟨p, h, Pattern.leq_refl p⟩, fun _ _ hbelow => hbelow p h (Pattern.leq_refl p)⟩

/-- The join of two joins of atoms is the join of the atoms below it. -/
theorem JoinOfAtoms.lub (hp : JoinOfAtoms n atoms p) (hq : JoinOfAtoms n atoms q)
    (hatoms : ∀ a ∈ atoms.entries.map Prod.fst, a.size = n) (hps : p.size = n) (hqs : q.size = n)
    (hn : n ≤ 2 ^ 16) : JoinOfAtoms n atoms (p.lub q) := by
  have hpq : p.size = q.size := hps.trans hqs.symm
  have hn' : p.size ≤ 2 ^ 16 := hps ▸ hn
  have hupper : (p.lub q).size = n := (Pattern.size_lub hpq).trans hps
  have hleft : p.leq (p.lub q) = true := Pattern.leq_lub_left hpq hn'
  have hright : q.leq (p.lub q) = true := Pattern.leq_lub_right hpq hn'
  refine ⟨?_, ?_⟩
  · obtain ⟨a, ha, hle⟩ := hp.exists_below
    exact ⟨a, ha,
      Pattern.leq_trans ((hatoms a ha).trans hps.symm) (hps.trans hupper.symm) hle hleft⟩
  · intro r hr hbelow
    apply Pattern.lub_leq hpq (hqs.trans hr.symm) hn'
    · apply hp.least r hr
      intro a ha hle
      exact hbelow a ha
        (Pattern.leq_trans ((hatoms a ha).trans hps.symm) (hps.trans hupper.symm) hle hleft)
    · apply hq.least r hr
      intro a ha hle
      exact hbelow a ha
        (Pattern.leq_trans ((hatoms a ha).trans hqs.symm) (hqs.trans hupper.symm) hle hright)

theorem combined_maximalPatterns (hsize : ∀ a ∈ atoms.entries.map Prod.fst, a.size = n)
    (hrank : ∀ a ∈ atoms.entries.map Prod.fst, a.rank ≤ dictionarySize.val) :
    Combined n dictionarySize atoms (maximalPatterns lib atoms) := by
  refine ⟨covering_maximalPatterns hsize, nodup_maximalPatterns, ?_, ?_⟩
  · intro p hp
    exact hrank p (mem_maximalPatterns.mp hp).1
  · intro p hp
    exact joinOfAtoms_atom (mem_maximalPatterns.mp hp).1

theorem Combined.sort (h : Combined n dictionarySize atoms patterns) :
    Combined n dictionarySize atoms (sortPatterns patterns) := by
  have hperm := sortPatterns_perm patterns
  exact ⟨h.toCovering.sort, hperm.nodup_iff.mpr h.nodup,
    fun p hp => h.rank_le p (hperm.subset hp), fun p hp => h.join p (hperm.subset hp)⟩

theorem combineStep_combined (hn : n ≤ 2 ^ 16) (hc : Combined n dictionarySize atoms patterns)
    (h : combineStep dictionarySize patterns = some patterns') :
    Combined n dictionarySize atoms patterns' := by
  obtain ⟨p, q, rest, hperm, hrank, hmem, -⟩ := combineStep_cases h
  have hp : p ∈ patterns := hperm.symm.subset List.mem_cons_self
  have hq : q ∈ patterns := hperm.symm.subset (List.mem_cons_of_mem p List.mem_cons_self)
  have hrest : ∀ r ∈ rest, r ∈ patterns := by
    intro r hr
    exact hperm.symm.subset (List.mem_cons_of_mem p (List.mem_cons_of_mem q hr))
  refine ⟨combineStep_covering hn hc.toCovering h, combineStep_nodup hc.nodup h, ?_, ?_⟩
  · intro r hr
    rcases (hmem r).mp hr with rfl | ⟨hr, -⟩
    · exact hrank
    · exact hc.rank_le r (hrest r hr)
  · intro r hr
    rcases (hmem r).mp hr with rfl | ⟨hr, -⟩
    · exact (hc.join p hp).lub (hc.join q hq) hc.atom_size (hc.size_eq p hp) (hc.size_eq q hq) hn
    · exact hc.join r (hrest r hr)

theorem combined_combineGreedily (hn : n ≤ 2 ^ 16)
    (hc : Combined n dictionarySize atoms patterns) :
    Combined n dictionarySize atoms (combineGreedily patterns dictionarySize) :=
  run_invariant (fun _ _ => combineStep_combined hn) _ hc.sort

/-! The double scan finds a pair whenever there is one. -/

theorem findPartner_none {others : List Pattern} {j : ℕ}
    (h : findPartner dictionarySize p j others = none) :
    ∀ q ∈ others, dictionarySize.val < (p.lub q).rank := by
  induction others generalizing j with
  | nil => simp
  | cons other others ih =>
    rw [findPartner] at h
    split at h
    · rename_i hrank
      exact List.forall_mem_cons.mpr ⟨hrank, ih h⟩
    · cases h

theorem findPair_none {i : ℕ} (h : findPair dictionarySize i patterns = none) :
    patterns.Pairwise fun p q => dictionarySize.val < (p.lub q).rank := by
  induction patterns generalizing i with
  | nil => exact .nil
  | cons first patterns ih =>
    rw [findPair] at h
    cases hf : findPartner dictionarySize first (i + 1) patterns with
    | some found => simp [hf] at h
    | none =>
      rw [hf] at h
      exact .cons (findPartner_none hf) (ih h)

/-- A loop that is over has no two patterns left to join. -/
theorem Combined.lt_rank_lub (hc : Combined n dictionarySize atoms patterns) (hn : n ≤ 2 ^ 16)
    (hhalt : combineStep dictionarySize patterns = none) (hp : p ∈ patterns) (hq : q ∈ patterns)
    (hne : p ≠ q) : dictionarySize.val < (p.lub q).rank := by
  have hpairs := List.pairwise_iff_getElem.mp (findPair_none (Option.map_eq_none_iff.mp hhalt))
  have hps := hc.size_eq p hp
  have hqs := hc.size_eq q hq
  obtain ⟨i, hi, rfl⟩ := List.getElem_of_mem hp
  obtain ⟨j, hj, rfl⟩ := List.getElem_of_mem hq
  rcases lt_trichotomy i j with hlt | rfl | hgt
  · exact hpairs i j hi hj hlt
  · exact absurd rfl hne
  · rw [Pattern.lub_comm (hps.trans hqs.symm) (hps ▸ hn)]
    exact hpairs j i hj hi hgt

/-- Patterns of legal rank that cannot be joined are incomparable. -/
theorem Combined.leq_eq_false (hc : Combined n dictionarySize atoms patterns) (hn : n ≤ 2 ^ 16)
    (hhalt : combineStep dictionarySize patterns = none) (hp : p ∈ patterns) (hq : q ∈ patterns)
    (hne : p ≠ q) : p.leq q = false := by
  have hrank := hc.lt_rank_lub hn hhalt hp hq hne
  have hle := hc.rank_le q hq
  have hps := hc.size_eq p hp
  have hpq : p.size = q.size := hps.trans (hc.size_eq q hq).symm
  rw [← Bool.not_eq_true]
  intro hbelow
  have hlub : (p.lub q).leq q = true :=
    Pattern.lub_leq hpq rfl (hps ▸ hn) hbelow (Pattern.leq_refl q)
  have hmono := Pattern.rank_le_of_leq ((Pattern.size_lub hpq).trans hpq) hlub
  omega

/-- Combination ends in distinct joins of atoms that cover all of them and admit no join. -/
theorem combineGreedily_maximalPatterns (lib : Library) (hn : n ≤ 65536)
    (hsize : ∀ a ∈ atoms.entries.map Prod.fst, a.size = n)
    (hrank : ∀ a ∈ atoms.entries.map Prod.fst, a.rank ≤ dictionarySize.val) :
    let atomSet := atoms.entries.map Prod.fst
    let combined := combineGreedily (maximalPatterns lib atoms) dictionarySize
    combineStep dictionarySize combined = none ∧ combined.Nodup ∧
      (∀ p ∈ combined, p.rank ≤ dictionarySize.val) ∧
      (∀ a ∈ atomSet, ∃ p ∈ combined, a.lessEqual p = .ok true) ∧
      (∀ p ∈ combined, (∃ a ∈ atomSet, a.lessEqual p = .ok true) ∧
        ∀ r : Pattern, r.size = n →
          (∀ a ∈ atomSet, a.lessEqual p = .ok true → a.lessEqual r = .ok true) →
          p.lessEqual r = .ok true) ∧
      ∀ p ∈ combined, ∀ q ∈ combined, p ≠ q →
        (∃ upper, p.leastUpperBound q = .ok upper ∧ dictionarySize.val < upper.rank) ∧
        p.lessEqual q = .ok false := by
  have hc := combined_combineGreedily hn (@combined_maximalPatterns lib _ _ _ hsize hrank)
  have hhalt : combineStep dictionarySize
      (combineGreedily (maximalPatterns lib atoms) dictionarySize) = none := combineGreedily_halted
  refine ⟨hhalt, hc.nodup, hc.rank_le, ?_, ?_, ?_⟩
  · intro a ha
    obtain ⟨p, hp, hle⟩ := hc.covered a ha
    exact ⟨p, hp, by rw [Pattern.lessEqual_eq_ok ((hsize a ha).trans (hc.size_eq p hp).symm), hle]⟩
  · intro p hp
    have hps := hc.size_eq p hp
    have hbelow : ∀ a ∈ atoms.entries.map Prod.fst,
        (a.lessEqual p = .ok true ↔ a.leq p = true) := by
      intro a ha
      simp [Pattern.lessEqual_eq_ok ((hsize a ha).trans hps.symm)]
    refine ⟨?_, ?_⟩
    · obtain ⟨a, ha, hle⟩ := (hc.join p hp).exists_below
      exact ⟨a, ha, (hbelow a ha).mpr hle⟩
    · intro r hr hall
      rw [Pattern.lessEqual_eq_ok (hps.trans hr.symm), (hc.join p hp).least r hr]
      intro a ha hle
      have har := hall a ha ((hbelow a ha).mpr hle)
      rw [Pattern.lessEqual_eq_ok ((hsize a ha).trans hr.symm)] at har
      exact Except.ok.inj har
  · intro p hp q hq hne
    have hpq : p.size = q.size := (hc.size_eq p hp).trans (hc.size_eq q hq).symm
    refine ⟨⟨p.lub q, Pattern.leastUpperBound_eq_ok hpq, hc.lt_rank_lub hn hhalt hp hq hne⟩, ?_⟩
    rw [Pattern.lessEqual_eq_ok hpq, hc.leq_eq_false hn hhalt hp hq hne]

/-- Two incomparable atoms whose join has rank three, and an atom below both. -/
def exampleAtoms : CountMap :=
  ((CountMap.empty.emplace (.simplest [7, 7, 7]) 5).emplace (.simplest [7, 8, 7]) 4).emplace
    (.simplest [7, 8, 8]) 3

theorem exampleAtoms_combineGreedily :
    let atomSet := exampleAtoms.entries.map Prod.fst
    let combined := combineGreedily (maximalPatterns insertionLibrary exampleAtoms) 2
    combineStep 2 combined = none ∧ combined.Nodup ∧
      (∀ p ∈ combined, p.rank ≤ (2 : SizeT).val) ∧
      (∀ a ∈ atomSet, ∃ p ∈ combined, a.lessEqual p = .ok true) ∧
      (∀ p ∈ combined, (∃ a ∈ atomSet, a.lessEqual p = .ok true) ∧
        ∀ r : Pattern, r.size = 3 →
          (∀ a ∈ atomSet, a.lessEqual p = .ok true → a.lessEqual r = .ok true) →
          p.lessEqual r = .ok true) ∧
      ∀ p ∈ combined, ∀ q ∈ combined, p ≠ q →
        (∃ upper, p.leastUpperBound q = .ok upper ∧ (2 : SizeT).val < upper.rank) ∧
        p.lessEqual q = .ok false :=
  @combineGreedily_maximalPatterns exampleAtoms 3 2 insertionLibrary (by decide) (by decide)
    (by decide)

end ByteSelect
