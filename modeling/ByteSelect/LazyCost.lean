import ByteSelect.LazySelection

/-! The lazy loop never evaluates more coverages than the exhaustive one. -/
namespace ByteSelect

open WhileLoop

variable {lib : Library} {candidates : List Pattern} {maxPatterns : SizeT}
  {s s' : LazyState} {t t' : ExhaustiveState} {atoms : CountMap}

/-- The entries whose cached coverage is older than the last selection. -/
def staleEntries (s : LazyState) : ℕ := s.queue.countP fun entry => entry.iteration ≠ s.iteration

/-- The exhaustive loop pays for a round at its end and the lazy one while it lasts: until the
next selection it may still refresh each stale entry once. -/
structure CostInv (maxPatterns : SizeT) (s : LazyState) (t : ExhaustiveState) : Prop where
  running : s.stopped = false →
    s.coverageEvaluations + staleEntries s ≤ t.coverageEvaluations + s.queue.length
  finished : s.stopped = true ∨ maxPatterns.val ≤ s.patterns.length →
    s.coverageEvaluations ≤ t.coverageEvaluations

theorem length_waiting (hinv : LazyInv lib candidates s) :
    (waiting candidates s.queue).length = s.queue.length := by
  rw [waiting, List.length_filterMap_eq_countP, List.countP_eq_length]
  intro entry he
  obtain ⟨p, hp⟩ := hinv.entries entry he
  simp [hp.candidate]

theorem exhaustiveStep_evaluations (h : exhaustiveStep lib maxPatterns t = some t') :
    t'.coverageEvaluations = t.coverageEvaluations + t.candidates.length := by
  obtain ⟨-, -, index, p, count, -, -, ⟨-, rfl⟩ | ⟨-, rfl⟩⟩ := exhaustiveStep_cases h
  · rfl
  · rfl

/-- A refresh pays for one stale entry; the turns that end a round pay nothing. -/
theorem lazyStep_cost (hinv : LazyInv lib candidates s) (hm : Matches candidates s t)
    (hc : CostInv maxPatterns s t) (h : lazyStep lib maxPatterns candidates s = some s') :
    (Matches candidates s' t ∧ CostInv maxPatterns s' t) ∨
      ∃ t', exhaustiveStep lib maxPatterns t = some t' ∧ Matches candidates s' t' ∧
        CostInv maxPatterns s' t' := by
  obtain ⟨hrun, hlen, top, rest, p, hperm, -, -, hcases⟩ := lazyStep_cases hinv h
  have hbudget := hc.running hrun
  have hqueue : s.queue.length = rest.length + 1 := hperm.length_eq.symm
  have hcandidates : t.candidates.length = s.queue.length :=
    (hm.candidates hrun).length_eq.trans (length_waiting hinv)
  have hrefresh (hstale : top.iteration ≠ s.iteration) {u : ExhaustiveState}
      (hu : t.coverageEvaluations ≤ u.coverageEvaluations) :
      CostInv maxPatterns { s with
        queue := { top with
          upperBound := coverage lib p s.uncovered, iteration := s.iteration } :: rest
        coverageEvaluations := s.coverageEvaluations + 1 } u := by
    have hcount := hperm.countP_eq fun entry => decide (entry.iteration ≠ s.iteration)
    rw [List.countP_cons_of_pos (by simpa using hstale)] at hcount
    rw [staleEntries, ← hcount] at hbudget
    refine ⟨fun _ => ?_, ?_⟩
    · rw [staleEntries, List.countP_cons_of_neg (by simp), List.length_cons]
      dsimp only
      omega
    · rintro (hstop | hfull)
      · exact absurd hstop (by simp [hrun])
      · exact absurd hfull (not_le.mpr hlen)
  rcases lazyStep_matches hinv hm h with hstay | ⟨t', ht, hmove⟩
  · left
    refine ⟨hstay, ?_⟩
    rcases hcases with ⟨hstale, rfl⟩ | ⟨-, -, rfl⟩ | ⟨-, -, rfl⟩
    · exact hrefresh hstale le_rfl
    · have hstop := hm.stopped.symm.trans hstay.stopped
      simp [hrun] at hstop
    · have hpatterns : s.patterns = s.patterns ++ [p] := hm.patterns.symm.trans hstay.patterns
      simp at hpatterns
  · right
    have hpaid := exhaustiveStep_evaluations ht
    refine ⟨t', ht, hmove, ?_⟩
    rcases hcases with ⟨hstale, rfl⟩ | ⟨-, -, rfl⟩ | ⟨-, -, rfl⟩
    · exact hrefresh hstale (by omega)
    · refine ⟨fun hstop => absurd hstop (by simp), fun _ => ?_⟩
      dsimp only
      omega
    · have hall : rest.countP (fun entry => entry.iteration ≠ s.iteration + 1) ≤ rest.length :=
        List.countP_le_length
      refine ⟨fun _ => ?_, fun _ => ?_⟩
      · rw [staleEntries]
        dsimp only [Selected.select]
        omega
      · dsimp only [Selected.select]
        omega

theorem selectLazy_evaluations (hsmall : atoms.Small) (hmax : maxPatterns ≠ 0) :
    (selectLazy lib maxPatterns candidates atoms).coverageEvaluations ≤
      (selectExhaustive lib maxPatterns candidates atoms).coverageEvaluations := by
  have hstart : CostInv maxPatterns
      { uncovered := atoms
        coverageEvaluations := candidates.length
        queue := lazyQueue lib candidates atoms
        selected := List.replicate candidates.length false }
      { uncovered := atoms, candidates := candidates } := by
    refine ⟨fun _ => ?_, ?_⟩
    · have hfresh :
          (lazyQueue lib candidates atoms).countP (fun entry => entry.iteration ≠ 0) = 0 :=
        countP_stale_lazyQueue
      rw [staleEntries, hfresh]
      simp [lazyQueue]
    · rintro (hstop | hfull)
      · cases hstop
      · exact absurd (Nat.le_zero.mp hfull) (Fin.val_ne_zero_iff.mpr hmax)
  obtain ⟨s, t, hinv, hm, hcost, hhalt, hs, ht⟩ :=
    selectLazy_related hsmall hstart fun _ _ _ hinv hm hcost => lazyStep_cost hinv hm hcost
  rw [hs, ht]
  by_cases hdone : s.stopped = true ∨ maxPatterns.val ≤ s.patterns.length
  · exact hcost.finished hdone
  · rw [not_or, Bool.not_eq_true] at hdone
    have hempty : s.queue = [] := queue_of_halted hinv hhalt hdone.1 (by omega)
    have hbudget := hcost.running hdone.1
    rw [hempty, List.length_nil] at hbudget
    exact (Nat.le_add_right _ _).trans hbudget

/-- Lazy training evaluates at most the coverages that exhaustive training evaluates. -/
theorem trainCounts_lazy_evaluations {config : TrainingConfig} {counts : CountMap}
    {lazy exhaustive : Trainer} (lib : Library)
    (hlazy : makeTrainer { config with selectionMode := .lazyExact } = .ok lazy)
    (hexhaustive : makeTrainer { config with selectionMode := .exhaustive } = .ok exhaustive)
    (hsize : ∀ entry ∈ counts.entries, entry.1.size = config.blockSize.val)
    (hsum : (counts.entries.map fun entry => entry.2.val).sum < 2 ^ 64) :
    ∃ a b, lazy.trainCounts lib counts = .ok a ∧ exhaustive.trainCounts lib counts = .ok b ∧
      a.stats.coverageEvaluations ≤ b.stats.coverageEvaluations := by
  have hl := makeTrainer_config hlazy
  have he := makeTrainer_config hexhaustive
  have hmax : config.maxPatterns ≠ 0 := by
    have hpos := lazy.accepted.2.2.1
    rwa [hl] at hpos
  refine ⟨_, _, trainCounts_eq lib lazy (by rwa [hl]), trainCounts_eq lib exhaustive (by rwa [he]),
    ?_⟩
  dsimp only
  rw [hl, he]
  exact selectLazy_evaluations (small_retained (CountMap.small_iff.mpr hsum)) hmax

theorem exampleCounts_lazy_evaluations :
    ∃ a b, Trainer.trainCounts insertionLibrary ⟨exampleConfig .lazyExact, by decide⟩
        exampleCounts = .ok a ∧
      Trainer.trainCounts insertionLibrary ⟨exampleConfig .exhaustive, by decide⟩
        exampleCounts = .ok b ∧
      a.stats.coverageEvaluations ≤ b.stats.coverageEvaluations :=
  @trainCounts_lazy_evaluations (exampleConfig .lazyExact) exampleCounts _ _ insertionLibrary
    rfl rfl (by decide) (by decide)

end ByteSelect
