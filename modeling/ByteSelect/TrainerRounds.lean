import ByteSelect.LazySelection

/-! Invariants of the selection rounds: what is uncovered, what each round gained. -/
namespace ByteSelect

open WeightedCover WhileLoop

variable {lib : Library} {candidates : List Pattern} {maxPatterns : SizeT}
  {t t' : ExhaustiveState} {atoms : CountMap}

/-- The sets of atoms the chosen patterns cover, in the order of the choices. -/
def covering (patterns : List Pattern) : List (Pattern → Bool) := patterns.map below

structure RoundsInv (lib : Library) (candidates : List Pattern) (atoms : CountMap)
    (t : ExhaustiveState) : Prop where
  small : t.uncovered.Small
  uncovered : t.uncovered.weighted = removeAll (covering t.patterns) atoms.weighted
  marginals : t.marginalCounts.map Fin.val = marginals (covering t.patterns) atoms.weighted
  mem_iff : ∀ p, p ∈ t.candidates ∨ p ∈ t.patterns ↔ p ∈ candidates
  stopped : t.stopped = true → ∀ p ∈ t.candidates, coverage lib p t.uncovered = 0

theorem roundsInv_start (hsmall : atoms.Small) :
    RoundsInv lib candidates atoms { uncovered := atoms, candidates := candidates } :=
  ⟨hsmall, rfl, rfl, fun p => by simp, fun h => by cases h⟩

theorem exhaustiveStep_rounds (hinv : RoundsInv lib candidates atoms t)
    (h : exhaustiveStep lib maxPatterns t = some t') : RoundsInv lib candidates atoms t' := by
  obtain ⟨-, -, index, p, count, hidx, hbest, hcases⟩ := exhaustiveStep_cases h
  rcases hcases with ⟨hz, rfl⟩ | ⟨-, rfl⟩
  · refine ⟨hinv.small, hinv.uncovered, hinv.marginals, hinv.mem_iff, ?_⟩
    intro _ q hq
    rcases hbest.best q hq with hlt | ⟨heq, -⟩
    · exact absurd hlt (by rw [hz]; exact Fin.not_lt_zero _)
    · exact heq.trans hz
  · have hrun : t.stopped = false := (exhaustiveStep_cases h).1
    have hcover : covering (t.patterns ++ [p]) = covering t.patterns ++ [below p] := by
      simp [covering]
    refine ⟨small_eraseBelow hinv.small, ?_, ?_, ?_, ?_⟩
    · change (t.uncovered.eraseBelow p).weighted = removeAll (covering (t.patterns ++ [p])) _
      rw [weighted_eraseBelow, hcover, removeAll_append_singleton, hinv.uncovered]
    · change (t.marginalCounts ++ [count]).map Fin.val =
        WeightedCover.marginals (covering (t.patterns ++ [p])) _
      rw [hcover, marginals_append_singleton, List.map_append, hinv.marginals, hbest.count_eq,
        List.map_singleton, val_coverage hinv.small, hinv.uncovered]
    · intro q
      obtain ⟨hlt, rfl⟩ := List.getElem?_eq_some_iff.mp hidx
      have hperm := List.getElem_cons_eraseIdx_perm hlt
      rw [← hinv.mem_iff q, ← hperm.mem_iff]
      simp only [Selected.select, List.mem_append, List.mem_cons, List.not_mem_nil, or_false]
      tauto
    · intro hstop
      simp [Selected.select, hrun] at hstop

/-- The loop ends in its invariant, and with no turn left. -/
theorem selectExhaustive_rounds (hsmall : atoms.Small) :
    ∃ t, selectExhaustive lib maxPatterns candidates atoms = t.toSelected ∧
      RoundsInv lib candidates atoms t ∧ exhaustiveStep lib maxPatterns t = none :=
  ⟨_, rfl, run_invariant (fun _ _ => exhaustiveStep_rounds) _ (roundsInv_start hsmall),
    exhaustive_halts⟩

/-- The `k`-th count weighs the atoms that the `k`-th pattern is the first to cover. -/
theorem RoundsInv.count_eq (hinv : RoundsInv lib candidates atoms t) {k : ℕ} {count : U64}
    (hk : t.marginalCounts[k]? = some count) :
    count.val = gain (fun q => t.patterns.findIdx? (fun p => q.leq p) == some k)
      atoms.weighted := by
  have hmap := congrArg (·[k]?) hinv.marginals
  simp only [List.getElem?_map, hk, Option.map_some, getElem?_marginals] at hmap
  obtain ⟨c, -, hc⟩ := Option.map_eq_some_iff.mp hmap.symm
  rw [← hc, gain]
  congr 2
  funext x
  rw [covering, List.findIdx?_map]
  rfl

theorem RoundsInv.length_marginals (hinv : RoundsInv lib candidates atoms t) :
    t.marginalCounts.length = t.patterns.length := by
  have hlen := congrArg List.length hinv.marginals
  simpa [covering] using hlen

/-- Together the counts weigh the atoms that some pattern covers. -/
theorem RoundsInv.sum_eq (hinv : RoundsInv lib candidates atoms t) :
    (t.marginalCounts.map Fin.val).sum =
      gain (fun q => t.patterns.any fun p => q.leq p) atoms.weighted := by
  rw [hinv.marginals, sum_marginals]
  simp only [covering, List.any_map]
  rfl

/-- What `train` returns for blocks of the right size, in either mode. -/
theorem train_spec (lib : Library) (trainer : Trainer) {blocks : Vec Block}
    (hsize : ∀ b ∈ blocks.toList, b.length = trainer.config.blockSize.val) :
    ∃ trained counts t, trainer.train lib blocks = .ok trained ∧
      CountsOf blocks.toList counts ∧
      let atoms := retained lib trainer.config counts
      RoundsInv lib (combinedCandidates lib trainer.config atoms) atoms t ∧
        exhaustiveStep lib trainer.config.maxPatterns t = none ∧
        trained.patterns = t.patterns ∧ trained.marginalCounts = t.marginalCounts ∧
        trained.stats.representedBlocks.val = weight atoms.weighted := by
  obtain ⟨counts, hcounts, hof⟩ := countBlocks_countsOf trainer blocks hsize
  have hlen := blocks.size_lt
  have hsmall := hof.small (by omega)
  have hkeys : ∀ entry ∈ counts.entries, entry.1.size = trainer.config.blockSize.val := by
    intro entry he
    obtain ⟨b, hb, heq⟩ := hof.keys entry.1 (List.mem_map_of_mem he)
    rw [heq, Pattern.size_simplest, hsize b hb]
  obtain ⟨result, hrun, hp, hm, hrep⟩ := trainCounts_exhaustive lib trainer hkeys hsmall
  obtain ⟨t, ht, hinv, hhalt⟩ := selectExhaustive_rounds (small_retained hsmall)
  rw [ht] at hp hm
  refine ⟨{ result with stats := { result.stats with blocksSeen := blocks.size } }, counts, t, ?_,
    hof, hinv, hhalt, hp, hm, hrep⟩
  rw [Trainer.train, hcounts, ok_bind, hrun, ok_bind]
  rfl

/-- Three blocks of which the second is described by the pattern of the first. -/
def exampleBlocks : Vec Block := ⟨[[7, 8, 7], [5, 5, 5], [1, 2, 3]], by decide⟩

def exampleTrainer : Trainer := ⟨exampleConfig .lazyExact, by decide⟩

/-- Only blocks of the configured size get through `train`. -/
theorem train_sizes {trainer : Trainer} {blocks : Vec Block} {trained : TrainedPatterns}
    (h : trainer.train lib blocks = .ok trained) :
    ∀ b ∈ blocks.toList, b.length = trainer.config.blockSize.val := by
  obtain ⟨counts, hcounts, -⟩ := bind_eq_ok.mp h
  exact countBlocks_sizes hcounts

end ByteSelect
