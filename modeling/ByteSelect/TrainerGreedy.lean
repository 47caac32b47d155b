import ByteSelect.TrainerCombine

/-! Every round of selection is a greedy choice: the shape of the result and how good it is. -/
namespace ByteSelect

open WeightedCover WhileLoop

variable {lib : Library} {candidates : List Pattern} {maxPatterns : SizeT}
  {t t' : ExhaustiveState} {atoms counts : CountMap} {config : TrainingConfig} {trainer : Trainer}

/-- What the rounds keep besides their covering: each chosen pattern gained the most. -/
structure GreedyRounds (lib : Library) (maxPatterns : SizeT) (candidates : List Pattern)
    (atoms : CountMap) (t : ExhaustiveState) : Prop extends RoundsInv lib candidates atoms t where
  perm : (t.patterns ++ t.candidates).Perm candidates
  length_le : t.patterns.length ≤ maxPatterns.val
  count_ne_zero : ∀ count ∈ t.marginalCounts, count ≠ 0
  greedy : Greedy (· ∈ covering candidates) (covering t.patterns) atoms.weighted

theorem exhaustiveStep_greedy (hinv : GreedyRounds lib maxPatterns candidates atoms t)
    (h : exhaustiveStep lib maxPatterns t = some t') :
    GreedyRounds lib maxPatterns candidates atoms t' := by
  have hrounds := exhaustiveStep_rounds hinv.toRoundsInv h
  obtain ⟨-, hlen, index, p, count, hidx, hbest, hcases⟩ := exhaustiveStep_cases h
  rcases hcases with ⟨-, rfl⟩ | ⟨hne, rfl⟩
  · exact ⟨hrounds, hinv.perm, hinv.length_le, hinv.count_ne_zero, hinv.greedy⟩
  · refine ⟨hrounds, ?_, ?_, ?_, ?_⟩
    · obtain ⟨hlt, rfl⟩ := List.getElem?_eq_some_iff.mp hidx
      have hmove := (List.getElem_cons_eraseIdx_perm hlt).append_left t.patterns
      change (t.patterns ++ [t.candidates[index]] ++ t.candidates.eraseIdx index).Perm candidates
      rw [List.append_assoc]
      exact hmove.trans hinv.perm
    · change (t.patterns ++ [p]).length ≤ _
      rw [List.length_append, List.length_singleton]
      omega
    · intro c hc
      rcases List.mem_append.mp hc with hc | hc
      · exact hinv.count_ne_zero c hc
      · rwa [List.mem_singleton.mp hc]
    · change Greedy _ (covering (t.patterns ++ [p])) _
      have hcover : covering (t.patterns ++ [p]) = covering t.patterns ++ [below p] := by
        simp [covering]
      rw [hcover]
      apply greedy_append_singleton hinv.greedy
      intro d hd
      obtain ⟨q, hq, rfl⟩ := List.mem_map.mp hd
      rcases (hinv.mem_iff q).mpr hq with hcand | hdone
      · rw [← hinv.uncovered, ← @val_coverage lib, ← @val_coverage lib, ← hbest.count_eq]
        · rcases hbest.best q hcand with hlt | ⟨heq, -⟩
          · exact hlt.le
          · exact heq.le
        · exact hinv.small
        · exact hinv.small
      · have hchosen : below q ∈ covering t.patterns := List.mem_map_of_mem hdone
        rw [gain_removeAll_of_mem hchosen]
        exact Nat.zero_le _

theorem selectExhaustive_greedy (hsmall : atoms.Small) :
    ∃ t, selectExhaustive lib maxPatterns candidates atoms = t.toSelected ∧
      GreedyRounds lib maxPatterns candidates atoms t := by
  have hstart : GreedyRounds lib maxPatterns candidates atoms
      { uncovered := atoms, candidates := candidates } :=
    ⟨roundsInv_start hsmall, .refl _, Nat.zero_le _, by simp, trivial⟩
  exact ⟨_, rfl, run_invariant (fun _ _ => exhaustiveStep_greedy) _ hstart⟩

/-- What `trainCounts` returns in either mode is the outcome of greedy rounds. -/
theorem trainCounts_greedy (lib : Library) (trainer : Trainer)
    (hsize : ∀ entry ∈ counts.entries, entry.1.size = trainer.config.blockSize.val)
    (hsmall : counts.Small) :
    ∃ result t, trainer.trainCounts lib counts = .ok result ∧
      let atoms := retained lib trainer.config counts
      GreedyRounds lib trainer.config.maxPatterns (combinedCandidates lib trainer.config atoms)
        atoms t ∧
      result.patterns = t.patterns ∧ result.marginalCounts = t.marginalCounts ∧
        result.stats.representedBlocks.val = weight atoms.weighted := by
  obtain ⟨result, hrun, hp, hm, hrep⟩ := trainCounts_exhaustive lib trainer hsize hsmall
  obtain ⟨t, ht, hgreedy⟩ := selectExhaustive_greedy (small_retained hsmall)
  rw [ht] at hp hm
  exact ⟨result, t, hrun, hgreedy, hp, hm, hrep⟩

theorem RoundsInv.sum_le (hinv : RoundsInv lib candidates atoms t) :
    (t.marginalCounts.map Fin.val).sum ≤ weight atoms.weighted := by
  have hsum := sum_marginals_add_weight (covering t.patterns) atoms.weighted
  rw [← hinv.marginals] at hsum
  omega

theorem GreedyRounds.mem_candidates (hinv : GreedyRounds lib maxPatterns candidates atoms t)
    {p : Pattern} (hp : p ∈ t.patterns) : p ∈ candidates :=
  hinv.perm.subset (List.mem_append_left _ hp)

theorem GreedyRounds.pairwise_counts (hinv : GreedyRounds lib maxPatterns candidates atoms t) :
    t.marginalCounts.Pairwise fun a b => b ≤ a := by
  have hchosen : ∀ c ∈ covering t.patterns, c ∈ covering candidates := by
    intro c hc
    obtain ⟨p, hp, rfl⟩ := List.mem_map.mp hc
    exact List.mem_map_of_mem (hinv.mem_candidates hp)
  have hpairs := hinv.greedy.pairwise_marginals hchosen
  rw [← hinv.marginals, List.pairwise_map] at hpairs
  exact hpairs

theorem retained_sizes (hsize : ∀ entry ∈ counts.entries, entry.1.size = config.blockSize.val) :
    ∀ a ∈ (retained lib config counts).entries.map Prod.fst, a.size = config.blockSize.val := by
  intro a ha
  obtain ⟨entry, he, rfl⟩ := List.mem_map.mp ha
  exact hsize entry (mem_retained.mp he).1

theorem retained_ranks : ∀ a ∈ (retained lib config counts).entries.map Prod.fst,
    a.rank ≤ config.dictionarySize.val := by
  intro a ha
  obtain ⟨entry, he, rfl⟩ := List.mem_map.mp ha
  exact (of_decide_eq_true (mem_retained.mp he).2).2

theorem combined_retained (hblock : config.blockSize.val ≤ 65536)
    (hsize : ∀ entry ∈ counts.entries, entry.1.size = config.blockSize.val) :
    Combined config.blockSize.val config.dictionarySize (retained lib config counts)
      (combinedCandidates lib config (retained lib config counts)) :=
  combined_combineGreedily hblock (combined_maximalPatterns (retained_sizes hsize) retained_ranks)

/-- The result of training is well shaped, whichever loop selected it. -/
theorem trainCounts_shape {config : TrainingConfig} {trainer : Trainer} {counts : CountMap}
    (lib : Library) (htrainer : makeTrainer config = .ok trainer)
    (hblock : config.blockSize.val ≤ 65536)
    (hsize : ∀ entry ∈ counts.entries, entry.1.size = config.blockSize.val)
    (hsum : (counts.entries.map fun entry => entry.2.val).sum < 2 ^ 64) :
    ∃ result, trainer.trainCounts lib counts = .ok result ∧
      result.patterns.length ≤ config.maxPatterns.val ∧
      (result.patterns.Pairwise fun p q =>
        p.lessEqual q = .ok false ∧ q.lessEqual p = .ok false) ∧
      (∀ p ∈ result.patterns, p.rank ≤ config.dictionarySize.val) ∧
      result.marginalCounts.length = result.patterns.length ∧
      (∀ count ∈ result.marginalCounts, 1 ≤ count) ∧
      (result.marginalCounts.Pairwise fun a b => b ≤ a) ∧
      (result.marginalCounts.map Fin.val).sum ≤ result.stats.representedBlocks.val := by
  obtain rfl := makeTrainer_config htrainer
  obtain ⟨result, t, hrun, hinv, hp, hm, hrep⟩ :=
    trainCounts_greedy lib trainer hsize (CountMap.small_iff.mpr hsum)
  have hcombined := @combined_retained lib counts trainer.config hblock hsize
  have hhalt := @combineGreedily_halted
    (maximalPatterns lib (retained lib trainer.config counts)) trainer.config.dictionarySize
  have hnodup : t.patterns.Nodup :=
    (List.nodup_append.mp (hinv.perm.nodup_iff.mpr hcombined.nodup)).1
  refine ⟨result, hrun, hp ▸ hinv.length_le, ?_, ?_, ?_, ?_, ?_, ?_⟩
  · rw [hp]
    refine hnodup.imp_of_mem ?_
    intro p q hpt hqt hne
    have hpc := hinv.mem_candidates hpt
    have hqc := hinv.mem_candidates hqt
    have hpq : p.size = q.size := (hcombined.size_eq p hpc).trans (hcombined.size_eq q hqc).symm
    rw [Pattern.lessEqual_eq_ok hpq, Pattern.lessEqual_eq_ok hpq.symm,
      hcombined.leq_eq_false hblock hhalt hpc hqc hne,
      hcombined.leq_eq_false hblock hhalt hqc hpc (Ne.symm hne)]
    exact ⟨rfl, rfl⟩
  · intro p hpr
    exact hcombined.rank_le p (hinv.mem_candidates (hp ▸ hpr))
  · rw [hm, hp, hinv.length_marginals]
  · intro count hc
    exact Fin.one_le_of_ne_zero (hinv.count_ne_zero count (hm ▸ hc))
  · exact hm ▸ hinv.pairwise_counts
  · rw [hm, hrep]
    exact hinv.sum_le

theorem exampleCounts_shape :
    ∃ result, Trainer.trainCounts insertionLibrary ⟨exampleConfig .lazyExact, by decide⟩
        exampleCounts = .ok result ∧
      result.patterns.length ≤ (exampleConfig .lazyExact).maxPatterns.val ∧
      (result.patterns.Pairwise fun p q =>
        p.lessEqual q = .ok false ∧ q.lessEqual p = .ok false) ∧
      (∀ p ∈ result.patterns, p.rank ≤ (exampleConfig .lazyExact).dictionarySize.val) ∧
      result.marginalCounts.length = result.patterns.length ∧
      (∀ count ∈ result.marginalCounts, 1 ≤ count) ∧
      (result.marginalCounts.Pairwise fun a b => b ≤ a) ∧
      (result.marginalCounts.map Fin.val).sum ≤ result.stats.representedBlocks.val :=
  @trainCounts_shape (exampleConfig .lazyExact) _ exampleCounts insertionLibrary rfl
    (by decide) (by decide) (by decide)

/-- The first `k` choices gain at least the share `1 - (1 - 1/k)^k` of what any `k` of the
combined candidates gain together. -/
theorem trainCounts_near_optimal {config : TrainingConfig} {trainer : Trainer} {counts : CountMap}
    (lib : Library) (htrainer : makeTrainer config = .ok trainer)
    (hsize : ∀ entry ∈ counts.entries, entry.1.size = config.blockSize.val)
    (hsum : (counts.entries.map fun entry => entry.2.val).sum < 2 ^ 64) :
    ∃ result, trainer.trainCounts lib counts = .ok result ∧
      let atoms := retained lib config counts
      ∀ k, 1 ≤ k → k ≤ result.patterns.length →
        ∀ sets : List Pattern, (∀ p ∈ sets, p ∈ combinedCandidates lib config atoms) →
          sets.length ≤ k →
          let covered := ((atoms.entries.filter fun entry => sets.any fun p => entry.1.leq p).map
            fun entry => entry.2.val).sum
          (k ^ k - (k - 1) ^ k) * covered ≤
            k ^ k * ((result.marginalCounts.take k).map Fin.val).sum := by
  obtain rfl := makeTrainer_config htrainer
  obtain ⟨result, t, hrun, hinv, hp, hm, -⟩ :=
    trainCounts_greedy lib trainer hsize (CountMap.small_iff.mpr hsum)
  refine ⟨result, hrun, ?_⟩
  intro atoms k hk hkl sets hsets hlen covered
  obtain ⟨j, rfl⟩ := Nat.exists_eq_add_of_le' hk
  have hlenTake : ((covering t.patterns).take (j + 1)).length = j + 1 := by
    rw [List.length_take, covering, List.length_map, ← hp]
    exact min_eq_left hkl
  have hcovered : covered = gain (fun a => (covering sets).any fun d => d a) atoms.weighted := by
    simp only [covered, gain, weight, CountMap.weighted, covering, List.filter_map, List.map_map,
      List.any_map]
    rfl
  have hfamily : ∀ d ∈ covering sets,
      d ∈ covering (combinedCandidates lib trainer.config atoms) := by
    intro d hd
    obtain ⟨p, hps, rfl⟩ := List.mem_map.mp hd
    exact List.mem_map_of_mem (hsets p hps)
  have hbound := (hinv.greedy.take (j + 1)).bound hfamily (by simpa [covering] using hlen)
    hcovered.le
  rw [hlenTake, ← take_marginals, ← hinv.marginals, ← List.map_take, ← hm] at hbound
  rw [Nat.sub_mul, Nat.add_sub_cancel]
  exact Nat.sub_le_of_le_add hbound

theorem exampleCounts_near_optimal :
    ∃ result, Trainer.trainCounts insertionLibrary ⟨exampleConfig .lazyExact, by decide⟩
        exampleCounts = .ok result ∧
      let atoms := retained insertionLibrary (exampleConfig .lazyExact) exampleCounts
      ∀ k, 1 ≤ k → k ≤ result.patterns.length →
        ∀ sets : List Pattern,
          (∀ p ∈ sets, p ∈ combinedCandidates insertionLibrary (exampleConfig .lazyExact) atoms) →
          sets.length ≤ k →
          let covered := ((atoms.entries.filter fun entry => sets.any fun p => entry.1.leq p).map
            fun entry => entry.2.val).sum
          (k ^ k - (k - 1) ^ k) * covered ≤
            k ^ k * ((result.marginalCounts.take k).map Fin.val).sum :=
  @trainCounts_near_optimal (exampleConfig .lazyExact) _ exampleCounts insertionLibrary rfl
    (by decide) (by decide)

end ByteSelect
