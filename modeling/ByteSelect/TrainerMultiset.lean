import ByteSelect.LazySelection
import ByteSelect.TrainerComplete

/-! Training sees its blocks as a multiset of simplest patterns. -/
namespace ByteSelect

open WhileLoop

variable {lib lib' : Library} {atoms atoms' counts counts' : CountMap} {p : Pattern}
  {candidates patterns patterns' : List Pattern} {maxPatterns : SizeT} {config : TrainingConfig}

/-- Two maps that hold the same entries, whatever the order of insertion was. -/
def CountMap.Same (map map' : CountMap) : Prop := map.entries.Perm map'.entries

theorem CountMap.Same.visit (h : atoms.Same atoms') :
    (lib.visit atoms.entries).Perm (lib'.visit atoms'.entries) :=
  (lib.visit_perm _).trans (List.Perm.trans h (lib'.visit_perm _).symm)

theorem CountMap.Same.eraseBelow (h : atoms.Same atoms') :
    (atoms.eraseBelow p).Same (atoms'.eraseBelow p) := h.filter _

/-- Addition of counts commutes, wrapping or not. -/
theorem coverage_same (h : atoms.Same atoms') : coverage lib p atoms = coverage lib' p atoms' := by
  apply List.Perm.foldl_eq' h.visit
  intro x _ y _ total
  by_cases hx : x.1.leq p = true
  · by_cases hy : y.1.leq p = true
    · simp only [hx, hy, if_true]
      grind
    · simp [hx, hy]
  · simp [hx]

/-! Sorting forgets the order in which the atoms were visited. -/

instance : Std.Total fun p q : Pattern => ¬ q.lt p = true where
  total p q := by
    simp only [Bool.not_eq_true, not_lt_iff]
    exact le_total p.symbols q.symbols

instance : IsTrans Pattern fun p q => ¬ q.lt p = true where
  trans p q r hpq hqr := by
    simp only [Bool.not_eq_true, not_lt_iff] at *
    exact hpq.trans hqr

theorem sortPatterns_congr (h : patterns.Perm patterns') :
    sortPatterns patterns = sortPatterns patterns' := by
  have hperm : (sortPatterns patterns).Perm (sortPatterns patterns') :=
    (sortPatterns_perm patterns).trans (h.trans (sortPatterns_perm patterns').symm)
  refine hperm.eq_of_pairwise ?_ (List.pairwise_insertionSort _ patterns)
    (List.pairwise_insertionSort _ patterns')
  intro p q _ _ hpq hqp
  rw [Bool.not_eq_true, not_lt_iff] at hpq hqp
  exact eq_of_symbols_eq (le_antisymm hpq hqp)

theorem maximalPatterns_same (h : atoms.Same atoms') :
    maximalPatterns lib atoms = maximalPatterns lib' atoms' := by
  rw [maximalPatterns, maximalPatterns, sortPatterns_congr (h.visit.map Prod.fst)]

theorem combinedCandidates_same (h : atoms.Same atoms') :
    combinedCandidates lib config atoms = combinedCandidates lib' config atoms' := by
  rw [combinedCandidates, combinedCandidates, maximalPatterns_same h]

/-! No candidate is listed twice. -/

theorem nodup_maximalPatterns : (maximalPatterns lib atoms).Nodup := by
  have hperm := (sortPatterns_perm ((lib.visit atoms.entries).map Prod.fst)).trans
    ((lib.visit_perm atoms.entries).map Prod.fst)
  have hnodup := hperm.nodup_iff.mpr atoms.nodup
  rw [← List.zipIdx_map_fst 0 (sortPatterns _)] at hnodup
  exact hnodup.sublist (List.filter_sublist.map Prod.fst)

theorem combineStep_nodup {dictionarySize : SizeT} (h : patterns.Nodup)
    (hstep : combineStep dictionarySize patterns = some patterns') : patterns'.Nodup := by
  obtain ⟨⟨i, j, upper⟩, -, rfl⟩ := Option.map_eq_some_iff.mp hstep
  have hrest : (removeBelow ((patterns.eraseIdx j).eraseIdx i) upper).Nodup :=
    ((h.eraseIdx j).eraseIdx i).filter _
  rw [(sortPatterns_perm _).nodup_iff]
  split
  · exact hrest
  · rename_i hnew
    exact List.nodup_append.mpr ⟨hrest, List.nodup_singleton upper, by grind⟩

theorem nodup_combinedCandidates : (combinedCandidates lib config atoms).Nodup := by
  refine run_invariant (fun _ _ => combineStep_nodup) _ ?_
  exact (sortPatterns_perm _).nodup_iff.mpr nodup_maximalPatterns

/-! The selection loops turn in step. -/

theorem bestCandidate_same (h : atoms.Same atoms') (best : ℕ × Pattern × U64) (index : ℕ) :
    bestCandidate lib atoms best index candidates =
      bestCandidate lib' atoms' best index candidates := by
  induction candidates generalizing best index with
  | nil => rfl
  | cons candidate candidates ih =>
    have hcount : coverage lib candidate atoms = coverage lib' candidate atoms' := coverage_same h
    simp only [bestCandidate, hcount, ih]

/-- Exhaustive loops that differ in the order of the uncovered atoms alone. -/
def ExhaustiveState.Same (s t : ExhaustiveState) : Prop :=
  ∃ uncovered, s.uncovered.Same uncovered ∧ t = { s with uncovered := uncovered }

theorem exhaustiveStep_same {s t : ExhaustiveState} (h : s.Same t) :
    Option.Rel ExhaustiveState.Same (exhaustiveStep lib maxPatterns s)
      (exhaustiveStep lib' maxPatterns t) := by
  obtain ⟨uncovered, hsame, rfl⟩ := h
  unfold exhaustiveStep
  dsimp only
  split
  · exact .none
  · cases s.candidates with
    | nil => exact .none
    | cons first others =>
      have hfirst : coverage lib first s.uncovered = coverage lib' first uncovered :=
        coverage_same hsame
      simp only [hfirst, @bestCandidate_same lib lib' _ _ _ hsame]
      split
      · exact .some ⟨uncovered, hsame, rfl⟩
      · exact .some ⟨_, hsame.eraseBelow, rfl⟩

/-! The heap is a total order on the entries of different candidates. -/

theorem index_eq_of_not_less (hcandidates : candidates.Nodup) {a b : LazyCandidate}
    (ha : a.index < candidates.length) (hb : b.index < candidates.length)
    (hab : lazyCandidateLess candidates a b = false)
    (hba : lazyCandidateLess candidates b a = false) : a.index = b.index := by
  rw [lazyCandidateLess_eq_false] at hab hba
  have hsymbols : symbolsAt candidates a.index = symbolsAt candidates b.index := by
    rcases hab with hlt | ⟨heq, hle⟩
    · rcases hba with hlt' | ⟨heq, -⟩
      · exact absurd hlt (lt_asymm hlt')
      · exact absurd heq hlt.ne'
    · rcases hba with hlt | ⟨-, hge⟩
      · exact absurd heq hlt.ne'
      · exact le_antisymm hle hge
  simp only [symbolsAt, List.getElem?_eq_getElem ha, List.getElem?_eq_getElem hb, Option.map_some,
    Option.getD_some] at hsymbols
  exact (hcandidates.getElem_inj_iff).mp (eq_of_symbols_eq hsymbols)

/-- Whatever the layout of the heap, its top is the same entry. -/
theorem pop_same {queue queue' : List LazyCandidate} (hcandidates : candidates.Nodup)
    (hperm : queue.Perm queue') (hnodup : (queue.map LazyCandidate.index).Nodup)
    (hlt : ∀ entry ∈ queue, entry.index < candidates.length) :
    (lib.pop candidates queue = none ∧ lib'.pop candidates queue' = none) ∨
      ∃ top rest rest', lib.pop candidates queue = some (top, rest) ∧
        lib'.pop candidates queue' = some (top, rest') ∧ rest.Perm rest' := by
  cases hpop : lib.pop candidates queue with
  | none =>
    left
    rw [lib.pop_none _ _ hpop] at hperm
    cases hpop' : lib'.pop candidates queue' with
    | none => exact ⟨rfl, rfl⟩
    | some popped =>
      have hempty := (lib'.pop_perm _ _ popped.1 popped.2 hpop').trans hperm.symm
      cases hempty.eq_nil
  | some popped =>
    obtain ⟨top, rest⟩ := popped
    have htop := lib.pop_perm _ _ _ _ hpop
    right
    cases hpop' : lib'.pop candidates queue' with
    | none =>
      rw [lib'.pop_none _ _ hpop'] at hperm
      cases (htop.trans hperm).eq_nil
    | some popped' =>
      obtain ⟨top', rest'⟩ := popped'
      have htop' := lib'.pop_perm _ _ _ _ hpop'
      have hsame : (top :: rest).Perm (top' :: rest') := htop.trans (hperm.trans htop'.symm)
      have hmem : top ∈ queue := htop.subset List.mem_cons_self
      have hmem' : top' ∈ queue := htop.subset (hsame.symm.subset List.mem_cons_self)
      have hless : lazyCandidateLess candidates top top' = false := by
        rcases List.mem_cons.mp (hsame.symm.subset List.mem_cons_self) with rfl | hrest
        · simp [lazyCandidateLess_eq_false]
        · exact lib.pop_top _ _ _ _ hpop top' hrest
      have hless' : lazyCandidateLess candidates top' top = false := by
        rcases List.mem_cons.mp (hsame.subset List.mem_cons_self) with rfl | hrest
        · simp [lazyCandidateLess_eq_false]
        · exact lib'.pop_top _ _ _ _ hpop' top hrest
      have hindex := index_eq_of_not_less hcandidates (hlt top hmem) (hlt top' hmem') hless hless'
      obtain rfl := List.inj_on_of_nodup_map hnodup hmem hmem' hindex
      exact ⟨top, rest, rest', rfl, rfl, hsame.cons_inv⟩

/-- Lazy loops that differ in the orders of the atoms and of the queue alone. -/
structure LazyState.Same (candidates : List Pattern) (s t : LazyState) : Prop where
  nodup : (s.queue.map LazyCandidate.index).Nodup
  index_lt : ∀ entry ∈ s.queue, entry.index < candidates.length
  orders : ∃ uncovered queue, s.uncovered.Same uncovered ∧ s.queue.Perm queue ∧
    t = { s with uncovered := uncovered, queue := queue }

theorem lazyStep_same {s t : LazyState} (hcandidates : candidates.Nodup)
    (h : s.Same candidates t) :
    Option.Rel (LazyState.Same candidates) (lazyStep lib maxPatterns candidates s)
      (lazyStep lib' maxPatterns candidates t) := by
  obtain ⟨hnodup, hlt, uncovered, queue, hsame, hqueue, rfl⟩ := h
  unfold lazyStep
  dsimp only
  split
  · exact .none
  · rcases @pop_same lib lib' candidates _ _ hcandidates hqueue hnodup hlt with
      ⟨hpop, hpop'⟩ | ⟨top, rest, rest', hpop, hpop', hrest⟩
    · rw [hpop, hpop']
      exact .none
    · have hperm := lib.pop_perm _ _ _ _ hpop
      have hnodup' : (top.index :: rest.map LazyCandidate.index).Nodup :=
        (hperm.map LazyCandidate.index).nodup_iff.mpr hnodup
      have hlt' : ∀ entry ∈ rest, entry.index < candidates.length := by
        intro entry he
        exact hlt entry (hperm.subset (List.mem_cons_of_mem top he))
      rw [hpop, hpop']
      cases hidx : candidates[top.index]? with
      | none =>
        simp only [hidx]
        exact .none
      | some candidate =>
        have hcount : coverage lib candidate s.uncovered = coverage lib' candidate uncovered :=
          coverage_same hsame
        simp only [hidx, hcount, hrest.length_eq]
        split
        · exact .some ⟨hnodup'.of_cons, hlt', uncovered, rest', hsame, hrest, rfl⟩
        · split
          · refine .some ⟨hnodup', ?_, uncovered, _, hsame, hrest.cons _, rfl⟩
            intro entry he
            rcases List.mem_cons.mp he with rfl | he
            · exact (List.getElem?_eq_some_iff.mp hidx).1
            · exact hlt' entry he
          · split
            · exact .some ⟨hnodup'.of_cons, hlt', uncovered, rest', hsame, hrest, rfl⟩
            · exact .some ⟨hnodup'.of_cons, hlt', _, rest', hsame.eraseBelow, hrest, rfl⟩

theorem selectExhaustive_same (h : atoms.Same atoms') :
    ∃ uncovered, selectExhaustive lib' maxPatterns candidates atoms' =
      { selectExhaustive lib maxPatterns candidates atoms with uncovered := uncovered } := by
  have hstart : ExhaustiveState.Same { uncovered := atoms, candidates := candidates }
      { uncovered := atoms', candidates := candidates } := ⟨atoms', h, rfl⟩
  obtain ⟨uncovered, -, hrun⟩ := run_lockstep
    (fun _ _ => @exhaustiveStep_same lib lib' maxPatterns _ _) (candidates.length + 1) hstart
  exact ⟨uncovered, congrArg ExhaustiveState.toSelected hrun⟩

theorem selectLazy_same (hcandidates : candidates.Nodup) (h : atoms.Same atoms') :
    ∃ uncovered, selectLazy lib' maxPatterns candidates atoms' =
      { selectLazy lib maxPatterns candidates atoms with uncovered := uncovered } := by
  have hqueue : lazyQueue lib' candidates atoms' = lazyQueue lib candidates atoms := by
    simp only [lazyQueue, fun p => @coverage_same lib lib' _ _ p h]
  let start : LazyState :=
    { uncovered := atoms
      coverageEvaluations := candidates.length
      queue := lazyQueue lib candidates atoms
      selected := List.replicate candidates.length false }
  have hlt : ∀ entry ∈ start.queue, entry.index < candidates.length := by
    intro entry he
    have hmem := List.mem_map_of_mem (f := LazyCandidate.index) he
    rwa [map_index_lazyQueue, List.mem_range] at hmem
  have hstart : start.Same candidates { start with uncovered := atoms' } :=
    ⟨map_index_lazyQueue ▸ List.nodup_range, hlt, atoms', _, h, .refl _, rfl⟩
  have hrun := run_lockstep
    (fun _ _ => @lazyStep_same lib lib' candidates maxPatterns _ _ hcandidates)
    (candidates.length * (candidates.length + 2)) hstart
  obtain ⟨uncovered, queue, -, -, horders⟩ := hrun.orders
  refine ⟨uncovered, ?_⟩
  rw [selectLazy, hqueue]
  exact congrArg LazyState.toSelected horders

theorem selectPatterns_same (hcandidates : candidates.Nodup) (h : atoms.Same atoms') :
    ∃ uncovered, selectPatterns lib' config candidates atoms' =
      { selectPatterns lib config candidates atoms with uncovered := uncovered } := by
  unfold selectPatterns
  cases config.selectionMode with
  | exhaustive => exact selectExhaustive_same h
  | lazyExact => exact selectLazy_same hcandidates h

/-! From the blocks to the result. -/

theorem retained_same (h : counts.Same counts') :
    (retained lib config counts).Same (retained lib' config counts') := h.visit.filter _

theorem foldl_countEntry_perm {entries entries' : List (Pattern × U64)} {stats : TrainingStats}
    (h : entries.Perm entries') :
    entries.foldl (countEntry config) stats = entries'.foldl (countEntry config) stats := by
  apply h.foldl_eq'
  intro x _ y _ stats
  simp only [countEntry, TrainingStats.mk.injEq, true_and, and_true]
  grind

/-- Training from counts reads no order out of them. -/
theorem trainCounts_same {trainer : Trainer} (h : counts.Same counts')
    (hsize : ∀ entry ∈ counts.entries, entry.1.size = trainer.config.blockSize.val) :
    ∃ result, trainer.trainCounts lib counts = .ok result ∧
      trainer.trainCounts lib' counts' = .ok result := by
  have hsize' : ∀ entry ∈ counts'.entries, entry.1.size = trainer.config.blockSize.val :=
    fun entry he => hsize entry ((List.Perm.symm h).subset he)
  have hatoms : (retained lib trainer.config counts).Same (retained lib' trainer.config counts') :=
    retained_same h
  have hcandidates : combinedCandidates lib trainer.config (retained lib trainer.config counts) =
      combinedCandidates lib' trainer.config (retained lib' trainer.config counts') :=
    combinedCandidates_same hatoms
  have hmaximal : maximalPatterns lib (retained lib trainer.config counts) =
      maximalPatterns lib' (retained lib' trainer.config counts') := maximalPatterns_same hatoms
  have hvisit : (lib.visit counts.entries).Perm (lib'.visit counts'.entries) := h.visit
  have hnodup : (combinedCandidates lib trainer.config
      (retained lib trainer.config counts)).Nodup := nodup_combinedCandidates
  obtain ⟨uncovered, hchosen⟩ := @selectPatterns_same lib lib' _ _ _ trainer.config hnodup hatoms
  refine ⟨_, trainCounts_eq lib trainer hsize, ?_⟩
  rw [trainCounts_eq lib' trainer hsize']
  dsimp only
  rw [← hcandidates, hchosen, ← hmaximal, ← List.Perm.length_eq hatoms, ← List.Perm.length_eq h,
    foldl_countEntry_perm hvisit]

theorem CountsOf.same {blocks blocks' : List Block} (h : CountsOf blocks counts)
    (h' : CountsOf blocks' counts')
    (hperm : (blocks.map Pattern.simplest).Perm (blocks'.map Pattern.simplest)) :
    counts.Same counts' := by
  have hnodup : ∀ map : CountMap, map.entries.Nodup := fun map => List.Nodup.of_map _ map.nodup
  rw [CountMap.Same, List.perm_ext_iff_of_nodup (hnodup counts) (hnodup counts')]
  intro entry
  rw [h.mem_iff, h'.mem_iff, hperm.mem_iff, occurrences_eq_count, occurrences_eq_count,
    hperm.count_eq]

/-- Blocks with the same simplest patterns train the same. -/
theorem train_same {trainer : Trainer} {blocks blocks' : Vec Block}
    (hsize : ∀ b ∈ blocks.toList, b.length = trainer.config.blockSize.val)
    (hperm : (blocks.toList.map Pattern.simplest).Perm (blocks'.toList.map Pattern.simplest)) :
    ∃ result, trainer.train lib blocks = .ok result ∧ trainer.train lib' blocks' = .ok result := by
  have hsize' : ∀ b ∈ blocks'.toList, b.length = trainer.config.blockSize.val := by
    intro b hb
    obtain ⟨b', hb', heq⟩ := List.mem_map.mp (hperm.symm.subset (List.mem_map_of_mem hb))
    rw [← Pattern.size_simplest b, ← heq, Pattern.size_simplest, hsize b' hb']
  obtain ⟨counts, hrun, hcounts⟩ := countBlocks_countsOf trainer blocks hsize
  obtain ⟨counts', hrun', hcounts'⟩ := countBlocks_countsOf trainer blocks' hsize'
  have hentries : ∀ entry ∈ counts.entries, entry.1.size = trainer.config.blockSize.val := by
    intro entry he
    obtain ⟨b, hb, hkey⟩ := hcounts.keys entry.1 (List.mem_map_of_mem he)
    rw [hkey, Pattern.size_simplest, hsize b hb]
  obtain ⟨result, htrain, htrain'⟩ := @trainCounts_same lib lib' _ _ _
    (hcounts.same hcounts' hperm) hentries
  have hlen : blocks.size = blocks'.size := by
    simpa [Vec.size] using hperm.length_eq
  refine ⟨{ result with stats := { result.stats with blocksSeen := blocks.size } }, ?_, ?_⟩
  · rw [Trainer.train, hrun, ok_bind, htrain]
    rfl
  · rw [Trainer.train, hrun', ok_bind, htrain', hlen]
    rfl

/-- A block with its byte values renamed one to one. -/
def Renamed (block renamed : Block) : Prop :=
  ∃ f : Byte → Byte, Function.Injective f ∧ renamed = block.map f

theorem Renamed.simplest_eq {block renamed : Block} (h : Renamed block renamed) :
    Pattern.simplest renamed = .simplest block := by
  obtain ⟨f, hf, rfl⟩ := h
  apply Pattern.eq_of_classes_eq
  · simp
  · rw [Pattern.classes_simplest, Pattern.classes_simplest]
    exact ListKernel.kernel_map fun x _ y _ he => hf he

theorem map_simplest_of_renamed {blocks renamed : List Block}
    (h : List.Forall₂ Renamed blocks renamed) :
    renamed.map Pattern.simplest = blocks.map .simplest := by
  induction h with
  | nil => rfl
  | cons hblock _ ih => rw [List.map_cons, List.map_cons, hblock.simplest_eq, ih]

/-- Neither the order of the blocks, nor the names of their bytes, nor the standard library
changes anything that training returns. -/
theorem train_renamed {trainer : Trainer} (hmake : makeTrainer config = .ok trainer)
    {blocks blocks' : Vec Block} {shuffled : List Block}
    (hsize : ∀ b ∈ blocks.toList, b.length = config.blockSize.val)
    (hperm : blocks.toList.Perm shuffled) (hrenamed : List.Forall₂ Renamed shuffled blocks'.toList)
    (lib lib' : Library) :
    ∃ result, trainer.train lib blocks = .ok result ∧ trainer.train lib' blocks' = .ok result := by
  have hmap := map_simplest_of_renamed hrenamed
  rw [← makeTrainer_config hmake] at hsize
  apply train_same hsize
  rw [hmap]
  exact hperm.map _

/-- Two blocks swapped, one of them with its bytes renamed. -/
theorem exampleConfig_train_renamed :
    ∃ result,
      Trainer.train insertionLibrary ⟨exampleConfig .lazyExact, by decide⟩
        ⟨[[7, 8, 7], [1, 1, 2]], by decide⟩ = .ok result ∧
      Trainer.train insertionLibrary ⟨exampleConfig .lazyExact, by decide⟩
        ⟨[[1, 1, 2], [248, 247, 248]], by decide⟩ = .ok result :=
  @train_renamed (exampleConfig .lazyExact) _ rfl ⟨[[7, 8, 7], [1, 1, 2]], by decide⟩
    ⟨[[1, 1, 2], [248, 247, 248]], by decide⟩ [[1, 1, 2], [7, 8, 7]] (by decide) (.swap _ _ _)
    (.cons ⟨id, Function.injective_id, rfl⟩
      (.cons ⟨Fin.rev, Fin.rev_injective, rfl⟩ .nil))
    insertionLibrary insertionLibrary

end ByteSelect
