import ByteSelect.TrainerRounds
import Mathlib.Order.Preorder.Finite
import Mathlib.Data.Set.Finite.List

/-! No retained atom is lost on the way from the counts to the chosen patterns. -/
namespace ByteSelect

open WeightedCover WhileLoop

variable {lib : Library} {atoms : CountMap} {n : ℕ} {patterns patterns' : List Pattern}
  {dictionarySize : SizeT} {p q : Pattern}

/-- Patterns of one size that together lie above every atom. -/
structure Covering (n : ℕ) (atoms : CountMap) (patterns : List Pattern) : Prop where
  atom_size : ∀ a ∈ atoms.entries.map Prod.fst, a.size = n
  size_eq : ∀ p ∈ patterns, p.size = n
  covered : ∀ a ∈ atoms.entries.map Prod.fst, ∃ p ∈ patterns, a.leq p = true

theorem sortPatterns_perm (patterns : List Pattern) : (sortPatterns patterns).Perm patterns :=
  List.perm_insertionSort _ _

theorem Covering.sort (h : Covering n atoms patterns) :
    Covering n atoms (sortPatterns patterns) := by
  have hperm := sortPatterns_perm patterns
  refine ⟨h.atom_size, fun p hp => h.size_eq p (hperm.subset hp), ?_⟩
  intro a ha
  obtain ⟨p, hp, hle⟩ := h.covered a ha
  exact ⟨p, hperm.symm.subset hp, hle⟩

/-! Phase 2: maximal patterns. -/

theorem mem_maximalPatterns : p ∈ maximalPatterns lib atoms ↔
    p ∈ atoms.entries.map Prod.fst ∧
      ∀ q ∈ atoms.entries.map Prod.fst, p.leq q = true → q = p := by
  have hperm : (sortPatterns ((lib.visit atoms.entries).map Prod.fst)).Perm
      (atoms.entries.map Prod.fst) :=
    (sortPatterns_perm _).trans ((lib.visit_perm atoms.entries).map Prod.fst)
  have hnodup := hperm.nodup_iff.mpr atoms.nodup
  unfold maximalPatterns
  simp only [← hperm.mem_iff]
  generalize sortPatterns ((lib.visit atoms.entries).map Prod.fst) = sorted at hnodup
  simp only [List.mem_map, List.mem_filter, Prod.exists, List.mem_zipIdx_iff_getElem?,
    Bool.not_eq_true', List.any_eq_false, Prod.forall, decide_eq_true_eq, not_and,
    Bool.not_eq_true]
  constructor
  · rintro ⟨p, i, ⟨hp, hmax⟩, rfl⟩
    refine ⟨List.mem_of_getElem? hp, ?_⟩
    intro q hq hle
    obtain ⟨j, hj⟩ := List.getElem?_of_mem hq
    by_cases hij : i = j
    · subst hij
      exact Option.some.inj (hj.symm.trans hp)
    · rw [hmax q j hj hij] at hle
      cases hle
  · rintro ⟨hp, hmax⟩
    obtain ⟨i, hi⟩ := List.getElem?_of_mem hp
    refine ⟨p, i, ⟨hi, ?_⟩, rfl⟩
    intro q j hj hij
    rw [← Bool.not_eq_true]
    intro hle
    obtain rfl := hmax q (List.mem_of_getElem? hj) hle
    obtain ⟨hlt, -⟩ := List.getElem?_eq_some_iff.mp hi
    exact hij ((List.getElem?_inj hlt hnodup).mp (hi.trans hj.symm))

theorem covering_maximalPatterns (hsize : ∀ a ∈ atoms.entries.map Prod.fst, a.size = n) :
    Covering n atoms (maximalPatterns lib atoms) := by
  refine ⟨hsize, fun p hp => hsize p (mem_maximalPatterns.mp hp).1, ?_⟩
  intro a ha
  have hfinite : {c | ∃ p ∈ atoms.entries.map Prod.fst, p.classes = c}.Finite :=
    (List.finite_toSet (atoms.entries.map Prod.fst)).image Pattern.classes
  obtain ⟨c, hca, ⟨p, hp, rfl⟩, hmin⟩ := hfinite.exists_le_minimal ⟨a, ha, rfl⟩
  have hap : a.size = p.size := (hsize a ha).trans (hsize p hp).symm
  refine ⟨p, mem_maximalPatterns.mpr ⟨hp, ?_⟩, (Pattern.leq_iff hap).mpr hca⟩
  intro q hq hle
  have hpq : p.size = q.size := (hsize p hp).trans (hsize q hq).symm
  have hle' := hmin ⟨q, hq, rfl⟩ ((Pattern.leq_iff hpq).mp hle)
  exact Pattern.leq_antisymm hpq.symm ((Pattern.leq_iff hpq.symm).mpr hle') hle

/-! Phase 3: combining pairs. -/

theorem findPartner_some {others : List Pattern} {j k : ℕ} {upper : Pattern}
    (h : findPartner dictionarySize p j others = some (k, upper)) :
    ∃ d q, k = j + d ∧ others[d]? = some q ∧ upper = p.lub q ∧
      upper.rank ≤ dictionarySize.val := by
  induction others generalizing j with
  | nil => cases h
  | cons other others ih =>
    rw [findPartner] at h
    split at h
    · obtain ⟨d, q, rfl, hq, hupper⟩ := ih h
      exact ⟨d + 1, q, by omega, hq, hupper⟩
    · rename_i hrank
      cases h
      exact ⟨0, other, rfl, rfl, rfl, not_lt.mp hrank⟩

theorem findPair_some {i a b : ℕ} {upper : Pattern}
    (h : findPair dictionarySize i patterns = some (a, b, upper)) :
    ∃ c d p q, a = i + c ∧ b = i + d ∧ c < d ∧ patterns[c]? = some p ∧ patterns[d]? = some q ∧
      upper = p.lub q ∧ upper.rank ≤ dictionarySize.val := by
  induction patterns generalizing i with
  | nil => cases h
  | cons first patterns ih =>
    rw [findPair] at h
    cases hf : findPartner dictionarySize first (i + 1) patterns with
    | some found =>
      obtain ⟨k, upper'⟩ := found
      rw [hf] at h
      cases h
      obtain ⟨d, q, rfl, hq, hupper⟩ := findPartner_some hf
      exact ⟨0, d + 1, first, q, rfl, by omega, by omega, rfl, hq, hupper⟩
    | none =>
      rw [hf] at h
      obtain ⟨c, d, p, q, rfl, rfl, hcd, hp, hq, hupper⟩ := ih h
      exact ⟨c + 1, d + 1, p, q, by omega, by omega, by omega, hp, hq, hupper⟩

/-- The list a turn ends with: the patterns not below the bound, and the bound once. -/
def replaceBelow (rest : List Pattern) (upper : Pattern) : List Pattern :=
  if upper ∈ removeBelow rest upper then removeBelow rest upper
  else removeBelow rest upper ++ [upper]

theorem mem_removeBelow {rest : List Pattern} {upper : Pattern} :
    p ∈ removeBelow rest upper ↔ p ∈ rest ∧ (p = upper ∨ p.leq upper = false) := by
  simp only [removeBelow, List.mem_filter, Bool.not_eq_true', Bool.and_eq_false_iff,
    Bool.not_eq_false', beq_iff_eq]

theorem mem_replaceBelow {rest : List Pattern} {upper : Pattern} :
    p ∈ replaceBelow rest upper ↔ p = upper ∨ (p ∈ rest ∧ p.leq upper = false) := by
  unfold replaceBelow
  split
  · rename_i hin
    rw [mem_removeBelow] at hin ⊢
    constructor
    · rintro ⟨hp, heq | hnot⟩
      · exact Or.inl heq
      · exact Or.inr ⟨hp, hnot⟩
    · rintro (rfl | ⟨hp, hnot⟩)
      · exact ⟨hin.1, Or.inl rfl⟩
      · exact ⟨hp, Or.inr hnot⟩
  · rw [List.mem_append, List.mem_singleton, mem_removeBelow]
    tauto

theorem length_replaceBelow_le (rest : List Pattern) (upper : Pattern) :
    (replaceBelow rest upper).length ≤ rest.length + 1 := by
  have hle : (removeBelow rest upper).length ≤ rest.length := List.length_filter_le ..
  unfold replaceBelow
  split
  · omega
  · rw [List.length_append, List.length_singleton]
    omega

/-- A turn takes two patterns out, drops what lies below their bound and adds the bound. -/
theorem combineStep_cases (h : combineStep dictionarySize patterns = some patterns') :
    ∃ p q rest, patterns.Perm (p :: q :: rest) ∧ (p.lub q).rank ≤ dictionarySize.val ∧
      (∀ r, r ∈ patterns' ↔ r = p.lub q ∨ (r ∈ rest ∧ r.leq (p.lub q) = false)) ∧
      patterns'.length < patterns.length := by
  obtain ⟨⟨i, j, upper⟩, hfind, hstep⟩ := Option.map_eq_some_iff.mp h
  obtain ⟨c, d, p, q, rfl, rfl, hcd, hp, hq, rfl, hrank⟩ := findPair_some hfind
  simp only [Nat.zero_add] at hstep
  obtain ⟨hd, rfl⟩ := List.getElem?_eq_some_iff.mp hq
  have hp' : (patterns.eraseIdx d)[c]? = some p := by
    rw [List.getElem?_eraseIdx_of_lt hcd, hp]
  obtain ⟨hc, rfl⟩ := List.getElem?_eq_some_iff.mp hp'
  have hperm := (List.getElem_cons_eraseIdx_perm hd).symm.trans
    ((List.getElem_cons_eraseIdx_perm hc).symm.cons _)
  have hlen := hperm.length_eq
  have hsort := sortPatterns_perm (replaceBelow ((patterns.eraseIdx d).eraseIdx c)
    (Pattern.lub (patterns.eraseIdx d)[c] patterns[d]))
  have hshort := length_replaceBelow_le ((patterns.eraseIdx d).eraseIdx c)
    (Pattern.lub (patterns.eraseIdx d)[c] patterns[d])
  refine ⟨_, _, _, hperm.trans (.swap ..), hrank, ?_, ?_⟩
  · intro r
    rw [← mem_replaceBelow, ← hsort.mem_iff, ← hstep]
    rfl
  · have hresult : patterns'.length = (replaceBelow ((patterns.eraseIdx d).eraseIdx c)
        (Pattern.lub (patterns.eraseIdx d)[c] patterns[d])).length := by
      rw [← hsort.length_eq, ← hstep]
      rfl
    simp only [List.length_cons] at hlen
    omega

theorem combineStep_covering (hn : n ≤ 2 ^ 16) (hc : Covering n atoms patterns)
    (h : combineStep dictionarySize patterns = some patterns') : Covering n atoms patterns' := by
  obtain ⟨p, q, rest, hperm, -, hmem, -⟩ := combineStep_cases h
  have hp : p.size = n := hc.size_eq p (hperm.symm.subset (by simp))
  have hq : q.size = n := hc.size_eq q (hperm.symm.subset (by simp))
  have hpq : p.size = q.size := hp.trans hq.symm
  have hupper : (p.lub q).size = n := (Pattern.size_lub hpq).trans hp
  refine ⟨hc.atom_size, ?_, ?_⟩
  · intro r hr
    rcases (hmem r).mp hr with rfl | ⟨hrest, -⟩
    · exact hupper
    · exact hc.size_eq r (hperm.symm.subset (by simp [hrest]))
  · intro a ha
    obtain ⟨r, hr, har⟩ := hc.covered a ha
    have hsize : a.size = r.size := (hc.atom_size a ha).trans (hc.size_eq r hr).symm
    have hru : r.size = (p.lub q).size := (hc.size_eq r hr).trans hupper.symm
    cases hle : r.leq (p.lub q) with
    | true => exact ⟨p.lub q, (hmem _).mpr (Or.inl rfl), Pattern.leq_trans hsize hru har hle⟩
    | false =>
      have hrest : r ∈ rest := by
        rcases List.mem_cons.mp (hperm.subset hr) with rfl | hr
        · rw [Pattern.leq_lub_left hpq (by omega)] at hle
          cases hle
        · rcases List.mem_cons.mp hr with rfl | hr
          · rw [Pattern.leq_lub_right hpq (by omega)] at hle
            cases hle
          · exact hr
      exact ⟨r, (hmem r).mpr (Or.inr ⟨hrest, hle⟩), har⟩

theorem covering_combineGreedily (hn : n ≤ 2 ^ 16) (hc : Covering n atoms patterns) :
    Covering n atoms (combineGreedily patterns dictionarySize) :=
  run_invariant (fun _ _ => combineStep_covering hn) _ hc.sort

/-- The loop that combines pairs ends: every turn shortens the list. -/
theorem combineGreedily_halted :
    combineStep dictionarySize (combineGreedily patterns dictionarySize) = none := by
  have hkeep : ∀ s s' : List Pattern, True → combineStep dictionarySize s = some s' → True :=
    fun _ _ _ _ => trivial
  refine run_halts hkeep List.length ?_ trivial (sortPatterns_perm patterns).length_eq.le
  intro s s' _ h
  obtain ⟨-, -, -, -, -, -, hlt⟩ := combineStep_cases h
  exact hlt

/-! Phase 4: the selection. -/

/-- A selection that ends early leaves no candidate anything to cover. -/
theorem RoundsInv.exhausted {t : ExhaustiveState} {maxPatterns : SizeT}
    (hinv : RoundsInv lib patterns atoms t) (hhalt : exhaustiveStep lib maxPatterns t = none)
    (hfew : t.patterns.length < maxPatterns.val) (hp : p ∈ patterns) :
    p ∈ t.patterns ∨ coverage lib p t.uncovered = 0 := by
  rcases (hinv.mem_iff p).mpr hp with hcand | hdone
  · right
    cases hstop : t.stopped with
    | true => exact hinv.stopped hstop p hcand
    | false =>
      obtain ⟨t', ht⟩ : ∃ t', exhaustiveStep lib maxPatterns t = some t' :=
        exhaustiveStep_some hstop hfew (List.ne_nil_of_mem hcand)
      simp [hhalt] at ht
  · exact Or.inl hdone

theorem RoundsInv.covers {t : ExhaustiveState} {maxPatterns : SizeT}
    (hinv : RoundsInv lib patterns atoms t) (hhalt : exhaustiveStep lib maxPatterns t = none)
    (hfew : t.patterns.length < maxPatterns.val) (hc : Covering n atoms patterns)
    {entry : Pattern × U64} (he : entry ∈ atoms.entries) (hpos : 0 < entry.2.val) :
    ∃ p ∈ t.patterns, entry.1.leq p = true := by
  obtain ⟨p, hp, hle⟩ := hc.covered entry.1 (List.mem_map_of_mem he)
  rcases hinv.exhausted hhalt hfew hp with hdone | hzero
  · exact ⟨p, hdone, hle⟩
  · by_contra hnone
    have hkept : (entry.1, entry.2.val) ∈ t.uncovered.weighted := by
      rw [hinv.uncovered, mem_removeAll]
      refine ⟨List.mem_map.mpr ⟨entry, he, rfl⟩, ?_⟩
      intro c hmem
      obtain ⟨p', hp', rfl⟩ := List.mem_map.mp hmem
      rw [← Bool.not_eq_true]
      intro hle'
      exact hnone ⟨p', hp', hle'⟩
    have hgain : entry.2.val ≤ gain (below p) t.uncovered.weighted :=
      le_weight (List.mem_filter.mpr ⟨hkept, hle⟩)
    rw [← val_coverage hinv.small, hzero] at hgain
    exact absurd hgain (not_le.mpr hpos)

theorem retained_pos {config : TrainingConfig} {counts : CountMap} {entry : Pattern × U64}
    (hthreshold : config.frequencyThreshold ≠ 0)
    (he : entry ∈ (retained lib config counts).entries) : 0 < entry.2.val := by
  have hkept := of_decide_eq_true (mem_retained.mp he).2
  exact (Fin.pos_iff_ne_zero.mpr hthreshold).trans_le hkept.1

/-- A surviving block has its simplest pattern among the retained atoms. -/
theorem CountsOf.mem_retained {config : TrainingConfig} {counts : CountMap}
    {blocks : List Block} (hof : CountsOf blocks counts) {b : Block} (hb : b ∈ blocks)
    (hsurvives : survives config blocks (.simplest b) = true) :
    ∃ entry ∈ (retained lib config counts).entries, entry.1 = .simplest b := by
  have hgain : 0 < gain (fun q => q == .simplest b) (retained lib config counts).weighted := by
    rw [hof.gain_retained, List.countP_pos_iff]
    exact ⟨b, hb, by simp [hsurvives]⟩
  by_contra hnone
  have hempty : (retained lib config counts).weighted.filter
      (fun x => x.1 == Pattern.simplest b) = [] := by
    rw [List.filter_eq_nil_iff]
    intro x hx heq
    obtain ⟨entry, he, rfl⟩ := List.mem_map.mp hx
    exact hnone ⟨entry, he, beq_iff_eq.mp heq⟩
  rw [gain, hempty] at hgain
  cases hgain

/-- Training that ends before its limit describes every frequent block of small rank. -/
theorem train_complete {config : TrainingConfig} {trainer : Trainer} {blocks : Vec Block}
    {trained : TrainedPatterns} (lib : Library) (htrainer : makeTrainer config = .ok trainer)
    (hsize : config.blockSize.val ≤ 65536) (htrain : trainer.train lib blocks = .ok trained)
    (hfew : trained.patterns.length < config.maxPatterns.val) :
    (∀ b ∈ blocks.toList, config.frequencyThreshold.val ≤ occurrences blocks.toList (.simplest b) →
        (Pattern.simplest b).rank ≤ config.dictionarySize.val →
        ∃ p ∈ trained.patterns, p.describes b = true) ∧
      (trained.marginalCounts.map Fin.val).sum = trained.stats.representedBlocks.val := by
  obtain rfl := makeTrainer_config htrainer
  have hblocks := train_sizes htrain
  obtain ⟨trained', counts, t, hrun, hof, hinv, hhalt, hp, hm, hrep⟩ :=
    train_spec lib trainer hblocks
  obtain rfl : trained' = trained := Except.ok.inj (hrun.symm.trans htrain)
  rw [hp] at hfew
  have hatoms : ∀ a ∈ (retained lib trainer.config counts).entries.map Prod.fst,
      a.size = trainer.config.blockSize.val := by
    intro a ha
    obtain ⟨entry, he, rfl⟩ := List.mem_map.mp ha
    obtain ⟨b, hb, heq⟩ := hof.keys entry.1 (List.mem_map_of_mem (mem_retained.mp he).1)
    rw [heq, Pattern.size_simplest, hblocks b hb]
  have hcover : Covering _ (retained lib trainer.config counts)
      (combinedCandidates lib trainer.config (retained lib trainer.config counts)) :=
    covering_combineGreedily hsize (covering_maximalPatterns hatoms)
  have hall : ∀ entry ∈ (retained lib trainer.config counts).entries,
      ∃ p ∈ t.patterns, entry.1.leq p = true := by
    intro entry he
    exact hinv.covers hhalt hfew hcover he (retained_pos trainer.accepted.2.2.2 he)
  refine ⟨?_, ?_⟩
  · intro b hb hfreq hrank
    obtain ⟨entry, he, heq⟩ := @CountsOf.mem_retained lib _ _ _ hof b hb
      (decide_eq_true ⟨hfreq, hrank⟩)
    obtain ⟨p, hpt, hle⟩ := hall entry he
    have hpsize := hcover.size_eq p ((hinv.mem_iff p).mp (Or.inr hpt))
    refine ⟨p, hp ▸ hpt, Pattern.describes_iff_simplest_leq.mpr ⟨?_, heq ▸ hle⟩⟩
    rw [hpsize, hblocks b hb]
  · rw [hm, hinv.sum_eq, hrep, gain, List.filter_eq_self.mpr]
    intro x hx
    obtain ⟨entry, he, rfl⟩ := List.mem_map.mp hx
    exact List.any_eq_true.mpr (hall entry he)

theorem exampleTrainer_complete :
    ∃ trained, exampleTrainer.train insertionLibrary exampleBlocks = .ok trained ∧
      (∀ b ∈ exampleBlocks.toList, (exampleConfig .lazyExact).frequencyThreshold.val ≤
          occurrences exampleBlocks.toList (.simplest b) →
        (Pattern.simplest b).rank ≤ (exampleConfig .lazyExact).dictionarySize.val →
        ∃ p ∈ trained.patterns, p.describes b = true) ∧
      (trained.marginalCounts.map Fin.val).sum = trained.stats.representedBlocks.val := by
  have hdec : (exampleTrainer.train insertionLibrary exampleBlocks).map
      TrainedPatterns.patterns = .ok [.simplest [7, 8, 7]] := by decide
  cases hrun : exampleTrainer.train insertionLibrary exampleBlocks with
  | error e =>
    rw [hrun] at hdec
    cases hdec
  | ok trained =>
    rw [hrun] at hdec
    have hpatterns : trained.patterns = [.simplest [7, 8, 7]] := Except.ok.inj hdec
    exact ⟨trained, rfl, @train_complete (exampleConfig .lazyExact) exampleTrainer exampleBlocks
      trained insertionLibrary rfl (by decide) hrun (by rw [hpatterns]; decide)⟩

end ByteSelect
