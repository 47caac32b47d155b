import ByteSelect.TrainerSelection
import Mathlib.Algebra.Order.Group.Nat

/-! What the counted blocks and the retained atoms weigh. -/
namespace ByteSelect

open WeightedCover

variable {config : TrainingConfig} {trainer : Trainer} {counts atoms map : CountMap}
  {stats : TrainingStats} {p : Pattern} {f : Pattern → Bool} {blocks : List Block}

theorem CountMap.nodup_weighted (map : CountMap) : (map.weighted.map Prod.fst).Nodup := by
  simpa [CountMap.weighted, Function.comp_def] using map.nodup

theorem CountMap.small_iff :
    map.Small ↔ (map.entries.map fun entry => entry.2.val).sum < 2 ^ 64 := by
  simp [CountMap.Small, CountMap.weighted, weight, Function.comp_def]

theorem le_weight {x : Pattern × ℕ} {l : List (Pattern × ℕ)} (h : x ∈ l) : x.2 ≤ weight l :=
  List.le_sum_of_mem (List.mem_map_of_mem h)

/-! The counting loop. -/

theorem increment_weighted (hp : p ∈ map.entries.map Prod.fst)
    (hsmall : weight map.weighted + 1 < 2 ^ 64) :
    (map.increment p).weighted = bump p map.weighted := by
  rw [CountMap.increment, if_pos hp, CountMap.weighted, CountMap.weighted, bump, List.map_map,
    List.map_map]
  apply List.map_congr_left
  intro entry he
  by_cases hk : entry.1 = p
  · have hle : entry.2.val ≤ weight map.weighted :=
      le_weight (List.mem_map.mpr ⟨entry, he, rfl⟩ : (entry.1, entry.2.val) ∈ map.weighted)
    have hadd : (entry.2 + 1).val = entry.2.val + 1 := by
      rw [Fin.val_add, Fin.val_one, Nat.mod_eq_of_lt (by omega)]
    simp [hk, hadd]
  · simp [hk]

/-- Counting a pattern adds one to the gain of every set that covers it. -/
theorem gain_increment (hsmall : weight map.weighted + 1 < 2 ^ 64) :
    gain f (map.increment p).weighted = gain f map.weighted + if f p then 1 else 0 := by
  by_cases hp : p ∈ map.entries.map Prod.fst
  · have hp' : p ∈ map.weighted.map Prod.fst := by
      simpa [CountMap.weighted, Function.comp_def] using hp
    rw [increment_weighted hp hsmall, gain_bump map.nodup_weighted hp']
  · have happend : (map.increment p).weighted = map.weighted ++ [(p, 1)] := by
      rw [CountMap.increment, if_neg hp, CountMap.emplace, dif_neg hp]
      simp [CountMap.weighted]
    rw [happend, gain, gain, List.filter_append]
    cases hf : f p <;> simp [weight, hf]

theorem weight_eq_gain (l : List (Pattern × ℕ)) : weight l = gain (fun _ => true) l := by
  simp [gain]

theorem keys_increment {q : Pattern} :
    q ∈ (map.increment p).entries.map Prod.fst ↔ q = p ∨ q ∈ map.entries.map Prod.fst := by
  by_cases hp : p ∈ map.entries.map Prod.fst
  · have hkeys : (map.increment p).entries.map Prod.fst = map.entries.map Prod.fst := by
      rw [CountMap.increment, if_pos hp, List.map_map]
      apply List.map_congr_left
      intro entry _
      dsimp only [Function.comp_apply]
      split <;> rfl
    rw [hkeys]
    constructor
    · exact Or.inr
    · rintro (rfl | h)
      · exact hp
      · exact h
  · rw [CountMap.increment, if_neg hp, CountMap.emplace, dif_neg hp]
    simp [or_comm]

/-- Counting weighs a set of patterns by the blocks whose simplest pattern it holds. -/
theorem countBlocks_spec (hsize : ∀ b ∈ blocks, b.length = trainer.config.blockSize.val)
    (hsmall : weight counts.weighted + blocks.length < 2 ^ 64) :
    ∃ counts', trainer.countBlocks counts blocks = .ok counts' ∧
      (∀ f, gain f counts'.weighted =
        gain f counts.weighted + blocks.countP fun b => f (.simplest b)) ∧
      ∀ q ∈ counts'.entries.map Prod.fst,
        q ∈ counts.entries.map Prod.fst ∨ ∃ b ∈ blocks, q = .simplest b := by
  induction blocks generalizing counts with
  | nil => exact ⟨counts, rfl, fun f => by simp, fun q hq => Or.inl hq⟩
  | cons b blocks ih =>
    rw [List.length_cons] at hsmall
    have hb := hsize b List.mem_cons_self
    have hstep : weight (counts.increment (.simplest b)).weighted = weight counts.weighted + 1 := by
      rw [weight_eq_gain, gain_increment (by omega), ← weight_eq_gain]
      simp
    obtain ⟨counts', hrun, hgain, hkeys⟩ := @ih (counts.increment (.simplest b))
      (fun b' h => hsize b' (List.mem_cons_of_mem b h)) (by omega)
    refine ⟨counts', ?_, ?_, ?_⟩
    · rw [Trainer.countBlocks, throwIf_neg (not_not.mpr hb)]
      exact hrun
    · intro f
      rw [hgain, gain_increment (by omega), List.countP_cons]
      omega
    · intro q hq
      rcases hkeys q hq with h | ⟨b', hb', rfl⟩
      · rcases keys_increment.mp h with rfl | h
        · exact Or.inr ⟨b, List.mem_cons_self, rfl⟩
        · exact Or.inl h
      · exact Or.inr ⟨b', List.mem_cons_of_mem b hb', rfl⟩

theorem countBlocks_sizes {counts' : CountMap}
    (h : trainer.countBlocks counts blocks = .ok counts') :
    ∀ b ∈ blocks, b.length = trainer.config.blockSize.val := by
  induction blocks generalizing counts with
  | nil => simp
  | cons b blocks ih =>
    rw [Trainer.countBlocks, check_bind_eq_ok, throwIf_eq_ok, not_not] at h
    intro b' hb'
    rcases List.mem_cons.mp hb' with rfl | hb'
    · exact h.1
    · exact ih h.2 b' hb'

theorem makeTrainer_config (h : makeTrainer config = .ok trainer) : trainer.config = config := by
  unfold makeTrainer at h
  split at h
  · exact congrArg Trainer.config (Except.ok.inj h).symm
  · cases h

/-! The frequency and rank filters. -/

def kept (config : TrainingConfig) (entry : Pattern × U64) : Bool :=
  decide (config.frequencyThreshold ≤ entry.2 ∧ entry.1.rank ≤ config.dictionarySize.val)

section Retain

variable {entries : List (Pattern × U64)} {q : Pattern} {count : U64}

/-- What the loop adds to the statistics for one entry. -/
def countEntry (config : TrainingConfig) (stats : TrainingStats) (entry : Pattern × U64) :
    TrainingStats :=
  { stats with
    afterFrequencyFilter :=
      stats.afterFrequencyFilter + if config.frequencyThreshold ≤ entry.2 then 1 else 0
    representedBlocks := stats.representedBlocks + if kept config entry then entry.2 else 0 }

/-- Frequency before rank: an entry that fails either filter is dropped. -/
theorem retainAtoms_cons (hq : q.size = config.blockSize.val) :
    retainAtoms config atoms stats ((q, count) :: entries) =
      retainAtoms config (if kept config (q, count) then atoms.emplace q count else atoms)
        (countEntry config stats (q, count)) entries := by
  rw [retainAtoms, throwIf_neg (not_not.mpr hq), ok_bind]
  by_cases hfreq : count < config.frequencyThreshold
  · have hkept : kept config (q, count) = false :=
      decide_eq_false fun h => absurd hfreq (not_lt.mpr h.1)
    simp [hfreq, hkept, countEntry, not_le.mpr hfreq]
  · by_cases hrank : q.rank > config.dictionarySize.val
    · have hkept : kept config (q, count) = false :=
        decide_eq_false fun h => absurd hrank (not_lt.mpr h.2)
      simp [hfreq, hrank, hkept, countEntry, not_lt.mp hfreq]
    · have hkept : kept config (q, count) = true :=
        decide_eq_true ⟨not_lt.mp hfreq, not_lt.mp hrank⟩
      simp [hfreq, hrank, hkept, countEntry, not_lt.mp hfreq]

/-- The loop keeps the entries that pass both filters, in their order. -/
theorem retainAtoms_spec (hsize : ∀ entry ∈ entries, entry.1.size = config.blockSize.val)
    (hnodup : (atoms.entries.map Prod.fst ++ entries.map Prod.fst).Nodup) :
    ∃ atoms', atoms'.entries = atoms.entries ++ entries.filter (kept config) ∧
      retainAtoms config atoms stats entries =
        .ok (atoms', entries.foldl (countEntry config) stats) := by
  induction entries generalizing atoms stats with
  | nil => exact ⟨atoms, by simp, rfl⟩
  | cons entry entries ih =>
    obtain ⟨q, count⟩ := entry
    rw [List.forall_mem_cons] at hsize
    rw [retainAtoms_cons hsize.1]
    cases hkept : kept config (q, count) with
    | false =>
      have hdrop : (atoms.entries.map Prod.fst ++ entries.map Prod.fst).Nodup :=
        hnodup.sublist ((List.sublist_cons_self _ _).append_left _)
      obtain ⟨atoms', hat, hrun⟩ := @ih atoms (countEntry config stats (q, count)) hsize.2 hdrop
      exact ⟨atoms', by simp [hat, hkept], hrun⟩
    | true =>
      have hnew : q ∉ atoms.entries.map Prod.fst := by
        intro hmem
        exact (List.nodup_append.mp hnodup).2.2 q hmem q List.mem_cons_self rfl
      have hentries : (atoms.emplace q count).entries = atoms.entries ++ [(q, count)] := by
        rw [CountMap.emplace, dif_neg hnew]
      have hnodup' : ((atoms.emplace q count).entries.map Prod.fst ++
          entries.map Prod.fst).Nodup := by
        rw [hentries]
        simpa using hnodup
      obtain ⟨atoms', hat, hrun⟩ := @ih (atoms.emplace q count)
        (countEntry config stats (q, count)) hsize.2 hnodup'
      exact ⟨atoms', by simp [hat, hentries, hkept], hrun⟩

theorem val_representedBlocks (hsmall : stats.representedBlocks.val +
      weight (entries.map fun entry => (entry.1, entry.2.val)) < 2 ^ 64) :
    (entries.foldl (countEntry config) stats).representedBlocks.val =
      stats.representedBlocks.val +
        weight ((entries.filter (kept config)).map fun entry => (entry.1, entry.2.val)) := by
  induction entries generalizing stats with
  | nil => simp
  | cons entry entries ih =>
    rw [List.map_cons, weight_cons] at hsmall
    dsimp only at hsmall
    have hadd : (countEntry config stats entry).representedBlocks.val =
        stats.representedBlocks.val + if kept config entry then entry.2.val else 0 := by
      cases hkept : kept config entry with
      | false => simp [countEntry, hkept]
      | true =>
        simp only [countEntry, hkept, if_true, Fin.val_add]
        exact Nat.mod_eq_of_lt (by omega)
    rw [List.foldl_cons, ih (by rw [hadd]; split <;> omega), hadd]
    cases hkept : kept config entry with
    | false => simp [hkept]
    | true =>
      simp [hkept]
      omega

end Retain

/-- The atoms phase 1 retains, in the order the counts are visited. -/
def retained (lib : Library) (config : TrainingConfig) (counts : CountMap) : CountMap :=
  ⟨(lib.visit counts.entries).filter (kept config), by
    have hperm := (lib.visit_perm counts.entries).map Prod.fst
    exact (hperm.nodup_iff.mpr counts.nodup).sublist (List.filter_sublist.map Prod.fst)⟩

variable {lib : Library}

theorem mem_retained {entry : Pattern × U64} :
    entry ∈ (retained lib config counts).entries ↔
      entry ∈ counts.entries ∧ kept config entry = true := by
  rw [retained, List.mem_filter, (lib.visit_perm counts.entries).mem_iff]

theorem gain_retained :
    gain f (retained lib config counts).weighted =
      weight ((counts.entries.filter fun entry => kept config entry && f entry.1).map
        fun entry => (entry.1, entry.2.val)) := by
  have hperm := ((lib.visit_perm counts.entries).filter
    fun entry => kept config entry && f entry.1).map fun entry => (entry.1, entry.2.val)
  rw [← weight_perm hperm, gain, CountMap.weighted, retained, List.filter_map, List.filter_filter]
  congr 2
  apply List.filter_congr
  intro entry _
  exact Bool.and_comm _ _

theorem small_retained (hsmall : counts.Small) : (retained lib config counts).Small := by
  have hsub : (retained lib config counts).weighted.Sublist
      ((lib.visit counts.entries).map fun entry => (entry.1, entry.2.val)) :=
    List.filter_sublist.map _
  have hle := (hsub.map Prod.snd).sum_le_sum fun a _ => Nat.zero_le a
  have hperm := weight_perm ((lib.visit_perm counts.entries).map
    fun entry => (entry.1, entry.2.val))
  exact lt_of_le_of_lt (hle.trans hperm.le) hsmall

/-- `trainCounts` selects from the combined candidates of the retained atoms. -/
theorem trainCounts_eq (lib : Library) (trainer : Trainer)
    (hsize : ∀ entry ∈ counts.entries, entry.1.size = trainer.config.blockSize.val) :
    trainer.trainCounts lib counts =
      let config := trainer.config
      let atoms := retained lib config counts
      let stats := (lib.visit counts.entries).foldl (countEntry config)
        { distinctPatterns := counts.entries.length }
      let candidates := combinedCandidates lib config atoms
      let chosen := selectPatterns lib config candidates atoms
      .ok {
        patterns := chosen.patterns
        marginalCounts := chosen.marginalCounts
        stats := { stats with
          afterRankFilter := atoms.entries.length
          maximalPatterns := (maximalPatterns lib atoms).length
          combinedPatterns := candidates.length
          coverageEvaluations := chosen.coverageEvaluations
          coverageRecomputationsSkipped := chosen.coverageRecomputationsSkipped } } := by
  have hperm := lib.visit_perm counts.entries
  obtain ⟨atoms, hat, hrun⟩ := @retainAtoms_spec trainer.config .empty
    { distinctPatterns := counts.entries.length } (lib.visit counts.entries)
    (fun entry he => hsize entry (hperm.subset he))
    (by simpa [CountMap.empty] using (hperm.map Prod.fst).nodup_iff.mpr counts.nodup)
  have hatoms : atoms = retained lib trainer.config counts := by
    cases atoms
    simp_all [retained, CountMap.empty]
  rw [Trainer.trainCounts, hrun, hatoms]
  rfl

theorem trainCounts_spec (lib : Library) (trainer : Trainer)
    (hsize : ∀ entry ∈ counts.entries, entry.1.size = trainer.config.blockSize.val)
    (hsmall : counts.Small) :
    ∃ result, trainer.trainCounts lib counts = .ok result ∧
      let atoms := retained lib trainer.config counts
      let chosen := selectPatterns lib trainer.config
        (combinedCandidates lib trainer.config atoms) atoms
      result.patterns = chosen.patterns ∧ result.marginalCounts = chosen.marginalCounts ∧
        result.stats.representedBlocks.val = weight atoms.weighted := by
  refine ⟨_, trainCounts_eq lib trainer hsize, rfl, rfl, ?_⟩
  have hweight := weight_perm ((lib.visit_perm counts.entries).map
    fun entry => (entry.1, entry.2.val))
  have hval := @val_representedBlocks trainer.config
    { distinctPatterns := counts.entries.length } (lib.visit counts.entries)
    (by rw [hweight]; simpa [CountMap.Small, CountMap.weighted] using hsmall)
  simpa [retained, CountMap.weighted] using hval

/-! The filters in terms of the blocks. -/

def occurrences (blocks : List Block) (p : Pattern) : ℕ :=
  blocks.countP fun b => Pattern.simplest b == p

/-- A pattern the frequency and rank filters let through. -/
def survives (config : TrainingConfig) (blocks : List Block) (p : Pattern) : Bool :=
  decide (config.frequencyThreshold.val ≤ occurrences blocks p ∧
    p.rank ≤ config.dictionarySize.val)

/-- The map that counts the simplest patterns of the blocks. -/
structure CountsOf (blocks : List Block) (counts : CountMap) : Prop where
  gain_eq : ∀ f, gain f counts.weighted = blocks.countP fun b => f (Pattern.simplest b)
  keys : ∀ q ∈ counts.entries.map Prod.fst, ∃ b ∈ blocks, q = Pattern.simplest b

theorem CountsOf.count_eq (h : CountsOf blocks counts) {entry : Pattern × U64}
    (he : entry ∈ counts.entries) : entry.2.val = occurrences blocks entry.1 := by
  have hmem : (entry.1, entry.2.val) ∈ counts.weighted := List.mem_map.mpr ⟨entry, he, rfl⟩
  have hgain := gain_eq_of_mem counts.nodup_weighted hmem
  rw [h.gain_eq] at hgain
  exact hgain.symm

theorem occurrences_eq_count : occurrences blocks p = (blocks.map Pattern.simplest).count p := by
  rw [occurrences, List.count, List.countP_map]
  rfl

/-- Every block has an entry for its simplest pattern, and no other entry is there. -/
theorem CountsOf.mem_iff (h : CountsOf blocks counts) {entry : Pattern × U64} :
    entry ∈ counts.entries ↔
      entry.1 ∈ blocks.map Pattern.simplest ∧ entry.2.val = occurrences blocks entry.1 := by
  constructor
  · intro he
    obtain ⟨b, hb, hkey⟩ := h.keys entry.1 (List.mem_map_of_mem he)
    exact ⟨hkey ▸ List.mem_map_of_mem hb, h.count_eq he⟩
  · rintro ⟨hkey, hcount⟩
    have hpos : 0 < occurrences blocks entry.1 := by
      rwa [occurrences_eq_count, List.count_pos_iff]
    have hgain : gain (fun q => q == entry.1) counts.weighted ≠ 0 := by
      rw [h.gain_eq]
      exact hpos.ne'
    obtain ⟨⟨q, n⟩, hmem⟩ := List.exists_mem_of_ne_nil
      (counts.weighted.filter fun x => x.1 == entry.1)
      (fun hnil => hgain (by rw [gain, hnil]; rfl))
    obtain ⟨hweighted, hq⟩ := List.mem_filter.mp hmem
    obtain ⟨found, hfound, hval⟩ := List.mem_map.mp hweighted
    have hkey' : found.1 = entry.1 := (congrArg Prod.fst hval).trans (beq_iff_eq.mp hq)
    have hsame : found = entry := by
      refine Prod.ext hkey' (Fin.ext ?_)
      rw [h.count_eq hfound, hkey', hcount]
    exact hsame ▸ hfound

theorem CountsOf.small (h : CountsOf blocks counts) (hlen : blocks.length < 2 ^ 64) :
    counts.Small := by
  rw [CountMap.Small, weight_eq_gain, h.gain_eq]
  exact lt_of_le_of_lt List.countP_le_length hlen

theorem CountsOf.kept_iff (h : CountsOf blocks counts) {entry : Pattern × U64}
    (he : entry ∈ counts.entries) : kept config entry = survives config blocks entry.1 := by
  rw [kept, survives, ← h.count_eq he]
  rfl

/-- The retained atoms weigh what the surviving blocks number. -/
theorem CountsOf.gain_retained (h : CountsOf blocks counts) :
    gain f (retained lib config counts).weighted =
      blocks.countP fun b => survives config blocks (.simplest b) && f (.simplest b) := by
  have hfilter : (counts.entries.filter fun entry => kept config entry && f entry.1) =
      counts.entries.filter fun entry => survives config blocks entry.1 && f entry.1 := by
    apply List.filter_congr
    intro entry he
    rw [h.kept_iff he]
  rw [ByteSelect.gain_retained, hfilter, ← h.gain_eq fun p => survives config blocks p && f p,
    gain, CountMap.weighted, List.filter_map]
  rfl

theorem countBlocks_countsOf (trainer : Trainer) (blocks : Vec Block)
    (hsize : ∀ b ∈ blocks.toList, b.length = trainer.config.blockSize.val) :
    ∃ counts, trainer.countBlocks .empty blocks.toList = .ok counts ∧
      CountsOf blocks.toList counts := by
  have hlen := blocks.size_lt
  have hempty : ∀ f, gain f CountMap.empty.weighted = 0 := fun f => rfl
  obtain ⟨counts, hrun, hgain, hkeys⟩ := @countBlocks_spec trainer .empty blocks.toList hsize
    (by rw [weight_eq_gain, hempty]; omega)
  refine ⟨counts, hrun, fun f => by rw [hgain, hempty, Nat.zero_add], ?_⟩
  intro q hq
  exact (hkeys q hq).resolve_left (by simp [CountMap.empty])

end ByteSelect
