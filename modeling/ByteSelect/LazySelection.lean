import ByteSelect.TrainerCounts
import Mathlib.Data.List.Sort
import Mathlib.Tactic.Linarith

/-! The lazy loop picks what the exhaustive loop picks. -/
namespace ByteSelect

open WhileLoop

variable {lib : Library} {candidates : List Pattern} {maxPatterns : SizeT}
  {s s' : LazyState} {t : ExhaustiveState} {atoms : CountMap}

/-- An entry of the queue: its candidate, and a cached coverage that is never too small. -/
structure EntryOk (lib : Library) (candidates : List Pattern) (s : LazyState)
    (entry : LazyCandidate) (p : Pattern) : Prop where
  candidate : candidates[entry.index]? = some p
  open_ : s.selected[entry.index]? = some false
  iteration_le : entry.iteration ≤ s.iteration
  coverage_le : coverage lib p s.uncovered ≤ entry.upperBound
  fresh : entry.iteration = s.iteration → entry.upperBound = coverage lib p s.uncovered

theorem lazyCandidateLess_eq_false {patterns : List Pattern} {a b : LazyCandidate} :
    lazyCandidateLess patterns a b = false ↔ b.upperBound < a.upperBound ∨
      (b.upperBound = a.upperBound ∧
        symbolsAt patterns a.index ≤ symbolsAt patterns b.index) := by
  unfold lazyCandidateLess
  split
  · rename_i hne
    rw [decide_eq_false_iff_not, not_lt]
    constructor
    · intro hle
      exact Or.inl (lt_of_le_of_ne hle (Ne.symm hne))
    · rintro (hlt | ⟨heq, -⟩)
      · exact hlt.le
      · exact heq.le
  · rename_i heq
    rw [not_not] at heq
    rw [decide_eq_false_iff_not, not_lt]
    simp [heq]

instance (patterns : List Pattern) :
    Std.Total fun a b : LazyCandidate => lazyCandidateLess patterns a b = false where
  total a b := by
    rw [lazyCandidateLess_eq_false, lazyCandidateLess_eq_false]
    rcases lt_trichotomy a.upperBound b.upperBound with hlt | heq | hgt
    · exact Or.inr (Or.inl hlt)
    · rcases le_total (symbolsAt patterns a.index) (symbolsAt patterns b.index) with hle | hle
      · exact Or.inl (Or.inr ⟨heq.symm, hle⟩)
      · exact Or.inr (Or.inr ⟨heq, hle⟩)
    · exact Or.inl (Or.inl hgt)

instance (patterns : List Pattern) :
    IsTrans LazyCandidate fun a b => lazyCandidateLess patterns a b = false where
  trans a b c hab hbc := by
    rw [lazyCandidateLess_eq_false] at *
    rcases hab with hab | ⟨hab, hle⟩
    · rcases hbc with hbc | ⟨hbc, -⟩
      · exact Or.inl (hbc.trans hab)
      · exact Or.inl (hbc ▸ hab)
    · rcases hbc with hbc | ⟨hbc, hle'⟩
      · exact Or.inl (hab ▸ hbc)
      · exact Or.inr ⟨hbc.trans hab, hle.trans hle'⟩

structure LazyInv (lib : Library) (candidates : List Pattern) (s : LazyState) : Prop where
  small : s.uncovered.Small
  nodup : (s.queue.map LazyCandidate.index).Nodup
  entries : ∀ entry ∈ s.queue, ∃ p, EntryOk lib candidates s entry p

/-- The patterns still waiting in the queue. -/
def waiting (candidates : List Pattern) (queue : List LazyCandidate) : List Pattern :=
  queue.filterMap fun entry => candidates[entry.index]?

/-- All that a turn of the lazy loop can do. -/
theorem lazyStep_some (h : lazyStep lib maxPatterns candidates s = some s') :
    s.stopped = false ∧ s.patterns.length < maxPatterns.val ∧
    ∃ top rest p, lib.pop candidates s.queue = some (top, rest) ∧
      candidates[top.index]? = some p ∧
      ((s.selected[top.index]? = some true ∧ s' = { s with queue := rest }) ∨
        (top.iteration ≠ s.iteration ∧
          s' = { s with
            queue := { top with
              upperBound := coverage lib p s.uncovered, iteration := s.iteration } :: rest
            coverageEvaluations := s.coverageEvaluations + 1 }) ∨
        (top.iteration = s.iteration ∧ top.upperBound = 0 ∧
          s' = { s with queue := rest, stopped := true }) ∨
        (top.iteration = s.iteration ∧ top.upperBound ≠ 0 ∧
          s' = { s.toSelected.select p top.upperBound with
            queue := rest
            selected := s.selected.set top.index true
            iteration := s.iteration + 1
            coverageRecomputationsSkipped :=
              s.coverageRecomputationsSkipped + rest.length })) := by
  unfold lazyStep at h
  split at h
  · cases h
  · rename_i hrun
    rw [not_or, not_le] at hrun
    refine ⟨by simpa using hrun.1, hrun.2, ?_⟩
    cases hpop : lib.pop candidates s.queue with
    | none => simp [hpop] at h
    | some popped =>
      obtain ⟨top, rest⟩ := popped
      cases hidx : candidates[top.index]? with
      | none => simp [hpop, hidx] at h
      | some p =>
        simp only [hpop, hidx] at h
        refine ⟨top, rest, p, rfl, hidx, ?_⟩
        split at h
        · rename_i hselected
          exact Or.inl ⟨hselected, (Option.some.inj h).symm⟩
        · right
          split at h
          · rename_i hstale
            exact Or.inl ⟨hstale, (Option.some.inj h).symm⟩
          · rename_i hfresh
            rw [not_not] at hfresh
            split at h
            · rename_i hz
              exact Or.inr (Or.inl ⟨hfresh, hz, (Option.some.inj h).symm⟩)
            · rename_i hz
              exact Or.inr (Or.inr ⟨hfresh, hz, (Option.some.inj h).symm⟩)

/-- Under the invariant a turn does one of three things: no selected index is ever popped. -/
theorem lazyStep_cases (hinv : LazyInv lib candidates s)
    (h : lazyStep lib maxPatterns candidates s = some s') :
    s.stopped = false ∧ s.patterns.length < maxPatterns.val ∧
    ∃ top rest p, (top :: rest).Perm s.queue ∧
      (∀ entry ∈ rest, lazyCandidateLess candidates top entry = false) ∧
      EntryOk lib candidates s top p ∧
      ((top.iteration ≠ s.iteration ∧
          s' = { s with
            queue := { top with
              upperBound := coverage lib p s.uncovered, iteration := s.iteration } :: rest
            coverageEvaluations := s.coverageEvaluations + 1 }) ∨
        (top.iteration = s.iteration ∧ top.upperBound = 0 ∧
          s' = { s with queue := rest, stopped := true }) ∨
        (top.iteration = s.iteration ∧ top.upperBound ≠ 0 ∧
          s' = { s.toSelected.select p top.upperBound with
            queue := rest
            selected := s.selected.set top.index true
            iteration := s.iteration + 1
            coverageRecomputationsSkipped :=
              s.coverageRecomputationsSkipped + rest.length })) := by
  obtain ⟨hrun, hlen, top, rest, p, hpop, hidx, hcases⟩ := lazyStep_some h
  have hperm := lib.pop_perm _ _ _ _ hpop
  obtain ⟨q, hq⟩ := hinv.entries top (hperm.subset List.mem_cons_self)
  obtain rfl : q = p := Option.some.inj (hq.candidate.symm.trans hidx)
  refine ⟨hrun, hlen, top, rest, q, hperm, lib.pop_top _ _ _ _ hpop, hq, ?_⟩
  rcases hcases with ⟨hselected, -⟩ | hcases
  · rw [hq.open_] at hselected
    cases hselected
  · exact hcases

theorem lazyStep_inv (hinv : LazyInv lib candidates s)
    (h : lazyStep lib maxPatterns candidates s = some s') : LazyInv lib candidates s' := by
  obtain ⟨-, -, top, rest, p, hperm, -, hp, hcases⟩ := lazyStep_cases hinv h
  have hnodup : (top.index :: rest.map LazyCandidate.index).Nodup :=
    (hperm.map LazyCandidate.index).nodup_iff.mpr hinv.nodup
  have hrest : ∀ entry ∈ rest, ∃ q, EntryOk lib candidates s entry q := by
    intro entry he
    exact hinv.entries entry (hperm.subset (List.mem_cons_of_mem _ he))
  rcases hcases with ⟨-, rfl⟩ | ⟨-, -, rfl⟩ | ⟨-, -, rfl⟩
  · refine ⟨hinv.small, hnodup, ?_⟩
    intro entry he
    rcases List.mem_cons.mp he with rfl | he
    · exact ⟨p, hp.candidate, hp.open_, le_rfl, le_rfl, fun _ => rfl⟩
    · obtain ⟨q, hq⟩ := hrest entry he
      exact ⟨q, hq.candidate, hq.open_, hq.iteration_le, hq.coverage_le, hq.fresh⟩
  · refine ⟨hinv.small, hnodup.of_cons, ?_⟩
    intro entry he
    obtain ⟨q, hq⟩ := hrest entry he
    exact ⟨q, hq.candidate, hq.open_, hq.iteration_le, hq.coverage_le, hq.fresh⟩
  · refine ⟨small_eraseBelow hinv.small, hnodup.of_cons, ?_⟩
    intro entry he
    obtain ⟨q, hq⟩ := hrest entry he
    have hne : top.index ≠ entry.index := by
      intro heq
      exact (List.nodup_cons.mp hnodup).1 (heq ▸ List.mem_map_of_mem he)
    have hle := hq.iteration_le
    refine ⟨q, hq.candidate, ?_, by dsimp only; omega, ?_, ?_⟩
    · rw [← hq.open_]
      exact List.getElem?_set_ne hne
    · exact (coverage_eraseBelow_le hinv.small).trans hq.coverage_le
    · intro hfresh
      dsimp only at hfresh
      omega

/-- A fresh entry on top of the heap is the best of the waiting candidates: what lies below
it has a smaller coverage, or the same one and comes later in the order. -/
theorem isBest_top (hinv : LazyInv lib candidates s) {top : LazyCandidate}
    {rest : List LazyCandidate} {p : Pattern} (hperm : (top :: rest).Perm s.queue)
    (htop : ∀ entry ∈ rest, lazyCandidateLess candidates top entry = false)
    (hp : EntryOk lib candidates s top p) (hfresh : top.iteration = s.iteration) :
    IsBest lib s.uncovered (waiting candidates s.queue) p top.upperBound := by
  refine ⟨hp.fresh hfresh, ?_, ?_⟩
  · exact List.mem_filterMap.mpr ⟨top, hperm.subset List.mem_cons_self, hp.candidate⟩
  · intro q hq
    obtain ⟨entry, he, hcand⟩ := List.mem_filterMap.mp hq
    obtain ⟨q', hq'⟩ := hinv.entries entry he
    obtain rfl : q' = q := Option.some.inj (hq'.candidate.symm.trans hcand)
    rcases List.mem_cons.mp (hperm.symm.subset he) with rfl | hrest
    · obtain rfl : q' = p := Option.some.inj (hq'.candidate.symm.trans hp.candidate)
      exact Or.inr ⟨(hp.fresh hfresh).symm, le_rfl⟩
    · rcases lazyCandidateLess_eq_false.mp (htop entry hrest) with hlt | ⟨heq, hle⟩
      · exact Or.inl (hq'.coverage_le.trans_lt hlt)
      · simp only [symbolsAt, hp.candidate, hq'.candidate, Option.map_some,
          Option.getD_some] at hle
        rcases (heq ▸ hq'.coverage_le).lt_or_eq with hlt | he
        · exact Or.inl hlt
        · exact Or.inr ⟨he, hle⟩

/-- The lazy state stands for the exhaustive one. -/
structure Matches (candidates : List Pattern) (s : LazyState) (t : ExhaustiveState) : Prop where
  uncovered : t.uncovered = s.uncovered
  patterns : t.patterns = s.patterns
  marginalCounts : t.marginalCounts = s.marginalCounts
  stopped : t.stopped = s.stopped
  candidates : s.stopped = false → t.candidates.Perm (waiting candidates s.queue)

/-- A recomputation is no turn of the exhaustive loop; a selection and the `break` are one. -/
theorem lazyStep_matches (hinv : LazyInv lib candidates s) (hm : Matches candidates s t)
    (h : lazyStep lib maxPatterns candidates s = some s') :
    Matches candidates s' t ∨
      ∃ t', exhaustiveStep lib maxPatterns t = some t' ∧ Matches candidates s' t' := by
  obtain ⟨hrun, hlen, top, rest, p, hperm, htop, hp, hcases⟩ := lazyStep_cases hinv h
  have hwait : (waiting candidates (top :: rest)).Perm (waiting candidates s.queue) :=
    hperm.filterMap _
  have hcands := hm.candidates hrun
  have hagree (hfresh : top.iteration = s.iteration) :
      ∃ t', exhaustiveStep lib maxPatterns t = some t' ∧ ∃ index, t.candidates[index]? = some p ∧
        let evaluated := { t.toSelected with
          coverageEvaluations := t.coverageEvaluations + t.candidates.length }
        ((top.upperBound = 0 ∧
            t' = { evaluated with stopped := true, candidates := t.candidates }) ∨
          (top.upperBound ≠ 0 ∧ t' = { evaluated.select p top.upperBound with
            candidates := t.candidates.eraseIdx index })) := by
    have hbest := (isBest_top hinv hperm htop hp hfresh).perm hcands.symm
    rw [← hm.uncovered] at hbest
    obtain ⟨t', ht⟩ : ∃ t', exhaustiveStep lib maxPatterns t = some t' :=
      exhaustiveStep_some (hm.stopped.trans hrun) (hm.patterns ▸ hlen)
        (List.ne_nil_of_mem hbest.mem)
    obtain ⟨-, -, index, q, count, hidx, hq, hstep⟩ := exhaustiveStep_cases ht
    obtain ⟨rfl, rfl⟩ := hbest.unique hq
    exact ⟨t', ht, index, hidx, hstep⟩
  rcases hcases with ⟨-, rfl⟩ | ⟨hfresh, hz, rfl⟩ | ⟨hfresh, hz, rfl⟩
  · left
    exact ⟨hm.uncovered, hm.patterns, hm.marginalCounts, hm.stopped,
      fun _ => hcands.trans hwait.symm⟩
  · right
    obtain ⟨t', ht, index, hidx, ⟨-, rfl⟩ | ⟨hnz, -⟩⟩ := hagree hfresh
    · exact ⟨_, ht, hm.uncovered, hm.patterns, hm.marginalCounts, rfl, fun h => by cases h⟩
    · exact absurd hz hnz
  · right
    obtain ⟨t', ht, index, hidx, ⟨hzero, -⟩ | ⟨-, rfl⟩⟩ := hagree hfresh
    · exact absurd hzero hz
    · refine ⟨_, ht, ?_, ?_, ?_, hm.stopped, ?_⟩
      · exact congrArg (CountMap.eraseBelow · p) hm.uncovered
      · exact congrArg (· ++ [p]) hm.patterns
      · exact congrArg (· ++ [top.upperBound]) hm.marginalCounts
      · intro _
        have hremain : (p :: t.candidates.eraseIdx index).Perm (p :: waiting candidates rest) := by
          obtain ⟨hlt, rfl⟩ := List.getElem?_eq_some_iff.mp hidx
          have hcons : waiting candidates (top :: rest) =
              t.candidates[index] :: waiting candidates rest := by
            simp [waiting, hp.candidate]
          exact (List.getElem_cons_eraseIdx_perm hlt).trans (hcands.trans (hcons ▸ hwait.symm))
        exact hremain.cons_inv

/-- Each turn of the lazy loop makes a stale entry fresh or shortens the queue. -/
def lazyMeasure (s : LazyState) : ℕ :=
  s.queue.length * (s.queue.length + 1) +
    s.queue.countP fun entry => entry.iteration ≠ s.iteration

theorem lazyStep_lazyMeasure_lt (h : lazyStep lib maxPatterns candidates s = some s') :
    lazyMeasure s' < lazyMeasure s := by
  obtain ⟨-, -, top, rest, p, hpop, -, hcases⟩ := lazyStep_some h
  have hperm := lib.pop_perm _ _ _ _ hpop
  have hlen : s.queue.length = rest.length + 1 := hperm.length_eq.symm
  have hshort : ∀ i, rest.length * (rest.length + 1) +
      rest.countP (fun entry => entry.iteration ≠ i) < lazyMeasure s := by
    intro i
    have hle := rest.countP_le_length (p := fun entry => entry.iteration ≠ i)
    rw [lazyMeasure, hlen]
    nlinarith
  rcases hcases with ⟨-, rfl⟩ | ⟨hstale, rfl⟩ | ⟨-, -, rfl⟩ | ⟨-, -, rfl⟩
  · exact hshort s.iteration
  · have hcount := hperm.countP_eq fun entry => decide (entry.iteration ≠ s.iteration)
    rw [List.countP_cons_of_pos (by simpa using hstale)] at hcount
    rw [lazyMeasure, lazyMeasure, ← hcount, hlen]
    simp
  · exact hshort s.iteration
  · exact hshort (s.iteration + 1)

theorem exhaustiveStep_measure_lt {t t' : ExhaustiveState}
    (h : exhaustiveStep lib maxPatterns t = some t') :
    t'.candidates.length + (if t'.stopped then 0 else 1) <
      t.candidates.length + (if t.stopped then 0 else 1) := by
  obtain ⟨hrun, -, index, p, count, hidx, -, hcases⟩ := exhaustiveStep_cases h
  rcases hcases with ⟨-, rfl⟩ | ⟨-, rfl⟩
  · simp [hrun]
  · obtain ⟨hlt, -⟩ := List.getElem?_eq_some_iff.mp hidx
    have hshort := List.length_eraseIdx_of_lt hlt
    change (t.candidates.eraseIdx index).length + (if t.stopped then 0 else 1) < _
    omega

/-- One turn for each candidate and one for the `break` are enough. -/
theorem exhaustive_halts : exhaustiveStep lib maxPatterns
    (run (exhaustiveStep lib maxPatterns) (candidates.length + 1)
      { uncovered := atoms, candidates := candidates }) = none := by
  have hkeep : ∀ t t' : ExhaustiveState, True →
      exhaustiveStep lib maxPatterns t = some t' → True := fun _ _ _ _ => trivial
  exact run_halts hkeep _ (fun _ _ _ => exhaustiveStep_measure_lt) trivial (by simp)

theorem countP_stale_lazyQueue :
    (lazyQueue lib candidates atoms).countP (fun entry => entry.iteration ≠ 0) = 0 := by
  rw [List.countP_eq_zero]
  intro entry he
  obtain ⟨x, -, rfl⟩ := List.mem_map.mp he
  simp

/-- One turn to refresh an entry after each selection is enough. -/
theorem lazy_halts : lazyStep lib maxPatterns candidates
    (run (lazyStep lib maxPatterns candidates) (candidates.length * (candidates.length + 2))
      { uncovered := atoms
        coverageEvaluations := candidates.length
        queue := lazyQueue lib candidates atoms
        selected := List.replicate candidates.length false }) = none := by
  have hkeep : ∀ s s' : LazyState, True →
      lazyStep lib maxPatterns candidates s = some s' → True := fun _ _ _ _ => trivial
  refine run_halts hkeep lazyMeasure (fun _ _ _ => lazyStep_lazyMeasure_lt) trivial ?_
  have hfresh : (lazyQueue lib candidates atoms).countP (fun entry => entry.iteration ≠ 0) = 0 :=
    countP_stale_lazyQueue
  have hlen : (lazyQueue lib candidates atoms).length = candidates.length := by simp [lazyQueue]
  rw [lazyMeasure, hfresh, hlen]
  nlinarith

/-- A lazy loop that ends before it may has an empty queue. -/
theorem queue_of_halted (hinv : LazyInv lib candidates s)
    (h : lazyStep lib maxPatterns candidates s = none) (hrun : s.stopped = false)
    (hlen : s.patterns.length < maxPatterns.val) : s.queue = [] := by
  have hnot : ¬ (s.stopped = true ∨ s.patterns.length ≥ maxPatterns.val) := by
    rw [hrun]
    simp [hlen]
  unfold lazyStep at h
  rw [if_neg hnot] at h
  cases hpop : lib.pop candidates s.queue with
  | none => exact lib.pop_none _ _ hpop
  | some popped =>
    obtain ⟨top, rest⟩ := popped
    have hmem := (lib.pop_perm _ _ _ _ hpop).subset List.mem_cons_self
    obtain ⟨q, hq⟩ := hinv.entries top hmem
    simp only [hpop, hq.candidate, hq.open_] at h
    split at h
    · cases h
    · split at h
      · cases h
      · split at h
        · cases h
        · cases h

/-- When the lazy loop is over, so is the exhaustive one. -/
theorem exhaustiveStep_halted (hinv : LazyInv lib candidates s) (hm : Matches candidates s t)
    (h : lazyStep lib maxPatterns candidates s = none) :
    exhaustiveStep lib maxPatterns t = none := by
  cases ht : exhaustiveStep lib maxPatterns t with
  | none => rfl
  | some t' =>
    obtain ⟨hrun, hlen, index, p, count, hidx, -⟩ := exhaustiveStep_cases ht
    have hrun' := hm.stopped.symm.trans hrun
    have hempty := hm.candidates hrun'
    rw [queue_of_halted hinv h hrun' (hm.patterns ▸ hlen), waiting, List.filterMap_nil,
      List.perm_nil] at hempty
    simp [hempty] at hidx

theorem map_index_lazyQueue :
    (lazyQueue lib candidates atoms).map LazyCandidate.index = List.range candidates.length := by
  simp [lazyQueue, Function.comp_def, List.range_eq_range']

theorem lazyInv_start (hsmall : atoms.Small) :
    LazyInv lib candidates
      { uncovered := atoms
        coverageEvaluations := candidates.length
        queue := lazyQueue lib candidates atoms
        selected := List.replicate candidates.length false } := by
  refine ⟨hsmall, ?_, ?_⟩
  · exact map_index_lazyQueue ▸ List.nodup_range
  · intro entry he
    obtain ⟨⟨p, index⟩, hp, rfl⟩ := List.mem_map.mp he
    have hidx := List.mem_zipIdx_iff_getElem?.mp hp
    obtain ⟨hlt, -⟩ := List.getElem?_eq_some_iff.mp hidx
    exact ⟨p, hidx, by simp [hlt], le_rfl, le_rfl, fun _ => rfl⟩

theorem waiting_lazyQueue : waiting candidates (lazyQueue lib candidates atoms) = candidates := by
  have hsome : ∀ x ∈ candidates.zipIdx, candidates[x.2]? = some x.1 := by
    intro x hx
    exact List.mem_zipIdx_iff_getElem?.mp hx
  rw [waiting, lazyQueue, List.filterMap_map]
  calc candidates.zipIdx.filterMap (fun x => candidates[x.2]?)
      = candidates.zipIdx.filterMap (fun x => some x.1) := List.filterMap_congr hsome
    _ = candidates.zipIdx.map Prod.fst := by rw [List.filterMap_eq_map']
    _ = candidates := List.zipIdx_map_fst ..

/-- What the turns of both loops keep holds at their ends, where the loops agree. -/
theorem selectLazy_related {R : LazyState → ExhaustiveState → Prop} (hsmall : atoms.Small)
    (hstart : R
      { uncovered := atoms
        coverageEvaluations := candidates.length
        queue := lazyQueue lib candidates atoms
        selected := List.replicate candidates.length false }
      { uncovered := atoms, candidates := candidates })
    (hstep : ∀ s t s', LazyInv lib candidates s → Matches candidates s t → R s t →
      lazyStep lib maxPatterns candidates s = some s' →
      (Matches candidates s' t ∧ R s' t) ∨
        ∃ t', exhaustiveStep lib maxPatterns t = some t' ∧ Matches candidates s' t' ∧ R s' t') :
    ∃ s t, LazyInv lib candidates s ∧ Matches candidates s t ∧ R s t ∧
      lazyStep lib maxPatterns candidates s = none ∧
      selectLazy lib maxPatterns candidates atoms = s.toSelected ∧
      selectExhaustive lib maxPatterns candidates atoms = t.toSelected := by
  have hbegin : Matches candidates
      { uncovered := atoms
        coverageEvaluations := candidates.length
        queue := lazyQueue lib candidates atoms
        selected := List.replicate candidates.length false }
      { uncovered := atoms, candidates := candidates } :=
    ⟨rfl, rfl, rfl, rfl, fun _ => by rw [waiting_lazyQueue]⟩
  have hsim : ∀ s t s', LazyInv lib candidates s ∧ Matches candidates s t ∧ R s t →
      lazyStep lib maxPatterns candidates s = some s' →
      (LazyInv lib candidates s' ∧ Matches candidates s' t ∧ R s' t) ∨
        ∃ t', exhaustiveStep lib maxPatterns t = some t' ∧
          LazyInv lib candidates s' ∧ Matches candidates s' t' ∧ R s' t' := by
    intro s t s' ⟨hinv, hm, hR⟩ hs
    have hinv' := lazyStep_inv hinv hs
    rcases hstep s t s' hinv hm hR hs with hstay | ⟨t', ht, hmove⟩
    · exact Or.inl ⟨hinv', hstay⟩
    · exact Or.inr ⟨t', ht, hinv', hmove⟩
  obtain ⟨hinv, hm, hR⟩ := run_related hsim (fun _ _ h => exhaustiveStep_halted h.1 h.2.1)
    ⟨lazyInv_start hsmall, hbegin, hstart⟩ lazy_halts exhaustive_halts
  exact ⟨_, _, hinv, hm, hR, lazy_halts, rfl, rfl⟩

/-- Both loops run to their ends and agree there. -/
theorem selectLazy_matches (hsmall : atoms.Small) :
    (selectLazy lib maxPatterns candidates atoms).patterns =
        (selectExhaustive lib maxPatterns candidates atoms).patterns ∧
      (selectLazy lib maxPatterns candidates atoms).marginalCounts =
        (selectExhaustive lib maxPatterns candidates atoms).marginalCounts := by
  have hstep : ∀ s t s', LazyInv lib candidates s → Matches candidates s t → True →
      lazyStep lib maxPatterns candidates s = some s' →
      (Matches candidates s' t ∧ True) ∨
        ∃ t', exhaustiveStep lib maxPatterns t = some t' ∧ Matches candidates s' t' ∧ True := by
    intro s t s' hinv hm _ hs
    simpa using lazyStep_matches hinv hm hs
  obtain ⟨s, t, -, hm, -, -, hs, ht⟩ := selectLazy_related hsmall trivial hstep
  rw [hs, ht]
  exact ⟨hm.patterns.symm, hm.marginalCounts.symm⟩

/-- In either mode the selection returns what the exhaustive loop returns. -/
theorem selectPatterns_matches {config : TrainingConfig} (hsmall : atoms.Small) :
    (selectPatterns lib config candidates atoms).patterns =
        (selectExhaustive lib config.maxPatterns candidates atoms).patterns ∧
      (selectPatterns lib config candidates atoms).marginalCounts =
        (selectExhaustive lib config.maxPatterns candidates atoms).marginalCounts := by
  cases h : config.selectionMode with
  | exhaustive => simp [selectPatterns, h]
  | lazyExact => simpa [selectPatterns, h] using selectLazy_matches hsmall

/-- What `trainCounts` returns, whatever the mode. -/
theorem trainCounts_exhaustive (lib : Library) (trainer : Trainer) {counts : CountMap}
    (hsize : ∀ entry ∈ counts.entries, entry.1.size = trainer.config.blockSize.val)
    (hsmall : counts.Small) :
    ∃ result, trainer.trainCounts lib counts = .ok result ∧
      let atoms := retained lib trainer.config counts
      let chosen := selectExhaustive lib trainer.config.maxPatterns
        (combinedCandidates lib trainer.config atoms) atoms
      result.patterns = chosen.patterns ∧ result.marginalCounts = chosen.marginalCounts ∧
        result.stats.representedBlocks.val = WeightedCover.weight atoms.weighted := by
  obtain ⟨result, hrun, hp, hm, hrep⟩ := trainCounts_spec lib trainer hsize hsmall
  obtain ⟨hp', hm'⟩ := selectPatterns_matches (small_retained hsmall)
  exact ⟨result, hrun, hp.trans hp', hm.trans hm', hrep⟩

def sortQueue (patterns : List Pattern) (queue : List LazyCandidate) : List LazyCandidate :=
  queue.insertionSort fun a b => lazyCandidateLess patterns a b = false

/-- A library that visits in order of insertion and pops from a sorted queue. -/
def insertionLibrary : Library where
  visit entries := entries
  visit_perm _ := .refl _
  pop patterns queue :=
    match sortQueue patterns queue with
    | [] => none
    | top :: rest => some (top, rest)
  pop_none patterns queue h := by
    cases hs : sortQueue patterns queue with
    | nil =>
      have hperm : (sortQueue patterns queue).Perm queue := List.perm_insertionSort _ queue
      rw [hs] at hperm
      exact hperm.nil_eq.symm
    | cons top rest => simp [hs] at h
  pop_perm patterns queue top rest h := by
    have hperm : (sortQueue patterns queue).Perm queue := List.perm_insertionSort _ queue
    cases hs : sortQueue patterns queue with
    | nil => simp [hs] at h
    | cons top' rest' => simp_all
  pop_top patterns queue top rest h := by
    have hsorted : (sortQueue patterns queue).Pairwise
        fun a b => lazyCandidateLess patterns a b = false := List.pairwise_insertionSort _ queue
    cases hs : sortQueue patterns queue with
    | nil => simp [hs] at h
    | cons top' rest' => simp_all

def exampleConfig (mode : SelectionMode) : TrainingConfig :=
  { blockSize := 3, dictionarySize := 2, maxPatterns := 2, selectionMode := mode }

/-- Two comparable patterns and one of too large a rank. -/
def exampleCounts : CountMap :=
  ((CountMap.empty.emplace (.simplest [7, 7, 7]) 5).emplace (.simplest [7, 8, 7]) 4).emplace
    (.simplest [1, 2, 3]) 9

/-- Both modes of one configuration train the same patterns with the same counts. -/
theorem trainCounts_lazy_eq_exhaustive {config : TrainingConfig} {counts : CountMap}
    {lazy exhaustive : Trainer} (lib : Library)
    (hlazy : makeTrainer { config with selectionMode := .lazyExact } = .ok lazy)
    (hexhaustive : makeTrainer { config with selectionMode := .exhaustive } = .ok exhaustive)
    (hsize : ∀ entry ∈ counts.entries, entry.1.size = config.blockSize.val)
    (hsum : (counts.entries.map fun entry => entry.2.val).sum < 2 ^ 64) :
    ∃ a b, lazy.trainCounts lib counts = .ok a ∧ exhaustive.trainCounts lib counts = .ok b ∧
      a.patterns = b.patterns ∧ a.marginalCounts = b.marginalCounts := by
  have hl := makeTrainer_config hlazy
  have he := makeTrainer_config hexhaustive
  have hsmall := CountMap.small_iff.mpr hsum
  obtain ⟨a, ha, hap, ham, -⟩ := trainCounts_exhaustive lib lazy (by rwa [hl]) hsmall
  obtain ⟨b, hb, hbp, hbm, -⟩ := trainCounts_exhaustive lib exhaustive (by rwa [he]) hsmall
  -- the mode is read by `selectPatterns` alone
  have hchosen : ∀ mode, selectExhaustive lib config.maxPatterns
      (combinedCandidates lib { config with selectionMode := mode }
        (retained lib { config with selectionMode := mode } counts))
      (retained lib { config with selectionMode := mode } counts) =
      selectExhaustive lib config.maxPatterns
        (combinedCandidates lib config (retained lib config counts))
        (retained lib config counts) := fun _ => rfl
  rw [hl] at hap ham
  rw [he] at hbp hbm
  refine ⟨a, b, ha, hb, ?_, ?_⟩
  · rw [hap, hbp]
    exact congrArg Selected.patterns ((hchosen _).trans (hchosen _).symm)
  · rw [ham, hbm]
    exact congrArg Selected.marginalCounts ((hchosen _).trans (hchosen _).symm)

theorem exampleCounts_lazy_eq_exhaustive :
    ∃ a b, Trainer.trainCounts insertionLibrary ⟨exampleConfig .lazyExact, by decide⟩
        exampleCounts = .ok a ∧
      Trainer.trainCounts insertionLibrary ⟨exampleConfig .exhaustive, by decide⟩
        exampleCounts = .ok b ∧
      a.patterns = b.patterns ∧ a.marginalCounts = b.marginalCounts :=
  @trainCounts_lazy_eq_exhaustive (exampleConfig .lazyExact) exampleCounts _ _ insertionLibrary
    rfl rfl (by decide) (by decide)

end ByteSelect
