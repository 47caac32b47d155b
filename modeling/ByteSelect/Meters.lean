import ByteSelect.Reports

/-! Loops that evaluate one trace after another and merge what they find: the total is what the
blocks of all the traces come to, in counters of 64 bits. -/
namespace ByteSelect

open Accounting Baseline Loops

/-- An evaluation that keeps a book, and the merge of its results. -/
structure Meter (ρ : Type) where
  evaluation : BlockVector → Except Error ρ
  merge : ρ → ρ → Except Error ρ
  entryOf : Block → Except Error Entry
  book : Totals → ρ
  targets : List ℕ
  blockSize : ℕ
  accepted : Prop
  books : Books evaluation entryOf book targets blockSize accepted
  merges : ∀ t u : Totals, t.slots.length = u.slots.length →
    merge (book t) (book u) = .ok (book (t.mergeMod (2 ^ 64) u))

/-- What a group keeps of its traces. -/
def Measured.grouped {ρ : Type} (m : Measured ρ) : Grouped ρ := ⟨m.traces.length, m.total⟩

/-- Traces of blocks of `n` bytes. -/
def Sized (n : ℕ) (bss : List BlockVector) : Prop :=
  ∀ blocks ∈ bss, ∀ block ∈ blocks.toList, block.length = n

theorem sized_append {n : ℕ} {xs ys : List BlockVector} :
    Sized n (xs ++ ys) ↔ Sized n xs ∧ Sized n ys := List.forall_mem_append

namespace Meter

variable {ρ : Type} {M : Meter ρ} {bss xs ys : List BlockVector} {blocks : BlockVector}
  {first result t u : ρ} {s next : Measured ρ}

/-- What the blocks of all the traces come to. -/
def Total (M : Meter ρ) (bss : List BlockVector) (total : ρ) : Prop :=
  ∃ entries, (bss.flatMap BlockVector.toList).mapM M.entryOf = .ok entries ∧
    total = M.book ((totals M.targets.length entries).wrap (2 ^ 64))

/-- Each trace is evaluated, and the total is that of all their blocks. -/
structure Reports (M : Meter ρ) (bss : List BlockVector) (report : Measured ρ) : Prop where
  traces : bss.mapM M.evaluation = .ok report.traces
  total : M.Total bss report.total

/-! Totals. -/

theorem total_nil : M.Total [] t ↔ t = M.book (.empty M.targets.length) := by
  constructor
  · rintro ⟨entries, hentries, rfl⟩
    cases hentries
    exact congrArg M.book (wrap_empty _ _)
  · rintro rfl
    exact ⟨[], rfl, congrArg M.book (wrap_empty _ _).symm⟩

theorem Total.unique (ht : M.Total bss t) (hu : M.Total bss u) : t = u := by
  obtain ⟨entries, hentries, rfl⟩ := ht
  obtain ⟨entries', hentries', rfl⟩ := hu
  cases hentries.symm.trans hentries'
  rfl

theorem Total.append (ht : M.Total xs t) (hu : M.Total ys u) :
    ∃ total, M.merge t u = .ok total ∧ M.Total (xs ++ ys) total := by
  obtain ⟨es, hes, rfl⟩ := ht
  obtain ⟨fs, hfs, rfl⟩ := hu
  have hentries : ((xs ++ ys).flatMap BlockVector.toList).mapM M.entryOf = .ok (es ++ fs) := by
    rw [List.flatMap_append, List.mapM_append, hes, hfs]
    rfl
  refine ⟨_, ?_, _, hentries, rfl⟩
  rw [M.merges, totals_append, wrap_merge]
  simp only [Totals.wrap, List.length_map, length_slots_totals]

theorem Total.split (h : M.Total (xs ++ ys) result) : ∃ t u, M.Total xs t ∧ M.Total ys u := by
  obtain ⟨entries, hentries, -⟩ := h
  rw [List.flatMap_append, List.mapM_append] at hentries
  obtain ⟨es, hes, hrest⟩ := bind_eq_ok_iff.mp hentries
  obtain ⟨fs, hfs, -⟩ := bind_eq_ok_iff.mp hrest
  exact ⟨_, _, ⟨es, hes, rfl⟩, ⟨fs, hfs, rfl⟩⟩

theorem Total.perm (h : M.Total xs t) (hperm : ys.Perm xs) : M.Total ys t := by
  obtain ⟨entries, hentries, rfl⟩ := h
  obtain ⟨entries', hentries', hsame⟩ := mapM_perm hentries (hperm.flatMap_right BlockVector.toList)
  exact ⟨entries', hentries', by rw [totals_perm _ hsame]⟩

theorem total_of_evaluation (hn : Sized M.blockSize [blocks])
    (h : M.evaluation blocks = .ok t) : M.Total [blocks] t := by
  obtain ⟨-, entries, hentries, rfl⟩ :=
    (M.books.run blocks (hn blocks List.mem_cons_self) t).mp h
  refine ⟨entries, ?_, rfl⟩
  rwa [List.flatMap_singleton]

/-- The total of traces that can be held as one is what that one is evaluated to. -/
theorem Total.evaluation (h : M.Total bss t) (hn : Sized M.blockSize bss) (haccepted : M.accepted)
    (hblocks : blocks.toList = bss.flatMap BlockVector.toList) : M.evaluation blocks = .ok t := by
  obtain ⟨entries, hentries, rfl⟩ := h
  refine (M.books.run blocks ?_ _).mpr ⟨fun _ => haccepted, entries, hblocks ▸ hentries, rfl⟩
  intro block hblock
  rw [hblocks] at hblock
  obtain ⟨trace, htrace, hmem⟩ := List.mem_flatMap.mp hblock
  exact hn trace htrace block hmem

/-- Traces are reported on when every block can be booked. -/
theorem exists_reports (hn : Sized M.blockSize bss) (haccepted : M.accepted)
    (hentries : ∀ block ∈ bss.flatMap BlockVector.toList, ∃ entry, M.entryOf block = .ok entry) :
    ∃ report, M.Reports bss report := by
  have hresult : ∀ blocks ∈ bss, ∃ result, M.evaluation blocks = .ok result := by
    intro blocks hmem
    obtain ⟨entries, hmap⟩ := exists_mapM_ok fun block hblock =>
      hentries block (List.mem_flatMap.mpr ⟨blocks, hmem, hblock⟩)
    exact ⟨_, (M.books.run blocks (hn blocks hmem) _).mpr ⟨fun _ => haccepted, entries, hmap, rfl⟩⟩
  obtain ⟨traces, htraces⟩ := exists_mapM_ok hresult
  obtain ⟨entries, hmap⟩ := exists_mapM_ok hentries
  exact ⟨⟨traces, _⟩, htraces, entries, hmap, rfl⟩

theorem Reports.accepted {report : Measured ρ} (h : M.Reports bss report)
    (hn : Sized M.blockSize bss) (hne : bss ≠ []) (hpos : ∀ blocks ∈ bss, blocks.toList ≠ []) :
    M.accepted := by
  obtain ⟨blocks, hmem⟩ := List.exists_mem_of_ne_nil _ hne
  obtain ⟨result, -, hresult⟩ := exists_of_mem_left (mapM_eq_ok_iff.mp h.traces) hmem
  exact ((M.books.run blocks (hn blocks hmem) result).mp hresult).1 (hpos blocks hmem)

theorem Reports.exists_entry {report : Measured ρ} (h : M.Reports bss report) :
    ∀ block ∈ bss.flatMap BlockVector.toList, ∃ entry, M.entryOf block = .ok entry := by
  intro block hmem
  obtain ⟨entries, hentries, -⟩ := h.total
  obtain ⟨entry, -, hentry⟩ := exists_of_mem_left (mapM_eq_ok_iff.mp hentries) hmem
  exact ⟨entry, hentry⟩

/-! The loops. -/

/-- A turn that merges into the total. -/
def mergeStep (M : Meter ρ) (s : Measured ρ) (blocks : BlockVector) :
    Except Error (Measured ρ) := do
  let result ← M.evaluation blocks
  let total ← M.merge s.total result
  return ⟨s.traces ++ [result], total⟩

/-- A turn that starts the total with the first trace. -/
def firstStep (M : Meter ρ) (s : Measured ρ) (blocks : BlockVector) :
    Except Error (Measured ρ) := do
  let result ← M.evaluation blocks
  let total ← replaceOrMerge M.merge (s.traces.length = 0) s.total result
  return ⟨s.traces ++ [result], total⟩

theorem mergeStep_eq_ok : M.mergeStep s blocks = .ok next ↔ ∃ result total,
    M.evaluation blocks = .ok result ∧ M.merge s.total result = .ok total ∧
      next = ⟨s.traces ++ [result], total⟩ := by
  simp only [mergeStep, bind_eq_ok_iff]
  constructor
  · rintro ⟨result, hresult, total, htotal, hnext⟩
    exact ⟨result, total, hresult, htotal, (Except.ok.inj hnext).symm⟩
  · rintro ⟨result, total, hresult, htotal, rfl⟩
    exact ⟨result, hresult, total, htotal, rfl⟩

theorem firstStep_eq_ok : M.firstStep s blocks = .ok next ↔ ∃ result total,
    M.evaluation blocks = .ok result ∧
      replaceOrMerge M.merge (s.traces.length = 0) s.total result = .ok total ∧
      next = ⟨s.traces ++ [result], total⟩ := by
  simp only [firstStep, bind_eq_ok_iff]
  constructor
  · rintro ⟨result, hresult, total, htotal, hnext⟩
    exact ⟨result, total, hresult, htotal, (Except.ok.inj hnext).symm⟩
  · rintro ⟨result, total, hresult, htotal, rfl⟩
    exact ⟨result, hresult, total, htotal, rfl⟩

theorem reports_nil : M.Reports [] s ↔ s = ⟨[], M.book (.empty M.targets.length)⟩ := by
  obtain ⟨traces, total⟩ := s
  constructor
  · rintro ⟨htraces, htotal⟩
    cases htraces
    exact congrArg (Measured.mk []) (total_nil.mp htotal)
  · rintro h
    cases h
    exact ⟨rfl, total_nil.mpr rfl⟩

theorem Reports.traces_concat (h : bss.mapM M.evaluation = .ok s.traces)
    (hresult : M.evaluation blocks = .ok result) :
    (bss ++ [blocks]).mapM M.evaluation = .ok (s.traces ++ [result]) := by
  rw [List.mapM_append, h, List.mapM_cons, hresult]
  rfl

theorem reports_concat (hn : Sized M.blockSize (bss ++ [blocks])) :
    M.Reports (bss ++ [blocks]) next ↔ ∃ s, M.Reports bss s ∧ M.mergeStep s blocks = .ok next := by
  have hlast := (sized_append.mp hn).2
  constructor
  · rintro ⟨htraces, htotal⟩
    rw [List.mapM_append] at htraces
    obtain ⟨before, hbefore, hrest⟩ := bind_eq_ok_iff.mp htraces
    obtain ⟨last, hmap, hout⟩ := bind_eq_ok_iff.mp hrest
    rw [mapM_eq_ok_iff, List.forall₂_cons_left_iff] at hmap
    obtain ⟨result, _, hresult, hnil, rfl⟩ := hmap
    cases hnil
    obtain ⟨t, u, ht, hu⟩ := htotal.split
    cases hu.unique (total_of_evaluation hlast hresult)
    obtain ⟨total, hmerge, hall⟩ := ht.append hu
    refine ⟨⟨before, t⟩, ⟨hbefore, ht⟩, mergeStep_eq_ok.mpr ⟨result, total, hresult, hmerge, ?_⟩⟩
    obtain ⟨traces, total'⟩ := next
    cases hout
    cases hall.unique htotal
    rfl
  · rintro ⟨s, hs, hstep⟩
    obtain ⟨result, total, hresult, hmerge, rfl⟩ := mergeStep_eq_ok.mp hstep
    obtain ⟨total', hmerge', hall⟩ := hs.total.append (total_of_evaluation hlast hresult)
    cases hmerge.symm.trans hmerge'
    exact ⟨Reports.traces_concat hs.traces hresult, hall⟩

/-- What a loop keeps that starts its total with the first trace. -/
def Kept (M : Meter ρ) (first : ρ) (bss : List BlockVector) (s : Measured ρ) : Prop :=
  bss = [] ∧ s = ⟨[], first⟩ ∨ bss ≠ [] ∧ M.Reports bss s

theorem kept_nil : M.Kept first [] s ↔ s = ⟨[], first⟩ := by
  constructor
  · rintro (⟨-, hs⟩ | ⟨hne, -⟩)
    · exact hs
    · exact absurd rfl hne
  · exact fun hs => Or.inl ⟨rfl, hs⟩

theorem kept_iff_reports (hne : bss ≠ []) : M.Kept first bss s ↔ M.Reports bss s := by
  constructor
  · rintro (⟨hnil, -⟩ | ⟨-, h⟩)
    · exact absurd hnil hne
    · exact h
  · exact fun h => Or.inr ⟨hne, h⟩

theorem Kept.length_eq (h : M.Kept first bss s) : s.traces.length = bss.length := by
  rcases h with ⟨rfl, rfl⟩ | ⟨-, hs⟩
  · rfl
  · exact (mapM_eq_ok_iff.mp hs.traces).length_eq.symm

theorem firstStep_of_nil (h : s.traces = []) :
    M.firstStep s blocks = (M.evaluation blocks).map fun result => ⟨[result], result⟩ := by
  simp only [firstStep, replaceOrMerge, h]
  rfl

theorem firstStep_of_ne_nil (h : s.traces ≠ []) :
    M.firstStep s blocks = M.mergeStep s blocks := by
  have hne : ¬ s.traces.length = 0 := fun hlength => h (List.eq_nil_of_length_eq_zero hlength)
  simp only [firstStep, replaceOrMerge, decide_eq_true_eq, if_neg hne]
  rfl

theorem kept_concat (hn : Sized M.blockSize (bss ++ [blocks])) :
    M.Kept first (bss ++ [blocks]) next ↔
      ∃ s, M.Kept first bss s ∧ M.firstStep s blocks = .ok next := by
  have hne : bss ++ [blocks] ≠ [] := List.append_ne_nil_of_right_ne_nil _ (List.cons_ne_nil _ _)
  rw [kept_iff_reports hne]
  by_cases hbss : bss = []
  · subst hbss
    have hlast := (sized_append.mp hn).2
    simp only [kept_nil, exists_eq_left, firstStep_of_nil, map_eq_ok, List.nil_append]
    constructor
    · rintro ⟨htraces, htotal⟩
      rw [mapM_eq_ok_iff, List.forall₂_cons_left_iff] at htraces
      obtain ⟨result, _, hresult, hnil, hout⟩ := htraces
      cases hnil
      obtain ⟨traces, total⟩ := next
      cases hout
      obtain rfl : total = result := htotal.unique (total_of_evaluation hlast hresult)
      exact ⟨total, hresult, rfl⟩
    · rintro ⟨result, hresult, rfl⟩
      refine ⟨?_, total_of_evaluation hlast hresult⟩
      rw [mapM_eq_ok_iff]
      exact .cons hresult .nil
  · rw [reports_concat hn]
    have hturn : ∀ s, M.Reports bss s → M.firstStep s blocks = M.mergeStep s blocks := by
      intro s hs
      refine firstStep_of_ne_nil fun hnil => hbss ?_
      have hlength := (mapM_eq_ok_iff.mp hs.traces).length_eq
      rw [hnil] at hlength
      exact List.eq_nil_of_length_eq_zero hlength
    constructor
    · rintro ⟨s, hs, hstep⟩
      exact ⟨s, Or.inr ⟨hbss, hs⟩, (hturn s hs).trans hstep⟩
    · rintro ⟨s, ⟨hnil, -⟩ | ⟨-, hs⟩, hstep⟩
      · exact absurd hnil hbss
      · exact ⟨s, hs, (hturn s hs).symm.trans hstep⟩

theorem mergeLoop_eq_ok (hn : Sized M.blockSize bss) :
    bss.foldlM M.mergeStep ⟨[], M.book (.empty M.targets.length)⟩ = .ok s ↔ M.Reports bss s := by
  apply foldlM_eq_ok_iff
  · exact fun _ => reports_nil
  · intro before blocks next hpart
    exact reports_concat fun trace hmem => hn trace (hpart.subset hmem)

theorem firstLoop_eq_ok (hn : Sized M.blockSize bss) :
    bss.foldlM M.firstStep ⟨[], first⟩ = .ok s ↔ M.Kept first bss s := by
  apply foldlM_eq_ok_iff
  · exact fun _ => kept_nil
  · intro before blocks next hpart
    exact kept_concat fun trace hmem => hn trace (hpart.subset hmem)

/-! Groups keep how many traces there were, and the total. -/

/-- A turn of a group that merges. -/
def groupMerge (M : Meter ρ) (g : Grouped ρ) (blocks : BlockVector) : Except Error (Grouped ρ) := do
  let result ← M.evaluation blocks
  let aggregate ← M.merge g.aggregate result
  return ⟨g.traceCount + 1, aggregate⟩

/-- A turn of a group whose first trace starts the total. -/
def groupFirst (M : Meter ρ) (g : Grouped ρ) (blocks : BlockVector) : Except Error (Grouped ρ) := do
  let result ← M.evaluation blocks
  let aggregate ← replaceOrMerge M.merge (g.traceCount = 0) g.aggregate result
  return ⟨g.traceCount + 1, aggregate⟩

theorem groupMerge_grouped (M : Meter ρ) (s : Measured ρ) (blocks : BlockVector) :
    M.groupMerge s.grouped blocks = (M.mergeStep s blocks).map Measured.grouped := by
  rw [groupMerge, mergeStep, Measured.grouped]
  cases M.evaluation blocks with
  | error e => rfl
  | ok result =>
    simp only [ok_bind]
    cases M.merge s.total result with
    | error e => rfl
    | ok total =>
      rw [ok_bind, ok_bind]
      exact congrArg Except.ok (by simp [Measured.grouped])

theorem groupFirst_grouped (M : Meter ρ) (s : Measured ρ) (blocks : BlockVector) :
    M.groupFirst s.grouped blocks = (M.firstStep s blocks).map Measured.grouped := by
  rw [groupFirst, firstStep, Measured.grouped]
  cases M.evaluation blocks with
  | error e => rfl
  | ok result =>
    simp only [ok_bind]
    cases replaceOrMerge M.merge (s.traces.length = 0) s.total result with
    | error e => rfl
    | ok total =>
      rw [ok_bind, ok_bind]
      exact congrArg Except.ok (by simp [Measured.grouped])

theorem groupMergeLoop_eq_ok (hn : Sized M.blockSize bss) {g : Grouped ρ} :
    bss.foldlM M.groupMerge ⟨0, M.book (.empty M.targets.length)⟩ = .ok g ↔
      ∃ s, M.Reports bss s ∧ g = s.grouped := by
  have hview := foldlM_view M.groupMerge_grouped bss ⟨[], M.book (.empty M.targets.length)⟩
  rw [Measured.grouped] at hview
  simp only [← mergeLoop_eq_ok hn, ← map_eq_ok]
  rw [← hview]
  rfl

theorem groupFirstLoop_eq_ok (hn : Sized M.blockSize bss) {g : Grouped ρ} :
    bss.foldlM M.groupFirst ⟨0, first⟩ = .ok g ↔ ∃ s, M.Kept first bss s ∧ g = s.grouped := by
  have hview := foldlM_view M.groupFirst_grouped bss ⟨[], first⟩
  rw [Measured.grouped] at hview
  simp only [← firstLoop_eq_ok hn, ← map_eq_ok]
  rw [← hview]
  rfl

end Meter

end ByteSelect
