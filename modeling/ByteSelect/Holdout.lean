import ByteSelect.TrainTraces
import ByteSelect.TrainerMultiset
import ByteSelect.TwoRuns
import ByteSelect.ModelLoad

/-! The holdout split: what the counting pass sees, what the evaluation pass sees, and that the
saved model depends on the first alone. -/
namespace ByteSelect

open TwoRuns

variable {σ : Type} {options : TrainOptions} {trace trace' : Trace} {blockSize : SizeT}
  {split : TraceSplit} {counts : CountMap} {lib lib' : Library}

/-! Streaming. -/

theorem fullBlocks_of_lt {n : ℕ} {input : List Byte} (h : input.length < n) :
    fullBlocks n input = [] := by
  rw [fullBlocks, Nat.div_eq_of_lt h]
  rfl

theorem fullBlocks_cons {n : ℕ} {input : List Byte} (hn : 0 < n) (h : n ≤ input.length) :
    fullBlocks n input = input.take n :: fullBlocks n (input.drop n) := by
  have hdiv : input.length / n = (input.length - n) / n + 1 := Nat.div_eq_sub_div hn h
  rw [fullBlocks, hdiv, List.range_succ_eq_map, List.map_cons, List.map_map, fullBlocks,
    List.length_drop]
  congr 1
  · simp
  · apply List.map_congr_left
    intro i _
    rw [List.drop_drop, Function.comp_apply, Nat.succ_mul, Nat.add_comm n]

/-- The stream ends where the size of the file says it does. -/
theorem visitFrom_eq {function : σ → Block → SizeT → Except Error σ} (hblock : blockSize ≠ 0)
    {turns : ℕ} {input : List Byte} (hturns : input.length ≤ turns) (i : ℕ) (state : σ) :
    visitFrom function blockSize turns input (Fin.ofNat _ i) state =
      ((fullBlocks blockSize.val input).zipIdx i).foldlM
        (fun state x => function state x.1 (Fin.ofNat _ x.2)) state := by
  have hpos : 0 < blockSize.val := Nat.pos_of_ne_zero fun h => hblock (Fin.ext h)
  induction turns generalizing input i state with
  | zero =>
    rw [fullBlocks_of_lt (by omega)]
    rfl
  | succ turns ih =>
    rw [visitFrom]
    split
    · rename_i hshort
      rw [fullBlocks_of_lt hshort]
      rfl
    · rename_i hread
      have hnext : (Fin.ofNat (2 ^ 64) i + 1 : SizeT) = Fin.ofNat _ (i + 1) := by
        apply Fin.ext
        simp [Fin.val_add, Fin.ofNat]
      have hrest : (input.drop blockSize.val).length ≤ turns := by
        rw [List.length_drop]
        omega
      rw [fullBlocks_cons hpos (not_lt.mp hread), List.zipIdx_cons, List.foldlM_cons, hnext]
      congr 1
      funext state
      exact ih hrest (i + 1) state

/-- The full blocks of a trace; one that cannot be opened has none. -/
def Trace.blocks (trace : Trace) (blockSize : SizeT) : List Block :=
  match trace.contents with
  | none => []
  | some bytes => fullBlocks blockSize.val bytes.toList

theorem visitFullBlocks_eq {function : σ → Block → SizeT → Except Error σ}
    (hblock : blockSize ≠ 0) (hopen : trace.contents ≠ none) (state : σ) :
    visitFullBlocks trace blockSize function state =
      (trace.blocks blockSize).zipIdx.foldlM
        (fun state x => function state x.1 (Fin.ofNat _ x.2)) state := by
  unfold visitFullBlocks Trace.blocks
  cases hc : trace.contents with
  | none => exact absurd hc hopen
  | some bytes => exact visitFrom_eq hblock le_rfl 0 state

theorem length_blocks_lt : (trace.blocks blockSize).length < 2 ^ 63 := by
  unfold Trace.blocks
  cases trace.contents with
  | none => simp
  | some bytes =>
    have hlt := bytes.size_lt
    have hle := Nat.div_le_self bytes.toList.length blockSize.val
    simp only [length_fullBlocks]
    omega

/-- Both passes read the same number of blocks off one trace. -/
theorem fullBlockCount_eq (hopen : trace.contents ≠ none) :
    fullBlockCount trace blockSize = .ok (Fin.ofNat _ (trace.blocks blockSize).length) := by
  unfold fullBlockCount Trace.blocks
  cases hc : trace.contents with
  | none => exact absurd hc hopen
  | some bytes =>
    have hlt := bytes.size_lt
    have hle := Nat.div_le_self bytes.toList.length blockSize.val
    simp only [length_fullBlocks]
    congr 1
    apply Fin.ext
    rw [Fin.div_val, Fin.val_ofNat, Fin.val_ofNat, Vec.size, Nat.mod_eq_of_lt (by omega),
      Nat.mod_eq_of_lt (by omega)]

/-! The two passes. -/

/-- The blocks of a trace that a pass takes, with their indices. -/
def taken (blockSize : SizeT) (takes : TraceSplit → SizeT → Bool) (split : TraceSplit) :
    List (Block × ℕ) :=
  (split.trace.blocks blockSize).zipIdx.filter fun x => takes split (Fin.ofNat _ x.2)

def trainingBlocks (blockSize : SizeT) : TraceSplit → List (Block × ℕ) :=
  taken blockSize TraceSplit.trains

def holdoutBlocks (blockSize : SizeT) : TraceSplit → List (Block × ℕ) :=
  taken blockSize TraceSplit.holdsOut

theorem holdsOut_eq_not_trains (index : SizeT) : split.holdsOut index = !split.trains index := by
  rw [TraceSplit.holdsOut, TraceSplit.trains, ← decide_not, decide_eq_decide, not_or, not_lt,
    ge_iff_le, ge_iff_le, not_le]

/-- Every full block is either counted or held out, and none is both. -/
theorem training_append_holdout_perm :
    (trainingBlocks blockSize split ++ holdoutBlocks blockSize split).Perm
      (split.trace.blocks blockSize).zipIdx := by
  rw [trainingBlocks, holdoutBlocks, taken, taken]
  simp only [holdsOut_eq_not_trains]
  exact List.filter_append_perm _ _

theorem foldlM_flatMap {ι γ : Type} {g : ι → List γ} {f : σ → γ → Except Error σ} (l : List ι)
    (state : σ) :
    (l.flatMap g).foldlM f state = l.foldlM (fun state x => (g x).foldlM f state) state := by
  induction l generalizing state with
  | nil => rfl
  | cons x l ih =>
    rw [List.flatMap_cons, List.foldlM_append, List.foldlM_cons]
    congr 1
    funext state
    exact ih state

/-- A pass over the traces is one loop over the blocks it takes. -/
theorem pass_eq {takes : TraceSplit → SizeT → Bool} {f : σ → Block → Except Error σ}
    {splits : List TraceSplit} (hblock : blockSize ≠ 0)
    (hopen : ∀ split ∈ splits, split.trace.contents ≠ none) (state : σ) :
    splits.foldlM (fun state split => visitFullBlocks split.trace blockSize
        (fun state block index => if takes split index then f state block else .ok state) state)
      state =
    (splits.flatMap (taken blockSize takes)).foldlM (fun state x => f state x.1) state := by
  rw [foldlM_flatMap]
  induction splits generalizing state with
  | nil => rfl
  | cons split splits ih =>
    rw [List.forall_mem_cons] at hopen
    rw [List.foldlM_cons, List.foldlM_cons, visitFullBlocks_eq hblock hopen.1, taken,
      List.foldlM_filter]
    congr 1
    funext state
    exact ih hopen.2 state

/-! The counting pass. -/

theorem countTrainingBlocks_eq {splits : Splits}
    (hopen : ∀ split ∈ splits.traces, split.trace.contents ≠ none) :
    options.countTrainingBlocks splits =
      .ok ((splits.traces.flatMap (trainingBlocks options.blockSize)).foldl
        (fun counts x => counts.increment (.simplest x.1)) .empty) := by
  have hpass := @pass_eq CountMap options.blockSize TraceSplit.trains
    (fun counts block => .ok (counts.increment (.simplest block))) splits.traces
    options.blockSize_ne hopen .empty
  unfold TrainOptions.countTrainingBlocks
  simp only [apply_ite (Except.ok (ε := Error))]
  rw [hpass]
  exact List.foldlM_pure

/-- Every counted pattern is the simplest one of a block that was counted. -/
theorem mem_foldl_increment {l : List (Block × ℕ)} {entry : Pattern × U64}
    (h : entry ∈ (l.foldl (fun counts x => counts.increment (.simplest x.1)) counts).entries) :
    entry.1 ∈ counts.entries.map Prod.fst ∨ ∃ x ∈ l, entry.1 = .simplest x.1 := by
  induction l generalizing counts with
  | nil => exact Or.inl (List.mem_map_of_mem h)
  | cons x l ih =>
    rcases ih h with hkey | ⟨y, hy, heq⟩
    · rcases keys_increment.mp hkey with heq | hkey
      · exact Or.inr ⟨x, List.mem_cons_self, heq⟩
      · exact Or.inl hkey
    · exact Or.inr ⟨y, List.mem_cons_of_mem x hy, heq⟩

theorem length_of_mem_taken {takes : TraceSplit → SizeT → Bool} {x : Block × ℕ}
    (h : x ∈ taken blockSize takes split) : x.1.length = blockSize.val := by
  have hmem : x.1 ∈ split.trace.blocks blockSize := by
    have hfst := List.mem_map_of_mem (f := Prod.fst) (List.mem_filter.mp h).1
    rwa [List.zipIdx_map_fst] at hfst
  unfold Trace.blocks at hmem
  cases hc : split.trace.contents with
  | none => simp [hc] at hmem
  | some bytes =>
    rw [hc] at hmem
    exact length_of_mem_fullBlocks _ hmem

theorem size_counted {l : List TraceSplit} : ∀ entry ∈
      ((l.flatMap (trainingBlocks blockSize)).foldl
        (fun counts x => counts.increment (.simplest x.1)) CountMap.empty).entries,
      entry.1.size = blockSize.val := by
  intro entry he
  rcases mem_foldl_increment he with hkey | ⟨x, hx, heq⟩
  · simp [CountMap.empty] at hkey
  · obtain ⟨split, -, htaken⟩ := List.mem_flatMap.mp hx
    rw [heq, Pattern.size_simplest, length_of_mem_taken htaken]

/-! The training of a target. -/

theorem trainTarget_eq (hsize : ∀ entry ∈ counts.entries, entry.1.size = options.blockSize.val)
    (trainingBlockCount : SizeT) (target : TargetSpec) :
    options.trainTarget lib counts trainingBlockCount target =
      options.trainTarget lib' counts trainingBlockCount target := by
  unfold TrainOptions.trainTarget
  congr 1
  funext _
  congr 1
  funext _
  congr 1
  funext _
  cases hmake : makeTrainer {
      blockSize := options.blockSize
      dictionarySize := target.size - target.metadataBytes
      maxPatterns := target.patternCount
      frequencyThreshold := options.threshold
      selectionMode := options.selectionMode } with
  | error e => rfl
  | ok trainer =>
    have hblock : trainer.config.blockSize = options.blockSize := by
      rw [makeTrainer_config hmake]
    obtain ⟨trained, htrain, htrain'⟩ := @trainCounts_same lib lib' counts counts trainer
      (.refl counts.entries) (hblock ▸ hsize)
    rw [ok_bind, ok_bind, htrain, htrain']

/-! The split of a trace. -/

/-- The split that follows from the number of full blocks. -/
def TrainOptions.splitOf (options : TrainOptions) (trace : Trace) : TraceSplit :=
  options.split trace (Fin.ofNat _ (trace.blocks options.blockSize).length)

theorem splitTrace_nil {s : Splits} (h : trace.blocks options.blockSize = []) :
    ∃ e, options.splitTrace s trace = .error e := by
  cases hc : trace.contents with
  | none =>
    refine ⟨.runtimeError ("cannot stat input: " ++ trace.path), ?_⟩
    rw [TrainOptions.splitTrace, fullBlockCount, hc]
    rfl
  | some bytes =>
    refine ⟨.runtimeError ("training input contains no full blocks: " ++ trace.path), ?_⟩
    rw [TrainOptions.splitTrace, fullBlockCount_eq (by simp [hc]), h, ok_bind]
    rfl

theorem contents_ne_none (h : trace.blocks blockSize ≠ []) : trace.contents ≠ none := by
  intro hc
  simp [Trace.blocks, hc] at h

theorem splitTrace_eq {s : Splits} (h : trace.blocks options.blockSize ≠ []) :
    options.splitTrace s trace = .ok {
      traces := s.traces ++ [options.splitOf trace]
      trainingBlockCount := s.trainingBlockCount + ((options.splitOf trace).blocks -
        options.holdoutCount (options.splitOf trace).blocks)
      holdoutBlockCount := s.holdoutBlockCount +
        options.holdoutCount (options.splitOf trace).blocks } := by
  have hlt : (trace.blocks options.blockSize).length < 2 ^ 63 := length_blocks_lt
  have hpos := List.length_pos_iff.mpr h
  have hne : (Fin.ofNat (2 ^ 64) (trace.blocks options.blockSize).length : SizeT) ≠ 0 := by
    intro heq
    have hval := congrArg Fin.val heq
    rw [Fin.val_ofNat, Nat.mod_eq_of_lt (by omega), Fin.val_zero] at hval
    omega
  rw [TrainOptions.splitTrace, fullBlockCount_eq (contents_ne_none h), ok_bind, throwIf_neg hne]
  rfl

/-- A percentage below 100, even of a product that wraps, is no more than the whole. -/
theorem holdoutCount_le (blocks : SizeT) : options.holdoutCount blocks ≤ blocks := by
  have hpercent := Fin.lt_def.mp options.holdoutPercent_lt
  have hwrap := Nat.mod_le (blocks.val * options.holdoutPercent.val) (2 ^ 64)
  have hmul := Nat.mul_le_mul_left blocks.val hpercent.le
  have hval : (100 : SizeT).val = 100 := rfl
  rw [hval] at hmul
  rw [Fin.le_def, TrainOptions.holdoutCount, Fin.div_val, Fin.val_mul, hval]
  omega

theorem countP_range {b e n : ℕ} (hbe : b ≤ e) (hen : e ≤ n) :
    (List.range n).countP (fun i => b ≤ i ∧ i < e) = e - b := by
  have hcount : ∀ n, (List.range n).countP (fun i => b ≤ i ∧ i < e) = min n e - min n b := by
    intro n
    induction n with
    | zero => rfl
    | succ n ih =>
      rw [List.range_succ, List.countP_append, ih, List.countP_singleton]
      split <;> simp_all <;> omega
  rw [hcount]
  omega

/-- The held-out range lies in the middle of the trace. -/
theorem val_splitOf : (options.splitOf trace).blocks.val =
      (trace.blocks options.blockSize).length ∧
    (options.splitOf trace).holdoutEnd.val = (options.splitOf trace).holdoutBegin.val +
      (options.holdoutCount (options.splitOf trace).blocks).val ∧
    (options.splitOf trace).holdoutEnd.val ≤ (trace.blocks options.blockSize).length := by
  have hlt : (trace.blocks options.blockSize).length < 2 ^ 63 := length_blocks_lt
  have hblocks : (options.splitOf trace).blocks.val = (trace.blocks options.blockSize).length :=
    Nat.mod_eq_of_lt (by omega)
  have hle := @holdoutCount_le options (options.splitOf trace).blocks
  have hsub := Fin.sub_val_of_le hle
  have hbegin : (options.splitOf trace).holdoutBegin.val = ((options.splitOf trace).blocks.val -
      (options.holdoutCount (options.splitOf trace).blocks).val) / 2 := by
    rw [← hsub]
    rfl
  have hend : (options.splitOf trace).holdoutEnd.val = ((options.splitOf trace).holdoutBegin.val +
      (options.holdoutCount (options.splitOf trace).blocks).val) % 2 ^ 64 := rfl
  rw [Fin.le_def] at hle
  rw [hblocks] at hle hbegin
  refine ⟨hblocks, ?_, ?_⟩
  · omega
  · omega

theorem length_taken (takes : TraceSplit → SizeT → Bool) :
    (taken blockSize takes split).length = (List.range (split.trace.blocks blockSize).length).countP
      fun i => takes split (Fin.ofNat _ i) := by
  have hindices : (split.trace.blocks blockSize).zipIdx.map Prod.snd =
      List.range (split.trace.blocks blockSize).length := by
    rw [List.zipIdx_map_snd, List.range_eq_range']
  rw [← hindices, List.countP_map, taken, ← List.countP_eq_length_filter]
  rfl

/-- The command holds out as many blocks as it counts. -/
theorem length_holdoutBlocks :
    (holdoutBlocks options.blockSize (options.splitOf trace)).length =
      (options.holdoutCount (options.splitOf trace).blocks).val := by
  have hlt : (trace.blocks options.blockSize).length < 2 ^ 63 := length_blocks_lt
  obtain ⟨-, hend, hle⟩ := @val_splitOf options trace
  have hbegin : (options.splitOf trace).holdoutBegin.val ≤ (options.splitOf trace).holdoutEnd.val :=
    by omega
  have hcount := countP_range hbegin hle
  have hlen : (options.holdoutCount (options.splitOf trace).blocks).val =
      (options.splitOf trace).holdoutEnd.val - (options.splitOf trace).holdoutBegin.val := by
    omega
  have htrace : (options.splitOf trace).trace = trace := rfl
  rw [holdoutBlocks, length_taken, htrace, hlen, ← hcount]
  apply List.countP_congr
  intro i hi
  have hi' := List.mem_range.mp hi
  have hval : (Fin.ofNat (2 ^ 64) i).val = i := Nat.mod_eq_of_lt (by omega)
  simp only [TraceSplit.holdsOut, ge_iff_le, Fin.le_def, Fin.lt_def, hval]

theorem length_trainingBlocks :
    (trainingBlocks options.blockSize (options.splitOf trace)).length =
      ((options.splitOf trace).blocks -
        options.holdoutCount (options.splitOf trace).blocks).val := by
  have hparts := (@training_append_holdout_perm options.blockSize
    (options.splitOf trace)).length_eq
  have htrace : (options.splitOf trace).trace = trace := rfl
  obtain ⟨hblocks, -, -⟩ := @val_splitOf options trace
  rw [List.length_append, length_holdoutBlocks, List.length_zipIdx, htrace] at hparts
  rw [Fin.sub_val_of_le (@holdoutCount_le options _), hblocks]
  omega

/-! The split of a list of traces. -/

/-- What `split_traces` has computed of the traces it has looked at. -/
structure SplitsOf (options : TrainOptions) (traces : List Trace) (splits : Splits) : Prop where
  traces_eq : splits.traces = traces.map options.splitOf
  opened : ∀ trace ∈ traces, trace.contents ≠ none
  trainingBlockCount_eq : splits.trainingBlockCount =
    Fin.ofNat _ (splits.traces.flatMap (trainingBlocks options.blockSize)).length
  holdoutBlockCount_eq : splits.holdoutBlockCount =
    Fin.ofNat _ (splits.traces.flatMap (holdoutBlocks options.blockSize)).length

theorem ofNat_add_val (n : ℕ) (k : SizeT) :
    (Fin.ofNat _ n + k : SizeT) = Fin.ofNat _ (n + k.val) := by
  apply Fin.ext
  simp [Fin.val_add, Fin.ofNat]

theorem SplitsOf.split_opened {traces : List Trace} {splits : Splits}
    (h : SplitsOf options traces splits) :
    ∀ split ∈ splits.traces, split.trace.contents ≠ none := by
  intro split hsplit
  rw [h.traces_eq] at hsplit
  obtain ⟨trace, htrace, rfl⟩ := List.mem_map.mp hsplit
  exact h.opened trace htrace

theorem SplitsOf.step {traces : List Trace} {s s' : Splits} (h : SplitsOf options traces s)
    (hstep : options.splitTrace s trace = .ok s') : SplitsOf options (traces ++ [trace]) s' := by
  by_cases hblocks : trace.blocks options.blockSize = []
  · obtain ⟨e, he⟩ := @splitTrace_nil options trace s hblocks
    rw [he] at hstep
    cases hstep
  · rw [splitTrace_eq hblocks] at hstep
    cases hstep
    refine ⟨by simp [h.traces_eq], ?_, ?_, ?_⟩
    · intro t ht
      rcases List.mem_append.mp ht with ht | ht
      · exact h.opened t ht
      · rw [List.mem_singleton.mp ht]
        exact contents_ne_none hblocks
    · simp only [List.flatMap_append, List.flatMap_singleton, List.length_append]
      rw [h.trainingBlockCount_eq, ofNat_add_val, length_trainingBlocks]
    · simp only [List.flatMap_append, List.flatMap_singleton, List.length_append]
      rw [h.holdoutBlockCount_eq, ofNat_add_val, length_holdoutBlocks]

theorem SplitsOf.run {rest done : List Trace} {s splits : Splits} (h : SplitsOf options done s)
    (hloop : rest.foldlM options.splitTrace s = .ok splits) :
    SplitsOf options (done ++ rest) splits := by
  induction rest generalizing done s with
  | nil =>
    cases hloop
    simpa using h
  | cons trace rest ih =>
    rw [List.foldlM_cons, bind_eq_ok] at hloop
    obtain ⟨s', hstep, hrest⟩ := hloop
    have hmore := ih (h.step hstep) hrest
    rwa [List.append_assoc] at hmore

theorem splitTraces_spec {traces : List Trace} {splits : Splits}
    (h : options.splitTraces traces = .ok splits) : SplitsOf options traces splits := by
  have hstart : SplitsOf options [] {} := ⟨rfl, by simp, rfl, rfl⟩
  rw [TrainOptions.splitTraces, check_bind_eq_ok, bind_eq_ok] at h
  obtain ⟨-, s, hloop, hcheck⟩ := h
  rw [check_bind_eq_ok] at hcheck
  obtain ⟨-, hlast⟩ := hcheck
  cases hlast
  exact hstart.run hloop

/-! Two runs. -/

/-- Traces with the same number of full blocks that differ inside the held-out range alone. -/
structure AgreeOutsideHoldout (options : TrainOptions) (trace trace' : Trace) : Prop where
  length_eq : (trace.blocks options.blockSize).length = (trace'.blocks options.blockSize).length
  agree : ∀ i : ℕ, i < (options.splitOf trace).holdoutBegin.val ∨
      (options.splitOf trace).holdoutEnd.val ≤ i →
    (trace.blocks options.blockSize)[i]? = (trace'.blocks options.blockSize)[i]?

theorem filter_zipIdx_congr {γ : Type} {q : ℕ → Bool} {l l' : List γ} (k : ℕ)
    (hlen : l.length = l'.length) (h : ∀ i, i < l.length → q (k + i) = true → l[i]? = l'[i]?) :
    (l.zipIdx k).filter (fun x => q x.2) = (l'.zipIdx k).filter (fun x => q x.2) := by
  induction l generalizing l' k with
  | nil => rw [List.length_eq_zero_iff.mp hlen.symm]
  | cons a l ih =>
    cases l' with
    | nil => cases hlen
    | cons a' l' =>
      have hrest : (l.zipIdx (k + 1)).filter (fun x => q x.2) =
          (l'.zipIdx (k + 1)).filter (fun x => q x.2) := by
        apply ih (k + 1) (Nat.succ.inj hlen)
        intro i hi hq
        exact h (i + 1) (Nat.succ_lt_succ hi) (by rwa [← Nat.add_assoc, Nat.add_right_comm])
      rw [List.zipIdx_cons, List.zipIdx_cons, List.filter_cons, List.filter_cons, hrest]
      cases hq : q k with
      | false => rfl
      | true =>
        have hhead := h 0 (Nat.succ_pos _) hq
        rw [List.getElem?_cons_zero, List.getElem?_cons_zero] at hhead
        rw [Option.some.inj hhead]

theorem AgreeOutsideHoldout.trainingBlocks_eq (h : AgreeOutsideHoldout options trace trace') :
    trainingBlocks options.blockSize (options.splitOf trace) =
      trainingBlocks options.blockSize (options.splitOf trace') := by
  have htrains : (options.splitOf trace').trains = (options.splitOf trace).trains := by
    unfold TrainOptions.splitOf
    rw [h.length_eq]
    rfl
  rw [trainingBlocks, taken, taken, htrains]
  have hlt : (trace.blocks options.blockSize).length < 2 ^ 63 := length_blocks_lt
  refine @filter_zipIdx_congr _ (fun i => (options.splitOf trace).trains (Fin.ofNat _ i)) _ _ 0
    h.length_eq ?_
  intro i (hi : i < (trace.blocks options.blockSize).length) htakes
  have hval : (Fin.ofNat (2 ^ 64) i).val = i := Nat.mod_eq_of_lt (by omega)
  rw [Nat.zero_add, TraceSplit.trains, decide_eq_true_iff, ge_iff_le, Fin.lt_def, Fin.le_def,
    hval] at htakes
  exact h.agree i htakes

/-- Splits of two runs with the same training blocks. -/
structure Splits.Alike (options : TrainOptions) (s s' : Splits) : Prop where
  trainingBlockCount : s.trainingBlockCount = s'.trainingBlockCount
  training : s.traces.flatMap (trainingBlocks options.blockSize) =
    s'.traces.flatMap (trainingBlocks options.blockSize)
  opened : ∀ split ∈ s.traces, split.trace.contents ≠ none
  opened' : ∀ split ∈ s'.traces, split.trace.contents ≠ none

theorem splitTrace_alike {s s' : Splits} (hs : Splits.Alike options s s')
    (h : AgreeOutsideHoldout options trace trace') :
    Related (Splits.Alike options) (options.splitTrace s trace) (options.splitTrace s' trace') := by
  by_cases hblocks : trace.blocks options.blockSize = []
  · have hblocks' : trace'.blocks options.blockSize = [] := by
      rw [← List.length_eq_zero_iff, ← h.length_eq, hblocks]
      rfl
    obtain ⟨e, he⟩ := @splitTrace_nil options trace s hblocks
    obtain ⟨e', he'⟩ := @splitTrace_nil options trace' s' hblocks'
    rw [he, he']
    exact .throws e e'
  · have hblocks' : trace'.blocks options.blockSize ≠ [] := by
      rw [ne_eq, ← List.length_eq_zero_iff, ← h.length_eq, List.length_eq_zero_iff]
      exact hblocks
    have hsame : (options.splitOf trace').blocks = (options.splitOf trace).blocks := by
      unfold TrainOptions.splitOf
      rw [h.length_eq]
      rfl
    have hopened : ∀ {t : Trace} {l : List TraceSplit}, t.blocks options.blockSize ≠ [] →
        (∀ split ∈ l, split.trace.contents ≠ none) →
        ∀ split ∈ l ++ [options.splitOf t], split.trace.contents ≠ none := by
      intro t l ht hl split hsplit
      rcases List.mem_append.mp hsplit with hsplit | hsplit
      · exact hl split hsplit
      · rw [List.mem_singleton.mp hsplit]
        exact contents_ne_none ht
    rw [splitTrace_eq hblocks, splitTrace_eq hblocks']
    refine .returns ⟨?_, ?_, hopened hblocks hs.opened, hopened hblocks' hs.opened'⟩
    · dsimp only
      rw [hs.trainingBlockCount, hsame]
    · simp only [List.flatMap_append, List.flatMap_singleton]
      rw [hs.training, h.trainingBlocks_eq]

theorem splitTraces_alike {traces traces' : List Trace}
    (h : List.Forall₂ (AgreeOutsideHoldout options) traces traces') :
    Related (Splits.Alike options) (options.splitTraces traces) (options.splitTraces traces') := by
  have hempty : traces.isEmpty = traces'.isEmpty := by
    cases h with
    | nil => rfl
    | cons _ _ => rfl
  have hstart : Splits.Alike options {} {} := ⟨rfl, rfl, by simp, by simp⟩
  rw [TrainOptions.splitTraces, TrainOptions.splitTraces, hempty]
  refine (related_self _).bind fun _ _ _ => ?_
  have hstep : ∀ s s' trace trace', Splits.Alike options s s' →
      AgreeOutsideHoldout options trace trace' → Related (Splits.Alike options)
        (options.splitTrace s trace) (options.splitTrace s' trace') :=
    fun _ _ _ _ => splitTrace_alike
  refine (Related.foldlM hstep h hstart).bind fun s s' hs => ?_
  rw [hs.trainingBlockCount]
  exact (related_self _).bind fun _ _ _ => .returns hs

/-- After the split a run reads nothing but the training blocks, until it has saved. -/
theorem trainFromTraces_related {traces traces' : List Trace}
    (h : List.Forall₂ (AgreeOutsideHoldout options) traces traces') :
    Related (fun run run' => run.saved = run'.saved ∧ run.stats = run'.stats)
      (trainFromTraces lib options traces) (trainFromTraces lib' options traces') := by
  refine (splitTraces_alike h).bind fun s s' hs => ?_
  rw [countTrainingBlocks_eq hs.opened, countTrainingBlocks_eq hs.opened', hs.training,
    hs.trainingBlockCount, ok_bind, ok_bind]
  have hsize := @size_counted options.blockSize s'.traces
  have htargets := funext (@trainTarget_eq options _ lib lib' hsize s'.trainingBlockCount)
  rw [htargets]
  refine (related_self _).bind fun trained _ heq => ?_
  subst heq
  refine (related_self _).bind fun saved _ heq => ?_
  subst heq
  exact .returns ⟨rfl, rfl⟩

/-! The evaluation pass. -/

theorem evaluateHoldout_eq {splits : Splits} (model : Model)
    (hopen : ∀ split ∈ splits.traces, split.trace.contents ≠ none) :
    options.evaluateHoldout model splits =
      if splits.holdoutBlockCount = 0 then .ok none
      else some <$> (splits.traces.flatMap (holdoutBlocks options.blockSize)).foldlM
        (fun result x => evaluateHeldOut model result x.1)
        { setBlocks := List.replicate model.sets.length 0 } := by
  have hpass := @pass_eq Evaluation options.blockSize TraceSplit.holdsOut (evaluateHeldOut model)
    splits.traces options.blockSize_ne hopen
    { setBlocks := List.replicate model.sets.length 0 }
  rw [TrainOptions.evaluateHoldout, hpass]
  rfl

theorem evaluateHeldOut_loop {model : Model} (hv : ValidModel model) {l : List (Block × ℕ)}
    (hlength : ∀ x ∈ l, x.1.length = model.blockSize.val) (result : Evaluation) :
    ∃ e, l.foldlM (fun result x => evaluateHeldOut model result x.1) result = .ok e := by
  induction l generalizing result with
  | nil => exact ⟨result, rfl⟩
  | cons x l ih =>
    rw [List.forall_mem_cons] at hlength
    obtain ⟨encoded, hcompress, -⟩ := compress_selection hv hlength.1
    rw [List.foldlM_cons, evaluateHeldOut, hcompress]
    exact ih hlength.2 _

/-- A run that has saved its model does not fail any more. -/
theorem trainFromTraces_evaluates {traces : List Trace} {run : TrainingRun}
    (h : trainFromTraces lib options traces = .ok run) : ∃ e, run.evaluation = .ok e := by
  obtain ⟨splits, hsplits, h⟩ := bind_eq_ok.mp h
  obtain ⟨counts, -, h⟩ := bind_eq_ok.mp h
  obtain ⟨trained, -, h⟩ := bind_eq_ok.mp h
  obtain ⟨saved, hsaved, h⟩ := bind_eq_ok.mp h
  cases h
  obtain ⟨hv, -⟩ := saveModel_ok hsaved
  have hlength : ∀ x ∈ splits.traces.flatMap (holdoutBlocks options.blockSize),
      x.1.length = options.blockSize.val := by
    intro x hx
    obtain ⟨split, -, htaken⟩ := List.mem_flatMap.mp hx
    exact length_of_mem_taken htaken
  dsimp only
  rw [evaluateHoldout_eq _ (splitTraces_spec hsplits).split_opened]
  split
  · exact ⟨none, rfl⟩
  · obtain ⟨e, he⟩ := evaluateHeldOut_loop hv hlength _
    refine ⟨some e, ?_⟩
    rw [he]
    rfl

/-- No held-out block and no byte of a tail reaches the saved model. What a run counts and what
it evaluates are two parts of the full blocks of every trace. -/
theorem holdout_never_leaks (lib lib' : Library) (options : TrainOptions) :
    (∀ traces traces', List.Forall₂ (AgreeOutsideHoldout options) traces traces' →
      Related (fun run run' => run.saved = run'.saved ∧ run.stats = run'.stats)
        (trainFromTraces lib options traces) (trainFromTraces lib' options traces')) ∧
    ∀ traces splits, options.splitTraces traces = .ok splits →
      splits.traces = traces.map options.splitOf ∧
      (∀ split ∈ splits.traces,
        (trainingBlocks options.blockSize split ++ holdoutBlocks options.blockSize split).Perm
          (split.trace.blocks options.blockSize).zipIdx) ∧
      options.countTrainingBlocks splits =
        .ok ((splits.traces.flatMap (trainingBlocks options.blockSize)).foldl
          (fun counts x => counts.increment (.simplest x.1)) .empty) ∧
      splits.trainingBlockCount =
        Fin.ofNat _ (splits.traces.flatMap (trainingBlocks options.blockSize)).length ∧
      splits.holdoutBlockCount =
        Fin.ofNat _ (splits.traces.flatMap (holdoutBlocks options.blockSize)).length ∧
      ∀ model, options.evaluateHoldout model splits =
        if splits.holdoutBlockCount = 0 then .ok none
        else some <$> (splits.traces.flatMap (holdoutBlocks options.blockSize)).foldlM
          (fun result x => evaluateHeldOut model result x.1)
          { setBlocks := List.replicate model.sets.length 0 } := by
  refine ⟨fun _ _ => trainFromTraces_related, ?_⟩
  intro traces splits h
  have hspec := splitTraces_spec h
  have hopen := hspec.split_opened
  exact ⟨hspec.traces_eq, fun _ _ => training_append_holdout_perm, countTrainingBlocks_eq hopen,
    hspec.trainingBlockCount_eq, hspec.holdoutBlockCount_eq,
    fun model => evaluateHoldout_eq model hopen⟩

def exampleOptions : TrainOptions where
  blockSize := 4
  holdoutPercent := 50
  targets := [⟨2, 4, 1, 0, 0⟩]

def exampleTrace (bytes : Vec Byte) : Trace := ⟨"example.trace", some bytes⟩

/-- Of two full blocks the first is held out; the tails differ too. -/
theorem exampleOptions_holdout_never_leaks :
    Related (fun run run' => run.saved = run'.saved ∧ run.stats = run'.stats)
      (trainFromTraces insertionLibrary exampleOptions
        [exampleTrace ⟨[1, 1, 1, 1, 2, 2, 2, 2, 9], by decide⟩])
      (trainFromTraces insertionLibrary exampleOptions
        [exampleTrace ⟨[5, 6, 7, 8, 2, 2, 2, 2, 3, 3], by decide⟩]) := by
  apply (holdout_never_leaks insertionLibrary insertionLibrary exampleOptions).1
  refine .cons ⟨rfl, ?_⟩ .nil
  rintro (_ | _ | i) hi
  · exact absurd hi (by decide)
  · rfl
  · rfl

/-- The run of the example saves a model. -/
example : (trainFromTraces insertionLibrary exampleOptions
    [exampleTrace ⟨[1, 1, 1, 1, 2, 2, 2, 2, 9], by decide⟩]).isOk = true := by decide +kernel

end ByteSelect
