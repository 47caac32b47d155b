import ByteSelect.CachelineTrace
import ByteSelect.Histories
import ByteSelect.Machine
import Mathlib.Data.Finset.Sort
import Mathlib.Order.Interval.Finset.Nat

/-! The trace tool as a whole: the calls of an instrumented program's threads, one at a time
under the lock, and what they leave in the trace. -/
namespace CachelineTrace

open Histories
open ByteSelect (Byte)

/-- The knobs of the tool. -/
structure Knobs where
  outputPath : String := "cachelines.bin"
  cacheLineSize : Fin (2 ^ 32) := 64
  cacheMegabytes : Fin (2 ^ 32) := 16
  cacheWays : Fin (2 ^ 32) := 16
  warmupMisses : Fin (2 ^ 64) := 0
  maximumBlocks : Fin (2 ^ 64) := 1000000
  roiRoutine : List Char := []

/-- The checks of `main`, and the number of sets they leave. -/
def configure (knobs : Knobs) (opened : Bool) : Except String ℕ :=
  let lineSize := knobs.cacheLineSize.val
  let lineCount := knobs.cacheMegabytes.val * 1024 * 1024 / lineSize
  if knobs.cacheWays.val = 0 ∨ knobs.cacheMegabytes.val = 0 ∨ lineSize = 0 then
    .error "cache size, associativity, and line size must be non-zero"
  else if lineSize &&& (lineSize - 1) ≠ 0 then .error "line size must be a power of two"
  else if lineCount % knobs.cacheWays.val ≠ 0 then
    .error "cache line count must be divisible by associativity"
  else if lineCount / knobs.cacheWays.val = 0 then .error "cache configuration has no sets"
  else if opened = false then .error ("cannot open trace output: " ++ knobs.outputPath)
  else .ok (lineCount / knobs.cacheWays.val)

/-- What `PIN_SafeCopy` copies from an address, of as many bytes as it is asked for. -/
abbrev Memory := ℕ → ℕ → List Byte

/-- What a thread does that the tool may be called for. -/
inductive Event where
  | enter (thread : ℕ) (routine : List Char)
  | leave (thread : ℕ) (routine : List Char)
  | access (thread : ℕ) (address : Fin (2 ^ 64)) (size : Fin (2 ^ 32)) (memory : Memory)

/-- The globals of the tool. `output` is what has been written to the trace. -/
structure Tool where
  setCount : ℕ
  cache : Cache
  output : List Byte := []
  accesses : ℕ := 0
  misses : ℕ := 0
  recorded : ℕ := 0
  copyFailures : ℕ := 0
  roiDepths : ℕ → Option ℕ := fun _ => none

namespace Tool

def start (knobs : Knobs) (setCount : ℕ) : Tool where
  setCount := setCount
  cache := emptyCache setCount knobs.cacheWays.val

def enterRoi (tool : Tool) (thread : ℕ) : Tool where
  __ := tool
  roiDepths := Function.update tool.roiDepths thread
    (some (((tool.roiDepths thread).getD 0 + 1) % 2 ^ 64))

/-- A thread that has not entered is not in the map; one that leaves for the last time goes. -/
def leaveRoi (tool : Tool) (thread : ℕ) : Tool :=
  match tool.roiDepths thread with
  | none => tool
  | some d =>
    let d := (d + (2 ^ 64 - 1)) % 2 ^ 64
    { tool with
      roiDepths := Function.update tool.roiDepths thread (if d = 0 then none else some d) }

/-- One turn of the loop of `record_access`. -/
def recordLine (knobs : Knobs) (inRoi : Bool) (memory : Memory) (tool : Tool) (line : ℕ) : Tool :=
  let lineSize := knobs.cacheLineSize.val
  let tool := { tool with accesses := (tool.accesses + 1) % 2 ^ 64 }
  match cacheMiss tool.setCount knobs.cacheWays.val tool.cache line with
  | (false, cache) => { tool with cache := cache }
  | (true, cache) =>
    let tool := { tool with cache := cache, misses := (tool.misses + 1) % 2 ^ 64 }
    if inRoi ∧ tool.misses > knobs.warmupMisses.val ∧ tool.recorded < knobs.maximumBlocks.val then
      let lineBytes := memory (line * lineSize % 2 ^ 64) lineSize
      if lineBytes.length ≠ lineSize then
        { tool with copyFailures := (tool.copyFailures + 1) % 2 ^ 64 }
      else
        { tool with
          output := tool.output ++ lineBytes
          recorded := (tool.recorded + 1) % 2 ^ 64 }
    else tool

/-- The loop of `record_access`: it stops at the last line, after at most `turns` turns. -/
def recordLines (knobs : Knobs) (inRoi : Bool) (memory : Memory) (last : ℕ) : ℕ → ℕ → Tool → Tool
  | 0, _, tool => tool
  | turns + 1, line, tool =>
    let tool := recordLine knobs inRoi memory tool line
    if line = last then tool
    else recordLines knobs inRoi memory last turns ((line + 1) % 2 ^ 64) tool

def recordAccess (knobs : Knobs) (tool : Tool) (thread : ℕ) (address : Fin (2 ^ 64))
    (size : Fin (2 ^ 32)) (memory : Memory) : Tool :=
  if size.val = 0 then tool
  else if size.val - 1 > 2 ^ 64 - 1 - address.val then tool
  else
    let firstLine := address.val / knobs.cacheLineSize.val
    let lastLine := (address.val + size.val - 1) / knobs.cacheLineSize.val
    let inRoi := knobs.roiRoutine.isEmpty || (tool.roiDepths thread).isSome
    recordLines knobs inRoi memory lastLine (lastLine - firstLine + 1) firstLine tool

end Tool

/-- The routines that `instrument_routine` inserts its calls into. -/
def instrumented (knobs : Knobs) (routine : List Char) : Bool :=
  !knobs.roiRoutine.isEmpty && decide (knobs.roiRoutine <:+: routine)

def step (knobs : Knobs) (tool : Tool) : Event → Tool
  | .enter thread routine => if instrumented knobs routine then tool.enterRoi thread else tool
  | .leave thread routine => if instrumented knobs routine then tool.leaveRoi thread else tool
  | .access thread address size memory => tool.recordAccess knobs thread address size memory

/-- The tool after the calls of a run. -/
def run (knobs : Knobs) (setCount : ℕ) (events : List Event) : Tool :=
  events.foldl (step knobs) (Tool.start knobs setCount)

/-! What a run is for. -/

/-- A line that an access visits, and its bytes, unless they cannot be copied whole. -/
structure Visit where
  line : ℕ
  inRoi : Prop
  copied : Option (List Byte)

def nesting (knobs : Knobs) (thread : ℕ) : Event → Option Bool
  | .enter t routine => if t = thread ∧ instrumented knobs routine = true then some true else none
  | .leave t routine => if t = thread ∧ instrumented knobs routine = true then some false else none
  | .access _ _ _ _ => none

/-- Since some moment the thread has entered more of the routines than it has left. -/
def InRoi (knobs : Knobs) (before : List Event) (thread : ℕ) : Prop :=
  knobs.roiRoutine = [] ∨ ∃ since, since <:+ before ∧
    closings (nesting knobs thread) since < openings (nesting knobs thread) since

/-- The lines of the bytes of an access, in ascending order. -/
def linesOf (lineSize address size : ℕ) : List ℕ :=
  ((Finset.Ico address (address + size)).image fun byte => byte / lineSize).sort

def copiedLine (knobs : Knobs) (memory : Memory) (line : ℕ) : Option (List Byte) :=
  let lineBytes := memory (line * knobs.cacheLineSize.val) knobs.cacheLineSize.val
  if lineBytes.length = knobs.cacheLineSize.val then some lineBytes else none

/-- An access that would run past the last address visits nothing. -/
def visitsOf (knobs : Knobs) (before : List Event) : Event → List Visit
  | .enter _ _ => []
  | .leave _ _ => []
  | .access thread address size memory =>
    if address.val + size.val ≤ 2 ^ 64 then
      (linesOf knobs.cacheLineSize.val address.val size.val).map fun line =>
        ⟨line, InRoi knobs before thread, copiedLine knobs memory line⟩
    else []

def visits (knobs : Knobs) (events : List Event) : List Visit := along (visitsOf knobs) events

open Classical in
/-- The visits to lines that a least-recently-used cache does not hold. -/
noncomputable def missed (setCount ways : ℕ) (vs : List Visit) : List Visit :=
  along (fun before visit =>
    if ReusedWithin setCount ways (before.map Visit.line) visit.line then [] else [visit]) vs

open Classical in
/-- The misses after the warm-up whose thread is in the region of interest. -/
noncomputable def wanted (knobs : Knobs) (setCount : ℕ) (vs : List Visit) : List Visit :=
  ((missed setCount knobs.cacheWays.val vs).drop knobs.warmupMisses.val).filter fun visit =>
    visit.inRoi

/-- The copies that are tried until enough lines have been recorded. -/
noncomputable def copies (knobs : Knobs) (setCount : ℕ) (vs : List Visit) :
    List (Option (List Byte)) :=
  attempts knobs.maximumBlocks.val ((wanted knobs setCount vs).map Visit.copied)

variable {knobs : Knobs} {events : List Event} {tool : Tool} {vs : List Visit} {visit : Visit}
  {setCount thread line address size first last : ℕ} {lines : List ℕ} {inRoi : Bool}
  {memory : Memory}

/-! The lines of an access. -/

theorem mem_linesOf {lineSize : ℕ} (hline : 0 < lineSize) (hsize : 0 < size) :
    line ∈ linesOf lineSize address size ↔
      address / lineSize ≤ line ∧ line ≤ (address + size - 1) / lineSize := by
  rw [linesOf, Finset.mem_sort, Finset.mem_image]
  constructor
  · rintro ⟨byte, hbyte, rfl⟩
    rw [Finset.mem_Ico] at hbyte
    exact ⟨Nat.div_le_div_right hbyte.1, Nat.div_le_div_right (by omega)⟩
  · rintro ⟨hlow, hhigh⟩
    -- the first byte of the access that lies in the line
    refine ⟨max address (line * lineSize), ?_, ?_⟩
    · have hle : line * lineSize ≤ address + size - 1 := (Nat.le_div_iff_mul_le hline).mp hhigh
      rw [Finset.mem_Ico]
      omega
    · rcases Nat.le_total address (line * lineSize) with hle | hle
      · rw [Nat.max_eq_right hle, Nat.mul_div_cancel _ hline]
      · rw [Nat.max_eq_left hle]
        exact le_antisymm hlow ((Nat.le_div_iff_mul_le hline).mpr hle)

theorem linesOf_eq {lineSize : ℕ} (hline : 0 < lineSize) (hsize : 0 < size) :
    linesOf lineSize address size = List.range' (address / lineSize)
      ((address + size - 1) / lineSize - address / lineSize + 1) := by
  have hle : address / lineSize ≤ (address + size - 1) / lineSize :=
    Nat.div_le_div_right (by omega)
  have hsame : (linesOf lineSize address size).toFinset = (List.range' (address / lineSize)
      ((address + size - 1) / lineSize - address / lineSize + 1)).toFinset := by
    ext line
    rw [List.mem_toFinset, List.mem_toFinset, mem_linesOf hline hsize, List.mem_range'_1]
    omega
  have hsorted := (List.toFinset_sort (· ≤ ·) (List.nodup_range' (s := address / lineSize)
    (n := (address + size - 1) / lineSize - address / lineSize + 1))).mpr List.pairwise_le_range'
  rw [← hsorted, ← hsame, linesOf, Finset.sort_toFinset]

/-- The loop stops at the last line. -/
theorem recordLines_eq (hlast : last < 2 ^ 64) (n : ℕ) (hn : first + n = last) (tool : Tool) :
    Tool.recordLines knobs inRoi memory last (n + 1) first tool =
      (List.range' first (n + 1)).foldl (Tool.recordLine knobs inRoi memory) tool := by
  induction n generalizing first tool with
  | zero =>
    rw [Tool.recordLines, if_pos (by omega)]
    rfl
  | succ n ih =>
    rw [Tool.recordLines, if_neg (by omega), Nat.mod_eq_of_lt (by omega), ih (by omega)]
    rfl

/-- What is copied of a line is all of it. -/
theorem length_copied (hvisit : visit ∈ visits knobs events) {lineBytes : List Byte}
    (hcopied : visit.copied = some lineBytes) : lineBytes.length = knobs.cacheLineSize.val := by
  obtain ⟨before, event, -, hvisit⟩ := exists_of_mem_along hvisit
  cases event with
  | enter thread routine => exact absurd hvisit List.not_mem_nil
  | leave thread routine => exact absurd hvisit List.not_mem_nil
  | access thread address size memory =>
    rw [visitsOf] at hvisit
    split at hvisit
    · obtain ⟨line, -, rfl⟩ := List.mem_map.mp hvisit
      have hline : copiedLine knobs memory line = some lineBytes := hcopied
      rw [copiedLine] at hline
      split at hline
      · rename_i hwhole
        rw [← Option.some.inj hline]
        exact hwhole
      · cases hline
    · exact absurd hvisit List.not_mem_nil

/-! One visit. -/

theorem missed_concat (setCount ways : ℕ) (vs : List Visit) (visit : Visit) :
    missed setCount ways (vs ++ [visit]) = missed setCount ways vs ++
      open Classical in
      if ReusedWithin setCount ways (vs.map Visit.line) visit.line then [] else [visit] :=
  along_concat _ vs visit

theorem length_missed_le (setCount ways : ℕ) (vs : List Visit) :
    (missed setCount ways vs).length ≤ vs.length := by
  induction vs using List.reverseRecOn with
  | nil => exact le_rfl
  | append_singleton vs visit ih =>
    rw [missed_concat, List.length_append, List.length_append, List.length_singleton]
    split
    · exact Nat.le_succ_of_le ih
    · exact Nat.succ_le_succ ih

theorem mem_of_mem_wanted (h : visit ∈ wanted knobs setCount vs) : visit ∈ vs := by
  classical
  have hmissed : visit ∈ missed setCount knobs.cacheWays.val vs :=
    List.mem_of_mem_drop (List.mem_of_mem_filter h)
  obtain ⟨before, v, hbefore, hmem⟩ := exists_of_mem_along hmissed
  split at hmem
  · exact absurd hmem List.not_mem_nil
  · rw [List.mem_singleton.mp hmem]
    exact hbefore.subset (List.mem_append_right before List.mem_cons_self)

theorem wanted_of_hit
    (h : ReusedWithin setCount knobs.cacheWays.val (vs.map Visit.line) visit.line) :
    wanted knobs setCount (vs ++ [visit]) = wanted knobs setCount vs := by
  rw [wanted, missed_concat, if_pos h, List.append_nil]
  rfl

theorem wanted_of_miss
    (h : ¬ ReusedWithin setCount knobs.cacheWays.val (vs.map Visit.line) visit.line) :
    wanted knobs setCount (vs ++ [visit]) = wanted knobs setCount vs ++
      open Classical in
      if visit.inRoi ∧
        knobs.warmupMisses.val ≤ (missed setCount knobs.cacheWays.val vs).length
      then [visit] else [] := by
  classical
  rw [wanted, missed_concat, if_neg h, List.drop_append, List.filter_append]
  congr 1
  by_cases hwarm : knobs.warmupMisses.val ≤ (missed setCount knobs.cacheWays.val vs).length
  · rw [Nat.sub_eq_zero_of_le hwarm, List.drop_zero, List.filter_singleton]
    by_cases hroi : visit.inRoi
    · simp [hroi, hwarm]
    · simp [hroi]
  · rw [List.drop_of_length_le (by rw [List.length_singleton]; omega),
      if_neg (fun hboth => hwarm hboth.2)]
    rfl

theorem length_copies_le (knobs : Knobs) (setCount : ℕ) (vs : List Visit) :
    (copies knobs setCount vs).length ≤ vs.length := by
  classical
  refine ((prefix_attempts _ _).length_le).trans ?_
  rw [List.length_map]
  refine (List.length_filter_le _ _).trans ?_
  rw [List.length_drop]
  exact (Nat.sub_le _ _).trans (length_missed_le _ _ vs)

theorem copies_of_hit
    (h : ReusedWithin setCount knobs.cacheWays.val (vs.map Visit.line) visit.line) :
    copies knobs setCount (vs ++ [visit]) = copies knobs setCount vs := by
  rw [copies, wanted_of_hit h, copies]

/-- The counters and the trace that a sequence of copies leaves. -/
structure Copied (recorded copyFailures : ℕ) (output : List Byte)
    (tried : List (Option (List Byte))) : Prop where
  recorded_eq : recorded = tried.reduceOption.length
  copyFailures_eq : copyFailures = tried.count none
  output_eq : output = tried.reduceOption.flatten

variable {recorded copyFailures : ℕ} {output : List Byte} {tried : List (Option (List Byte))}

theorem Copied.failure (h : Copied recorded copyFailures output tried)
    (hlen : tried.length + 1 < 2 ^ 64) :
    Copied recorded ((copyFailures + 1) % 2 ^ 64) output (tried ++ [none]) := by
  have hle : tried.count none ≤ tried.length := List.count_le_length
  refine ⟨?_, ?_, ?_⟩
  · rw [List.reduceOption_append, h.recorded_eq]
    exact (congrArg List.length (List.append_nil _)).symm
  · rw [List.count_append, List.count_singleton_self, h.copyFailures_eq,
      Nat.mod_eq_of_lt (by omega)]
  · rw [List.reduceOption_append, h.output_eq]
    exact (congrArg List.flatten (List.append_nil _)).symm

theorem Copied.success (h : Copied recorded copyFailures output tried)
    (hlen : tried.length + 1 < 2 ^ 64) (lineBytes : List Byte) :
    Copied ((recorded + 1) % 2 ^ 64) copyFailures (output ++ lineBytes)
      (tried ++ [some lineBytes]) := by
  have hle := List.reduceOption_length_le tried
  have hlast : [some lineBytes].reduceOption = [lineBytes] := rfl
  refine ⟨?_, ?_, ?_⟩
  · rw [List.reduceOption_append, hlast, List.length_append, List.length_singleton,
      ← h.recorded_eq, Nat.mod_eq_of_lt]
    rw [h.recorded_eq]
    omega
  · rw [List.count_append, h.copyFailures_eq, List.count_singleton,
      if_neg (by rw [beq_iff_eq]; exact Option.some_ne_none lineBytes), Nat.add_zero]
  · rw [List.reduceOption_append, hlast, List.flatten_append, ← h.output_eq,
      List.flatten_singleton]

theorem copies_of_miss
    (h : ¬ ReusedWithin setCount knobs.cacheWays.val (vs.map Visit.line) visit.line)
    (hcopied : Copied tool.recorded copyFailures output (copies knobs setCount vs)) :
    copies knobs setCount (vs ++ [visit]) = copies knobs setCount vs ++
      open Classical in
      if visit.inRoi ∧
        knobs.warmupMisses.val < (missed setCount knobs.cacheWays.val vs).length + 1 ∧
        tool.recorded < knobs.maximumBlocks.val
      then [visit.copied] else [] := by
  classical
  have hrecorded : tool.recorded < knobs.maximumBlocks.val ↔
      ((wanted knobs setCount vs).map Visit.copied).reduceOption.length <
        knobs.maximumBlocks.val := by
    rw [hcopied.recorded_eq, copies, reduceOption_attempts, List.length_take]
    omega
  rw [copies, wanted_of_miss h, List.map_append]
  by_cases hboth : visit.inRoi ∧
      knobs.warmupMisses.val ≤ (missed setCount knobs.cacheWays.val vs).length
  · rw [if_pos hboth, List.map_singleton, attempts_concat, copies]
    congr 1
    refine if_congr ?_ rfl rfl
    rw [hrecorded]
    exact ⟨fun hlt => ⟨hboth.1, Nat.lt_succ_of_le hboth.2, hlt⟩, fun hall => hall.2.2⟩
  · rw [if_neg hboth, List.map_nil, List.append_nil, copies, if_neg, List.append_nil]
    rintro ⟨hroi, hwarm, -⟩
    exact hboth ⟨hroi, Nat.le_of_lt_succ hwarm⟩

/-- The tool after a sequence of visits. -/
structure Records (knobs : Knobs) (setCount : ℕ) (tool : Tool) (vs : List Visit) : Prop where
  setCount_eq : tool.setCount = setCount
  exact : Exact setCount knobs.cacheWays.val tool.cache (vs.map Visit.line)
  accesses_eq : tool.accesses = vs.length
  misses_eq : tool.misses = (missed setCount knobs.cacheWays.val vs).length
  copied : Copied tool.recorded tool.copyFailures tool.output (copies knobs setCount vs)

theorem records_start (knobs : Knobs) (setCount : ℕ) :
    Records knobs setCount (Tool.start knobs setCount) [] := by
  have hcopies : copies knobs setCount [] = [] := by
    rw [copies, wanted, missed, along, alongFrom, List.drop_nil]
    rfl
  refine ⟨rfl, exact_emptyCache setCount knobs.cacheWays.val, rfl, rfl, ?_⟩
  rw [hcopies]
  exact ⟨rfl, rfl, List.flatten_nil.symm⟩

theorem Records.roiDepths (h : Records knobs setCount tool vs) (depths : ℕ → Option ℕ) :
    Records knobs setCount { tool with roiDepths := depths } vs :=
  ⟨h.setCount_eq, h.exact, h.accesses_eq, h.misses_eq, h.copied⟩

/-- A turn of the loop records its visit as it should. -/
theorem Records.recordLine (h : Records knobs setCount tool vs) (visit : Visit)
    (hsets : 0 < setCount) (hways : 0 < knobs.cacheWays.val) (hlen : vs.length + 1 < 2 ^ 64)
    (hroi : inRoi = true ↔ visit.inRoi)
    (hcopied : visit.copied = copiedLine knobs memory visit.line)
    (hline : visit.line * knobs.cacheLineSize.val < 2 ^ 64) :
    Records knobs setCount (Tool.recordLine knobs inRoi memory tool visit.line)
      (vs ++ [visit]) := by
  have hmap : (vs ++ [visit]).map Visit.line = vs.map Visit.line ++ [visit.line] := List.map_append
  have hcount : (vs ++ [visit]).length = vs.length + 1 := List.length_append
  have hbefore : (vs.map Visit.line).length + 1 < 2 ^ 64 := by
    rw [List.length_map]
    exact hlen
  have hcall := @cacheMiss_exact setCount knobs.cacheWays.val tool.cache visit.line
  obtain ⟨hiff, hexact⟩ := hcall h.exact hsets hways hbefore
  rw [← reusedWithin_iff] at hiff
  have haccesses : (tool.accesses + 1) % 2 ^ 64 = vs.length + 1 := by
    rw [h.accesses_eq, Nat.mod_eq_of_lt hlen]
  have hmissed := length_missed_le setCount knobs.cacheWays.val vs
  have hmisses : (tool.misses + 1) % 2 ^ 64 =
      (missed setCount knobs.cacheWays.val vs).length + 1 := by
    rw [h.misses_eq, Nat.mod_eq_of_lt (by omega)]
  rw [Tool.recordLine]
  simp only [h.setCount_eq, haccesses, hmisses, Nat.mod_eq_of_lt hline]
  generalize cacheMiss setCount knobs.cacheWays.val tool.cache visit.line = outcome at hiff hexact ⊢
  obtain ⟨miss, cache⟩ := outcome
  cases miss with
  | false =>
    have hreused := hiff.mp rfl
    refine ⟨rfl, hmap ▸ hexact, hcount.symm, ?_, ?_⟩
    · rw [missed_concat, if_pos hreused, List.append_nil]
      exact h.misses_eq
    · rw [copies_of_hit hreused]
      exact h.copied
  | true =>
    have hnot : ¬ ReusedWithin setCount knobs.cacheWays.val (vs.map Visit.line) visit.line :=
      fun hreused => Bool.noConfusion (hiff.mpr hreused)
    have hmissed' : (missed setCount knobs.cacheWays.val (vs ++ [visit])).length =
        (missed setCount knobs.cacheWays.val vs).length + 1 := by
      rw [missed_concat, if_neg hnot]
      exact List.length_append
    have hcopies := copies_of_miss hnot h.copied
    have htried : (copies knobs setCount vs).length + 1 < 2 ^ 64 :=
      lt_of_le_of_lt (Nat.succ_le_succ (length_copies_le knobs setCount vs)) hlen
    dsimp only
    by_cases hattempt : inRoi = true ∧
        (missed setCount knobs.cacheWays.val vs).length + 1 > knobs.warmupMisses.val ∧
        tool.recorded < knobs.maximumBlocks.val
    · rw [if_pos hattempt]
      rw [if_pos ⟨hroi.mp hattempt.1, hattempt.2⟩] at hcopies
      by_cases hwhole : (memory (visit.line * knobs.cacheLineSize.val)
          knobs.cacheLineSize.val).length = knobs.cacheLineSize.val
      · rw [if_neg (not_not.mpr hwhole)]
        refine ⟨rfl, hmap ▸ hexact, hcount.symm, hmissed'.symm, ?_⟩
        rw [hcopies, hcopied, copiedLine, if_pos hwhole]
        exact h.copied.success htried _
      · rw [if_pos hwhole]
        refine ⟨rfl, hmap ▸ hexact, hcount.symm, hmissed'.symm, ?_⟩
        rw [hcopies, hcopied, copiedLine, if_neg hwhole]
        exact h.copied.failure htried
    · rw [if_neg hattempt]
      rw [if_neg (fun hall => hattempt ⟨hroi.mpr hall.1, hall.2⟩), List.append_nil] at hcopies
      refine ⟨rfl, hmap ▸ hexact, hcount.symm, hmissed'.symm, ?_⟩
      rw [hcopies]
      exact h.copied

/-! One call. -/

theorem Records.recordLines (h : Records knobs setCount tool vs) (hsets : 0 < setCount)
    (hways : 0 < knobs.cacheWays.val) (hlen : vs.length + lines.length < 2 ^ 64) {roi : Prop}
    (hroi : inRoi = true ↔ roi)
    (hlines : ∀ line ∈ lines, line * knobs.cacheLineSize.val < 2 ^ 64) :
    Records knobs setCount (lines.foldl (Tool.recordLine knobs inRoi memory) tool)
      (vs ++ lines.map fun line => ⟨line, roi, copiedLine knobs memory line⟩) := by
  induction lines generalizing tool vs with
  | nil =>
    rw [List.map_nil, List.append_nil]
    exact h
  | cons line lines ih =>
    rw [List.length_cons] at hlen
    have hfirst : Records knobs setCount (Tool.recordLine knobs inRoi memory tool line)
        (vs ++ [⟨line, roi, copiedLine knobs memory line⟩]) :=
      h.recordLine ⟨line, roi, copiedLine knobs memory line⟩ hsets hways (by omega) hroi rfl
        (hlines line List.mem_cons_self)
    rw [List.map_cons, List.append_cons, List.foldl_cons]
    refine ih hfirst ?_ fun other hother => hlines other (List.mem_cons_of_mem line hother)
    rw [List.length_append, List.length_singleton]
    omega

theorem Records.recordAccess (h : Records knobs setCount tool vs) (hsets : 0 < setCount)
    (hways : 0 < knobs.cacheWays.val) (hsize : 0 < knobs.cacheLineSize.val)
    {address : Fin (2 ^ 64)} {size : Fin (2 ^ 32)} {before : List Event}
    (hroi : (knobs.roiRoutine.isEmpty || (tool.roiDepths thread).isSome) = true ↔
      InRoi knobs before thread)
    (hlen : (vs ++ visitsOf knobs before (.access thread address size memory)).length < 2 ^ 64) :
    Records knobs setCount (tool.recordAccess knobs thread address size memory)
      (vs ++ visitsOf knobs before (.access thread address size memory)) := by
  rw [visitsOf] at hlen ⊢
  rw [Tool.recordAccess]
  by_cases hzero : size.val = 0
  · rw [if_pos hzero, hzero, linesOf, Nat.add_zero, Finset.Ico_self, Finset.image_empty,
      Finset.sort_empty, List.map_nil, ite_self, List.append_nil]
    exact h
  rw [if_neg hzero]
  have haddress := address.isLt
  by_cases hwraps : size.val - 1 > 2 ^ 64 - 1 - address.val
  · rw [if_pos hwraps, if_neg (by omega), List.append_nil]
    exact h
  rw [if_neg hwraps, if_pos (by omega)]
  rw [if_pos (by omega), List.length_append, List.length_map] at hlen
  have hlast : (address.val + size.val - 1) / knobs.cacheLineSize.val < 2 ^ 64 :=
    lt_of_le_of_lt (Nat.div_le_self _ _) (by omega)
  have hfirst : address.val / knobs.cacheLineSize.val ≤
      (address.val + size.val - 1) / knobs.cacheLineSize.val := Nat.div_le_div_right (by omega)
  dsimp only
  rw [recordLines_eq hlast _ (by omega), ← linesOf_eq hsize (by omega)]
  refine h.recordLines hsets hways hlen hroi ?_
  intro line hmem
  have hle := ((mem_linesOf hsize (by omega)).mp hmem).2
  have hmul : line * knobs.cacheLineSize.val ≤ address.val + size.val - 1 :=
    (Nat.le_div_iff_mul_le hsize).mp hle
  omega

/-- The map of depths holds no nought. -/
def Nested (knobs : Knobs) (tool : Tool) (before : List Event) : Prop :=
  ∀ thread, tool.roiDepths thread =
    if depth (nesting knobs thread) before = 0 then none
    else some (depth (nesting knobs thread) before)

variable {before : List Event} {event : Event}

theorem Nested.inRoi_iff (h : Nested knobs tool before) (thread : ℕ) :
    (knobs.roiRoutine.isEmpty || (tool.roiDepths thread).isSome) = true ↔
      InRoi knobs before thread := by
  rw [InRoi, ← depth_pos_iff, Bool.or_eq_true, List.isEmpty_iff, h thread]
  refine or_congr Iff.rfl ?_
  split
  · rename_i hzero
    rw [hzero]
    exact iff_of_false Bool.noConfusion (lt_irrefl 0)
  · rename_i hpos
    exact iff_of_true rfl (Nat.pos_of_ne_zero hpos)

theorem depth_lt (knobs : Knobs) (hlen : before.length + 1 < 2 ^ 64) (thread : ℕ) :
    depth (nesting knobs thread) before + 1 < 2 ^ 64 := by
  have hle := depth_le_openings (nesting knobs thread) before
  have hcount : openings (nesting knobs thread) before ≤ before.length := List.countP_le_length
  omega

theorem Nested.enterRoi (h : Nested knobs tool before) (hlen : before.length + 1 < 2 ^ 64)
    {routine : List Char} (hinserted : instrumented knobs routine = true) :
    Nested knobs (tool.enterRoi thread) (before ++ [.enter thread routine]) := by
  intro other
  rw [depth_concat]
  by_cases hother : other = thread
  · subst hother
    have hlt := depth_lt knobs hlen other
    have hnext : (tool.roiDepths other).getD 0 = depth (nesting knobs other) before := by
      rw [h other]
      split
      · rename_i hzero
        exact hzero.symm
      · rfl
    simp only [Tool.enterRoi, Function.update_self, nesting, hinserted, and_self, if_true, nest,
      hnext]
    rw [Nat.mod_eq_of_lt hlt, if_neg (Nat.succ_ne_zero _)]
  · simp only [Tool.enterRoi, Function.update_of_ne hother, nesting, Ne.symm hother, false_and,
      if_false, nest]
    exact h other

theorem Nested.leaveRoi (h : Nested knobs tool before) (hlen : before.length + 1 < 2 ^ 64)
    {routine : List Char} (hinserted : instrumented knobs routine = true) :
    Nested knobs (tool.leaveRoi thread) (before ++ [.leave thread routine]) := by
  have hsame : ∀ other, other ≠ thread → nesting knobs other (.leave thread routine) = none :=
    fun other hother => if_neg fun hboth => hother hboth.1.symm
  have hleaves : nesting knobs thread (.leave thread routine) = some false :=
    if_pos ⟨rfl, hinserted⟩
  intro other
  rw [depth_concat]
  by_cases hother : other = thread
  · subst hother
    have hlt := depth_lt knobs hlen other
    have hmap := h other
    rw [hleaves, nest, Tool.leaveRoi]
    by_cases hzero : depth (nesting knobs other) before = 0
    · rw [if_pos hzero] at hmap
      rw [hmap, hzero]
      exact hmap
    · rw [if_neg hzero] at hmap
      have hless : (depth (nesting knobs other) before + (2 ^ 64 - 1)) % 2 ^ 64 =
          depth (nesting knobs other) before - 1 := by omega
      rw [hmap]
      dsimp only
      rw [Function.update_self, hless]
  · rw [hsame other hother, nest, ← h other, Tool.leaveRoi]
    split
    · rfl
    · exact Function.update_of_ne hother _ _

theorem roiDepths_recordLine (knobs : Knobs) (inRoi : Bool) (memory : Memory) (tool : Tool)
    (line : ℕ) : (Tool.recordLine knobs inRoi memory tool line).roiDepths = tool.roiDepths := by
  rw [Tool.recordLine]
  dsimp only
  split
  · rfl
  · split
    · split <;> rfl
    · rfl

theorem roiDepths_recordLines (knobs : Knobs) (inRoi : Bool) (memory : Memory) (last turns line : ℕ)
    (tool : Tool) :
    (Tool.recordLines knobs inRoi memory last turns line tool).roiDepths = tool.roiDepths := by
  induction turns generalizing line tool with
  | zero => rfl
  | succ turns ih =>
    rw [Tool.recordLines]
    split
    · exact roiDepths_recordLine knobs inRoi memory tool line
    · rw [ih, roiDepths_recordLine]

/-- The calls of other threads, and accesses, leave the depth of a thread as it is. -/
theorem Nested.step (h : Nested knobs tool before) (hlen : before.length + 1 < 2 ^ 64)
    (event : Event) : Nested knobs (step knobs tool event) (before ++ [event]) := by
  have hkept : ∀ {tool' : Tool}, tool'.roiDepths = tool.roiDepths →
      (∀ other, nesting knobs other event = none) → Nested knobs tool' (before ++ [event]) := by
    intro tool' hdepths hnone other
    rw [depth_concat, hnone other, nest, hdepths]
    exact h other
  cases event with
  | enter thread routine =>
    rw [CachelineTrace.step]
    split
    · rename_i hinserted
      exact h.enterRoi hlen hinserted
    · rename_i hnot
      exact hkept rfl fun other => if_neg fun hboth => hnot hboth.2
  | leave thread routine =>
    rw [CachelineTrace.step]
    split
    · rename_i hinserted
      exact h.leaveRoi hlen hinserted
    · rename_i hnot
      exact hkept rfl fun other => if_neg fun hboth => hnot hboth.2
  | access thread address size memory =>
    refine hkept ?_ fun other => rfl
    rw [CachelineTrace.step, Tool.recordAccess]
    split
    · rfl
    · split
      · rfl
      · exact roiDepths_recordLines knobs _ memory _ _ _ tool

theorem configure_eq_ok {opened : Bool} (h : configure knobs opened = .ok setCount) :
    0 < setCount ∧ 0 < knobs.cacheWays.val ∧ 0 < knobs.cacheLineSize.val := by
  rw [configure] at h
  split at h
  · cases h
  rename_i hknobs
  split at h
  · cases h
  split at h
  · cases h
  split at h
  · cases h
  rename_i hsets
  split at h
  · cases h
  cases h
  exact ⟨Nat.pos_of_ne_zero hsets, by omega, by omega⟩

/-! Whole runs. -/

theorem run_records (hsets : 0 < setCount) (hways : 0 < knobs.cacheWays.val)
    (hsize : 0 < knobs.cacheLineSize.val) (hcalls : events.length < 2 ^ 64)
    (hvisits : (visits knobs events).length < 2 ^ 64) :
    Records knobs setCount (run knobs setCount events) (visits knobs events) ∧
      Nested knobs (run knobs setCount events) events := by
  refine foldl_tracks (R := fun tool before =>
    Records knobs setCount tool (visits knobs before) ∧ Nested knobs tool before)
    ⟨records_start knobs setCount, fun thread => rfl⟩ ?_
  rintro tool before event hrun ⟨hrecords, hnested⟩
  have hshort := hrun.length_le
  rw [List.length_append, List.length_singleton] at hshort
  refine ⟨?_, hnested.step (by omega) event⟩
  have hseen := (prefix_along (visitsOf knobs) hrun).length_le
  have hmore : visits knobs (before ++ [event]) =
      visits knobs before ++ visitsOf knobs before event := along_concat _ before event
  rw [← visits, hmore, ← visits] at hseen
  rw [hmore]
  cases event with
  | enter thread routine =>
    rw [visitsOf, List.append_nil, step]
    split
    · exact hrecords.roiDepths _
    · exact hrecords
  | leave thread routine =>
    rw [visitsOf, List.append_nil, step]
    split
    · rw [Tool.leaveRoi]
      split
      · exact hrecords
      · exact hrecords.roiDepths _
    · exact hrecords
  | access thread address size memory =>
    exact hrecords.recordAccess hsets hways hsize (hnested.inRoi_iff thread)
      (lt_of_le_of_lt hseen hvisits)

/-- One tool state comes after another: the trace has grown by whole lines, and by no more than
may be recorded. -/
def Extends (knobs : Knobs) (tool tool' : Tool) (lines : List (List Byte)) : Prop :=
  tool'.setCount = tool.setCount ∧ tool'.cache.entries.length = tool.cache.entries.length ∧
    tool'.output = tool.output ++ lines.flatten ∧
    (∀ lineBytes ∈ lines, lineBytes.length = knobs.cacheLineSize.val) ∧
    tool'.recorded = tool.recorded + lines.length ∧
    (tool.recorded ≤ knobs.maximumBlocks.val → tool'.recorded ≤ knobs.maximumBlocks.val)

variable {tool' tool'' : Tool} {kept kept' : List (List Byte)}

theorem extends_of_same (hset : tool'.setCount = tool.setCount)
    (hentries : tool'.cache.entries.length = tool.cache.entries.length)
    (houtput : tool'.output = tool.output) (hrecorded : tool'.recorded = tool.recorded) :
    Extends knobs tool tool' [] := by
  refine ⟨hset, hentries, ?_, fun _ hmem => absurd hmem List.not_mem_nil, hrecorded, ?_⟩
  · rw [houtput, List.flatten_nil, List.append_nil]
  · intro hle
    rw [hrecorded]
    exact hle

theorem Extends.trans (h : Extends knobs tool tool' kept) (h' : Extends knobs tool' tool'' kept') :
    Extends knobs tool tool'' (kept ++ kept') := by
  obtain ⟨hset, hentries, houtput, hwhole, hrecorded, hle⟩ := h
  obtain ⟨hset', hentries', houtput', hwhole', hrecorded', hle'⟩ := h'
  refine ⟨hset'.trans hset, hentries'.trans hentries, ?_, ?_, ?_, fun hbound => hle' (hle hbound)⟩
  · rw [houtput', houtput, List.flatten_append, List.append_assoc]
  · intro lineBytes hmem
    rcases List.mem_append.mp hmem with hfirst | hsecond
    · exact hwhole lineBytes hfirst
    · exact hwhole' lineBytes hsecond
  · rw [hrecorded', hrecorded, List.length_append, Nat.add_assoc]

theorem length_entries_cacheMiss (setCount ways : ℕ) (cache : Cache) (line : ℕ) :
    (cacheMiss setCount ways cache line).2.entries.length = cache.entries.length := by
  rw [cacheMiss]
  dsimp only
  split <;> exact List.length_set

theorem exists_extends_recordLine (knobs : Knobs) (inRoi : Bool) (memory : Memory) (tool : Tool)
    (line : ℕ) :
    ∃ kept, Extends knobs tool (Tool.recordLine knobs inRoi memory tool line) kept := by
  have hentries := length_entries_cacheMiss tool.setCount knobs.cacheWays.val tool.cache line
  rw [Tool.recordLine]
  dsimp only
  generalize cacheMiss tool.setCount knobs.cacheWays.val tool.cache line = outcome at hentries ⊢
  obtain ⟨miss, cache⟩ := outcome
  cases miss with
  | false => exact ⟨[], extends_of_same rfl hentries rfl rfl⟩
  | true =>
    dsimp only
    split
    · rename_i hattempt
      split
      · exact ⟨[], extends_of_same rfl hentries rfl rfl⟩
      · rename_i hwhole
        have hmax := knobs.maximumBlocks.isLt
        have hnext : (tool.recorded + 1) % 2 ^ 64 = tool.recorded + 1 := Nat.mod_eq_of_lt (by omega)
        refine ⟨[_], rfl, hentries, congrArg _ (List.flatten_singleton).symm, ?_, hnext, ?_⟩
        · intro lineBytes hmem
          rw [List.mem_singleton.mp hmem]
          exact not_not.mp hwhole
        · intro _
          rw [hnext]
          exact hattempt.2.2
    · exact ⟨[], extends_of_same rfl hentries rfl rfl⟩

theorem exists_extends_recordLines (knobs : Knobs) (inRoi : Bool) (memory : Memory)
    (last turns line : ℕ) (tool : Tool) :
    ∃ kept, Extends knobs tool (Tool.recordLines knobs inRoi memory last turns line tool) kept := by
  induction turns generalizing line tool with
  | zero => exact ⟨[], extends_of_same rfl rfl rfl rfl⟩
  | succ turns ih =>
    obtain ⟨kept, hfirst⟩ := exists_extends_recordLine knobs inRoi memory tool line
    rw [Tool.recordLines]
    split
    · exact ⟨kept, hfirst⟩
    · obtain ⟨kept', hrest⟩ :=
        ih ((line + 1) % 2 ^ 64) (Tool.recordLine knobs inRoi memory tool line)
      exact ⟨kept ++ kept', hfirst.trans hrest⟩

theorem exists_extends_step (knobs : Knobs) (tool : Tool) (event : Event) :
    ∃ kept, Extends knobs tool (step knobs tool event) kept := by
  cases event with
  | enter thread routine =>
    rw [step]
    split <;> exact ⟨[], extends_of_same rfl rfl rfl rfl⟩
  | leave thread routine =>
    rw [step]
    split
    · rw [Tool.leaveRoi]
      split <;> exact ⟨[], extends_of_same rfl rfl rfl rfl⟩
    · exact ⟨[], extends_of_same rfl rfl rfl rfl⟩
  | access thread address size memory =>
    rw [step, Tool.recordAccess]
    split
    · exact ⟨[], extends_of_same rfl rfl rfl rfl⟩
    · split
      · exact ⟨[], extends_of_same rfl rfl rfl rfl⟩
      · exact exists_extends_recordLines knobs _ memory _ _ _ tool

theorem exists_extends_foldl (knobs : Knobs) (events : List Event) (tool : Tool) :
    ∃ kept, Extends knobs tool (events.foldl (step knobs) tool) kept := by
  induction events generalizing tool with
  | nil => exact ⟨[], extends_of_same rfl rfl rfl rfl⟩
  | cons event events ih =>
    obtain ⟨kept, hfirst⟩ := exists_extends_step knobs tool event
    obtain ⟨kept', hrest⟩ := ih (step knobs tool event)
    exact ⟨kept ++ kept', hfirst.trans hrest⟩

/-- What a run leaves in the trace: whole lines, as many as it has counted. -/
theorem exists_extends_run (knobs : Knobs) (setCount : ℕ) (events : List Event) :
    ∃ kept, Extends knobs (Tool.start knobs setCount) (run knobs setCount events) kept :=
  exists_extends_foldl knobs events _

theorem length_output (knobs : Knobs) (setCount : ℕ) (events : List Event) :
    (run knobs setCount events).output.length =
      (run knobs setCount events).recorded * knobs.cacheLineSize.val := by
  obtain ⟨kept, -, -, houtput, hwhole, hrecorded, -⟩ := exists_extends_run knobs setCount events
  have hsum : (kept.map List.length).sum = kept.length * knobs.cacheLineSize.val := by
    rw [List.map_congr_left hwhole, List.map_const', List.sum_replicate_nat]
  rw [houtput, hrecorded, List.length_append, List.length_flatten, hsum, Tool.start]
  dsimp only
  rw [List.length_nil, Nat.zero_add, Nat.zero_add]

theorem length_output_le (knobs : Knobs) (setCount : ℕ) (events : List Event) :
    (run knobs setCount events).output.length ≤
      knobs.maximumBlocks.val * knobs.cacheLineSize.val := by
  obtain ⟨-, -, -, -, -, -, hle⟩ := exists_extends_run knobs setCount events
  rw [length_output]
  exact Nat.mul_le_mul_right _ (hle (Nat.zero_le _))

/-- A run never takes anything out of the trace and never records more than it may, and its
searches stay inside the entries, however long it lasts. -/
theorem run_bounded (knobs : Knobs) {setCount : ℕ} (hconf : configure knobs true = .ok setCount)
    (events later : List Event) :
    (run knobs setCount events).output <+: (run knobs setCount (events ++ later)).output ∧
    (run knobs setCount events).recorded ≤ knobs.maximumBlocks.val ∧
    (run knobs setCount events).output.length =
      (run knobs setCount events).recorded * knobs.cacheLineSize.val ∧
    ∀ line, line % (run knobs setCount events).setCount * knobs.cacheWays.val +
      knobs.cacheWays.val ≤ (run knobs setCount events).cache.entries.length := by
  obtain ⟨hsets, -, -⟩ := configure_eq_ok hconf
  obtain ⟨kept, hset, hentries, -, -, -, hle⟩ := exists_extends_run knobs setCount events
  obtain ⟨kept', -, -, hmore, -⟩ := exists_extends_foldl knobs later (run knobs setCount events)
  refine ⟨?_, hle (Nat.zero_le _), ?_, ?_⟩
  · have hsplit : run knobs setCount (events ++ later) =
        later.foldl (step knobs) (run knobs setCount events) := List.foldl_append
    rw [hsplit]
    exact ⟨_, hmore.symm⟩
  · exact length_output knobs setCount events
  · intro line
    have hlt : line % setCount < setCount := Nat.mod_lt line hsets
    have hmul : (line % setCount + 1) * knobs.cacheWays.val ≤ setCount * knobs.cacheWays.val :=
      Nat.mul_le_mul_right _ hlt
    rw [hset, hentries, Tool.start, emptyCache, List.length_replicate]
    rw [Nat.succ_mul] at hmul
    exact hmul

/-- Whatever the interleaving, the trace holds the lines that the accesses of threads in the
region of interest missed after the warm-up and that could be copied, as many as may be. -/
theorem run_traces (knobs : Knobs) {setCount : ℕ} (hconf : configure knobs true = .ok setCount)
    (events : List Event) (hcalls : events.length < 2 ^ 64)
    (hvisits : (visits knobs events).length < 2 ^ 64) :
    (run knobs setCount events).accesses = (visits knobs events).length ∧
    (run knobs setCount events).misses =
      (missed setCount knobs.cacheWays.val (visits knobs events)).length ∧
    (run knobs setCount events).recorded =
      (copies knobs setCount (visits knobs events)).reduceOption.length ∧
    (run knobs setCount events).copyFailures =
      (copies knobs setCount (visits knobs events)).count none ∧
    (run knobs setCount events).output =
      (((wanted knobs setCount (visits knobs events)).map Visit.copied).reduceOption.take
        knobs.maximumBlocks.val).flatten := by
  obtain ⟨hsets, hways, hsize⟩ := configure_eq_ok hconf
  have hrecords := (run_records hsets hways hsize hcalls hvisits).1
  refine ⟨hrecords.accesses_eq, hrecords.misses_eq, hrecords.copied.recorded_eq,
    hrecords.copied.copyFailures_eq, ?_⟩
  rw [← reduceOption_attempts]
  exact hrecords.copied.output_eq

/-- Two threads of a program, one of them inside the routine that is traced. -/
def exampleKnobs : Knobs where
  cacheMegabytes := 1
  warmupMisses := 1
  maximumBlocks := 2
  roiRoutine := ['b', 'f', 's']

def exampleEvents : List Event :=
  [.enter 1 ['b', 'f', 's'], .access 1 60 8 fun _ n => List.replicate n 0,
    .access 2 640 4 fun _ n => List.replicate n 1, .leave 1 ['b', 'f', 's'],
    .access 1 1280 4 fun _ n => List.replicate n 2]

theorem length_visits_exampleEvents : (visits exampleKnobs exampleEvents).length = 4 := by
  simp [visits, along, alongFrom, exampleEvents, visitsOf, exampleKnobs, linesOf_eq]

theorem configure_exampleKnobs : configure exampleKnobs true = .ok 1024 := by
  simp [configure, exampleKnobs]

/-- The accesses of the other thread, and those after the routine, are counted too. -/
theorem run_traces_exampleEvents : (run exampleKnobs 1024 exampleEvents).accesses = 4 :=
  (run_traces exampleKnobs configure_exampleKnobs exampleEvents (by decide)
    (by rw [length_visits_exampleEvents]; decide)).1.trans length_visits_exampleEvents

theorem run_bounded_exampleEvents : (run exampleKnobs 1024 exampleEvents).recorded ≤ 2 :=
  (run_bounded exampleKnobs configure_exampleKnobs exampleEvents []).2.1

end CachelineTrace
