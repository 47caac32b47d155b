import ByteSelect.Recency
import Mathlib.Algebra.Group.Nat.Defs

/-! The simulated last-level cache of the trace tool, and its replacement policy. -/
namespace CachelineTrace

open Recency
open scoped List

structure Entry where
  tag : ℕ := 0
  stamp : ℕ := 0
  valid : Bool := false

/-- `entries` and `clock_value`. -/
structure Cache where
  entries : List Entry
  clockValue : ℕ := 0

def Cache.at (cache : Cache) (i : ℕ) : Entry := cache.entries.getD i {}

/-- What `main` starts with. -/
def emptyCache (setCount ways : ℕ) : Cache where
  entries := List.replicate (setCount * ways) {}

/-- The first loop of `cache_miss` from entry `i` on, with `n` entries to go. -/
def findHit (cache : Cache) (tag i : ℕ) : ℕ → Option ℕ
  | 0 => none
  | n + 1 =>
    if (cache.at i).valid ∧ (cache.at i).tag = tag then some i else findHit cache tag (i + 1) n

/-- The second loop. -/
def findVictim (cache : Cache) (victim i : ℕ) : ℕ → ℕ
  | 0 => victim
  | n + 1 =>
    if (cache.at i).valid = false then i
    else findVictim cache (if (cache.at i).stamp < (cache.at victim).stamp then i else victim)
      (i + 1) n

def cacheMiss (setCount ways : ℕ) (cache : Cache) (lineNumber : ℕ) : Bool × Cache :=
  let set := lineNumber % setCount
  let tag := lineNumber / setCount
  let first := set * ways
  let clockValue := (cache.clockValue + 1) % 2 ^ 64
  match findHit cache tag first ways with
  | some i =>
    (false, ⟨cache.entries.set i { cache.at i with stamp := clockValue }, clockValue⟩)
  | none =>
    let victim := findVictim cache first first ways
    (true, ⟨cache.entries.set victim { tag := tag, stamp := clockValue, valid := true },
      clockValue⟩)

/-- What a sequence of calls returns. -/
def calls (setCount ways : ℕ) (cache : Cache) : List ℕ → List Bool
  | [] => []
  | line :: lines =>
    (cacheMiss setCount ways cache line).1 ::
      calls setCount ways (cacheMiss setCount ways cache line).2 lines

/-- The cache after a sequence of calls. -/
def after (setCount ways : ℕ) (lines : List ℕ) : Cache :=
  lines.foldl (fun cache line => (cacheMiss setCount ways cache line).2) (emptyCache setCount ways)

variable {setCount ways s tag i j n c : ℕ} {cache : Cache} {block : List Entry} {e : Entry}
  {r lines : List ℕ} {line : ℕ} {time : ℕ → ℕ}

/-! The two loops. -/

theorem findHit_none (h : findHit cache tag i n = none) :
    ∀ k, i ≤ k → k < i + n → ¬ ((cache.at k).valid = true ∧ (cache.at k).tag = tag) := by
  induction n generalizing i with
  | zero =>
    intro k hik hk
    omega
  | succ n ih =>
    rw [findHit] at h
    split at h
    · cases h
    · rename_i hmiss
      intro k hik hk
      rcases Nat.eq_or_lt_of_le hik with rfl | hlt
      · exact hmiss
      · exact ih h k hlt (by omega)

theorem findHit_some (h : findHit cache tag i n = some j) :
    i ≤ j ∧ j < i + n ∧ (cache.at j).valid = true ∧ (cache.at j).tag = tag := by
  induction n generalizing i with
  | zero => cases h
  | succ n ih =>
    rw [findHit] at h
    split at h
    · rename_i hhit
      cases h
      exact ⟨le_rfl, by omega, hhit⟩
    · obtain ⟨hij, hj, hhit⟩ := ih h
      exact ⟨by omega, by omega, hhit⟩

/-- Either the victim is invalid, or all are valid and it is the oldest. -/
theorem findVictim_spec (cache : Cache) (victim i n : ℕ) :
    (i ≤ findVictim cache victim i n ∧ findVictim cache victim i n < i + n ∧
      (cache.at (findVictim cache victim i n)).valid = false) ∨
    ((findVictim cache victim i n = victim ∨
        i ≤ findVictim cache victim i n ∧ findVictim cache victim i n < i + n) ∧
      (cache.at (findVictim cache victim i n)).stamp ≤ (cache.at victim).stamp ∧
      ∀ k, i ≤ k → k < i + n → (cache.at k).valid = true ∧
        (cache.at (findVictim cache victim i n)).stamp ≤ (cache.at k).stamp) := by
  induction n generalizing victim i with
  | zero => exact Or.inr ⟨Or.inl rfl, le_rfl, fun k hik hk => by omega⟩
  | succ n ih =>
    rw [findVictim]
    split
    · rename_i hinvalid
      exact Or.inl ⟨le_rfl, by omega, hinvalid⟩
    · rename_i hvalid
      have hvalid := Bool.eq_true_of_not_eq_false hvalid
      generalize hnext : (if (cache.at i).stamp < (cache.at victim).stamp then i else victim) = next
      have hle : (cache.at next).stamp ≤ (cache.at victim).stamp ∧
          (cache.at next).stamp ≤ (cache.at i).stamp ∧ (next = victim ∨ next = i) := by
        subst hnext
        split
        · exact ⟨by omega, le_rfl, Or.inr rfl⟩
        · exact ⟨le_rfl, by omega, Or.inl rfl⟩
      obtain ⟨hvictim, hi, hwhich⟩ := hle
      rcases ih next (i + 1) with ⟨hlow, hhigh, hinvalid⟩ | ⟨hwhere, hold, hall⟩
      · exact Or.inl ⟨by omega, by omega, hinvalid⟩
      · refine Or.inr ⟨by omega, hold.trans hvictim, ?_⟩
        intro k hik hk
        rcases Nat.eq_or_lt_of_le hik with rfl | hlt
        · exact ⟨hvalid, hold.trans hi⟩
        · exact hall k hlt (by omega)

/-! One set. -/

/-- The line an entry of a set holds. -/
def lineOf (setCount s : ℕ) (e : Entry) : ℕ := e.tag * setCount + s

def validLines (setCount s : ℕ) (block : List Entry) : List ℕ :=
  (block.filter (·.valid)).map (lineOf setCount s)

/-- The entries of a set hold the first lines of its recency list, stamped with the times of
their last accesses. -/
structure Holds (setCount ways s : ℕ) (block : List Entry) (r : List ℕ) (time : ℕ → ℕ) :
    Prop where
  length_eq : block.length = ways
  lines : validLines setCount s block ~ r.take ways
  stamps : ∀ e ∈ block, e.valid = true → e.stamp = time (lineOf setCount s e)
  sorted : r.Pairwise fun a b => time b < time a

theorem validLines_cons (e : Entry) (block : List Entry) :
    validLines setCount s (e :: block) =
      if e.valid then lineOf setCount s e :: validLines setCount s block
      else validLines setCount s block := by
  rw [validLines, List.filter_cons]
  split <;> rfl

theorem mem_validLines {block : List Entry} {line : ℕ} : line ∈ validLines setCount s block ↔
    ∃ e ∈ block, e.valid = true ∧ lineOf setCount s e = line := by
  simp only [validLines, List.mem_map, List.mem_filter, and_assoc]

theorem validLines_perm {block block' : List Entry} (h : block ~ block') :
    validLines setCount s block ~ validLines setCount s block' :=
  (h.filter _).map _

theorem Holds.nodup (h : Holds setCount ways s block r time) : r.Nodup := by
  refine h.sorted.imp ?_
  rintro a b hlt rfl
  exact lt_irrefl _ hlt

/-- An access puts its line into one entry, whose old line is the one that is given up. -/
theorem Holds.replace (h : Holds setCount ways s block r time) (hj : j < ways)
    (hvalid : e.valid = true) (hline : lineOf setCount s e = line) (hstamp : e.stamp = c)
    (hnew : line ∉ validLines setCount s (block.eraseIdx j))
    (htake : line :: validLines setCount s (block.eraseIdx j) ~ (touch line r).take ways)
    (hclock : ∀ other, time other < c) :
    Holds setCount ways s (block.set j e) (touch line r) (Function.update time line c) := by
  have hjlt : j < block.length := h.length_eq ▸ hj
  have hset : block.set j e ~ e :: block.eraseIdx j := List.set_perm_cons_eraseIdx hjlt e
  have herase : line ∉ r.erase line := h.nodup.not_mem_erase
  have hother : ∀ other ≠ line, Function.update time line c other = time other := fun other hne =>
    Function.update_of_ne hne c time
  refine ⟨by rw [List.length_set, h.length_eq], ?_, ?_, ?_⟩
  · refine (validLines_perm hset).trans ?_
    rw [validLines_cons, if_pos hvalid, hline]
    exact htake
  · intro e' he' hvalid'
    rcases List.mem_cons.mp (hset.mem_iff.mp he') with rfl | hrest
    · rw [hline, Function.update_self, hstamp]
    · have hne : lineOf setCount s e' ≠ line := fun heq =>
        hnew (mem_validLines.mpr ⟨e', hrest, hvalid', heq⟩)
      rw [hother _ hne]
      exact h.stamps e' (List.mem_of_mem_eraseIdx hrest) hvalid'
  · refine List.pairwise_cons.mpr ⟨?_, ?_⟩
    · intro other hmem
      rw [Function.update_self, hother _ (ne_of_mem_of_not_mem hmem herase)]
      exact hclock other
    · refine (h.sorted.sublist List.erase_sublist).imp_of_mem ?_
      intro a b ha hb hlt
      rw [hother _ (ne_of_mem_of_not_mem ha herase), hother _ (ne_of_mem_of_not_mem hb herase)]
      exact hlt

/-- A hit renews the stamp of an entry that stays. -/
theorem Holds.hit (h : Holds setCount ways s block r time) (hj : j < block.length)
    (hvalid : block[j].valid = true) (hline : lineOf setCount s block[j] = line)
    (hclock : ∀ other, time other < c) :
    Holds setCount ways s (block.set j { block[j] with stamp := c }) (touch line r)
      (Function.update time line c) := by
  have hsplit : validLines setCount s block ~
      line :: validLines setCount s (block.eraseIdx j) := by
    refine (validLines_perm (List.getElem_cons_eraseIdx_perm hj).symm).trans ?_
    rw [validLines_cons, if_pos hvalid, hline]
  have htake := hsplit.symm.trans h.lines
  have hmem : line ∈ r.take ways := htake.mem_iff.mp List.mem_cons_self
  have hnodup := htake.nodup_iff.mpr (h.nodup.sublist (List.take_sublist _ _))
  exact h.replace (h.length_eq ▸ hj) hvalid hline rfl (List.nodup_cons.mp hnodup).1
    (htake.trans (take_touch_of_mem hmem).symm) hclock

/-- A miss takes an invalid entry, where there is one. -/
theorem Holds.fill (h : Holds setCount ways s block r time) (hj : j < block.length)
    (hinvalid : block[j].valid = false) (hmiss : line ∉ r.take ways) (hvalid : e.valid = true)
    (hline : lineOf setCount s e = line) (hstamp : e.stamp = c)
    (hclock : ∀ other, time other < c) :
    Holds setCount ways s (block.set j e) (touch line r) (Function.update time line c) := by
  have hsplit : validLines setCount s block ~ validLines setCount s (block.eraseIdx j) := by
    refine (validLines_perm (List.getElem_cons_eraseIdx_perm hj).symm).trans ?_
    rw [validLines_cons, if_neg (by rw [hinvalid]; decide)]
  have hrest := hsplit.symm.trans h.lines
  have hshort : (r.take ways).length < ways := by
    have hle : (validLines setCount s (block.eraseIdx j)).length ≤ (block.eraseIdx j).length := by
      rw [validLines, List.length_map]
      exact List.length_filter_le _ _
    rw [List.length_eraseIdx_of_lt hj, h.length_eq] at hle
    rw [← hrest.length_eq]
    have := h.length_eq
    omega
  have hall : r.take ways = r := by
    rw [List.length_take] at hshort
    exact List.take_of_length_le (by omega)
  rw [hall] at hmiss hrest hshort
  refine h.replace (h.length_eq ▸ hj) hvalid hline hstamp (fun hmem => hmiss (hrest.mem_iff.mp hmem))
    ?_ hclock
  rw [touch, List.erase_of_not_mem hmiss, List.take_of_length_le (by rw [List.length_cons]; omega)]
  exact hrest.cons line

/-- A miss in a full set takes the entry with the least stamp. -/
theorem Holds.evict (h : Holds setCount ways s block r time) (hj : j < block.length)
    (hfull : ∀ e ∈ block, e.valid = true ∧ block[j].stamp ≤ e.stamp) (hmiss : line ∉ r.take ways)
    (hvalid : e.valid = true) (hline : lineOf setCount s e = line) (hstamp : e.stamp = c)
    (hclock : ∀ other, time other < c) :
    Holds setCount ways s (block.set j e) (touch line r) (Function.update time line c) := by
  obtain ⟨w, rfl⟩ : ∃ w, ways = w + 1 := by
    have := h.length_eq
    exact ⟨ways - 1, by omega⟩
  have hold := hfull _ (List.getElem_mem hj)
  have hsplit : validLines setCount s block ~
      lineOf setCount s block[j] :: validLines setCount s (block.eraseIdx j) := by
    refine (validLines_perm (List.getElem_cons_eraseIdx_perm hj).symm).trans ?_
    rw [validLines_cons, if_pos hold.1]
  have hlong : w < r.length := by
    have hall : block.filter (·.valid) = block :=
      List.filter_eq_self.mpr fun e he => (hfull e he).1
    have hcount := h.lines.length_eq
    rw [validLines, hall, List.length_map, h.length_eq, List.length_take] at hcount
    omega
  have hlast : r.take (w + 1) = r.take w ++ [r[w]] := List.take_succ_eq_append_getElem hlong
  -- the last line of the recency list is the one with the least time
  have hvictim : lineOf setCount s block[j] = r[w] := by
    have hmem : r[w] ∈ validLines setCount s block := by
      rw [h.lines.mem_iff, hlast]
      exact List.mem_append_right _ List.mem_cons_self
    obtain ⟨e', he', hvalid', hline'⟩ := mem_validLines.mp hmem
    have hle := (hfull e' he').2
    rw [h.stamps _ (List.getElem_mem hj) hold.1, h.stamps e' he' hvalid', hline'] at hle
    have hin : lineOf setCount s block[j] ∈ r.take w ++ [r[w]] := by
      rw [← hlast, ← h.lines.mem_iff, mem_validLines]
      exact ⟨_, List.getElem_mem hj, hold.1, rfl⟩
    rcases List.mem_append.mp hin with hfirst | hlast'
    · have hsorted := h.sorted.sublist (List.take_sublist (w + 1) r)
      rw [hlast, List.pairwise_append] at hsorted
      exact absurd (hsorted.2.2 _ hfirst _ List.mem_cons_self) (by omega)
    · exact List.mem_singleton.mp hlast'
  have hrest : validLines setCount s (block.eraseIdx j) ~ r.take w := by
    have hperm := hsplit.symm.trans h.lines
    rw [hlast, hvictim] at hperm
    exact (List.perm_cons _).mp (hperm.trans List.perm_append_comm)
  refine h.replace (h.length_eq ▸ hj) hvalid hline hstamp ?_ ?_ hclock
  · intro hmem
    exact hmiss (List.take_subset_take_left r (Nat.le_succ w) (hrest.mem_iff.mp hmem))
  · rw [take_touch_of_not_mem hmiss]
    exact hrest.cons line

/-- Accesses to other sets change neither the entries of a set nor the times of its lines. -/
theorem Holds.frame (h : Holds setCount ways s block r time) (hs : s < setCount)
    (hr : ∀ other ∈ r, other % setCount = s) (hline : line % setCount ≠ s) :
    Holds setCount ways s block r (Function.update time line c) := by
  have hother : ∀ other, other % setCount = s → Function.update time line c other = time other := by
    intro other hmod
    refine Function.update_of_ne ?_ c time
    rintro rfl
    exact hline hmod
  refine ⟨h.length_eq, h.lines, ?_, ?_⟩
  · intro e he hvalid
    have hmod : lineOf setCount s e % setCount = s := by
      rw [lineOf, Nat.mul_add_mod_self_right, Nat.mod_eq_of_lt hs]
    rw [hother _ hmod]
    exact h.stamps e he hvalid
  · refine h.sorted.imp_of_mem ?_
    intro a b ha hb hlt
    rw [hother _ (hr a ha), hother _ (hr b hb)]
    exact hlt

/-! The whole cache. -/

/-- The entries of a set. -/
def setBlock (ways : ℕ) (cache : Cache) (s : ℕ) : List Entry :=
  (cache.entries.drop (s * ways)).take ways

/-- The accesses to a set. -/
def setHistory (setCount s : ℕ) (lines : List ℕ) : List ℕ :=
  lines.filter fun line => line % setCount = s

/-- A cache after a history of accesses. -/
structure Exact (setCount ways : ℕ) (cache : Cache) (before : List ℕ) : Prop where
  clock_eq : cache.clockValue = before.length
  size_eq : cache.entries.length = setCount * ways
  sets : ∃ time : ℕ → ℕ, (∀ line, time line ≤ before.length) ∧ ∀ s < setCount,
    Holds setCount ways s (setBlock ways cache s) (recency (setHistory setCount s before)) time

theorem mul_add_lt (hs : s < setCount) (hj : j < ways) : s * ways + j < setCount * ways := by
  have hle : (s + 1) * ways ≤ setCount * ways := Nat.mul_le_mul_right ways hs
  rw [Nat.succ_mul] at hle
  omega

theorem getElem?_setBlock (hj : j < ways) (cache : Cache) (s : ℕ) :
    (setBlock ways cache s)[j]? = cache.entries[s * ways + j]? := by
  rw [setBlock, List.getElem?_take_of_lt hj, List.getElem?_drop]

theorem setBlock_at (hsize : cache.entries.length = setCount * ways) (hs : s < setCount)
    (hj : j < ways) :
    ∃ h : j < (setBlock ways cache s).length,
      (setBlock ways cache s)[j] = cache.at (s * ways + j) := by
  have hlt := mul_add_lt hs hj
  rw [← hsize] at hlt
  have hget := getElem?_setBlock hj cache s
  rw [List.getElem?_eq_getElem hlt, List.getElem?_eq_some_iff] at hget
  obtain ⟨h, hget⟩ := hget
  refine ⟨h, ?_⟩
  rw [hget, Cache.at, List.getD_eq_getElem?_getD, List.getElem?_eq_getElem hlt, Option.getD_some]

/-- Writing one entry of a set changes the block of this set only. -/
theorem setBlock_set (hj : j < ways) (cache : Cache) (e : Entry) (clockValue s t : ℕ) :
    setBlock ways ⟨cache.entries.set (s * ways + j) e, clockValue⟩ t =
      if t = s then (setBlock ways cache s).set j e else setBlock ways cache t := by
  rw [setBlock, List.drop_set]
  rcases lt_trichotomy t s with hlt | rfl | hgt
  · have hle : (t + 1) * ways ≤ s * ways := Nat.mul_le_mul_right ways hlt
    rw [Nat.succ_mul] at hle
    rw [if_neg (by omega), List.take_set, List.set_eq_of_length_le, if_neg hlt.ne]
    · rfl
    · rw [List.length_take]
      omega
  · rw [if_neg (by omega), List.take_set, Nat.add_sub_cancel_left, if_pos rfl]
    rfl
  · have hle : (s + 1) * ways ≤ t * ways := Nat.mul_le_mul_right ways hgt
    rw [Nat.succ_mul] at hle
    rw [if_pos (by omega), if_neg hgt.ne']
    rfl

theorem exact_emptyCache (setCount ways : ℕ) :
    Exact setCount ways (emptyCache setCount ways) [] := by
  refine ⟨rfl, List.length_replicate, fun _ => 0, fun _ => le_rfl, ?_⟩
  intro s hs
  have hinvalid : ∀ e ∈ setBlock ways (emptyCache setCount ways) s, e = {} := by
    intro e he
    exact List.eq_of_mem_replicate (List.mem_of_mem_drop (List.mem_of_mem_take he))
  have hle : (s + 1) * ways ≤ setCount * ways := Nat.mul_le_mul_right ways hs
  rw [Nat.succ_mul] at hle
  refine ⟨?_, ?_, ?_, List.Pairwise.nil⟩
  · rw [setBlock, emptyCache, List.length_take, List.length_drop, List.length_replicate]
    omega
  · have hnone : validLines setCount s (setBlock ways (emptyCache setCount ways) s) = [] := by
      rw [List.eq_nil_iff_forall_not_mem]
      intro line hline
      obtain ⟨e, he, hvalid, -⟩ := mem_validLines.mp hline
      rw [hinvalid e he] at hvalid
      cases hvalid
    rw [hnone, setHistory, List.filter_nil, recency, List.foldl_nil, List.take_nil]
  · intro e he hvalid
    rw [hinvalid e he] at hvalid
    cases hvalid

theorem setHistory_concat (setCount s : ℕ) (before : List ℕ) (line : ℕ) :
    setHistory setCount s (before ++ [line]) =
      if line % setCount = s then setHistory setCount s before ++ [line]
      else setHistory setCount s before := by
  rw [setHistory, List.filter_append, List.filter_singleton]
  by_cases h : line % setCount = s
  · rw [if_pos h, decide_eq_true h]
    rfl
  · rw [if_neg h, decide_eq_false h, cond_false, List.append_nil]
    rfl

/-- What the caller of a step has to show about the set of the accessed line. -/
theorem Exact.write {before : List ℕ} (h : Exact setCount ways cache before)
    (hj : j < ways)
    (hset : ∀ time, (∀ other, time other < before.length + 1) →
      Holds setCount ways (line % setCount) (setBlock ways cache (line % setCount))
        (recency (setHistory setCount (line % setCount) before)) time →
      Holds setCount ways (line % setCount) ((setBlock ways cache (line % setCount)).set j e)
        (touch line (recency (setHistory setCount (line % setCount) before)))
        (Function.update time line (before.length + 1))) :
    Exact setCount ways ⟨cache.entries.set (line % setCount * ways + j) e, before.length + 1⟩
      (before ++ [line]) := by
  obtain ⟨time, htime, hholds⟩ := h.sets
  have hlen : (before ++ [line]).length = before.length + 1 := List.length_append
  refine ⟨hlen.symm, by rw [List.length_set, h.size_eq],
    Function.update time line (before.length + 1), ?_, ?_⟩
  · intro other
    rw [hlen]
    by_cases heq : other = line
    · rw [heq, Function.update_self]
    · rw [Function.update_of_ne heq]
      exact (htime other).trans (Nat.le_succ _)
  · intro s hs
    rw [setBlock_set hj, setHistory_concat]
    by_cases hmod : line % setCount = s
    · subst hmod
      rw [if_pos rfl, if_pos rfl, recency_concat]
      exact hset time (fun other => Nat.lt_succ_of_le (htime other)) (hholds _ hs)
    · rw [if_neg (Ne.symm hmod), if_neg hmod]
      refine (hholds s hs).frame hs ?_ hmod
      intro other hother
      rw [mem_recency, setHistory, List.mem_filter] at hother
      exact of_decide_eq_true hother.2

theorem lineOf_eq_iff (hsets : 0 < setCount) :
    lineOf setCount (line % setCount) e = line ↔ e.tag = line / setCount := by
  have hsplit := Nat.div_add_mod' line setCount
  rw [lineOf]
  constructor
  · intro h
    have hmul : e.tag * setCount = line / setCount * setCount := by omega
    exact Nat.eq_of_mul_eq_mul_right hsets hmul
  · intro h
    rw [h, hsplit]

theorem Exact.set_lines {before : List ℕ} (h : Exact setCount ways cache before)
    (hs : s < setCount) :
    validLines setCount s (setBlock ways cache s) ~
      (recency (setHistory setCount s before)).take ways := by
  obtain ⟨time, -, hholds⟩ := h.sets
  exact (hholds s hs).lines

theorem Exact.getElem_setBlock {before : List ℕ} (h : Exact setCount ways cache before)
    (hs : s < setCount) (hj : j < (setBlock ways cache s).length) :
    j < ways ∧ (setBlock ways cache s)[j] = cache.at (s * ways + j) := by
  have hjways : j < ways := hj.trans_le (List.length_take_le _ _)
  obtain ⟨_, hat⟩ := setBlock_at h.size_eq hs hjways
  exact ⟨hjways, hat⟩

theorem Exact.not_mem_of_findHit {before : List ℕ} (h : Exact setCount ways cache before)
    (hsets : 0 < setCount)
    (hfind : findHit cache (line / setCount) (line % setCount * ways) ways = none) :
    line ∉ (recency (setHistory setCount (line % setCount) before)).take ways := by
  have hs : line % setCount < setCount := Nat.mod_lt line hsets
  rw [← (h.set_lines hs).mem_iff, mem_validLines]
  rintro ⟨e, he, hvalid, hline⟩
  obtain ⟨j, hj, rfl⟩ := List.getElem_of_mem he
  obtain ⟨hjways, hat⟩ := h.getElem_setBlock hs hj
  rw [hat] at hvalid hline
  exact findHit_none hfind _ (Nat.le_add_right _ _) (by omega)
    ⟨hvalid, (lineOf_eq_iff hsets).mp hline⟩

/-- The victim is an invalid entry, or the one whose line was accessed least recently. -/
theorem Exact.write_victim {before : List ℕ} (h : Exact setCount ways cache before)
    (hsets : 0 < setCount) (hways : 0 < ways)
    (hmiss : line ∉ (recency (setHistory setCount (line % setCount) before)).take ways) :
    Exact setCount ways
      ⟨cache.entries.set
        (findVictim cache (line % setCount * ways) (line % setCount * ways) ways)
        { tag := line / setCount, stamp := before.length + 1, valid := true },
      before.length + 1⟩ (before ++ [line]) := by
  have hs : line % setCount < setCount := Nat.mod_lt line hsets
  have hline : lineOf setCount (line % setCount)
      { tag := line / setCount, stamp := before.length + 1, valid := true } = line :=
    (lineOf_eq_iff hsets).mpr rfl
  have hvictim := findVictim_spec cache (line % setCount * ways) (line % setCount * ways) ways
  generalize findVictim cache (line % setCount * ways) (line % setCount * ways) ways = victim
    at hvictim ⊢
  rcases hvictim with ⟨hlow, hhigh, hinvalid⟩ | ⟨hwhere, -, hall⟩
  · obtain ⟨j, rfl⟩ := Nat.exists_eq_add_of_le hlow
    obtain ⟨hj, hat⟩ := setBlock_at h.size_eq hs (show j < ways by omega)
    rw [← hat] at hinvalid
    exact h.write (by omega) fun time htime hholds =>
      hholds.fill hj hinvalid hmiss rfl hline rfl htime
  · obtain ⟨j, rfl⟩ : ∃ j, victim = line % setCount * ways + j :=
      Nat.exists_eq_add_of_le (by omega)
    obtain ⟨hj, hat⟩ := setBlock_at h.size_eq hs (show j < ways by omega)
    have hfull : ∀ e ∈ setBlock ways cache (line % setCount), e.valid = true ∧
        (setBlock ways cache (line % setCount))[j].stamp ≤ e.stamp := by
      intro e he
      obtain ⟨k, hk, rfl⟩ := List.getElem_of_mem he
      obtain ⟨hkways, hatk⟩ := h.getElem_setBlock hs hk
      rw [hat, hatk]
      exact hall _ (Nat.le_add_right _ _) (by omega)
    exact h.write (by omega) fun time htime hholds =>
      hholds.evict hj hfull hmiss rfl hline rfl htime

/-- A call returns false for the lines that the set holds, and leaves the cache exact. -/
theorem cacheMiss_exact {before : List ℕ} (h : Exact setCount ways cache before)
    (hsets : 0 < setCount) (hways : 0 < ways) (hlen : before.length + 1 < 2 ^ 64) :
    ((cacheMiss setCount ways cache line).1 = false ↔
      line ∈ (recency (setHistory setCount (line % setCount) before)).take ways) ∧
    Exact setCount ways (cacheMiss setCount ways cache line).2 (before ++ [line]) := by
  have hs : line % setCount < setCount := Nat.mod_lt line hsets
  have hclock : (cache.clockValue + 1) % 2 ^ 64 = before.length + 1 := by
    rw [h.clock_eq, Nat.mod_eq_of_lt hlen]
  rw [cacheMiss, hclock]
  cases hfind : findHit cache (line / setCount) (line % setCount * ways) ways with
  | some i =>
    obtain ⟨hlow, hhigh, hvalid, htag⟩ := findHit_some hfind
    obtain ⟨j, rfl⟩ := Nat.exists_eq_add_of_le hlow
    obtain ⟨hj, hat⟩ := setBlock_at h.size_eq hs (show j < ways by omega)
    dsimp only
    rw [← hat] at hvalid htag ⊢
    have hline := (lineOf_eq_iff hsets).mpr htag
    refine ⟨iff_of_true rfl ?_, ?_⟩
    · rw [← (h.set_lines hs).mem_iff, mem_validLines]
      exact ⟨_, List.getElem_mem hj, hvalid, hline⟩
    · exact h.write (by omega) fun time htime hholds => hholds.hit hj hvalid hline htime
  | none =>
    have hmiss := h.not_mem_of_findHit hsets hfind
    exact ⟨iff_of_false Bool.noConfusion hmiss, h.write_victim hsets hways hmiss⟩

/-! Runs. -/

theorem after_concat (setCount ways : ℕ) (lines : List ℕ) (line : ℕ) :
    after setCount ways (lines ++ [line]) =
      (cacheMiss setCount ways (after setCount ways lines) line).2 := by
  rw [after, List.foldl_append]
  rfl

/-- Fewer than `2 ^ 64` accesses leave the cache exact. -/
theorem exact_after (hsets : 0 < setCount) (hways : 0 < ways) (hlen : lines.length < 2 ^ 64) :
    Exact setCount ways (after setCount ways lines) lines := by
  induction lines using List.reverseRecOn with
  | nil => exact exact_emptyCache setCount ways
  | append_singleton lines line ih =>
    rw [List.length_append, List.length_singleton] at hlen
    rw [after_concat]
    exact (cacheMiss_exact (ih (by omega)) hsets hways hlen).2

theorem getElem?_calls (cache : Cache) (lines : List ℕ) (n : ℕ) :
    (calls setCount ways cache lines)[n]? = (lines[n]?).map fun line =>
      (cacheMiss setCount ways ((lines.take n).foldl
        (fun cache line => (cacheMiss setCount ways cache line).2) cache) line).1 := by
  induction lines generalizing cache n with
  | nil => rfl
  | cons line lines ih =>
    cases n with
    | zero => rfl
    | succ n => exact ih _ n

/-- The line has been accessed, and since its last access fewer than `ways` distinct other
lines of its set. -/
def ReusedWithin (setCount ways : ℕ) (before : List ℕ) (line : ℕ) : Prop :=
  ∃ earlier since, before = earlier ++ line :: since ∧ line ∉ since ∧
    (since.toFinset.filter fun other => other % setCount = line % setCount).card < ways

theorem reusedWithin_iff {before : List ℕ} : ReusedWithin setCount ways before line ↔
    line ∈ (recency (setHistory setCount (line % setCount) before)).take ways := by
  have hsince : ∀ earlier since, line ∉ since →
      (line ∈ (recency (setHistory setCount (line % setCount) (earlier ++ line :: since))).take ways ↔
        (since.toFinset.filter fun other => other % setCount = line % setCount).card < ways) := by
    intro earlier since hnot
    have hnot' : line ∉ since.filter fun other => other % setCount = line % setCount :=
      fun hmem => hnot (List.mem_of_mem_filter hmem)
    rw [setHistory, List.filter_append, List.filter_cons_of_pos (by simp),
      mem_take_recency hnot', List.toFinset_filter]
    simp only [decide_eq_true_eq]
  constructor
  · rintro ⟨earlier, since, rfl, hnot, hfew⟩
    exact (hsince earlier since hnot).mpr hfew
  · intro hmem
    have hline : line ∈ before :=
      List.mem_of_mem_filter (mem_recency.mp (List.mem_of_mem_take hmem))
    obtain ⟨earlier, since, rfl, hnot⟩ := exists_last hline
    exact ⟨earlier, since, rfl, hnot, (hsince earlier since hnot).mp hmem⟩

/-- The simulated cache is a least-recently-used cache. -/
theorem calls_exact {setCount ways : ℕ} (hsets : 1 ≤ setCount) (hways : 1 ≤ ways) {lines : List ℕ}
    (hlen : lines.length < 2 ^ 64) {n : ℕ} (hn : n < lines.length) :
    (calls setCount ways (emptyCache setCount ways) lines)[n]? = some false ↔
      ReusedWithin setCount ways (lines.take n) lines[n] := by
  have htake : (lines.take n).length = n := List.length_take_of_le hn.le
  have hexact := @exact_after setCount ways (lines.take n) hsets hways (by omega)
  rw [getElem?_calls, List.getElem?_eq_getElem hn, Option.map_some, Option.some_inj,
    reusedWithin_iff]
  exact (cacheMiss_exact hexact hsets hways (by omega)).1

/-- In a cache of two sets with two ways, lines 0, 2 and 4 share a set. -/
theorem calls_exact_two_ways :
    (calls 2 2 (emptyCache 2 2) [0, 2, 1, 0, 4, 2])[3]? = some false ↔
      ReusedWithin 2 2 [0, 2, 1] 0 :=
  calls_exact (by decide) (by decide) (by decide) (show 3 < [0, 2, 1, 0, 4, 2].length by decide)

example : calls 2 2 (emptyCache 2 2) [0, 2, 1, 0, 4, 2] = [true, true, true, false, true, true] := by
  decide

end CachelineTrace
