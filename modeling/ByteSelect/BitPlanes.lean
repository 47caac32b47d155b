import ByteSelect.Widths
import Mathlib.Data.List.GetD

/-! Bit planes: the transposed bits of words. -/
namespace BitPlanes

variable {w w' : ℕ}

/-- Collects one bit of each of the first `n` rows, row `i` at position `i`. -/
def gather (rows : List (BitVec w)) (n bit : ℕ) : BitVec w :=
  (List.range n).foldl (fun plane i => plane ||| ((rows.getD i 0 >>> bit) &&& 1) <<< i) 0

/-- One bit, moved to another position. -/
theorem getLsbD_moved (row : BitVec w) (bit i k : ℕ) :
    (((row >>> bit) &&& 1) <<< i).getLsbD k = (decide (k < w ∧ k = i) && row.getLsbD bit) := by
  have hone : ∀ j, (1 : BitVec w).getLsbD j = decide (0 < w ∧ j = 0) := by
    intro j
    change (1#w).getLsbD j = _
    rw [BitVec.getLsbD_one, ← Bool.decide_and]
  rw [BitVec.getLsbD_shiftLeft, BitVec.getLsbD_and, BitVec.getLsbD_ushiftRight, hone]
  by_cases hk : k < w
  · rcases Nat.lt_trichotomy k i with hlt | rfl | hlt
    · have hne : k ≠ i := by omega
      simp [hlt, hne]
    · simp [hk, Nat.zero_lt_of_lt hk]
    · have hne : k ≠ i := by omega
      have hsub : k - i ≠ 0 := by omega
      simp [hne, hsub]
  · simp [hk]

/-- Bits of any rows, collected one after the other. -/
theorem getLsbD_collect (row : ℕ → BitVec w) (bit : ℕ → ℕ) (n k : ℕ) :
    ((List.range n).foldl (fun plane i => plane ||| ((row i >>> bit i) &&& 1) <<< i)
      0).getLsbD k = (decide (k < w ∧ k < n) && (row k).getLsbD (bit k)) := by
  induction n with
  | zero => simp
  | succ n ih =>
    rw [List.range_succ, List.foldl_append, List.foldl_cons, List.foldl_nil, BitVec.getLsbD_or, ih,
      getLsbD_moved]
    by_cases hkn : k = n
    · subst hkn
      simp
    · have hiff : k < n + 1 ↔ k < n := by omega
      simp [hkn, hiff]

theorem getLsbD_gather (rows : List (BitVec w)) (n bit k : ℕ) :
    (gather rows n bit).getLsbD k = (decide (k < w ∧ k < n) && (rows.getD k 0).getLsbD bit) :=
  getLsbD_collect (fun i => rows.getD i 0) (fun _ => bit) n k

/-- A plane of few rows is small. -/
theorem gather_lt (rows : List (BitVec w)) {n : ℕ} (bit : ℕ) :
    (gather rows n bit).toNat < 2 ^ n := by
  apply Nat.lt_pow_two_of_testBit
  intro k hk
  have hbit := getLsbD_gather rows n bit k
  rw [decide_eq_false (by omega), Bool.false_and] at hbit
  exact hbit

/-- Transposing twice gives the rows back. -/
theorem gather_planes (rows : List (BitVec w)) {n i : ℕ} (hn : i < n) (hw : i < w) :
    gather ((List.range w).map (gather rows n)) w i = rows.getD i 0 := by
  apply BitVec.eq_of_getLsbD_eq
  intro k hk
  have hplane : ((List.range w).map (gather rows n)).getD k 0 = gather rows n k := by
    rw [List.getD_eq_getElem _ _ (by simpa using hk), List.getElem_map, List.getElem_range]
  rw [getLsbD_gather, hplane, getLsbD_gather]
  simp [hk, hn, hw]

/-- Loops that go through the planes, and for each plane through the rows. -/
theorem foldl_mapIdx {α : Type*} (f : ℕ → ℕ → α → α) (n : ℕ) (l : List α) :
    (List.range n).foldl (fun rows bit => rows.mapIdx (f bit)) l =
      l.mapIdx fun i row => (List.range n).foldl (fun row bit => f bit i row) row := by
  induction n with
  | zero => exact (List.mapIdx_eq_iff.mpr fun i => by simp).symm
  | succ n ih =>
    rw [List.range_succ, List.foldl_append, ih, List.foldl_cons, List.foldl_nil, List.mapIdx_mapIdx]
    congr 1
    funext i row
    simp

end BitPlanes
