import Mathlib.Data.Finset.Card
import Mathlib.Data.List.Dedup

/-! Recency lists: what a history of accesses leaves, the most recent first. A cache with
least-recently-used replacement holds a beginning of its recency list. -/
namespace Recency

open scoped List

variable {α : Type*} [DecidableEq α] {x y : α} {l r since earlier : List α} {w : ℕ}

def touch (x : α) (l : List α) : List α := x :: l.erase x

/-- The distinct elements of a history, the most recent first. -/
def recency (l : List α) : List α := l.foldl (fun r x => touch x r) []

theorem recency_concat (l : List α) (x : α) : recency (l ++ [x]) = touch x (recency l) := by
  rw [recency, List.foldl_append]
  rfl

theorem mem_touch : y ∈ touch x r ↔ y = x ∨ y ∈ r := by
  rw [touch, List.mem_cons]
  by_cases h : y = x
  · simp [h]
  · simp [h, List.mem_erase_of_ne h]

theorem nodup_touch (x : α) (h : r.Nodup) : (touch x r).Nodup :=
  List.nodup_cons.mpr ⟨h.not_mem_erase, h.erase x⟩

theorem mem_recency : y ∈ recency l ↔ y ∈ l := by
  induction l using List.reverseRecOn with
  | nil => rfl
  | append_singleton l x ih =>
    rw [recency_concat, mem_touch, ih, List.mem_append, List.mem_singleton, or_comm]

theorem nodup_recency (l : List α) : (recency l).Nodup := by
  induction l using List.reverseRecOn with
  | nil => exact List.nodup_nil
  | append_singleton l x ih =>
    rw [recency_concat]
    exact nodup_touch x ih

theorem length_recency (l : List α) : (recency l).length = l.toFinset.card := by
  rw [← List.toFinset_card_of_nodup (nodup_recency l)]
  congr 1
  ext y
  rw [List.mem_toFinset, List.mem_toFinset, mem_recency]

/-- What was accessed since stands before an element. -/
theorem recency_append (hx : x ∉ since) :
    ∃ older, recency (earlier ++ x :: since) = recency since ++ x :: older := by
  induction since using List.reverseRecOn with
  | nil => exact ⟨_, recency_concat earlier x⟩
  | append_singleton since y ih =>
    rw [List.mem_append, List.mem_singleton, not_or] at hx
    obtain ⟨older, ih⟩ := ih hx.1
    have hhistory : earlier ++ x :: (since ++ [y]) = earlier ++ x :: since ++ [y] := by
      rw [List.append_assoc, List.cons_append]
    rw [hhistory, recency_concat, recency_concat, ih, touch, touch]
    by_cases hy : y ∈ recency since
    · refine ⟨older, ?_⟩
      rw [List.erase_append_left _ hy, List.cons_append]
    · refine ⟨older.erase y, ?_⟩
      rw [List.erase_append_right _ hy, List.erase_of_not_mem hy,
        List.erase_cons_tail (by simpa using hx.2), List.cons_append]

/-- An element is among the first ones if few others have been accessed since. -/
theorem mem_take_recency (hx : x ∉ since) :
    x ∈ (recency (earlier ++ x :: since)).take w ↔ since.toFinset.card < w := by
  obtain ⟨older, hr⟩ := @recency_append α _ x since earlier hx
  have hfirst : x ∉ recency since := fun h => hx (mem_recency.mp h)
  rw [hr, ← length_recency, List.take_append, List.mem_append]
  constructor
  · rintro (h | h)
    · exact absurd (List.mem_of_mem_take h) hfirst
    · by_contra hle
      rw [Nat.sub_eq_zero_of_le (by omega), List.take_zero] at h
      cases h
  · intro hlt
    obtain ⟨k, hk⟩ := Nat.exists_eq_add_of_lt hlt
    rw [hk, show (recency since).length + k + 1 - (recency since).length = k + 1 by omega]
    exact Or.inr List.mem_cons_self

omit [DecidableEq α] in
/-- Every element of a history has a last occurrence. -/
theorem exists_last (h : x ∈ l) : ∃ earlier since, l = earlier ++ x :: since ∧ x ∉ since := by
  obtain ⟨since, earlier, hl, hx⟩ := List.eq_append_cons_of_mem (List.mem_reverse.mpr h)
  refine ⟨earlier.reverse, since.reverse, ?_, fun hmem => hx (List.mem_reverse.mp hmem)⟩
  rw [← l.reverse_reverse, hl, List.reverse_append, List.reverse_cons, List.append_assoc,
    List.singleton_append]

/-! What a cache of `w` elements holds. -/

/-- An access to a held element evicts nothing. -/
theorem take_touch_of_mem (hx : x ∈ r.take w) : (touch x r).take w ~ r.take w := by
  have hlen : (x :: (r.take w).erase x).length = (r.take w).length := by
    rw [List.length_cons, List.length_erase_of_mem hx]
    have := List.length_pos_of_mem hx
    omega
  have htouch : touch x r = (x :: (r.take w).erase x) ++ r.drop w := by
    nth_rewrite 1 [touch, ← List.take_append_drop w r, List.erase_append_left _ hx]
    rfl
  have htake : (touch x r).take w = x :: (r.take w).erase x := by
    rcases Nat.lt_or_ge r.length w with hlt | hge
    · rw [htouch, List.drop_of_length_le hlt.le, List.append_nil, List.take_of_length_le]
      rw [hlen, List.length_take]
      omega
    · rw [htouch, List.take_left']
      rw [hlen, List.length_take_of_le hge]
  rw [htake]
  exact (List.perm_cons_erase hx).symm

/-- Any other access evicts what stood last. -/
theorem take_touch_of_not_mem (hx : x ∉ r.take (w + 1)) :
    (touch x r).take (w + 1) = x :: r.take w := by
  have hfirst : x ∉ r.take w := fun h =>
    hx (List.take_subset_take_left r (Nat.le_succ w) h)
  rw [touch, List.take_succ_cons, ← List.take_append_drop w r, List.erase_append_right _ hfirst,
    List.take_append_drop]
  rcases Nat.lt_or_ge r.length w with hlt | hge
  · rw [List.drop_of_length_le hlt.le, List.erase_nil, List.append_nil, List.take_take,
      Nat.min_self]
  · rw [List.take_left' (List.length_take_of_le hge)]

end Recency
