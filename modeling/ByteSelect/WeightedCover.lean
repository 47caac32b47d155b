import Mathlib.Algebra.BigOperators.Group.List.Basic
import Mathlib.Algebra.Order.BigOperators.Group.List
import Mathlib.Data.List.Perm.Basic
import Mathlib.Tactic.Ring
import Mathlib.Tactic.Linarith

/-! Covering weighted atoms one set at a time: each set gains what was left uncovered. -/
namespace WeightedCover

variable {α : Type*} {atoms atoms' : List (α × ℕ)} {covers c d : α → Bool}
  {cs : List (α → Bool)}

def weight (atoms : List (α × ℕ)) : ℕ := (atoms.map Prod.snd).sum

/-- The total weight of the atoms a set covers. -/
def gain (covers : α → Bool) (atoms : List (α × ℕ)) : ℕ :=
  weight (atoms.filter fun x => covers x.1)

/-- The atoms a set leaves uncovered. -/
def remove (covers : α → Bool) (atoms : List (α × ℕ)) : List (α × ℕ) :=
  atoms.filter fun x => !covers x.1

/-- What each of a sequence of sets gains over those before it. -/
def marginals : List (α → Bool) → List (α × ℕ) → List ℕ
  | [], _ => []
  | c :: cs, atoms => gain c atoms :: marginals cs (remove c atoms)

def removeAll (cs : List (α → Bool)) (atoms : List (α × ℕ)) : List (α × ℕ) :=
  cs.foldl (fun atoms c => remove c atoms) atoms

@[simp] theorem weight_nil : weight ([] : List (α × ℕ)) = 0 := rfl

@[simp] theorem weight_cons (x : α × ℕ) (atoms : List (α × ℕ)) :
    weight (x :: atoms) = x.2 + weight atoms := by
  simp [weight]

theorem gain_cons (x : α × ℕ) (atoms : List (α × ℕ)) :
    gain covers (x :: atoms) = (if covers x.1 then x.2 else 0) + gain covers atoms := by
  rw [gain, gain, List.filter_cons]
  split <;> simp

theorem weight_perm (h : atoms.Perm atoms') : weight atoms = weight atoms' :=
  (h.map Prod.snd).sum_eq

theorem gain_perm (h : atoms.Perm atoms') : gain covers atoms = gain covers atoms' :=
  weight_perm (h.filter _)

theorem weight_filter_le (p : α × ℕ → Bool) (atoms : List (α × ℕ)) :
    weight (atoms.filter p) ≤ weight atoms := by
  induction atoms with
  | nil => simp
  | cons x atoms ih =>
    rw [List.filter_cons]
    split
    · simp only [weight_cons]
      omega
    · simp only [weight_cons]
      omega

/-- A set splits the weight into its gain and what it leaves. -/
theorem gain_add_weight_remove (covers : α → Bool) (atoms : List (α × ℕ)) :
    gain covers atoms + weight (remove covers atoms) = weight atoms := by
  unfold gain remove
  induction atoms with
  | nil => simp
  | cons x atoms ih =>
    rw [List.filter_cons, List.filter_cons]
    cases h : covers x.1 <;> simp <;> omega

/-- Gains only shrink as atoms are removed. -/
theorem gain_remove_le : gain c (remove d atoms) ≤ gain c atoms := by
  unfold gain remove
  rw [List.filter_filter]
  have hsub : atoms.filter (fun x => c x.1 && !d x.1) =
      (atoms.filter fun x => c x.1).filter fun x => !d x.1 := by
    rw [List.filter_filter]
    congr 1
    funext x
    exact Bool.and_comm _ _
  rw [hsub]
  exact weight_filter_le _ _

theorem weight_remove_le : weight (remove d atoms) ≤ weight atoms := weight_filter_le _ atoms

@[simp] theorem removeAll_nil : removeAll [] atoms = atoms := rfl

theorem removeAll_append_singleton :
    removeAll (cs ++ [c]) atoms = remove c (removeAll cs atoms) := by
  simp [removeAll]

theorem marginals_append_singleton :
    marginals (cs ++ [c]) atoms = marginals cs atoms ++ [gain c (removeAll cs atoms)] := by
  induction cs generalizing atoms with
  | nil => rfl
  | cons d ds ih =>
    rw [List.cons_append, marginals, ih, marginals, List.cons_append]
    rfl

@[simp] theorem length_marginals : (marginals cs atoms).length = cs.length := by
  induction cs generalizing atoms with
  | nil => rfl
  | cons d ds ih => simp [marginals, ih]

/-- The marginals add up to the weight that is no longer uncovered. -/
theorem sum_marginals_add_weight (cs : List (α → Bool)) (atoms : List (α × ℕ)) :
    (marginals cs atoms).sum + weight (removeAll cs atoms) = weight atoms := by
  induction cs generalizing atoms with
  | nil => simp [marginals]
  | cons c cs ih =>
    have hsplit := gain_add_weight_remove c atoms
    have htail := ih (remove c atoms)
    have hall : removeAll (c :: cs) atoms = removeAll cs (remove c atoms) := rfl
    rw [marginals, List.sum_cons, hall]
    omega

/-- Removing set after set removes what any of them covers. -/
theorem removeAll_eq_remove : removeAll cs atoms = remove (fun a => cs.any fun c => c a) atoms := by
  induction cs generalizing atoms with
  | nil => simp [remove]
  | cons c cs ih =>
    have hall : removeAll (c :: cs) atoms = removeAll cs (remove c atoms) := rfl
    rw [hall, ih, remove, remove, remove, List.filter_filter]
    apply List.filter_congr
    intro x _
    simp [Bool.and_comm]

theorem sum_marginals (cs : List (α → Bool)) (atoms : List (α × ℕ)) :
    (marginals cs atoms).sum = gain (fun a => cs.any fun c => c a) atoms := by
  have hsum := sum_marginals_add_weight cs atoms
  have hsplit := gain_add_weight_remove (fun a => cs.any fun c => c a) atoms
  rw [removeAll_eq_remove] at hsum
  omega

theorem mem_removeAll {x : α × ℕ} :
    x ∈ removeAll cs atoms ↔ x ∈ atoms ∧ ∀ c ∈ cs, c x.1 = false := by
  rw [removeAll_eq_remove, remove, List.mem_filter]
  simp

/-- The `k`-th marginal weighs the atoms whose first covering set is the `k`-th. -/
theorem getElem?_marginals (cs : List (α → Bool)) (atoms : List (α × ℕ)) (k : ℕ) :
    (marginals cs atoms)[k]? = cs[k]?.map fun _ =>
      weight (atoms.filter fun x => cs.findIdx? (fun c => c x.1) == some k) := by
  induction cs generalizing atoms k with
  | nil => simp [marginals]
  | cons c cs ih =>
    rw [marginals]
    cases k with
    | zero =>
      simp only [List.getElem?_cons_zero, Option.map_some, gain]
      congr 3
      funext x
      cases hc : c x.1 <;> simp [List.findIdx?_cons, hc]
    | succ k =>
      rw [List.getElem?_cons_succ, List.getElem?_cons_succ, ih]
      congr 1
      funext _
      rw [remove, List.filter_filter]
      congr 2
      funext x
      cases hc : c x.1 <;> simp [List.findIdx?_cons, hc]

/-- A set that was chosen has nothing more to gain. -/
theorem gain_removeAll_of_mem (h : c ∈ cs) : gain c (removeAll cs atoms) = 0 := by
  have hnone : (removeAll cs atoms).filter (fun x => c x.1) = [] := by
    rw [List.filter_eq_nil_iff]
    intro x hx
    simp [(mem_removeAll.mp hx).2 c h]
  rw [gain, hnone, weight_nil]

theorem take_marginals (cs : List (α → Bool)) (atoms : List (α × ℕ)) (k : ℕ) :
    (marginals cs atoms).take k = marginals (cs.take k) atoms := by
  induction cs generalizing atoms k with
  | nil => simp [marginals]
  | cons c cs ih =>
    cases k with
    | zero => rfl
    | succ k => rw [marginals, List.take_succ_cons, List.take_succ_cons, marginals, ih]

/-! Greedy choices: no set of the family gains more than the chosen one. -/

section Greedy

variable {family : (α → Bool) → Prop} {sets : List (α → Bool)}

def Greedy (family : (α → Bool) → Prop) : List (α → Bool) → List (α × ℕ) → Prop
  | [], _ => True
  | c :: cs, atoms =>
    (∀ d, family d → gain d atoms ≤ gain c atoms) ∧ Greedy family cs (remove c atoms)

theorem greedy_append_singleton (h : Greedy family cs atoms)
    (hc : ∀ d, family d → gain d (removeAll cs atoms) ≤ gain c (removeAll cs atoms)) :
    Greedy family (cs ++ [c]) atoms := by
  induction cs generalizing atoms with
  | nil => exact ⟨hc, trivial⟩
  | cons d ds ih => exact ⟨h.1, ih h.2 hc⟩

theorem Greedy.take (h : Greedy family cs atoms) (k : ℕ) : Greedy family (cs.take k) atoms := by
  induction cs generalizing atoms k with
  | nil => simpa using h
  | cons c cs ih =>
    cases k with
    | zero => trivial
    | succ k => exact ⟨h.1, ih h.2 k⟩

theorem marginals_le {n : ℕ} (hcs : ∀ c ∈ cs, gain c atoms ≤ n) :
    ∀ m ∈ marginals cs atoms, m ≤ n := by
  induction cs generalizing atoms with
  | nil => simp [marginals]
  | cons c cs ih =>
    rw [List.forall_mem_cons] at hcs
    rw [marginals, List.forall_mem_cons]
    exact ⟨hcs.1, ih fun d hd => gain_remove_le.trans (hcs.2 d hd)⟩

/-- Greedy choices from one family gain less and less. -/
theorem Greedy.pairwise_marginals (h : Greedy family cs atoms) (hcs : ∀ c ∈ cs, family c) :
    (marginals cs atoms).Pairwise fun m m' => m' ≤ m := by
  induction cs generalizing atoms with
  | nil => exact .nil
  | cons c cs ih =>
    rw [List.forall_mem_cons] at hcs
    refine .cons (marginals_le ?_) (ih h.2 hcs.2)
    intro d hd
    exact gain_remove_le.trans (h.1 d (hcs.2 d hd))

theorem gain_or_le : gain (fun a => c a || d a) atoms ≤ gain c atoms + gain d atoms := by
  induction atoms with
  | nil => simp [gain]
  | cons x atoms ih =>
    rw [gain_cons, gain_cons, gain_cons]
    cases c x.1 <;> cases d x.1 <;> simp <;> omega

/-- Together some sets gain at most their number times the best single gain. -/
theorem gain_any_le {n : ℕ} (h : ∀ d ∈ sets, gain d atoms ≤ n) :
    gain (fun a => sets.any fun d => d a) atoms ≤ sets.length * n := by
  induction sets with
  | nil => simp [gain]
  | cons d sets ih =>
    rw [List.forall_mem_cons] at h
    have hor : gain (fun a => (d :: sets).any fun d => d a) atoms ≤
        gain d atoms + gain (fun a => sets.any fun d => d a) atoms := gain_or_le
    have htail := ih h.2
    rw [List.length_cons, Nat.succ_mul]
    omega

/-- Removing a set takes at most its own gain from another. -/
theorem gain_le_gain_remove_add : gain d atoms ≤ gain d (remove c atoms) + gain c atoms := by
  induction atoms with
  | nil => simp [gain]
  | cons x atoms ih =>
    rw [gain_cons, gain_cons, remove, List.filter_cons]
    cases hc : c x.1
    · simp only [Bool.not_false, if_true]
      rw [gain_cons]
      simp only [remove] at ih
      simp
      omega
    · simp only [Bool.not_true]
      simp only [remove] at ih
      split <;> simp <;> omega

/-- After `i` greedy choices the part of a competitor's gain still missing has shrunk by the
factor `(1 - 1/k)^i`, for a competitor made of at most `k = j + 1` sets. -/
theorem Greedy.bound {j n : ℕ} (h : Greedy family cs atoms) (hsets : ∀ d ∈ sets, family d)
    (hlen : sets.length ≤ j + 1) (hn : n ≤ gain (fun a => sets.any fun d => d a) atoms) :
    (j + 1) ^ cs.length * n ≤
      (j + 1) ^ cs.length * (marginals cs atoms).sum + j ^ cs.length * n := by
  induction cs generalizing atoms n with
  | nil => simp [marginals]
  | cons c cs ih =>
    have hshare : n ≤ (j + 1) * gain c atoms := by
      have hany := gain_any_le fun d hd => h.1 d (hsets d hd)
      exact hn.trans (hany.trans (Nat.mul_le_mul_right _ hlen))
    rw [marginals, List.sum_cons, List.length_cons]
    rcases Nat.le_total n (gain c atoms) with hle | hge
    · have hscale := Nat.mul_le_mul_left ((j + 1) ^ (cs.length + 1)) hle
      rw [Nat.mul_add]
      omega
    · -- what the first choice leaves of `n` is still to be gained by the others
      obtain ⟨rest, rfl⟩ := Nat.exists_eq_add_of_le hge
      have hrest : rest ≤ gain (fun a => sets.any fun d => d a) (remove c atoms) := by
        have hsub := @gain_le_gain_remove_add _ atoms c (fun a => sets.any fun d => d a)
        omega
      have hih := Nat.mul_le_mul_left (j + 1) (ih h.2 hrest)
      have hmissing : j ^ cs.length * rest ≤ j ^ cs.length * (j * gain c atoms) := by
        apply Nat.mul_le_mul_left
        linarith
      rw [pow_succ, pow_succ]
      generalize (j + 1) ^ cs.length = scale at *
      generalize j ^ cs.length = missing at *
      linarith

end Greedy

/-! Counting occurrences one at a time. -/

section Bump

variable [DecidableEq α] {a : α}

def bump (a : α) (atoms : List (α × ℕ)) : List (α × ℕ) :=
  atoms.map fun x => if x.1 = a then (x.1, x.2 + 1) else x

theorem bump_of_not_mem (h : a ∉ atoms.map Prod.fst) : bump a atoms = atoms := by
  have hfix : ∀ x ∈ atoms, (if x.1 = a then (x.1, x.2 + 1) else x) = x := by
    intro x hx
    rw [if_neg]
    intro he
    exact h (he ▸ List.mem_map_of_mem hx)
  rw [bump, List.map_congr_left hfix, List.map_id']

/-- One more occurrence of a key counts once for every set that covers the key. -/
theorem gain_bump (hnodup : (atoms.map Prod.fst).Nodup) (h : a ∈ atoms.map Prod.fst) :
    gain covers (bump a atoms) = gain covers atoms + if covers a then 1 else 0 := by
  induction atoms with
  | nil => simp at h
  | cons x atoms ih =>
    rw [List.map_cons, List.nodup_cons] at hnodup
    have hcons : bump a (x :: atoms) =
        (if x.1 = a then (x.1, x.2 + 1) else x) :: bump a atoms := rfl
    rw [hcons, gain_cons, gain_cons]
    by_cases hx : x.1 = a
    · rw [if_pos hx, bump_of_not_mem (hx ▸ hnodup.1)]
      cases hc : covers a <;> simp [hx, hc]
      omega
    · have hmem : a ∈ atoms.map Prod.fst := by
        rw [List.map_cons, List.mem_cons] at h
        exact h.resolve_left (Ne.symm hx)
      rw [if_neg hx, ih hnodup.2 hmem]
      omega

/-- A key's own count is the gain of the set that covers the key alone. -/
theorem gain_eq_of_mem {x : α × ℕ} (hnodup : (atoms.map Prod.fst).Nodup) (h : x ∈ atoms) :
    gain (fun a => a == x.1) atoms = x.2 := by
  induction atoms with
  | nil => simp at h
  | cons y atoms ih =>
    rw [List.map_cons, List.nodup_cons] at hnodup
    rw [gain_cons]
    rcases List.mem_cons.mp h with rfl | h
    · have hnone : gain (fun a => a == x.1) atoms = 0 := by
        rw [gain, List.filter_eq_nil_iff.mpr]
        · rfl
        · intro z hz he
          exact hnodup.1 (beq_iff_eq.mp he ▸ List.mem_map_of_mem hz)
      rw [hnone]
      simp
    · have hne : y.1 ≠ x.1 := fun he => hnodup.1 (he ▸ List.mem_map_of_mem h)
      rw [ih hnodup.2 h]
      simp [hne]

end Bump

end WeightedCover
