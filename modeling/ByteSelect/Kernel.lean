import Mathlib.Data.Setoid.Basic
import Mathlib.Data.List.Basic
import Mathlib.Data.List.Dedup
import Mathlib.Data.Finset.Card
import Mathlib.Data.Finset.Dedup

/-! Equality patterns of lists: which positions hold equal entries, numbered by first occurrence. -/
namespace ListKernel

variable {α β : Type*}

/-- Positions are related when the list holds the same entry at both. The positions past
the end form one further class. -/
def kernel (l : List α) : Setoid ℕ := Setoid.ker (fun i => l[i]?)

variable {l : List α} {l' : List β}

theorem kernel_iff {i j : ℕ} : kernel l i j ↔ l[i]? = l[j]? := Iff.rfl

theorem kernel_le_iff : kernel l ≤ kernel l' ↔ ∀ i j : ℕ, l[i]? = l[j]? → l'[i]? = l'[j]? := by
  constructor
  · intro h i j hij
    exact h hij
  · intro h i j hij
    exact h i j hij

/-- Collapsing entries only merges classes. -/
theorem kernel_le_map (f : α → β) (l : List α) : kernel l ≤ kernel (l.map f) := by
  rw [kernel_le_iff]
  intro i j hij
  simp [hij]

theorem kernel_map {f : α → β} (hf : ∀ x ∈ l, ∀ y ∈ l, f x = f y → x = y) :
    kernel (l.map f) = kernel l := by
  apply le_antisymm _ (kernel_le_map f l)
  rw [kernel_le_iff]
  intro i j hij
  simp only [List.getElem?_map] at hij
  cases hi : l[i]? <;> cases hj : l[j]? <;> simp_all
  exact hf _ (List.mem_of_getElem? hi) _ (List.mem_of_getElem? hj) hij

/-- Pairing two lists intersects their kernels. -/
theorem kernel_zip (hlen : l.length = l'.length) :
    kernel (l.zip l') = kernel l ⊓ kernel l' := by
  apply Setoid.ext
  intro i j
  rw [Setoid.inf_iff_and, kernel_iff, kernel_iff, kernel_iff]
  have hnone : ∀ k : ℕ, l[k]? = none ↔ l'[k]? = none := by simp [hlen]
  have hi := hnone i
  have hj := hnone j
  simp only [List.zip, List.getElem?_zipWith]
  cases h₁ : l[i]? <;> cases h₂ : l'[i]? <;> cases h₃ : l[j]? <;> cases h₄ : l'[j]? <;> simp_all

/-- A refined list is a relabelling of the finer one. -/
theorem exists_map_of_kernel_le [DecidableEq α] [Inhabited β] (hlen : l.length = l'.length)
    (h : kernel l ≤ kernel l') : ∃ f : α → β, l' = l.map f := by
  refine ⟨fun x => (l'[l.idxOf x]?).getD default, ?_⟩
  apply List.ext_getElem?
  intro i
  rw [List.getElem?_map]
  cases hi : l[i]? with
  | none => simpa [hlen] using hi
  | some x =>
    have hx : x ∈ l := List.mem_of_getElem? hi
    have he : l[l.idxOf x]? = l[i]? := by rw [List.getElem?_idxOf hx, hi]
    have hlt : i < l'.length := by
      rw [← hlen]
      exact (List.getElem?_eq_some_iff.mp hi).1
    rw [Option.map_some, kernel_le_iff.mp h _ _ he, List.getElem?_eq_getElem hlt]
    rfl

/-! First occurrences. -/

section FirstOccurrence

variable [DecidableEq α] {seen : List α}

/-- The entries in order of first occurrence, after those already seen. -/
def firsts (seen : List α) : List α → List α
  | [] => seen
  | x :: xs => firsts (if x ∈ seen then seen else seen ++ [x]) xs

/-- Each entry replaced by its place in the order of first occurrence. -/
def renumber (seen : List α) : List α → List ℕ
  | [] => []
  | x :: xs =>
    if x ∈ seen then seen.idxOf x :: renumber seen xs
    else seen.length :: renumber (seen ++ [x]) xs

theorem prefix_firsts (seen l : List α) : seen <+: firsts seen l := by
  induction l generalizing seen with
  | nil => exact List.prefix_rfl
  | cons x xs ih =>
    unfold firsts
    split
    · exact ih seen
    · exact (List.prefix_append seen [x]).trans (ih (seen ++ [x]))

theorem mem_firsts {x : α} : x ∈ firsts seen l ↔ x ∈ seen ∨ x ∈ l := by
  induction l generalizing seen with
  | nil => simp [firsts]
  | cons y ys ih =>
    unfold firsts
    split <;> rw [ih] <;> simp <;> grind

theorem nodup_firsts (h : seen.Nodup) : (firsts seen l).Nodup := by
  induction l generalizing seen with
  | nil => exact h
  | cons y ys ih =>
    unfold firsts
    split
    · exact ih h
    · exact ih (List.nodup_append.mpr ⟨h, by simp, by grind⟩)

@[simp] theorem length_renumber (seen l : List α) : (renumber seen l).length = l.length := by
  induction l generalizing seen with
  | nil => rfl
  | cons x xs ih =>
    unfold renumber
    split <;> simp [ih]

/-- The number of an entry is its index among all first occurrences. -/
theorem renumber_eq_map (seen l : List α) :
    renumber seen l = l.map (firsts seen l).idxOf := by
  induction l generalizing seen with
  | nil => rfl
  | cons x xs ih =>
    unfold renumber firsts
    split
    · rename_i hx
      rw [ih, List.map_cons, (prefix_firsts seen xs).idxOf_eq_of_mem hx]
    · rename_i hx
      have hlast : (seen ++ [x]).idxOf x = seen.length := by simp [List.idxOf_append, hx]
      rw [ih, List.map_cons, ← hlast,
        (prefix_firsts (seen ++ [x]) xs).idxOf_eq_of_mem (by simp)]

theorem kernel_renumber (l : List α) : kernel (renumber [] l) = kernel l := by
  rw [renumber_eq_map]
  apply kernel_map
  intro x hx y _ hxy
  exact (List.idxOf_inj (mem_firsts.mpr (Or.inr hx))).mp hxy

theorem idxOf_map [DecidableEq β] {f : α → β} {x : α}
    (hf : ∀ y ∈ l, f y = f x → y = x) : (l.map f).idxOf (f x) = l.idxOf x := by
  induction l with
  | nil => rfl
  | cons y ys ih =>
    by_cases hy : y = x
    · simp [hy]
    · have hne : f y ≠ f x := fun h => hy (hf y (by simp) h)
      rw [List.map_cons, List.idxOf_cons_ne _ hne, List.idxOf_cons_ne _ hy,
        ih fun z hz => hf z (by simp [hz])]

/-- Numbering sees only which entries are equal, not what they are. -/
theorem renumber_map [DecidableEq β] {f : α → β}
    (hf : ∀ x ∈ seen ++ l, ∀ y ∈ seen ++ l, f x = f y → x = y) :
    renumber (seen.map f) (l.map f) = renumber seen l := by
  induction l generalizing seen with
  | nil => rfl
  | cons x xs ih =>
    have hmem : f x ∈ seen.map f ↔ x ∈ seen := by
      constructor
      · intro h
        obtain ⟨y, hy, he⟩ := List.mem_map.mp h
        rwa [← hf y (by simp [hy]) x (by simp) he]
      · exact List.mem_map_of_mem
    rw [List.map_cons]
    unfold renumber
    by_cases hx : x ∈ seen
    · rw [if_pos (hmem.mpr hx), if_pos hx, ih (by grind),
        idxOf_map fun y hy => hf y (by simp [hy]) x (by simp)]
    · have hnext : renumber ((seen ++ [x]).map f) (xs.map f) = renumber (seen ++ [x]) xs :=
        ih (by grind)
      rw [List.map_append, List.map_singleton] at hnext
      rw [if_neg (mt hmem.mp hx), if_neg hx, List.length_map, hnext]

/-- Lists of one kernel have one numbering. -/
theorem renumber_congr [DecidableEq β] (hlen : l.length = l'.length)
    (h : kernel l = kernel l') : renumber [] l = renumber [] l' := by
  cases l' with
  | nil => simp_all [renumber]
  | cons y ys =>
    have : Inhabited β := ⟨y⟩
    obtain ⟨f, hf⟩ := exists_map_of_kernel_le hlen h.le
    have hinj : ∀ a ∈ l, ∀ b ∈ l, f a = f b → a = b := by
      intro a ha b hb hab
      obtain ⟨i, hi⟩ := List.getElem?_of_mem ha
      obtain ⟨j, hj⟩ := List.getElem?_of_mem hb
      have hij : (y :: ys)[i]? = (y :: ys)[j]? := by simp [hf, hi, hj, hab]
      have he := kernel_le_iff.mp h.ge i j hij
      simpa [hi, hj] using he
    have hmap : renumber ([].map f) (l.map f) = renumber [] l := renumber_map hinj
    rw [hf]
    exact hmap.symm

theorem firsts_of_nodup (h : (seen ++ l).Nodup) :
    firsts seen l = seen ++ l := by
  induction l generalizing seen with
  | nil => rw [firsts, List.append_nil]
  | cons x xs ih =>
    rw [List.append_cons] at h
    have hx : x ∉ seen := by
      have hseen := (List.nodup_append.mp (List.nodup_append.mp h).1).2.2
      intro hmem
      exact hseen x hmem x (List.mem_singleton_self x) rfl
    rw [firsts, if_neg hx, ih h, ← List.append_cons]

theorem renumber_range (n : ℕ) : renumber [] (List.range n) = List.range n := by
  have hfirsts : firsts [] (List.range n) = List.range n := firsts_of_nodup List.nodup_range
  rw [renumber_eq_map, hfirsts]
  conv_rhs => rw [← List.map_id (List.range n)]
  apply List.map_congr_left
  intro i hi
  have hlt : i < (List.range n).length := by rwa [List.length_range, ← List.mem_range]
  have hget : (List.range n)[i] = i := List.getElem_range hlt
  conv_lhs => rw [← hget]
  exact List.nodup_range.idxOf_getElem i _

/-- How many different entries a list holds. -/
def distinct (l : List α) : ℕ := (firsts [] l).length

theorem distinct_eq_card (l : List α) : distinct l = l.toFinset.card := by
  rw [distinct, ← List.toFinset_card_of_nodup (nodup_firsts List.nodup_nil)]
  congr 1
  ext x
  simp [mem_firsts]

theorem mem_renumber {n : ℕ} : n ∈ renumber [] l ↔ n < distinct l := by
  rw [renumber_eq_map, List.mem_map]
  constructor
  · rintro ⟨x, hx, rfl⟩
    exact List.idxOf_lt_length_of_mem (mem_firsts.mpr (Or.inr hx))
  · intro hn
    refine ⟨(firsts [] l)[n], ?_, (nodup_firsts List.nodup_nil).idxOf_getElem n hn⟩
    have hm : (firsts [] l)[n] ∈ firsts [] l := List.getElem_mem hn
    simpa [mem_firsts] using hm

theorem distinct_map [DecidableEq β] (f : α → β) (l : List α) :
    distinct (l.map f) = (l.toFinset.image f).card := by
  rw [distinct_eq_card]
  congr 1
  ext x
  simp

/-- A coarser list has no more different entries. -/
theorem distinct_le_of_kernel_le [DecidableEq β] (hlen : l.length = l'.length)
    (h : kernel l ≤ kernel l') : distinct l' ≤ distinct l := by
  cases l' with
  | nil => simp [distinct, firsts]
  | cons y ys =>
    have : Inhabited β := ⟨y⟩
    obtain ⟨f, hf⟩ := exists_map_of_kernel_le hlen h
    rw [hf, distinct_map, distinct_eq_card]
    exact Finset.card_image_le

/-- A coarser list with no fewer different entries merges nothing. -/
theorem kernel_eq_of_distinct_le [DecidableEq β] (hlen : l.length = l'.length)
    (h : kernel l ≤ kernel l') (hd : distinct l ≤ distinct l') : kernel l = kernel l' := by
  cases l' with
  | nil =>
    rw [List.length_eq_zero_iff.mp hlen]
    exact Setoid.ext fun i j => by simp [kernel_iff]
  | cons y ys =>
    have : Inhabited β := ⟨y⟩
    obtain ⟨f, hf⟩ := exists_map_of_kernel_le hlen h
    rw [hf, distinct_map, distinct_eq_card] at hd
    have hinj : Set.InjOn f l.toFinset :=
      Finset.card_image_iff.mp (le_antisymm Finset.card_image_le hd)
    rw [hf, kernel_map]
    intro x hx z hz hxz
    exact hinj (by simpa using hx) (by simpa using hz) hxz

end FirstOccurrence

end ListKernel
