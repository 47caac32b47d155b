import ByteSelect.Kernel

/-! Tables whose slots start empty and keep the first value written to them. -/
namespace SlotTable

variable {α β : Type*} {slots : List (Option β)} {zs : List (ℕ × β)} {k : ℕ} {v w : β}

/-- Write each value unless its slot is taken. -/
def firstWrites (slots : List (Option β)) : List (ℕ × β) → List (Option β)
  | [] => slots
  | (k, v) :: zs =>
    if slots[k]?.join = none then firstWrites (slots.set k (some v)) zs
    else firstWrites slots zs

/-- Write each value to its slot, and fail on a slot that holds another value. -/
def agree [DecidableEq β] (slots : List (Option β)) : List (ℕ × β) → Bool
  | [] => true
  | (k, v) :: zs =>
    match slots[k]?.join with
    | none => agree (slots.set k (some v)) zs
    | some w => if w = v then agree slots zs else false

theorem join_getElem?_set (hk : k < slots.length) (j : ℕ) :
    (slots.set k (some v))[j]?.join = if j = k then some v else slots[j]?.join := by
  rw [List.getElem?_set]
  split <;> simp_all [eq_comm]

@[simp] theorem length_firstWrites : (firstWrites slots zs).length = slots.length := by
  induction zs generalizing slots with
  | nil => rfl
  | cons z zs ih =>
    unfold firstWrites
    split <;> simp [ih]

/-- A slot ends with what it held, or else with the first value written to it. -/
theorem join_getElem?_firstWrites (hz : ∀ z ∈ zs, z.1 < slots.length) (k : ℕ) :
    (firstWrites slots zs)[k]?.join = (slots[k]?.join).or (zs.lookup k) := by
  induction zs generalizing slots with
  | nil => simp [firstWrites]
  | cons z zs ih =>
    obtain ⟨j, v⟩ := z
    have hj : j < slots.length := hz (j, v) (by simp)
    have htail : ∀ z ∈ zs, z.1 < slots.length := fun z hm => hz z (by simp [hm])
    unfold firstWrites
    split
    · rename_i hempty
      rw [ih (by simpa using htail), join_getElem?_set hj, List.lookup_cons]
      by_cases hkj : k = j
      · simp [hkj, hempty]
      · simp [hkj, beq_false_of_ne hkj]
    · rename_i htaken
      rw [ih htail, List.lookup_cons]
      by_cases hkj : k = j
      · obtain ⟨w, hw⟩ := Option.ne_none_iff_exists'.mp htaken
        simp [hkj, hw]
      · simp [beq_false_of_ne hkj]

/-- No key is paired with two values. -/
def Functional (zs : List (ℕ × β)) : Prop :=
  ∀ k v w, (k, v) ∈ zs → (k, w) ∈ zs → v = w

theorem lookup_of_functional (hf : Functional zs) (h : (k, v) ∈ zs) : zs.lookup k = some v := by
  induction zs with
  | nil => simp at h
  | cons z zs ih =>
    obtain ⟨j, w⟩ := z
    rw [List.lookup_cons]
    by_cases hkj : k = j
    · subst hkj
      simp [hf k v w h (by simp)]
    · have htail : (k, v) ∈ zs := by simpa [hkj] using h
      simp only [beq_false_of_ne hkj]
      exact ih (fun k v w hv hw => hf k v w (by simp [hv]) (by simp [hw])) htail

/-- When keys determine values, each slot ends with its key's value. -/
theorem getElem?_firstWrites_of_mem {n : ℕ} (hz : ∀ z ∈ zs, z.1 < n) (hf : Functional zs)
    (h : (k, v) ∈ zs) : (firstWrites (List.replicate n none) zs)[k]? = some (some v) := by
  have hk : k < n := hz (k, v) h
  have hjoin := join_getElem?_firstWrites
    (show ∀ z ∈ zs, z.1 < (List.replicate n (none : Option β)).length by simpa using hz) k
  rw [lookup_of_functional hf h, List.getElem?_replicate, if_pos hk] at hjoin
  have hlt : k < (firstWrites (List.replicate n none) zs).length := by simpa using hk
  rw [List.getElem?_eq_getElem hlt] at hjoin ⊢
  simpa using hjoin

/-- What is written contradicts neither the slots nor itself. -/
structure Consistent (slots : List (Option β)) (zs : List (ℕ × β)) : Prop where
  held : ∀ k v w, (k, v) ∈ zs → slots[k]?.join = some w → w = v
  functional : Functional zs

theorem consistent_cons_empty (hk : k < slots.length) (hempty : slots[k]?.join = none) :
    Consistent slots ((k, v) :: zs) ↔ Consistent (slots.set k (some v)) zs := by
  constructor
  · rintro ⟨hs, hf⟩
    constructor
    · intro j u w hu hw
      rw [join_getElem?_set hk] at hw
      split at hw
      · rename_i he
        have hv := Option.some.inj hw
        exact hf j w u (by simp [he, hv]) (by simp [hu])
      · exact hs j u w (by simp [hu]) hw
    · intro j u w hu hw
      exact hf j u w (by simp [hu]) (by simp [hw])
  · rintro ⟨hs, hf⟩
    have hnew : ∀ u, (k, u) ∈ zs → v = u := by
      intro u hu
      exact hs k u v hu (by simp [join_getElem?_set hk])
    constructor
    · intro j u w hu hw
      have hne : j ≠ k := by
        rintro rfl
        rw [hempty] at hw
        cases hw
      have hmem : (j, u) ∈ zs := by simpa [hne] using hu
      exact hs j u w hmem (by rwa [join_getElem?_set hk, if_neg hne])
    · intro j u w hu hw
      rcases List.mem_cons.mp hu with hu | hu <;> rcases List.mem_cons.mp hw with hw | hw
      · exact (congrArg Prod.snd hu).trans (congrArg Prod.snd hw).symm
      · cases hu
        exact hnew w hw
      · cases hw
        exact (hnew u hu).symm
      · exact hf j u w hu hw

theorem consistent_cons_held (hheld : slots[k]?.join = some v) :
    Consistent slots ((k, v) :: zs) ↔ Consistent slots zs := by
  constructor
  · rintro ⟨hs, hf⟩
    exact ⟨fun j u w hu hw => hs j u w (by simp [hu]) hw,
      fun j u w hu hw => hf j u w (by simp [hu]) (by simp [hw])⟩
  · rintro ⟨hs, hf⟩
    constructor
    · intro j u w hu hw
      rcases List.mem_cons.mp hu with hu | hu
      · cases hu
        exact Option.some.inj (hw.symm.trans hheld)
      · exact hs j u w hu hw
    · intro j u w hu hw
      rcases List.mem_cons.mp hu with hu | hu <;> rcases List.mem_cons.mp hw with hw | hw
      · exact (congrArg Prod.snd hu).trans (congrArg Prod.snd hw).symm
      · cases hu
        exact hs k w v hw hheld
      · cases hw
        exact (hs k u v hu hheld).symm
      · exact hf j u w hu hw

/-- The scan accepts what is consistent. -/
theorem agree_iff [DecidableEq β] (hz : ∀ z ∈ zs, z.1 < slots.length) :
    agree slots zs = true ↔ Consistent slots zs := by
  induction zs generalizing slots with
  | nil =>
    refine iff_of_true rfl ⟨?_, ?_⟩
    · intro k v w hv
      cases hv
    · intro k v w hv
      cases hv
  | cons z zs ih =>
    obtain ⟨k, v⟩ := z
    have hk : k < slots.length := hz (k, v) (by simp)
    have htail : ∀ z ∈ zs, z.1 < slots.length := fun z hm => hz z (by simp [hm])
    unfold agree
    split
    · rename_i hempty
      rw [consistent_cons_empty hk hempty, ih (by simpa using htail)]
    · rename_i w hheld
      split
      · rename_i he
        subst he
        rw [consistent_cons_held hheld, ih htail]
      · rename_i hne
        refine iff_of_false (by simp) ?_
        intro h
        exact hne (h.held k v w (by simp) hheld)

/-- Starting from empty slots, agreement is that the keys determine the values. -/
theorem agree_empty_iff [DecidableEq β] {n : ℕ} (hz : ∀ z ∈ zs, z.1 < n) :
    agree (List.replicate n none) zs = true ↔ Functional zs := by
  rw [agree_iff (by simpa using hz)]
  have hempty : ∀ k : ℕ, (List.replicate n (none : Option β))[k]?.join = none := by
    intro k
    rw [List.getElem?_replicate]
    split <;> rfl
  constructor
  · exact Consistent.functional
  · intro hf
    refine ⟨?_, hf⟩
    intro k v w _ hw
    rw [hempty] at hw
    cases hw

open ListKernel in
theorem functional_zip_iff {ks : List ℕ} {vs : List β} (hlen : ks.length = vs.length) :
    Functional (ks.zip vs) ↔ kernel ks ≤ kernel vs := by
  rw [kernel_le_iff]
  constructor
  · intro hf i j hij
    cases hi : ks[i]? with
    | none =>
      have hi' : vs[i]? = none := by simpa [hlen] using hi
      have hj' : vs[j]? = none := by simpa [hlen] using hij.symm.trans hi
      rw [hi', hj']
    | some k =>
      have hj : ks[j]? = some k := hij.symm.trans hi
      have hvi : i < vs.length := hlen ▸ (List.getElem?_eq_some_iff.mp hi).1
      have hvj : j < vs.length := hlen ▸ (List.getElem?_eq_some_iff.mp hj).1
      have hmi : (k, vs[i]) ∈ ks.zip vs :=
        List.mem_of_getElem? (List.getElem?_zip_eq_some.mpr ⟨hi, List.getElem?_eq_getElem hvi⟩)
      have hmj : (k, vs[j]) ∈ ks.zip vs :=
        List.mem_of_getElem? (List.getElem?_zip_eq_some.mpr ⟨hj, List.getElem?_eq_getElem hvj⟩)
      rw [List.getElem?_eq_getElem hvi, List.getElem?_eq_getElem hvj, hf k _ _ hmi hmj]
  · intro hk k v w hv hw
    obtain ⟨i, hi⟩ := List.getElem?_of_mem hv
    obtain ⟨j, hj⟩ := List.getElem?_of_mem hw
    obtain ⟨hki, hvi⟩ := List.getElem?_zip_eq_some.mp hi
    obtain ⟨hkj, hwj⟩ := List.getElem?_zip_eq_some.mp hj
    have he := hk i j (hki.trans hkj.symm)
    rw [hvi, hwj] at he
    exact Option.some.inj he

end SlotTable
