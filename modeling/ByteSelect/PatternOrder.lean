import ByteSelect.Pattern

/-! The lattice of patterns: symbols stand for the classes of equal positions. -/
namespace ByteSelect.Pattern

open ListKernel SlotTable

variable {p q r : Pattern} {block : Block}

/-- The partition of positions a pattern stands for. -/
def classes (p : Pattern) : Setoid ℕ := kernel p.symbols

/-- Canonical symbols are the first-occurrence numbers of their own classes. -/
theorem val_symbols (p : Pattern) : p.symbols.map Fin.val = renumber [] p.symbols := by
  conv_lhs => rw [← p.canonical]
  exact val_numberFrom (distinct_symbols_le p.symbols)

theorem eq_of_classes_eq (hs : p.size = q.size) (h : p.classes = q.classes) : p = q := by
  have hval : p.symbols.map Fin.val = q.symbols.map Fin.val := by
    rw [val_symbols, val_symbols, renumber_congr hs h]
  have hsym : p.symbols = q.symbols := List.map_injective_iff.mpr Fin.val_injective hval
  cases p
  cases q
  simp_all

theorem foldl_max_succ_le {l : List Symbol} {a n : ℕ} :
    l.foldl (fun result symbol => max result (symbol.val + 1)) a ≤ n ↔
      a ≤ n ∧ ∀ s ∈ l, s.val < n := by
  induction l generalizing a with
  | nil => simp
  | cons s l ih =>
    rw [List.foldl_cons, ih, Nat.max_le, List.forall_mem_cons, and_assoc, Nat.succ_le_iff]

theorem rank_le_iff {n : ℕ} : p.rank ≤ n ↔ ∀ s ∈ p.symbols, s.val < n := by
  simp [rank, foldl_max_succ_le]

theorem val_lt_rank {s : Symbol} (h : s ∈ p.symbols) : s.val < p.rank :=
  rank_le_iff.mp le_rfl s h

/-- The rank of a canonical pattern counts its classes. -/
theorem rank_eq_distinct (p : Pattern) : p.rank = distinct p.symbols := by
  have hmem : ∀ n, n ∈ p.symbols.map Fin.val ↔ n < distinct p.symbols := by
    intro n
    rw [val_symbols, mem_renumber]
  apply le_antisymm
  · rw [rank_le_iff]
    intro s hs
    exact (hmem s.val).mp (List.mem_map_of_mem hs)
  · by_contra hlt
    have hr : p.rank ∈ p.symbols.map Fin.val := (hmem p.rank).mpr (by omega)
    obtain ⟨s, hs, he⟩ := List.mem_map.mp hr
    have := val_lt_rank hs
    omega

theorem exists_symbol {n : ℕ} (h : n < p.rank) : ∃ x ∈ p.symbols, x.val = n := by
  rw [rank_eq_distinct, ← mem_renumber, ← val_symbols, List.mem_map] at h
  exact h

@[simp] theorem size_ofSymbols (s : List Symbol) : (ofSymbols s).size = s.length :=
  length_numberFrom_nil s

theorem classes_ofSymbols (s : List Symbol) : (ofSymbols s).classes = kernel s :=
  kernel_numberFrom (distinct_symbols_le s)

@[simp] theorem size_simplest (block : Block) : (simplest block).size = block.length := by
  simp [simplest]

/-- The simplest pattern relates exactly the positions that hold equal bytes. -/
theorem classes_simplest (block : Block) : (simplest block).classes = kernel block := by
  rw [simplest, classes_ofSymbols, kernel_numberFrom (distinct_bytes_le block)]

theorem entries_lt_rank {β : Type} {values : List β} :
    ∀ z ∈ p.entries values, z.1 < p.rank := by
  intro z hz
  obtain ⟨s, hs, he⟩ := List.mem_map.mp (List.of_mem_zip hz).1
  rw [← he]
  exact val_lt_rank hs

theorem functional_entries_iff {β : Type} {values : List β} (h : p.size = values.length) :
    Functional (p.entries values) ↔ p.classes ≤ kernel values := by
  rw [entries, functional_zip_iff (by simpa [size] using h), kernel_map_val]
  rfl

theorem describes_iff :
    p.describes block = true ↔ p.size = block.length ∧ p.classes ≤ kernel block := by
  unfold describes
  split
  · rename_i h
    simp only [Bool.false_eq_true, false_iff]
    intro hd
    exact h hd.1.symm
  · rename_i h
    have hs : p.size = block.length := (not_not.mp h).symm
    rw [agree_empty_iff entries_lt_rank, functional_entries_iff hs]
    simp [hs]

theorem leq_iff (hs : p.size = q.size) : p.leq q = true ↔ q.classes ≤ p.classes := by
  rw [leq, agree_empty_iff entries_lt_rank, functional_entries_iff hs.symm]
  rfl

/-- A pattern describes the blocks whose simplest pattern lies below it. -/
theorem describes_iff_simplest_leq :
    p.describes block = true ↔ p.size = block.length ∧ (simplest block).leq p = true := by
  rw [describes_iff]
  constructor
  · rintro ⟨hs, hk⟩
    refine ⟨hs, ?_⟩
    rwa [leq_iff (by simp [hs]), classes_simplest]
  · rintro ⟨hs, hl⟩
    refine ⟨hs, ?_⟩
    rwa [leq_iff (by simp [hs]), classes_simplest] at hl

theorem simplest_describes (block : Block) : (simplest block).describes block = true := by
  rw [describes_iff]
  exact ⟨size_simplest block, (classes_simplest block).le⟩

theorem lessEqual_eq_ok (hs : p.size = q.size) : p.lessEqual q = .ok (p.leq q) := by
  simp [lessEqual, throwIf_neg, hs, pure, Except.pure]

theorem leastUpperBound_eq_ok (hs : p.size = q.size) : p.leastUpperBound q = .ok (p.lub q) := by
  simp [leastUpperBound, throwIf_neg, hs, pure, Except.pure]

theorem leq_trans (hpq : p.size = q.size) (hqr : q.size = r.size) (h₁ : p.leq q = true)
    (h₂ : q.leq r = true) : p.leq r = true := by
  rw [leq_iff hpq] at h₁
  rw [leq_iff hqr] at h₂
  exact (leq_iff (hpq.trans hqr)).mpr (h₂.trans h₁)

theorem leq_antisymm (hs : p.size = q.size) (h₁ : p.leq q = true) (h₂ : q.leq p = true) :
    p = q := by
  rw [leq_iff hs] at h₁
  rw [leq_iff hs.symm] at h₂
  exact eq_of_classes_eq hs (le_antisymm h₂ h₁)

theorem rank_le_of_leq (hs : p.size = q.size) (h : p.leq q = true) : p.rank ≤ q.rank := by
  rw [rank_eq_distinct, rank_eq_distinct]
  exact distinct_le_of_kernel_le hs.symm ((leq_iff hs).mp h)

/-- Along the order only a step to the same pattern keeps the rank. -/
theorem eq_of_leq_of_rank_eq (hs : p.size = q.size) (h : p.leq q = true)
    (hr : p.rank = q.rank) : p = q := by
  rw [rank_eq_distinct, rank_eq_distinct] at hr
  have hclasses : q.classes = p.classes :=
    kernel_eq_of_distinct_le hs.symm ((leq_iff hs).mp h) hr.ge
  exact eq_of_classes_eq hs hclasses.symm

theorem leq_refl (p : Pattern) : p.leq p = true := (leq_iff rfl).mpr le_rfl

/-- The rank of the simplest pattern counts the byte values of the block. -/
theorem rank_simplest (block : Block) : (simplest block).rank = block.toFinset.card := by
  rw [rank_eq_distinct, ← distinct_eq_card]
  have hlen : (simplest block).symbols.length = block.length := size_simplest block
  have hk : kernel (simplest block).symbols = kernel block := classes_simplest block
  exact le_antisymm (distinct_le_of_kernel_le hlen.symm hk.ge) (distinct_le_of_kernel_le hlen hk.le)

/-- Describing is refinement of the simplest pattern, the least one that describes a block. -/
theorem describes_iff_simplest_lessEqual (block : Block) :
    (∀ p : Pattern, p.describes block = true ↔
      p.size = block.length ∧ (simplest block).lessEqual p = .ok true) ∧
    (simplest block).describes block = true ∧
    (simplest block).rank = block.toFinset.card ∧
    ∀ p : Pattern, p.describes block = true →
      (simplest block).lessEqual p = .ok true ∧ block.toFinset.card ≤ p.rank := by
  have hiff (p : Pattern) : p.describes block = true ↔
      p.size = block.length ∧ (simplest block).lessEqual p = .ok true := by
    rw [describes_iff_simplest_leq]
    apply and_congr_right
    intro hs
    simp [lessEqual_eq_ok, hs]
  refine ⟨hiff, simplest_describes block, rank_simplest block, ?_⟩
  intro p hp
  refine ⟨((hiff p).mp hp).2, ?_⟩
  obtain ⟨hs, hle⟩ := describes_iff_simplest_leq.mp hp
  rw [← rank_simplest]
  exact rank_le_of_leq (by simp [hs]) hle

/-! Least upper bounds. -/

theorem val_pairKey (a b : Symbol) : (pairKey a b).val = a.val * 2 ^ 16 + b.val := by
  have ha := a.isLt
  have hb := b.isLt
  rw [pairKey, Fin.val_ofNat, ← Nat.shiftLeft_add_eq_or_of_lt hb, Nat.shiftLeft_eq,
    Nat.mod_eq_of_lt (by omega)]

theorem pairKey_injective {a b c d : Symbol} (h : pairKey a b = pairKey c d) : a = c ∧ b = d := by
  have hv := congrArg Fin.val h
  rw [val_pairKey, val_pairKey] at hv
  have hb := b.isLt
  have hd := d.isLt
  exact ⟨Fin.ext (by omega), Fin.ext (by omega)⟩

theorem zipWith_pairKey (p q : Pattern) : List.zipWith pairKey p.symbols q.symbols =
    (p.symbols.zip q.symbols).map fun z => pairKey z.1 z.2 := by
  rw [List.zip, List.map_zipWith]

theorem kernel_zip_symbols (hs : p.size = q.size) :
    kernel (p.symbols.zip q.symbols) = p.classes ⊓ q.classes := kernel_zip hs

theorem kernel_pairKeys (hs : p.size = q.size) :
    kernel (List.zipWith pairKey p.symbols q.symbols) = p.classes ⊓ q.classes := by
  rw [zipWith_pairKey, kernel_map, kernel_zip_symbols hs]
  intro x _ y _ hxy
  exact Prod.ext (pairKey_injective hxy).1 (pairKey_injective hxy).2

@[simp] theorem size_lub (hs : p.size = q.size) : (p.lub q).size = p.size := by
  rw [lub, size_ofSymbols, length_numberFrom_nil, List.length_zipWith]
  exact min_eq_left hs.le

theorem distinct_le_length {α : Type} [DecidableEq α] (l : List α) : distinct l ≤ l.length := by
  rw [distinct_eq_card]
  exact List.toFinset_card_le l

/-- Up to 65536 positions the pair counter cannot wrap. -/
theorem classes_lub (hs : p.size = q.size) (hn : p.size ≤ 2 ^ 16) :
    (p.lub q).classes = p.classes ⊓ q.classes := by
  rw [lub, classes_ofSymbols, kernel_numberFrom, kernel_pairKeys hs]
  apply (distinct_le_length _).trans
  rw [List.length_zipWith]
  exact le_trans (min_le_left _ _) hn

theorem leq_lub_left (hs : p.size = q.size) (hn : p.size ≤ 2 ^ 16) : p.leq (p.lub q) = true := by
  rw [leq_iff (size_lub hs).symm, classes_lub hs hn]
  exact inf_le_left

theorem leq_lub_right (hs : p.size = q.size) (hn : p.size ≤ 2 ^ 16) : q.leq (p.lub q) = true := by
  rw [leq_iff ((size_lub hs).trans hs).symm, classes_lub hs hn]
  exact inf_le_right

theorem lub_leq (hpq : p.size = q.size) (hqr : q.size = r.size) (hn : p.size ≤ 2 ^ 16)
    (h₁ : p.leq r = true) (h₂ : q.leq r = true) : (p.lub q).leq r = true := by
  rw [leq_iff (hpq.trans hqr)] at h₁
  rw [leq_iff hqr] at h₂
  rw [leq_iff ((size_lub hpq).trans (hpq.trans hqr)), classes_lub hpq hn]
  exact le_inf h₁ h₂

theorem lub_comm (hs : p.size = q.size) (hn : p.size ≤ 2 ^ 16) : p.lub q = q.lub p := by
  have hsize : (p.lub q).size = (q.lub p).size := by
    rw [size_lub hs, size_lub hs.symm, hs]
  apply eq_of_classes_eq hsize
  rw [classes_lub hs hn, classes_lub hs.symm (hs ▸ hn), inf_comm]

/-- The patterns of one size are a join-semilattice, and the rank is strictly monotone on it. -/
theorem lessEqual_joinSemilattice (p q r : Pattern) (hpq : p.size = q.size)
    (hqr : q.size = r.size) (hn : p.size ≤ 65536) :
    p.lessEqual p = .ok true ∧
    (p.lessEqual q = .ok true → q.lessEqual r = .ok true → p.lessEqual r = .ok true) ∧
    (p.lessEqual q = .ok true → q.lessEqual p = .ok true → p.symbols = q.symbols) ∧
    (∃ upper, p.leastUpperBound q = .ok upper ∧ canonicalize upper.symbols = upper.symbols ∧
      p.lessEqual upper = .ok true ∧ q.lessEqual upper = .ok true ∧
      (p.lessEqual r = .ok true → q.lessEqual r = .ok true → upper.lessEqual r = .ok true)) ∧
    (p.lessEqual q = .ok true → p.rank ≤ q.rank ∧ (p.rank = q.rank → p = q)) := by
  have hpr : p.size = r.size := hpq.trans hqr
  have hupper : (p.lub q).size = p.size := size_lub hpq
  rw [lessEqual_eq_ok rfl, lessEqual_eq_ok hpq, lessEqual_eq_ok hqr, lessEqual_eq_ok hpr,
    lessEqual_eq_ok hpq.symm]
  simp only [Except.ok.injEq]
  refine ⟨leq_refl p, leq_trans hpq hqr, ?_, ?_, ?_⟩
  · intro h₁ h₂
    rw [leq_antisymm hpq h₁ h₂]
  · refine ⟨p.lub q, leastUpperBound_eq_ok hpq, (p.lub q).canonical, ?_, ?_, ?_⟩
    · rw [lessEqual_eq_ok hupper.symm, leq_lub_left hpq hn]
    · rw [lessEqual_eq_ok (hpq.symm.trans hupper.symm), leq_lub_right hpq hn]
    · intro h₁ h₂
      rw [lessEqual_eq_ok (hupper.trans hpr), lub_leq hpq hqr hn h₁ h₂]
  · intro h
    exact ⟨rank_le_of_leq hpq h, eq_of_leq_of_rank_eq hpq h⟩

theorem lessEqual_joinSemilattice_aab :
    let p := ofSymbols [0, 0, 1]
    let q := ofSymbols [0, 1, 1]
    let r := ofSymbols [0, 1, 2]
    p.lessEqual p = .ok true ∧
    (p.lessEqual q = .ok true → q.lessEqual r = .ok true → p.lessEqual r = .ok true) ∧
    (p.lessEqual q = .ok true → q.lessEqual p = .ok true → p.symbols = q.symbols) ∧
    (∃ upper, p.leastUpperBound q = .ok upper ∧ canonicalize upper.symbols = upper.symbols ∧
      p.lessEqual upper = .ok true ∧ q.lessEqual upper = .ok true ∧
      (p.lessEqual r = .ok true → q.lessEqual r = .ok true → upper.lessEqual r = .ok true)) ∧
    (p.lessEqual q = .ok true → p.rank ≤ q.rank ∧ (p.rank = q.rank → p = q)) :=
  lessEqual_joinSemilattice (ofSymbols [0, 0, 1]) (ofSymbols [0, 1, 1]) (ofSymbols [0, 1, 2])
    (by decide) (by decide) (by decide)

/-! The 16-bit counter of the pair numbering. -/

/-- What numbering the pairs of two patterns is to achieve: every position gets the number of
its pair in order of first occurrence, different pairs get different symbols of the result, and
its rank is the number of pairs. -/
structure NumbersPairs (p q upper : Pattern) : Prop where
  counter : (numberFrom [] 0 (List.zipWith pairKey p.symbols q.symbols)).map Fin.val =
    renumber [] (p.symbols.zip q.symbols)
  apart : ∀ i j : ℕ, (p.symbols.zip q.symbols)[i]? ≠ (p.symbols.zip q.symbols)[j]? →
    upper.symbols[i]? ≠ upper.symbols[j]?
  rank_eq : upper.rank = (p.symbols.zip q.symbols).toFinset.card

theorem renumber_pairKeys (p q : Pattern) :
    renumber [] (List.zipWith pairKey p.symbols q.symbols) =
      renumber [] (p.symbols.zip q.symbols) := by
  have hnil : ([] : List (Symbol × Symbol)).map (fun z => pairKey z.1 z.2) = [] := rfl
  rw [zipWith_pairKey, ← hnil, renumber_map]
  intro x _ y _ hxy
  exact Prod.ext (pairKey_injective hxy).1 (pairKey_injective hxy).2

theorem distinct_pairKeys (hs : p.size = q.size) :
    distinct (List.zipWith pairKey p.symbols q.symbols) =
      (p.symbols.zip q.symbols).toFinset.card := by
  have hk : kernel (List.zipWith pairKey p.symbols q.symbols) =
      kernel (p.symbols.zip q.symbols) := by rw [kernel_pairKeys hs, kernel_zip_symbols hs]
  have hlen : (List.zipWith pairKey p.symbols q.symbols).length =
      (p.symbols.zip q.symbols).length := by rw [List.length_zipWith, List.length_zip]
  rw [← distinct_eq_card]
  exact le_antisymm (distinct_le_of_kernel_le hlen.symm hk.ge)
    (distinct_le_of_kernel_le hlen hk.le)

theorem rank_le_two_pow (p : Pattern) : p.rank ≤ 2 ^ 16 :=
  rank_le_iff.mpr fun s _ => s.isLt

/-- Up to 65536 different pairs the counter hands out each number once. -/
theorem numbersPairs_lub (hs : p.size = q.size)
    (h : (p.symbols.zip q.symbols).toFinset.card ≤ 2 ^ 16) : NumbersPairs p q (p.lub q) := by
  rw [← distinct_pairKeys hs] at h
  have hclasses : (p.lub q).classes = kernel (p.symbols.zip q.symbols) := by
    rw [lub, classes_ofSymbols, kernel_numberFrom h, kernel_pairKeys hs, kernel_zip_symbols hs]
  have hlen : (p.lub q).symbols.length = (p.symbols.zip q.symbols).length := by
    have hsize : (p.lub q).symbols.length = p.symbols.length := size_lub hs
    have hs' : p.symbols.length = q.symbols.length := hs
    rw [hsize, List.length_zip, ← hs', min_self]
  refine ⟨?_, ?_, ?_⟩
  · rw [val_numberFrom h, renumber_pairKeys]
  · intro i j hne heq
    apply hne
    have hij : kernel (p.symbols.zip q.symbols) i j := hclasses.le heq
    exact hij
  · rw [rank_eq_distinct, ← distinct_eq_card]
    exact le_antisymm (distinct_le_of_kernel_le hlen.symm hclasses.ge)
      (distinct_le_of_kernel_le hlen hclasses.le)

/-- The pairs are numbered as meant exactly when the counter can count them. -/
theorem leastUpperBound_numbersPairs_iff (hs : p.size = q.size) :
    (∃ upper, p.leastUpperBound q = .ok upper ∧ NumbersPairs p q upper) ↔
      (p.symbols.zip q.symbols).toFinset.card ≤ 65536 := by
  rw [leastUpperBound_eq_ok hs]
  constructor
  · rintro ⟨upper, -, h⟩
    rw [← h.rank_eq]
    exact rank_le_two_pow upper
  · intro h
    exact ⟨p.lub q, rfl, numbersPairs_lub hs h⟩

theorem leastUpperBound_numbersPairs_iff_aab :
    (ofSymbols [0, 0, 1]).size = (ofSymbols [0, 1, 1]).size ∧
    ((∃ upper, (ofSymbols [0, 0, 1]).leastUpperBound (ofSymbols [0, 1, 1]) = .ok upper ∧
      NumbersPairs (ofSymbols [0, 0, 1]) (ofSymbols [0, 1, 1]) upper) ↔
      ((ofSymbols [0, 0, 1]).symbols.zip (ofSymbols [0, 1, 1]).symbols).toFinset.card ≤ 65536) :=
  ⟨by decide, leastUpperBound_numbersPairs_iff (by decide)⟩

/-- Position `i` holds the lower sixteen bits of `i`. -/
def lowHalves (n : ℕ) : Pattern := ofSymbols ((List.range n).map (Fin.ofNat _))

/-- Position `i` holds the upper sixteen bits of `i`. -/
def highHalves (n : ℕ) : Pattern := ofSymbols ((List.range n).map fun i => Fin.ofNat _ (i / 2 ^ 16))

theorem size_halves (n : ℕ) : (lowHalves n).size = (highHalves n).size := by
  simp [lowHalves, highHalves]

/-- No two of up to 2^32 positions hold one pair of halves. -/
theorem kernel_halves {n : ℕ} (hn : n ≤ 2 ^ 32) :
    (lowHalves n).classes ⊓ (highHalves n).classes = kernel (List.range n) := by
  have hlen : ((List.range n).map (Fin.ofNat (2 ^ 16))).length =
      ((List.range n).map fun i => Fin.ofNat (2 ^ 16) (i / 2 ^ 16)).length := by simp
  rw [lowHalves, highHalves, classes_ofSymbols, classes_ofSymbols, ← kernel_zip hlen,
    List.zip_map']
  apply kernel_map
  intro i hi j hj hij
  rw [List.mem_range] at hi hj
  obtain ⟨hlow, hhigh⟩ := Prod.ext_iff.mp hij
  have hlow' : i % 2 ^ 16 = j % 2 ^ 16 := congrArg Fin.val hlow
  have hhigh' : i / 2 ^ 16 % 2 ^ 16 = j / 2 ^ 16 % 2 ^ 16 := congrArg Fin.val hhigh
  omega

theorem length_pairs_halves (n : ℕ) :
    ((lowHalves n).symbols.zip (highHalves n).symbols).length = n := by
  have hlow : (lowHalves n).symbols.length = n := by simp [lowHalves, ofSymbols, canonicalize]
  have hhigh : (highHalves n).symbols.length = n := by simp [highHalves, ofSymbols, canonicalize]
  rw [List.length_zip, hlow, hhigh, min_self]

theorem card_halves {n : ℕ} (hn : n ≤ 2 ^ 32) :
    ((lowHalves n).symbols.zip (highHalves n).symbols).toFinset.card = n := by
  have hk : kernel ((lowHalves n).symbols.zip (highHalves n).symbols) = kernel (List.range n) := by
    rw [kernel_zip_symbols (size_halves n), kernel_halves hn]
  have hlen : ((lowHalves n).symbols.zip (highHalves n).symbols).length =
      (List.range n).length := by
    rw [length_pairs_halves, List.length_range]
  have hrange : distinct (List.range n) = n := by
    rw [distinct_eq_card, List.toFinset_card_of_nodup List.nodup_range, List.length_range]
  rw [← distinct_eq_card]
  exact (le_antisymm (distinct_le_of_kernel_le hlen.symm hk.ge)
    (distinct_le_of_kernel_le hlen hk.le)).trans hrange

/-- Past 65536 positions the counter starts over: the fresh pair there gets the first symbol. -/
theorem lub_halves_wraps {n : ℕ} (hn : n ≤ 2 ^ 32) (hwrap : 2 ^ 16 < n) :
    ((lowHalves n).lub (highHalves n)).symbols[0]? =
      ((lowHalves n).lub (highHalves n)).symbols[2 ^ 16]? := by
  have hk : kernel (List.zipWith pairKey (lowHalves n).symbols (highHalves n).symbols) =
      kernel (List.range n) := by
    rw [kernel_pairKeys (size_halves n), kernel_halves hn]
  have hlen : (List.zipWith pairKey (lowHalves n).symbols (highHalves n).symbols).length =
      (List.range n).length := by
    rw [zipWith_pairKey, List.length_map, length_pairs_halves, List.length_range]
  have hsymbols : numberFrom [] 0 (List.zipWith pairKey (lowHalves n).symbols
      (highHalves n).symbols) = (List.range n).map (Fin.ofNat (2 ^ 16)) := by
    rw [numberFrom_nil, renumber_congr hlen hk, renumber_range]
  have hclass : ((lowHalves n).lub (highHalves n)).classes 0 (2 ^ 16) := by
    rw [lub, classes_ofSymbols, hsymbols, kernel_iff, List.getElem?_map, List.getElem?_map,
      List.getElem?_range hwrap, List.getElem?_range (Nat.zero_lt_of_lt hwrap)]
    rfl
  exact hclass

/-- 65537 positions with 65537 different pairs. -/
theorem leastUpperBound_not_numbersPairs :
    (lowHalves 65537).size = (highHalves 65537).size ∧
    (¬ ∃ upper, (lowHalves 65537).leastUpperBound (highHalves 65537) = .ok upper ∧
      NumbersPairs (lowHalves 65537) (highHalves 65537) upper) ∧
    ∃ upper, (lowHalves 65537).leastUpperBound (highHalves 65537) = .ok upper ∧
      ((lowHalves 65537).symbols.zip (highHalves 65537).symbols)[0]? ≠
        ((lowHalves 65537).symbols.zip (highHalves 65537).symbols)[65536]? ∧
      upper.symbols[0]? = upper.symbols[65536]? := by
  refine ⟨size_halves _, ?_, (lowHalves 65537).lub (highHalves 65537),
    leastUpperBound_eq_ok (size_halves _), ?_, lub_halves_wraps (by decide) (by decide)⟩
  · rintro ⟨upper, -, h⟩
    have hrank := h.rank_eq
    rw [card_halves (by decide)] at hrank
    have hle := rank_le_two_pow upper
    omega
  · intro heq
    have hclass : ((lowHalves 65537).classes ⊓ (highHalves 65537).classes) 0 65536 := by
      rw [← kernel_zip_symbols (size_halves _)]
      exact heq
    rw [kernel_halves (by decide), kernel_iff, List.getElem?_range (by decide),
      List.getElem?_range (by decide)] at hclass
    cases hclass

end ByteSelect.Pattern
