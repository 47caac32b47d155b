import ByteSelect.CanonicalCode
import Mathlib.InformationTheory.Coding.KraftMcMillan
import Mathlib.Tactic.Positivity

/-! Prefix codes: what their lengths use up, and why the two lightest weights can be merged. -/
namespace OptimalCode

open CanonicalCode (kraft)
open InformationTheory (UniquelyDecodable kraft_mcmillan_inequality)

/-! The Kraft sum. -/

section Kraft

variable {α : Type*} {symbols : List α} {code : α → List Bool} {D : ℕ}

/-- No word of a symbol is continued by the word of another. -/
def PrefixFree (symbols : List α) (code : α → List Bool) : Prop :=
  ∀ a ∈ symbols, ∀ b ∈ symbols, code a <+: code b → a = b

theorem kraft_eq_mul_sum {K : Type*} [Field K] [CharZero K] {lengths : List ℕ}
    (hD : ∀ n ∈ lengths, n ≤ D) :
    (kraft D lengths : K) = 2 ^ D * (lengths.map fun n => (1 / 2 : K) ^ n).sum := by
  induction lengths with
  | nil => simp [kraft]
  | cons n lengths ih =>
    rw [List.forall_mem_cons] at hD
    have htail := ih hD.2
    have hhead : ((2 ^ (D - n) : ℕ) : K) = 2 ^ D * (1 / 2 : K) ^ n := by
      rw [Nat.cast_pow, Nat.cast_ofNat, one_div, inv_pow, pow_sub₀ 2 two_ne_zero hD.1]
    rw [kraft] at htail ⊢
    rw [List.map_cons, List.sum_cons, List.map_cons, List.sum_cons, Nat.cast_add, htail, hhead,
      mul_add]

theorem PrefixFree.ne_nil (h : PrefixFree symbols code) {a b : α} (ha : a ∈ symbols)
    (hb : b ∈ symbols) (hab : a ≠ b) {c : α} (hc : c ∈ symbols) : code c ≠ [] := by
  intro hnil
  have hleft := h c hc a ha (by rw [hnil]; exact List.nil_prefix)
  have hright := h c hc b hb (by rw [hnil]; exact List.nil_prefix)
  exact hab (hleft.symm.trans hright)

/-- Words of which none continues another are told apart one after the other. -/
theorem PrefixFree.uniquelyDecodable (h : PrefixFree symbols code)
    (hne : ∀ a ∈ symbols, code a ≠ []) : UniquelyDecodable {w | ∃ a ∈ symbols, code a = w} := by
  intro L₁
  induction L₁ with
  | nil =>
    intro L₂ _ h₂ hflat
    cases L₂ with
    | nil => rfl
    | cons w L₂ =>
      obtain ⟨a, ha, rfl⟩ := h₂ w List.mem_cons_self
      rw [List.flatten_nil, List.flatten_cons] at hflat
      exact absurd (List.append_eq_nil_iff.mp hflat.symm).1 (hne a ha)
  | cons w L₁ ih =>
    intro L₂ h₁ h₂ hflat
    obtain ⟨a, ha, rfl⟩ := h₁ w List.mem_cons_self
    cases L₂ with
    | nil =>
      rw [List.flatten_nil, List.flatten_cons] at hflat
      exact absurd (List.append_eq_nil_iff.mp hflat).1 (hne a ha)
    | cons w' L₂ =>
      obtain ⟨b, hb, rfl⟩ := h₂ w' List.mem_cons_self
      rw [List.flatten_cons, List.flatten_cons] at hflat
      have hleft : code a <+: code b ++ L₂.flatten := ⟨_, hflat⟩
      have hsame : a = b := by
        rcases List.prefix_or_prefix_of_prefix hleft (List.prefix_append _ _) with hab | hba
        · exact h a ha b hb hab
        · exact (h b hb a ha hba).symm
      subst hsame
      rw [List.append_cancel_left_eq] at hflat
      rw [ih L₂ (fun w hw => h₁ w (List.mem_cons_of_mem _ hw))
        (fun w hw => h₂ w (List.mem_cons_of_mem _ hw)) hflat]

/-- The words of a prefix code fit into the words of a greater length. -/
theorem PrefixFree.kraft_le (h : PrefixFree symbols code) (hnodup : symbols.Nodup)
    (hne : ∀ a ∈ symbols, code a ≠ []) (hD : ∀ a ∈ symbols, (code a).length ≤ D) :
    kraft D (symbols.map fun a => (code a).length) ≤ 2 ^ D := by
  classical
  have hwords : (symbols.map code).Nodup := hnodup.map_on fun a ha b hb hab =>
    h a ha b hb (hab ▸ List.prefix_rfl)
  have hset : ((symbols.map code).toFinset : Set (List Bool)) = {w | ∃ a ∈ symbols, code a = w} := by
    ext w
    simp
  have hsum := kraft_mcmillan_inequality (hset ▸ h.uniquelyDecodable hne)
  rw [List.sum_toFinset _ hwords, List.map_map] at hsum
  have hlengths : ∀ n ∈ symbols.map fun a => (code a).length, n ≤ D := by
    simpa using hD
  have hkraft := kraft_eq_mul_sum (K := ℝ) hlengths
  rw [List.map_map] at hkraft
  have hle : (kraft D (symbols.map fun a => (code a).length) : ℝ) ≤ ((2 ^ D : ℕ) : ℝ) := by
    rw [hkraft, Nat.cast_pow, Nat.cast_ofNat]
    exact mul_le_of_le_one_right (by positivity) (by simpa [Function.comp_def] using hsum)
  exact_mod_cast hle

end Kraft

/-! Weights and lengths. -/

section Lengths

variable {β : Type*} {v : β → ℕ} {x y : β} {assigned others : List (β × ℕ)} {a b n D : ℕ}

/-- What weights cost that are given lengths. -/
def cost (v : β → ℕ) (assigned : List (β × ℕ)) : ℕ := (assigned.map fun x => v x.1 * x.2).sum

theorem cost_cons (v : β → ℕ) (entry : β × ℕ) (assigned : List (β × ℕ)) :
    cost v (entry :: assigned) = v entry.1 * entry.2 + cost v assigned := by
  rw [cost, List.map_cons, List.sum_cons]
  rfl

theorem cost_perm {assigned' : List (β × ℕ)} (h : assigned.Perm assigned') :
    cost v assigned = cost v assigned' :=
  (h.map _).sum_eq

/-- Exchanging lengths until none is longer than that of the lightest weight. -/
structure Raised (v : β → ℕ) (x : β) (a : ℕ) (others : List (β × ℕ)) (a' : ℕ)
    (others' : List (β × ℕ)) : Prop where
  same : others'.map Prod.fst = others.map Prod.fst
  perm : (a' :: others'.map Prod.snd).Perm (a :: others.map Prod.snd)
  le : a ≤ a'
  longest : ∀ entry ∈ others', entry.2 ≤ a'
  cost_le : v x * a' + cost v others' ≤ v x * a + cost v others

theorem exists_raised (hx : ∀ entry ∈ others, v x ≤ v entry.1) (a : ℕ) :
    ∃ a' others', Raised v x a others a' others' := by
  induction others with
  | nil => exact ⟨a, [], rfl, .refl _, Nat.le_refl a, by simp, Nat.le_refl _⟩
  | cons entry others ih =>
    rw [List.forall_mem_cons] at hx
    obtain ⟨a₁, others₁, hsame, hperm, hle, hlongest, hcost⟩ := ih hx.2
    rcases Nat.le_total entry.2 a₁ with hshort | hlong
    · refine ⟨a₁, entry :: others₁, ?_, ?_, hle, ?_, ?_⟩
      · rw [List.map_cons, List.map_cons, hsame]
      · rw [List.map_cons, List.map_cons]
        exact (List.Perm.swap _ _ _).trans ((hperm.cons entry.2).trans (List.Perm.swap _ _ _))
      · exact List.forall_mem_cons.mpr ⟨hshort, hlongest⟩
      · rw [cost_cons, cost_cons]
        omega
    · refine ⟨entry.2, (entry.1, a₁) :: others₁, ?_, ?_, hle.trans hlong, ?_, ?_⟩
      · rw [List.map_cons, List.map_cons, hsame]
      · rw [List.map_cons, List.map_cons]
        exact (hperm.cons entry.2).trans (List.Perm.swap _ _ _)
      · exact List.forall_mem_cons.mpr ⟨hlong, fun e he => (hlongest e he).trans hlong⟩
      · have hswap := mul_add_mul_le_mul_add_mul hx.1 hlong
        rw [cost_cons, cost_cons]
        dsimp only
        omega

/-- A sum of powers with exponents from `k` on is a multiple of the least one. -/
theorem dvd_kraft {lengths : List ℕ} (h : ∀ m ∈ lengths, m ≤ b) (D : ℕ) :
    2 ^ (D - b) ∣ kraft D lengths := by
  refine List.dvd_sum fun x hx => ?_
  obtain ⟨m, hm, rfl⟩ := List.mem_map.mp hx
  have hle := h m hm
  exact Nat.pow_dvd_pow 2 (by omega)

theorem kraft_cons (D n : ℕ) (lengths : List ℕ) :
    kraft D (n :: lengths) = 2 ^ (D - n) + kraft D lengths := by
  rw [kraft, List.map_cons, List.sum_cons]
  rfl

theorem kraft_perm {lengths lengths' : List ℕ} (h : lengths.Perm lengths') (D : ℕ) :
    kraft D lengths = kraft D lengths' :=
  (h.map _).sum_eq

/-- Two longest lengths leave room for one that is shorter by one. -/
theorem exists_merged {lengths : List ℕ} (hab : b ≤ a) (hb : ∀ m ∈ lengths, m ≤ b)
    (hD : b ≤ D) (hkraft : kraft D (a :: b :: lengths) ≤ 2 ^ D) :
    ∃ m, m + 1 = b ∧ kraft D (m :: lengths) ≤ 2 ^ D := by
  have hpos := Nat.two_pow_pos (D - a)
  have hunit := Nat.two_pow_pos (D - b)
  obtain ⟨q, hq⟩ := dvd_kraft hb D
  have htop : 2 ^ D = 2 ^ (D - b) * 2 ^ b := by
    rw [← Nat.pow_add, Nat.sub_add_cancel hD]
  rw [kraft_cons, kraft_cons, hq] at hkraft
  -- the sum without the first term is a multiple of the second one, and below the whole
  have hlt : 2 ^ (D - b) * (q + 1) < 2 ^ (D - b) * 2 ^ b := by
    rw [← htop, Nat.mul_add, Nat.mul_one]
    omega
  have hroom : q + 2 ≤ 2 ^ b := Nat.lt_of_mul_lt_mul_left hlt
  obtain ⟨m, rfl⟩ : ∃ m, b = m + 1 := by
    refine Nat.exists_eq_succ_of_ne_zero ?_
    rintro rfl
    rw [Nat.pow_zero] at hroom
    omega
  refine ⟨m, rfl, ?_⟩
  have hdouble : 2 ^ (D - m) = 2 ^ (D - (m + 1)) * 2 := by
    rw [← Nat.pow_succ]
    congr 1
    omega
  rw [kraft_cons, hq, htop, hdouble, ← Nat.mul_add]
  exact Nat.mul_le_mul_left _ (by omega)

/-- What a second exchange puts back is still no longer than the first length. -/
theorem Raised.longest_trans {others₁ others₂ : List (β × ℕ)} {a' b' : ℕ}
    (h₁ : Raised v x a others a' others₁) (h₂ : Raised v y b others₁ b' others₂) :
    ∀ entry ∈ others₂, entry.2 ≤ a' := by
  have hold : ∀ n ∈ others₁.map Prod.snd, n ≤ a' := List.forall_mem_map.mpr h₁.longest
  intro entry hentry
  rcases Nat.eq_or_lt_of_le h₂.le with rfl | hlt
  · exact hold _ (h₂.perm.cons_inv.mem_iff.mp (List.mem_map_of_mem hentry))
  · have hmem : b' ∈ b :: others₁.map Prod.snd := h₂.perm.mem_iff.mp List.mem_cons_self
    rcases List.mem_cons.mp hmem with rfl | hmem
    · exact absurd hlt (Nat.lt_irrefl _)
    · exact (h₂.longest entry hentry).trans (hold b' hmem)

/-- The two lightest weights can be given to one word, at no cost beyond the bit that tells them
apart. -/
theorem exists_merge_lightest (hx : ∀ entry ∈ others, v x ≤ v entry.1)
    (hy : ∀ entry ∈ others, v y ≤ v entry.1) (haD : a ≤ D) (hbD : b ≤ D)
    (hD : ∀ entry ∈ others, entry.2 ≤ D)
    (hkraft : kraft D (a :: b :: others.map Prod.snd) ≤ 2 ^ D) :
    ∃ m others', others'.map Prod.fst = others.map Prod.fst ∧ m ≤ D ∧
      (∀ entry ∈ others', entry.2 ≤ D) ∧ kraft D (m :: others'.map Prod.snd) ≤ 2 ^ D ∧
      (v x + v y) * (m + 1) + cost v others' ≤ v x * a + v y * b + cost v others := by
  obtain ⟨a', others₁, h₁⟩ := exists_raised hx a
  have hy₁ : ∀ entry ∈ others₁, v y ≤ v entry.1 := by
    intro entry hentry
    have hmem : entry.1 ∈ others.map Prod.fst := h₁.same ▸ List.mem_map_of_mem hentry
    obtain ⟨old, hold, heq⟩ := List.mem_map.mp hmem
    exact heq ▸ hy old hold
  obtain ⟨b', others₂, h₂⟩ := exists_raised hy₁ b
  have hlengths : (a' :: b' :: others₂.map Prod.snd).Perm (a :: b :: others.map Prod.snd) :=
    ((h₂.perm.cons a').trans (.swap _ _ _)).trans ((h₁.perm.cons b).trans (.swap _ _ _))
  have hall : ∀ m ∈ a' :: b' :: others₂.map Prod.snd, m ≤ D := by
    intro m hm
    rw [hlengths.mem_iff, List.mem_cons, List.mem_cons] at hm
    rcases hm with rfl | rfl | hm
    · exact haD
    · exact hbD
    · obtain ⟨entry, hentry, rfl⟩ := List.mem_map.mp hm
      exact hD entry hentry
  rw [List.forall_mem_cons, List.forall_mem_cons, List.forall_mem_map] at hall
  obtain ⟨haD', hbD', hD'⟩ := hall
  have hcost := h₁.cost_le
  have hcost' := h₂.cost_le
  have hsame := h₂.same.trans h₁.same
  rw [kraft_perm hlengths.symm] at hkraft
  rcases Nat.le_total b' a' with hle | hle
  · obtain ⟨m, hm, hroom⟩ := exists_merged hle (List.forall_mem_map.mpr h₂.longest) hbD' hkraft
    refine ⟨m, others₂, hsame, by omega, hD', hroom, ?_⟩
    have hx' := Nat.mul_le_mul_left (v x) hle
    rw [hm, Nat.add_mul]
    omega
  · rw [kraft_perm (.swap _ _ _)] at hkraft
    obtain ⟨m, hm, hroom⟩ := exists_merged hle (List.forall_mem_map.mpr (h₁.longest_trans h₂)) haD' hkraft
    refine ⟨m, others₂, hsame, by omega, hD', hroom, ?_⟩
    have hy' := Nat.mul_le_mul_left (v y) hle
    rw [hm, Nat.add_mul]
    omega

end Lengths

end OptimalCode
