import ByteSelect.OptimalCode
import Mathlib.Data.Nat.Fib.Basic

/-! Binary trees over symbols, and forests whose two lightest trees are merged again and again. -/
inductive CodeTree (α : Type*) where
  | leaf (symbol : α)
  | node (left right : CodeTree α)

namespace CodeTree

open CanonicalCode (kraft)

section Trees

variable {α : Type*} {w : α → ℕ} {t l r : CodeTree α} {D d k : ℕ} {a : α}

def leaves : CodeTree α → List α
  | leaf a => [a]
  | node l r => l.leaves ++ r.leaves

/-- The leaves with their depths, in a tree whose root has depth `d`. -/
def depths : CodeTree α → ℕ → List (α × ℕ)
  | leaf a, d => [(a, d)]
  | node l r, d => l.depths (d + 1) ++ r.depths (d + 1)

def height : CodeTree α → ℕ
  | leaf _ => 0
  | node l r => max l.height r.height + 1

def weight (w : α → ℕ) : CodeTree α → ℕ
  | leaf a => w a
  | node l r => l.weight w + r.weight w

def children : CodeTree α → List (CodeTree α)
  | leaf _ => []
  | node l r => [l, r]

theorem map_fst_depths (t : CodeTree α) (d : ℕ) : (t.depths d).map Prod.fst = t.leaves := by
  induction t generalizing d with
  | leaf a => rfl
  | node l r ihl ihr => rw [depths, List.map_append, ihl, ihr, leaves]

theorem weight_eq_sum (w : α → ℕ) (t : CodeTree α) : t.weight w = (t.leaves.map w).sum := by
  induction t with
  | leaf a => simp [weight, leaves]
  | node l r ihl ihr => rw [weight, ihl, ihr, leaves, List.map_append, List.sum_append]

theorem le_of_mem_depths (h : (a, k) ∈ t.depths d) : d ≤ k ∧ k ≤ d + t.height := by
  induction t generalizing d with
  | leaf b =>
    cases List.mem_singleton.mp h
    exact ⟨Nat.le_refl _, Nat.le_refl _⟩
  | node l r ihl ihr =>
    rw [height]
    cases List.mem_append.mp h with
    | inl hl =>
      have := ihl hl
      omega
    | inr hr =>
      have := ihr hr
      omega

theorem exists_mem_depths (ha : a ∈ t.leaves) (d : ℕ) : ∃ k, (a, k) ∈ t.depths d := by
  rw [← map_fst_depths t d] at ha
  obtain ⟨⟨b, k⟩, hmem, rfl⟩ := List.mem_map.mp ha
  exact ⟨k, hmem⟩

theorem height_lt_length_leaves (t : CodeTree α) : t.height < t.leaves.length := by
  induction t with
  | leaf a => exact Nat.one_pos
  | node l r ihl ihr =>
    rw [height, leaves, List.length_append]
    omega

/-- The leaves of a tree use up what there is below its root. -/
theorem kraft_depths (h : d + t.height ≤ D) :
    kraft D ((t.depths d).map Prod.snd) = 2 ^ (D - d) := by
  induction t generalizing d with
  | leaf a => simp [depths, kraft]
  | node l r ihl ihr =>
    rw [height] at h
    have hsplit : D - d = D - (d + 1) + 1 := by omega
    have hl := @ihl (d + 1) (by omega)
    have hr := @ihr (d + 1) (by omega)
    rw [kraft] at hl hr
    rw [depths, kraft, List.map_append, List.map_append, List.sum_append, hl, hr, hsplit,
      Nat.pow_succ]
    omega

/-- What the words of a tree cost: a bit for each node above a leaf. -/
def cost (w : α → ℕ) : CodeTree α → ℕ
  | leaf _ => 0
  | node l r => l.cost w + r.cost w + (l.weight w + r.weight w)

theorem sum_depths (w : α → ℕ) (t : CodeTree α) (d : ℕ) :
    ((t.depths d).map fun x => w x.1 * x.2).sum = t.weight w * d + t.cost w := by
  induction t generalizing d with
  | leaf a => simp [depths, weight, cost]
  | node l r ihl ihr =>
    rw [depths, List.map_append, List.sum_append, ihl, ihr, weight, cost, Nat.mul_succ,
      Nat.mul_succ, Nat.add_mul]
    omega

section Words

variable [DecidableEq α] {b : α}

/-- The path to a leaf: the left subtrees at zero. -/
def codeWord : CodeTree α → α → List Bool
  | leaf _, _ => []
  | node l r, a => if a ∈ l.leaves then false :: l.codeWord a else true :: r.codeWord a

theorem length_codeWord (hnodup : t.leaves.Nodup) (h : (a, k) ∈ t.depths d) :
    d + (t.codeWord a).length = k := by
  induction t generalizing d with
  | leaf b =>
    cases List.mem_singleton.mp h
    rfl
  | node l r ihl ihr =>
    rw [leaves, List.nodup_append] at hnodup
    obtain ⟨hl, hr, hdisjoint⟩ := hnodup
    rw [depths, List.mem_append] at h
    rw [codeWord]
    rcases h with h | h
    · have hmem : a ∈ l.leaves := map_fst_depths l (d + 1) ▸ List.mem_map_of_mem h
      have hlen := ihl hl h
      rw [if_pos hmem, List.length_cons]
      omega
    · have hmem : a ∈ r.leaves := map_fst_depths r (d + 1) ▸ List.mem_map_of_mem h
      have hout : a ∉ l.leaves := fun hmem' => hdisjoint a hmem' a hmem rfl
      have hlen := ihr hr h
      rw [if_neg hout, List.length_cons]
      omega

theorem prefixFree_codeWord (t : CodeTree α) :
    OptimalCode.PrefixFree t.leaves t.codeWord := by
  induction t with
  | leaf c =>
    intro a ha b hb _
    rw [List.mem_singleton.mp ha, List.mem_singleton.mp hb]
  | node l r ihl ihr =>
    intro a ha b hb hprefix
    rw [leaves, List.mem_append] at ha hb
    rw [codeWord, codeWord] at hprefix
    by_cases hal : a ∈ l.leaves
    · by_cases hbl : b ∈ l.leaves
      · rw [if_pos hal, if_pos hbl, List.cons_prefix_cons] at hprefix
        exact ihl a hal b hbl hprefix.2
      · rw [if_pos hal, if_neg hbl, List.cons_prefix_cons] at hprefix
        cases hprefix.1
    · by_cases hbl : b ∈ l.leaves
      · rw [if_neg hal, if_pos hbl, List.cons_prefix_cons] at hprefix
        cases hprefix.1
      · rw [if_neg hal, if_neg hbl, List.cons_prefix_cons] at hprefix
        exact ihr a (ha.resolve_left hal) b (hb.resolve_left hbl) hprefix.2

end Words

/-- No tree is lighter than the children of the tree next to it. -/
def Ordered (w : α → ℕ) : CodeTree α → Prop
  | leaf _ => True
  | node l r => l.Ordered w ∧ r.Ordered w ∧ (∀ c ∈ l.children, c.weight w ≤ r.weight w) ∧
      ∀ c ∈ r.children, c.weight w ≤ l.weight w

/-- The heaviness of a tree grows with its height like the Fibonacci numbers. -/
theorem fib_le_weight (hw : ∀ a ∈ t.leaves, 1 ≤ w a) (h : t.Ordered w) :
    Nat.fib (t.height + 2) ≤ t.weight w ∧
      (0 < t.height → ∃ c ∈ t.children, Nat.fib (t.height + 1) ≤ c.weight w) := by
  induction t with
  | leaf a => exact ⟨hw a (List.mem_singleton.mpr rfl), fun hpos => absurd hpos (Nat.lt_irrefl 0)⟩
  | node l r ihl ihr =>
    obtain ⟨hl, hr, hlr, hrl⟩ := h
    obtain ⟨hl₁, hl₂⟩ := ihl (fun a ha => hw a (List.mem_append_left _ ha)) hl
    obtain ⟨hr₁, hr₂⟩ := ihr (fun a ha => hw a (List.mem_append_right _ ha)) hr
    -- one child is as high as the other; the other outweighs a child of it
    have hstep : ∀ high low : CodeTree α, high.height + 1 = (node l r).height →
        Nat.fib (high.height + 2) ≤ high.weight w → Nat.fib (low.height + 2) ≤ low.weight w →
        (0 < high.height → ∃ c ∈ high.children, Nat.fib (high.height + 1) ≤ c.weight w) →
        (∀ c ∈ high.children, c.weight w ≤ low.weight w) → high ∈ (node l r).children →
        high.weight w + low.weight w = (node l r).weight w →
        Nat.fib ((node l r).height + 2) ≤ (node l r).weight w ∧
          (0 < (node l r).height →
            ∃ c ∈ (node l r).children, Nat.fib ((node l r).height + 1) ≤ c.weight w) := by
      intro high low hheight hhigh hlow hchild hcover hmem hsum
      rw [← hheight, ← hsum]
      refine ⟨?_, fun _ => ⟨high, hmem, hhigh⟩⟩
      have hfib : Nat.fib (high.height + 1 + 2) =
          Nat.fib (high.height + 1) + Nat.fib (high.height + 2) := Nat.fib_add_two
      have hother : Nat.fib (high.height + 1) ≤ low.weight w := by
        rcases Nat.eq_zero_or_pos high.height with hzero | hpos
        · have hone : 1 ≤ Nat.fib (low.height + 2) := Nat.fib_pos.mpr (by omega)
          rw [hzero]
          exact hone.trans hlow
        · obtain ⟨c, hc, hfibc⟩ := hchild hpos
          exact hfibc.trans (hcover c hc)
      omega
    rcases Nat.le_total r.height l.height with hle | hle
    · have hheight : l.height + 1 = (node l r).height := by
        rw [height, Nat.max_eq_left hle]
      exact hstep l r hheight hl₁ hr₁ hl₂ hlr List.mem_cons_self rfl
    · have hheight : r.height + 1 = (node l r).height := by
        rw [height, Nat.max_eq_right hle]
      exact hstep r l hheight hr₁ hl₁ hr₂ hrl (List.mem_cons_of_mem _ (List.mem_singleton.mpr rfl))
        (Nat.add_comm _ _)

end Trees

/-! Merging. -/

variable {α : Type*} {w : α → ℕ} {forest forest' rest : List (CodeTree α)} {symbols : List α}
  {l r t : CodeTree α}

/-- What merging two trees that no other is lighter than keeps. -/
def MergeInvariant (w : α → ℕ) (P : List (CodeTree α) → Prop) : Prop :=
  ∀ l r rest forest', P (l :: r :: rest) → (∀ t ∈ rest, l.weight w ≤ t.weight w) →
    (∀ t ∈ rest, r.weight w ≤ t.weight w) → forest'.Perm (node l r :: rest) → P forest'

theorem MergeInvariant.and {P Q : List (CodeTree α) → Prop} (hP : MergeInvariant w P)
    (hQ : MergeInvariant w Q) : MergeInvariant w fun forest => P forest ∧ Q forest :=
  fun l r rest forest' h hl hr hperm =>
    ⟨hP l r rest forest' h.1 hl hr hperm, hQ l r rest forest' h.2 hl hr hperm⟩

/-- A forest over the symbols none of whose trees is lighter than a child of one of them. -/
structure Forest (w : α → ℕ) (symbols : List α) (forest : List (CodeTree α)) : Prop where
  leaves : (forest.flatMap CodeTree.leaves).Perm symbols
  ordered : ∀ t ∈ forest, t.Ordered w
  children_le : ∀ t ∈ forest, ∀ c ∈ t.children, ∀ t' ∈ forest, c.weight w ≤ t'.weight w

theorem forest_leaves (w : α → ℕ) (symbols : List α) : Forest w symbols (symbols.map leaf) := by
  refine ⟨?_, ?_, ?_⟩
  · rw [List.flatMap_map]
    exact List.Perm.of_eq (List.flatMap_singleton' symbols)
  · intro t ht
    obtain ⟨a, -, rfl⟩ := List.mem_map.mp ht
    trivial
  · intro t ht c hc
    obtain ⟨a, -, rfl⟩ := List.mem_map.mp ht
    cases hc

theorem Forest.perm (h : Forest w symbols forest) (hperm : forest'.Perm forest) :
    Forest w symbols forest' := by
  have hmem : ∀ t ∈ forest', t ∈ forest := fun t ht => hperm.mem_iff.mp ht
  exact ⟨(hperm.flatMap_right _).trans h.leaves, fun t ht => h.ordered t (hmem t ht),
    fun t ht c hc t' ht' => h.children_le t (hmem t ht) c hc t' (hmem t' ht')⟩

theorem mergeInvariant_forest (w : α → ℕ) (symbols : List α) :
    MergeInvariant w (Forest w symbols) := by
  intro l r rest forest' h hl hr hperm'
  have hlmem : l ∈ l :: r :: rest := List.mem_cons_self
  have hrmem : r ∈ l :: r :: rest := List.mem_cons_of_mem _ List.mem_cons_self
  have hold : ∀ t ∈ rest, t ∈ l :: r :: rest := fun t ht =>
    List.mem_cons_of_mem _ (List.mem_cons_of_mem _ ht)
  have hnew : (node l r).weight w = l.weight w + r.weight w := rfl
  refine ⟨?_, ?_, ?_⟩
  · have hsame : (node l r :: rest).flatMap CodeTree.leaves =
        (l :: r :: rest).flatMap CodeTree.leaves := by
      simp [CodeTree.leaves]
    refine (hperm'.flatMap_right _).trans ?_
    rw [hsame]
    exact h.leaves
  · intro t ht
    cases List.mem_cons.mp (hperm'.mem_iff.mp ht) with
    | inl hfirst =>
      subst hfirst
      exact ⟨h.ordered l hlmem, h.ordered r hrmem, fun c hc => h.children_le l hlmem c hc r hrmem,
        fun c hc => h.children_le r hrmem c hc l hlmem⟩
    | inr hrest => exact h.ordered t (hold t hrest)
  · intro t ht c hc t' ht'
    have hlight : ∀ c : CodeTree α, c.weight w ≤ l.weight w ∨ c.weight w ≤ r.weight w →
        (∀ t' ∈ rest, c.weight w ≤ t'.weight w) → c.weight w ≤ t'.weight w := by
      intro c hpair hothers
      cases List.mem_cons.mp (hperm'.mem_iff.mp ht') with
      | inl hfirst =>
        rw [hfirst, hnew]
        omega
      | inr hrest => exact hothers t' hrest
    cases List.mem_cons.mp (hperm'.mem_iff.mp ht) with
    | inl hfirst =>
      subst hfirst
      cases List.mem_cons.mp hc with
      | inl hleft =>
        subst hleft
        exact hlight c (Or.inl (Nat.le_refl _)) hl
      | inr hright =>
        obtain rfl := List.mem_singleton.mp hright
        exact hlight c (Or.inr (Nat.le_refl _)) hr
    | inr hrest =>
      have hchild := h.children_le t (hold t hrest) c hc
      exact hlight c (Or.inl (hchild l hlmem)) fun t' ht' => hchild t' (hold t' ht')

theorem Forest.leaves_perm (h : Forest w symbols [t]) : t.leaves.Perm symbols := by
  have hleaves := h.leaves
  rwa [List.flatMap_singleton] at hleaves

/-- A tree that is left alone is no higher than its weight allows. -/
theorem Forest.height_lt {n : ℕ} (h : Forest w symbols [t]) (hw : ∀ a ∈ symbols, 1 ≤ w a)
    (hn : (symbols.map w).sum < Nat.fib (n + 2)) : t.height < n := by
  have hleaves := h.leaves_perm
  have hweight : t.weight w = (symbols.map w).sum := by
    rw [weight_eq_sum]
    exact (hleaves.map w).sum_eq
  have hfib := (fib_le_weight (fun a ha => hw a (hleaves.mem_iff.mp ha))
    (h.ordered t (List.mem_singleton.mpr rfl))).1
  by_contra hge
  have hmono : Nat.fib (n + 2) ≤ Nat.fib (t.height + 2) := Nat.fib_mono (by omega)
  omega

/-! Optimal forests. -/

/-- Whatever lengths the symbols get that leave room for a prefix code, the trees can get lengths
that leave room and cost no more. -/
def Optimal (w : α → ℕ) (symbols : List α) (forest : List (CodeTree α)) : Prop :=
  ∀ (D : ℕ) (len : α → ℕ), (∀ a ∈ symbols, len a ≤ D) → kraft D (symbols.map len) ≤ 2 ^ D →
    ∃ assigned : List (CodeTree α × ℕ), (assigned.map Prod.fst).Perm forest ∧
      (∀ entry ∈ assigned, entry.2 ≤ D) ∧ kraft D (assigned.map Prod.snd) ≤ 2 ^ D ∧
      OptimalCode.cost (CodeTree.weight w) assigned + (forest.map (CodeTree.cost w)).sum ≤
        (symbols.map fun a => w a * len a).sum

theorem optimal_leaves (w : α → ℕ) (symbols : List α) : Optimal w symbols (symbols.map leaf) := by
  intro D len hD hkraft
  refine ⟨symbols.map fun a => (leaf a, len a), ?_, ?_, ?_, ?_⟩
  · rw [List.map_map]
    exact .refl _
  · exact List.forall_mem_map.mpr hD
  · rw [List.map_map]
    exact hkraft
  · rw [OptimalCode.cost, List.map_map, List.map_map]
    have hzero : (symbols.map (CodeTree.cost w ∘ leaf)).sum = 0 :=
      List.sum_eq_zero fun x hx => by
        obtain ⟨a, -, rfl⟩ := List.mem_map.mp hx
        rfl
    rw [hzero]
    exact Nat.le_refl _

theorem Optimal.perm (h : Optimal w symbols forest) (hperm : forest'.Perm forest) :
    Optimal w symbols forest' := by
  intro D len hD hkraft
  obtain ⟨assigned, hsame, hrest⟩ := h D len hD hkraft
  rw [(hperm.map (CodeTree.cost w)).sum_eq]
  exact ⟨assigned, hsame.trans hperm.symm, hrest⟩

/-- An element of a mapped list comes first in some order. -/
theorem exists_cons_of_map_perm {β γ : Type*} {f : β → γ} {l : List β} {c : γ} {rest : List γ}
    (h : (l.map f).Perm (c :: rest)) :
    ∃ x l', f x = c ∧ l.Perm (x :: l') ∧ (l'.map f).Perm rest := by
  obtain ⟨x, hx, rfl⟩ := List.mem_map.mp (h.mem_iff.mpr List.mem_cons_self)
  obtain ⟨front, back, rfl⟩ := List.append_of_mem hx
  refine ⟨x, front ++ back, rfl, List.perm_middle, ?_⟩
  exact (((List.perm_middle.map f).symm.trans h)).cons_inv

theorem mergeInvariant_optimal (w : α → ℕ) (symbols : List α) :
    MergeInvariant w (Optimal w symbols) := by
  intro l r rest forest' h hl hr hperm
  suffices hmerged : Optimal w symbols (node l r :: rest) from hmerged.perm hperm
  intro D len hD hkraft
  obtain ⟨assigned, hsame, hbound, hroom, hcost⟩ := h D len hD hkraft
  obtain ⟨⟨first, a⟩, assigned₁, hfirst, hperm₁, hsame₁⟩ := exists_cons_of_map_perm hsame
  obtain ⟨⟨second, b⟩, others, hsecond, hperm₂, hothers⟩ := exists_cons_of_map_perm hsame₁
  obtain rfl : l = first := hfirst.symm
  obtain rfl : r = second := hsecond.symm
  have hall := hperm₁.trans (hperm₂.cons _)
  have hmem : ∀ entry ∈ others, entry.1 ∈ rest := fun entry hentry =>
    hothers.mem_iff.mp (List.mem_map_of_mem hentry)
  have hbound' : ∀ entry ∈ (l, a) :: (r, b) :: others, entry.2 ≤ D := fun entry hentry =>
    hbound entry (hall.mem_iff.mpr hentry)
  rw [List.forall_mem_cons, List.forall_mem_cons] at hbound'
  rw [OptimalCode.kraft_perm (hall.map Prod.snd)] at hroom
  rw [OptimalCode.cost_perm hall, OptimalCode.cost_cons, OptimalCode.cost_cons] at hcost
  obtain ⟨m, others', hsame', hm, hD', hroom', hcost'⟩ := OptimalCode.exists_merge_lightest
    (fun entry hentry => hl entry.1 (hmem entry hentry))
    (fun entry hentry => hr entry.1 (hmem entry hentry)) hbound'.1 hbound'.2.1 hbound'.2.2 hroom
  refine ⟨(node l r, m) :: others', ?_, List.forall_mem_cons.mpr ⟨hm, hD'⟩, hroom', ?_⟩
  · rw [List.map_cons, hsame']
    exact hothers.cons _
  · rw [Nat.mul_succ] at hcost'
    rw [OptimalCode.cost_cons]
    dsimp only at hcost'
    simp only [List.map_cons, List.sum_cons, CodeTree.cost, CodeTree.weight] at hcost ⊢
    omega

/-- One optimal tree costs no more than any lengths that leave room for a prefix code. -/
theorem Optimal.cost_le (h : Optimal w symbols [t]) {D : ℕ} {len : α → ℕ}
    (hD : ∀ a ∈ symbols, len a ≤ D) (hkraft : kraft D (symbols.map len) ≤ 2 ^ D) :
    t.cost w ≤ (symbols.map fun a => w a * len a).sum := by
  obtain ⟨assigned, -, -, -, hcost⟩ := h D len hD hkraft
  rw [List.map_singleton, List.sum_singleton] at hcost
  exact (Nat.le_add_left _ _).trans hcost

end CodeTree
