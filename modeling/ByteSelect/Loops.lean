import Mathlib.Data.List.Induction
import Mathlib.Data.List.Perm.Basic

/-! Loops that may fail: what they make of their items when they succeed, and when they do. -/
namespace Loops

variable {ε α β σ : Type} {f : α → Except ε β} {step : σ → α → Except ε σ} {start result : σ}
  {l l' : List α} {out : List β}

theorem bind_eq_ok_iff {x : Except ε α} {g : α → Except ε β} {b : β} :
    (x >>= g) = .ok b ↔ ∃ a, x = .ok a ∧ g a = .ok b := by
  cases x <;> simp [bind, Except.bind]

theorem mapError_eq_ok {ε' : Type} {x : Except ε α} {g : ε → ε'} {a : α} :
    x.mapError g = .ok a ↔ x = .ok a := by
  cases x with
  | error e => exact iff_of_false (fun h => by cases h) fun h => by cases h
  | ok b => exact ⟨fun h => congrArg Except.ok (Except.ok.inj h), fun h => by rw [h]; rfl⟩

/-! Item by item. -/

theorem mapM_eq_ok_iff : l.mapM f = .ok out ↔ List.Forall₂ (fun a b => f a = .ok b) l out := by
  induction l generalizing out with
  | nil =>
    rw [List.mapM_nil, List.forall₂_nil_left_iff]
    exact ⟨fun h => (Except.ok.inj h).symm, fun h => h ▸ rfl⟩
  | cons a l ih =>
    rw [List.mapM_cons, bind_eq_ok_iff, List.forall₂_cons_left_iff]
    constructor
    · rintro ⟨b, ha, hrest⟩
      obtain ⟨rest, hl, hout⟩ := bind_eq_ok_iff.mp hrest
      exact ⟨b, rest, ha, ih.mp hl, (Except.ok.inj hout).symm⟩
    · rintro ⟨b, rest, ha, hl, rfl⟩
      refine ⟨b, ha, bind_eq_ok_iff.mpr ⟨rest, ih.mpr hl, rfl⟩⟩

theorem exists_mapM_ok (h : ∀ a ∈ l, ∃ b, f a = .ok b) : ∃ out, l.mapM f = .ok out := by
  induction l with
  | nil => exact ⟨[], rfl⟩
  | cons a l ih =>
    rw [List.forall_mem_cons] at h
    obtain ⟨b, hb⟩ := h.1
    obtain ⟨out, hout⟩ := ih h.2
    exact ⟨b :: out, mapM_eq_ok_iff.mpr (.cons hb (mapM_eq_ok_iff.mp hout))⟩

theorem exists_of_mem_left {R : α → β → Prop} (h : List.Forall₂ R l out) {a : α} (ha : a ∈ l) :
    ∃ b ∈ out, R a b := by
  induction h with
  | nil => cases ha
  | @cons x y l out hxy _ ih =>
    rcases List.mem_cons.mp ha with rfl | ha
    · exact ⟨y, List.mem_cons_self, hxy⟩
    · obtain ⟨b, hb, hab⟩ := ih ha
      exact ⟨b, List.mem_cons_of_mem y hb, hab⟩

theorem exists_forall₂ {R : α → β → Prop} (h : ∀ a ∈ l, ∃ b, R a b) :
    ∃ out, List.Forall₂ R l out := by
  induction l with
  | nil => exact ⟨[], .nil⟩
  | cons a l ih =>
    rw [List.forall_mem_cons] at h
    obtain ⟨b, hb⟩ := h.1
    obtain ⟨out, hout⟩ := ih h.2
    exact ⟨b :: out, .cons hb hout⟩

theorem forall₂_comp_iff {γ : Type} {R : α → β → Prop} {S : β → γ → Prop} {last : List γ} :
    List.Forall₂ (fun a c => ∃ b, R a b ∧ S b c) l last ↔
      ∃ out, List.Forall₂ R l out ∧ List.Forall₂ S out last := by
  constructor
  · intro h
    induction h with
    | nil => exact ⟨[], .nil, .nil⟩
    | cons hstep _ ih =>
      obtain ⟨b, hab, hbc⟩ := hstep
      obtain ⟨out, hfirst, hsecond⟩ := ih
      exact ⟨b :: out, .cons hab hfirst, .cons hbc hsecond⟩
  · rintro ⟨out, hfirst, hsecond⟩
    induction hfirst generalizing last with
    | nil =>
      cases hsecond
      exact .nil
    | cons hab _ ih =>
      obtain ⟨c, rest, hbc, hrest, rfl⟩ := List.forall₂_cons_left_iff.mp hsecond
      exact .cons ⟨_, hab, hbc⟩ (ih hrest)

theorem map_eq_of_forall₂ {γ : Type} {g : α → γ} {k : β → γ}
    (h : List.Forall₂ (fun a b => g a = k b) l out) : l.map g = out.map k := by
  induction h with
  | nil => rfl
  | cons heq _ ih => rw [List.map_cons, List.map_cons, heq, ih]

theorem forall₂_congr_left {R S : α → β → Prop} (h : ∀ a ∈ l, ∀ b, R a b ↔ S a b) :
    List.Forall₂ R l out ↔ List.Forall₂ S l out := by
  induction l generalizing out with
  | nil => rw [List.forall₂_nil_left_iff, List.forall₂_nil_left_iff]
  | cons a l ih =>
    rw [List.forall_mem_cons] at h
    simp only [List.forall₂_cons_left_iff, h.1, ih h.2]

theorem exists_pair_iff {γ : Type} {P : α → Prop} {Q : γ → Prop} {T : α → γ → Prop} :
    (∃ a, P a ∧ ∃ c, Q c ∧ T a c) ↔ ∃ k : α × γ, (P k.1 ∧ Q k.2) ∧ T k.1 k.2 := by
  simp only [Prod.exists, and_assoc, exists_and_left]

/-- A loop in a context that has to be found first: where every result tells of one, and in every
one the items have the same results, the results are all that counts. -/
theorem exists_mapM_iff {κ : Type} {Context : κ → Prop} {g : κ → α → Except ε β}
    {R : α → β → Prop} (hne : l ≠ []) (hcontext : ∀ a ∈ l, ∀ b, R a b → ∃ k, Context k)
    (hitem : ∀ k, Context k → ∀ a ∈ l, ∀ b, g k a = .ok b ↔ R a b) :
    (∃ k, Context k ∧ l.mapM (g k) = .ok out) ↔ List.Forall₂ R l out := by
  constructor
  · rintro ⟨k, hk, h⟩
    exact (forall₂_congr_left (hitem k hk)).mp (mapM_eq_ok_iff.mp h)
  · intro h
    obtain ⟨a, ha⟩ := List.exists_mem_of_ne_nil l hne
    obtain ⟨b, -, hab⟩ := exists_of_mem_left h ha
    obtain ⟨k, hk⟩ := hcontext a ha b hab
    exact ⟨k, hk, mapM_eq_ok_iff.mpr ((forall₂_congr_left (hitem k hk)).mpr h)⟩

theorem exists_forall₂_and {γ : Type} {R : α → β → Prop} {S : α → γ → Prop} {T : β → γ → Prop}
    (h : List.Forall₂ R l out) (hstep : ∀ a b, R a b → ∃ c, S a c ∧ T b c) :
    ∃ last, List.Forall₂ S l last ∧ List.Forall₂ T out last := by
  induction h with
  | nil => exact ⟨[], .nil, .nil⟩
  | cons hab _ ih =>
    obtain ⟨c, hac, hbc⟩ := hstep _ _ hab
    obtain ⟨last, hfirst, hsecond⟩ := ih
    exact ⟨c :: last, .cons hac hfirst, .cons hbc hsecond⟩

/-- Where an item determines what it is related to, the results are those of a function. -/
theorem exists_map_eq [Nonempty β] {R : α → β → Prop} (hR : Relator.RightUnique R)
    (h : List.Forall₂ R l out) : ∃ g : α → β, out = l.map g ∧ ∀ a b, R a b → g a = b := by
  have hvalue : ∀ a, ∃ b, ∀ b', R a b' → b = b' := by
    intro a
    by_cases ha : ∃ b, R a b
    · obtain ⟨b, hb⟩ := ha
      exact ⟨b, fun b' hb' => hR hb hb'⟩
    · exact ⟨Classical.arbitrary β, fun b' hb' => absurd ⟨b', hb'⟩ ha⟩
  choose g hg using hvalue
  have hmap : l.map g = out.map id := map_eq_of_forall₂ (h.imp hg)
  exact ⟨g, (hmap.trans (List.map_id out)).symm, hg⟩

/-- The items in another order give the same results in that order. -/
theorem mapM_perm (h : l.mapM f = .ok out) (hperm : l'.Perm l) :
    ∃ out', l'.mapM f = .ok out' ∧ out'.Perm out := by
  obtain ⟨out', hout', hsame⟩ := List.perm_comp_forall₂ hperm (mapM_eq_ok_iff.mp h)
  exact ⟨out', mapM_eq_ok_iff.mpr hout', hsame⟩

/-! One item after another. -/

/-- What every step extends describes what a loop makes of its items. -/
theorem foldlM_eq_ok_iff {Spec : List α → σ → Prop} (hstart : ∀ s, Spec [] s ↔ s = start)
    (hstep : ∀ before a next, before ++ [a] <+: l →
      (Spec (before ++ [a]) next ↔ ∃ s, Spec before s ∧ step s a = .ok next)) :
    l.foldlM step start = .ok result ↔ Spec l result := by
  induction l using List.reverseRecOn generalizing result with
  | nil =>
    rw [List.foldlM_nil, hstart]
    exact ⟨fun h => (Except.ok.inj h).symm, fun h => h ▸ rfl⟩
  | append_singleton before a ih =>
    have hbefore : ∀ s, before.foldlM step start = .ok s ↔ Spec before s := fun s =>
      ih fun before' a' next hpart => hstep before' a' next
        (hpart.trans (List.prefix_append before [a]))
    rw [List.foldlM_append, bind_eq_ok_iff, hstep before a result List.prefix_rfl]
    simp only [hbefore, List.foldlM_cons, List.foldlM_nil, bind_eq_ok_iff]
    constructor
    · rintro ⟨s, hs, next, hnext, hresult⟩
      cases hresult
      exact ⟨s, hs, hnext⟩
    · rintro ⟨s, hs, hnext⟩
      exact ⟨s, hs, result, hnext, rfl⟩

/-- A loop over a view of the state gives the view of what the loop over the state gives. -/
theorem foldlM_view {τ : Type} {view : σ → τ} {step' : τ → α → Except ε τ}
    (h : ∀ s a, step' (view s) a = (step s a).map view) (l : List α) (s : σ) :
    l.foldlM step' (view s) = (l.foldlM step s).map view := by
  induction l generalizing s with
  | nil => rfl
  | cons a l ih =>
    rw [List.foldlM_cons, List.foldlM_cons, h]
    cases step s a with
    | error e => rfl
    | ok next => exact ih next

end Loops
