import Mathlib.Data.List.Infix
import Mathlib.Data.List.ReduceOption

/-! Histories: what each of their steps contributes, how deep their openings are nested, and
which of their attempts a quota lets through. -/
namespace Histories

variable {α β σ : Type*}

/-! Contributions. -/

def alongFrom (f : List α → α → List β) (before : List α) : List α → List β
  | [] => []
  | x :: l => f before x ++ alongFrom f (before ++ [x]) l

/-- What the steps of a history contribute, each of them seen after the steps before it. -/
def along (f : List α → α → List β) (l : List α) : List β := alongFrom f [] l

theorem alongFrom_append (f : List α → α → List β) (before l l' : List α) :
    alongFrom f before (l ++ l') = alongFrom f before l ++ alongFrom f (before ++ l) l' := by
  induction l generalizing before with
  | nil => simp [alongFrom]
  | cons y l ih =>
    rw [List.cons_append, alongFrom, ih, alongFrom, List.append_assoc, List.append_assoc,
      List.singleton_append]

theorem along_concat (f : List α → α → List β) (l : List α) (x : α) :
    along f (l ++ [x]) = along f l ++ f l x := by
  rw [along, alongFrom_append, alongFrom, alongFrom, List.append_nil]
  rfl

theorem prefix_along {before l : List α} (f : List α → α → List β) (h : before <+: l) :
    along f before <+: along f l := by
  obtain ⟨rest, rfl⟩ := h
  rw [along, along, alongFrom_append]
  exact List.prefix_append _ _

/-- Every contribution was made by some step. -/
theorem exists_of_mem_along {f : List α → α → List β} {l : List α} {b : β} (h : b ∈ along f l) :
    ∃ before x, before ++ [x] <+: l ∧ b ∈ f before x := by
  induction l using List.reverseRecOn with
  | nil => exact absurd h List.not_mem_nil
  | append_singleton l x ih =>
    rw [along_concat] at h
    rcases List.mem_append.mp h with hb | hb
    · obtain ⟨before, y, hbefore, hy⟩ := ih hb
      exact ⟨before, y, hbefore.trans (List.prefix_append l [x]), hy⟩
    · exact ⟨l, x, List.prefix_refl _, hb⟩

/-- A relation between states and histories that every step keeps holds after every run. -/
theorem foldl_tracks {step : σ → α → σ} {R : σ → List α → Prop} {start : σ} (h : R start [])
    {l : List α} (hstep : ∀ s before x, before ++ [x] <+: l → R s before →
      R (step s x) (before ++ [x])) : R (l.foldl step start) l := by
  induction l using List.reverseRecOn with
  | nil => exact h
  | append_singleton l x ih =>
    rw [List.foldl_append]
    refine hstep _ l x (List.prefix_refl _) (ih ?_)
    intro s before y hbefore
    exact hstep s before y (hbefore.trans (List.prefix_append l [x]))

/-! Nesting. A step opens (`some true`), closes (`some false`) or does neither. -/

variable {kind : α → Option Bool} {l since : List α} {x : α}

def nest (d : ℕ) : Option Bool → ℕ
  | none => d
  | some true => d + 1
  | some false => d - 1

/-- A closing without an opening changes nothing. -/
def depth (kind : α → Option Bool) (l : List α) : ℕ := l.foldl (fun d x => nest d (kind x)) 0

def openings (kind : α → Option Bool) (l : List α) : ℕ := l.countP fun x => kind x = some true

def closings (kind : α → Option Bool) (l : List α) : ℕ := l.countP fun x => kind x = some false

theorem depth_concat (kind : α → Option Bool) (l : List α) (x : α) :
    depth kind (l ++ [x]) = nest (depth kind l) (kind x) := by
  rw [depth, List.foldl_append]
  rfl

theorem openings_concat : openings kind (l ++ [x]) =
    openings kind l + if kind x = some true then 1 else 0 := by
  simp [openings, List.countP_append, List.countP_singleton]

theorem closings_concat : closings kind (l ++ [x]) =
    closings kind l + if kind x = some false then 1 else 0 := by
  simp [closings, List.countP_append, List.countP_singleton]

theorem depth_le_openings (kind : α → Option Bool) (l : List α) :
    depth kind l ≤ openings kind l := by
  induction l using List.reverseRecOn with
  | nil => exact Nat.zero_le _
  | append_singleton l x ih =>
    rw [depth_concat, openings_concat]
    cases hx : kind x with
    | none => simpa [nest] using ih
    | some opens => cases opens <;> simp only [nest] <;> simp <;> omega

/-- What was opened at any time since and not closed is still open. -/
theorem openings_le_depth (h : since <:+ l) :
    openings kind since ≤ depth kind l + closings kind since := by
  induction l using List.reverseRecOn generalizing since with
  | nil =>
    rw [List.suffix_nil.mp h]
    exact Nat.zero_le _
  | append_singleton l x ih =>
    rcases List.suffix_concat_iff.mp h with rfl | ⟨rest, rfl, hrest⟩
    · exact Nat.zero_le _
    · have hle := ih hrest
      rw [depth_concat, openings_concat, closings_concat]
      cases hx : kind x with
      | none => simpa [nest] using hle
      | some opens => cases opens <;> simp only [nest] <;> simp <;> omega

/-- Since some moment nothing but what is still open was opened and not closed. -/
theorem exists_depth (kind : α → Option Bool) (l : List α) :
    ∃ since, since <:+ l ∧ openings kind since = depth kind l + closings kind since := by
  induction l using List.reverseRecOn with
  | nil => exact ⟨[], List.suffix_refl [], rfl⟩
  | append_singleton l x ih =>
    obtain ⟨since, hsuffix, hsince⟩ := ih
    by_cases hempty : depth kind (l ++ [x]) = 0
    · refine ⟨[], List.nil_suffix, ?_⟩
      rw [hempty]
      rfl
    · refine ⟨since ++ [x], (List.suffix_concat_iff).mpr (Or.inr ⟨since, rfl, hsuffix⟩), ?_⟩
      rw [depth_concat] at hempty ⊢
      rw [openings_concat, closings_concat]
      cases hx : kind x with
      | none => simpa [nest] using hsince
      | some opens =>
        rw [hx] at hempty
        cases opens <;> simp only [nest] at hempty ⊢ <;> simp <;> omega

theorem depth_pos_iff : 0 < depth kind l ↔
    ∃ since, since <:+ l ∧ closings kind since < openings kind since := by
  constructor
  · intro hpos
    obtain ⟨since, hsuffix, hsince⟩ := exists_depth kind l
    exact ⟨since, hsuffix, by omega⟩
  · rintro ⟨since, hsuffix, hlt⟩
    have hle : openings kind since ≤ depth kind l + closings kind since :=
      openings_le_depth hsuffix
    omega

/-! Quotas. -/

/-- The attempts made until `limit` of them have succeeded. -/
def attempts (limit : ℕ) : List (Option β) → List (Option β)
  | [] => []
  | o :: l => if limit = 0 then [] else o :: attempts (if o.isSome then limit - 1 else limit) l

variable {limit : ℕ} {o : Option β} {outcomes : List (Option β)}

theorem reduceOption_attempts (limit : ℕ) (outcomes : List (Option β)) :
    (attempts limit outcomes).reduceOption = outcomes.reduceOption.take limit := by
  induction outcomes generalizing limit with
  | nil => simp [attempts]
  | cons o outcomes ih =>
    rw [attempts]
    split
    · rename_i hzero
      rw [hzero, List.take_zero, List.reduceOption_nil]
    · rename_i hpos
      cases o with
      | none =>
        rw [List.reduceOption_cons_of_none, List.reduceOption_cons_of_none, ih]
        rfl
      | some b =>
        obtain ⟨n, rfl⟩ := Nat.exists_eq_succ_of_ne_zero hpos
        rw [List.reduceOption_cons_of_some, List.reduceOption_cons_of_some, ih,
          List.take_succ_cons]
        rfl

theorem prefix_attempts (limit : ℕ) (outcomes : List (Option β)) :
    attempts limit outcomes <+: outcomes := by
  induction outcomes generalizing limit with
  | nil => exact List.prefix_refl _
  | cons o outcomes ih =>
    rw [attempts]
    split
    · exact List.nil_prefix
    · exact (List.prefix_cons_inj o).mpr (ih _)

/-- A further attempt is made while too few have succeeded. -/
theorem attempts_concat (limit : ℕ) (outcomes : List (Option β)) (o : Option β) :
    attempts limit (outcomes ++ [o]) = attempts limit outcomes ++
      if outcomes.reduceOption.length < limit then [o] else [] := by
  induction outcomes generalizing limit with
  | nil =>
    by_cases hzero : limit = 0
    · simp [attempts, hzero]
    · simp [attempts, hzero, Nat.pos_of_ne_zero hzero]
  | cons p outcomes ih =>
    rw [List.cons_append, attempts, attempts]
    split
    · rename_i hzero
      simp [hzero]
    · rename_i hpos
      rw [ih, List.cons_append]
      congr 2
      cases p with
      | none => rw [List.reduceOption_cons_of_none]; rfl
      | some b =>
        rw [List.reduceOption_cons_of_some, List.length_cons]
        have hiff : outcomes.reduceOption.length < limit - 1 ↔
            outcomes.reduceOption.length + 1 < limit := by omega
        exact if_congr hiff rfl rfl

end Histories
