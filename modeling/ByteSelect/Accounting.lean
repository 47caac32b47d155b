import Mathlib.Algebra.Order.BigOperators.Group.List
import Mathlib.Algebra.Order.Ring.Nat

/-! Accounts of items that are granted space in slots of fixed sizes: what one booking keeps, what
a whole book keeps, and how the books of two lists make up the book of both. -/
namespace Accounting

/-- The booking of one item: its size, what it needs, what it is granted and the slot it is put
into, if any. The weight is a further measure of the item. -/
structure Entry where
  weight : ℕ := 0
  size : ℕ
  used : ℕ
  granted : ℕ
  slot : Option ℕ

structure Totals where
  items : ℕ := 0
  weight : ℕ := 0
  size : ℕ := 0
  used : ℕ := 0
  granted : ℕ := 0
  slotted : ℕ := 0
  slots : List ℕ

variable {t u : Totals} {entry : Entry} {entries : List Entry} {targets : List ℕ}
  {itemSize k M : ℕ}

/-- The book over `k` slots before any booking. -/
def Totals.empty (k : ℕ) : Totals := { slots := List.replicate k 0 }

def Totals.add (t : Totals) (entry : Entry) : Totals where
  items := t.items + 1
  weight := t.weight + entry.weight
  size := t.size + entry.size
  used := t.used + entry.used
  granted := t.granted + entry.granted
  slotted := t.slotted + if entry.slot.isSome then 1 else 0
  slots := match entry.slot with
    | some i => t.slots.modify i (· + 1)
    | none => t.slots

def Totals.merge (t u : Totals) : Totals where
  items := t.items + u.items
  weight := t.weight + u.weight
  size := t.size + u.size
  used := t.used + u.used
  granted := t.granted + u.granted
  slotted := t.slotted + u.slotted
  slots := List.zipWith (· + ·) t.slots u.slots

def totals (k : ℕ) (entries : List Entry) : Totals := entries.foldl Totals.add (.empty k)

/-! Books of two lists. -/

theorem merge_empty (h : t.slots.length = k) : t.merge (.empty k) = t := by
  obtain ⟨items, weight, size, used, granted, slotted, slots⟩ := t
  have hslots : List.zipWith (· + ·) slots (List.replicate k 0) = slots := by
    subst h
    induction slots with
    | nil => rfl
    | cons n slots ih => exact congrArg (n :: ·) ih
  simp only [Totals.merge, Totals.empty, Nat.add_zero, hslots]

theorem zipWith_modify (l l' : List ℕ) (i : ℕ) :
    List.zipWith (· + ·) l (l'.modify i (· + 1)) =
      (List.zipWith (· + ·) l l').modify i (· + 1) := by
  induction l generalizing l' i with
  | nil => simp only [List.zipWith_nil_left, List.modify_nil]
  | cons n l ih =>
    cases l' with
    | nil => simp only [List.zipWith_nil_right, List.modify_nil]
    | cons n' l' =>
      cases i with
      | zero => rfl
      | succ i => exact congrArg ((n + n') :: ·) (ih l' i)

theorem merge_add (t u : Totals) (entry : Entry) :
    t.merge (u.add entry) = (t.merge u).add entry := by
  simp only [Totals.merge, Totals.add, Nat.add_assoc]
  cases entry.slot with
  | none => rfl
  | some i => simp only [zipWith_modify]

@[simp] theorem length_slots_add (t : Totals) (entry : Entry) :
    (t.add entry).slots.length = t.slots.length := by
  unfold Totals.add
  dsimp only
  split
  · exact List.length_modify _ _ _
  · rfl

theorem length_slots_foldl (entries : List Entry) (t : Totals) :
    (entries.foldl Totals.add t).slots.length = t.slots.length := by
  induction entries generalizing t with
  | nil => rfl
  | cons entry entries ih => rw [List.foldl_cons, ih, length_slots_add]

@[simp] theorem length_slots_totals (k : ℕ) (entries : List Entry) :
    (totals k entries).slots.length = k := by
  rw [totals, length_slots_foldl, Totals.empty, List.length_replicate]

theorem merge_foldl (entries : List Entry) (t u : Totals) :
    t.merge (entries.foldl Totals.add u) = entries.foldl Totals.add (t.merge u) := by
  induction entries generalizing u with
  | nil => rfl
  | cons entry entries ih => rw [List.foldl_cons, List.foldl_cons, ih, merge_add]

/-- The book of two lists is made up of their books. -/
theorem totals_append (k : ℕ) (xs ys : List Entry) :
    totals k (xs ++ ys) = (totals k xs).merge (totals k ys) := by
  rw [totals, List.foldl_append, totals, totals, merge_foldl]
  congr 1
  exact (merge_empty (length_slots_totals k xs)).symm

/-! The order of the bookings. -/

theorem modify_comm (l : List ℕ) (i j : ℕ) :
    (l.modify i (· + 1)).modify j (· + 1) = (l.modify j (· + 1)).modify i (· + 1) := by
  apply List.ext_getElem?
  intro n
  simp only [List.getElem?_modify]
  cases l[n]? with
  | none => rfl
  | some a => split <;> split <;> rfl

theorem add_right_comm (t : Totals) (first second : Entry) :
    (t.add first).add second = (t.add second).add first := by
  obtain ⟨weight, size, used, granted, slot⟩ := first
  obtain ⟨weight', size', used', granted', slot'⟩ := second
  simp only [Totals.add, Totals.mk.injEq, Nat.add_right_comm _ _ weight',
    Nat.add_right_comm _ _ size', Nat.add_right_comm _ _ used', Nat.add_right_comm _ _ granted']
  refine ⟨trivial, trivial, trivial, trivial, trivial, Nat.add_right_comm _ _ _, ?_⟩
  cases slot with
  | none => cases slot' <;> rfl
  | some i =>
    cases slot' with
    | none => rfl
    | some j => exact modify_comm _ _ _

/-- The book does not depend on the order of the bookings. -/
theorem totals_perm {xs ys : List Entry} (k : ℕ) (h : xs.Perm ys) : totals k xs = totals k ys :=
  h.foldl_eq' (fun first _ second _ t => add_right_comm t first second) _

/-! What a book keeps. -/

/-- A booking that is sound for slots of these sizes. -/
structure Sound (targets : List ℕ) (itemSize : ℕ) (entry : Entry) : Prop where
  size_eq : entry.size = itemSize
  weight_le : entry.weight ≤ entry.used
  used_le : entry.used ≤ entry.granted
  granted_le : entry.granted ≤ itemSize
  slotted : ∀ i, entry.slot = some i → targets[i]? = some entry.granted
  unslotted : entry.slot = none → entry.granted = itemSize

/-- Every item is in one slot or in none, and what is granted is what the slots and the items
outside of them take. -/
structure Totals.Conserved (t : Totals) (targets : List ℕ) (itemSize : ℕ) : Prop where
  slots_length : t.slots.length = targets.length
  slotted_eq : t.slotted = t.slots.sum
  slotted_le : t.slotted ≤ t.items
  granted_eq : t.granted =
    (List.zipWith (· * ·) t.slots targets).sum + (t.items - t.slotted) * itemSize
  weight_le : t.weight ≤ t.used
  used_le : t.used ≤ t.granted
  granted_le : t.granted ≤ t.size
  size_eq : t.size = t.items * itemSize

theorem conserved_empty (targets : List ℕ) (itemSize : ℕ) :
    (Totals.empty targets.length).Conserved targets itemSize := by
  have hzero : (List.zipWith (· * ·) (List.replicate targets.length 0) targets).sum = 0 := by
    induction targets with
    | nil => rfl
    | cons n targets ih =>
      rw [List.length_cons, List.replicate_succ, List.zipWith_cons_cons, List.sum_cons, ih,
        Nat.zero_mul]
  refine ⟨List.length_replicate, ?_, le_rfl, ?_, le_rfl, le_rfl, le_rfl, (Nat.zero_mul _).symm⟩
  · rw [Totals.empty, List.sum_replicate_nat, Nat.mul_zero]
  · rw [Totals.empty, hzero, Nat.sub_self, Nat.zero_mul]

theorem sum_modify {l : List ℕ} {i : ℕ} (h : i < l.length) :
    (l.modify i (· + 1)).sum = l.sum + 1 := by
  induction l generalizing i with
  | nil => cases h
  | cons n l ih =>
    cases i with
    | zero =>
      rw [List.modify_zero_cons, List.sum_cons, List.sum_cons]
      omega
    | succ i =>
      rw [List.modify_succ_cons, List.sum_cons, List.sum_cons, ih (Nat.lt_of_succ_lt_succ h)]
      omega

theorem sum_zipWith_modify {l : List ℕ} {i n : ℕ} (h : i < l.length) (ht : targets[i]? = some n) :
    (List.zipWith (· * ·) (l.modify i (· + 1)) targets).sum =
      (List.zipWith (· * ·) l targets).sum + n := by
  induction l generalizing i targets with
  | nil => cases h
  | cons a l ih =>
    cases targets with
    | nil => cases ht
    | cons b targets =>
      cases i with
      | zero =>
        cases ht
        rw [List.modify_zero_cons, List.zipWith_cons_cons, List.zipWith_cons_cons, List.sum_cons,
          List.sum_cons, Nat.succ_mul]
        omega
      | succ i =>
        rw [List.modify_succ_cons, List.zipWith_cons_cons, List.zipWith_cons_cons, List.sum_cons,
          List.sum_cons, ih (Nat.lt_of_succ_lt_succ h) ht]
        omega

theorem add_of_slot {i : ℕ} (h : entry.slot = some i) :
    (t.add entry).slotted = t.slotted + 1 ∧ (t.add entry).slots = t.slots.modify i (· + 1) := by
  unfold Totals.add
  rw [h]
  exact ⟨rfl, rfl⟩

theorem add_of_no_slot (h : entry.slot = none) :
    (t.add entry).slotted = t.slotted ∧ (t.add entry).slots = t.slots := by
  unfold Totals.add
  rw [h]
  exact ⟨rfl, rfl⟩

/-- A sound booking keeps the book. -/
theorem Totals.Conserved.add (h : t.Conserved targets itemSize)
    (hentry : Sound targets itemSize entry) :
    (t.add entry).Conserved targets itemSize := by
  have hlength := (length_slots_add t entry).trans h.slots_length
  have hitems : (t.add entry).items = t.items + 1 := rfl
  have hgranted : (t.add entry).granted = t.granted + entry.granted := rfl
  have hweight : (t.add entry).weight ≤ (t.add entry).used :=
    Nat.add_le_add h.weight_le hentry.weight_le
  have hused : (t.add entry).used ≤ (t.add entry).granted :=
    Nat.add_le_add h.used_le hentry.used_le
  have hsize : (t.add entry).granted ≤ (t.add entry).size :=
    Nat.add_le_add h.granted_le (hentry.granted_le.trans hentry.size_eq.ge)
  have htotal : (t.add entry).size = (t.add entry).items * itemSize := by
    rw [hitems, Nat.succ_mul, ← h.size_eq, ← hentry.size_eq]
    rfl
  cases hslot : entry.slot with
  | some i =>
    obtain ⟨hslotted, hslots⟩ := add_of_slot (t := t) hslot
    have htarget := hentry.slotted i hslot
    have hlt : i < t.slots.length :=
      h.slots_length ▸ (List.getElem?_eq_some_iff.mp htarget).1
    refine ⟨hlength, ?_, ?_, ?_, hweight, hused, hsize, htotal⟩
    · rw [hslotted, hslots, sum_modify hlt, h.slotted_eq]
    · rw [hslotted, hitems]
      exact Nat.succ_le_succ h.slotted_le
    · rw [hgranted, hslots, sum_zipWith_modify hlt htarget, h.granted_eq, hitems, hslotted,
        Nat.add_sub_add_right]
      omega
  | none =>
    obtain ⟨hslotted, hslots⟩ := add_of_no_slot (t := t) hslot
    refine ⟨hlength, ?_, ?_, ?_, hweight, hused, hsize, htotal⟩
    · rw [hslotted, hslots, h.slotted_eq]
    · rw [hslotted, hitems]
      exact Nat.le_succ_of_le h.slotted_le
    · rw [hgranted, hslots, h.granted_eq, hitems, hslotted, Nat.succ_sub h.slotted_le,
        Nat.succ_mul, hentry.unslotted hslot, Nat.add_assoc]

theorem conserved_foldl (h : t.Conserved targets itemSize)
    (hentries : ∀ entry ∈ entries, Sound targets itemSize entry) :
    (entries.foldl Totals.add t).Conserved targets itemSize := by
  induction entries generalizing t with
  | nil => exact h
  | cons entry entries ih =>
    rw [List.forall_mem_cons] at hentries
    exact ih (h.add hentries.1) hentries.2

/-- A book of sound bookings is conserved. -/
theorem conserved_totals (hentries : ∀ entry ∈ entries, Sound targets itemSize entry) :
    (totals targets.length entries).Conserved targets itemSize :=
  conserved_foldl (conserved_empty targets itemSize) hentries

theorem items_totals (k : ℕ) (entries : List Entry) :
    (totals k entries).items = entries.length := by
  have hloop : ∀ t : Totals, (entries.foldl Totals.add t).items = t.items + entries.length := by
    induction entries with
    | nil => exact fun _ => rfl
    | cons entry entries ih =>
      intro t
      rw [List.foldl_cons, ih, List.length_cons]
      change t.items + 1 + entries.length = _
      omega
  rw [totals, hloop]
  exact Nat.zero_add _

/-! What the items cost when every slot has its price, and an item outside of them another. -/

def cost (prices : List ℕ) (other : ℕ) : Option ℕ → ℕ
  | some i => prices.getD i 0
  | none => other

def Totals.cost (t : Totals) (prices : List ℕ) (other : ℕ) : ℕ :=
  (List.zipWith (· * ·) t.slots prices).sum + (t.items - t.slotted) * other

section Cost

variable {prices : List ℕ}

theorem cost_add (other : ℕ) (hlength : t.slots.length = prices.length) (hle : t.slotted ≤ t.items)
    (hslot : ∀ i, entry.slot = some i → i < prices.length) :
    (t.add entry).cost prices other = t.cost prices other + cost prices other entry.slot := by
  have hitems : (t.add entry).items = t.items + 1 := rfl
  cases hentry : entry.slot with
  | some i =>
    obtain ⟨hslotted, hslots⟩ := add_of_slot (t := t) hentry
    have hlt := hslot i hentry
    rw [Totals.cost, Totals.cost, hitems, hslotted, hslots,
      sum_zipWith_modify (hlength ▸ hlt) (List.getElem?_eq_getElem hlt), Nat.add_sub_add_right,
      cost, List.getD_eq_getElem?_getD, List.getElem?_eq_getElem hlt]
    exact Nat.add_right_comm _ _ _
  | none =>
    obtain ⟨hslotted, hslots⟩ := add_of_no_slot (t := t) hentry
    rw [Totals.cost, Totals.cost, hitems, hslotted, hslots, Nat.succ_sub hle, Nat.succ_mul, cost]
    exact (Nat.add_assoc _ _ _).symm

theorem slotted_le_add (hle : t.slotted ≤ t.items) (entry : Entry) :
    (t.add entry).slotted ≤ (t.add entry).items := by
  unfold Totals.add
  dsimp only
  split <;> omega

/-- The cost of a book is that of its items. -/
theorem cost_totals (other : ℕ)
    (hslots : ∀ entry ∈ entries, ∀ i, entry.slot = some i → i < prices.length) :
    (totals prices.length entries).cost prices other =
      (entries.map fun entry => cost prices other entry.slot).sum := by
  have hloop : ∀ t : Totals, t.slots.length = prices.length → t.slotted ≤ t.items →
      (entries.foldl Totals.add t).cost prices other =
        t.cost prices other + (entries.map fun entry => cost prices other entry.slot).sum := by
    induction entries with
    | nil => exact fun _ _ _ => rfl
    | cons entry entries ih =>
      intro t hlength hle
      rw [List.forall_mem_cons] at hslots
      rw [List.foldl_cons, ih hslots.2 _ ((length_slots_add t entry).trans hlength)
        (slotted_le_add hle entry), cost_add other hlength hle hslots.1, List.map_cons,
        List.sum_cons, Nat.add_assoc]
  have hempty := conserved_empty prices other
  rw [totals, hloop _ hempty.slots_length hempty.slotted_le, Totals.cost, ← hempty.granted_eq]
  exact Nat.zero_add _

end Cost

/-! Counters that start over. -/

/-- The book in counters that start over at `M`. -/
def Totals.wrap (M : ℕ) (t : Totals) : Totals where
  items := t.items % M
  weight := t.weight % M
  size := t.size % M
  used := t.used % M
  granted := t.granted % M
  slotted := t.slotted % M
  slots := t.slots.map (· % M)

def Totals.addMod (M : ℕ) (t : Totals) (entry : Entry) : Totals where
  items := (t.items + 1) % M
  weight := (t.weight + entry.weight) % M
  size := (t.size + entry.size) % M
  used := (t.used + entry.used) % M
  granted := (t.granted + entry.granted) % M
  slotted := (t.slotted + if entry.slot.isSome then 1 else 0) % M
  slots := match entry.slot with
    | some i => t.slots.modify i fun n => (n + 1) % M
    | none => t.slots

def Totals.mergeMod (M : ℕ) (t u : Totals) : Totals where
  items := (t.items + u.items) % M
  weight := (t.weight + u.weight) % M
  size := (t.size + u.size) % M
  used := (t.used + u.used) % M
  granted := (t.granted + u.granted) % M
  slotted := (t.slotted + u.slotted) % M
  slots := List.zipWith (fun a b => (a + b) % M) t.slots u.slots

theorem wrap_empty (M k : ℕ) : (Totals.empty k).wrap M = .empty k := by
  simp only [Totals.wrap, Totals.empty, Nat.zero_mod, List.map_replicate]

theorem map_mod_modify (M : ℕ) (l : List ℕ) (i : ℕ) :
    (l.map (· % M)).modify i (fun n => (n + 1) % M) = (l.modify i (· + 1)).map (· % M) := by
  induction l generalizing i with
  | nil => simp only [List.map_nil, List.modify_nil]
  | cons n l ih =>
    cases i with
    | zero =>
      rw [List.map_cons, List.modify_zero_cons, List.modify_zero_cons, List.map_cons,
        Nat.mod_add_mod]
    | succ i => exact congrArg (n % M :: ·) (ih i)

/-- Booking commutes with starting over. -/
theorem wrap_add (M : ℕ) (t : Totals) (entry : Entry) :
    (t.add entry).wrap M = (t.wrap M).addMod M entry := by
  simp only [Totals.wrap, Totals.add, Totals.addMod, Nat.mod_add_mod]
  cases entry.slot with
  | none => rfl
  | some i => simp only [map_mod_modify]

theorem zipWith_mod (M : ℕ) (l l' : List ℕ) :
    List.zipWith (fun a b => (a + b) % M) (l.map (· % M)) (l'.map (· % M)) =
      (List.zipWith (· + ·) l l').map (· % M) := by
  rw [List.zipWith_map, List.map_zipWith]
  congr 1
  funext a b
  exact (Nat.add_mod a b M).symm

theorem wrap_merge (M : ℕ) (t u : Totals) :
    (t.merge u).wrap M = (t.wrap M).mergeMod M (u.wrap M) := by
  simp only [Totals.wrap, Totals.merge, Totals.mergeMod, ← Nat.add_mod, zipWith_mod]

/-- A conserved book whose items fit into the counters fits as a whole. -/
theorem Totals.Conserved.wrap_eq (h : t.Conserved targets itemSize) (hsize : t.size < M)
    (hitems : t.items < M) : t.wrap M = t := by
  have hslots : t.slots.map (· % M) = t.slots := by
    conv_rhs => rw [← List.map_id t.slots]
    apply List.map_congr_left
    intro n hn
    have hle : n ≤ t.slots.sum := List.single_le_sum (fun _ _ => Nat.zero_le _) n hn
    rw [← h.slotted_eq] at hle
    exact Nat.mod_eq_of_lt ((hle.trans h.slotted_le).trans_lt hitems)
  have hgranted := h.granted_le.trans_lt hsize
  have hused := h.used_le.trans_lt hgranted
  obtain ⟨items, weight, size, used, granted, slotted, slots⟩ := t
  simp only [Totals.wrap, Totals.mk.injEq]
  exact ⟨Nat.mod_eq_of_lt hitems, Nat.mod_eq_of_lt (h.weight_le.trans_lt hused),
    Nat.mod_eq_of_lt hsize, Nat.mod_eq_of_lt hused, Nat.mod_eq_of_lt hgranted,
    Nat.mod_eq_of_lt (h.slotted_le.trans_lt hitems), hslots⟩

/-! Loops that book. -/

section Loop

variable {ε β σ : Type} {step : σ → β → Except ε σ} {book : Totals → σ}
  {entryOf : β → Except ε Entry} {bs : List β}

/-- A loop that books the entry of each item ends with the book of all of them. -/
theorem foldlM_book
    (h : ∀ t b, step (book t) b = (entryOf b).map fun entry => book (t.add entry)) (bs : List β)
    (t : Totals) : bs.foldlM step (book t) =
      (bs.mapM entryOf).map fun entries => book (entries.foldl Totals.add t) := by
  induction bs generalizing t with
  | nil => rfl
  | cons b bs ih =>
    rw [List.foldlM_cons, List.mapM_cons, h]
    cases entryOf b with
    | error e => rfl
    | ok entry =>
      change bs.foldlM step (book (t.add entry)) = _
      rw [ih]
      cases bs.mapM entryOf with
      | error e => rfl
      | ok entries => rfl

theorem forall₂_mapM (h : bs.mapM entryOf = .ok entries) :
    List.Forall₂ (fun b entry => entryOf b = .ok entry) bs entries := by
  induction bs generalizing entries with
  | nil =>
    cases h
    exact .nil
  | cons b bs ih =>
    rw [List.mapM_cons] at h
    cases hentry : entryOf b with
    | error e =>
      rw [hentry] at h
      cases h
    | ok entry =>
      cases hentries : bs.mapM entryOf with
      | error e =>
        rw [hentry, hentries] at h
        cases h
      | ok rest =>
        rw [hentry, hentries] at h
        cases h
        exact .cons hentry (ih hentries)

theorem sound_mapM (h : bs.mapM entryOf = .ok entries)
    (hsound : ∀ b ∈ bs, ∀ entry, entryOf b = .ok entry → Sound targets itemSize entry) :
    ∀ entry ∈ entries, Sound targets itemSize entry := by
  have hall := forall₂_mapM h
  clear h
  induction hall with
  | nil => exact fun _ hentry => absurd hentry List.not_mem_nil
  | cons hentry _ ih =>
    rw [List.forall_mem_cons] at hsound ⊢
    exact ⟨hsound.1 _ hentry, ih hsound.2⟩

end Loop

end Accounting
