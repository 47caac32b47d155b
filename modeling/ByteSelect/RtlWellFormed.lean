import ByteSelect.RtlDecompressor

/-! Which models yield well-formed hardware: the widths, literals and labels of the four texts. -/
namespace ByteSelect

open SystemVerilog Ident

variable {model : Model} {set : PatternSet} {i : ℕ}

/-! The widths of the fields, without wrap-around. -/

def Model.blockWidth (model : Model) : ℕ := model.blockSize.val * 8

/-- The identifier and the dictionary of a set. -/
def PatternSet.fieldWidths (set : PatternSet) : List ℕ :=
  [set.metadataBytes.val * 8, (set.targetSize.val - set.metadataBytes.val) * 8]

def Model.maxIdWidth (model : Model) : ℕ :=
  model.sets.foldl (fun result set => max result (set.metadataBytes.val * 8)) 0

def Model.maxDictionaryWidth (model : Model) : ℕ :=
  model.sets.foldl (fun result set => max result (set.targetSize.val - set.metadataBytes.val)) 0 * 8

def compressorWidths (model : Model) (set : PatternSet) : List ℕ :=
  model.blockWidth :: set.fieldWidths

def decompressorWidths (model : Model) (set : PatternSet) : List ℕ :=
  set.fieldWidths ++ [model.blockWidth]

/-- The ports, the wires of each set, and the selects of each set in the order of the targets. -/
def topCompressorWidths (model : Model) : List ℕ :=
  [model.blockWidth, model.maxIdWidth, model.maxDictionaryWidth, 16] ++
    model.sets.flatMap PatternSet.fieldWidths ++
    (setOrder model).flatMap fun x => x.1.fieldWidths

/-- The ports, then the wires and selects of each set. -/
def topDecompressorWidths (model : Model) : List ℕ :=
  [16, model.maxIdWidth, model.maxDictionaryWidth, model.blockWidth] ++
    model.sets.flatMap fun set => model.blockWidth :: set.fieldWidths

/-- All modules of a model's hardware are well formed. -/
structure WellFormedRtl (model : Model) : Prop where
  compressors : ∀ i set, model.sets[i]? = some set →
    (compressorModule model set i).WellFormed (compressorWidths model set)
  decompressors : ∀ i set, model.sets[i]? = some set →
    (decompressorModule model set i).WellFormed (decompressorWidths model set)
  topCompressor : (topCompressorModule model).WellFormed (topCompressorWidths model)
  topDecompressor : (topDecompressorModule model).WellFormed (topDecompressorWidths model)

/-- The bounds the generators rely on and the validator does not check. -/
structure RtlBounds (model : Model) : Prop where
  block_le : model.blockSize.val ≤ 2 ^ 61
  bytes_pos : ∀ set ∈ model.sets, 1 ≤ set.metadataBytes.val
  target_lt : ∀ set ∈ model.sets, set.targetSize.val < 2 ^ 16

/-! Bounds. -/

theorem boundOf_bytes {n : SizeT} : BoundOf (n * 8 - 1).val (n.val * 8) ↔
    1 ≤ n.val ∧ n.val ≤ 2 ^ 61 := by
  have h8 : ((8 : SizeT) : ℕ) = 8 := rfl
  have h1 : ((1 : SizeT) : ℕ) = 1 := rfl
  have hn := n.isLt
  rw [BoundOf, Fin.sub_def, Fin.val_mul, h8, h1]
  dsimp only
  omega

theorem boundOf_sub_one {n : SizeT} {w : ℕ} (hn : n.val = w) (hw : 1 ≤ w) :
    BoundOf (n - 1).val w := by
  have h1 : ((1 : SizeT) : ℕ) = 1 := rfl
  rw [BoundOf, Fin.sub_val_of_le (by rw [Fin.le_def]; omega), hn, h1]
  exact ⟨hw, rfl⟩

theorem val_foldl_max {α : Type} (f : α → SizeT) (l : List α) (m : SizeT) :
    (l.foldl (fun result a => max result (f a)) m).val =
      l.foldl (fun result a => max result (f a).val) m.val := by
  induction l generalizing m with
  | nil => rfl
  | cons a l ih => rw [List.foldl_cons, List.foldl_cons, ih, Fin.coe_max]

theorem foldl_max_mul (l : List PatternSet) (f : PatternSet → ℕ) (m : ℕ) :
    m ≤ l.foldl (fun result set => max result (f set)) m ∧
      ∀ set ∈ l, f set ≤ l.foldl (fun result set => max result (f set)) m := by
  induction l generalizing m with
  | nil => simp
  | cons a l ih =>
    obtain ⟨hm, hl⟩ := ih (max m (f a))
    rw [List.foldl_cons, List.forall_mem_cons]
    exact ⟨(le_max_left _ _).trans hm, (le_max_right _ _).trans hm, hl⟩

/-! The numbers in the modules. -/

theorem guardExpr_numbers (p : Pattern) :
    (guardExpr p).bounds = [] ∧ (guardExpr p).literals = [] := by
  have hchain : ∀ (l : List (ℕ × ℕ)) (e : Expr Ident), e.bounds = [] ∧ e.literals = [] →
      (l.foldl (fun e x => Expr.and e (.paren (.eq (.byteAt blockI (bit x.1))
        (.byteAt blockI (bit x.2))))) e).bounds = [] ∧
      (l.foldl (fun e x => Expr.and e (.paren (.eq (.byteAt blockI (bit x.1))
        (.byteAt blockI (bit x.2))))) e).literals = [] := by
    intro l
    induction l with
    | nil => exact fun e he => he
    | cons x l ih =>
      intro e he
      apply ih
      simp [Expr.bounds, Expr.literals, he]
  exact hchain _ _ ⟨rfl, rfl⟩

theorem compressorStmt_numbers (x : Pattern × ℕ) : (compressorStmt set x).bounds = [] ∧
    (compressorStmt set x).literals = [((set.metadataBytes * 8).val, (idOf set x.2).val)] ∧
    (compressorStmt set x).labels = [] := by
  obtain ⟨hbounds, hliterals⟩ := guardExpr_numbers x.1
  refine ⟨?_, ?_, rfl⟩
  · simp [compressorStmt, compressorBody, Assign.bounds, Target.bounds, Expr.bounds,
      List.flatMap_map, hbounds]
  · simp [compressorStmt, compressorBody, Assign.literals, Expr.literals, List.flatMap_map,
      hliterals]

theorem compressorModule_bounds : (compressorModule model set i).bounds =
    [(model.blockSize * 8 - 1).val, (set.metadataBytes * 8 - 1).val,
      (set.dictionarySize * 8 - 1).val] := by
  simp [Module.bounds, compressorModule, Item.bounds, Assign.bounds, Target.bounds, Expr.bounds,
    List.flatMap_map, compressorStmt_numbers]

theorem compressorModule_literals : (compressorModule model set i).literals =
    set.patterns.toList.zipIdx.map fun x => ((set.metadataBytes * 8).val, (idOf set x.2).val) := by
  simp [Module.literals, compressorModule, Item.literals, Assign.literals, Expr.literals,
    List.flatMap_map, compressorStmt_numbers]

theorem compressorModule_labels : (compressorModule model set i).labels = [] := by
  simp [Module.labels, compressorModule, Item.labels, List.flatMap_map, compressorStmt_numbers]

theorem decompressorModule_bounds : (decompressorModule model set i).bounds =
    [(set.metadataBytes * 8 - 1).val, (set.dictionarySize * 8 - 1).val,
      (model.blockSize * 8 - 1).val] := by
  simp [Module.bounds, decompressorModule, decompressorArm, Item.bounds, Assign.bounds,
    Target.bounds, Expr.bounds, List.flatMap_map]

theorem decompressorModule_literals : (decompressorModule model set i).literals =
    set.patterns.toList.zipIdx.map fun x => ((set.metadataBytes * 8).val, (idOf set x.2).val) := by
  simp [Module.literals, decompressorModule, decompressorArm, Item.literals, Assign.literals,
    Expr.literals, List.flatMap_map]

theorem decompressorModule_labels : (decompressorModule model set i).labels =
    [(decompressorModule model set i).literals] := by
  rw [decompressorModule_literals]
  simp [Module.labels, decompressorModule, decompressorArm, Item.labels, Expr.literals,
    List.flatMap_map]

/-- The bounds that one set adds to the top modules. -/
def setBounds (set : PatternSet) : List ℕ :=
  [(set.metadataBytes * 8 - 1).val, (set.dictionarySize * 8 - 1).val]

theorem flatMap_zipIdx_fst {α β : Type} (f : α → List β) (l : List α) (k : ℕ) :
    (l.zipIdx k).flatMap (fun x => f x.1) = l.flatMap f := by
  rw [← List.flatMap_map, List.zipIdx_map_fst]

theorem topCompressorModule_bounds : (topCompressorModule model).bounds =
    [(model.blockSize * 8 - 1).val, (maxIdBits model - 1).val,
      (maxDictionaryBytes model * 8 - 1).val, 15] ++ model.sets.flatMap setBounds ++
      (setOrder model).flatMap fun x => setBounds x.1 := by
  rw [← flatMap_zipIdx_fst setBounds model.sets 0]
  simp [Module.bounds, topCompressorModule, compressorItems, selectStmt, selectBody, Item.bounds,
    Assign.bounds, Target.bounds, Expr.bounds, List.flatMap_map, List.flatMap_assoc, setBounds]

theorem topCompressorModule_literals : (topCompressorModule model).literals =
    (setOrder model).map fun x => (16, x.1.targetSize.val) := by
  simp [Module.literals, topCompressorModule, compressorItems, selectStmt, selectBody,
    Item.literals, Assign.literals, Expr.literals, List.flatMap_map, List.flatMap_assoc]

theorem topCompressorModule_labels : (topCompressorModule model).labels = [] := by
  simp [Module.labels, topCompressorModule, compressorItems, selectStmt, Item.labels,
    List.flatMap_map, List.flatMap_assoc]

theorem topDecompressorModule_bounds : (topDecompressorModule model).bounds =
    [15, (maxIdBits model - 1).val, (maxDictionaryBytes model * 8 - 1).val,
      (model.blockSize * 8 - 1).val] ++
      model.sets.flatMap fun set => (model.blockSize * 8 - 1).val :: setBounds set := by
  rw [← flatMap_zipIdx_fst _ model.sets 0]
  simp [Module.bounds, topDecompressorModule, decompressorItems, decompressorInputs, targetArm,
    Item.bounds, Assign.bounds, Target.bounds, Expr.bounds, List.flatMap_map, List.flatMap_assoc,
    setBounds]

theorem topDecompressorModule_literals : (topDecompressorModule model).literals =
    model.sets.zipIdx.map fun x => (16, x.1.targetSize.val) := by
  simp [Module.literals, topDecompressorModule, decompressorItems, decompressorInputs, targetArm,
    Item.literals, Assign.literals, Expr.literals, List.flatMap_map, List.flatMap_assoc]

theorem topDecompressorModule_labels : (topDecompressorModule model).labels =
    [(topDecompressorModule model).literals] := by
  rw [topDecompressorModule_literals]
  simp [Module.labels, topDecompressorModule, decompressorItems, targetArm, Item.labels,
    Expr.literals, List.flatMap_map, List.flatMap_assoc]

/-! Identifiers. -/

/-- The pattern index is what identifiers of one set differ in. -/
theorem ValidSet.idOf_injective {blockSize : SizeT} (h : ValidSet blockSize set) {j k : ℕ}
    (hj : j < set.patterns.size) (hk : k < set.patterns.size)
    (he : (idOf set j).val = (idOf set k).val) : j = k := by
  have hok := encode_idOf h hj
  have hok' := encode_idOf h hk
  rw [h.encode_ok hj, Except.ok.injEq] at hok
  rw [h.encode_ok hk, Except.ok.injEq] at hok'
  rw [← hok, ← hok'] at he
  by_cases ht : set.metadataTagBits = 0
  · rwa [if_pos ht, if_pos ht, val_ofNat_index hj, val_ofNat_index hk] at he
  · rw [if_neg ht, if_neg ht, h.val_tagged ht hj, h.val_tagged ht hk] at he
    omega

/-- What the modules of one set say about identifiers. -/
theorem ValidSet.id_literals {blockSize : SizeT} (h : ValidSet blockSize set) :
    (∀ x ∈ set.patterns.toList.zipIdx.map fun x => ((set.metadataBytes * 8).val,
      (idOf set x.2).val), x.2 < 2 ^ x.1) ∧
    ((set.patterns.toList.zipIdx.map fun x => ((set.metadataBytes * 8).val,
      (idOf set x.2).val)).map fun x => x.2 % 2 ^ x.1).Nodup := by
  have hbits : (set.metadataBytes * 8).val = set.metadataBytes.val * 8 :=
    val_metadataBits h.layout.bytes_le
  have hindex : ∀ x ∈ set.patterns.toList.zipIdx, x.2 < set.patterns.size := by
    intro x hx
    obtain ⟨hlt, -⟩ := List.getElem?_eq_some_iff.mp (List.mem_zipIdx_iff_getElem?.mp hx)
    exact hlt
  constructor
  · intro x hx
    obtain ⟨y, hy, rfl⟩ := List.mem_map.mp hx
    dsimp only
    rw [hbits]
    exact h.idOf_lt (hindex y hy)
  · rw [List.map_map]
    refine List.Nodup.map_on ?_ (List.Nodup.of_map Prod.snd (nodup_snd_zipIdx _))
    intro x hx y hy he
    simp only [Function.comp_apply, hbits, Nat.mod_eq_of_lt (h.idOf_lt (hindex x hx)),
      Nat.mod_eq_of_lt (h.idOf_lt (hindex y hy))] at he
    have hsnd := h.idOf_injective (hindex x hx) (hindex y hy) he
    have hx' := List.mem_zipIdx_iff_getElem?.mp hx
    have hy' := List.mem_zipIdx_iff_getElem?.mp hy
    rw [hsnd, hy', Option.some_inj] at hx'
    exact Prod.ext hx'.symm hsnd

/-! The bounds make the modules well formed. -/

theorem forall₂_flatMap {α β γ : Type} {R : β → γ → Prop} {f : α → List β} {g : α → List γ}
    {l : List α} (h : ∀ a ∈ l, List.Forall₂ R (f a) (g a)) :
    List.Forall₂ R (l.flatMap f) (l.flatMap g) := by
  induction l with
  | nil => exact .nil
  | cons a l ih =>
    rw [List.forall_mem_cons] at h
    rw [List.flatMap_cons, List.flatMap_cons]
    exact List.rel_append h.1 (ih h.2)

theorem foldl_max_val_eq {f : PatternSet → SizeT} {g : PatternSet → ℕ} {l : List PatternSet}
    (h : ∀ set ∈ l, (f set).val = g set) :
    (l.foldl (fun result set => max result (f set)) 0).val =
      l.foldl (fun result set => max result (g set)) 0 := by
  rw [val_foldl_max]
  exact List.foldl_ext _ _ _ fun m set hset => by rw [h set hset]

section Bounds

variable (hv : ValidModel model) (hb : RtlBounds model)
include hv hb

theorem boundOf_block : BoundOf (model.blockSize * 8 - 1).val model.blockWidth :=
  boundOf_bytes.mpr ⟨hv.block_pos, hb.block_le⟩

theorem setBounds_fieldWidths (hset : set ∈ model.sets) :
    List.Forall₂ BoundOf (setBounds set) set.fieldWidths := by
  have hlt := (hv.sets_valid set hset).metadata_lt
  have hpos := hb.bytes_pos set hset
  have htarget := hb.target_lt set hset
  have hdict := val_dictionarySize hlt
  refine .cons (boundOf_bytes.mpr ⟨hpos, by omega⟩) (.cons ?_ .nil)
  rw [← hdict]
  exact boundOf_bytes.mpr ⟨by omega, by omega⟩

theorem boundOf_maxIdBits : BoundOf (maxIdBits model - 1).val model.maxIdWidth := by
  obtain ⟨set, hset⟩ := List.exists_mem_of_ne_nil _ hv.sets_ne
  have hpos := hb.bytes_pos set hset
  have hmax := (foldl_max_mul model.sets (fun set => set.metadataBytes.val * 8) 0).2 set hset
  refine boundOf_sub_one (foldl_max_val_eq ?_) (le_trans (by omega) hmax)
  exact fun set hset => val_metadataBits (hv.sets_valid set hset).layout.bytes_le

theorem boundOf_maxDictionary :
    BoundOf (maxDictionaryBytes model * 8 - 1).val model.maxDictionaryWidth := by
  have hsizes : ∀ set ∈ model.sets, set.dictionarySize.val =
      set.targetSize.val - set.metadataBytes.val :=
    fun set hset => val_dictionarySize (hv.sets_valid set hset).metadata_lt
  have hval := foldl_max_val_eq hsizes
  obtain ⟨set, hset⟩ := List.exists_mem_of_ne_nil _ hv.sets_ne
  have hlt := (hv.sets_valid set hset).metadata_lt
  have hmax := (foldl_max_mul model.sets
    (fun set => set.targetSize.val - set.metadataBytes.val) 0).2 set hset
  obtain ⟨hbound, -, -⟩ := foldl_max_spec (b := maxDictionaryBytes model) (m := 0) (n := 2 ^ 16)
    (by decide) (fun set hset => by
      have := hb.target_lt set hset
      have := hsizes set hset
      omega) rfl
  rw [Model.maxDictionaryWidth, ← hval]
  refine boundOf_bytes.mpr ⟨?_, ?_⟩
  · change 1 ≤ (model.sets.foldl (fun m set => max m (PatternSet.dictionarySize set)) 0).val
    omega
  · omega

theorem compressorModule_wellFormed (hset : model.sets[i]? = some set) :
    (compressorModule model set i).WellFormed (compressorWidths model set) := by
  have hmem := List.mem_of_getElem? hset
  refine ⟨?_, ?_, ?_⟩
  · rw [compressorModule_bounds]
    exact .cons (boundOf_block hv hb) (setBounds_fieldWidths hv hb hmem)
  · rw [compressorModule_literals]
    exact (hv.sets_valid set hmem).id_literals.1
  · rw [compressorModule_labels]
    simp

theorem decompressorModule_wellFormed (hset : model.sets[i]? = some set) :
    (decompressorModule model set i).WellFormed (decompressorWidths model set) := by
  have hmem := List.mem_of_getElem? hset
  obtain ⟨hliterals, hlabels⟩ := (hv.sets_valid set hmem).id_literals
  refine ⟨?_, ?_, ?_⟩
  · rw [decompressorModule_bounds]
    exact List.rel_append (setBounds_fieldWidths hv hb hmem) (.cons (boundOf_block hv hb) .nil)
  · rw [decompressorModule_literals]
    exact hliterals
  · rw [decompressorModule_labels, decompressorModule_literals]
    intro labels hmem
    rw [List.mem_singleton.mp hmem]
    exact hlabels

theorem topCompressorModule_wellFormed :
    (topCompressorModule model).WellFormed (topCompressorWidths model) := by
  have hmem : ∀ x ∈ setOrder model, x.1 ∈ model.sets :=
    fun x hx => List.mem_of_getElem? (mem_setOrder.mp hx)
  refine ⟨?_, ?_, ?_⟩
  · rw [topCompressorModule_bounds]
    have hports : List.Forall₂ BoundOf
        [(model.blockSize * 8 - 1).val, (maxIdBits model - 1).val,
          (maxDictionaryBytes model * 8 - 1).val, 15]
        [model.blockWidth, model.maxIdWidth, model.maxDictionaryWidth, 16] :=
      .cons (boundOf_block hv hb) (.cons (boundOf_maxIdBits hv hb)
        (.cons (boundOf_maxDictionary hv hb) (.cons ⟨by decide, rfl⟩ .nil)))
    refine List.rel_append (List.rel_append hports ?_) ?_
    · exact forall₂_flatMap fun set hset => setBounds_fieldWidths hv hb hset
    · exact forall₂_flatMap fun x hx => setBounds_fieldWidths hv hb (hmem x hx)
  · rw [topCompressorModule_literals]
    intro x hx
    obtain ⟨y, hy, rfl⟩ := List.mem_map.mp hx
    exact hb.target_lt _ (hmem y hy)
  · rw [topCompressorModule_labels]
    simp

theorem topDecompressorModule_wellFormed :
    (topDecompressorModule model).WellFormed (topDecompressorWidths model) := by
  refine ⟨?_, ?_, ?_⟩
  · rw [topDecompressorModule_bounds]
    have hports : List.Forall₂ BoundOf
        [15, (maxIdBits model - 1).val, (maxDictionaryBytes model * 8 - 1).val,
          (model.blockSize * 8 - 1).val]
        [16, model.maxIdWidth, model.maxDictionaryWidth, model.blockWidth] :=
      .cons ⟨by decide, rfl⟩ (.cons (boundOf_maxIdBits hv hb)
        (.cons (boundOf_maxDictionary hv hb) (.cons (boundOf_block hv hb) .nil)))
    refine List.rel_append hports (forall₂_flatMap ?_)
    exact fun set hset => .cons (boundOf_block hv hb) (setBounds_fieldWidths hv hb hset)
  · rw [topDecompressorModule_literals]
    intro x hx
    obtain ⟨y, hy, rfl⟩ := List.mem_map.mp hx
    exact hb.target_lt _ (List.mem_of_getElem? (List.mem_zipIdx_iff_getElem?.mp hy))
  · rw [topDecompressorModule_labels, topDecompressorModule_literals]
    intro labels hmem
    rw [List.mem_singleton.mp hmem, List.map_map]
    have htargets : (model.sets.zipIdx.map fun x => x.1.targetSize).Nodup := by
      have hnodup := hv.targets_nodup
      rwa [← List.zipIdx_map_fst 0 model.sets, List.map_map] at hnodup
    refine List.Nodup.map_on ?_ (List.Nodup.of_map _ htargets)
    intro x hx y hy he
    have hlt : ∀ z ∈ model.sets.zipIdx, z.1.targetSize.val < 2 ^ 16 := fun z hz =>
      hb.target_lt _ (List.mem_of_getElem? (List.mem_zipIdx_iff_getElem?.mp hz))
    simp only [Function.comp_apply, Nat.mod_eq_of_lt (hlt x hx), Nat.mod_eq_of_lt (hlt y hy)] at he
    exact List.inj_on_of_nodup_map htargets hx hy (Fin.ext he)

end Bounds

theorem wellFormedRtl_iff (hv : ValidModel model) : WellFormedRtl model ↔ RtlBounds model := by
  constructor
  · intro h
    obtain ⟨first, hfirst⟩ := List.exists_mem_of_ne_nil _ hv.sets_ne
    have hfields : ∀ set ∈ model.sets, BoundOf (model.blockSize * 8 - 1).val model.blockWidth ∧
        BoundOf (set.metadataBytes * 8 - 1).val (set.metadataBytes.val * 8) := by
      intro set hset
      obtain ⟨i, hi⟩ := List.getElem?_of_mem hset
      have hbounds := (h.compressors i set hi).bounds
      rw [compressorModule_bounds] at hbounds
      rcases hbounds with - | ⟨hblock, - | ⟨hid, -⟩⟩
      exact ⟨hblock, hid⟩
    refine ⟨(boundOf_bytes.mp (hfields first hfirst).1).2, ?_, ?_⟩
    · exact fun set hset => (boundOf_bytes.mp (hfields set hset).2).1
    · intro set hset
      obtain ⟨i, hi⟩ := List.getElem?_of_mem hset
      have hliterals := h.topCompressor.literals
      rw [topCompressorModule_literals] at hliterals
      exact hliterals _ (List.mem_map.mpr ⟨(set, i), mem_setOrder.mpr hi, rfl⟩)
  · intro hb
    exact ⟨fun i set => compressorModule_wellFormed hv hb,
      fun i set => decompressorModule_wellFormed hv hb,
      topCompressorModule_wellFormed hv hb, topDecompressorModule_wellFormed hv hb⟩

/-- The texts of the four generators are those of the modules. -/
structure RtlTexts (model : Model) : Prop where
  compressors : ∀ i set, model.sets[i]? = some set → generateCompressorSv model i =
    makeString ((compressorModule model set i).text Ident.text)
  decompressors : ∀ i set, model.sets[i]? = some set → generateDecompressorSv model i =
    makeString ((decompressorModule model set i).text Ident.text)
  topCompressor : generateTopCompressorSv model =
    makeString ((topCompressorModule model).text Ident.text)
  topDecompressor : generateTopDecompressorSv model =
    makeString ((topDecompressorModule model).text Ident.text)

/-- A valid model yields well-formed texts exactly within the bounds. -/
theorem rtl_wellFormed_iff {model : Model} (hv : validateModel model = .ok ()) :
    RtlTexts model ∧ (WellFormedRtl model ↔ RtlBounds model) := by
  refine ⟨⟨?_, ?_, ?_, ?_⟩, wellFormedRtl_iff (validateModel_iff.mp hv)⟩
  · exact fun i set hset => generateCompressorSv_text hv hset
  · exact fun i set hset => generateDecompressorSv_text hv hset
  · exact generateTopCompressorSv_text hv
  · exact generateTopDecompressorSv_text hv

theorem taggedModel_rtl_wellFormed_iff :
    RtlTexts taggedModel ∧ (WellFormedRtl taggedModel ↔ RtlBounds taggedModel) :=
  rtl_wellFormed_iff (by decide)

/-- A set without metadata bytes. -/
def noMetadataModel : Model := ⟨4, [{ targetSize := 3, metadataBytes := 0 }]⟩

/-- The width of an empty identifier wraps, and a target of 17 bits does not fit its literal. -/
theorem noMetadataModel_not_wellFormed :
    validateModel noMetadataModel = .ok () ∧ ¬ WellFormedRtl noMetadataModel ∧
    (generateCompressorSv noMetadataModel 0).map Vec.toList = .ok
      ("module bsel_compressor_s0 (\n  input  logic [31:0] block_i,\n" ++
        "  output logic success_o,\n  output logic [18446744073709551615:0] pattern_id_o,\n" ++
        "  output logic [23:0] dictionary_o\n);\n  always_comb begin\n" ++
        "    success_o = 1'b0;\n    pattern_id_o = '0;\n    dictionary_o = '0;\n" ++
        "  end\nendmodule\n").toList ∧
    validateModel ⟨65537, [{ targetSize := 65536 }]⟩ = .ok () ∧
    ¬ WellFormedRtl ⟨65537, [{ targetSize := 65536 }]⟩ := by
  have hv : validateModel noMetadataModel = .ok () := by decide
  have hv' : validateModel ⟨65537, [{ targetSize := 65536 }]⟩ = .ok () := by decide
  refine ⟨hv, ?_, ?_, hv', ?_⟩
  · rw [wellFormedRtl_iff (validateModel_iff.mp hv)]
    intro hb
    exact absurd (hb.bytes_pos _ List.mem_cons_self) (by decide)
  · -- the characters of a short literal are cheaper to find than those of the whole text
    simp only [String.toList_append]
    decide +kernel
  · rw [wellFormedRtl_iff (validateModel_iff.mp hv')]
    intro hb
    exact absurd (hb.target_lt _ List.mem_cons_self) (by decide)

end ByteSelect
