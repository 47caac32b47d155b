import ByteSelect.Baseline.Bits
import ByteSelect.CodeTree
import ByteSelect.WhileLoop
import Mathlib.Algebra.BigOperators.Group.List.Lemmas
import Mathlib.Data.List.Perm.Basic
import Mathlib.Data.List.Sort
import Mathlib.Data.Prod.Lex

/-! The code lengths of Huffman coding: the depths of a tree that a heap puts together. -/
namespace ByteSelect.Baseline

open CodeTree

/-- The order of pairs. -/
def pairLe {α β : Type} [LinearOrder α] [LinearOrder β] (a b : α × β) : Prop := toLex a ≤ toLex b

section Pairs

variable {α β : Type} [LinearOrder α] [LinearOrder β]

instance : DecidableRel (@pairLe α β _ _) :=
  fun a b => inferInstanceAs (Decidable (toLex a ≤ toLex b))

instance : Std.Total (@pairLe α β _ _) := ⟨fun a b => le_total (toLex a) (toLex b)⟩

instance : IsTrans (α × β) pairLe :=
  ⟨fun a b c => @le_trans _ _ (toLex a) (toLex b) (toLex c)⟩

theorem pairLe.fst_le {a b : α × β} (h : pairLe a b) : a.1 ≤ b.1 := Prod.Lex.monotone_fst _ _ h

end Pairs

/-- A `std::array` with an element for every byte. -/
abbrev ByteTable (α : Type) := Vector α (2 ^ 8)

namespace ByteTable

variable {α : Type} {table : ByteTable α} {symbol a : Byte} {x : α}

def fill (x : α) : ByteTable α := Vector.replicate (2 ^ 8) x

def put (table : ByteTable α) (symbol : Byte) (x : α) : ByteTable α :=
  table.set symbol.val x symbol.isLt

theorem get_eq (table : ByteTable α) (a : Byte) : table.get a = table[a] := rfl

@[simp] theorem get_fill (x : α) (a : Byte) : (fill x).get a = x := by
  rw [get_eq]
  exact Vector.getElem_replicate _

@[simp] theorem get_put_self : (table.put symbol x).get symbol = x := by
  rw [get_eq]
  exact Vector.getElem_set_self _

theorem get_put_of_ne (h : a ≠ symbol) : (table.put symbol x).get a = table.get a := by
  have hne : symbol.val ≠ a.val := fun heq => h (Fin.ext heq.symm)
  rw [get_eq, get_eq]
  exact Vector.getElem_set_ne _ _ hne

end ByteTable

/-- A node with a symbol, or one with children; the fields a node lacks are `-1` in the source. -/
inductive HuffmanNode where
  | symbol (frequency : ℕ) (symbol : Byte)
  | merged (frequency : ℕ) (left right : ℕ)

/-- The heap's pairs of a frequency and an index, in the order they are popped in. -/
abbrev Heap := List (ℕ × ℕ)

def Heap.push (entry : ℕ × ℕ) (heap : Heap) : Heap := heap.orderedInsert pairLe entry

def huffmanFrequencies (block : Block) : ByteTable ℕ :=
  block.foldl (fun frequencies byte => frequencies.put byte (frequencies.get byte + 1))
    (ByteTable.fill 0)

/-- One turn of the loop over the symbols. -/
def leafStep (frequencies : Byte → ℕ) (state : List HuffmanNode × Heap) (symbol : Byte) :
    List HuffmanNode × Heap :=
  let (nodes, heap) := state
  if frequencies symbol ≠ 0 then
    (nodes ++ [.symbol (frequencies symbol) symbol],
      Heap.push (frequencies symbol, nodes.length) heap)
  else state

/-- One turn of the loop that merges. -/
def mergeStep (state : List HuffmanNode × Heap) : Option (List HuffmanNode × Heap) :=
  match state with
  | (nodes, left :: right :: heap) =>
    some (nodes ++ [.merged (left.1 + right.1) left.2 right.2],
      Heap.push (left.1 + right.1, nodes.length) heap)
  | _ => none

/-- A node's children have lower indices, so that no path is longer than its root's index. -/
def visit (nodes : List HuffmanNode) : ℕ → ℕ → ℕ → ByteTable Byte → ByteTable Byte
  | 0, _, _, lengths => lengths
  | n + 1, index, depth, lengths =>
    match nodes[index]? with
    | none => lengths
    | some (.symbol _ symbol) => lengths.put symbol (toByte depth)
    | some (.merged _ left right) =>
      visit nodes n right (depth + 1) (visit nodes n left (depth + 1) lengths)

/-- The visit of the root, if there is one. -/
def visitRoot (nodes : List HuffmanNode) (heap : Heap) : ByteTable Byte :=
  match heap with
  | [] => .fill 0
  | top :: _ => visit nodes nodes.length top.2 0 (.fill 0)

def huffmanCodeLengths (block : Block) : ByteTable Byte :=
  let (nodes, heap) := (List.finRange 256).foldl (leafStep (huffmanFrequencies block).get) ([], [])
  match heap with
  | [top] =>
    match nodes[top.2]? with
    | some (.symbol _ symbol) => (ByteTable.fill 0).put symbol 1
    | _ => .fill 0
  | _ =>
    let (nodes, heap) := WhileLoop.run mergeStep 256 (nodes, heap)
    visitRoot nodes heap

variable {block : Block} {nodes : List HuffmanNode} {heap : Heap} {frequencies : Byte → ℕ}
  {symbols : List Byte} {t : CodeTree Byte} {index : ℕ}

/-! Symbols. -/

theorem huffmanFrequencies_eq (block : Block) (symbol : Byte) :
    (huffmanFrequencies block).get symbol = block.count symbol := by
  have hfold : ∀ (block : Block) (start : ByteTable ℕ), (block.foldl
      (fun frequencies byte => frequencies.put byte (frequencies.get byte + 1)) start).get
        symbol = start.get symbol + block.count symbol := by
    intro block
    induction block with
    | nil => exact fun start => rfl
    | cons first rest ih =>
      intro start
      rw [List.foldl_cons, ih, List.count_cons]
      by_cases h : first = symbol
      · subst h
        rw [ByteTable.get_put_self, beq_self_eq_true, if_pos rfl]
        omega
      · rw [ByteTable.get_put_of_ne (Ne.symm h), if_neg (by simpa using h)]
        rfl
  rw [huffmanFrequencies, hfold, ByteTable.get_fill, Nat.zero_add]

theorem length_filter_finRange_le (p : Byte → Bool) :
    ((List.finRange 256).filter p).length ≤ 256 := by
  have hle := List.length_filter_le p (List.finRange 256)
  rw [List.length_finRange] at hle
  exact hle

/-- The byte values of a block, in order. -/
def symbolsOf (block : Block) : List Byte :=
  (List.finRange 256).filter fun symbol => (huffmanFrequencies block).get symbol ≠ 0

theorem mem_symbolsOf {symbol : Byte} : symbol ∈ symbolsOf block ↔ symbol ∈ block := by
  rw [symbolsOf, List.mem_filter, decide_eq_true_iff, huffmanFrequencies_eq]
  have hcount : block.count symbol ≠ 0 ↔ symbol ∈ block := by
    rw [Ne, List.count_eq_zero, not_not]
  rw [hcount]
  exact and_iff_right (List.mem_finRange symbol)

theorem nodup_symbolsOf (block : Block) : (symbolsOf block).Nodup :=
  (List.nodup_finRange 256).filter _

/-- Every byte of the block is counted once. -/
theorem sum_frequencies (block : Block) :
    ((symbolsOf block).map (huffmanFrequencies block).get).sum = block.length := by
  have hperm : (symbolsOf block).Perm block.dedup := by
    refine (List.perm_ext_iff_of_nodup (nodup_symbolsOf block) block.nodup_dedup).mpr fun a => ?_
    rw [mem_symbolsOf, List.mem_dedup]
  have hcount : (huffmanFrequencies block).get = fun symbol => block.count symbol :=
    funext (huffmanFrequencies_eq block)
  rw [hcount, (hperm.map _).sum_eq]
  exact List.sum_map_count_dedup_eq_length block

/-! Trees. -/

/-- The tree below a node; children were there before their parents. -/
inductive Denotes (nodes : List HuffmanNode) : ℕ → CodeTree Byte → Prop
  | leaf {index frequency : ℕ} {symbol : Byte}
      (h : nodes[index]? = some (.symbol frequency symbol)) : Denotes nodes index (leaf symbol)
  | node {index frequency left right : ℕ} {l r : CodeTree Byte}
      (h : nodes[index]? = some (.merged frequency left right))
      (hleft : left < index) (hright : right < index)
      (hl : Denotes nodes left l) (hr : Denotes nodes right r) : Denotes nodes index (node l r)

/-- An entry of the heap stands for a tree of its weight. -/
def EntryOf (frequencies : Byte → ℕ) (nodes : List HuffmanNode) (entry : ℕ × ℕ)
    (t : CodeTree Byte) : Prop :=
  Denotes nodes entry.2 t ∧ t.weight frequencies = entry.1

theorem Denotes.index_lt (h : Denotes nodes index t) : index < nodes.length := by
  cases h with
  | leaf h => exact (List.getElem?_eq_some_iff.mp h).1
  | node h => exact (List.getElem?_eq_some_iff.mp h).1

/-- Nodes that are added later change nothing. -/
theorem Denotes.append (h : Denotes nodes index t) (more : List HuffmanNode) :
    Denotes (nodes ++ more) index t := by
  induction h with
  | leaf h =>
    have hlt := (List.getElem?_eq_some_iff.mp h).1
    exact .leaf (by rw [List.getElem?_append_left hlt, h])
  | node h hleft hright _ _ ihl ihr =>
    have hlt := (List.getElem?_eq_some_iff.mp h).1
    exact .node (by rw [List.getElem?_append_left hlt, h]) hleft hright ihl ihr

/-- A heap in order whose entries stand for the trees of a forest. -/
structure HeapOf (frequencies : Byte → ℕ) (forest : List (CodeTree Byte))
    (state : List HuffmanNode × Heap) : Prop where
  sorted : state.2.Pairwise pairLe
  entries : List.Forall₂ (EntryOf frequencies state.1) state.2 forest

variable {forest : List (CodeTree Byte)} {state state' : List HuffmanNode × Heap}

/-- Pushing a new node adds its tree to the forest. -/
theorem HeapOf.push {node : HuffmanNode} (hsorted : heap.Pairwise pairLe)
    (hentries : List.Forall₂ (EntryOf frequencies nodes) heap forest) {frequency : ℕ}
    (h : EntryOf frequencies (nodes ++ [node]) (frequency, nodes.length) t) :
    ∃ forest', forest'.Perm (t :: forest) ∧ HeapOf frequencies forest'
      (nodes ++ [node], Heap.push (frequency, nodes.length) heap) := by
  have hold := hentries.imp fun entry t hentry =>
    (⟨hentry.1.append [node], hentry.2⟩ : EntryOf frequencies (nodes ++ [node]) entry t)
  have hperm := List.perm_orderedInsert pairLe (frequency, nodes.length) heap
  obtain ⟨forest', hforest, hsame⟩ := List.perm_comp_forall₂ hperm (.cons h hold)
  exact ⟨forest', hsame, hsorted.orderedInsert _ _, hforest⟩

theorem leafStep_heapOf (symbol : Byte) (h : HeapOf frequencies forest state) :
    ∃ forest', forest'.Perm
        (if frequencies symbol ≠ 0 then leaf symbol :: forest else forest) ∧
      HeapOf frequencies forest' (leafStep frequencies state symbol) := by
  obtain ⟨nodes, heap⟩ := state
  unfold leafStep
  dsimp only
  by_cases hzero : frequencies symbol ≠ 0
  · rw [if_pos hzero, if_pos hzero]
    exact HeapOf.push h.sorted h.entries ⟨.leaf List.getElem?_concat_length, rfl⟩
  · rw [if_neg hzero, if_neg hzero]
    exact ⟨forest, List.Perm.refl _, h⟩

/-- The loop over the symbols leaves a heap of leaves. -/
theorem foldl_leafStep (symbols : List Byte) (h : HeapOf frequencies forest state) :
    ∃ forest', forest'.Perm
        ((symbols.filter fun symbol => frequencies symbol ≠ 0).map leaf ++ forest) ∧
      HeapOf frequencies forest' (symbols.foldl (leafStep frequencies) state) := by
  induction symbols generalizing forest state with
  | nil => exact ⟨forest, List.Perm.refl _, h⟩
  | cons symbol rest ih =>
    obtain ⟨forest₁, hperm₁, h₁⟩ := leafStep_heapOf symbol h
    obtain ⟨forest₂, hperm₂, h₂⟩ := ih h₁
    refine ⟨forest₂, hperm₂.trans ?_, h₂⟩
    by_cases hzero : frequencies symbol ≠ 0
    · rw [if_pos hzero] at hperm₁
      rw [List.filter_cons_of_pos (by simpa using hzero), List.map_cons]
      exact (hperm₁.append_left _).trans List.perm_middle
    · rw [if_neg hzero] at hperm₁
      rw [List.filter_cons_of_neg (by simpa using hzero)]
      exact hperm₁.append_left _

/-- In a heap in order no tree is lighter than the first one. -/
theorem weight_le_of_sorted {top : ℕ × ℕ} {heap : Heap} {first t : CodeTree Byte}
    (hsorted : ∀ entry ∈ heap, pairLe top entry) (hfirst : EntryOf frequencies nodes top first)
    (hentries : List.Forall₂ (EntryOf frequencies nodes) heap forest) (ht : t ∈ forest) :
    first.weight frequencies ≤ t.weight frequencies := by
  induction hentries with
  | nil => cases ht
  | @cons entry t' heap forest hentry _ ih =>
    cases List.mem_cons.mp ht with
    | inl hhere =>
      rw [hhere, hfirst.2, hentry.2]
      exact (hsorted entry List.mem_cons_self).fst_le
    | inr hrest => exact ih (fun e he => hsorted e (List.mem_cons_of_mem _ he)) hrest

variable {P : List (CodeTree Byte) → Prop}

/-- A turn of the loop that merges: the forest keeps its invariant, and shrinks. -/
theorem mergeStep_heapOf (hP : MergeInvariant frequencies P)
    (hheap : HeapOf frequencies forest state) (hforest : P forest)
    (hstep : mergeStep state = some state') :
    state'.2.length < state.2.length ∧
      ∃ forest', HeapOf frequencies forest' state' ∧ P forest' := by
  obtain ⟨nodes, heap⟩ := state
  match heap with
  | [] => cases hstep
  | [top] => cases hstep
  | left :: right :: heap =>
    cases hstep
    obtain ⟨hsorted, hentries⟩ := hheap
    rw [List.pairwise_cons, List.pairwise_cons] at hsorted
    obtain ⟨hleft, hright, hsorted⟩ := hsorted
    cases hentries with
    | @cons _ l _ _ hl hentries =>
      cases hentries with
      | @cons _ r _ rest hr hentries =>
        have hnew : EntryOf frequencies
            (nodes ++ [.merged (left.1 + right.1) left.2 right.2])
            (left.1 + right.1, nodes.length) (node l r) := by
          refine ⟨.node List.getElem?_concat_length hl.1.index_lt hr.1.index_lt (hl.1.append _)
            (hr.1.append _), ?_⟩
          rw [weight, hl.2, hr.2]
        obtain ⟨forest', hperm, hheap'⟩ := HeapOf.push hsorted hentries hnew
        refine ⟨?_, forest', hheap', hP l r rest forest' hforest ?_ ?_ hperm⟩
        · have hlen : (Heap.push (left.1 + right.1, nodes.length) heap).length = heap.length + 1 :=
            List.orderedInsert_length _ _ _
          dsimp only [List.length_cons]
          omega
        · exact fun t ht => weight_le_of_sorted
            (fun entry hentry => hleft entry (List.mem_cons_of_mem _ hentry)) hl hentries ht
        · exact fun t ht => weight_le_of_sorted hright hr hentries ht

/-- The loop ends with one tree over all symbols. -/
theorem run_mergeStep (hP : MergeInvariant frequencies P) (hnil : ¬ P [])
    (hheap : HeapOf frequencies forest state) (hforest : P forest)
    (hlen : state.2.length ≤ 256) :
    ∃ t top, (WhileLoop.run mergeStep 256 state).2 = [top] ∧
      Denotes (WhileLoop.run mergeStep 256 state).1 top.2 t ∧ P [t] := by
  have hinv : ∀ s s', (∃ forest, HeapOf frequencies forest s ∧ P forest) →
      mergeStep s = some s' → ∃ forest, HeapOf frequencies forest s' ∧ P forest := by
    rintro s s' ⟨forest, hheap, hforest⟩ hstep
    exact (mergeStep_heapOf hP hheap hforest hstep).2
  obtain ⟨forest', hheap', hforest'⟩ := WhileLoop.run_invariant hinv 256 ⟨forest, hheap, hforest⟩
  have hhalted := WhileLoop.run_halts hinv (fun s => s.2.length)
    (fun s s' ⟨_, hheap, hforest⟩ hstep => (mergeStep_heapOf hP hheap hforest hstep).1)
    ⟨forest, hheap, hforest⟩ hlen
  generalize WhileLoop.run mergeStep 256 state = final at hheap' hhalted
  obtain ⟨nodes, heap⟩ := final
  obtain ⟨-, hentries⟩ := hheap'
  cases hentries with
  | nil => exact absurd hforest' hnil
  | @cons top t heap rest hentry hentries =>
    cases hentries with
    | nil => exact ⟨t, top, rfl, hentry.1, hforest'⟩
    | cons => cases hhalted

/-! Lengths. -/

/-- The recursion writes the depths of the leaves. -/
theorem visit_eq {n : ℕ} (h : Denotes nodes index t) (hn : index < n) (depth : ℕ)
    (lengths : ByteTable Byte) : visit nodes n index depth lengths =
      (t.depths depth).foldl (fun lengths x => lengths.put x.1 (toByte x.2))
        lengths := by
  induction h generalizing n depth lengths with
  | leaf h =>
    obtain ⟨n, rfl⟩ := Nat.exists_eq_add_of_lt hn
    rw [visit, h]
    rfl
  | node h hleft hright _ _ ihl ihr =>
    cases n with
    | zero => omega
    | succ n =>
      rw [visit, h]
      dsimp only
      rw [ihl (by omega), ihr (by omega), depths, List.foldl_append]

/-- Each of several symbols gets its own value, the others keep theirs. -/
theorem foldl_update {l : List (Byte × ℕ)} (h : (l.map Prod.fst).Nodup) (lengths : ByteTable Byte) :
    (∀ x ∈ l, (l.foldl (fun lengths x => lengths.put x.1 (toByte x.2)) lengths).get x.1 =
        toByte x.2) ∧
      ∀ a ∉ l.map Prod.fst,
        (l.foldl (fun lengths x => lengths.put x.1 (toByte x.2)) lengths).get a =
          lengths.get a := by
  induction l generalizing lengths with
  | nil => exact ⟨fun x hx => absurd hx List.not_mem_nil, fun a _ => rfl⟩
  | cons first rest ih =>
    rw [List.map_cons, List.nodup_cons] at h
    obtain ⟨hin, hout⟩ := ih h.2 (lengths.put first.1 (toByte first.2))
    constructor
    · intro x hx
      rw [List.foldl_cons]
      cases List.mem_cons.mp hx with
      | inl hfirst =>
        rw [hfirst, hout first.1 h.1, ByteTable.get_put_self]
      | inr hrest => exact hin x hrest
    · intro a ha
      rw [List.map_cons, List.mem_cons, not_or] at ha
      rw [List.foldl_cons, hout a ha.2, ByteTable.get_put_of_ne ha.1]

/-- The loop over the symbols leaves one leaf for each symbol of the block. -/
theorem leaves_heapOf (block : Block) : ∃ forest,
    forest.Perm ((symbolsOf block).map leaf) ∧ HeapOf (huffmanFrequencies block).get forest
      ((List.finRange 256).foldl (leafStep (huffmanFrequencies block).get) ([], [])) := by
  have hempty : HeapOf (huffmanFrequencies block).get [] ([], []) := ⟨.nil, .nil⟩
  obtain ⟨forest, hperm, hheap⟩ := foldl_leafStep (List.finRange 256) hempty
  rw [List.append_nil] at hperm
  exact ⟨forest, hperm, hheap⟩

theorem huffmanCodeLengths_one {symbol : Byte} (h : symbolsOf block = [symbol]) :
    huffmanCodeLengths block = (ByteTable.fill 0).put symbol 1 := by
  obtain ⟨forest, hperm, hheap⟩ := leaves_heapOf block
  rw [h, List.map_singleton, List.perm_singleton] at hperm
  unfold huffmanCodeLengths
  generalize (List.finRange 256).foldl (leafStep (huffmanFrequencies block).get) ([], []) = state
    at hheap
  obtain ⟨nodes, heap⟩ := state
  obtain ⟨-, hentries⟩ := hheap
  subst hperm
  cases hentries with
  | cons hentry hentries =>
    cases hentries with
    | nil =>
      cases hentry.1 with
      | leaf hnode =>
        dsimp only at hnode ⊢
        rw [hnode]

/-- With several symbols, the lengths come from a visit of what merging left. -/
theorem huffmanCodeLengths_eq (h : 2 ≤ (symbolsOf block).length) {final : List HuffmanNode × Heap}
    (hfinal : WhileLoop.run mergeStep 256 ((List.finRange 256).foldl
      (leafStep (huffmanFrequencies block).get) ([], [])) = final) :
    huffmanCodeLengths block = visitRoot final.1 final.2 := by
  obtain ⟨forest, hperm, hheap⟩ := leaves_heapOf block
  have hlen := hheap.entries.length_eq
  rw [hperm.length_eq, List.length_map] at hlen
  subst hfinal
  unfold huffmanCodeLengths
  generalize (List.finRange 256).foldl (leafStep (huffmanFrequencies block).get) ([], []) = state
    at hlen
  obtain ⟨nodes, heap⟩ := state
  dsimp only at hlen ⊢
  match heap with
  | [] => rfl
  | [top] =>
    rw [List.length_singleton] at hlen
    omega
  | _ :: _ :: _ => rfl

/-- The visit of a small tree gives each of its leaves the depth, and no other symbol a length. -/
theorem visitRoot_spec {top : ℕ × ℕ} (h : Denotes nodes top.2 t) (hnodup : t.leaves.Nodup)
    (hheight : t.height < 2 ^ 8) :
    (∀ x ∈ t.depths 0, ((visitRoot nodes [top]).get x.1).val = x.2) ∧
      ∀ a ∉ t.leaves, (visitRoot nodes [top]).get a = 0 := by
  rw [← map_fst_depths t 0] at hnodup
  obtain ⟨hin, hout⟩ := foldl_update hnodup (.fill 0)
  rw [visitRoot, visit_eq h h.index_lt]
  constructor
  · intro x hx
    have hdepth := (le_of_mem_depths hx).2
    rw [hin x hx]
    exact Nat.mod_eq_of_lt (by omega)
  · intro a ha
    rw [← map_fst_depths t 0] at ha
    rw [hout a ha, ByteTable.get_fill]

/-- With several symbols, the lengths are the depths of a tree that merging left. -/
theorem huffmanCodeLengths_tree (h : 2 ≤ (symbolsOf block).length) : ∃ t : CodeTree Byte,
    Forest (huffmanFrequencies block).get (symbolsOf block) [t] ∧
      Optimal (huffmanFrequencies block).get (symbolsOf block) [t] ∧
      (∀ x ∈ t.depths 0, ((huffmanCodeLengths block).get x.1).val = x.2) ∧
      ∀ a ∉ symbolsOf block, (huffmanCodeLengths block).get a = 0 := by
  obtain ⟨forest, hperm, hheap⟩ := leaves_heapOf block
  have hforest := (forest_leaves (huffmanFrequencies block).get (symbolsOf block)).perm hperm
  have hoptimal := (optimal_leaves (huffmanFrequencies block).get (symbolsOf block)).perm hperm
  have hkeeps := (mergeInvariant_forest (huffmanFrequencies block).get (symbolsOf block)).and
    (mergeInvariant_optimal (huffmanFrequencies block).get (symbolsOf block))
  have hcount : (symbolsOf block).length ≤ 256 := length_filter_finRange_le _
  have hlen := hheap.entries.length_eq
  rw [hperm.length_eq, List.length_map] at hlen
  have hnil : ¬ (Forest (huffmanFrequencies block).get (symbolsOf block) [] ∧
      Optimal (huffmanFrequencies block).get (symbolsOf block) []) := by
    rintro ⟨hnone, -⟩
    have hcount := hnone.leaves.length_eq
    rw [List.flatMap_nil, List.length_nil] at hcount
    omega
  obtain ⟨t, top, htop, hdenotes, hone, hbest⟩ :=
    run_mergeStep hkeeps hnil hheap ⟨hforest, hoptimal⟩ (hlen.le.trans hcount)
  have hlengths := huffmanCodeLengths_eq h rfl
  rw [htop] at hlengths
  have hleaves := hone.leaves_perm
  have hheight := height_lt_length_leaves t
  rw [hleaves.length_eq] at hheight
  obtain ⟨hin, hout⟩ := visitRoot_spec hdenotes (hleaves.nodup_iff.mpr (nodup_symbolsOf block))
    (hheight.trans_le hcount)
  rw [hlengths]
  exact ⟨t, hone, hbest, hin, fun a ha => hout a fun hmem => ha (hleaves.mem_iff.mp hmem)⟩

/-- The symbols that have a length, in order. -/
def usedSymbols (lengths : ByteTable Byte) : List Byte :=
  (List.finRange 256).filter fun symbol => lengths.get symbol ≠ 0

def usedLengths (lengths : ByteTable Byte) : List ℕ :=
  (usedSymbols lengths).map fun symbol => (lengths.get symbol).val

/-- What the lengths of a block's symbols are: one bit for a single symbol, else depths. -/
theorem huffmanCodeLengths_cases (hne : block ≠ []) :
    (∃ symbol, symbolsOf block = [symbol] ∧
      huffmanCodeLengths block = (ByteTable.fill 0).put symbol 1) ∨
    ∃ t : CodeTree Byte,
      Forest (huffmanFrequencies block).get (symbolsOf block) [t] ∧ 0 < t.height ∧
      (∀ x ∈ t.depths 0, ((huffmanCodeLengths block).get x.1).val = x.2) ∧
      ∀ a ∉ symbolsOf block, (huffmanCodeLengths block).get a = 0 := by
  match hsymbols : symbolsOf block with
  | [] =>
    obtain ⟨a, ha⟩ := List.exists_mem_of_ne_nil block hne
    rw [← mem_symbolsOf, hsymbols] at ha
    cases ha
  | [symbol] => exact Or.inl ⟨symbol, rfl, huffmanCodeLengths_one hsymbols⟩
  | first :: second :: rest =>
    obtain ⟨t, hforest, -, hdepths, hzero⟩ :=
      @huffmanCodeLengths_tree block (by rw [hsymbols]; simp)
    rw [hsymbols] at hforest hzero
    refine Or.inr ⟨t, hforest, ?_, hdepths, hzero⟩
    cases t with
    | leaf a =>
      have hlen := hforest.leaves_perm.length_eq
      simp [CodeTree.leaves] at hlen
    | node l r => exact Nat.succ_pos _

/-- The symbols with a length are those of the block. -/
theorem huffmanCodeLengths_ne_zero (hne : block ≠ []) (symbol : Byte) :
    (huffmanCodeLengths block).get symbol ≠ 0 ↔ symbol ∈ symbolsOf block := by
  obtain ⟨only, hsymbols, hlengths⟩ | ⟨t, hforest, hheight, hdepths, hzero⟩ :=
    huffmanCodeLengths_cases hne
  · rw [hsymbols, hlengths, List.mem_singleton]
    by_cases h : symbol = only
    · rw [h, ByteTable.get_put_self]
      exact iff_of_true (by decide) rfl
    · rw [ByteTable.get_put_of_ne h, ByteTable.get_fill]
      exact iff_of_false (fun hne => hne rfl) h
  · refine ⟨fun h => by_contra fun hout => h (hzero symbol hout), fun h hlength => ?_⟩
    have hleaves := hforest.leaves_perm
    obtain ⟨k, hk⟩ := exists_mem_depths (hleaves.mem_iff.mpr h) 0
    have hval := hdepths _ hk
    rw [hlength] at hval
    cases t with
    | leaf a => exact absurd hheight (Nat.lt_irrefl 0)
    | node l r =>
      have hdeep : 1 ≤ k := by
        cases List.mem_append.mp hk with
        | inl hl => exact (le_of_mem_depths hl).1
        | inr hr => exact (le_of_mem_depths hr).1
      have hnone : (0 : Byte).val = 0 := rfl
      dsimp only at hval
      omega

/-- The tree of a block is no higher than the Fibonacci numbers allow. -/
theorem height_le_of_length_lt {n : ℕ}
    (hforest : Forest (huffmanFrequencies block).get (symbolsOf block) [t])
    (hlen : block.length < Nat.fib (n + 3)) : t.height ≤ n := by
  have hlight :
      ((symbolsOf block).map (huffmanFrequencies block).get).sum < Nat.fib (n + 1 + 2) := by
    rw [sum_frequencies]
    exact hlen
  have hpos : ∀ a ∈ symbolsOf block, 1 ≤ (huffmanFrequencies block).get a := by
    intro a ha
    rw [huffmanFrequencies_eq]
    exact List.count_pos_iff.mpr (mem_symbolsOf.mp ha)
  exact Nat.le_of_lt_succ (hforest.height_lt hpos hlight)

theorem huffmanCodeLengths_le {n : ℕ} (hn : 1 ≤ n) (hne : block ≠ [])
    (hlen : block.length < Nat.fib (n + 3)) (symbol : Byte) :
    ((huffmanCodeLengths block).get symbol).val ≤ n := by
  by_cases hout : symbol ∈ symbolsOf block
  · obtain ⟨only, hsymbols, hlengths⟩ | ⟨t, hforest, hheight, hdepths, hzero⟩ :=
      huffmanCodeLengths_cases hne
    · rw [hsymbols, List.mem_singleton] at hout
      rw [hlengths, hout, ByteTable.get_put_self]
      exact hn
    · have hleaves := hforest.leaves_perm
      obtain ⟨k, hk⟩ := exists_mem_depths (hleaves.mem_iff.mpr hout) 0
      have hval := hdepths _ hk
      have hdepth := (le_of_mem_depths hk).2
      have hbound := height_le_of_length_lt hforest hlen
      dsimp only at hval
      omega
  · have hzero := not_not.mp (mt (huffmanCodeLengths_ne_zero hne symbol).mp hout)
    rw [hzero]
    exact Nat.zero_le n

/-- The lengths leave room for all code words. -/
theorem kraft_huffmanCodeLengths {n : ℕ} (hne : block ≠ [])
    (hlen : block.length < Nat.fib (n + 3)) :
    CanonicalCode.kraft n (usedLengths (huffmanCodeLengths block)) ≤ 2 ^ n := by
  have hused : usedLengths (huffmanCodeLengths block) =
      (symbolsOf block).map fun symbol => ((huffmanCodeLengths block).get symbol).val := by
    have hsame : ∀ symbol ∈ List.finRange 256, decide ((huffmanCodeLengths block).get symbol ≠ 0) =
        decide ((huffmanFrequencies block).get symbol ≠ 0) := by
      intro symbol _
      rw [decide_eq_decide, huffmanCodeLengths_ne_zero hne, mem_symbolsOf, huffmanFrequencies_eq,
        Ne, List.count_eq_zero, not_not]
    rw [usedLengths, usedSymbols, symbolsOf]
    exact congrArg (List.map _) (List.filter_congr hsame)
  rw [hused]
  obtain ⟨only, hsymbols, hlengths⟩ | ⟨t, hforest, -, hdepths, -⟩ := huffmanCodeLengths_cases hne
  · rw [hsymbols, List.map_singleton, CanonicalCode.kraft, List.map_singleton, List.sum_singleton]
    exact Nat.pow_le_pow_right (by decide) (Nat.sub_le n _)
  · have hleaves := hforest.leaves_perm
    rw [← map_fst_depths t 0] at hleaves
    have hvalues : (t.depths 0).map Prod.snd = ((t.depths 0).map Prod.fst).map fun symbol =>
        ((huffmanCodeLengths block).get symbol).val := by
      rw [List.map_map]
      exact List.map_congr_left fun x hx => (hdepths x hx).symm
    have hkraft := @kraft_depths _ t n 0 (by
      have := height_le_of_length_lt hforest hlen
      omega)
    rw [hvalues, CanonicalCode.kraft, Nat.sub_zero] at hkraft
    have hperm := (hleaves.map fun symbol => ((huffmanCodeLengths block).get symbol).val).map
      fun length => 2 ^ (n - length)
    rw [CanonicalCode.kraft, ← hperm.sum_eq, hkraft]

/-! Optimality. -/

theorem two_le_length_symbolsOf {a b : Byte} (ha : a ∈ block) (hb : b ∈ block) (hab : a ≠ b) :
    2 ≤ (symbolsOf block).length := by
  have hcard : 1 < (symbolsOf block).toFinset.card :=
    Finset.one_lt_card.mpr ⟨a, List.mem_toFinset.mpr (mem_symbolsOf.mpr ha), b,
      List.mem_toFinset.mpr (mem_symbolsOf.mpr hb), hab⟩
  rwa [List.toFinset_card_of_nodup (nodup_symbolsOf block)] at hcard

theorem sum_symbolsOf {M : Type} [AddCommMonoid M] (block : Block) (f : Byte → M) :
    ∑ symbol ∈ block.toFinset, f symbol = ((symbolsOf block).map f).sum := by
  have hset : block.toFinset = (symbolsOf block).toFinset := by
    ext symbol
    rw [List.mem_toFinset, List.mem_toFinset, mem_symbolsOf]
  rw [hset, List.sum_toFinset f (nodup_symbolsOf block)]

/-- Summing over the symbols and their lengths is summing over the leaves and their depths. -/
theorem sum_lengths {M : Type} [AddCommMonoid M] {lengths : ByteTable Byte}
    (hleaves : t.leaves.Perm (symbolsOf block))
    (hdepths : ∀ x ∈ t.depths 0, (lengths.get x.1).val = x.2) (f : Byte → ℕ → M) :
    ∑ symbol ∈ block.toFinset, f symbol (lengths.get symbol).val =
      ((t.depths 0).map fun x => f x.1 x.2).sum := by
  rw [sum_symbolsOf, ← (hleaves.map _).sum_eq, ← map_fst_depths t 0, List.map_map]
  refine congrArg List.sum (List.map_congr_left fun x hx => ?_)
  exact congrArg (f x.1) (hdepths x hx)

/-- The depths of a tree fill the Kraft sum. -/
theorem sum_half_depths (t : CodeTree Byte) :
    ((t.depths 0).map fun x => (1 / 2 : ℚ) ^ x.2).sum = 1 := by
  have hkraft := @kraft_depths _ t t.height 0 (Nat.zero_add _).le
  have hbound : ∀ n ∈ (t.depths 0).map Prod.snd, n ≤ t.height := by
    rintro n hn
    obtain ⟨x, hx, rfl⟩ := List.mem_map.mp hn
    exact (le_of_mem_depths hx).2.trans (Nat.zero_add _).le
  have hsum := @OptimalCode.kraft_eq_mul_sum t.height ℚ _ _ _ hbound
  rw [hkraft, Nat.sub_zero, Nat.cast_pow, Nat.cast_ofNat, List.map_map] at hsum
  exact (mul_eq_left₀ (pow_ne_zero _ two_ne_zero)).mp hsum.symm

/-- The lengths fill the Kraft sum, are those of a prefix code of the symbols of the block, and no
prefix code of them is cheaper. -/
theorem huffmanCodeLengths_optimal {block : Block} {a b : Byte} (ha : a ∈ block) (hb : b ∈ block)
    (hab : a ≠ b) :
    ∑ symbol ∈ block.toFinset, (1 / 2 : ℚ) ^ ((huffmanCodeLengths block).get symbol).val = 1 ∧
      (∃ code, OptimalCode.PrefixFree block code ∧ ∀ symbol ∈ block,
        (code symbol).length = ((huffmanCodeLengths block).get symbol).val) ∧
      ∀ code, OptimalCode.PrefixFree block code →
        ∑ symbol ∈ block.toFinset, block.count symbol *
            ((huffmanCodeLengths block).get symbol).val ≤
          ∑ symbol ∈ block.toFinset, block.count symbol * (code symbol).length := by
  obtain ⟨t, hforest, hoptimal, hdepths, -⟩ :=
    huffmanCodeLengths_tree (two_le_length_symbolsOf ha hb hab)
  have hleaves := hforest.leaves_perm
  have hmem : ∀ symbol, symbol ∈ t.leaves ↔ symbol ∈ block := fun symbol =>
    hleaves.mem_iff.trans mem_symbolsOf
  refine ⟨?_, ⟨t.codeWord, ?_, ?_⟩, ?_⟩
  · rw [sum_lengths hleaves hdepths fun _ n => (1 / 2 : ℚ) ^ n]
    exact sum_half_depths t
  · intro c hc d hd hprefix
    exact prefixFree_codeWord t c ((hmem c).mpr hc) d ((hmem d).mpr hd) hprefix
  · intro symbol hsymbol
    obtain ⟨k, hk⟩ := exists_mem_depths ((hmem symbol).mpr hsymbol) 0
    have hnodup := hleaves.nodup_iff.mpr (nodup_symbolsOf block)
    rw [hdepths _ hk, ← length_codeWord hnodup hk, Nat.zero_add]
  · intro code hcode
    have hsymbols : OptimalCode.PrefixFree (symbolsOf block) code := fun c hc d hd =>
      hcode c (mem_symbolsOf.mp hc) d (mem_symbolsOf.mp hd)
    have hne : ∀ symbol ∈ symbolsOf block, code symbol ≠ [] := fun symbol hsymbol =>
      hcode.ne_nil ha hb hab (mem_symbolsOf.mp hsymbol)
    have hbound : ∀ symbol ∈ symbolsOf block, (code symbol).length ≤
        block.toFinset.sup fun symbol => (code symbol).length := fun symbol hsymbol =>
      Finset.le_sup (f := fun symbol => (code symbol).length)
        (List.mem_toFinset.mpr (mem_symbolsOf.mp hsymbol))
    have hcost := hoptimal.cost_le hbound (hsymbols.kraft_le (nodup_symbolsOf block) hne hbound)
    have hcount : (huffmanFrequencies block).get = fun symbol => block.count symbol :=
      funext (huffmanFrequencies_eq block)
    have htree := sum_depths (huffmanFrequencies block).get t 0
    rw [Nat.mul_zero, Nat.zero_add] at htree
    rw [← htree, hcount] at hcost
    rw [sum_lengths hleaves hdepths fun symbol n => block.count symbol * n, sum_symbolsOf]
    exact hcost

theorem exampleThree_huffmanCodeLengths_optimal :
    ∑ symbol ∈ ([1, 2, 1] : Block).toFinset,
        (1 / 2 : ℚ) ^ ((huffmanCodeLengths [1, 2, 1]).get symbol).val = 1 ∧
      (∃ code, OptimalCode.PrefixFree ([1, 2, 1] : Block) code ∧ ∀ symbol ∈ ([1, 2, 1] : Block),
        (code symbol).length = ((huffmanCodeLengths [1, 2, 1]).get symbol).val) ∧
      ∀ code, OptimalCode.PrefixFree ([1, 2, 1] : Block) code →
        ∑ symbol ∈ ([1, 2, 1] : Block).toFinset, ([1, 2, 1] : Block).count symbol *
            ((huffmanCodeLengths [1, 2, 1]).get symbol).val ≤
          ∑ symbol ∈ ([1, 2, 1] : Block).toFinset,
            ([1, 2, 1] : Block).count symbol * (code symbol).length :=
  @huffmanCodeLengths_optimal [1, 2, 1] 1 2 (by simp) (by simp) (by decide)

end ByteSelect.Baseline
