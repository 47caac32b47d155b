import ByteSelect.PackedBytes
import Mathlib.Logic.Function.Basic

/-! Combinational SystemVerilog: modules, their text, and their two-state evaluation. -/
namespace SystemVerilog

open PackedBytes

abbrev Text := List Char

/-- The characters of a literal; irreducible, so that unfolding stops at literals. -/
@[irreducible] def literal (s : String) : Text := s.toList

instance : Coe String Text := ⟨literal⟩

def num (n : ℕ) : Text := Nat.toDigits 10 n

def forEach {α : Type} (l : List α) (f : α → Text) : Text := l.flatMap f

def separated {α : Type} (separator : Text) (l : List α) (f : α → Text) : Text :=
  separator.intercalate (l.map f)

/-! Syntax. Identifiers are an arbitrary type; parentheses and layout are part of a term. -/

inductive Expr (ι : Type) where
  | bit (value : Bool)
  | sized (width value : ℕ)
  | unsized (value : ℕ)
  | zeros
  | var (x : ι)
  | byteAt (x : ι) (lo : ℕ)
  | upTo (x : ι) (hi : ℕ)
  | not (e : Expr ι)
  | and (a b : Expr ι)
  | eq (a b : Expr ι)
  | paren (e : Expr ι)

inductive Target (ι : Type) where
  | var (x : ι)
  | byteAt (x : ι) (lo : ℕ)
  | upTo (x : ι) (hi : ℕ)

structure Assign (ι : Type) where
  target : Target ι
  value : Expr ι

/-- How a case arm is laid out: one statement, or a block on one or several lines. -/
inductive Layout where
  | single
  | inline
  | lines

structure Arm (ι : Type) where
  layout : Layout
  body : List (Assign ι)

inductive Stmt (ι : Type) where
  | assign (a : Assign ι)
  | ifThen (cond : Expr ι) (body : List (Assign ι))
  | caseOf (x : ι) (arms : List (Expr ι × Arm ι)) (otherwise : Arm ι)

structure Port (ι : Type) where
  input : Bool
  hi : Option ℕ
  name : ι

inductive Item (ι : Type) where
  | wire (hi : Option ℕ) (name : ι)
  | instance (module label : ι) (inputs : List (ι × Expr ι)) (outputs : List (ι × ι))
  | alwaysComb (body : List (Stmt ι))

structure Module (ι : Type) where
  name : ι
  aligned : Bool
  ports : List (Port ι)
  items : List (Item ι)

/-! Text. -/

section Text

variable {ι : Type} (name : ι → Text)

def rangeText : Option ℕ → Text
  | none => []
  | some hi => "[" ++ num hi ++ ":0] "

def Expr.text : Expr ι → Text
  | .bit value => if value then "1'b1" else "1'b0"
  | .sized width value => num width ++ "'d" ++ num value
  | .unsized value => num value
  | .zeros => "'0"
  | .var x => name x
  | .byteAt x lo => name x ++ "[" ++ num lo ++ " +: 8]"
  | .upTo x hi => name x ++ "[" ++ num hi ++ ":0]"
  | .not e => "!" ++ e.text
  | .and a b => a.text ++ " && " ++ b.text
  | .eq a b => a.text ++ " == " ++ b.text
  | .paren e => "(" ++ e.text ++ ")"

def Target.text : Target ι → Text
  | .var x => name x
  | .byteAt x lo => name x ++ "[" ++ num lo ++ " +: 8]"
  | .upTo x hi => name x ++ "[" ++ num hi ++ ":0]"

def Assign.text (a : Assign ι) : Text := a.target.text name ++ " = " ++ a.value.text name ++ ";"

def Arm.text (arm : Arm ι) : Text :=
  match arm.layout with
  | .single => " " ++ forEach arm.body (Assign.text name) ++ "\n"
  | .inline => " begin" ++ forEach arm.body (fun a => " " ++ a.text name) ++ " end\n"
  | .lines =>
    " begin\n" ++ forEach arm.body (fun a => "        " ++ a.text name ++ "\n") ++ "      end\n"

def Stmt.text : Stmt ι → Text
  | .assign a => "    " ++ a.text name ++ "\n"
  | .ifThen cond body =>
    "    if (" ++ cond.text name ++ ") begin\n" ++
      forEach body (fun a => "      " ++ a.text name ++ "\n") ++ "    end\n"
  | .caseOf x arms otherwise =>
    "    case (" ++ name x ++ ")\n" ++
      forEach arms (fun arm => "      " ++ arm.1.text name ++ ":" ++ arm.2.text name) ++
      "      default:" ++ otherwise.text name ++ "    endcase\n"

def directionText (aligned input : Bool) : Text :=
  if input then (if aligned then "input " else "input") else "output"

def Port.text (aligned : Bool) (port : Port ι) : Text :=
  "  " ++ directionText aligned port.input ++ " logic " ++ rangeText port.hi ++ name port.name

def Item.text : Item ι → Text
  | .wire hi x => "  logic " ++ rangeText hi ++ name x ++ ";\n"
  | .instance module label inputs outputs =>
    "  " ++ name module ++ " " ++ name label ++ " (" ++
      separated ", " (inputs ++ outputs.map fun c => (c.1, .var c.2))
        (fun c => "." ++ name c.1 ++ "(" ++ c.2.text name ++ ")") ++ ");\n"
  | .alwaysComb body =>
    "  always_comb begin\n" ++ forEach body (Stmt.text name) ++ "  end\n"

def Module.text (m : Module ι) : Text :=
  "module " ++ name m.name ++ " (\n" ++
    separated ",\n" m.ports (Port.text name m.aligned) ++ "\n);\n" ++
    forEach m.items (Item.text name) ++ "endmodule\n"

end Text

/-! The numbers a text spells out: bounds of ranges, sized literals and case labels. -/

section Numbers

variable {ι : Type}

/-- The upper bounds of part-selects. -/
def Expr.bounds : Expr ι → List ℕ
  | .upTo _ hi => [hi]
  | .not e | .paren e => e.bounds
  | .and a b | .eq a b => a.bounds ++ b.bounds
  | _ => []

/-- The literals `N'dV`, as `(N, V)`. -/
def Expr.literals : Expr ι → List (ℕ × ℕ)
  | .sized width value => [(width, value)]
  | .not e | .paren e => e.literals
  | .and a b | .eq a b => a.literals ++ b.literals
  | _ => []

def Target.bounds : Target ι → List ℕ
  | .upTo _ hi => [hi]
  | _ => []

def Assign.bounds (a : Assign ι) : List ℕ := a.target.bounds ++ a.value.bounds

def Assign.literals (a : Assign ι) : List (ℕ × ℕ) := a.value.literals

def Stmt.bounds : Stmt ι → List ℕ
  | .assign a => a.bounds
  | .ifThen cond body => cond.bounds ++ body.flatMap Assign.bounds
  | .caseOf _ arms otherwise =>
    arms.flatMap (fun x => x.1.bounds ++ x.2.body.flatMap Assign.bounds) ++
      otherwise.body.flatMap Assign.bounds

def Stmt.literals : Stmt ι → List (ℕ × ℕ)
  | .assign a => a.literals
  | .ifThen cond body => cond.literals ++ body.flatMap Assign.literals
  | .caseOf _ arms otherwise =>
    arms.flatMap (fun x => x.1.literals ++ x.2.body.flatMap Assign.literals) ++
      otherwise.body.flatMap Assign.literals

/-- The labels of a case statement. -/
def Stmt.labels : Stmt ι → List (List (ℕ × ℕ))
  | .caseOf _ arms _ => [arms.flatMap fun x => x.1.literals]
  | _ => []

section Stmt

variable (a : Assign ι) (cond : Expr ι) (body : List (Assign ι)) (x : ι)
  (arms : List (Expr ι × Arm ι)) (otherwise : Arm ι)

@[simp] theorem Stmt.bounds_assign : (Stmt.assign a).bounds = a.bounds := rfl

@[simp] theorem Stmt.bounds_ifThen : (Stmt.ifThen cond body).bounds =
    cond.bounds ++ body.flatMap Assign.bounds := rfl

@[simp] theorem Stmt.bounds_caseOf : (Stmt.caseOf x arms otherwise).bounds =
    arms.flatMap (fun x => x.1.bounds ++ x.2.body.flatMap Assign.bounds) ++
      otherwise.body.flatMap Assign.bounds := rfl

@[simp] theorem Stmt.literals_assign : (Stmt.assign a).literals = a.literals := rfl

@[simp] theorem Stmt.literals_ifThen : (Stmt.ifThen cond body).literals =
    cond.literals ++ body.flatMap Assign.literals := rfl

@[simp] theorem Stmt.literals_caseOf : (Stmt.caseOf x arms otherwise).literals =
    arms.flatMap (fun x => x.1.literals ++ x.2.body.flatMap Assign.literals) ++
      otherwise.body.flatMap Assign.literals := rfl

@[simp] theorem Stmt.labels_assign : (Stmt.assign a).labels = [] := rfl

@[simp] theorem Stmt.labels_ifThen : (Stmt.ifThen cond body).labels = [] := rfl

@[simp] theorem Stmt.labels_caseOf : (Stmt.caseOf x arms otherwise).labels =
    [arms.flatMap fun x => x.1.literals] := rfl

end Stmt

@[simp] theorem flatMap_nil_fun {α β : Type} (l : List α) :
    l.flatMap (fun _ => ([] : List β)) = [] := by
  induction l with
  | nil => rfl
  | cons a l ih => exact ih

@[simp] theorem flatMap_singleton_fun {α β : Type} (f : α → β) (l : List α) :
    l.flatMap (fun a => [f a]) = l.map f := List.map_eq_flatMap.symm

def Item.bounds : Item ι → List ℕ
  | .wire hi _ => hi.toList
  | .instance _ _ inputs _ => inputs.flatMap fun c => c.2.bounds
  | .alwaysComb body => body.flatMap Stmt.bounds

def Item.literals : Item ι → List (ℕ × ℕ)
  | .wire _ _ => []
  | .instance _ _ inputs _ => inputs.flatMap fun c => c.2.literals
  | .alwaysComb body => body.flatMap Stmt.literals

def Item.labels : Item ι → List (List (ℕ × ℕ))
  | .alwaysComb body => body.flatMap Stmt.labels
  | _ => []

/-- All upper bounds of a module, in the order of its text. -/
def Module.bounds (m : Module ι) : List ℕ :=
  m.ports.flatMap (fun port => port.hi.toList) ++ m.items.flatMap Item.bounds

def Module.literals (m : Module ι) : List (ℕ × ℕ) := m.items.flatMap Item.literals

def Module.labels (m : Module ι) : List (List (ℕ × ℕ)) := m.items.flatMap Item.labels

/-- An upper bound of a field is its width minus one, and no field is empty. -/
def BoundOf (hi width : ℕ) : Prop := 1 ≤ width ∧ hi = width - 1

/-- A module is well formed for the widths of the fields its bounds are of. -/
structure Module.WellFormed (m : Module ι) (widths : List ℕ) : Prop where
  bounds : List.Forall₂ BoundOf m.bounds widths
  literals : ∀ x ∈ m.literals, x.2 < 2 ^ x.1
  labels : ∀ labels ∈ m.labels, (labels.map fun x => x.2 % 2 ^ x.1).Nodup

end Numbers

/-! Two-state evaluation: statements in order, the last assignment wins, and an assigned
value is cut to the declared width of its target. -/

section Evaluation

variable {ι : Type} [DecidableEq ι]

abbrev Store (ι : Type) := ι → ℕ

def Expr.eval (s : Store ι) : Expr ι → ℕ
  | .bit value => value.toNat
  | .sized width value => value % 2 ^ width
  | .unsized value => value
  | .zeros => 0
  | .var x => s x
  | .byteAt x lo => field (s x) lo 8
  | .upTo x hi => field (s x) 0 (hi + 1)
  | .not e => if e.eval s = 0 then 1 else 0
  | .and a b => if a.eval s ≠ 0 ∧ b.eval s ≠ 0 then 1 else 0
  | .eq a b => if a.eval s = b.eval s then 1 else 0
  | .paren e => e.eval s

def Target.name : Target ι → ι
  | .var x => x
  | .byteAt x _ => x
  | .upTo x _ => x

def Target.write (old value : ℕ) : Target ι → ℕ
  | .var _ => value
  | .byteAt _ lo => setField old lo 8 value
  | .upTo _ hi => setField old 0 (hi + 1) value

variable (width : ι → ℕ)

def Assign.exec (s : Store ι) (a : Assign ι) : Store ι :=
  let x := a.target.name
  Function.update s x (a.target.write (s x) (a.value.eval s) % 2 ^ width x)

def execAll (s : Store ι) (body : List (Assign ι)) : Store ι := body.foldl (Assign.exec width) s

/-- The first arm whose label has the value. -/
def selectArm (s : Store ι) (value : ℕ) (otherwise : Arm ι) : List (Expr ι × Arm ι) → Arm ι
  | [] => otherwise
  | (label, arm) :: arms =>
    if label.eval s = value then arm else selectArm s value otherwise arms

def Stmt.exec (s : Store ι) : Stmt ι → Store ι
  | .assign a => a.exec width s
  | .ifThen cond body => if cond.eval s ≠ 0 then execAll width s body else s
  | .caseOf x arms otherwise => execAll width s (selectArm s (s x) otherwise arms).body

def execBody (s : Store ι) (body : List (Stmt ι)) : Store ι := body.foldl (Stmt.exec width) s

end Evaluation

section Hierarchy

variable {ι : Type} [DecidableEq ι]

def widthOf : Option ℕ → ℕ
  | none => 1
  | some hi => hi + 1

def Item.declarations : Item ι → List (ι × ℕ)
  | .wire hi x => [(x, widthOf hi)]
  | _ => []

/-- The declared widths of a module: those of its ports, then those of its wires. -/
def Module.declarations (m : Module ι) : List (ι × ℕ) :=
  m.ports.map (fun port => (port.name, widthOf port.hi)) ++ m.items.flatMap Item.declarations

def Module.width (m : Module ι) (x : ι) : ℕ := (m.declarations.lookup x).getD 0

/-- The ports of a module with the inputs driven. -/
def Module.start (m : Module ι) (inputs : Store ι) : Store ι := fun x =>
  if m.ports.any fun port => port.input && port.name = x then inputs x % 2 ^ m.width x else 0

def connect (s : Store ι) (inputs : List (ι × Expr ι)) : Store ι := fun x =>
  match inputs.lookup x with
  | some e => e.eval s
  | none => 0

/-- The wires an instance drives. -/
def drive (width : ι → ℕ) (out : Store ι) (s : Store ι) (outputs : List (ι × ι)) : Store ι :=
  outputs.foldl (fun s c => Function.update s c.2 (out c.1 % 2 ^ width c.2)) s

/-- One item of a module. -/
def Item.run (width : ι → ℕ) (instances : ι → Store ι → Option (Store ι)) (s : Store ι) :
    Item ι → Store ι
  | .wire _ _ => s
  | .instance module _ ins outs =>
    match instances module (connect s ins) with
    | none => s
    | some out => drive width out s outs
  | .alwaysComb body => execBody width s body

/-- The instances of a design: the outputs of the module of a name, for given inputs. -/
def instantiate (design : ι → Option (Module ι)) (run : Module ι → Store ι → Store ι)
    (module : ι) (inputs : Store ι) : Option (Store ι) :=
  (design module).map fun m => run m inputs

/-- Evaluation of a module whose instances nest at most `depth` deep. -/
def Module.run (design : ι → Option (Module ι)) : ℕ → Module ι → (inputs : Store ι) → Store ι
  | 0, m, inputs => m.start inputs
  | depth + 1, m, inputs =>
    m.items.foldl (Item.run m.width (instantiate design (Module.run design depth)))
      (m.start inputs)

end Hierarchy

/-! Rules for straight-line code. -/

section Rules

variable {ι : Type} {s : Store ι}

theorem eval_paren {e : Expr ι} : (Expr.paren e).eval s = e.eval s := rfl

theorem eval_and_ne_zero {a b : Expr ι} :
    (Expr.and a b).eval s ≠ 0 ↔ a.eval s ≠ 0 ∧ b.eval s ≠ 0 := by
  rw [Expr.eval]
  split <;> simp_all

theorem eval_eq_ne_zero {a b : Expr ι} :
    (Expr.eq a b).eval s ≠ 0 ↔ a.eval s = b.eval s := by
  rw [Expr.eval]
  split <;> simp_all

section Select

variable {α : Type} {value : ℕ} {otherwise : Arm ι} {l : List α} {arm : α → Expr ι × Arm ι}

theorem selectArm_of_none (h : ∀ a ∈ l, (arm a).1.eval s ≠ value) :
    selectArm s value otherwise (l.map arm) = otherwise := by
  induction l with
  | nil => rfl
  | cons a l ih =>
    rw [List.forall_mem_cons] at h
    rw [List.map_cons, selectArm, if_neg h.1]
    exact ih h.2

/-- Where one label at most has the value, the order of the arms does not matter. -/
theorem selectArm_of_unique {a : α} (ha : a ∈ l) (hvalue : (arm a).1.eval s = value)
    (hu : ∀ b ∈ l, (arm b).1.eval s = value → b = a) :
    selectArm s value otherwise (l.map arm) = (arm a).2 := by
  induction l with
  | nil => cases ha
  | cons b l ih =>
    rw [List.forall_mem_cons] at hu
    rw [List.map_cons, selectArm]
    by_cases hb : (arm b).1.eval s = value
    · rw [if_pos hb, hu.1 hb]
    · have hmem : a ∈ l := by
        rcases List.mem_cons.mp ha with rfl | hmem
        · exact absurd hvalue hb
        · exact hmem
      rw [if_neg hb]
      exact ih hmem hu.2

end Select

/-- Groups of items that each write names of their own: what a group leaves in its names it
computed from a store in which the shared names are as they were. -/
theorem run_groups {α κ : Type} {run : Store ι → Item ι → Store ι} {items : α → List (Item ι)}
    {owner : ι → Option κ} {key : α → κ} {groups : List α} (hkeys : (groups.map key).Nodup)
    (hframe : ∀ a ∈ groups, ∀ s x, owner x ≠ some (key a) → (items a).foldl run s x = s x)
    (s : Store ι) :
    (∀ x, (∀ a ∈ groups, owner x ≠ some (key a)) → (groups.flatMap items).foldl run s x = s x) ∧
    ∀ a ∈ groups, ∃ t : Store ι, (∀ x, owner x = none → t x = s x) ∧
      ∀ x, owner x = some (key a) →
        (groups.flatMap items).foldl run s x = (items a).foldl run t x := by
  induction groups generalizing s with
  | nil => simp
  | cons a groups ih =>
    rw [List.map_cons, List.nodup_cons] at hkeys
    obtain ⟨hnew, hkeys⟩ := hkeys
    have hhead := hframe a List.mem_cons_self
    obtain ⟨hout, hin⟩ := ih hkeys (fun b hb => hframe b (List.mem_cons_of_mem a hb))
      ((items a).foldl run s)
    simp only [List.flatMap_cons, List.foldl_append]
    constructor
    · intro x hx
      rw [List.forall_mem_cons] at hx
      rw [hout x hx.2, hhead s x hx.1]
    · intro b hb
      rcases List.mem_cons.mp hb with rfl | hb
      · refine ⟨s, fun _ _ => rfl, ?_⟩
        intro x hx
        apply hout
        intro c hc he
        have hkey : key b = key c := Option.some.inj (hx.symm.trans he)
        exact hnew (hkey ▸ List.mem_map_of_mem hc)
      · obtain ⟨t, ht, hfinal⟩ := hin b hb
        refine ⟨t, ?_, hfinal⟩
        intro x hx
        rw [ht x hx, hhead s x (by simp [hx])]

theorem lookup_flatMap_zipIdx {α β κ : Type} [BEq κ] {f : α × ℕ → List (κ × β)} {x : κ} {v : β}
    {a : α} {l : List α} {i k : ℕ} (ha : l[i]? = some a)
    (hself : (f (a, k + i)).lookup x = some v)
    (hother : ∀ b j, j ≠ k + i → (f (b, j)).lookup x = none) :
    ((l.zipIdx k).flatMap f).lookup x = some v := by
  induction l generalizing k i with
  | nil => simp at ha
  | cons b l ih =>
    rw [List.zipIdx_cons, List.flatMap_cons, List.lookup_append]
    cases i with
    | zero =>
      cases ha
      rw [Nat.add_zero] at hself
      rw [hself]
      rfl
    | succ i =>
      have heq : k + (i + 1) = k + 1 + i := by omega
      rw [hother b k (by omega), Option.none_or]
      rw [heq] at hself hother
      exact ih ha hself hother

variable [DecidableEq ι] {width : ι → ℕ} {x y : ι}

theorem lookup_cons_ite {β : Type} (z : ι × β) (l : List (ι × β)) :
    (z :: l).lookup x = if x = z.1 then some z.2 else l.lookup x := by
  rw [List.lookup_cons]
  by_cases h : x = z.1
  · simp [h]
  · simp [h, beq_false_of_ne]

theorem lookup_eq_none_of_owner {β : Type} {owner : ι → Option ℕ} {l : List (ι × β)}
    {i : Option ℕ} (hl : ∀ d ∈ l, owner d.1 = i) (hx : owner x ≠ i) : l.lookup x = none := by
  rw [List.lookup_eq_none_iff]
  intro d hd
  rw [bne_iff_ne]
  rintro rfl
  exact hx (hl d hd)

/-- The width of a wire that one of several groups of items declares. -/
theorem width_of_group {α : Type} {m : Module ι} {items : α × ℕ → List (Item ι)}
    {rest : List (Item ι)} {owner : ι → Option ℕ} {l : List α} {a : α} {i w : ℕ}
    (hitems : m.items = l.zipIdx.flatMap items ++ rest) (ha : l[i]? = some a)
    (hports : ∀ port ∈ m.ports, owner port.name = none)
    (howner : ∀ z, ∀ d ∈ (items z).flatMap Item.declarations, owner d.1 = some z.2)
    (hx : owner x = some i)
    (hself : ((items (a, i)).flatMap Item.declarations).lookup x = some w) : m.width x = w := by
  have hother : ∀ b j, j ≠ 0 + i → ((items (b, j)).flatMap Item.declarations).lookup x = none := by
    intro b j hj
    apply lookup_eq_none_of_owner (howner (b, j))
    rw [hx, Ne, Option.some_inj]
    omega
  have hlookup := @lookup_flatMap_zipIdx _ _ _ _ (fun z => (items z).flatMap Item.declarations)
    x w a l i 0 ha (by simpa using hself) hother
  have hnone : (m.ports.map fun port => (port.name, widthOf port.hi)).lookup x = none := by
    have hnames : ∀ d ∈ m.ports.map fun port => (port.name, widthOf port.hi),
        owner d.1 = none := by
      intro d hd
      obtain ⟨port, hport, rfl⟩ := List.mem_map.mp hd
      exact hports port hport
    exact lookup_eq_none_of_owner hnames (by simp [hx])
  rw [Module.width, Module.declarations, hitems, List.lookup_append, hnone, Option.none_or,
    List.flatMap_append, List.flatMap_assoc, List.lookup_append, hlookup]
  rfl

theorem execAll_cons (a : Assign ι) (body : List (Assign ι)) :
    execAll width s (a :: body) = execAll width (a.exec width s) body := rfl

theorem execBody_cons (stmt : Stmt ι) (body : List (Stmt ι)) :
    execBody width s (stmt :: body) = execBody width (stmt.exec width s) body := rfl

theorem exec_var (e : Expr ι) :
    (⟨.var x, e⟩ : Assign ι).exec width s = Function.update s x (e.eval s % 2 ^ width x) := rfl

/-- The bytes an assignment list copies from `y` to `x`: byte `i` of `x` from byte `srcs[i]`. -/
def copyBytes (x y : ι) (k : ℕ) (srcs : List ℕ) : List (Assign ι) :=
  (srcs.zipIdx k).map fun z => ⟨.byteAt x (z.2 * 8), .byteAt y (z.1 * 8)⟩

theorem setField_append (l : List Octet) (b : Octet) :
    setField (pack l) (l.length * 8) 8 b.val = pack (l ++ [b]) := by
  have hzero : pack l = pack (l ++ [0]) := (pack_append_zeros l 1).symm
  rw [hzero, setField_pack (by simp)]
  simp

/-- Copying bytes in order appends them to what has been copied. -/
theorem execAll_copyBytes (hxy : x ≠ y) {copied source : List Octet} {srcs : List ℕ}
    (hx : s x = pack copied) (hy : s y = pack source)
    (hwidth : (copied.length + srcs.length) * 8 ≤ width x) :
    execAll width s (copyBytes x y copied.length srcs) =
      Function.update s x (pack (copied ++ srcs.map fun j => source.getD j 0)) := by
  induction srcs generalizing copied s with
  | nil => simp [copyBytes, execAll, ← hx]
  | cons j srcs ih =>
    rw [List.length_cons] at hwidth
    have hlt : pack (copied ++ [source.getD j 0]) < 2 ^ width x := by
      refine (pack_lt _).trans_le (Nat.pow_le_pow_right (by decide) ?_)
      rw [List.length_append, List.length_singleton]
      omega
    have hstep : Assign.exec width s ⟨.byteAt x (copied.length * 8), .byteAt y (j * 8)⟩ =
        Function.update s x (pack (copied ++ [source.getD j 0])) := by
      rw [Assign.exec]
      dsimp only [Target.name, Target.write, Expr.eval]
      rw [hx, hy, field_pack, setField_append, Nat.mod_eq_of_lt hlt]
    have hrest := @ih (Function.update s x (pack (copied ++ [source.getD j 0])))
      (copied ++ [source.getD j 0]) (Function.update_self ..)
      (by rw [Function.update_of_ne (Ne.symm hxy), hy])
      (by rw [List.length_append, List.length_singleton]; omega)
    have hlen : (copied ++ [source.getD j 0]).length = copied.length + 1 := by simp
    rw [hlen] at hrest
    rw [copyBytes, List.zipIdx_cons, List.map_cons, execAll_cons, hstep]
    refine hrest.trans ?_
    rw [Function.update_idem, List.append_assoc]
    rfl

/-- A chain of `if`s that all test a flag first: only the first one that applies is taken,
if taking it sets the flag. -/
theorem execBody_priority {α : Type} (flag : ι) (cond : α → Expr ι)
    (body : α → List (Assign ι)) (l : List α) (hflag : s flag = 0)
    (hset : ∀ a ∈ l, (cond a).eval s ≠ 0 → execAll width s (body a) flag ≠ 0) :
    execBody width s (l.map fun a => .ifThen (.and (.not (.var flag)) (cond a)) (body a)) =
      match l.find? fun a => (cond a).eval s ≠ 0 with
      | none => s
      | some a => execAll width s (body a) := by
  have hdone : ∀ (l : List α) (t : Store ι), t flag ≠ 0 → execBody width t
      (l.map fun a => .ifThen (.and (.not (.var flag)) (cond a)) (body a)) = t := by
    intro l t ht
    induction l with
    | nil => rfl
    | cons a l ih =>
      rw [List.map_cons, execBody_cons]
      simp only [Stmt.exec, Expr.eval, ht, if_false, ne_eq, not_true_eq_false, false_and]
      exact ih
  induction l with
  | nil => rfl
  | cons a l ih =>
    rw [List.map_cons, execBody_cons, List.find?_cons]
    by_cases hc : (cond a).eval s = 0
    · simp only [Stmt.exec, Expr.eval, hflag, hc, if_true, ne_eq, not_true_eq_false, and_false,
        if_false, decide_false]
      exact ih fun b hb => hset b (List.mem_cons_of_mem a hb)
    · simp only [Stmt.exec, Expr.eval, hflag, hc, if_true, ne_eq, one_ne_zero, not_false_eq_true,
        and_self, decide_true]
      exact hdone l _ (hset a List.mem_cons_self hc)

/-- A chain that leaves its flag unset has taken none of its branches. -/
theorem execBody_untaken {α : Type} {flag : ι} {cond : α → Expr ι} {body : α → List (Assign ι)}
    {l : List α} (hflag : s flag = 0)
    (hset : ∀ a ∈ l, (cond a).eval s ≠ 0 → execAll width s (body a) flag ≠ 0)
    (hunset : execBody width s
      (l.map fun a => .ifThen (.and (.not (.var flag)) (cond a)) (body a)) flag = 0) :
    execBody width s (l.map fun a => .ifThen (.and (.not (.var flag)) (cond a)) (body a)) = s := by
  rw [execBody_priority flag cond body l hflag hset] at hunset ⊢
  cases hfind : l.find? fun a => decide ((cond a).eval s ≠ 0) with
  | none => rfl
  | some a =>
    rw [hfind] at hunset
    have htaken : (cond a).eval s ≠ 0 := by simpa using List.find?_some hfind
    exact absurd hunset (hset a (List.mem_of_find?_eq_some hfind) htaken)

/-- What is assigned fits the width of its name. -/
theorem execAll_lt {body : List (Assign ι)} (h : s x < 2 ^ width x) :
    execAll width s body x < 2 ^ width x := by
  induction body generalizing s with
  | nil => exact h
  | cons a body ih =>
    refine ih ?_
    by_cases hx : x = a.target.name
    · subst hx
      rw [Assign.exec, Function.update_self]
      exact Nat.mod_lt _ (Nat.two_pow_pos _)
    · rw [Assign.exec, Function.update_of_ne hx]
      exact h

theorem execBody_lt {body : List (Stmt ι)} (h : s x < 2 ^ width x) :
    execBody width s body x < 2 ^ width x := by
  induction body generalizing s with
  | nil => exact h
  | cons stmt body ih =>
    refine ih ?_
    cases stmt with
    | assign a => exact @execAll_lt _ _ _ _ _ [a] h
    | ifThen cond body =>
      rw [Stmt.exec]
      split
      · exact execAll_lt h
      · exact h
    | caseOf y arms otherwise => exact execAll_lt h

end Rules
end SystemVerilog
