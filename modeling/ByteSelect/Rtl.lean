import ByteSelect.Codec
import ByteSelect.SystemVerilog

/-! The SystemVerilog generators, and the modules their texts spell out. -/
namespace ByteSelect

open SystemVerilog

/-- A `std::string` of the given characters; no string is longer than `PTRDIFF_MAX`. -/
def makeString (text : Text) : Except Error (Vec Char) :=
  if h : text.length < 2 ^ 63 then .ok ⟨text, h⟩ else .error (.lengthError "basic_string::append")

/-- `i * 8` in `std::size_t`. -/
def bit (i : ℕ) : ℕ := i * 8 % 2 ^ 64

def firstPositions (pattern : Pattern) : List ℕ :=
  pattern.symbols.zipIdx.foldl (fun result (symbol, i) =>
    if result.getD symbol.val 0 = pattern.size then result.set symbol.val i else result)
    (List.replicate pattern.rank pattern.size)

/-! The four generators. -/

/-- The loop over the patterns, from pattern `p` on. -/
def compressorPatterns (set : PatternSet) (idBits : SizeT) (p : ℕ) :
    List Pattern → Except Error Text
  | [] => .ok []
  | pattern :: patterns => do
    let first := firstPositions pattern
    let guard : Text := "    if (!success_o && (1'b1" ++
      forEach pattern.symbols.zipIdx fun (symbol, i) =>
        let representative := first.getD symbol.val 0
        if i ≠ representative then
          " && (block_i[" ++ num (bit i) ++ " +: 8] == block_i[" ++ num (bit representative) ++
            " +: 8])"
        else []
    let metadata ← encodePatternMetadata set p
    let body : Text := ")) begin\n" ++
      "      success_o = 1'b1;\n" ++
      "      pattern_id_o = " ++ num idBits ++ "'d" ++ num metadata ++ ";\n" ++
      forEach (List.range pattern.rank) (fun symbol =>
        "      dictionary_o[" ++ num (bit symbol) ++ " +: 8] = block_i[" ++
          num (bit (first.getD symbol 0)) ++ " +: 8];\n") ++
      "    end\n"
    let rest ← compressorPatterns set idBits (p + 1) patterns
    return guard ++ body ++ rest

def generateCompressorSv (model : Model) (setIndex : ℕ) : Except Error (Vec Char) := do
  validateModel model
  match model.sets[setIndex]? with
  | none => .error (.invalidArgument "RTL set index out of range")
  | some set => do
    let idBits := set.metadataBytes * 8
    let patterns ← compressorPatterns set idBits 0 set.patterns.toList
    makeString <|
      "module bsel_compressor" ++ "_s" ++ num setIndex ++ " (\n" ++
      "  input  logic [" ++ num (model.blockSize * 8 - 1).val ++ ":0] block_i,\n" ++
      "  output logic success_o,\n" ++
      "  output logic [" ++ num (idBits - 1).val ++ ":0] pattern_id_o,\n" ++
      "  output logic [" ++ num (set.dictionarySize * 8 - 1).val ++ ":0] dictionary_o\n" ++
      ");\n" ++
      "  always_comb begin\n" ++
      "    success_o = 1'b0;\n" ++
      "    pattern_id_o = '0;\n" ++
      "    dictionary_o = '0;\n" ++
      patterns ++
      "  end\nendmodule\n"

def decompressorPatterns (set : PatternSet) (idBits : SizeT) (p : ℕ) :
    List Pattern → Except Error Text
  | [] => .ok []
  | pattern :: patterns => do
    let metadata ← encodePatternMetadata set p
    let arm : Text := "      " ++ num idBits ++ "'d" ++ num metadata ++ ": begin\n" ++
      forEach pattern.symbols.zipIdx (fun (symbol, i) =>
        "        block_o[" ++ num (bit i) ++ " +: 8] = dictionary_i[" ++
          num (bit symbol.val) ++ " +: 8];\n") ++
      "      end\n"
    let rest ← decompressorPatterns set idBits (p + 1) patterns
    return arm ++ rest

def generateDecompressorSv (model : Model) (setIndex : ℕ) : Except Error (Vec Char) := do
  validateModel model
  match model.sets[setIndex]? with
  | none => .error (.invalidArgument "RTL set index out of range")
  | some set => do
    let idBits := set.metadataBytes * 8
    let patterns ← decompressorPatterns set idBits 0 set.patterns.toList
    makeString <|
      "module bsel_decompressor" ++ "_s" ++ num setIndex ++ " (\n" ++
      "  input  logic [" ++ num (idBits - 1).val ++ ":0] pattern_id_i,\n" ++
      "  input  logic [" ++ num (set.dictionarySize * 8 - 1).val ++ ":0] dictionary_i,\n" ++
      "  output logic [" ++ num (model.blockSize * 8 - 1).val ++ ":0] block_o,\n" ++
      "  output logic valid_o\n" ++
      ");\n" ++
      "  always_comb begin\n" ++
      "    block_o = '0;\n" ++
      "    valid_o = 1'b1;\n" ++
      "    case (pattern_id_i)\n" ++
      patterns ++
      "      default: valid_o = 1'b0;\n" ++
      "    endcase\n" ++
      "  end\nendmodule\n"

def maxIdBits (model : Model) : SizeT :=
  model.sets.foldl (fun result set => max result (set.metadataBytes * 8)) 0

def maxDictionaryBytes (model : Model) : SizeT :=
  model.sets.foldl (fun result set => max result set.dictionarySize) 0

def generateTopCompressorSv (model : Model) : Except Error (Vec Char) := do
  validateModel model
  makeString <|
    "module bsel_compressor_top (\n" ++
    "  input logic [" ++ num (model.blockSize * 8 - 1).val ++ ":0] block_i,\n" ++
    "  output logic success_o,\n" ++
    "  output logic [" ++ num (maxIdBits model - 1).val ++ ":0] pattern_id_o,\n" ++
    "  output logic [" ++ num (maxDictionaryBytes model * 8 - 1).val ++ ":0] dictionary_o,\n" ++
    "  output logic [15:0] target_size_o\n" ++
    ");\n" ++
    forEach model.sets.zipIdx (fun (set, i) =>
      "  logic success_" ++ num i ++ ";\n" ++
      "  logic [" ++ num (set.metadataBytes * 8 - 1).val ++ ":0] pattern_id_" ++ num i ++ ";\n" ++
      "  logic [" ++ num (set.dictionarySize * 8 - 1).val ++ ":0] dictionary_" ++ num i ++ ";\n" ++
      "  bsel_compressor" ++ "_s" ++ num i ++ " compressor_" ++ num i ++
      " (.block_i(block_i), .success_o(success_" ++ num i ++
      "), .pattern_id_o(pattern_id_" ++ num i ++ "), .dictionary_o(dictionary_" ++ num i ++
      "));\n") ++
    "  always_comb begin\n" ++
    "    success_o = 1'b0;\n" ++
    "    pattern_id_o = '0;\n" ++
    "    dictionary_o = '0;\n" ++
    "    target_size_o = " ++ num model.blockSize.val ++ ";\n" ++
    forEach (setOrder model) (fun (set, i) =>
      "    if (!success_o && success_" ++ num i ++ ") begin\n" ++
      "      success_o = 1'b1;\n" ++
      "      pattern_id_o[" ++ num (set.metadataBytes * 8 - 1).val ++ ":0] = pattern_id_" ++
      num i ++ ";\n" ++
      "      dictionary_o[" ++ num (set.dictionarySize * 8 - 1).val ++ ":0] = dictionary_" ++
      num i ++ ";\n" ++
      "      target_size_o = 16'd" ++ num set.targetSize.val ++ ";\n" ++
      "    end\n") ++
    "  end\nendmodule\n"

def generateTopDecompressorSv (model : Model) : Except Error (Vec Char) := do
  validateModel model
  makeString <|
    "module bsel_decompressor_top (\n" ++
    "  input logic [15:0] target_size_i,\n" ++
    "  input logic [" ++ num (maxIdBits model - 1).val ++ ":0] pattern_id_i,\n" ++
    "  input logic [" ++ num (maxDictionaryBytes model * 8 - 1).val ++ ":0] dictionary_i,\n" ++
    "  output logic [" ++ num (model.blockSize * 8 - 1).val ++ ":0] block_o,\n" ++
    "  output logic valid_o\n" ++
    ");\n" ++
    forEach model.sets.zipIdx (fun (set, i) =>
      "  logic [" ++ num (model.blockSize * 8 - 1).val ++ ":0] block_" ++ num i ++
      ";\n  logic valid_" ++ num i ++ ";\n" ++
      "  bsel_decompressor" ++ "_s" ++ num i ++ " decompressor_" ++ num i ++
      " (.pattern_id_i(pattern_id_i[" ++ num (set.metadataBytes * 8 - 1).val ++
      ":0]), .dictionary_i(dictionary_i[" ++ num (set.dictionarySize * 8 - 1).val ++
      ":0]), .block_o(block_" ++ num i ++ "), .valid_o(valid_" ++ num i ++ "));\n") ++
    "  always_comb begin\n" ++
    "    block_o = '0;\n" ++
    "    valid_o = 1'b0;\n" ++
    "    case (target_size_i)\n" ++
    forEach model.sets.zipIdx (fun (set, i) =>
      "      16'd" ++ num set.targetSize.val ++ ": begin block_o = block_" ++ num i ++
      "; valid_o = valid_" ++ num i ++ "; end\n") ++
    "      default: begin block_o = '0; valid_o = 1'b0; end\n" ++
    "    endcase\n" ++
    "  end\nendmodule\n"

/-! The same modules as syntax. -/

inductive Ident where
  | compressor (i : ℕ)
  | decompressor (i : ℕ)
  | compressorTop
  | decompressorTop
  | compressorInstance (i : ℕ)
  | decompressorInstance (i : ℕ)
  | blockI
  | successO
  | patternIdO
  | dictionaryO
  | targetSizeO
  | targetSizeI
  | patternIdI
  | dictionaryI
  | blockO
  | validO
  | success (i : ℕ)
  | patternId (i : ℕ)
  | dictionary (i : ℕ)
  | block (i : ℕ)
  | valid (i : ℕ)
  deriving DecidableEq

def Ident.base : Ident → String
  | compressor _ => "bsel_compressor_s"
  | decompressor _ => "bsel_decompressor_s"
  | compressorTop => "bsel_compressor_top"
  | decompressorTop => "bsel_decompressor_top"
  | compressorInstance _ => "compressor_"
  | decompressorInstance _ => "decompressor_"
  | blockI => "block_i"
  | successO => "success_o"
  | patternIdO => "pattern_id_o"
  | dictionaryO => "dictionary_o"
  | targetSizeO => "target_size_o"
  | targetSizeI => "target_size_i"
  | patternIdI => "pattern_id_i"
  | dictionaryI => "dictionary_i"
  | blockO => "block_o"
  | validO => "valid_o"
  | success _ => "success_"
  | patternId _ => "pattern_id_"
  | dictionary _ => "dictionary_"
  | block _ => "block_"
  | valid _ => "valid_"

def Ident.index : Ident → Option ℕ
  | compressor i | decompressor i | compressorInstance i | decompressorInstance i => some i
  | success i | patternId i | dictionary i | block i | valid i => some i
  | _ => none

def indexText : Option ℕ → Text
  | none => []
  | some i => num i

def Ident.text (x : Ident) : Text := x.base ++ indexText x.index

open Ident

/-- The identifier of a pattern, as the encoder gives it for a valid set. -/
def idOf (set : PatternSet) (p : ℕ) : SizeT :=
  match encodePatternMetadata set p with
  | .ok metadata => metadata
  | .error _ => 0

/-- The positions that are not the first of their symbol, each with the first. -/
def guardPairs (pattern : Pattern) : List (ℕ × ℕ) :=
  (pattern.symbols.zipIdx.map fun (symbol, i) =>
    (i, (firstPositions pattern).getD symbol.val 0)).filter fun (i, first) => i ≠ first

def guardExpr (pattern : Pattern) : Expr Ident :=
  (guardPairs pattern).foldl (fun e (i, first) =>
    .and e (.paren (.eq (.byteAt blockI (bit i)) (.byteAt blockI (bit first))))) (.bit true)

def compressorBody (set : PatternSet) (pattern : Pattern) (p : ℕ) : List (Assign Ident) :=
  ⟨.var successO, .bit true⟩ ::
    ⟨.var patternIdO, .sized (set.metadataBytes * 8).val (idOf set p).val⟩ ::
    (List.range pattern.rank).map fun symbol =>
      ⟨.byteAt dictionaryO (bit symbol),
        .byteAt blockI (bit ((firstPositions pattern).getD symbol 0))⟩

def compressorStmt (set : PatternSet) (x : Pattern × ℕ) : Stmt Ident :=
  .ifThen (.and (.not (.var successO)) (.paren (guardExpr x.1))) (compressorBody set x.1 x.2)

def compressorModule (model : Model) (set : PatternSet) (i : ℕ) : Module Ident where
  name := compressor i
  aligned := true
  ports := [
    ⟨true, some (model.blockSize * 8 - 1).val, blockI⟩,
    ⟨false, none, successO⟩,
    ⟨false, some (set.metadataBytes * 8 - 1).val, patternIdO⟩,
    ⟨false, some (set.dictionarySize * 8 - 1).val, dictionaryO⟩]
  items := [.alwaysComb <|
    .assign ⟨.var successO, .bit false⟩ ::
    .assign ⟨.var patternIdO, .zeros⟩ ::
    .assign ⟨.var dictionaryO, .zeros⟩ ::
    set.patterns.toList.zipIdx.map (compressorStmt set)]

def decompressorArm (set : PatternSet) (x : Pattern × ℕ) : Expr Ident × Arm Ident :=
  (.sized (set.metadataBytes * 8).val (idOf set x.2).val,
    ⟨.lines, x.1.symbols.zipIdx.map fun y =>
      ⟨.byteAt blockO (bit y.2), .byteAt dictionaryI (bit y.1.val)⟩⟩)

def decompressorModule (model : Model) (set : PatternSet) (i : ℕ) : Module Ident where
  name := decompressor i
  aligned := true
  ports := [
    ⟨true, some (set.metadataBytes * 8 - 1).val, patternIdI⟩,
    ⟨true, some (set.dictionarySize * 8 - 1).val, dictionaryI⟩,
    ⟨false, some (model.blockSize * 8 - 1).val, blockO⟩,
    ⟨false, none, validO⟩]
  items := [.alwaysComb [
    .assign ⟨.var blockO, .zeros⟩,
    .assign ⟨.var validO, .bit true⟩,
    .caseOf patternIdI (set.patterns.toList.zipIdx.map (decompressorArm set))
      ⟨.single, [⟨.var validO, .bit false⟩]⟩]]

def compressorItems (x : PatternSet × ℕ) : List (Item Ident) := [
  .wire none (success x.2),
  .wire (some (x.1.metadataBytes * 8 - 1).val) (patternId x.2),
  .wire (some (x.1.dictionarySize * 8 - 1).val) (dictionary x.2),
  .instance (compressor x.2) (compressorInstance x.2) [(blockI, .var blockI)]
    [(successO, success x.2), (patternIdO, patternId x.2), (dictionaryO, dictionary x.2)]]

def selectBody (x : PatternSet × ℕ) : List (Assign Ident) := [
  ⟨.var successO, .bit true⟩,
  ⟨.upTo patternIdO (x.1.metadataBytes * 8 - 1).val, .var (patternId x.2)⟩,
  ⟨.upTo dictionaryO (x.1.dictionarySize * 8 - 1).val, .var (dictionary x.2)⟩,
  ⟨.var targetSizeO, .sized 16 x.1.targetSize.val⟩]

def selectStmt (x : PatternSet × ℕ) : Stmt Ident :=
  .ifThen (.and (.not (.var successO)) (.var (success x.2))) (selectBody x)

def topCompressorModule (model : Model) : Module Ident where
  name := compressorTop
  aligned := false
  ports := [
    ⟨true, some (model.blockSize * 8 - 1).val, blockI⟩,
    ⟨false, none, successO⟩,
    ⟨false, some (maxIdBits model - 1).val, patternIdO⟩,
    ⟨false, some (maxDictionaryBytes model * 8 - 1).val, dictionaryO⟩,
    ⟨false, some 15, targetSizeO⟩]
  items := model.sets.zipIdx.flatMap compressorItems ++ [.alwaysComb <|
    .assign ⟨.var successO, .bit false⟩ ::
    .assign ⟨.var patternIdO, .zeros⟩ ::
    .assign ⟨.var dictionaryO, .zeros⟩ ::
    .assign ⟨.var targetSizeO, .unsized model.blockSize.val⟩ ::
    (setOrder model).map selectStmt]

/-- The inputs of an instance are the low parts of the top module's. -/
def decompressorInputs (x : PatternSet × ℕ) : List (Ident × Expr Ident) := [
  (patternIdI, .upTo patternIdI (x.1.metadataBytes * 8 - 1).val),
  (dictionaryI, .upTo dictionaryI (x.1.dictionarySize * 8 - 1).val)]

def decompressorItems (model : Model) (x : PatternSet × ℕ) : List (Item Ident) := [
  .wire (some (model.blockSize * 8 - 1).val) (block x.2),
  .wire none (valid x.2),
  .instance (decompressor x.2) (decompressorInstance x.2) (decompressorInputs x)
    [(blockO, block x.2), (validO, valid x.2)]]

def targetArm (x : PatternSet × ℕ) : Expr Ident × Arm Ident :=
  (.sized 16 x.1.targetSize.val,
    ⟨.inline, [⟨.var blockO, .var (block x.2)⟩, ⟨.var validO, .var (valid x.2)⟩]⟩)

def topDecompressorModule (model : Model) : Module Ident where
  name := decompressorTop
  aligned := false
  ports := [
    ⟨true, some 15, targetSizeI⟩,
    ⟨true, some (maxIdBits model - 1).val, patternIdI⟩,
    ⟨true, some (maxDictionaryBytes model * 8 - 1).val, dictionaryI⟩,
    ⟨false, some (model.blockSize * 8 - 1).val, blockO⟩,
    ⟨false, none, validO⟩]
  items := model.sets.zipIdx.flatMap (decompressorItems model) ++ [.alwaysComb [
    .assign ⟨.var blockO, .zeros⟩,
    .assign ⟨.var validO, .bit false⟩,
    .caseOf targetSizeI (model.sets.zipIdx.map targetArm)
      ⟨.inline, [⟨.var blockO, .zeros⟩, ⟨.var validO, .bit false⟩]⟩]]

/-- The generated files: the module of each name. -/
def design (model : Model) : Ident → Option (Module Ident)
  | compressor i => (model.sets[i]?).map fun set => compressorModule model set i
  | decompressor i => (model.sets[i]?).map fun set => decompressorModule model set i
  | compressorTop => some (topCompressorModule model)
  | decompressorTop => some (topDecompressorModule model)
  | _ => none

end ByteSelect
