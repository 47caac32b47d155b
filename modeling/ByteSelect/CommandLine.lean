import ByteSelect.Loops
import ByteSelect.TextStream
import ByteSelect.TrainTraces

/-! The command line: sizes, targets, presets, training options and groups of traces. What
`main` would print of an exception stands for the exception. -/
namespace ByteSelect

open Loops TextStream

def Error.what : Error → String
  | .invalidArgument what => what
  | .runtimeError what => what
  | .lengthError what => what

/-- `std::stoull`: the value, and what it has not consumed. Its two exceptions say the same. -/
def stoull (text : Text) : Except String (SizeT × Text) :=
  let (negative, text) := splitSign (text.dropWhile isSpace)
  let digits := text.takeWhile Char.isDigit
  if digits = [] then .error "stoull"
  else if h : digitsValue digits < 2 ^ 64 then
    .ok (if negative then -⟨digitsValue digits, h⟩ else ⟨digitsValue digits, h⟩,
      text.dropWhile Char.isDigit)
  else .error "stoull"

def parseSize (text : Text) (name : String) : Except String { n : SizeT // n ≠ 0 } := do
  let (value, rest) ← stoull text
  if h : value ≠ 0 ∧ rest = [] then return ⟨value, h.1⟩
  else throw ("invalid " ++ name ++ ": " ++ String.ofList text)

/-- The text before a colon and the text after it. -/
def splitColon (text : Text) : Option (Text × Text) :=
  match text.dropWhile (· ≠ ':') with
  | [] => none
  | _ :: rest => some (text.takeWhile (· ≠ ':'), rest)

def parseTarget (text : Text) : Except String TargetSpec :=
  match splitColon text with
  | none => throw "target must be SIZE:PATTERNS:METADATA_BYTES"
  | some (size, rest) =>
    match splitColon rest with
    | none => throw "target must be SIZE:PATTERNS:METADATA_BYTES"
    | some (patternCount, metadataBytes) => do
      let size ← parseSize size "target size"
      let patternCount ← parseSize patternCount "pattern count"
      let metadataBytes ← parseSize metadataBytes "metadata bytes"
      return { size := size, patternCount := patternCount, metadataBytes := metadataBytes }

def paperConfig (name : Text) : Except String (List TargetSpec) :=
  if name = "bsel-256".toList then return [⟨32, 256, 1, 0, 0⟩]
  else if name = "bsel-4096".toList then return [⟨32, 4096, 2, 0, 0⟩]
  else if name = "bsel-1024-1024-128".toList then
    return [⟨32, 1024, 2, 1, 0⟩, ⟨16, 1024, 2, 1, 0⟩, ⟨8, 128, 1, 1, 1⟩]
  else throw "paper config must be bsel-256, bsel-4096, or bsel-1024-1024-128"

/-! Training options. -/

structure ParsedOptions where
  options : TrainOptions := { targets := [] }
  paperConfig : Text := []

def parseSelection (mode : Text) : Except String SelectionMode :=
  if mode = "lazy".toList then return .lazyExact
  else if mode = "exhaustive".toList then return .exhaustive
  else throw "selection must be lazy or exhaustive"

/-- One turn of the loop, for an option that has a value after it. -/
def trainOption (parsed : ParsedOptions) (option value : Text) : Except String ParsedOptions :=
  let options := parsed.options
  if option = "--block-size".toList then do
    let n ← parseSize value "block size"
    return { parsed with options := { options with blockSize := n.1, blockSize_ne := n.2 } }
  else if option = "--threshold".toList then do
    let n ← parseSize value "threshold"
    return { parsed with options := { options with threshold := n.1 } }
  else if option = "--target".toList then
    if parsed.paperConfig ≠ [] then throw "--target cannot be combined with --paper-config"
    else do
      let target ← parseTarget value
      return { parsed with options := { options with targets := options.targets ++ [target] } }
  else if option = "--paper-config".toList then
    if options.targets ≠ [] ∨ parsed.paperConfig ≠ [] then
      throw "--paper-config cannot be combined with --target or repeated"
    else do
      let targets ← paperConfig value
      return ⟨{ options with targets := options.targets ++ targets }, value⟩
  else if option = "--selection".toList then do
    let mode ← parseSelection value
    return { parsed with options := { options with selectionMode := mode } }
  else if option = "--holdout-middle".toList then do
    let n ← parseSize value "holdout percentage"
    if h : n.1 < 100 then
      return { parsed with
        options := { options with holdoutPercent := n.1, holdoutPercent_lt := h } }
    else throw "holdout percentage must be below 100"
  else throw ("unknown or incomplete option: " ++ String.ofList option)

def trainOptionsFrom : ParsedOptions → List Text → Except String ParsedOptions
  | parsed, [] => return parsed
  | _, [option] => throw ("unknown or incomplete option: " ++ String.ofList option)
  | parsed, option :: value :: args => do
    let parsed ← trainOption parsed option value
    trainOptionsFrom parsed args

def parseTrainOptions (args : List Text) : Except String ParsedOptions := do
  let parsed ← trainOptionsFrom {} args
  if parsed.options.targets = [] then
    return { parsed with options := { parsed.options with targets := [⟨32, 256, 1, 0, 0⟩] } }
  else return parsed

/-- What every command line that is accepted asks for. -/
structure ParsedOptions.Sound (parsed : ParsedOptions) : Prop where
  threshold_ne : parsed.options.threshold ≠ 0
  count_ne : ∀ target ∈ parsed.options.targets, target.patternCount ≠ 0
  preset : (∀ target ∈ parsed.options.targets, target.metadataTagBits = 0) ∧
    parsed.paperConfig = [] ∨
    ByteSelect.paperConfig parsed.paperConfig = .ok parsed.options.targets

variable {parsed parsed' : ParsedOptions} {option value : Text}

theorem count_ne_of_paperConfig {name : Text} {targets : List TargetSpec}
    (h : paperConfig name = .ok targets) : ∀ target ∈ targets, target.patternCount ≠ 0 := by
  unfold paperConfig at h
  split at h
  · cases h
    decide
  · split at h
    · cases h
      decide
    · split at h
      · cases h
        decide
      · cases h

theorem tags_of_paperConfig {name : Text} {targets : List TargetSpec}
    (h : paperConfig name = .ok targets) :
    ∀ target ∈ targets, 0 < target.metadataTagBits.val → target.metadataBytes.val ≤ 8 := by
  unfold paperConfig at h
  split at h
  · cases h
    decide
  · split at h
    · cases h
      decide
    · split at h
      · cases h
        decide
      · cases h

theorem parseTarget_plain {target : TargetSpec} (h : parseTarget value = .ok target) :
    target.patternCount ≠ 0 ∧ target.metadataTagBits = 0 := by
  unfold parseTarget at h
  split at h
  · cases h
  · split at h
    · cases h
    · obtain ⟨size, -, h⟩ := bind_eq_ok_iff.mp h
      obtain ⟨patternCount, -, h⟩ := bind_eq_ok_iff.mp h
      obtain ⟨metadataBytes, -, h⟩ := bind_eq_ok_iff.mp h
      cases h
      exact ⟨patternCount.2, rfl⟩

/-- A turn of the loop keeps presets and plain targets apart. -/
theorem ParsedOptions.Sound.step (h : parsed.Sound)
    (hstep : trainOption parsed option value = .ok parsed') : parsed'.Sound := by
  unfold trainOption at hstep
  dsimp only at hstep
  split at hstep
  · obtain ⟨n, -, hstep⟩ := bind_eq_ok_iff.mp hstep
    cases hstep
    exact ⟨h.threshold_ne, h.count_ne, h.preset⟩
  split at hstep
  · obtain ⟨n, -, hstep⟩ := bind_eq_ok_iff.mp hstep
    cases hstep
    exact ⟨n.2, h.count_ne, h.preset⟩
  split at hstep
  · split at hstep
    · cases hstep
    rename_i hpaper
    obtain ⟨target, htarget, hstep⟩ := bind_eq_ok_iff.mp hstep
    cases hstep
    obtain ⟨hcount, hplain⟩ := parseTarget_plain htarget
    have hempty : parsed.paperConfig = [] := not_not.mp hpaper
    refine ⟨h.threshold_ne, ?_, Or.inl ⟨?_, hempty⟩⟩
    · intro t ht
      rcases List.mem_append.mp ht with ht | ht
      · exact h.count_ne t ht
      · rw [List.mem_singleton.mp ht]
        exact hcount
    · intro t ht
      rcases List.mem_append.mp ht with ht | ht
      · rcases h.preset with hplain' | hpreset
        · exact hplain'.1 t ht
        · rw [hempty] at hpreset
          cases hpreset
      · rw [List.mem_singleton.mp ht]
        exact hplain
  split at hstep
  · split at hstep
    · cases hstep
    rename_i hfirst
    obtain ⟨targets, htargets, hstep⟩ := bind_eq_ok_iff.mp hstep
    cases hstep
    have hnone : parsed.options.targets = [] := not_not.mp fun hne => hfirst (Or.inl hne)
    refine ⟨h.threshold_ne, ?_, Or.inr ?_⟩
    · rw [hnone]
      exact count_ne_of_paperConfig htargets
    · rw [hnone]
      exact htargets
  split at hstep
  · obtain ⟨mode, -, hstep⟩ := bind_eq_ok_iff.mp hstep
    cases hstep
    exact ⟨h.threshold_ne, h.count_ne, h.preset⟩
  split at hstep
  · obtain ⟨n, -, hstep⟩ := bind_eq_ok_iff.mp hstep
    split at hstep
    · cases hstep
      exact ⟨h.threshold_ne, h.count_ne, h.preset⟩
    · cases hstep
  · cases hstep

/-- The tags of presets fit one word, and other targets have none. -/
theorem ParsedOptions.Sound.tags (h : parsed.Sound) : ∀ target ∈ parsed.options.targets,
    0 < target.metadataTagBits.val → target.metadataBytes.val ≤ 8 := by
  rcases h.preset with ⟨hplain, -⟩ | hpreset
  · intro target htarget hpos
    rw [hplain target htarget] at hpos
    exact absurd hpos (lt_irrefl 0)
  · exact tags_of_paperConfig hpreset

theorem trainOptionsFrom_sound {args : List Text} (h : parsed.Sound)
    (hrun : trainOptionsFrom parsed args = .ok parsed') : parsed'.Sound := by
  induction parsed, args using trainOptionsFrom.induct with
  | case1 parsed =>
    cases hrun
    exact h
  | case2 parsed option => cases hrun
  | case3 parsed option value args ih =>
    obtain ⟨next, hstep, hrest⟩ := bind_eq_ok_iff.mp hrun
    exact ih next (h.step hstep) hrest

theorem parseTrainOptions_sound {args : List Text} (h : parseTrainOptions args = .ok parsed) :
    parsed.Sound ∧ parsed.options.targets ≠ [] := by
  obtain ⟨found, hrun, hlast⟩ := bind_eq_ok_iff.mp h
  have hstart : ParsedOptions.Sound {} := ⟨by decide, by decide, Or.inl ⟨by decide, rfl⟩⟩
  have hfound := trainOptionsFrom_sound hstart hrun
  split at hlast
  · rename_i hnone
    cases hlast
    have hdefault : ∀ target ∈ [(⟨32, 256, 1, 0, 0⟩ : TargetSpec)],
        target.patternCount ≠ 0 ∧ target.metadataTagBits = 0 := by decide
    refine ⟨⟨hfound.threshold_ne, fun t ht => (hdefault t ht).1, ?_⟩, List.cons_ne_nil _ _⟩
    rcases hfound.preset with hplain | hpreset
    · exact Or.inl ⟨fun t ht => (hdefault t ht).2, hplain.2⟩
    · -- no preset is without targets
      rw [hnone] at hpreset
      unfold paperConfig at hpreset
      split at hpreset
      · cases hpreset
      · split at hpreset
        · cases hpreset
        · split at hpreset <;> cases hpreset
  · rename_i hsome
    cases hlast
    exact ⟨hfound, hsome⟩

/-! Groups of traces. -/

def isOption (arg : Text) : Bool := "--".toList.isPrefixOf arg

structure TraceGroup where
  name : Text
  paths : List Text

/-- The loop over the groups. Every turn takes an argument at least, so the arguments bound
the turns. -/
def traceGroupsFrom : ℕ → List TraceGroup → List Text → Except String (List TraceGroup × List Text)
  | 0, groups, args => return (groups, args)
  | turns + 1, groups, args =>
    match args with
    | [] => return (groups, [])
    | option :: args =>
      if option ≠ "--group".toList then return (groups, option :: args)
      else
        match args with
        | [] => throw "--group requires a name"
        | name :: args =>
          if isOption name then throw "--group requires a name"
          else
            let paths := args.takeWhile (!isOption ·)
            if paths = [] then throw "--group requires at least one input trace"
            else if groups.any (·.name = name) then
              throw ("group names must be unique: " ++ String.ofList name)
            else
              traceGroupsFrom turns (groups ++ [⟨name, paths⟩]) (args.dropWhile (!isOption ·))

def parseTraceGroups (args : List Text) : Except String (List TraceGroup × List Text) := do
  let (groups, args) ← traceGroupsFrom args.length [] args
  if groups = [] then throw "at least one --group NAME INPUT [INPUT ...] is required"
  else return (groups, args)

namespace TraceGroup

def words (group : TraceGroup) : List Text := "--group".toList :: group.name :: group.paths

/-- Names and paths do not look like options, and there is a path. -/
structure WellFormed (group : TraceGroup) : Prop where
  name : isOption group.name = false
  paths_ne : group.paths ≠ []
  paths : ∀ path ∈ group.paths, isOption path = false

end TraceGroup

variable {groups out : List TraceGroup} {args rest paths : List Text} {turns : ℕ}

theorem isOption_group : isOption "--group".toList = true := by decide

/-- The paths of a group end where an option stands. -/
theorem takeWhile_paths (hpaths : ∀ path ∈ paths, isOption path = false)
    (hrest : ∀ arg ∈ rest.head?, isOption arg = true) :
    (paths ++ rest).takeWhile (!isOption ·) = paths ∧
      (paths ++ rest).dropWhile (!isOption ·) = rest := by
  have hall : ∀ path ∈ paths, (!isOption path) = true := fun path hpath => by
    rw [hpaths path hpath]
    rfl
  have hstop : rest.takeWhile (!isOption ·) = [] ∧ rest.dropWhile (!isOption ·) = rest := by
    cases rest with
    | nil => exact ⟨rfl, rfl⟩
    | cons arg rest =>
      have harg := hrest arg rfl
      simp [harg]
  rw [List.takeWhile_append_of_pos hall, List.dropWhile_append_of_pos hall, hstop.1, hstop.2,
    List.append_nil]
  exact ⟨rfl, rfl⟩

/-- What follows the groups starts with another option, if there is anything. -/
def EndsGroups (rest : List Text) : Prop :=
  ∀ arg ∈ rest.head?, isOption arg = true ∧ arg ≠ "--group".toList

theorem head_words_append (more : List TraceGroup) (hrest : EndsGroups rest) :
    ∀ arg ∈ (more.flatMap TraceGroup.words ++ rest).head?, isOption arg = true := by
  cases more with
  | nil =>
    intro arg harg
    exact (hrest arg harg).1
  | cons group more =>
    intro arg harg
    cases harg
    exact isOption_group

/-- The words of well-formed groups are read back. -/
theorem traceGroupsFrom_words {more : List TraceGroup}
    (hmore : ∀ group ∈ more, group.WellFormed)
    (hnames : ((groups ++ more).map TraceGroup.name).Nodup) (hrest : EndsGroups rest)
    (hturns : (more.flatMap TraceGroup.words ++ rest).length ≤ turns) :
    traceGroupsFrom turns groups (more.flatMap TraceGroup.words ++ rest) =
      .ok (groups ++ more, rest) := by
  induction more generalizing groups turns with
  | nil =>
    rw [List.flatMap_nil, List.nil_append, List.append_nil]
    cases turns with
    | zero => rfl
    | succ turns =>
      cases rest with
      | nil => rfl
      | cons option rest => exact if_pos (hrest option rfl).2
  | cons group more ih =>
    rw [List.forall_mem_cons] at hmore
    obtain ⟨hgroup, hmore⟩ := hmore
    have hargs : (group :: more).flatMap TraceGroup.words ++ rest = "--group".toList ::
        group.name :: (group.paths ++ (more.flatMap TraceGroup.words ++ rest)) := by
      rw [List.flatMap_cons, TraceGroup.words, List.append_assoc]
      rfl
    obtain ⟨htake, hdrop⟩ := takeWhile_paths hgroup.paths (head_words_append more hrest)
    have hfresh : ¬ groups.any (fun existing => existing.name = group.name) = true := by
      rw [List.any_eq_true]
      rintro ⟨existing, hmem, heq⟩
      rw [List.map_append, List.nodup_append] at hnames
      exact hnames.2.2 _ (List.mem_map_of_mem hmem) _ (List.mem_map_of_mem List.mem_cons_self)
        (of_decide_eq_true heq)
    rw [hargs] at hturns ⊢
    cases turns with
    | zero => exact absurd hturns (Nat.not_succ_le_zero _)
    | succ turns =>
      have hlength : (more.flatMap TraceGroup.words ++ rest).length ≤ turns := by
        rw [List.length_cons, List.length_cons, List.length_append] at hturns
        omega
      unfold traceGroupsFrom
      dsimp only
      rw [if_neg (not_not.mpr rfl), hgroup.name, if_neg Bool.false_ne_true, htake, hdrop,
        if_neg hgroup.paths_ne, if_neg hfresh, ih hmore (by rwa [List.append_assoc]) hlength,
        List.append_assoc]
      rfl

/-- What the loop reads from the arguments: these groups, one after another, and then the rest. -/
structure ReadsGroups (groups : List TraceGroup) (args : List Text) (more out : List TraceGroup)
    (rest : List Text) : Prop where
  out_eq : out = groups ++ more
  args_eq : args = more.flatMap TraceGroup.words ++ rest
  formed : ∀ group ∈ more, group.WellFormed
  names : ((groups ++ more).map TraceGroup.name).Nodup
  head_ne : ∀ arg ∈ rest.head?, arg ≠ "--group".toList
  head_option : more ≠ [] → ∀ arg ∈ rest.head?, isOption arg = true

theorem ReadsGroups.stop (hnames : (groups.map TraceGroup.name).Nodup)
    (hhead : ∀ arg ∈ rest.head?, arg ≠ "--group".toList) :
    ReadsGroups groups rest [] groups rest where
  out_eq := (List.append_nil groups).symm
  args_eq := rfl
  formed := fun _ hmem => absurd hmem List.not_mem_nil
  names := (List.append_nil groups).symm ▸ hnames
  head_ne := hhead
  head_option := fun hne => absurd rfl hne

theorem isOption_head_dropWhile :
    ∀ arg ∈ (args.dropWhile (!isOption ·)).head?, isOption arg = true := by
  intro arg harg
  have hnot := List.head?_dropWhile_not (!isOption ·) args
  rw [Option.mem_def] at harg
  rw [harg] at hnot
  simpa using hnot

/-- A turn reads a group in front of what the next turns read. -/
theorem ReadsGroups.group {name : Text} {more : List TraceGroup} (hname : isOption name = false)
    (hpaths : args.takeWhile (!isOption ·) ≠ [])
    (h : ReadsGroups (groups ++ [⟨name, args.takeWhile (!isOption ·)⟩])
      (args.dropWhile (!isOption ·)) more out rest) :
    ReadsGroups groups ("--group".toList :: name :: args)
      (⟨name, args.takeWhile (!isOption ·)⟩ :: more) out rest := by
  obtain ⟨hout, hargs, hmore, hnodup, hhead, hoptions⟩ := h
  have hgroup : TraceGroup.WellFormed ⟨name, args.takeWhile (!isOption ·)⟩ := by
    refine ⟨hname, hpaths, ?_⟩
    intro path hpath
    have hplain := @List.mem_takeWhile_imp _ (!isOption ·) args path hpath
    simpa using hplain
  rw [List.append_assoc] at hout hnodup
  refine ⟨hout, ?_, List.forall_mem_cons.mpr ⟨hgroup, hmore⟩, hnodup, hhead, fun _ => ?_⟩
  · have hsplit := (List.takeWhile_append_dropWhile (p := (!isOption ·)) (l := args)).symm
    rw [hargs] at hsplit
    rw [List.flatMap_cons, TraceGroup.words, List.append_assoc, List.cons_append,
      List.cons_append, ← hsplit]
  · cases more with
    | nil =>
      have hrest : args.dropWhile (!isOption ·) = rest := hargs
      exact hrest ▸ isOption_head_dropWhile
    | cons group more => exact hoptions (List.cons_ne_nil group more)

/-- A name that no group has yet keeps the names different. -/
theorem nodup_names_append {group : TraceGroup} (hnames : (groups.map TraceGroup.name).Nodup)
    (hfresh : ¬ groups.any (fun existing => existing.name = group.name) = true) :
    ((groups ++ [group]).map TraceGroup.name).Nodup := by
  rw [List.map_append, List.nodup_append]
  refine ⟨hnames, List.nodup_singleton _, ?_⟩
  intro a ha b hb hab
  obtain ⟨existing, hmem, rfl⟩ := List.mem_map.mp ha
  rw [List.map_singleton, List.mem_singleton] at hb
  exact hfresh (List.any_eq_true.mpr ⟨existing, hmem, decide_eq_true (hab.trans hb)⟩)

/-- Whatever is read is the words of well-formed groups. -/
theorem words_of_traceGroupsFrom (hturns : args.length ≤ turns)
    (hnames : (groups.map TraceGroup.name).Nodup)
    (h : traceGroupsFrom turns groups args = .ok (out, rest)) :
    ∃ more, ReadsGroups groups args more out rest := by
  induction turns generalizing groups args with
  | zero =>
    cases h
    obtain rfl := List.eq_nil_of_length_eq_zero (Nat.le_zero.mp hturns)
    exact ⟨[], .stop hnames fun arg harg => by cases harg⟩
  | succ turns ih =>
    unfold traceGroupsFrom at h
    split at h
    · cases h
      exact ⟨[], .stop hnames fun arg harg => by cases harg⟩
    rename_i option args
    split at h
    · rename_i hoption
      cases h
      exact ⟨[], .stop hnames fun arg harg => by cases harg; exact hoption⟩
    rename_i hoption
    split at h
    · cases h
    rename_i name args
    split at h
    · cases h
    rename_i hname
    dsimp only at h
    split at h
    · cases h
    rename_i hpaths
    split at h
    · cases h
    rename_i hfresh
    have hlength : (args.dropWhile (!isOption ·)).length ≤ turns := by
      have hle := (List.dropWhile_suffix (l := args) (!isOption ·)).length_le
      rw [List.length_cons, List.length_cons] at hturns
      omega
    obtain ⟨more, hmore⟩ := ih hlength (nodup_names_append hnames hfresh) h
    rw [not_not.mp hoption]
    exact ⟨_, hmore.group (Bool.eq_false_iff.mpr hname) hpaths⟩

/-- The arguments that are accepted are the words of well-formed groups of different names, and
the groups are read back from them. -/
theorem parseTraceGroups_iff {args : List Text} {groups : List TraceGroup} {rest : List Text} :
    parseTraceGroups args = .ok (groups, rest) ↔
      groups ≠ [] ∧ args = groups.flatMap TraceGroup.words ++ rest ∧
      (∀ group ∈ groups, group.WellFormed) ∧ (groups.map TraceGroup.name).Nodup ∧
      EndsGroups rest := by
  have hloop : parseTraceGroups args = .ok (groups, rest) ↔
      groups ≠ [] ∧ traceGroupsFrom args.length [] args = .ok (groups, rest) := by
    rw [parseTraceGroups]
    cases h : traceGroupsFrom args.length [] args with
    | error e =>
      refine iff_of_false (fun herror => by cases herror) fun hboth => by cases hboth.2
    | ok found =>
      obtain ⟨found, left⟩ := found
      change (if found = [] then _ else _) = _ ↔ _
      split
      · rename_i hnil
        refine iff_of_false (fun herror => by cases herror) fun hboth => ?_
        cases hboth.2
        exact hboth.1 hnil
      · rename_i hne
        constructor
        · intro heq
          cases heq
          exact ⟨hne, rfl⟩
        · rintro ⟨-, heq⟩
          cases heq
          rfl
  rw [hloop]
  refine and_congr_right fun hne => ?_
  constructor
  · intro h
    obtain ⟨more, hout, hargs, hmore, hnodup, hhead, hoptions⟩ :=
      @words_of_traceGroupsFrom [] groups args rest args.length le_rfl List.nodup_nil h
    rw [List.nil_append] at hout hnodup
    subst hout
    exact ⟨hargs, hmore, hnodup, fun arg harg => ⟨hoptions hne arg harg, hhead arg harg⟩⟩
  · rintro ⟨rfl, hmore, hnodup, hrest⟩
    exact traceGroupsFrom_words hmore hnodup hrest le_rfl

end ByteSelect
