import Mathlib.Data.List.Induction
import Mathlib.Logic.Function.Basic

/-! Sessions: commands that run one after another over the files of a host, each of which writes
the one file it names, or none; and steps that write several files. -/
namespace Sessions

variable {Path Contents ε ρ Command : Type}

/-- The contents of the files that exist, by their paths. Different paths are different files: a
path stands for the file, and links and other spellings of one path are left out. -/
abbrev Files (Path Contents : Type) := Path → Option Contents

/-- What a command reports and the files it leaves. -/
abbrev Outcome (Path Contents ε ρ : Type) := Except ε ρ × Files Path Contents

/-- The files after a session, whatever its commands report. -/
def runAll (run : Files Path Contents → Command → Outcome Path Contents ε ρ)
    (files : Files Path Contents) (commands : List Command) : Files Path Contents :=
  commands.foldl (fun files command => (run files command).2) files

variable {run : Files Path Contents → Command → Outcome Path Contents ε ρ}
  {writable : Path → Bool} {output : Command → Option Path} {files : Files Path Contents}
  {commands later : List Command} {command : Command} {path : Path}

theorem runAll_cons :
    runAll run files (command :: commands) = runAll run (run files command).2 commands :=
  rfl

theorem runAll_append :
    runAll run files (commands ++ later) = runAll run (runAll run files commands) later :=
  List.foldl_append

section Writes

variable [DecidableEq Path]

def write (files : Files Path Contents) (path : Path) (contents : Contents) :
    Files Path Contents :=
  Function.update files path (some contents)

@[simp] theorem write_self (files : Files Path Contents) (path : Path) (contents : Contents) :
    write files path contents path = some contents :=
  Function.update_self _ _ _

theorem write_of_ne {files : Files Path Contents} {path other : Path} (contents : Contents)
    (h : other ≠ path) : write files path contents other = files other :=
  Function.update_of_ne h _ _

/-- What a command may do that names a file for its output: fail and leave the files as they are,
or write that file. One that names none leaves the files as they are. -/
inductive Wrote (writable : Path → Bool) (files : Files Path Contents) (output : Option Path) :
    Outcome Path Contents ε ρ → Prop
  | failed (e : ε) : Wrote writable files output (.error e, files)
  | reported (report : ρ) (hnone : output = none) : Wrote writable files output (.ok report, files)
  | wrote {path : Path} (report : ρ) (contents : Contents) (hpath : output = some path)
      (hwritable : writable path = true) :
      Wrote writable files output (.ok report, write files path contents)

theorem run_kept (hrun : ∀ files command, Wrote writable files (output command) (run files command))
    (h : output command ≠ some path) : (run files command).2 path = files path := by
  have hwrote := hrun files command
  generalize run files command = outcome at hwrote ⊢
  cases hwrote with
  | failed e => rfl
  | reported report hnone => rfl
  | wrote report contents hpath hwritable =>
    refine write_of_ne contents ?_
    rintro rfl
    exact h hpath

/-- A session leaves a file alone that none of its commands writes. -/
theorem runAll_kept
    (hrun : ∀ files command, Wrote writable files (output command) (run files command))
    (h : ∀ command ∈ commands, output command ≠ some path) :
    runAll run files commands path = files path := by
  induction commands generalizing files with
  | nil => rfl
  | cons command commands ih =>
    rw [List.forall_mem_cons] at h
    exact (ih h.2).trans (run_kept hrun h.1)

theorem runAll_append_kept
    (hrun : ∀ files command, Wrote writable files (output command) (run files command))
    (h : ∀ command ∈ later, output command ≠ some path) :
    runAll run files (commands ++ later) path = runAll run files commands path := by
  rw [runAll_append]
  exact runAll_kept hrun h

/-- A file holds what a command has written there as long as no later one writes it. -/
theorem runAll_written {report : ρ} {contents : Contents}
    (hrun : ∀ files command, Wrote writable files (output command) (run files command))
    (hwrites : run (runAll run files commands) command =
      (.ok report, write (runAll run files commands) path contents))
    (h : ∀ command ∈ later, output command ≠ some path) :
    runAll run files (commands ++ command :: later) path = some contents := by
  rw [runAll_append, runAll_cons, hwrites]
  exact (runAll_kept hrun h).trans (write_self _ _ _)

/-- A command of a session that has written a path, after which no command that names the path has
succeeded. -/
structure LastWrite (run : Files Path Contents → Command → Outcome Path Contents ε ρ)
    (writable : Path → Bool) (output : Command → Option Path) (files : Files Path Contents)
    (commands : List Command) (path : Path) (contents : Contents) (before : List Command)
    (command : Command) (after : List Command) : Prop where
  split : commands = before ++ command :: after
  names : output command = some path
  writable : writable path = true
  writes : ∃ report, run (runAll run files before) command =
    (.ok report, write (runAll run files before) path contents)
  failed : ∀ mid other rest, after = mid ++ other :: rest → output other = some path →
    ∃ e, run (runAll run files (before ++ command :: mid)) other =
      (.error e, runAll run files (before ++ command :: mid))

/-- A file that a session has changed holds what the last command that succeeded in writing it has
written. -/
theorem exists_lastWrite
    (hrun : ∀ files command, Wrote writable files (output command) (run files command))
    (hchanged : runAll run files commands path ≠ files path) :
    ∃ contents before command after,
      runAll run files commands path = some contents ∧
      LastWrite run writable output files commands path contents before command after := by
  induction commands using List.reverseRecOn with
  | nil => exact absurd rfl hchanged
  | append_singleton commands last ih =>
    have hnext : runAll run files (commands ++ [last]) =
        (run (runAll run files commands) last).2 := runAll_append
    have hwrote := hrun (runAll run files commands) last
    -- a last command that leaves the file alone leaves the last write where it was
    have hkept : (run (runAll run files commands) last).2 path = runAll run files commands path →
        (output last = some path → ∃ e, run (runAll run files commands) last =
          (.error e, runAll run files commands)) →
        ∃ contents before command after,
          runAll run files (commands ++ [last]) path = some contents ∧
          LastWrite run writable output files (commands ++ [last]) path contents before command
            after := by
      intro hsame hfail
      rw [hnext, hsame] at hchanged ⊢
      obtain ⟨contents, before, command, after, hholds, rfl, hnames, hwritable, hwrites, hfailed⟩ :=
        ih hchanged
      refine ⟨contents, before, command, after ++ [last], hholds, by simp, hnames, hwritable,
        hwrites, ?_⟩
      intro mid other rest hsplit hother
      rcases List.eq_nil_or_concat rest with rfl | ⟨rest, final, rfl⟩
      · obtain ⟨rfl, hlast⟩ := List.append_inj' hsplit rfl
        obtain rfl := List.singleton_inj.mp hlast
        exact hfail hother
      · rw [List.concat_eq_append, ← List.cons_append, ← List.append_assoc] at hsplit
        exact hfailed mid other rest (List.append_inj' hsplit rfl).1 hother
    generalize houtcome : run (runAll run files commands) last = outcome at hwrote hkept hnext
    cases hwrote with
    | failed e => exact hkept rfl fun _ => ⟨e, rfl⟩
    | reported report hnone =>
      refine hkept rfl fun hsome => ?_
      rw [hnone] at hsome
      cases hsome
    | @wrote other report contents hpath hwritable =>
      by_cases hother : path = other
      · subst hother
        refine ⟨contents, commands, last, [], ?_, rfl, hpath, hwritable, ⟨report, houtcome⟩, ?_⟩
        · rw [hnext]
          exact write_self _ _ _
        · intro mid next rest hnil
          have hcons := List.cons_ne_nil next rest
          exact absurd hnil.symm (List.append_ne_nil_of_right_ne_nil mid hcons)
      · refine hkept (write_of_ne contents hother) fun hsome => ?_
        exact absurd (Option.some_inj.mp (hsome.symm.trans hpath)) hother

end Writes

/-! Several files, each at a path of its own. -/

section Batches

variable {κ : Type} {pathOf : κ → Path} {ready : κ → Prop} {contents : κ → Contents}
  {names more : List κ} {outcome : Outcome Path Contents ε Unit}
  {next : Files Path Contents → Outcome Path Contents ε Unit}

/-- A step that is taken only when the step before it has succeeded. -/
def andThen (outcome : Outcome Path Contents ε Unit)
    (next : Files Path Contents → Outcome Path Contents ε Unit) : Outcome Path Contents ε Unit :=
  match outcome with
  | (.error e, files) => (.error e, files)
  | (.ok (), files) => next files

/-- What a step does that writes the files of some names: it succeeds when all of them are ready,
the files hold their contents then, and it leaves every other file alone. -/
structure WroteAll (pathOf : κ → Path) (ready : κ → Prop) (contents : κ → Contents)
    (names : List κ) (files : Files Path Contents) (outcome : Outcome Path Contents ε Unit) :
    Prop where
  kept : ∀ path, (∀ x ∈ names, pathOf x ≠ path) → outcome.2 path = files path
  ok_iff : outcome.1 = .ok () ↔ ∀ x ∈ names, ready x
  holds : outcome.1 = .ok () → ∀ x ∈ names, outcome.2 (pathOf x) = some (contents x)

theorem wroteAll_nil (files : Files Path Contents) :
    WroteAll pathOf ready contents [] files ((.ok () : Except ε Unit), files) :=
  ⟨fun _ _ => rfl, ⟨fun _ => nofun, fun _ => rfl⟩, fun _ => nofun⟩

theorem wroteAll_failed {left : Files Path Contents} (e : ε)
    (hkept : ∀ path, (∀ x ∈ names, pathOf x ≠ path) → left path = files path)
    (hunready : ∃ x ∈ names, ¬ ready x) :
    WroteAll pathOf ready contents names files ((.error e : Except ε Unit), left) := by
  have hfails : (.error e : Except ε Unit) ≠ .ok () := fun hok => by cases hok
  refine ⟨hkept, iff_of_false hfails fun hall => ?_, fun hok => absurd hok hfails⟩
  obtain ⟨x, hx, hnot⟩ := hunready
  exact hnot (hall x hx)

/-- Steps that write different files do not undo one another. -/
theorem WroteAll.andThen (hfirst : WroteAll pathOf ready contents names files outcome)
    (hnext : WroteAll pathOf ready contents more outcome.2 (next outcome.2))
    (hapart : ∀ x ∈ names, ∀ y ∈ more, pathOf y ≠ pathOf x) :
    WroteAll pathOf ready contents (names ++ more) files (andThen outcome next) := by
  obtain ⟨status, between⟩ := outcome
  cases status with
  | error e =>
    refine ⟨fun path hpath => ?_, ?_, nofun⟩
    · exact hfirst.kept path fun x hx => hpath x (List.mem_append_left _ hx)
    · refine iff_of_false nofun fun hall => ?_
      cases hfirst.ok_iff.mpr fun x hx => hall x (List.mem_append_left _ hx)
  | ok done =>
    have hready := hfirst.ok_iff.mp rfl
    refine ⟨fun path hpath => ?_, ?_, fun hok x hx => ?_⟩
    · refine (hnext.kept path fun y hy => hpath y (List.mem_append_right _ hy)).trans ?_
      exact hfirst.kept path fun x hx => hpath x (List.mem_append_left _ hx)
    · refine hnext.ok_iff.trans ⟨fun hmore => ?_, fun hall y hy => ?_⟩
      · exact List.forall_mem_append.mpr ⟨hready, hmore⟩
      · exact hall y (List.mem_append_right _ hy)
    · rcases List.mem_append.mp hx with hx | hx
      · exact (hnext.kept _ (hapart x hx)).trans (hfirst.holds rfl x hx)
      · exact hnext.holds hok x hx

end Batches

end Sessions
