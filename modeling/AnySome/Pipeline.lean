import AnySome.CommandLine.Options
import AnySome.Migration.File
import AnySome.Project.Discovery
import AnySome.Report.Basic

/-!
# A run over a project

A run has two phases. First every source file is read and the names of its
protocols are registered. Only then, against the complete registry, every
file that could be read is migrated and written back if its text changed. A
run that is cancelled before the first phase is over migrates nothing, because
a part of a registry would take interfaces for something else.

Cancellation is looked at before each file's turn. It is given as the number
of migrated files after which the run is cancelled.
-/

namespace AnySome.Pipeline

/-! ## One file's turn -/

/-- Reads a file, unless the run is cancelled. -/
def collect (cancelled : Bool) (f : FoundFile) : Except FileError SourceFile :=
  if cancelled then .error .cancelled
  else
    match f.contents.asText with
    | .error e => .error (.access e.message)
    | .ok text => (SourceFile.parse f.path text).mapError .parse

/-- Migrates a file, unless the run is cancelled. The text is to be written
back if there is one. -/
def migrate (m : Migration) (cancelled : Bool) (f : SourceFile) : FileStatus × Option String :=
  if cancelled then (.failed .cancelled, none)
  else
    let migrated := m.file f
    let text := migrated.render
    if text = f.text then (.unchanged, none) else (.changed migrated.changedCount, some text)

/-! ## Cancellation -/

/-- When a run is cancelled: after the given number of files of the second
phase, or never. -/
abbrev Cancellation := Option Nat

/-- The run is cancelled once `turns` files of the second phase had their
turn. -/
def isCancelled (cancellation : Cancellation) (turns : Nat) : Bool :=
  match cancellation with
  | none => false
  | some limit => limit ≤ turns

/-! ## The phases -/

/-- What a run leaves behind. -/
structure Run where
  report : Report
  /-- The files of the second phase in the order of their turns. -/
  finished : List Outcome
  /-- New texts of files, by path. -/
  writes : List (String × String)

/-- The second phase, when `turns` files had their turn. -/
def migrateAll (m : Migration) (cancellation : Cancellation) (turns : Nat) :
    List (String × SourceFile) → List (Outcome × Option String)
  | [] => []
  | (path, f) :: fs =>
    let (status, text) := migrate m (isCancelled cancellation turns) f
    (⟨path, status⟩, text) :: migrateAll m cancellation (turns + 1) fs

/-- The files that could be read. -/
def readable (collected : List (String × Except FileError SourceFile)) :
    List (String × SourceFile) :=
  collected.filterMap fun (path, result) => match result with
    | .ok f => some (path, f)
    | .error _ => none

/-- The outcomes of the files that could not be read. -/
def unreadable (collected : List (String × Except FileError SourceFile)) : List Outcome :=
  collected.filterMap fun (path, result) => match result with
    | .ok _ => none
    | .error e => some ⟨path, .failed e⟩

/-- The names of all protocols that the files declare. -/
def registryOf (files : List (String × SourceFile)) : Registry :=
  Registry.ofList (files.flatMap fun (_, f) => f.interfaceNames)

/-- The migration that the options ask for, against a registry. -/
def migrationOf (options : Options) (registry : Registry) : Migration :=
  ⟨options.resolution.accepts registry options.heuristic, options.policy⟩

/-- The second phase against a registry, or, if the run is cancelled, the
same files left untouched. -/
def secondPhase (options : Options) (cancellation : Cancellation) (registry : Registry)
    (files : List (String × SourceFile)) : List Outcome × List (Outcome × Option String) :=
  if isCancelled cancellation 0 then
    (files.map fun (path, _) => ⟨path, .failed .cancelled⟩, [])
  else
    let turns := migrateAll (migrationOf options registry) cancellation 0 files
    (turns.map Prod.fst, turns)

/-- The new texts that are written back. -/
def writesOf (dryRun : Bool) (turns : List (Outcome × Option String)) : List (String × String) :=
  if dryRun then []
  else turns.filterMap fun (o, text) => text.map fun t => (o.path, t)

/-- The run when the new text of the file at `path` could not be written. -/
def Run.refuse (r : Run) (path reason : String) : Run :=
  let amend (o : Outcome) : Outcome :=
    if o.path = path then ⟨path, .failed (.access reason)⟩ else o
  { r with
    report := { r.report with outcomes := r.report.outcomes.map amend }
    finished := r.finished.map amend
    writes := r.writes.filter (·.1 != path) }

/-- A run over the source files of a project. -/
def run (options : Options) (cancellation : Cancellation) (found : List FoundFile) : Run :=
  let collected := found.map fun f => (f.path, collect (isCancelled cancellation 0) f)
  let files := readable collected
  let registry := registryOf files
  let (outcomes, turns) := secondPhase options cancellation registry files
  { report := {
      discovered := found.length
      interfaces := registry.size
      outcomes := Report.sortByPath (unreadable collected ++ outcomes)
      cancelled := isCancelled cancellation turns.length
      dryRun := options.dryRun
      nanoseconds := 0 }
    finished := turns.map Prod.fst
    writes := writesOf options.dryRun turns }

end AnySome.Pipeline
