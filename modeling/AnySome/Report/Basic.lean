import AnySome.Project.Path
import AnySome.Source.Diagnostic

/-!
# The report of a run

What became of every file of a project: its ascriptions were changed, nothing
changed, or it was left untouched for a reason.
-/

namespace AnySome

/-- Why a file was left untouched. -/
inductive FileError where
  /-- The file could not be read or written. -/
  | access (message : String)
  /-- The text was rejected. -/
  | parse (error : ParseError)
  /-- The run was cancelled before the file's turn. -/
  | cancelled
deriving DecidableEq, Repr

namespace FileError

/-- The reason in words. -/
def display : FileError → String
  | .access message => "I/O error: " ++ message
  | .parse error => "parse error: " ++ error.display
  | .cancelled => "cancelled before processing"

/-- Another error lies behind this one. -/
def hasCause : FileError → Bool
  | .access _ => true
  | .parse _ => true
  | .cancelled => false

end FileError

/-- What became of a file. -/
inductive FileStatus where
  /-- The given number of ascriptions changed. -/
  | changed (ascriptions : Nat)
  | unchanged
  | failed (error : FileError)
deriving DecidableEq, Repr

/-- What became of the file at a path. -/
structure Outcome where
  path : String
  status : FileStatus
deriving DecidableEq, Repr

/-- What became of a project. -/
structure Report where
  /-- Number of source files found. -/
  discovered : Nat
  /-- Number of interface names registered. -/
  interfaces : Nat
  /-- One entry for every file found, by path. -/
  outcomes : List Outcome
  cancelled : Bool
  dryRun : Bool
  /-- How long the run took. -/
  nanoseconds : Nat
deriving DecidableEq, Repr

namespace Report

/-- Number of changed files. -/
def changedCount (r : Report) : Nat :=
  r.outcomes.countP fun o => match o.status with
    | .changed _ => true
    | _ => false

/-- Number of unchanged files. -/
def unchangedCount (r : Report) : Nat :=
  r.outcomes.countP fun o => o.status == .unchanged

/-- The files left untouched, with the reasons. -/
def failures (r : Report) : List (String × FileError) :=
  r.outcomes.filterMap fun o => match o.status with
    | .failed error => some (o.path, error)
    | _ => none

/-- Number of files left untouched. -/
def failedCount (r : Report) : Nat := r.failures.length

/-- Number of changed ascriptions. -/
def ascriptionCount (r : Report) : Nat :=
  r.outcomes.foldl (fun n o => match o.status with
    | .changed ascriptions => n + ascriptions
    | _ => n) 0

/-- What became of the file at `path`: the first entry counts. -/
def statusOf? (r : Report) (path : String) : Option FileStatus :=
  (r.outcomes.find? fun o => Path.same o.path path).map Outcome.status

/-! ## Order -/

/-- The outcomes by path; those with the same path keep their order. -/
def sortByPath (os : List Outcome) : List Outcome :=
  os.mergeSort fun p q => !Path.before q.path p.path

end Report

end AnySome
