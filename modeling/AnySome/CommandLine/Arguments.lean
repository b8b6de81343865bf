import AnySome.Interface.Resolution
import AnySome.Migration.Policy

/-!
# Command line arguments

Arguments are read from left to right. A word that starts with a hyphen names
switches and settings, short ones in a cluster; the value of a setting is
attached to it or is the next word. Any other word is the project path, and so
is every word behind `--`.

The value of a setting that stands in a word of its own, like the project
path, is looked at only when the next switch, setting or path is accepted, or
at the end. So a word that names nothing is complained about before a bad
value in front of it.

A switch or setting may be given once; only folder names may be given again.
-/

namespace AnySome

/-- What was asked for on the command line. -/
structure Arguments where
  projectPath : String
  ignoreFolders : List String
  policy : Option Mode
  conservative : Bool
  resolution : Option Resolution
  config : Option String
  dryRun : Bool
  jobs : Option Nat
  verbose : Bool
deriving DecidableEq, Repr

/-- Why no arguments result. -/
inductive UsageError where
  /-- The project path is missing. -/
  | missingProject
  /-- A switch or setting that does not exist, or a second path. -/
  | unknownArgument
  /-- A setting without its value, or an empty path. -/
  | missingValue
  /-- A value that cannot be read. -/
  | malformedValue
  /-- A switch or setting that is given again. -/
  | repeated
  /-- A switch with a value. -/
  | unneededValue
  /-- The help text is asked for. -/
  | helpRequested
  /-- The version is asked for. -/
  | versionRequested
deriving DecidableEq, Repr

namespace Arguments

/-! ## Names -/

/-- What takes no value. -/
inductive Switch where
  | conservative
  | dryRun
  | verbose
  | help
  | version
deriving DecidableEq, Repr

/-- What takes a value. -/
inductive Setting where
  | ignoreFolders
  | policy
  | resolution
  | config
  | jobs
deriving DecidableEq, Repr

/-- Something that can be named on the command line. -/
inductive Named where
  | switch (s : Switch)
  | setting (s : Setting)
deriving DecidableEq, Repr

/-- What a long name stands for. -/
def ofLong? : String → Option Named
  | "conservative" => some (.switch .conservative)
  | "dry-run" => some (.switch .dryRun)
  | "verbose" => some (.switch .verbose)
  | "help" => some (.switch .help)
  | "version" => some (.switch .version)
  | "ignore-folders" => some (.setting .ignoreFolders)
  | "policy" => some (.setting .policy)
  | "resolution" => some (.setting .resolution)
  | "config" => some (.setting .config)
  | "jobs" => some (.setting .jobs)
  | _ => none

/-- What a short name stands for. -/
def ofShort? : Char → Option Named
  | 'v' => some (.switch .verbose)
  | 'h' => some (.switch .help)
  | 'V' => some (.switch .version)
  | 'i' => some (.setting .ignoreFolders)
  | 'p' => some (.setting .policy)
  | 'c' => some (.setting .config)
  | 'j' => some (.setting .jobs)
  | _ => none

/-! ## Values -/

/-- The parts of a text between commas. -/
def splitCommas : List Char → List (List Char)
  | [] => [[]]
  | c :: cs =>
    match splitCommas cs with
    | [] => [[]]
    | part :: parts => if c = ',' then [] :: part :: parts else (c :: part) :: parts

/-- The value of decimal digits; none for other characters. -/
def readDigits? (cs : List Char) : Option Nat :=
  cs.foldlM (fun n c => if c.isDigit then some (10 * n + (c.toNat - '0'.toNat)) else none) 0

/-- A number of worker threads: digits, possibly behind a plus sign, for a
number from one up to the largest word. -/
def readJobs? (text : String) : Option Nat := do
  let digits := match text.toList with
    | '+' :: rest => rest
    | rest => rest
  if digits.isEmpty then none
  else
    let n ← readDigits? digits
    if n = 0 ∨ UInt64.size ≤ n then none else some n

/-! ## Reading -/

/-- What a waiting value belongs to. -/
inductive Slot where
  | project
  | setting (s : Setting)
deriving DecidableEq, Repr

/-- What is known after some of the words. -/
structure State where
  project : Option String := none
  ignoreFolders : List String := []
  policy : Option Mode := none
  conservative : Bool := false
  resolution : Option Resolution := none
  config : Option String := none
  dryRun : Bool := false
  jobs : Option Nat := none
  verbose : Bool := false
  /-- A path, or a setting with or without its value, that is still to be
  looked at. -/
  waiting : Option (Slot × Option String) := none
deriving DecidableEq, Repr

/-- The value `new` for something that may be given once. -/
def once (old : Option α) (new : Except UsageError α) : Except UsageError (Option α) :=
  match old with
  | some _ => .error .repeated
  | none => new.map some

/-- A path, which must not be empty. -/
def readPath (text : String) : Except UsageError String :=
  if text.isEmpty then .error .missingValue else .ok text

/-- A value, or the complaint that it cannot be read. -/
def readable (value : Option α) : Except UsageError α :=
  match value with
  | some a => .ok a
  | none => .error .malformedValue

/-- Takes the value of a setting. -/
def assign (s : State) (setting : Setting) (value : String) : Except UsageError State :=
  match setting with
  | .ignoreFolders =>
    let folders := (splitCommas value.toList).map String.ofList
    .ok { s with ignoreFolders := s.ignoreFolders ++ folders }
  | .policy => do
    let policy ← once s.policy (readable (Mode.parse value).toOption)
    return { s with policy }
  | .resolution => do
    let resolution ← once s.resolution (readable (Resolution.parse value).toOption)
    return { s with resolution }
  | .config => do
    let config ← once s.config (readPath value)
    return { s with config }
  | .jobs => do
    let jobs ← once s.jobs (readable (readJobs? value))
    return { s with jobs }

/-- Looks at what is waiting. -/
def settle (s : State) : Except UsageError State :=
  match s.waiting with
  | none => .ok s
  | some (_, none) => .error .missingValue
  | some (.project, some path) => do
    let path ← readPath path
    return { s with project := some path, waiting := none }
  | some (.setting setting, some value) => assign { s with waiting := none } setting value

/-- Turns a switch on. -/
def turnOn (s : State) (switch : Switch) : Except UsageError State := do
  let s ← settle s
  match switch with
  | .conservative => if s.conservative then .error .repeated else .ok { s with conservative := true }
  | .dryRun => if s.dryRun then .error .repeated else .ok { s with dryRun := true }
  | .verbose => if s.verbose then .error .repeated else .ok { s with verbose := true }
  | .help => .error .helpRequested
  | .version => .error .versionRequested

/-- Names a setting, whose value may be attached. -/
def choose (s : State) (setting : Setting) (attached : Option String) :
    Except UsageError State := do
  let s ← settle s
  match attached with
  | some value => assign s setting value
  | none => return { s with waiting := some (.setting setting, none) }

/-- Reads a word behind its two hyphens. -/
def readLong (s : State) (word : List Char) : Except UsageError State :=
  let name := String.ofList (word.takeWhile (· ≠ '='))
  let attached := match word.dropWhile (· ≠ '=') with
    | [] => none
    | _ :: value => some (String.ofList value)
  match ofLong? name with
  | none => .error .unknownArgument
  | some (.setting setting) => choose s setting attached
  | some (.switch switch) =>
    if attached.isSome then .error .unneededValue else turnOn s switch

/-- The value attached to a short setting: the rest of the cluster, from which
an equals sign is taken. -/
def attachedValue : List Char → Option String
  | [] => none
  | '=' :: value => some (String.ofList value)
  | value => some (String.ofList value)

/-- Reads a cluster of short names. -/
def readShorts (s : State) : List Char → Except UsageError State
  | [] => .ok s
  | c :: cs =>
    match ofShort? c with
    | none => .error .unknownArgument
    | some (.setting setting) => choose s setting (attachedValue cs)
    | some (.switch switch) => do readShorts (← turnOn s switch) cs

/-- A path was given before. -/
def hasProject (s : State) : Bool :=
  s.project.isSome ||
    match s.waiting with
    | some (.project, _) => true
    | _ => false

/-- Reads a project path. -/
def readProject (s : State) (word : String) : Except UsageError State :=
  if hasProject s then .error .unknownArgument
  else do
    let s ← settle s
    return { s with waiting := some (.project, some word) }

/-- Reads a word that names nothing: the value of a setting that waits for
one, or a path. -/
def readPlain (s : State) (word : String) : Except UsageError State :=
  match s.waiting with
  | some (.setting setting, none) =>
    .ok { s with waiting := some (.setting setting, some word) }
  | _ => readProject s word

/-- Reads the words from left to right. -/
def readWords (s : State) : List String → Except UsageError State
  | [] => settle s
  | word :: words =>
    match word.toList with
    | ['-', '-'] => do settle (← words.foldlM readProject s)
    | '-' :: '-' :: long => do readWords (← readLong s long) words
    | '-' :: c :: shorts => do readWords (← readShorts s (c :: shorts)) words
    | _ => do readWords (← readPlain s word) words

/-- Reads the words of a command line, without the name of the program. -/
def parse (words : List String) : Except UsageError Arguments := do
  let s ← readWords {} words
  match s.project with
  | none => .error .missingProject
  | some projectPath =>
    return ⟨projectPath, s.ignoreFolders, s.policy, s.conservative, s.resolution, s.config,
      s.dryRun, s.jobs, s.verbose⟩

end Arguments

end AnySome
