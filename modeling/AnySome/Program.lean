import AnySome.Pipeline
import AnySome.Report.Render

/-!
# The program

What the program does with a command line, step by step: find and read the
configuration, decide the options, run, report. Each step is a function of
what the steps before it found in the file system; `Program.runIn` puts them
together for a tree of files.
-/

namespace AnySome.Program

/-! ## Configuration -/

/-- Why a configuration file gives no settings. -/
inductive ConfigError where
  | unreadable (path : String) (cause : AccessError)
  | malformed (path : String)
deriving DecidableEq, Repr

namespace ConfigError

/-- What went wrong, without the reason. -/
def headline : ConfigError → String
  | .unreadable path _ => "failed to read config: " ++ path
  | .malformed path => "failed to parse config: " ++ path

/-- What went wrong, with the reason. -/
def message : ConfigError → String
  | .unreadable path cause => headline (.unreadable path cause) ++ ": " ++ cause.message
  | .malformed path => headline (.malformed path) ++ ": " ++ Config.malformed

end ConfigError

/-- The configuration file to use: the one that was named, else the one in
the project, if there is one. -/
def configPath (args : Arguments) (isFile : String → Bool) : Option String :=
  match args.config with
  | some path => some path
  | none =>
    let candidate := Path.join args.projectPath Config.fileName
    if isFile candidate then some candidate else none

/-- The settings of the configuration file at `path`. -/
def loadConfig (path : String) (source : Except AccessError String) : Except ConfigError Config :=
  match source with
  | .error cause => .error (.unreadable path cause)
  | .ok text =>
    match Config.parse? text with
    | some config => .ok config
    | none => .error (.malformed path)

/-! ## Failure -/

/-- Why a run gives no report. -/
inductive Failure where
  | config (error : ConfigError)
  | options (error : OptionsError)
  | discovery (error : DiscoveryError)
deriving DecidableEq, Repr

/-- The failure in words. -/
def Failure.message : Failure → String
  | .config error => error.message
  | .options error => error.message
  | .discovery error => error.message

/-- The line for the error stream. -/
def Failure.line (f : Failure) : String := "error: " ++ f.message

/-- The exit code after a failure. -/
def failureCode : Nat := 1

/-- The exit code when the command line gives no arguments: asking for help or
the version is no mistake. -/
def usageCode : UsageError → Nat
  | .helpRequested => 0
  | .versionRequested => 0
  | _ => 2

/-! ## Options and run -/

/-- The options that a command line and the configuration file, if one is
used, make. -/
def configure (args : Arguments) (config : Option (String × Except AccessError String)) :
    Except Failure Options := do
  let settings ← match config with
    | none => pure Config.empty
    | some (path, source) => (loadConfig path source).mapError .config
  (Options.resolve args settings).mapError .options

/-- A run over what stands at the project path. -/
def runProject (options : Options) (cancellation : Pipeline.Cancellation)
    (found : Option FileTree) : Except DiscoveryError Pipeline.Run := do
  return Pipeline.run options cancellation
    (← Discovery.discover options.root options.excludedFolders found)

/-- The report of a run that took the given time. -/
def timed (report : Report) (nanoseconds : Nat) : Report := { report with nanoseconds }

/-! ## In a tree of files -/

/-- Writes new texts into a tree, seen from the folder `here`. -/
def writeAll (tree : FileTree) (here : List String) (writes : List (String × String)) : FileTree :=
  writes.foldl (fun t (path, text) => t.writeText here path text) tree

/-- The options for a command line in a tree of files. -/
def configureIn (tree : FileTree) (here : List String) (args : Arguments) :
    Except Failure Options :=
  let path := configPath args (tree.isFileAt here)
  configure args (path.map fun p => (p, tree.readText here p))

/-- A run in a tree of files. -/
def runProjectIn (tree : FileTree) (here : List String) (options : Options)
    (cancellation : Pipeline.Cancellation) : Except DiscoveryError (Pipeline.Run × FileTree) := do
  let run ← runProject options cancellation (tree.access here options.root).toOption
  return (run, writeAll tree here run.writes)

/-- What the program does with its arguments in a tree of files. -/
def runIn (tree : FileTree) (here : List String) (args : Arguments) :
    Except Failure (Report × FileTree) := do
  let options ← configureIn tree here args
  let (run, after) ← (runProjectIn tree here options none).mapError .discovery
  return (run.report, after)

end AnySome.Program
