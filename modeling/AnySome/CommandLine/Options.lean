import AnySome.CommandLine.Arguments
import AnySome.Config.Basic

/-!
# Options of a run

The arguments and the settings of a configuration file together decide how a
run is done. What the command line says wins; folders to leave out are taken
from both.
-/

namespace AnySome

/-- How a run is done. -/
structure Options where
  root : String
  excludedFolders : List String
  policy : Policy
  resolution : Resolution
  heuristic : Heuristic
  /-- Tell what would change, and change nothing. -/
  dryRun : Bool
  /-- Number of worker threads, if it was chosen. -/
  jobs : Option Nat
deriving DecidableEq, Repr

/-- Why the settings make no options. -/
inductive OptionsError where
  | invalidPolicy (cause : UnknownMode)
  | invalidResolution (cause : UnknownResolution)
  | blankFolder (name : String)
deriving DecidableEq, Repr

namespace Options

/-- The usual options for a project. -/
def ofRoot (root : String) (excludedFolders : List String) (policy : Policy) : Options :=
  ⟨root, excludedFolders, policy, .registry, Heuristic.default, false, none⟩

/-- A blank character as it is shown in a message: a space as it is, others
by an escape. -/
def showBlank (c : Char) : String :=
  match c with
  | ' ' => " "
  | '\t' => "\\t"
  | '\n' => "\\n"
  | '\r' => "\\r"
  | _ => "\\u\x7b" ++ String.ofList (Nat.toDigits 16 c.toNat) ++ "\x7d"

/-- A text of blanks in quotes. -/
def showBlanks (text : String) : String :=
  "\"" ++ String.join (text.toList.map showBlank) ++ "\""

end Options

/-- The refusal in words. -/
def OptionsError.message : OptionsError → String
  | .invalidPolicy cause => "invalid config policy: " ++ cause.message
  | .invalidResolution cause => "invalid config resolution: " ++ cause.message
  | .blankFolder name =>
    "ignored folder names must not be empty (got " ++ Options.showBlanks name ++ ")"

namespace Options

/-- The mode: from the arguments, else from the configuration. -/
def modeOf (args : Arguments) (config : Config) : Except OptionsError Mode :=
  match args.policy, config.policy with
  | some mode, _ => .ok mode
  | none, some text => (Mode.parse text).mapError .invalidPolicy
  | none, none => .ok .strict

/-- The resolution: from the arguments, else from the configuration. -/
def resolutionOf (args : Arguments) (config : Config) : Except OptionsError Resolution :=
  match args.resolution, config.resolution with
  | some resolution, _ => .ok resolution
  | none, some text => (Resolution.parse text).mapError .invalidResolution
  | none, none => .ok .registry

/-- The folders to leave out: those of the configuration, and those of the
arguments that are not among them. -/
def foldersOf (args : Arguments) (config : Config) : List String :=
  args.ignoreFolders.foldl
    (fun folders folder => if folders.contains folder then folders else folders ++ [folder])
    config.ignoreFolders

/-- The name consists of blanks. -/
def isBlankName (name : String) : Bool := name.toList.all Text.isBlank

/-- The options that the arguments and a configuration make. -/
def resolve (args : Arguments) (config : Config) : Except OptionsError Options := do
  let mode ← modeOf args config
  let resolution ← resolutionOf args config
  let folders := foldersOf args config
  match folders.find? isBlankName with
  | some name => .error (.blankFolder name)
  | none =>
    let heuristic := match config.heuristic with
      | some overrides => overrides.applyTo Heuristic.default
      | none => Heuristic.default
    return ⟨args.projectPath, folders,
      ⟨mode, args.conservative || config.conservative.getD false⟩, resolution, heuristic,
      args.dryRun, args.jobs⟩

end Options

end AnySome
