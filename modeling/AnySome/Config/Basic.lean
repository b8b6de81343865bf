import AnySome.Config.Json
import AnySome.Config.Relaxed
import AnySome.Interface.Heuristic

/-!
# The configuration file

The settings that a configuration file can make. The file holds an object
with named settings, or a list of them in the order in which they are
declared here. Unknown settings are ignored; a known setting must not be made
twice, and its value must be of the right shape.
-/

namespace AnySome

/-- Changes to the usual heuristic. A missing list keeps the usual one. -/
structure HeuristicOverrides where
  markers : Option (List String)
  excludedSubstrings : Option (List String)
  excludedNames : Option (List String)
deriving DecidableEq, Repr

/-- The changed heuristic. -/
def HeuristicOverrides.applyTo (o : HeuristicOverrides) (h : Heuristic) : Heuristic where
  markers := o.markers.getD h.markers
  excludedSubstrings := o.excludedSubstrings.getD h.excludedSubstrings
  excludedNames := o.excludedNames.getD h.excludedNames

/-- The settings of a configuration file, as they were written. -/
structure Config where
  ignoreFolders : List String
  policy : Option String
  conservative : Option Bool
  resolution : Option String
  heuristic : Option HeuristicOverrides
deriving DecidableEq, Repr

namespace Config

/-- The file name that is looked for in a project. -/
def fileName : String := "sam.json"

/-- No settings. -/
def empty : Config := ⟨[], none, none, none, none⟩

/-! ## Shapes of values -/

/-- A text. -/
def asText? : JsonValue → Option String
  | .string s => s.decode?
  | _ => none

/-- A truth value. -/
def asBool? : JsonValue → Option Bool
  | .bool b => some b
  | _ => none

/-- A list of texts. -/
def asTexts? : JsonValue → Option (List String)
  | .array items => items.mapM asText?
  | _ => none

/-- A value that may be left out by writing `null`. -/
def asOptional? (read : JsonValue → Option α) : JsonValue → Option (Option α)
  | .null => some none
  | value => (read value).map some

/-! ## Settings -/

/-- The settings that a value makes, by name. A list makes them in the order
of `names` and may be shorter, but not longer. -/
def settings? (names : List String) : JsonValue → Option (List (String × JsonValue))
  | .object members => members.mapM fun (key, value) => (key.decode?).map fun k => (k, value)
  | .array items => if items.length ≤ names.length then some (names.zip items) else none
  | _ => none

/-- The setting `name`, read by `read`; `default` if it is not made. A
setting that is made twice has no answer. -/
def setting? (settings : List (String × JsonValue)) (name : String) (read : JsonValue → Option α)
    (default : α) : Option α :=
  match settings.filter (·.1 == name) with
  | [] => some default
  | [(_, value)] => read value
  | _ => none

/-- Changes to the heuristic. -/
def asOverrides? (value : JsonValue) : Option HeuristicOverrides := do
  let settings ← settings? ["markers", "excludedSubstrings", "excludedNames"] value
  return ⟨← setting? settings "markers" (asOptional? asTexts?) none,
    ← setting? settings "excludedSubstrings" (asOptional? asTexts?) none,
    ← setting? settings "excludedNames" (asOptional? asTexts?) none⟩

/-- All settings. -/
def ofJson? (value : JsonValue) : Option Config := do
  let settings ←
    settings? ["ignoreFolders", "policy", "conservative", "resolution", "heuristic"] value
  return ⟨← setting? settings "ignoreFolders" asTexts? [],
    ← setting? settings "policy" (asOptional? asText?) none,
    ← setting? settings "conservative" (asOptional? asBool?) none,
    ← setting? settings "resolution" (asOptional? asText?) none,
    ← setting? settings "heuristic" (asOptional? asOverrides?) none⟩

/-- Reads the text of a configuration file. -/
def parse? (source : String) : Option Config := do
  ofJson? (← JsonValue.parse? (Relaxed.normalize source.toList))

/-- What is said of a configuration that cannot be read. -/
def malformed : String := "failed to parse config JSON"

end Config

end AnySome
