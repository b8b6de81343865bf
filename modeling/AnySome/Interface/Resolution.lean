import AnySome.Source.Blank
import AnySome.Interface.Registry
import AnySome.Interface.Heuristic

/-!
# Which names are interfaces

The migration asks one question about a name: is it the name of an interface?
The registry answers with authority, the heuristic guesses, and both can be
combined, so that either may say yes.
-/

namespace AnySome

/-- How interface names are recognised. -/
inductive Resolution where
  | registry
  | heuristic
  | combined
deriving DecidableEq, Repr, Inhabited

/-- A text that is no choice of resolution, in lower case. -/
structure UnknownResolution where
  text : String
deriving DecidableEq, Repr

/-- The refusal in words. -/
def UnknownResolution.message (u : UnknownResolution) : String :=
  "unknown resolution strategy '" ++ u.text ++ "' (expected registry, heuristic or combined)"

namespace Resolution

/-- How the choice is written. -/
def label : Resolution → String
  | .registry => "registry"
  | .heuristic => "heuristic"
  | .combined => "combined"

/-- Reads a choice, in upper or lower case. -/
def parse (text : String) : Except UnknownResolution Resolution :=
  match Text.asciiLower text with
  | "registry" => .ok .registry
  | "heuristic" => .ok .heuristic
  | "combined" => .ok .combined
  | other => .error ⟨other⟩

/-- The name is the name of an interface. -/
def accepts (resolution : Resolution) (registry : Registry) (heuristic : Heuristic)
    (name : String) : Bool :=
  match resolution with
  | .registry => registry.contains name
  | .heuristic => heuristic.accepts name
  | .combined => registry.contains name || heuristic.accepts name

end Resolution

end AnySome
