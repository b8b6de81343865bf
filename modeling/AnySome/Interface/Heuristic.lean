import AnySome.Source.Name

/-!
# Guessing interfaces from their names

For trees of files where no registry of the whole project is at hand, a name
can be taken for an interface by its spelling: it holds one of the marker
words, holds no excluded word, and is not an excluded name.
-/

namespace AnySome

/-- What makes a name look like the name of an interface. -/
structure Heuristic where
  markers : List String
  excludedSubstrings : List String
  excludedNames : List String
deriving DecidableEq, Repr

namespace Heuristic

/-- The usual markers. Entry points of an application conform to delegate
protocols and are not protocols themselves. -/
def default : Heuristic where
  markers := ["Protocol", "Viewable", "Interface", "Delegate", "Modelable"]
  excludedSubstrings := ["Mock"]
  excludedNames := ["AppDelegate", "SceneDelegate"]

instance : Inhabited Heuristic := ⟨default⟩

/-- The name looks like the name of an interface. -/
def accepts (h : Heuristic) (name : String) : Bool :=
  h.markers.any (Name.occursIn · name)
    && !h.excludedSubstrings.any (Name.occursIn · name)
    && !h.excludedNames.contains name

end Heuristic

end AnySome
