import AnySome.Project.FileTree

/-!
# Finding the source files of a project

The source files below a folder, in the order of a depth-first walk with the
entries of each folder by name. Hidden entries and excluded folders are left
out with everything below them. The folder at which the walk starts is never
left out, whatever its name.
-/

namespace AnySome

/-- A file with the path under which it was found. -/
structure FoundFile where
  path : String
  contents : Contents
deriving DecidableEq, Repr

/-- Why a project has no list of source files. -/
inductive DiscoveryError where
  | missing (root : String)
  | notFolder (root : String)
deriving DecidableEq, Repr

/-- The refusal in words. -/
def DiscoveryError.message : DiscoveryError → String
  | .missing root => "project path does not exist: " ++ root
  | .notFolder root => "project path is not a directory: " ++ root

namespace Discovery

/-- The entry is left out with everything below it. -/
def isPruned (excluded : List String) (name : String) (entry : FileTree) : Bool :=
  Path.isHidden name || (entry.isFolder && excluded.contains name)

mutual
/-- The source files that an entry is or holds, which is found at `path`. -/
def walk (excluded : List String) (path name : String) : FileTree → List FoundFile
  | .file contents => if Path.isSourceName name then [⟨path, contents⟩] else []
  | .folder entries => walkEntries excluded path entries

/-- The source files below the entries of the folder found at `path`. -/
def walkEntries (excluded : List String) (path : String) :
    List (String × FileTree) → List FoundFile
  | [] => []
  | (name, entry) :: entries =>
    (if isPruned excluded name entry then [] else walk excluded (Path.join path name) name entry)
      ++ walkEntries excluded path entries
end

/-- The source files of the project at `root`, where `found` stands. -/
def discover (root : String) (excluded : List String) (found : Option FileTree) :
    Except DiscoveryError (List FoundFile) :=
  match found with
  | none => .error (.missing root)
  | some (.file _) => .error (.notFolder root)
  | some (.folder entries) => .ok (walkEntries excluded root entries)

end Discovery

end AnySome
