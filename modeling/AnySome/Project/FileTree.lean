import AnySome.Project.Path

/-!
# Trees of files

A finite tree of folders and files, held as a value. The entries of a folder
are in the order of their names, which the operations keep.

What a path names in a tree is found by following its pieces: every piece but
the last must name a folder, `.` and nothing stay, `..` goes up.
-/

namespace AnySome

/-! ## Contents -/

/-- Why a file cannot be read. -/
inductive AccessError where
  | notFound
  | notFolder
  | isFolder
  | notText
  /-- Any other refusal, in the words of the file system. -/
  | refused (reason : String)
deriving DecidableEq, Repr

/-- The refusal in words. -/
def AccessError.message : AccessError → String
  | .notFound => "No such file or directory (os error 2)"
  | .notFolder => "Not a directory (os error 20)"
  | .isFolder => "Is a directory (os error 21)"
  | .notText => "stream did not contain valid UTF-8"
  | .refused reason => reason

/-- What a file holds. -/
inductive Contents where
  /-- A text. -/
  | text (text : String)
  /-- Bytes that are no text. -/
  | bytes (bytes : List UInt8)
  /-- Something that cannot be read, for the reason given. -/
  | sealed (error : AccessError)
deriving DecidableEq, Repr

namespace Contents

/-- The contents of a file with the given bytes. -/
def ofBytes (bytes : List UInt8) : Contents :=
  match String.fromUTF8? ⟨bytes.toArray⟩ with
  | some decoded => .text decoded
  | none => .bytes bytes

/-- The text of a file's contents. -/
def asText : Contents → Except AccessError String
  | .text decoded => .ok decoded
  | .bytes _ => .error .notText
  | .sealed error => .error error

end Contents

/-! ## Trees -/

/-- A file, or a folder with named entries. -/
inductive FileTree where
  | file (contents : Contents)
  | folder (entries : List (String × FileTree))

namespace FileTree

/-- A folder without entries. -/
def empty : FileTree := .folder []

instance : Inhabited FileTree := ⟨empty⟩

/-- The tree is a folder. -/
def isFolder : FileTree → Bool
  | .folder _ => true
  | .file _ => false

/-- The entries of a folder; a file has none. -/
def entries : FileTree → List (String × FileTree)
  | .folder es => es
  | .file _ => []

/-! ## Names -/

/-- The tree below the given names. -/
def find? : FileTree → List String → Option FileTree
  | t, [] => some t
  | t, n :: ns =>
    match t.entries.lookup n with
    | some below => find? below ns
    | none => none

/-- Changes the entry `name`, which may be missing, among ordered entries. -/
def alter (name : String) (change : Option FileTree → FileTree) :
    List (String × FileTree) → List (String × FileTree)
  | [] => [(name, change none)]
  | (n, t) :: es =>
    if name < n then (name, change none) :: (n, t) :: es
    else if name = n then (n, change (some t)) :: es
    else (n, t) :: alter name change es

/-- Puts a tree below the given names; missing folders are made, and a file
in the way gives way. -/
def put (new : FileTree) : List String → FileTree → FileTree
  | [], _ => new
  | n :: ns, t => .folder (alter n (fun below => put new ns (below.getD empty)) t.entries)

/-- Takes away what is below the given names. -/
def remove : List String → FileTree → FileTree
  | [], _ => empty
  | [n], t => .folder (t.entries.filter (·.1 != n))
  | n :: m :: ns, t =>
    match t.entries.lookup n with
    | some below => .folder (alter n (fun _ => remove (m :: ns) below) t.entries)
    | none => t

mutual
/-- All files with the names that lead to them. -/
def files (above : List String) : FileTree → List (List String × Contents)
  | .file contents => [(above, contents)]
  | .folder es => filesOf above es

/-- All files below the entries of a folder. -/
def filesOf (above : List String) : List (String × FileTree) → List (List String × Contents)
  | [] => []
  | (n, t) :: es => files (above ++ [n]) t ++ filesOf above es
end

/-! ## Paths -/

/-- Follows the pieces of a path from a place, given by its names. -/
def follow (t : FileTree) : (place : List String) → List String → Except AccessError (List String)
  | place, [] => .ok place
  | place, piece :: pieces =>
    match t.find? place with
    | none => .error .notFound
    | some (.file _) => .error .notFolder
    | some (.folder es) =>
      if piece = "" ∨ piece = "." then follow t place pieces
      else if piece = ".." then follow t place.dropLast pieces
      else if (es.lookup piece).isSome then follow t (place ++ [piece]) pieces
      else .error .notFound

/-- The names that lead to what `path` names, seen from the folder `here`. -/
def locate (t : FileTree) (here : List String) (path : String) :
    Except AccessError (List String) :=
  if path.isEmpty then .error .notFound
  else t.follow (if Path.isAbsolute path then [] else here) (Path.pieces path)

/-- What `path` names, seen from the folder `here`. -/
def access (t : FileTree) (here : List String) (path : String) : Except AccessError FileTree := do
  match t.find? (← t.locate here path) with
  | some found => return found
  | none => .error .notFound

/-- `path` names a file. -/
def isFileAt (t : FileTree) (here : List String) (path : String) : Bool :=
  match t.access here path with
  | .ok (.file _) => true
  | _ => false

/-- The text of the file that `path` names. -/
def readText (t : FileTree) (here : List String) (path : String) : Except AccessError String := do
  match ← t.access here path with
  | .file contents => contents.asText
  | .folder _ => .error .isFolder

/-- Replaces the text of the file that `path` names. -/
def writeText (t : FileTree) (here : List String) (path text : String) : FileTree :=
  match t.locate here path with
  | .ok place => put (.file (.text text)) place t
  | .error _ => t

end FileTree

end AnySome
