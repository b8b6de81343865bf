/-!
# Paths

A path is kept as it was written, because that is how it is shown. Two paths
are compared by their parts: repeated and closing slashes do not matter, nor
does `.` except at the very start.

## Main results

* `Path.splitSlashes_append` — a slash divides what stands before it from what
  stands behind it.
-/

namespace AnySome

/-- A part of a path. -/
inductive PathPart where
  /-- The slash at the start of an absolute path. -/
  | root
  /-- `.` at the start of a relative path. -/
  | here
  /-- `..` -/
  | up
  /-- A name. -/
  | name (text : String)
deriving DecidableEq, Repr

namespace PathPart

/-- The order of the kinds of parts. -/
def rank : PathPart → Nat
  | .root => 0
  | .here => 1
  | .up => 2
  | .name _ => 3

/-- The text by which parts of the same kind are ordered. -/
def text : PathPart → String
  | .name text => text
  | _ => ""

/-- The part comes strictly before another. -/
def before (a b : PathPart) : Bool :=
  a.rank < b.rank || (a.rank == b.rank && decide (a.text < b.text))

end PathPart

namespace Path

/-! ## Parts -/

/-- The texts between slashes. -/
def splitSlashes : List Char → List (List Char)
  | [] => [[]]
  | c :: cs =>
    match splitSlashes cs with
    | [] => [[]]
    | part :: parts => if c = '/' then [] :: part :: parts else (c :: part) :: parts

/-- There is always a piece. -/
theorem splitSlashes_ne_nil (cs : List Char) : splitSlashes cs ≠ [] := by
  cases cs with
  | nil => simp [splitSlashes]
  | cons c cs =>
    unfold splitSlashes
    split
    · simp
    · split <;> simp

/-- A slash divides what stands before it from what stands behind it. -/
theorem splitSlashes_append {front : List Char} (back : List Char) (h : '/' ∉ front) :
    splitSlashes (front ++ '/' :: back) = front :: splitSlashes back := by
  induction front with
  | nil =>
    simp only [List.nil_append, splitSlashes]
    split
    next hnil => exact absurd hnil (splitSlashes_ne_nil back)
    next heq => simp [heq]
  | cons c front ih =>
    simp only [List.mem_cons, not_or] at h
    simp only [List.cons_append, splitSlashes, ih h.2]
    rw [if_neg (fun heq => h.1 heq.symm)]

/-- The pieces of a path as they are written between slashes. -/
def pieces (path : String) : List String := (splitSlashes path.toList).map String.ofList

/-- The path starts at the root. -/
def isAbsolute (path : String) : Bool := path.toList.head? == some '/'

/-- The part that a piece behind the start of a path is, if it counts. -/
def partOf? (piece : String) : Option PathPart :=
  if piece = "" ∨ piece = "." then none
  else if piece = ".." then some .up
  else some (.name piece)

/-- The parts of a path. -/
def parts (path : String) : List PathPart :=
  let inner := (pieces path).filterMap partOf?
  if isAbsolute path then .root :: inner
  else if (pieces path).head? = some "." then .here :: inner
  else inner

/-- The first list of parts comes strictly before the second. -/
def partsBefore : List PathPart → List PathPart → Bool
  | _, [] => false
  | [], _ :: _ => true
  | a :: as, b :: bs => a.before b || (a == b && partsBefore as bs)

/-- The first path comes strictly before the second, part by part. -/
def before (p q : String) : Bool := partsBefore (parts p) (parts q)

/-- The paths have the same parts. -/
def same (p q : String) : Bool := parts p == parts q

/-! ## Building paths -/

/-- The path of `name` in the folder `folder`. -/
def join (folder name : String) : String :=
  if isAbsolute name || folder.isEmpty then name
  else if folder.toList.getLast? == some '/' then folder ++ name
  else folder ++ "/" ++ name

/-- The extension of source files. -/
def sourceExtension : String := "swift"

/-- The name is that of a source file: something, a dot, and the extension. -/
def isSourceName (name : String) : Bool :=
  let cs := name.toList.reverse
  let extension := (cs.takeWhile (· ≠ '.')).reverse
  match cs.dropWhile (· ≠ '.') with
  | '.' :: _ :: _ => extension == sourceExtension.toList
  | _ => false

/-- The name is hidden. -/
def isHidden (name : String) : Bool := name.toList.head? == some '.'

end Path

end AnySome
