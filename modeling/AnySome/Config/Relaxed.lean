import AnySome.Source.Blank

/-!
# Relaxed JSON

A configuration file is JSON in which comments may stand between tokens and a
comma may stand behind the last element of a list or object. Both are removed
before the text is read as JSON. Inside strings nothing is a comment and no
comma is spare, so both passes follow where strings begin and end.

Line feeds of comments are kept, which keeps the numbers of lines.
-/

namespace AnySome.Relaxed

/-! ## Inside and outside of strings -/

/-- Where a character stands with respect to strings. -/
inductive Quoting where
  /-- Outside of strings. -/
  | outside
  /-- Inside a string. -/
  | inside
  /-- Inside a string, right behind a backslash. -/
  | escaped
deriving DecidableEq, Repr

/-- Where the next character stands. -/
def Quoting.after (q : Quoting) (c : Char) : Quoting :=
  match q with
  | .outside => if c = '"' then .inside else .outside
  | .inside => if c = '\\' then .escaped else if c = '"' then .outside else .inside
  | .escaped => .inside

/-! ## Comments -/

/-- What a character belongs to. -/
inductive Region where
  | code (quoting : Quoting)
  | lineComment
  | blockComment
deriving DecidableEq, Repr

/-- The text without its comments, from a place that belongs to `region`. -/
def stripFrom : Region → List Char → List Char
  | _, [] => []
  | .lineComment, c :: cs =>
    if c = '\n' then c :: stripFrom (.code .outside) cs else stripFrom .lineComment cs
  | .blockComment, '*' :: '/' :: cs => stripFrom (.code .outside) cs
  | .blockComment, c :: cs =>
    if c = '\n' then c :: stripFrom .blockComment cs else stripFrom .blockComment cs
  | .code .outside, '/' :: '/' :: cs => stripFrom .lineComment cs
  | .code .outside, '/' :: '*' :: cs => stripFrom .blockComment cs
  | .code q, c :: cs => c :: stripFrom (.code (q.after c)) cs

/-- The text without its comments. -/
def stripComments (cs : List Char) : List Char := stripFrom (.code .outside) cs

@[simp] theorem stripComments_nil : stripComments [] = [] := rfl

@[simp] theorem stripComments_line (cs : List Char) :
    stripComments ('/' :: '/' :: cs) = stripFrom .lineComment cs := rfl

@[simp] theorem stripComments_block (cs : List Char) :
    stripComments ('/' :: '*' :: cs) = stripFrom .blockComment cs := rfl

@[simp] theorem stripFrom_line_nil : stripFrom .lineComment [] = [] := rfl

theorem stripFrom_line_cons (c : Char) (cs : List Char) :
    stripFrom .lineComment (c :: cs) =
      if c = '\n' then c :: stripComments cs else stripFrom .lineComment cs := rfl

@[simp] theorem stripFrom_blockEnd (cs : List Char) :
    stripFrom .blockComment ('*' :: '/' :: cs) = stripComments cs := rfl

/-! ## Spare commas -/

/-- Behind any blanks stands the end of a list or object. -/
def closesNext (cs : List Char) : Bool :=
  match cs.dropWhile Text.isBlank with
  | '}' :: _ => true
  | ']' :: _ => true
  | _ => false

/-- The text without its spare commas, from a place in or outside a string. -/
def dropCommasFrom (q : Quoting) : List Char → List Char
  | [] => []
  | c :: cs =>
    if q = .outside ∧ c = ',' ∧ closesNext cs then dropCommasFrom q cs
    else c :: dropCommasFrom (q.after c) cs

/-- The text without its spare commas. -/
def dropCommas (cs : List Char) : List Char := dropCommasFrom .outside cs

/-- The text as plain JSON. -/
def normalize (cs : List Char) : List Char := dropCommas (stripComments cs)

end AnySome.Relaxed
