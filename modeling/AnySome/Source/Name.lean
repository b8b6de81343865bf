/-!
# Names and words

Two questions about the spelling of names: what a name is without the
backticks that escape it, and whether one text occurs inside another.

## Main results

* `Name.occursIn_iff` — `occursIn` is the existence of a place.
* `Name.bare_of_no_backtick` — only escaped names lose anything.
-/

namespace AnySome.Name

/-- The character that escapes a name. -/
def isBacktick (c : Char) : Bool := c == '\x60'

/-- The characters of a name without the backticks at both ends. -/
def bareChars (cs : List Char) : List Char :=
  ((cs.dropWhile isBacktick).reverse.dropWhile isBacktick).reverse

/-- The name without the backticks at both ends. -/
def bare (name : String) : String := String.ofList (bareChars name.toList)

/-- A name without backticks is its own bare name. -/
theorem bare_of_no_backtick {name : String} (h : ∀ c ∈ name.toList, isBacktick c = false) :
    bare name = name := by
  have hkept : ∀ {cs : List Char}, (∀ c ∈ cs, isBacktick c = false) →
      cs.dropWhile isBacktick = cs := fun {cs} hcs =>
    List.dropWhile_beq_eq_self_of_head?_ne fun hhead =>
      absurd (hcs _ (List.mem_of_head? hhead)) (by decide)
  have hr : ∀ c ∈ name.toList.reverse, isBacktick c = false := fun c hc =>
    h c (List.mem_reverse.mp hc)
  simp [bare, bareChars, hkept h, hkept hr]

/-- The characters `cs` start with `needle`. -/
def startsWith : (needle cs : List Char) → Bool
  | [], _ => true
  | _ :: _, [] => false
  | n :: needle, c :: cs => n == c && startsWith needle cs

/-- The characters `needle` occur somewhere in `cs`. -/
def occursInChars (needle : List Char) : List Char → Bool
  | [] => needle.isEmpty
  | c :: cs => startsWith needle (c :: cs) || occursInChars needle cs

/-- The text `needle` occurs somewhere in `text`. -/
def occursIn (needle text : String) : Bool := occursInChars needle.toList text.toList

/-- Starting with a text is being that text with something behind. -/
theorem startsWith_iff (needle cs : List Char) :
    startsWith needle cs = true ↔ ∃ back, cs = needle ++ back := by
  induction needle generalizing cs with
  | nil => simp [startsWith]
  | cons n needle ih =>
    cases cs with
    | nil => simp [startsWith]
    | cons c cs =>
      simp only [startsWith, Bool.and_eq_true, beq_iff_eq, ih, List.cons_append,
        List.cons.injEq]
      constructor
      · rintro ⟨rfl, back, rfl⟩
        exact ⟨back, rfl, rfl⟩
      · rintro ⟨back, rfl, rfl⟩
        exact ⟨rfl, back, rfl⟩

private theorem occursInChars_iff (needle cs : List Char) :
    occursInChars needle cs = true ↔ ∃ front back, cs = front ++ needle ++ back := by
  induction cs with
  | nil =>
    simp only [occursInChars, List.isEmpty_iff]
    constructor
    · rintro rfl
      exact ⟨[], [], rfl⟩
    · rintro ⟨front, back, h⟩
      have := congrArg List.length h
      simp at this
      exact List.length_eq_zero_iff.mp (by omega)
  | cons c cs ih =>
    simp only [occursInChars, Bool.or_eq_true, ih, startsWith_iff]
    constructor
    · rintro (⟨back, h⟩ | ⟨front, back, h⟩)
      · exact ⟨[], back, by simpa using h⟩
      · exact ⟨c :: front, back, by simp [h]⟩
    · rintro ⟨front, back, h⟩
      cases front with
      | nil => exact Or.inl ⟨back, by simpa using h⟩
      | cons d front =>
        simp only [List.cons_append, List.cons.injEq] at h
        exact Or.inr ⟨front, back, h.2⟩

/-- A text occurs in another exactly when the other is it with something in
front and something behind. -/
theorem occursIn_iff (needle text : String) :
    occursIn needle text = true ↔
      ∃ front back, text.toList = front ++ needle.toList ++ back :=
  occursInChars_iff _ _

end AnySome.Name
