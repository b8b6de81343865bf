import AnySome.Config.Json
import AnySome.Source.Blank
import Mathlib.Data.List.Chain

/-!
# The tokens of JSON

A JSON text is a row of tokens with white space around them: brackets, commas,
colons, strings, and words, which are numbers and the three names. Strings and
numbers are what the reader of JSON values takes for them. A token keeps its
characters as they were written.

Only a word can run into what follows it, and in JSON no word stands in front
of another word or of a string. So the tokens of a text are found again by
reading one after the other.

## Main definitions

* `JsonToken` — the tokens, with `JsonToken.IsWellFormed`.
* `JsonToken.Spells` — a text is a row of tokens with gaps around them.
* `JsonToken.scan?` — the tokens of a text.

## Main results

* `JsonToken.scan?_of_spells` — the tokens of a text are those that it spells.
-/

namespace AnySome

/-! ## Tokens -/

/-- What brackets of JSON enclose. -/
inductive JsonBracket where
  | array
  | object
deriving DecidableEq, Repr

namespace JsonBracket

def opener : JsonBracket → Char
  | array => '['
  | object => '{'

def closer : JsonBracket → Char
  | array => ']'
  | object => '}'

end JsonBracket

/-- A token of JSON. -/
inductive JsonToken where
  | opening (bracket : JsonBracket)
  | closing (bracket : JsonBracket)
  | colon
  | comma
  /-- A string, with what was written between its quotes. -/
  | string (body : List Char)
  /-- A number or a name, as written. -/
  | word (text : List Char)
deriving DecidableEq, Repr

namespace JsonToken

/-- The characters of the token. -/
def chars : JsonToken → List Char
  | opening b => [b.opener]
  | closing b => [b.closer]
  | colon => [':']
  | comma => [',']
  | string body => '"' :: (body ++ ['"'])
  | word text => text

/-- The names of JSON. -/
def names : List (List Char) := ["null".toList, "true".toList, "false".toList]

/-- A string is one up to its last quote, and a word is a name or a number. -/
def IsWellFormed : JsonToken → Prop
  | string body => ∃ pieces, JsonValue.readString? (body ++ ['"']) = some (pieces, [])
  | word text => text ∈ names ∨ JsonValue.skipNumber? text = some []
  | _ => True

/-- The token is a number or a name. -/
def isWord : JsonToken → Bool
  | word _ => true
  | _ => false

/-- The token is a closing bracket. -/
def isClosing : JsonToken → Bool
  | closing _ => true
  | _ => false

/-- A token that can stand behind a word. -/
def endsWord : JsonToken → Bool
  | closing _ | comma => true
  | _ => false

/-- Behind every word stands a token that ends it. -/
def Apart (ts : List JsonToken) : Prop :=
  ts.IsChain fun t u => t.isWord = true → u.endsWord = true

/-! ## Reading tokens -/

/-- What stands in `cs` in front of its end `rest`. -/
def front (cs rest : List Char) : List Char := cs.take (cs.length - rest.length)

theorem front_append (as rest : List Char) : front (as ++ rest) rest = as := by
  simp [front]

/-- The token at the front of a text, and the text behind it. -/
def next? : List Char → Option (JsonToken × List Char)
  | '[' :: cs => some (.opening .array, cs)
  | '{' :: cs => some (.opening .object, cs)
  | ']' :: cs => some (.closing .array, cs)
  | '}' :: cs => some (.closing .object, cs)
  | ':' :: cs => some (.colon, cs)
  | ',' :: cs => some (.comma, cs)
  | '"' :: cs =>
    (JsonValue.readString? cs).map fun (_, rest) => (.string (front cs ('"' :: rest)), rest)
  | 'n' :: 'u' :: 'l' :: 'l' :: cs => some (.word "null".toList, cs)
  | 't' :: 'r' :: 'u' :: 'e' :: cs => some (.word "true".toList, cs)
  | 'f' :: 'a' :: 'l' :: 's' :: 'e' :: cs => some (.word "false".toList, cs)
  | cs => (JsonValue.skipNumber? cs).map fun rest => (.word (front cs rest), rest)

/-- The tokens of a text, if it consists of tokens and white space. -/
def scan? (cs : List Char) : Option (List JsonToken) :=
  match JsonValue.skipSpace cs with
  | [] => some []
  | c :: rest =>
    match next? (c :: rest) with
    | none => none
    | some (t, behind) =>
      if behind.length < cs.length then (scan? behind).map (t :: ·) else none
termination_by cs.length

end JsonToken

/-! ## Strings -/

namespace JsonValue

/-- What stands between the quotes of a string: a quote stands there only
behind a backslash. -/
inductive Quoted : List Char → Prop
  | nil : Quoted []
  | plain {c : Char} {cs : List Char} (hquote : c ≠ '"') (hescape : c ≠ '\\') :
      Quoted cs → Quoted (c :: cs)
  | escaped (c : Char) {cs : List Char} : Quoted cs → Quoted ('\\' :: c :: cs)

/-- A digit is neither a quote nor a backslash. -/
theorem Quoted.hexDigit {c : Char} {cs : List Char} {n : Nat} (hc : hexDigit? c = some n)
    (h : Quoted cs) : Quoted (c :: cs) := by
  refine .plain ?_ ?_ h <;> rintro rfl <;> contradiction

/-- What is read as a string goes up to a quote, and does not depend on what
stands behind it. -/
theorem exists_quoted {cs rest : List Char} {pieces : JsonString}
    (h : readString? cs = some (pieces, rest)) :
    ∃ body, Quoted body ∧ cs = body ++ '"' :: rest ∧
      ∀ more, readString? (body ++ '"' :: more) = some (pieces, more) := by
  fun_induction readString? cs generalizing pieces rest with
  | case1 => contradiction
  | case2 cs =>
    cases h
    exact ⟨[], .nil, rfl, fun more => by simp [readString?]⟩
  | case3 a b c d cs ih =>
    obtain ⟨code, hcode, ⟨pieces', rest'⟩, hread, hpieces⟩ := by
      simpa only [Option.bind_eq_bind, Option.bind_eq_some_iff] using h
    cases hpieces
    obtain ⟨body, hbody, rfl, hmore⟩ := ih hread
    have hdigits := hcode
    simp only [codeUnit?, Option.bind_eq_bind, Option.bind_eq_some_iff] at hdigits
    obtain ⟨_, ha, _, hb, _, hc, _, hd, -⟩ := hdigits
    refine ⟨'\\' :: 'u' :: a :: b :: c :: d :: body,
      .escaped _ (.hexDigit ha (.hexDigit hb (.hexDigit hc (.hexDigit hd hbody)))), rfl, ?_⟩
    intro more
    simp [readString?, hcode, hmore]
  | case4 e cs hnot ih =>
    obtain ⟨c, hshort, ⟨pieces', rest'⟩, hread, hpieces⟩ := by
      simpa only [Option.bind_eq_bind, Option.bind_eq_some_iff] using h
    cases hpieces
    obtain ⟨body, hbody, rfl, hmore⟩ := ih hread
    refine ⟨'\\' :: e :: body, .escaped _ hbody, rfl, fun more => ?_⟩
    have he : e ≠ 'u' := by
      rintro rfl
      contradiction
    rw [List.cons_append, List.cons_append, readString?]
    · simp [hshort, hmore]
    · intro a b c d ds hu
      exact absurd hu he
  | case5 => contradiction
  | case6 => contradiction
  | case7 c cs hquote hunit hshort hlone hcontrol ih =>
    obtain ⟨⟨pieces', rest'⟩, hread, hpieces⟩ := by
      simpa only [Option.bind_eq_bind, Option.bind_eq_some_iff] using h
    cases hpieces
    obtain ⟨body, hbody, rfl, hmore⟩ := ih hread
    have hescape : c ≠ '\\' := by
      rintro rfl
      cases body with
      | nil => exact hshort _ _ rfl rfl
      | cons b body => exact hshort _ _ rfl rfl
    refine ⟨c :: body, .plain (by rintro rfl; exact hquote rfl) hescape hbody, rfl, fun more => ?_⟩
    rw [List.cons_append, readString?]
    · simp [hcontrol, hmore]
    · rintro rfl
      exact hquote rfl
    · intro a b c d ds hc
      exact absurd hc hescape
    · intro e ds hc
      exact absurd hc hescape
    · intro hc
      exact absurd hc hescape

end JsonValue

/-- The body of a string, and how it is read again. -/
theorem JsonToken.quoted_of_isWellFormed {body : List Char}
    (h : (JsonToken.string body).IsWellFormed) : JsonValue.Quoted body ∧
      ∃ pieces, ∀ more, JsonValue.readString? (body ++ '"' :: more) = some (pieces, more) := by
  obtain ⟨pieces, hread⟩ := h
  obtain ⟨body', hquoted, hbody, hmore⟩ := JsonValue.exists_quoted hread
  obtain rfl : body = body' := List.append_cancel_right hbody
  exact ⟨hquoted, pieces, hmore⟩

/-! ## Numbers -/

namespace JsonValue

/-- A character of which numbers consist. -/
def isNumeric (c : Char) : Bool :=
  c.isDigit || c == '-' || c == '+' || c == '.' || c == 'e' || c == 'E'

theorem isNumeric_of_isDigit {c : Char} (h : c.isDigit = true) : isNumeric c = true := by
  simp [isNumeric, h]

/-- The text does not go on with a number. -/
def StopsNumber (cs : List Char) : Prop := ∀ c ∈ cs.head?, isNumeric c = false

theorem StopsNumber.isDigit {c : Char} {cs : List Char} (h : StopsNumber (c :: cs)) :
    c.isDigit = false := by
  cases hc : c.isDigit with
  | false => rfl
  | true =>
    have := isNumeric_of_isDigit hc
    rw [h c rfl] at this
    contradiction

/-- What `f` passes over are characters of numbers, and it passes over the
same in front of what does not go on with a number. -/
def PassesNumeric (f : List Char → Option (List Char)) : Prop :=
  ∀ ⦃cs rest : List Char⦄, f cs = some rest → ∃ used, cs = used ++ rest ∧
    (∀ c ∈ used, isNumeric c = true) ∧
    ∀ ⦃more : List Char⦄, StopsNumber more → f (cs ++ more) = some (rest ++ more)

/-- Parts of a number that follow each other. -/
theorem PassesNumeric.comp {f g : List Char → Option (List Char)} (hf : PassesNumeric f)
    (hg : PassesNumeric g) : PassesNumeric fun cs => (f cs).bind g := by
  intro cs rest h
  obtain ⟨mid, hmid, hrest⟩ := Option.bind_eq_some_iff.mp h
  obtain ⟨used, rfl, hused, happend⟩ := hf hmid
  obtain ⟨used', rfl, hused', happend'⟩ := hg hrest
  refine ⟨used ++ used', by rw [List.append_assoc], fun c hc => ?_, fun more hmore => ?_⟩
  · rcases List.mem_append.mp hc with hc | hc
    · exact hused c hc
    · exact hused' c hc
  · exact Option.bind_eq_some_iff.mpr ⟨_, happend hmore, happend' hmore⟩

/-- A part of a number behind a character of its own. -/
theorem PassesNumeric.cons {f g : List Char → Option (List Char)} (hg : PassesNumeric g)
    {c : Char} (hc : isNumeric c = true) (hf : ∀ cs, f (c :: cs) = g cs) {cs rest : List Char}
    (h : f (c :: cs) = some rest) : ∃ used, c :: cs = used ++ rest ∧
      (∀ d ∈ used, isNumeric d = true) ∧
      ∀ ⦃more : List Char⦄, StopsNumber more → f (c :: cs ++ more) = some (rest ++ more) := by
  rw [hf] at h
  obtain ⟨used, rfl, hused, happend⟩ := hg h
  refine ⟨c :: used, rfl, ?_, fun more hmore => (hf _).trans (happend hmore)⟩
  intro d hd
  rcases List.mem_cons.mp hd with rfl | hd
  · exact hc
  · exact hused d hd

theorem passesNumeric_skipDigits? : PassesNumeric skipDigits? := by
  intro cs rest h
  cases cs with
  | nil => contradiction
  | cons c tail =>
    unfold skipDigits? at h
    simp only [Option.ite_none_right_eq_some, Option.some.injEq] at h
    obtain ⟨hc, rfl⟩ := h
    refine ⟨c :: tail.takeWhile Char.isDigit, by simp, fun d hd => ?_, fun more hmore => ?_⟩
    · apply isNumeric_of_isDigit
      rcases List.mem_cons.mp hd with rfl | hd
      · exact hc
      · exact List.all_eq_true.mp List.all_takeWhile d hd
    · have hstop : more.dropWhile Char.isDigit = more := by
        cases more with
        | nil => rfl
        | cons d more => simp [hmore.isDigit]
      rw [List.cons_append, skipDigits?, if_pos hc, List.dropWhile_append, hstop]
      split
      next hempty => rw [List.isEmpty_iff.mp hempty, List.nil_append]
      · rfl

/-- Where digits are read, a digit stands. -/
theorem exists_digit_of_skipDigits? {cs rest : List Char} (h : skipDigits? cs = some rest) :
    ∃ c tail, cs = c :: tail ∧ c.isDigit = true := by
  cases cs with
  | nil => contradiction
  | cons c tail =>
    unfold skipDigits? at h
    simp only [Option.ite_none_right_eq_some] at h
    exact ⟨c, tail, rfl, h.1⟩

/-- A number has no fraction in front of another character than the point. -/
theorem skipFraction?_of_head {cs : List Char} (h : cs.head? ≠ some '.') :
    skipFraction? cs = some cs := by
  unfold skipFraction?
  split
  · exact absurd rfl h
  · rfl

theorem passesNumeric_skipFraction? : PassesNumeric skipFraction? := by
  intro cs rest h
  by_cases hdot : cs.head? = some '.'
  · obtain ⟨tail, rfl⟩ := List.head?_eq_some_iff.mp hdot
    exact passesNumeric_skipDigits?.cons (by decide) (fun _ => rfl) h
  · rw [skipFraction?_of_head hdot] at h
    cases h
    refine ⟨[], rfl, by simp, fun more hmore => skipFraction?_of_head ?_⟩
    cases cs with
    | nil => exact fun hhead => absurd (hmore '.' hhead) (by decide)
    | cons c cs => exact hdot

/-- The text behind the digits of an exponent and their sign. -/
def skipSigned? : List Char → Option (List Char)
  | '+' :: ds => skipDigits? ds
  | '-' :: ds => skipDigits? ds
  | ds => skipDigits? ds

theorem skipSigned?_of_isDigit {c : Char} {cs : List Char} (hc : c.isDigit = true) :
    skipSigned? (c :: cs) = skipDigits? (c :: cs) := by
  unfold skipSigned?
  split
  next heq => cases heq; contradiction
  next heq => cases heq; contradiction
  · rfl

theorem passesNumeric_skipSigned? : PassesNumeric skipSigned? := by
  intro cs rest h
  unfold skipSigned? at h
  split at h
  · exact passesNumeric_skipDigits?.cons (by decide) (fun _ => rfl) h
  · exact passesNumeric_skipDigits?.cons (by decide) (fun _ => rfl) h
  · obtain ⟨c, tail, rfl, hc⟩ := exists_digit_of_skipDigits? h
    obtain ⟨used, hused, hall, happend⟩ := passesNumeric_skipDigits? h
    refine ⟨used, hused, hall, fun more hmore => ?_⟩
    rw [List.cons_append, skipSigned?_of_isDigit hc]
    exact happend hmore

theorem skipExponent?_of_head {cs : List Char} (he : cs.head? ≠ some 'e')
    (hE : cs.head? ≠ some 'E') : skipExponent? cs = some cs := by
  unfold skipExponent?
  split
  next c cs =>
    apply if_neg
    rintro (rfl | rfl)
    · exact he rfl
    · exact hE rfl
  · rfl

theorem passesNumeric_skipExponent? : PassesNumeric skipExponent? := by
  intro cs rest h
  by_cases he : cs.head? = some 'e'
  · obtain ⟨tail, rfl⟩ := List.head?_eq_some_iff.mp he
    exact passesNumeric_skipSigned?.cons (by decide) (fun _ => rfl) h
  by_cases hE : cs.head? = some 'E'
  · obtain ⟨tail, rfl⟩ := List.head?_eq_some_iff.mp hE
    exact passesNumeric_skipSigned?.cons (by decide) (fun _ => rfl) h
  rw [skipExponent?_of_head he hE] at h
  cases h
  refine ⟨[], rfl, by simp, fun more hmore => ?_⟩
  cases cs with
  | nil =>
    apply skipExponent?_of_head
    · exact fun hhead => absurd (hmore 'e' hhead) (by decide)
    · exact fun hhead => absurd (hmore 'E' hhead) (by decide)
  | cons c cs => exact skipExponent?_of_head he hE

/-- A whole part that does not start with zero. -/
theorem skipWhole?_of_head {cs : List Char} (h : cs.head? ≠ some '0') :
    skipWhole? cs = skipDigits? cs := by
  unfold skipWhole?
  split
  · exact absurd rfl h
  · exact absurd rfl h
  · rfl

/-- A whole part that starts with zero is zero. -/
theorem skipWhole?_zero {cs rest : List Char} :
    skipWhole? ('0' :: cs) = some rest ↔ rest = cs ∧ ∀ c ∈ cs.head?, c.isDigit = false := by
  cases cs with
  | nil => exact ⟨fun h => by cases h; exact ⟨rfl, by simp⟩, fun h => by rw [h.1]; rfl⟩
  | cons c cs =>
    show (if c.isDigit then none else some (c :: cs)) = some rest ↔ _
    cases hc : c.isDigit with
    | true => simp [hc]
    | false => simpa [hc] using eq_comm

theorem passesNumeric_skipWhole? : PassesNumeric skipWhole? := by
  intro cs rest h
  by_cases hzero : cs.head? = some '0'
  · obtain ⟨tail, rfl⟩ := List.head?_eq_some_iff.mp hzero
    obtain ⟨rfl, hhead⟩ := skipWhole?_zero.mp h
    refine ⟨['0'], rfl, fun c hc => ?_, fun more hmore => skipWhole?_zero.mpr ⟨rfl, ?_⟩⟩
    · rw [List.mem_singleton.mp hc]
      rfl
    cases rest with
    | nil =>
      cases more with
      | nil => simp
      | cons d more => simp [hmore.isDigit]
    | cons c rest => exact hhead
  · rw [skipWhole?_of_head hzero] at h
    obtain ⟨c, tail, rfl, hc⟩ := exists_digit_of_skipDigits? h
    obtain ⟨used, hused, hall, happend⟩ := passesNumeric_skipDigits? h
    refine ⟨used, hused, hall, fun more hmore => ?_⟩
    have hhead : (c :: (tail ++ more)).head? ≠ some '0' := hzero
    rw [List.cons_append, skipWhole?_of_head hhead]
    exact happend hmore

/-- A number without its sign. -/
def skipUnsigned? (cs : List Char) : Option (List Char) :=
  ((skipWhole? cs).bind skipFraction?).bind skipExponent?

theorem passesNumeric_skipUnsigned? : PassesNumeric skipUnsigned? :=
  (passesNumeric_skipWhole?.comp passesNumeric_skipFraction?).comp passesNumeric_skipExponent?

theorem skipNumber?_minus (cs : List Char) : skipNumber? ('-' :: cs) = skipUnsigned? cs := by
  simp [skipNumber?, skipUnsigned?, Option.bind_assoc]

theorem skipNumber?_of_head {cs : List Char} (h : cs.head? ≠ some '-') :
    skipNumber? cs = skipUnsigned? cs := by
  unfold skipNumber? skipUnsigned?
  split
  · exact absurd rfl h
  · simp [Option.bind_assoc]

theorem passesNumeric_skipNumber? : PassesNumeric skipNumber? := by
  intro cs rest h
  by_cases hminus : cs.head? = some '-'
  · obtain ⟨tail, rfl⟩ := List.head?_eq_some_iff.mp hminus
    exact passesNumeric_skipUnsigned?.cons (by decide) skipNumber?_minus h
  · rw [skipNumber?_of_head hminus] at h
    obtain ⟨used, hused, hall, happend⟩ := passesNumeric_skipUnsigned? h
    refine ⟨used, hused, hall, fun more hmore => ?_⟩
    cases cs with
    | nil => contradiction
    | cons c cs =>
      have hhead : (c :: (cs ++ more)).head? ≠ some '-' := hminus
      rw [List.cons_append, skipNumber?_of_head hhead]
      exact happend hmore

end JsonValue

/-! ## Characters of tokens -/

namespace JsonToken

open JsonValue

/-- The characters that are tokens themselves, or start a string or a comment. -/
def marks : List Char := ['"', '/', ',', ':', '[', ']', '{', '}']

/-- A character that stands neither around tokens nor for one, and starts
neither a string nor a comment. -/
def isPlain (c : Char) : Bool := !Text.isBlank c && !marks.contains c

theorem isBlank_eq_false_of_isDigit {c : Char} (h : c.isDigit = true) : Text.isBlank c = false := by
  have hdigit : 48 ≤ c.toNat ∧ c.toNat ≤ 57 := by
    rw [Char.isDigit, Bool.and_eq_true_iff, decide_eq_true_eq, decide_eq_true_eq] at h
    exact h
  have hranges : ∀ range ∈ Text.blankRanges, range.2 < 48 ∨ 57 < range.1 := by decide
  rw [Text.isBlank, List.any_eq_false]
  intro range hrange
  have hout := hranges range hrange
  rw [Bool.and_eq_true_iff, decide_eq_true_eq, decide_eq_true_eq]
  omega

theorem isPlain_of_isNumeric {c : Char} (h : isNumeric c = true) : isPlain c = true := by
  by_cases hdigit : c.isDigit = true
  · rw [isPlain, isBlank_eq_false_of_isDigit hdigit, Bool.not_false, Bool.true_and,
      Bool.not_eq_true', List.contains_eq_mem, decide_eq_false_iff_not]
    intro hmark
    simp only [marks, List.mem_cons, List.not_mem_nil, or_false] at hmark
    rcases hmark with rfl | rfl | rfl | rfl | rfl | rfl | rfl | rfl <;> contradiction
  · simp only [isNumeric, Bool.eq_false_iff.mpr hdigit, Bool.false_or, Bool.or_eq_true,
      beq_iff_eq] at h
    rcases h with (((rfl | rfl) | rfl) | rfl) | rfl <;> decide

/-- A word has characters, and all of them are plain. -/
theorem plain_of_isWellFormed {text : List Char} (h : (word text).IsWellFormed) :
    text ≠ [] ∧ ∀ c ∈ text, isPlain c = true := by
  rcases h with hname | hnumber
  · have hall : names.all (fun name => !name.isEmpty && name.all isPlain) = true := by decide
    have hthis := List.all_eq_true.mp hall text hname
    rw [Bool.and_eq_true_iff, List.all_eq_true] at hthis
    exact ⟨by rintro rfl; exact absurd hthis.1 (by decide), hthis.2⟩
  · refine ⟨by rintro rfl; contradiction, fun c hc => ?_⟩
    obtain ⟨used, hused, hnumeric, -⟩ := passesNumeric_skipNumber? hnumber
    rw [List.append_nil] at hused
    exact isPlain_of_isNumeric (hnumeric c (hused ▸ hc))

/-- The end of an array or object. -/
def isCloser (c : Char) : Bool := c == ']' || c == '}'

/-- No token starts with a blank, and only closing brackets with the end of an
array or object. -/
theorem exists_chars_cons {t : JsonToken} (h : t.IsWellFormed) :
    ∃ c tail, t.chars = c :: tail ∧ Text.isBlank c = false ∧ isCloser c = t.isClosing := by
  cases t with
  | opening b => cases b <;> exact ⟨_, _, rfl, by decide, by decide⟩
  | closing b => cases b <;> exact ⟨_, _, rfl, by decide, by decide⟩
  | colon => exact ⟨_, _, rfl, by decide, by decide⟩
  | comma => exact ⟨_, _, rfl, by decide, by decide⟩
  | string body => exact ⟨_, _, rfl, by decide, rfl⟩
  | word text =>
    obtain ⟨hne, hplain⟩ := plain_of_isWellFormed h
    obtain ⟨c, tail, rfl⟩ := List.exists_cons_of_ne_nil hne
    have hc := hplain c (List.mem_cons_self ..)
    rw [isPlain, Bool.and_eq_true_iff, Bool.not_eq_true', Bool.not_eq_true',
      List.contains_eq_mem, decide_eq_false_iff_not] at hc
    refine ⟨c, tail, rfl, hc.1, ?_⟩
    simp only [marks, List.mem_cons, not_or] at hc
    simp [isCloser, isClosing, hc]

/-! ## Texts spelled by tokens -/

/-- White space of JSON. -/
def IsWhite (cs : List Char) : Prop := ∀ c ∈ cs, isSpace c = true

theorem IsWhite.append {as bs : List Char} (ha : IsWhite as) (hb : IsWhite bs) :
    IsWhite (as ++ bs) := by
  intro c hc
  rcases List.mem_append.mp hc with hc | hc
  · exact ha c hc
  · exact hb c hc

/-- A text consists of the given tokens, with a gap in front of each of them
and one that is `Last` behind the last. -/
inductive Spells (Gap Last : List Char → Prop) : List JsonToken → List Char → Prop
  | nil {gap : List Char} : Last gap → Spells Gap Last [] gap
  | cons {gap cs : List Char} {t : JsonToken} {ts : List JsonToken} :
      Gap gap → Spells Gap Last ts cs → Spells Gap Last (t :: ts) (gap ++ (t.chars ++ cs))

/-- A text of the given tokens with white space around them. -/
abbrev SpellsPlainly : List JsonToken → List Char → Prop := Spells IsWhite IsWhite

theorem isBlank_of_isSpace {c : Char} (h : isSpace c = true) : Text.isBlank c = true := by
  simp only [isSpace, Bool.or_eq_true, beq_iff_eq] at h
  rcases h with ((rfl | rfl) | rfl) | rfl <;> decide

theorem isNumeric_of_isSpace {c : Char} (h : isSpace c = true) : isNumeric c = false := by
  simp only [isSpace, Bool.or_eq_true, beq_iff_eq] at h
  rcases h with ((rfl | rfl) | rfl) | rfl <;> decide

theorem IsWhite.stopsNumber {gap cs : List Char} (h : IsWhite gap) (hcs : StopsNumber cs) :
    StopsNumber (gap ++ cs) := by
  cases gap with
  | nil => exact hcs
  | cons c gap =>
    intro d hd
    cases hd
    exact isNumeric_of_isSpace (h c (List.mem_cons_self ..))

/-- Behind a word no text goes on with a number. -/
theorem Spells.stopsNumber {ts : List JsonToken} {cs : List Char}
    (h : SpellsPlainly ts cs) (hends : ∀ t ∈ ts.head?, t.endsWord = true) : StopsNumber cs := by
  cases h with
  | nil hgap =>
    rw [← List.append_nil cs]
    exact hgap.stopsNumber (by simp [StopsNumber])
  | @cons gap cs t ts hgap _ =>
    refine hgap.stopsNumber ?_
    have ht := hends t rfl
    intro c hc
    cases t with
    | closing b => cases b <;> cases hc <;> decide
    | comma => cases hc; decide
    | _ => contradiction

/-! ## Reading a text back -/

theorem next?_number {text cs : List Char} (h : skipNumber? text = some [])
    (hcs : StopsNumber cs) : next? (text ++ cs) = some (.word text, cs) := by
  obtain ⟨used, hused, hnumeric, happend⟩ := passesNumeric_skipNumber? h
  rw [List.append_nil] at hused
  subst hused
  have hread : skipNumber? (text ++ cs) = some cs := happend hcs
  cases text with
  | nil => contradiction
  | cons c tail =>
    have hc : isNumeric c = true := hnumeric c (List.mem_cons_self ..)
    -- no other token starts with a character of a number
    unfold next?
    split
    case h_11 => rw [hread, Option.map_some, front_append]
    all_goals
      next heq =>
        rw [List.cons_append, List.cons.injEq] at heq
        rw [heq.1] at hc
        contradiction

theorem next?_chars {t : JsonToken} {cs : List Char} (ht : t.IsWellFormed)
    (hcs : t.isWord = true → StopsNumber cs) : next? (t.chars ++ cs) = some (t, cs) := by
  cases t with
  | opening b => cases b <;> rfl
  | closing b => cases b <;> rfl
  | colon => rfl
  | comma => rfl
  | string body =>
    obtain ⟨-, pieces, hread⟩ := quoted_of_isWellFormed ht
    have hfront : front (body ++ '"' :: cs) ('"' :: cs) = body := front_append _ _
    simp [chars, next?, hread, hfront]
  | word text =>
    rcases ht with hname | hnumber
    · simp only [names, List.mem_cons, List.not_mem_nil, or_false] at hname
      rcases hname with rfl | rfl | rfl <;> rfl
    · exact next?_number hnumber (hcs rfl)

/-- The white space in front of a token is skipped. -/
theorem skipSpace_append {gap cs : List Char} (hgap : IsWhite gap)
    (hcs : ∀ c ∈ cs.head?, Text.isBlank c = false) : skipSpace (gap ++ cs) = cs := by
  rw [skipSpace, List.dropWhile_append_of_pos hgap]
  cases cs with
  | nil => rfl
  | cons c cs =>
    apply List.dropWhile_cons_of_neg
    intro hspace
    have hblank := isBlank_of_isSpace hspace
    rw [hcs c rfl] at hblank
    contradiction

/-- The tokens of a text are those that it spells. -/
theorem scan?_of_spells {ts : List JsonToken} {cs : List Char} (h : SpellsPlainly ts cs)
    (hts : ∀ t ∈ ts, t.IsWellFormed) (hapart : Apart ts) : scan? cs = some ts := by
  induction h with
  | @nil gap hgap =>
    have hskip : skipSpace (gap ++ []) = [] := skipSpace_append hgap (by simp)
    rw [List.append_nil] at hskip
    rw [scan?, hskip]
  | @cons gap cs t ts hgap hspells ih =>
    have ht := hts t (List.mem_cons_self ..)
    obtain ⟨c, tail, hchars, hblank, -⟩ := exists_chars_cons ht
    have hskip : skipSpace (gap ++ (t.chars ++ cs)) = c :: (tail ++ cs) := by
      rw [hchars, List.cons_append]
      exact skipSpace_append hgap (by rintro d ⟨⟩; exact hblank)
    have hnext : next? (c :: (tail ++ cs)) = some (t, cs) := by
      rw [← List.cons_append, ← hchars]
      refine next?_chars ht fun hword => hspells.stopsNumber ?_
      intro u hu
      obtain ⟨us, rfl⟩ := List.head?_eq_some_iff.mp hu
      exact (List.isChain_cons_cons.mp hapart).1 hword
    have hlt : cs.length < (gap ++ (t.chars ++ cs)).length := by
      simp only [hchars, List.length_append, List.length_cons]
      omega
    have hrest := ih (fun u hu => hts u (List.mem_cons_of_mem t hu)) hapart.tail
    rw [scan?, hskip]
    simp only [hnext, if_pos hlt, hrest, Option.map_some]

end JsonToken

end AnySome
