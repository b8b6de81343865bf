import AnySome.Config.Relaxed
import AnySome.Proofs.Config.Tokens
import Mathlib.Data.List.TakeWhile

/-!
# Relaxed JSON is the JSON in it

A relaxed text spells the tokens of a JSON text and, in some places, a spare
comma in front of a closing bracket; between tokens stand white space and
comments. Two passes make JSON of it. Each of them copies a text up to the
characters that it looks for, and follows where strings begin and end, so it
copies tokens as they are (`Copies`). The first pass leaves white space of every
gap and all of the tokens; the second one leaves all tokens but the spare
commas, and in JSON a comma in front of a closing bracket is spare.

## Main results

* `Relaxed.spellsPlainly_stripComments` — the first pass leaves the tokens.
* `Relaxed.spellsPlainly_dropCommas` — the second pass leaves them but for the
  commas that `Relaxed.dropSpare` drops.
* `Relaxed.Relaxes.dropSpare_eq` — these are the spare commas.
* `Relaxed.normalize_exact` — what is left are the tokens of the JSON text, and
  a JSON text is left as it is.
-/

namespace AnySome.Relaxed

open JsonValue JsonToken

/-! ## Relaxed texts -/

/-- What may stand between tokens: white space and comments. A comment of one
line ends with a line feed, another one with the first `*/` in it. -/
inductive IsGap : List Char → Prop
  | nil : IsGap []
  | space {c : Char} {cs : List Char} (hspace : isSpace c = true) : IsGap cs → IsGap (c :: cs)
  | line {body cs : List Char} (hbody : '\n' ∉ body) :
      IsGap cs → IsGap ('/' :: '/' :: (body ++ '\n' :: cs))
  | block {body cs : List Char} (hbody : ¬['*', '/'] <:+: body) :
      IsGap cs → IsGap ('/' :: '*' :: (body ++ '*' :: '/' :: cs))

/-- What may stand behind the last token: a comment of one line may also end
with the text. -/
inductive IsLastGap : List Char → Prop
  | gap {cs : List Char} : IsGap cs → IsLastGap cs
  | line {cs body : List Char} (hbody : '\n' ∉ body) :
      IsGap cs → IsLastGap (cs ++ '/' :: '/' :: body)

/-- A text of the given tokens with white space and comments around them. -/
abbrev SpellsLoosely : List JsonToken → List Char → Prop := Spells IsGap IsLastGap

/-- A part of a JSON text. -/
inductive Part where
  | value
  /-- An item of an array or a member of an object. -/
  | element (bracket : JsonBracket)
  /-- One or more elements with commas between them. -/
  | elements (bracket : JsonBracket)
deriving DecidableEq, Repr

/-- The token is a value. -/
def isScalar : JsonToken → Bool
  | .string _ | .word _ => true
  | _ => false

/-- The tokens `strict` are a part of a JSON text, and `loose` are the same
tokens and, behind the last element of some arrays and objects, a comma. -/
inductive Relaxes : Part → (strict loose : List JsonToken) → Prop
  | scalar {t : JsonToken} (hscalar : isScalar t = true) (ht : t.IsWellFormed) :
      Relaxes .value [t] [t]
  | empty (b : JsonBracket) : Relaxes .value [.opening b, .closing b] [.opening b, .closing b]
  | full (b : JsonBracket) {ts ls spare : List JsonToken}
      (hspare : spare = [] ∨ spare = [.comma]) : Relaxes (.elements b) ts ls →
      Relaxes .value (.opening b :: (ts ++ [.closing b]))
        (.opening b :: (ls ++ (spare ++ [.closing b])))
  | item {ts ls : List JsonToken} : Relaxes .value ts ls → Relaxes (.element .array) ts ls
  | member {key : List Char} {ts ls : List JsonToken}
      (hkey : (JsonToken.string key).IsWellFormed) : Relaxes .value ts ls →
      Relaxes (.element .object) (.string key :: .colon :: ts) (.string key :: .colon :: ls)
  | last {b : JsonBracket} {ts ls : List JsonToken} :
      Relaxes (.element b) ts ls → Relaxes (.elements b) ts ls
  | cons {b : JsonBracket} {ts ls ts' ls' : List JsonToken} :
      Relaxes (.element b) ts ls → Relaxes (.elements b) ts' ls' →
      Relaxes (.elements b) (ts ++ .comma :: ts') (ls ++ .comma :: ls')

/-! ## Copying tokens -/

/-- Tokens start neither like a comment nor, but for the comma, with a comma. -/
theorem head?_chars_ne {t : JsonToken} {c : Char} (ht : t.IsWellFormed) (hc : c = '/' ∨ c = ',')
    (hcomma : c = ',' → t ≠ .comma) : t.chars.head? ≠ some c := by
  have hmark : isPlain c = false := by rcases hc with rfl | rfl <;> decide
  cases t with
  | opening b => rcases hc with rfl | rfl <;> cases b <;> decide
  | closing b => rcases hc with rfl | rfl <;> cases b <;> decide
  | colon => rcases hc with rfl | rfl <;> decide
  | comma =>
    rcases hc with rfl | rfl
    · decide
    · exact absurd rfl (hcomma rfl)
  | string body => rcases hc with rfl | rfl <;> simp [chars]
  | word text =>
    intro hhead
    have hplain := (plain_of_isWellFormed ht).2 c (List.mem_of_mem_head? hhead)
    rw [hmark] at hplain
    contradiction

/-- The pass `F`, which is told where the next character stands, copies all
but `special` characters outside of strings. -/
def Copies (special : Char) (F : Quoting → List Char → List Char) : Prop :=
  ∀ ⦃q : Quoting⦄ ⦃c : Char⦄ (cs : List Char), (q = .outside → c ≠ special) →
    F q (c :: cs) = c :: F (q.after c) cs

theorem copies_stripFrom : Copies '/' fun q => stripFrom (.code q) := by
  intro q c cs h
  show stripFrom (.code q) (c :: cs) = _
  unfold stripFrom
  split <;> simp_all

theorem copies_dropCommasFrom : Copies ',' dropCommasFrom := by
  intro q c cs h
  rw [dropCommasFrom, if_neg]
  rintro ⟨hq, hc, -⟩
  exact h hq hc

namespace Copies

variable {special : Char} {F : Quoting → List Char → List Char} (hF : Copies special F)
include hF

/-- What stands in a string is copied, whatever it is. -/
theorem quoted {body : List Char} (h : Quoted body) (cs : List Char) :
    F .inside (body ++ '"' :: cs) = body ++ '"' :: F .outside cs := by
  induction h with
  | nil => exact hF cs (by simp)
  | @plain c body hquote hescape _ ih =>
    have hafter : Quoting.inside.after c = .inside := by simp [Quoting.after, hquote, hescape]
    rw [List.cons_append, hF _ (by simp), hafter, ih]
    rfl
  | @escaped c body _ ih =>
    rw [List.cons_append, hF _ (by simp), List.cons_append, hF _ (by simp [Quoting.after])]
    exact congrArg (fun rest => '\\' :: c :: rest) ih

/-- Characters outside of strings that are not special are copied. -/
theorem outside {as : List Char} (h : ∀ c ∈ as, c ≠ special ∧ c ≠ '"') (cs : List Char) :
    F .outside (as ++ cs) = as ++ F .outside cs := by
  induction as with
  | nil => rfl
  | cons a as ih =>
    obtain ⟨hspecial, hquote⟩ := h a (List.mem_cons_self ..)
    have hafter : Quoting.outside.after a = .outside := by simp [Quoting.after, hquote]
    rw [List.cons_append, hF _ (fun _ => hspecial), hafter,
      ih fun c hc => h c (List.mem_cons_of_mem a hc)]
    rfl

theorem white {gap : List Char} (h : IsWhite gap) (hspecial : isSpace special = false)
    (cs : List Char) : F .outside (gap ++ cs) = gap ++ F .outside cs := by
  refine hF.outside (fun c hc => ⟨?_, ?_⟩) cs
  · rintro rfl
    rw [h c hc] at hspecial
    contradiction
  · rintro rfl
    exact absurd (h _ hc) (by decide)

/-- Tokens that do not start with a special character are copied. -/
theorem token {t : JsonToken} (ht : t.IsWellFormed) (hhead : t.chars.head? ≠ some special)
    (hspecial : isPlain special = false) (cs : List Char) :
    F .outside (t.chars ++ cs) = t.chars ++ F .outside cs := by
  have hone {c : Char} (hc : [c].head? ≠ some special) (hquote : c ≠ '"') :
      F .outside ([c] ++ cs) = [c] ++ F .outside cs := by
    refine hF.outside (fun d hd => ?_) cs
    rw [List.mem_singleton.mp hd]
    exact ⟨fun h => hc (congrArg some h), hquote⟩
  cases t with
  | opening b => exact hone hhead (by cases b <;> decide)
  | closing b => exact hone hhead (by cases b <;> decide)
  | colon => exact hone hhead (by decide)
  | comma => exact hone hhead (by decide)
  | string body =>
    obtain ⟨hquoted, -⟩ := quoted_of_isWellFormed ht
    have hstart : F .outside ('"' :: (body ++ '"' :: cs)) =
        '"' :: F .inside (body ++ '"' :: cs) := hF _ fun _ h => hhead (congrArg some h)
    simp only [chars, List.cons_append, List.append_assoc, List.nil_append]
    rw [hstart, hF.quoted hquoted]
  | word text =>
    refine hF.outside (fun c hc => ?_) cs
    have hplain := (plain_of_isWellFormed ht).2 c hc
    constructor <;> rintro rfl
    · rw [hspecial] at hplain
      contradiction
    · exact absurd hplain (by decide)

end Copies

/-! ## Comments -/

theorem stripComments_token {t : JsonToken} (ht : t.IsWellFormed) (cs : List Char) :
    stripComments (t.chars ++ cs) = t.chars ++ stripComments cs :=
  copies_stripFrom.token ht (head?_chars_ne ht (.inl rfl) fun h => absurd h (by decide))
    (by decide) cs

theorem stripComments_white_append {gap : List Char} (h : IsWhite gap) (cs : List Char) :
    stripComments (gap ++ cs) = gap ++ stripComments cs :=
  copies_stripFrom.white h (by decide) cs

theorem stripComments_white {gap : List Char} (h : IsWhite gap) : stripComments gap = gap := by
  simpa using stripComments_white_append h []

theorem stripFrom_lineBody {body : List Char} (h : '\n' ∉ body) (cs : List Char) :
    stripFrom .lineComment (body ++ cs) = stripFrom .lineComment cs := by
  induction body with
  | nil => rfl
  | cons c body ih =>
    rw [List.mem_cons, not_or] at h
    rw [List.cons_append, stripFrom_line_cons, if_neg (Ne.symm h.1), ih h.2]

/-- Where a comment does not end, only line feeds of it are left. -/
theorem stripFrom_block_cons {c : Char} {cs : List Char}
    (h : ¬(c = '*' ∧ cs.head? = some '/')) : stripFrom .blockComment (c :: cs) =
      if c = '\n' then c :: stripFrom .blockComment cs else stripFrom .blockComment cs := by
  rw [stripFrom]
  rintro ds rfl rfl
  exact h ⟨rfl, rfl⟩

theorem stripFrom_blockBody {body : List Char} (h : ¬['*', '/'] <:+: body) :
    ∃ gap, IsWhite gap ∧ ∀ cs,
      stripFrom .blockComment (body ++ '*' :: '/' :: cs) = gap ++ stripComments cs := by
  induction body with
  | nil => exact ⟨[], by simp [IsWhite], fun cs => stripFrom_blockEnd cs⟩
  | cons c body ih =>
    obtain ⟨gap, hgap, hstrip⟩ := ih fun hin => h (hin.trans (List.suffix_cons c body).isInfix)
    have hopen (cs : List Char) : ¬(c = '*' ∧ (body ++ '*' :: '/' :: cs).head? = some '/') := by
      rintro ⟨rfl, hhead⟩
      cases body with
      | nil => cases hhead
      | cons d body =>
        cases hhead
        exact h ⟨[], body, rfl⟩
    by_cases hc : c = '\n'
    · refine ⟨c :: gap, ?_, fun cs => ?_⟩
      · rw [hc]
        exact List.forall_mem_cons.mpr ⟨by decide, hgap⟩
      · rw [List.cons_append, stripFrom_block_cons (hopen cs), if_pos hc, hstrip]
        rfl
    · refine ⟨gap, hgap, fun cs => ?_⟩
      rw [List.cons_append, stripFrom_block_cons (hopen cs), if_neg hc, hstrip]

/-- White space is left of a gap. -/
theorem exists_stripComments_gap {gap : List Char} (h : IsGap gap) :
    ∃ left, IsWhite left ∧ ∀ cs, stripComments (gap ++ cs) = left ++ stripComments cs := by
  induction h with
  | nil => exact ⟨[], by simp [IsWhite], fun _ => rfl⟩
  | @space c gap hspace _ ih =>
    obtain ⟨left, hleft, hstrip⟩ := ih
    have hc : IsWhite [c] := by simpa [IsWhite] using hspace
    refine ⟨c :: left, List.forall_mem_cons.mpr ⟨hspace, hleft⟩, fun cs => ?_⟩
    rw [← List.singleton_append, List.append_assoc, stripComments_white_append hc, hstrip]
    rfl
  | @line body gap hbody _ ih =>
    obtain ⟨left, hleft, hstrip⟩ := ih
    refine ⟨'\n' :: left, List.forall_mem_cons.mpr ⟨by decide, hleft⟩, fun cs => ?_⟩
    have hlines : stripFrom .lineComment (body ++ '\n' :: (gap ++ cs)) =
        '\n' :: stripComments (gap ++ cs) := by
      rw [stripFrom_lineBody hbody, stripFrom_line_cons, if_pos rfl]
    rw [hstrip] at hlines
    simpa using hlines
  | @block body gap hbody _ ih =>
    obtain ⟨left, hleft, hstrip⟩ := ih
    obtain ⟨lines, hlines, hbodyStrip⟩ := stripFrom_blockBody hbody
    refine ⟨lines ++ left, hlines.append hleft, fun cs => ?_⟩
    have hblock := hbodyStrip (gap ++ cs)
    rw [hstrip] at hblock
    simpa using hblock

theorem isWhite_stripComments {gap : List Char} (h : IsLastGap gap) :
    IsWhite (stripComments gap) := by
  cases h with
  | gap hgap =>
    obtain ⟨left, hleft, hstrip⟩ := exists_stripComments_gap hgap
    have hnone := hstrip []
    rw [List.append_nil] at hnone
    rw [hnone]
    simpa using hleft
  | @line gap body hbody hgap =>
    obtain ⟨left, hleft, hstrip⟩ := exists_stripComments_gap hgap
    have hcomment : stripComments ('/' :: '/' :: body) = [] := by
      have hall := stripFrom_lineBody hbody []
      rw [List.append_nil] at hall
      simpa using hall
    rw [hstrip, hcomment, List.append_nil]
    exact hleft

/-- The first pass leaves the tokens, and white space of what is between them. -/
theorem spellsPlainly_stripComments {ls : List JsonToken} {cs : List Char}
    (h : SpellsLoosely ls cs) (hls : ∀ t ∈ ls, t.IsWellFormed) :
    SpellsPlainly ls (stripComments cs) := by
  induction h with
  | nil hgap => exact .nil (isWhite_stripComments hgap)
  | @cons gap cs t ls hgap _ ih =>
    obtain ⟨left, hleft, hstrip⟩ := exists_stripComments_gap hgap
    rw [hstrip, stripComments_token (hls t (List.mem_cons_self ..))]
    exact .cons hleft (ih fun u hu => hls u (List.mem_cons_of_mem t hu))

/-- A text without comments is left as it is. -/
theorem stripComments_of_spellsPlainly {ls : List JsonToken} {cs : List Char}
    (h : SpellsPlainly ls cs) (hls : ∀ t ∈ ls, t.IsWellFormed) : stripComments cs = cs := by
  induction h with
  | nil hgap => exact stripComments_white hgap
  | @cons gap cs t ls hgap _ ih =>
    rw [stripComments_white_append hgap, stripComments_token (hls t (List.mem_cons_self ..)),
      ih fun u hu => hls u (List.mem_cons_of_mem t hu)]

/-! ## Spare commas -/

/-- A closing bracket is the first of the tokens. -/
def closesFirst (ts : List JsonToken) : Bool := ts.head?.any JsonToken.isClosing

/-- The tokens without the commas in front of closing brackets. -/
def dropSpare : List JsonToken → List JsonToken
  | [] => []
  | t :: ts => if t = .comma ∧ closesFirst ts = true then dropSpare ts else t :: dropSpare ts

theorem length_dropSpare_le (ts : List JsonToken) : (dropSpare ts).length ≤ ts.length := by
  induction ts with
  | nil => exact Nat.le_refl 0
  | cons t ts ih =>
    rw [dropSpare]
    split <;> simp only [List.length_cons] <;> omega

theorem dropSpare_of_ne {t : JsonToken} (h : t ≠ .comma) (ts : List JsonToken) :
    dropSpare (t :: ts) = t :: dropSpare ts := by
  rw [dropSpare, if_neg fun hspare => h hspare.1]

/-- The second pass looks at the next token. -/
theorem closesNext_of_spellsPlainly {ts : List JsonToken} {cs : List Char}
    (h : SpellsPlainly ts cs) (hts : ∀ t ∈ ts, t.IsWellFormed) :
    closesNext cs = closesFirst ts := by
  cases h with
  | nil hgap =>
    have hblank : cs.dropWhile Text.isBlank = [] :=
      List.dropWhile_eq_nil_iff.mpr fun c hc => isBlank_of_isSpace (hgap c hc)
    rw [closesNext, hblank]
    rfl
  | @cons gap cs t ts hgap _ =>
    obtain ⟨c, tail, hchars, hblank, hcloser⟩ := exists_chars_cons (hts t (List.mem_cons_self ..))
    have hnext : (gap ++ (t.chars ++ cs)).dropWhile Text.isBlank = c :: (tail ++ cs) := by
      rw [List.dropWhile_append_of_pos fun d hd => isBlank_of_isSpace (hgap d hd), hchars,
        List.cons_append, List.dropWhile_cons_of_neg (by simp [hblank])]
    have hclosing : closesFirst (t :: ts) = isCloser c := by
      rw [hcloser]
      rfl
    rw [closesNext, hnext, hclosing]
    split
    next heq => cases heq; rfl
    next heq => cases heq; rfl
    next hobject harray =>
      have h1 : c ≠ '}' := by rintro rfl; exact hobject _ rfl
      have h2 : c ≠ ']' := by rintro rfl; exact harray _ rfl
      simp [isCloser, h1, h2]

theorem dropCommas_white_append {gap : List Char} (h : IsWhite gap) (cs : List Char) :
    dropCommas (gap ++ cs) = gap ++ dropCommas cs :=
  copies_dropCommasFrom.white h (by decide) cs

theorem dropCommas_white {gap : List Char} (h : IsWhite gap) : dropCommas gap = gap := by
  simpa [dropCommas, dropCommasFrom] using dropCommas_white_append h []

/-- Only a comma in front of a closing bracket is not copied. -/
theorem dropCommas_token {t : JsonToken} {ts : List JsonToken} {cs : List Char}
    (ht : t.IsWellFormed) (h : SpellsPlainly ts cs) (hts : ∀ t ∈ ts, t.IsWellFormed) :
    dropCommas (t.chars ++ cs) =
      if t = .comma ∧ closesFirst ts = true then dropCommas cs else t.chars ++ dropCommas cs := by
  by_cases hcomma : t = .comma
  · subst hcomma
    rw [← closesNext_of_spellsPlainly h hts]
    show dropCommasFrom .outside (',' :: cs) = _
    rw [dropCommasFrom]
    cases closesNext cs <;> rfl
  · rw [if_neg fun hspare => hcomma hspare.1]
    exact copies_dropCommasFrom.token ht (head?_chars_ne ht (.inr rfl) fun _ => hcomma)
      (by decide) cs

theorem SpellsPlainly.white_append {ts : List JsonToken} {gap cs : List Char} (hgap : IsWhite gap)
    (h : SpellsPlainly ts cs) : SpellsPlainly ts (gap ++ cs) := by
  cases h with
  | nil hlast => exact .nil (hgap.append hlast)
  | cons hgap' h =>
    rw [← List.append_assoc]
    exact .cons (hgap.append hgap') h

/-- The second pass leaves all tokens but commas in front of closing brackets. -/
theorem spellsPlainly_dropCommas {ls : List JsonToken} {cs : List Char}
    (h : SpellsPlainly ls cs) (hls : ∀ t ∈ ls, t.IsWellFormed) :
    SpellsPlainly (dropSpare ls) (dropCommas cs) := by
  induction h with
  | nil hgap =>
    rw [dropCommas_white hgap]
    exact .nil hgap
  | @cons gap cs t ls hgap h ih =>
    have hrest := fun u hu => hls u (List.mem_cons_of_mem t hu)
    rw [dropCommas_white_append hgap, dropCommas_token (hls t (List.mem_cons_self ..)) h hrest, dropSpare]
    split
    · exact SpellsPlainly.white_append hgap (ih hrest)
    · exact .cons hgap (ih hrest)

/-- A text without spare commas is left as it is. -/
theorem dropCommas_of_spellsPlainly {ts : List JsonToken} {cs : List Char}
    (h : SpellsPlainly ts cs) (hts : ∀ t ∈ ts, t.IsWellFormed) (hspare : dropSpare ts = ts) :
    dropCommas cs = cs := by
  induction h with
  | nil hgap => exact dropCommas_white hgap
  | @cons gap cs t ts hgap h ih =>
    have hrest := fun u hu => hts u (List.mem_cons_of_mem t hu)
    rw [dropCommas_white_append hgap, dropCommas_token (hts t (List.mem_cons_self ..)) h hrest]
    rw [dropSpare] at hspare
    split at hspare
    · have hle := length_dropSpare_le ts
      rw [hspare, List.length_cons] at hle
      omega
    next hkept =>
      rw [if_neg hkept, ih hrest (List.cons.inj hspare).2]

/-! ## Parts of a JSON text -/

namespace Relaxes

variable {p : Part} {ts ls : List JsonToken}

/-- A JSON text is a relaxed one. -/
theorem strict (h : Relaxes p ts ls) : Relaxes p ts ts := by
  induction h with
  | scalar hscalar ht => exact .scalar hscalar ht
  | empty b => exact .empty b
  | full b _ _ ih => exact .full b (.inl rfl) ih
  | item _ ih => exact .item ih
  | member hkey _ ih => exact .member hkey ih
  | last _ ih => exact .last ih
  | cons _ _ ih ih' => exact .cons ih ih'

theorem isWellFormed (h : Relaxes p ts ls) : ∀ t ∈ ls, t.IsWellFormed := by
  induction h with
  | scalar _ ht => simpa using ht
  | empty b => simp [IsWellFormed]
  | full b hspare _ ih =>
    rcases hspare with rfl | rfl <;> simpa [IsWellFormed, or_imp, forall_and] using ih
  | item _ ih => exact ih
  | member hkey _ ih => simpa [or_imp, forall_and] using ⟨hkey, trivial, ih⟩
  | last _ ih => exact ih
  | cons _ _ ih ih' => simpa [IsWellFormed, or_imp, forall_and] using ⟨ih, ih'⟩

/-- No word stands in front of a word or a string. -/
theorem apart (h : Relaxes p ts ls) : Apart ts := by
  induction h with
  | scalar => exact List.isChain_singleton _
  | empty b => simp [Apart, isWord]
  | full b _ _ ih =>
    refine List.isChain_cons.mpr ⟨by simp [isWord], List.isChain_append.mpr ⟨ih, ?_, ?_⟩⟩
    · exact List.isChain_singleton _
    · simp [endsWord]
  | item _ ih => exact ih
  | member _ _ ih =>
    exact List.isChain_cons.mpr ⟨by simp [isWord], List.isChain_cons.mpr ⟨by simp [isWord], ih⟩⟩
  | last _ ih => exact ih
  | cons _ _ ih ih' =>
    refine List.isChain_append.mpr ⟨ih, List.isChain_cons.mpr ⟨by simp [isWord], ih'⟩, ?_⟩
    simp [endsWord]

/-- No part of a JSON text starts with a closing bracket. -/
theorem closesFirst_append (h : Relaxes p ts ls) (rest : List JsonToken) :
    closesFirst (ls ++ rest) = false := by
  induction h generalizing rest with
  | @scalar t hscalar _ => cases t <;> trivial
  | empty => rfl
  | full => rfl
  | item _ ih => exact ih rest
  | member => rfl
  | last _ ih => exact ih rest
  | cons _ _ ih _ =>
    rw [List.append_assoc]
    exact ih _

/-- The spare commas are what stands between the two. -/
theorem dropSpare_append (h : Relaxes p ts ls) (rest : List JsonToken) :
    dropSpare (ls ++ rest) = ts ++ dropSpare rest := by
  induction h generalizing rest with
  | @scalar t hscalar _ =>
    refine dropSpare_of_ne ?_ rest
    rintro rfl
    contradiction
  | empty b =>
    rw [List.cons_append, dropSpare_of_ne (by simp)]
    exact congrArg _ (dropSpare_of_ne (by simp) rest)
  | @full b ts ls spare hspare _ ih =>
    have hend : dropSpare (spare ++ .closing b :: rest) = .closing b :: dropSpare rest := by
      rcases hspare with rfl | rfl
      · exact dropSpare_of_ne (by simp) rest
      · rw [List.singleton_append, dropSpare, if_pos ⟨rfl, rfl⟩]
        exact dropSpare_of_ne (by simp) rest
    simp only [List.cons_append, List.append_assoc, List.nil_append]
    rw [dropSpare_of_ne (by simp), ih, hend]
  | item _ ih => exact ih rest
  | member _ _ ih =>
    simp only [List.cons_append]
    rw [dropSpare_of_ne (by simp), dropSpare_of_ne (by simp), ih]
  | last _ ih => exact ih rest
  | @cons b ts ls ts' ls' _ h' ih ih' =>
    -- the next element keeps its comma: it does not start with a closing bracket
    have hkept : ¬(JsonToken.comma = .comma ∧ closesFirst (ls' ++ rest) = true) := by
      rw [h'.closesFirst_append rest]
      exact fun hspare => absurd hspare.2 Bool.false_ne_true
    rw [List.append_assoc, List.cons_append, ih, dropSpare, if_neg hkept, ih', List.append_assoc]
    rfl

theorem dropSpare_eq (h : Relaxes p ts ls) : dropSpare ls = ts := by
  simpa [dropSpare] using h.dropSpare_append []

end Relaxes

/-! ## Normalizing -/

/-- What is left of a relaxed text are the tokens of the JSON text that it
relaxes, with white space around them, and a JSON text is left as it is by both
passes. -/
theorem normalize_exact {ts ls : List JsonToken} (h : Relaxes .value ts ls) :
    (∀ cs, SpellsLoosely ls cs →
      SpellsPlainly ts (normalize cs) ∧ scan? (normalize cs) = some ts) ∧
    ∀ cs, SpellsPlainly ts cs →
      scan? cs = some ts ∧ stripComments cs = cs ∧ dropCommas cs = cs := by
  have hts := h.strict.isWellFormed
  constructor
  · intro cs hcs
    have hplain := spellsPlainly_dropCommas (spellsPlainly_stripComments hcs h.isWellFormed)
      h.isWellFormed
    rw [h.dropSpare_eq] at hplain
    exact ⟨hplain, scan?_of_spells hplain hts h.apart⟩
  · intro cs hcs
    exact ⟨scan?_of_spells hcs hts h.apart, stripComments_of_spellsPlainly hcs hts,
      dropCommas_of_spellsPlainly hcs hts h.strict.dropSpare_eq⟩

/-- Quotes and brackets in comments, comments and commas in a string, and a
spare comma in front of a comment. -/
theorem normalize_exact_of_array :
    ∃ ls, Relaxes .value [.opening .array, .string "c/*,]\\\"".toList, .comma,
        .word "-1".toList, .closing .array] ls ∧
      (SpellsLoosely ls "/*\"]*/[\"c/*,]\\\"\",-1 , //,]\n]//]".toList ∧
        scan? (normalize "/*\"]*/[\"c/*,]\\\"\",-1 , //,]\n]//]".toList) =
          some [.opening .array, .string "c/*,]\\\"".toList, .comma, .word "-1".toList,
            .closing .array]) ∧
      stripComments "[\"c/*,]\\\"\", -1]".toList = "[\"c/*,]\\\"\", -1]".toList ∧
      dropCommas "[\"c/*,]\\\"\", -1]".toList = "[\"c/*,]\\\"\", -1]".toList := by
  have hjson := Relaxes.full .array (.inr rfl) (.cons
    (.item (@Relaxes.scalar (.string "c/*,]\\\"".toList) rfl ⟨_, rfl⟩))
    (.last (.item (@Relaxes.scalar (.word "-1".toList) rfl (.inr rfl)))))
  have hfirst : IsGap "/*\"]*/".toList := @IsGap.block ['"', ']'] [] (by decide) .nil
  have hspace : IsGap [' '] := .space rfl .nil
  have hline : IsGap " //,]\n".toList := .space rfl (@IsGap.line [',', ']'] [] (by decide) .nil)
  have hlast : IsLastGap "//]".toList := @IsLastGap.line [] [']'] (by decide) .nil
  have hspells : SpellsLoosely [.opening .array, .string "c/*,]\\\"".toList, .comma,
      .word "-1".toList, .comma, .closing .array] _ :=
    .cons hfirst (.cons .nil (.cons .nil (.cons .nil (.cons hspace (.cons hline (.nil hlast))))))
  have hnone : IsWhite [] := by simp [IsWhite]
  have hblank : IsWhite [' '] := by simp [IsWhite, isSpace]
  have hplain : SpellsPlainly [.opening .array, .string "c/*,]\\\"".toList, .comma,
      .word "-1".toList, .closing .array] _ :=
    .cons hnone (.cons hnone (.cons hnone (.cons hblank (.cons hnone (.nil hnone)))))
  exact ⟨_, hjson, ⟨hspells, ((normalize_exact hjson).1 _ hspells).2⟩,
    ((normalize_exact hjson).2 _ hplain).2⟩

end AnySome.Relaxed
