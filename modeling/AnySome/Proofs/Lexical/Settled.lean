import AnySome.Proofs.Lexical.Reads

/-!
# Signs that can be put next to others

Names, numbers and closing signs are read in front of anything that starts
with a blank or with punctuation; punctuation is read in front of anything.
So signs can be put together to new texts: what has to be checked is what
stands behind the last sign of each part.

A list of signs is *settled* if it is read in front of every text in front of
which its last sign is read. Settled lists are built from parts by a small
algebra: a firm sign may stand in front of anything, and a part with a solid
end in front of something that cuts.

## Main results

* `TextReads.solid` — solid kinds of tokens are read in front of a cut.
* `Settled.of_lexes` — signs as they stand in a text are settled.
* `Settled.append`, `Settled.cons_firm` — the algebra.
-/

namespace AnySome

/-! ## Cuts -/

/-- Characters that end every name and number. -/
def isCut (c : Char) : Bool := [' ', ',', ':', '(', ')', '<', '>', '?'].contains c

/-- Texts that end every name and number. -/
inductive Cuts : List Char → Prop where
  | nil : Cuts []
  | char {c : Char} {Y : List Char} (hc : isCut c = true) : Cuts (c :: Y)
  | dots {Y : List Char} : Cuts ('.' :: '.' :: Y)

theorem not_of_isCut {p : Char → Bool}
    (hp : [' ', ',', ':', '(', ')', '<', '>', '?'].all (fun c => !p c) = true) {c : Char}
    (hc : isCut c = true) : p c = false := by
  have hmem : c ∈ [' ', ',', ':', '(', ')', '<', '>', '?'] := by simpa [isCut] using hc
  simpa using List.all_eq_true.mp hp c hmem

theorem Cuts.takeWhile_eq {Y : List Char} (h : Cuts Y) :
    Y.takeWhile Lexeme.isNamePart = [] := by
  cases h with
  | nil => rfl
  | char hc =>
    have hpart := not_of_isCut (p := Lexeme.isNamePart) (by decide) hc
    simp [hpart]
  | dots => rfl

/-- What holds of no exception holds of hinges only. -/
theorem isHinge_of {p : Char → Bool} (hp : ['#', '"', '.'].all (fun c => !p c) = true) {c : Char}
    (hc : p c = true) : isHinge c = true := by
  have hne : ∀ d ∈ ['#', '"', '.'], c ≠ d := by
    rintro d hd rfl
    have hnot := List.all_eq_true.mp hp c hd
    rw [hc] at hnot
    contradiction
  simp [isHinge, hne]

/-- Kinds of tokens that a type can end with. -/
def isSolid : Kind → Bool
  | .identifier | .keyword _ | .closing _ | .greaterThan | .question | .exclamation
  | .numericLiteral => true
  | _ => false

/-! ## Numbers -/

namespace Literal

variable {A Y Y' : List Char} {last : Char}

theorem numberLength_of_cuts (h : Cuts Y) : numberLength last Y = 0 := by
  cases h with
  | nil => rfl
  | @char c Y hc =>
    have hword := not_of_isCut (p := fun c => c.isAlphanum || c == '_' || c == '+' || c == '-'
      || c == '.') (by decide) hc
    simp only [Bool.or_eq_false_iff] at hword
    simp [numberLength, hword]
  | dots => simp [numberLength, startsWithDigit]

/-- A number does not end with a point. -/
theorem numberLength_pos_of_digit (last : Char) (h : startsWithDigit Y = true) :
    0 < numberLength last Y := by
  cases Y with
  | nil => contradiction
  | cons d Y =>
    have hd : d.isDigit = true := h
    have hpart : d.isAlphanum = true := by simp [Char.isAlphanum, hd]
    simp [numberLength, hpart]

theorem numberLength_cut (h : numberLength last (A ++ Y) = A.length) (hcut : Cuts Y') :
    numberLength last (A ++ Y') = A.length := by
  induction A generalizing last with
  | nil => exact numberLength_of_cuts hcut
  | cons b A ih =>
    simp only [List.cons_append, numberLength, List.length_cons] at h ⊢
    split at h
    next hmore =>
      have hrest : numberLength b (A ++ Y) = A.length := by omega
      have hdigit : startsWithDigit (A ++ Y) = true → startsWithDigit (A ++ Y') = true := by
        intro hstart
        cases A with
        | nil =>
          have hpos := numberLength_pos_of_digit b hstart
          rw [hrest] at hpos
          simp at hpos
        | cons d A => exact hstart
      rw [if_pos, ih hrest]
      simp only [Bool.or_eq_true, Bool.and_eq_true] at hmore ⊢
      rcases hmore with hmore | ⟨hpoint, hstart⟩
      · exact .inl hmore
      · exact .inr ⟨hpoint, hdigit hstart⟩
    next => omega

theorem exists_hinge_of_numberLength (h : numberLength last (A ++ Y) = A.length)
    (hne : A ≠ []) : ∃ R c, A = R ++ [c] ∧ isHinge c = true := by
  induction A generalizing last with
  | nil => contradiction
  | cons b A ih =>
    simp only [List.cons_append, numberLength, List.length_cons] at h
    split at h
    next hmore =>
      have hrest : numberLength b (A ++ Y) = A.length := by omega
      cases A with
      | nil =>
        refine ⟨[], b, rfl, ?_⟩
        have hpoint : startsWithDigit Y = false := by
          rw [Bool.eq_false_iff]
          intro hstart
          have hpos := numberLength_pos_of_digit b hstart
          rw [List.nil_append] at hrest
          rw [hrest] at hpos
          simp at hpos
        rw [List.nil_append, hpoint, Bool.and_false, Bool.or_false] at hmore
        refine isHinge_of (p := fun c => c.isAlphanum || c == '_' || c == '+' || c == '-')
          (by decide) ?_
        simp only [Bool.or_eq_true, Bool.and_eq_true] at hmore ⊢
        rcases hmore with (hmore | hmore) | ⟨hmore | hmore, -⟩
        · exact .inl (.inl (.inl hmore))
        · exact .inl (.inl (.inr hmore))
        · exact .inl (.inr hmore)
        · exact .inr hmore
      | cons d A =>
        obtain ⟨R, c, hR, hc⟩ := ih hrest (by simp)
        exact ⟨b :: R, c, by rw [hR]; rfl, hc⟩
    next => omega

end Literal

/-! ## Solid tokens -/

theorem all_of_length_takeWhile {p : Char → Bool} {A Y : List Char}
    (h : ((A ++ Y).takeWhile p).length = A.length) : ∀ c ∈ A, p c = true := by
  induction A with
  | nil => simp
  | cons a A ih =>
    cases hp : p a with
    | false => simp [hp] at h
    | true =>
      simp only [List.cons_append, List.takeWhile_cons, hp, if_true, List.length_cons,
        Nat.add_right_cancel_iff] at h
      intro c hc
      rcases List.mem_cons.mp hc with rfl | hc
      · exact hp
      · exact ih h c hc

theorem isHinge_of_isNamePart {c : Char} (h : Lexeme.isNamePart c = true) :
    isHinge c = true :=
  isHinge_of (by decide) h

theorem scan?_of_ne_slash {a : Char} {cs : List Char} (h : Trivia.scan? (a :: cs) = none)
    (ha : a ≠ '/') (cs' : List Char) : Trivia.scan? (a :: cs') = none := by
  unfold Trivia.scan? at h ⊢
  dsimp only at h ⊢
  split at h
  · contradiction
  next hbreak =>
    split at h
    · contradiction
    next hblank => rw [if_neg hbreak, if_neg hblank, if_neg ha]

/-- A closed name in backticks ends with its second backtick. -/
theorem Lexeme.backticked_closed {A Y : List Char} {k : Kind}
    (h : backticked (A ++ Y) = ⟨k, A.length + 1, true⟩) :
    ∃ B, A = B ++ ['\x60'] ∧ ∀ Y', backticked (A ++ Y') = ⟨k, A.length + 1, true⟩ := by
  unfold backticked at h
  dsimp only at h
  generalize hp : (fun d : Char => d != '\x60' && d != '\n') = p at h
  generalize hB : (A ++ Y).takeWhile p = B at h
  split at h
  next tail hdrop =>
    simp only [Lexeme.mk.injEq] at h
    obtain ⟨hk, hlen, -⟩ := h
    have hsplit := List.takeWhile_append_dropWhile (p := p) (l := A ++ Y)
    have hdropWhile : (A ++ Y).dropWhile p = '\x60' :: tail := by
      have hleft : ((A ++ Y).takeWhile p ++ (A ++ Y).dropWhile p).drop B.length =
          (A ++ Y).dropWhile p := by
        rw [hB]
        exact List.drop_left
      rw [hsplit, hdrop] at hleft
      exact hleft.symm
    rw [hB, hdropWhile] at hsplit
    have hA : A = B ++ ['\x60'] := by
      have hprefix : B ++ ['\x60'] ++ tail = A ++ Y := by simpa using hsplit
      exact (List.append_inj_left hprefix (by simp; omega)).symm
    refine ⟨B, hA, ?_⟩
    intro Y'
    have hall : ∀ c ∈ B, p c = true := by
      intro c hc
      rw [← hB] at hc
      exact List.mem_takeWhile_imp hc
    have htake : (A ++ Y').takeWhile p = B := by
      rw [hA, List.append_assoc, List.takeWhile_append_of_pos hall, ← hp]
      simp
    have hrest : (A ++ Y').drop B.length = '\x60' :: Y' := by
      rw [hA]
      simp
    unfold backticked
    dsimp only
    rw [hp, htake, hrest]
    simp only [Lexeme.mk.injEq, and_true]
    exact ⟨hk, hlen⟩
  next => simp at h

/-- The token `a :: A` is read in front of every cut and ends with a hinge, and no
comment starts like it. -/
structure Lexeme.Lasts (f : List Char → Lexeme) (a : Char) (A : List Char) (k : Kind) : Prop where
  ne_slash : a ≠ '/'
  cuts : ∀ {Y : List Char}, Cuts Y → f (A ++ Y) = ⟨k, A.length + 1, true⟩
  hinge : ∃ R c, a :: A = R ++ [c] ∧ isHinge c = true

namespace Lexeme.Lasts

variable {a : Char} {A Y : List Char} {k : Kind}

theorem punctuation (h : punctuation? a = some k) : Lasts (fun _ => single k) a [] k := by
  refine ⟨?_, fun _ => rfl, [], a, rfl, ?_⟩
  · rintro rfl
    simp [punctuation?] at h
  · exact isHinge_of (p := fun c => (punctuation? c).isSome) (by decide) (by simp [h])

theorem backticked (h : backticked (A ++ Y) = ⟨k, A.length + 1, true⟩) :
    Lasts Lexeme.backticked '\x60' A k := by
  obtain ⟨B, hA, hall⟩ := backticked_closed h
  exact ⟨by decide, fun _ => hall _, '\x60' :: B, '\x60', by rw [hA]; rfl, by decide⟩

theorem digit (h : a.isDigit = true) (hlen : Literal.numberLength a (A ++ Y) = A.length) :
    Lasts (fun cs => ⟨.numericLiteral, Literal.numberLength a cs + 1, true⟩) a A
      .numericLiteral := by
  refine ⟨?_, ?_, ?_⟩
  · rintro rfl
    exact absurd h (by decide)
  · intro Y' hcut
    rw [Literal.numberLength_cut hlen hcut]
  · by_cases hA : A = []
    · subst hA
      exact ⟨[], a, rfl, isHinge_of_isNamePart (Lexeme.isNamePart_of_isDigit h)⟩
    · obtain ⟨R, c, hR, hc⟩ := Literal.exists_hinge_of_numberLength hlen hA
      exact ⟨a :: R, c, by rw [hR]; rfl, hc⟩

theorem name (h : isNameStart a = true) (hword : word a (A ++ Y) = ⟨k, A.length + 1, true⟩) :
    Lasts (word a) a A k := by
  simp only [word, List.length_cons, Lexeme.mk.injEq, Nat.add_right_cancel_iff,
    and_true] at hword
  obtain ⟨hkind, hlen⟩ := hword
  have hall := all_of_length_takeWhile hlen
  have htake : ∀ {Y' : List Char}, Y'.takeWhile isNamePart = [] →
      (A ++ Y').takeWhile isNamePart = A := by
    intro Y' hY'
    rw [List.takeWhile_append_of_pos hall, hY', List.append_nil]
  have hwhole : (A ++ Y).takeWhile isNamePart = A := by
    rw [List.takeWhile_append_of_pos hall, List.length_append] at hlen
    exact htake (List.length_eq_zero_iff.mp (by omega))
  rw [hwhole] at hkind
  refine ⟨?_, ?_, ?_⟩
  · rintro rfl
    exact absurd h (by decide)
  · intro Y' hcut
    rw [word, htake hcut.takeWhile_eq, hkind, List.length_cons]
  · have hparts : ∀ c ∈ a :: A, isNamePart c = true :=
      List.forall_mem_cons.mpr ⟨Lexeme.isNamePart_of_isNameStart h, hall⟩
    refine ⟨_, _, (List.dropLast_concat_getLast (List.cons_ne_nil a A)).symm, ?_⟩
    exact isHinge_of_isNamePart (hparts _ (List.getLast_mem _))

end Lexeme.Lasts

/-- Kinds of tokens that end a type, or stand in one, are read by the forms of
punctuation, numbers and names only. -/
theorem Lexeme.Form.lasts {f : List Char → Lexeme} {a : Char} {A Y : List Char} {k : Kind}
    (hform : Form a f) (hread : f (A ++ Y) = ⟨k, A.length + 1, true⟩) (hk : isSolid k = true) :
    Lasts f a A k := by
  -- a token of another kind is not read
  have hother {l : Lexeme} (hl : isSolid l.kind = false) (h : l = ⟨k, A.length + 1, true⟩) :
      False := by
    rw [h, hk] at hl
    contradiction
  cases hform with
  | punctuation hpunct =>
    simp only [single, Lexeme.mk.injEq, and_true] at hread
    obtain ⟨rfl, hlen⟩ := hread
    have hA : A = [] := List.length_eq_zero_iff.mp (by omega)
    rw [hA]
    exact .punctuation hpunct
  | hyphen => exact (hother (by dsimp only; split <;> rfl) hread).elim
  | point => exact (hother (by dsimp only; split <;> rfl) hread).elim
  | quote => exact (hother rfl hread).elim
  | pound =>
    refine (hother ?_ hread).elim
    rcases kind_pound (A ++ Y) with h | h | h | h <;> rw [h] <;> rfl
  | backtick => exact .backticked hread
  | digit hdigit =>
    simp only [Lexeme.mk.injEq, Nat.add_right_cancel_iff, and_true] at hread
    obtain ⟨rfl, hlen⟩ := hread
    exact .digit hdigit hlen
  | sign => exact (hother rfl hread).elim
  | name hname => exact .name hname hread
  | unknown => exact (hother rfl hread).elim

/-- Solid kinds of tokens are read in front of every cut, and end with a
hinge. -/
theorem TextReads.solid {k : Kind} {text : String} {Y : List Char} (h : TextReads k text Y)
    (hk : isSolid k = true) :
    (∀ {Y' : List Char}, Cuts Y' → TextReads k text Y') ∧
      ∃ R c, text.toList = R ++ [c] ∧ isHinge c = true := by
  obtain ⟨a, A, htext, hgap, hscan⟩ := h
  obtain ⟨f, hform, hf⟩ := Lexeme.exists_form a
  rw [hf] at hscan
  have hlasts := hform.lasts hscan hk
  refine ⟨?_, by rw [htext]; exact hlasts.hinge⟩
  intro Y' hcut
  exact ⟨a, A, htext, scan?_of_ne_slash hgap hlasts.ne_slash _, by rw [hf]; exact hlasts.cuts hcut⟩

/-! ## Firm tokens -/

/-- The token is read in front of anything. -/
def Firm (k : Kind) (text : String) : Prop := ∀ Y, TextReads k text Y

/-- The character that is a token of a punctuation kind. -/
def punctuationChar : Kind → Char
  | .opening b => b.opener
  | .closing b => b.closer
  | .lessThan => '<'
  | .greaterThan => '>'
  | .comma => ','
  | .colon => ':'
  | .semicolon => ';'
  | .question => '?'
  | .exclamation => '!'
  | .equals => '='
  | .ampersand => '&'
  | _ => '@'

theorem eq_punctuationChar {a : Char} {k : Kind} (h : Lexeme.punctuation? a = some k) :
    a = punctuationChar k := by
  unfold Lexeme.punctuation? at h
  split at h <;> cases h <;> rfl

theorem firm_punctuation {a : Char} {k : Kind} (h : Lexeme.punctuation? a = some k) :
    Firm k (String.singleton a) := by
  intro Y
  refine ⟨a, [], by simp, ?_, ?_⟩
  · have ha := eq_punctuationChar h
    unfold Lexeme.punctuation? at h
    split at h <;> cases h <;> rfl
  · exact Lexeme.scan_punctuation h Y

/-- Kinds of punctuation. -/
def isPunctuation : Kind → Bool
  | .opening _ | .closing _ | .lessThan | .greaterThan | .comma | .colon | .semicolon
  | .question | .exclamation | .equals | .ampersand | .atSign => true
  | _ => false

/-- Kinds of tokens that are neither punctuation, nor arrows, nor the end of a
text. -/
def isOther : Kind → Bool
  | .arrow | .endOfFile => false
  | k => !isPunctuation k

/-- What a character starts: punctuation, an arrow, or something else. -/
theorem scan_cases (a : Char) (cs : List Char) :
    (∃ k, Lexeme.punctuation? a = some k ∧ Lexeme.scan a cs = .single k) ∨
      (a = '-' ∧ cs.head? = some '>' ∧ Lexeme.scan a cs = ⟨.arrow, 2, true⟩) ∨
      isOther (Lexeme.scan a cs).kind = true := by
  obtain ⟨f, hform, hscan⟩ := Lexeme.exists_form a
  rw [hscan]
  cases hform with
  | punctuation hpunct => exact .inl ⟨_, hpunct, rfl⟩
  | hyphen =>
    by_cases harrow : cs.head? = some '>'
    · exact .inr (.inl ⟨rfl, harrow, if_pos harrow⟩)
    · refine .inr (.inr ?_)
      dsimp only
      rw [if_neg harrow]
      rfl
  | point =>
    refine .inr (.inr ?_)
    dsimp only
    split <;> rfl
  | pound =>
    refine .inr (.inr ?_)
    rcases Lexeme.kind_pound cs with h | h | h | h <;> rw [h] <;> rfl
  | backtick => exact .inr (.inr (by rw [Lexeme.kind_backticked]; rfl))
  | name =>
    refine .inr (.inr ?_)
    simp only [Lexeme.word, Kind.ofWord]
    split <;> rfl
  | quote | digit | sign | unknown => exact .inr (.inr rfl)

theorem isPunctuation_of_punctuation? {a : Char} {k : Kind}
    (h : Lexeme.punctuation? a = some k) : isPunctuation k = true := by
  unfold Lexeme.punctuation? at h
  split at h <;> cases h <;> rfl

/-- Only the end of a text is of its kind. -/
theorem kind_scan_ne (a : Char) (cs : List Char) : (Lexeme.scan a cs).kind ≠ .endOfFile := by
  intro hend
  rcases scan_cases a cs with ⟨k, hk, hscan⟩ | ⟨-, -, hscan⟩ | hother
  · rw [hscan] at hend
    have hpunct := isPunctuation_of_punctuation? hk
    rw [show k = .endOfFile from hend] at hpunct
    contradiction
  · rw [hscan] at hend
    contradiction
  · rw [hend] at hother
    contradiction

/-- A token of a punctuation kind has the text of that kind. -/
theorem TextReads.text_eq {k : Kind} {Y : List Char} {text : String}
    (h : TextReads k text Y) (hk : isPunctuation k = true) :
    text = String.singleton (punctuationChar k) := by
  obtain ⟨a, A, htext, -, hscan⟩ := h
  rcases scan_cases a (A ++ Y) with ⟨kind, hpunct, hsingle⟩ | ⟨-, -, harrow⟩ | hother
  · rw [hsingle] at hscan
    simp only [Lexeme.single, Lexeme.mk.injEq, and_true] at hscan
    obtain ⟨rfl, hlen⟩ := hscan
    have hA : A = [] := List.length_eq_zero_iff.mp (by omega)
    rw [← String.toList_inj, htext, hA, ← eq_punctuationChar hpunct]
    simp
  · rw [harrow] at hscan
    have hkind : Kind.arrow = k := congrArg Lexeme.kind hscan
    rw [← hkind] at hk
    contradiction
  · rw [hscan] at hother
    unfold isOther at hother
    split at hother <;> simp_all

/-- An arrow has the text of an arrow. -/
theorem TextReads.text_eq_arrow {Y : List Char} {text : String} (h : TextReads .arrow text Y) :
    text = "->" := by
  obtain ⟨a, A, htext, -, hscan⟩ := h
  rcases scan_cases a (A ++ Y) with ⟨kind, hpunct, hsingle⟩ | ⟨rfl, hhead, harrow⟩ | hother
  · rw [hsingle] at hscan
    have hkind : kind = .arrow := congrArg Lexeme.kind hscan
    have hbad := isPunctuation_of_punctuation? hpunct
    rw [hkind] at hbad
    contradiction
  · rw [harrow] at hscan
    have hlen : A.length = 1 := by simpa using (congrArg Lexeme.length hscan).symm
    obtain ⟨b, rfl⟩ := List.length_eq_one_iff.mp hlen
    have hb : b = '>' := by simpa using hhead
    rw [← String.toList_inj, htext, hb]
    decide
  · rw [hscan] at hother
    contradiction

theorem firm_arrow : Firm .arrow "->" := by
  intro Y
  exact ⟨'-', ['>'], by decide, rfl, Lexeme.scan_hyphen _⟩

theorem firm_ellipsis : Firm .ellipsis "..." := by
  intro Y
  exact ⟨'.', ['.', '.'], by decide, rfl, Lexeme.scan_point _⟩

/-- A qualifier is read in front of a cut. -/
theorem textReads_keyword (q : Qualifier) {Y : List Char} (h : Cuts Y) :
    TextReads .identifier q.keyword Y := by
  have hspace : TextReads .identifier q.keyword [' '] := by
    cases q with
    | any => exact ⟨'a', ['n', 'y'], by decide, by decide, by decide⟩
    | some => exact ⟨'s', ['o', 'm', 'e'], by decide, by decide, by decide⟩
  exact (hspace.solid rfl).1 h

/-! ## The ends of signs -/

/-- The last sign is read in front of the characters `Y`. -/
def ReadsLast (T : List Sign) (Y : List Char) : Prop :=
  ∀ z ∈ T.getLast?, TextReads z.kind z.text Y

/-- The last sign is of a solid kind, and is read somewhere. -/
def SolidEnd (T : List Sign) : Prop :=
  ∀ z ∈ T.getLast?, isSolid z.kind = true ∧ ∃ Y, TextReads z.kind z.text Y

/-- The signs are read wherever the last of them is. -/
def Settled (T : List Sign) : Prop := ∀ Y, ReadsLast T Y → Lexes T Y

theorem SolidEnd.readsLast {T : List Sign} {Y : List Char} (h : SolidEnd T) (hY : Cuts Y) :
    ReadsLast T Y := by
  intro z hz
  obtain ⟨hk, Y₀, hread⟩ := h z hz
  exact (hread.solid hk).1 hY

theorem Lexes.readsLast {T : List Sign} {Y : List Char} (h : Lexes T Y) : ReadsLast T Y := by
  intro z hz
  obtain ⟨B, rfl⟩ := List.getLast?_eq_some_iff.mp hz
  have hlast := (Lexes.append_iff.mp h).2.1.text
  simpa using hlast

theorem ReadsLast.append {A B : List Sign} {Y : List Char} (h : ReadsLast (A ++ B) Y) :
    ReadsLast B Y := by
  intro z hz
  refine h z ?_
  rw [List.getLast?_append, hz]
  rfl

namespace Settled

variable {A B T : List Sign}

theorem nil : Settled [] := fun _ _ => trivial

/-- Signs as they stand in a text, with a solid end. -/
theorem of_lexes {Y : List Char} (h : Lexes T Y) (hsolid : SolidEnd T) : Settled T := by
  intro Y' hlast
  rcases List.eq_nil_or_concat T with rfl | ⟨B, z, rfl⟩
  · trivial
  rw [List.concat_eq_append] at *
  rw [Lexes.append_iff] at h ⊢
  obtain ⟨hk, -⟩ := hsolid z (by simp)
  obtain ⟨R, c, hz, hc⟩ := (h.2.1.text.solid hk).2
  refine ⟨h.1.agree ?_, ⟨h.2.1.gap, ?_⟩, trivial⟩
  · -- the last sign ends with a hinge
    have hchars : [z].flatMap Sign.chars = z.gap.flatMap Trivia.chars ++ R ++ [c] := by
      simp [Sign.chars, hz]
    rw [hchars, List.append_assoc, List.append_assoc _ [c]]
    exact .hinge _ hc Y Y'
  · simpa using hlast z (by simp)

/-- A part with a solid end in front of something that cuts. -/
theorem append (hA : Settled A) (hsolid : SolidEnd A) (hB : Settled B)
    (hcut : ∀ Y, Cuts (B.flatMap Sign.chars ++ Y)) : Settled (A ++ B) := by
  intro Y hlast
  rw [Lexes.append_iff]
  exact ⟨hA _ (hsolid.readsLast (hcut Y)), hB Y hlast.append⟩

/-- A firm sign in front of anything. -/
theorem cons_firm {x : Sign} (hgap : Trivia.IsGap x.gap) (hx : Firm x.kind x.text)
    (hB : Settled B) : Settled (x :: B) := by
  intro Y hlast
  exact ⟨⟨hgap, hx _⟩, hB Y (ReadsLast.append (A := [x]) hlast)⟩

end Settled

/-! ## The gap in front -/

/-- The signs behind another gap. -/
def regap (g : List Trivia) : List Sign → List Sign
  | [] => []
  | x :: T => { x with gap := g } :: T

/-- The kind and the text of the last sign. -/
def lastOf (T : List Sign) : Option (Kind × String) := T.getLast?.map fun z => (z.kind, z.text)

section

variable {T A B : List Sign} {g : List Trivia}

@[simp] theorem written_regap : Sign.written (regap g T) = Sign.written T := by
  cases T <;> rfl

theorem chars_regap (h : T ≠ []) :
    (regap g T).flatMap Sign.chars = g.flatMap Trivia.chars ++ (Sign.written T).toList := by
  cases T with
  | nil => contradiction
  | cons x T => simp [regap, Sign.chars, Sign.written]

theorem regap_append (h : A ≠ []) : regap g (A ++ B) = regap g A ++ B := by
  cases A with
  | nil => contradiction
  | cons x A => rfl

@[simp] theorem regap_eq_nil_iff : regap g T = [] ↔ T = [] := by
  cases T <;> simp [regap]

@[simp] theorem lastOf_regap : lastOf (regap g T) = lastOf T := by
  cases T with
  | nil => rfl
  | cons x T =>
    cases T with
    | nil => rfl
    | cons y T => simp [regap, lastOf, List.getLast?_cons_cons]

@[simp] theorem lastOf_append_cons (z : Sign) : lastOf (A ++ z :: B) = lastOf (z :: B) := by
  simp [lastOf, List.getLast?_append, List.getLast?_cons]

theorem lastOf_append (hB : B ≠ []) : lastOf (A ++ B) = lastOf B := by
  cases B with
  | nil => contradiction
  | cons z B => exact lastOf_append_cons z

theorem readsLast_iff {Y : List Char} :
    ReadsLast T Y ↔ ∀ z ∈ lastOf T, TextReads z.1 z.2 Y := by
  simp [ReadsLast, lastOf]

theorem solidEnd_iff :
    SolidEnd T ↔ ∀ z ∈ lastOf T, isSolid z.1 = true ∧ ∃ Y, TextReads z.1 z.2 Y := by
  simp [SolidEnd, lastOf]

theorem SolidEnd.congr (h : SolidEnd A) (heq : lastOf B = lastOf A) : SolidEnd B := by
  rw [solidEnd_iff] at h ⊢
  rw [heq]
  exact h

theorem ReadsLast.congr {Y : List Char} (h : ReadsLast A Y) (heq : lastOf B = lastOf A) :
    ReadsLast B Y := by
  rw [readsLast_iff] at h ⊢
  rw [heq]
  exact h

/-- The gap in front of settled signs does not matter. -/
theorem Settled.regap (h : Settled T) (hg : Trivia.IsGap g) : Settled (AnySome.regap g T) := by
  intro Y hlast
  cases T with
  | nil => trivial
  | cons x T =>
    obtain ⟨hx, hT⟩ := h Y (hlast.congr (by rw [lastOf_regap]))
    exact ⟨⟨hg, hx.text⟩, hT⟩

end

end AnySome
