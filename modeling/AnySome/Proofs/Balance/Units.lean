import AnySome.Proofs.TypeGrammar.Shape
import Mathlib.Logic.Function.Iterate

/-!
# One balanced unit

Text that is not modelled is passed over one unit at a time, and every loop
that recovers from a problem rests on where such a unit stops. What does the
passing keeps a stack of the delimiters that are open. What it does is told
here without a stack, by the tokens that are to come.

Tokens are *well nested* if they are put together from units, and a unit is a
token that is no delimiter or a pair of delimiters around well nested tokens.
Where no unit stands at the front, there is one token to blame: a closing
delimiter that fits nothing, or the innermost of the delimiters that are open
at the end of the text. Up to that token nothing closes the first delimiter,
so all that is passed over is a chain of open delimiters, each with well
nested tokens behind it, and the stack is this chain.

## Main results

* `wellNested_iff_balanced` — well nested tokens close what they open, and
  nothing else.
* `unit_or_breaks` — what can stand at the front of some tokens.
* `Cursor.skipBalanced_of_unit`, `Cursor.skipBalanced_of_breaks` — what is
  passed over there.
* `Cursor.skipBalanced_takes_one_unit` — the three cases together.
-/

namespace AnySome

/-! ## Units -/

/-- The tokens are the two delimiters of a pair. -/
def Token.Pairs (opener closer : Token) : Prop :=
  ∃ b, opener.kind = .opening b ∧ closer.kind = .closing b

/-- Units in a row: each delimiter that is opened is closed by the other one of
its pair, and nothing else is closed. -/
inductive WellNested : List Token → Prop where
  | nil : WellNested []
  | plain {t : Token} {ts : List Token} (hplain : isBracket t.kind = false)
      (rest : WellNested ts) : WellNested (t :: ts)
  | group {opener closer : Token} {inner ts : List Token} (pair : opener.Pairs closer)
      (inside : WellNested inner) (rest : WellNested ts) :
      WellNested (opener :: (inner ++ closer :: ts))

/-- A token that is no delimiter, or an opening delimiter through the closing
one of its pair, with well nested tokens between them. -/
inductive BalancedUnit : List Token → Prop where
  | plain {t : Token} (hplain : isBracket t.kind = false) : BalancedUnit [t]
  | group {opener closer : Token} {inner : List Token} (pair : opener.Pairs closer)
      (inside : WellNested inner) : BalancedUnit (opener :: (inner ++ [closer]))

/-- The first token and `innermost` are opening delimiters that the tokens
leave open, and behind `innermost` they leave none open. Whatever is closed is
closed by the other delimiter of its pair. -/
inductive LeftOpen : Token → List Token → Prop where
  | first {opener : Token} {b : Bracket} {ts : List Token} (hopener : opener.kind = .opening b)
      (behind : WellNested ts) : LeftOpen opener (opener :: ts)
  | further {outer opener : Token} {b : Bracket} {front ts : List Token}
      (hfront : LeftOpen outer front) (hopener : opener.kind = .opening b)
      (behind : WellNested ts) : LeftOpen opener (front ++ opener :: ts)

/-- No unit stands at the front of the tokens. The token `culprit` is to blame,
and `rest` is what is left when it has been blamed. -/
inductive Breaks : List Token → Token → List Token → Prop where
  /-- A closing delimiter closes nothing, and is passed over. -/
  | stray {closer : Token} {found : Bracket} {rest : List Token}
      (hcloser : closer.kind = .closing found) : Breaks (closer :: rest) closer rest
  /-- The first closing delimiter that does not fit the innermost delimiter in
  front of it is left where it stands. -/
  | mismatched {innermost closer : Token} {found : Bracket} {front rest : List Token}
      (hopen : LeftOpen innermost front) (hcloser : closer.kind = .closing found)
      (hpair : ¬innermost.Pairs closer) :
      Breaks (front ++ closer :: rest) closer (closer :: rest)
  /-- The text ends inside a delimiter. -/
  | unclosed {innermost : Token} {ts : List Token} (hopen : LeftOpen innermost ts) :
      Breaks ts innermost []

theorem BalancedUnit.append {unit ts : List Token} (h : BalancedUnit unit) (k : WellNested ts) :
    WellNested (unit ++ ts) := by
  cases h with
  | plain hplain => exact .plain hplain k
  | group pair inside =>
    rw [List.cons_append, List.append_assoc]
    exact .group pair inside k

theorem BalancedUnit.length_pos {unit : List Token} (h : BalancedUnit unit) : 0 < unit.length := by
  cases h <;> exact Nat.zero_lt_succ _

theorem WellNested.append {ts us : List Token} (h : WellNested ts) (k : WellNested us) :
    WellNested (ts ++ us) := by
  induction h with
  | nil => exact k
  | plain hplain _ ih => exact .plain hplain ih
  | group pair inside _ _ ih =>
    rw [List.cons_append, List.append_assoc]
    exact .group pair inside ih

theorem LeftOpen.append {innermost : Token} {ts us : List Token} (h : LeftOpen innermost ts)
    (k : WellNested us) : LeftOpen innermost (ts ++ us) := by
  cases h with
  | first hopener behind => exact .first hopener (behind.append k)
  | further hfront hopener behind =>
    rw [List.append_assoc]
    exact .further hfront hopener (behind.append k)

theorem isBracket_cases {k : Kind} (h : isBracket k = true) :
    (∃ b, k = .opening b) ∨ ∃ b, k = .closing b := by
  cases k with
  | opening b => exact .inl ⟨b, rfl⟩
  | closing b => exact .inr ⟨b, rfl⟩
  | _ => contradiction

/-- Behind a chain of open delimiters, the tokens close the first of them, fit
none, or end. The induction is on the tokens behind the chain, which grows by
each of them that does not settle the matter. -/
theorem LeftOpen.unit_or_breaks {innermost : Token} {front : List Token}
    (h : LeftOpen innermost front) (ts : List Token) :
    (∃ unit rest, BalancedUnit unit ∧ front ++ ts = unit ++ rest) ∨
      ∃ culprit rest, Breaks (front ++ ts) culprit rest := by
  induction ts generalizing innermost front with
  | nil =>
    rw [List.append_nil]
    exact .inr ⟨innermost, [], .unclosed h⟩
  | cons t ts ih =>
    have hmove : ∀ {opener : Token}, LeftOpen opener (front ++ [t]) →
        (∃ unit rest, BalancedUnit unit ∧ front ++ t :: ts = unit ++ rest) ∨
          ∃ culprit rest, Breaks (front ++ t :: ts) culprit rest := by
      intro opener hopen
      rw [← List.singleton_append, ← List.append_assoc]
      exact ih hopen
    by_cases hbracket : isBracket t.kind = true
    · rcases isBracket_cases hbracket with ⟨b, hopener⟩ | ⟨b, hcloser⟩
      · exact hmove (.further h hopener .nil)
      · by_cases hpair : innermost.Pairs t
        · -- the innermost delimiter is closed: it is the first, or one less is open
          cases h with
          | first _ behind =>
            exact .inl ⟨_, ts, .group hpair behind, by simp⟩
          | @further outer _ _ front inner hfront _ behind =>
            have hgroup : WellNested (innermost :: (inner ++ [t])) := .group hpair behind .nil
            have hfewer := hfront.append hgroup
            rw [← List.cons_append, ← List.append_assoc] at hfewer
            exact hmove hfewer
        · exact .inr ⟨t, t :: ts, .mismatched h hcloser hpair⟩
    · have hplain : WellNested [t] := .plain (by simpa using hbracket) .nil
      exact hmove (h.append hplain)

/-- At the front of some tokens stands a unit, or one of them is to blame. -/
theorem unit_or_breaks {ts : List Token} (hne : ts ≠ []) :
    (∃ unit rest, BalancedUnit unit ∧ ts = unit ++ rest) ∨
      ∃ culprit rest, Breaks ts culprit rest := by
  obtain ⟨t, rest, rfl⟩ := List.exists_cons_of_ne_nil hne
  by_cases hbracket : isBracket t.kind = true
  · rcases isBracket_cases hbracket with ⟨b, hopener⟩ | ⟨b, hcloser⟩
    · exact (LeftOpen.first hopener .nil).unit_or_breaks rest
    · exact .inr ⟨t, rest, .stray hcloser⟩
  · exact .inl ⟨[t], rest, .plain (by simpa using hbracket), rfl⟩

/-! ## Well nested and balanced -/

theorem WellNested.balanced {ts : List Token} (h : WellNested ts) :
    Balanced (ts.map Token.sign) := by
  induction h with
  | nil => exact .nil
  | plain hplain _ ih => exact .cons hplain ih
  | @group opener closer inner ts pair _ _ ihinside ih =>
    obtain ⟨b, hopener, hcloser⟩ := pair
    have hgroup : Balanced (opener.sign :: (inner.map Token.sign ++ [closer.sign])) :=
      .enclose hopener hcloser ihinside
    simpa using hgroup.append ih

/-- The stack behind a chain of open delimiters has the innermost on top. -/
theorem LeftOpen.nestAll_eq {innermost : Token} {ts : List Token} (h : LeftOpen innermost ts) :
    ∃ b outer, innermost.kind = .opening b ∧
      nestAll [] (ts.map Token.sign) = some (b :: outer) := by
  induction h with
  | @first opener b ts hopener behind =>
    refine ⟨b, [], hopener, ?_⟩
    rw [List.map_cons, nestAll, Token.sign_kind, hopener]
    exact behind.balanced [b]
  | @further outer opener b front ts _ hopener behind ih =>
    obtain ⟨outermost, further, _, hfront⟩ := ih
    refine ⟨b, outermost :: further, hopener, ?_⟩
    rw [List.map_append, nestAll_append, hfront, Option.bind_some, List.map_cons, nestAll,
      Token.sign_kind, hopener]
    exact behind.balanced _

theorem Breaks.not_balanced {ts rest : List Token} {culprit : Token}
    (h : Breaks ts culprit rest) : ¬Balanced (ts.map Token.sign) := by
  intro hts
  have hstack : nestAll [] (ts.map Token.sign) = some [] := hts []
  cases h with
  | stray hcloser => simp [nestAll, nest, hcloser] at hstack
  | @mismatched _ _ found _ _ hopen hcloser hpair =>
    obtain ⟨b, outer, hopener, hfront⟩ := hopen.nestAll_eq
    have hne : ¬b = found := fun heq => hpair ⟨b, hopener, heq ▸ hcloser⟩
    simp [nestAll_append, hfront, nestAll, nest, hcloser, hne] at hstack
  | unclosed hopen =>
    obtain ⟨b, outer, -, hall⟩ := hopen.nestAll_eq
    simp [hall] at hstack

/-- Tokens are well nested if and only if they leave every stack of open
delimiters as it is. -/
theorem wellNested_iff_balanced (ts : List Token) :
    WellNested ts ↔ Balanced (ts.map Token.sign) := by
  refine ⟨WellNested.balanced, fun h => ?_⟩
  induction hn : ts.length using Nat.strongRecOn generalizing ts with
  | _ n ih =>
    by_cases hne : ts = []
    · rw [hne]
      exact .nil
    rcases unit_or_breaks hne with ⟨unit, rest, hunit, rfl⟩ | ⟨culprit, rest, hbreaks⟩
    · have hfirst : Balanced (unit.map Token.sign) := by
        simpa using (hunit.append .nil).balanced
      have hrest : Balanced (rest.map Token.sign) := by
        intro o
        have hall := h o
        rwa [List.map_append, nestAll_append, hfirst o, Option.bind_some] at hall
      refine hunit.append (ih rest.length ?_ rest hrest rfl)
      have hpos := hunit.length_pos
      rw [List.length_append] at hn
      omega
    · exact absurd h hbreaks.not_balanced

/-! ## Passing over a unit -/

/-- The problem is about a delimiter without its other half. -/
def Fault.concernsDelimiter : Fault → Bool
  | .mismatched _ _ | .stray _ | .unclosed _ | .unmatched _ => true
  | _ => false

theorem Fault.concernsDelimiter_ofUnterminated (k : Kind) :
    (ofUnterminated k).concernsDelimiter = false := by
  cases k <;> rfl

namespace Cursor

variable {c : Cursor} {opened : List (Bracket × Nat)} {ts rest : List Token}

/-- The findings that are about delimiters. -/
def delimiterFindings (c : Cursor) : List Finding :=
  c.findings.filter fun f => f.fault.concernsDelimiter

theorem delimiterFindings_checkTerminated (c : Cursor) :
    c.checkTerminated.delimiterFindings = c.delimiterFindings := by
  unfold checkTerminated
  split
  · unfold delimiterFindings reportHere report
    split
    · rfl
    · simp [Fault.concernsDelimiter_ofUnterminated]
  · rfl

theorem delimiterFindings_advance (c : Cursor) :
    c.advance.delimiterFindings = c.delimiterFindings := by
  unfold advance
  split
  · rfl
  · exact delimiterFindings_checkTerminated _

theorem delimiterFindings_advance_iterate (c : Cursor) (n : Nat) :
    (advance^[n] c).delimiterFindings = c.delimiterFindings := by
  induction n generalizing c with
  | zero => rfl
  | succ n ih => rw [Function.iterate_succ_apply, ih, delimiterFindings_advance]

theorem nesting_of_plain {t : Token} (h : isBracket t.kind = false) :
    nesting opened t = .consume opened := by
  unfold nesting
  cases hk : t.kind with
  | opening | closing => rw [hk] at h; contradiction
  | _ => rfl

theorem nesting_of_mismatched {t : Token} {expected found : Bracket} (h : t.kind = .closing found)
    (hne : expected ≠ found) (start : Nat) :
    nesting ((expected, start) :: opened) t = .mismatched expected found := by
  simp only [nesting, h, if_neg hne]

theorem pending_advance_iterate (c : Cursor) (n : Nat) :
    (advance^[n] c).pending = c.pending.drop n := by
  induction n generalizing c with
  | zero => rfl
  | succ n ih => rw [Function.iterate_succ_apply, ih, pending_advance, List.drop_tail]

/-- A token that leaves something open is passed over alone. -/
theorem skipWithin_advance {opened' : List (Bracket × Nat)} {t : Token}
    (hp : c.pending = t :: rest) (h : nesting opened t = .consume opened') (hne : opened' ≠ []) :
    c.skipWithin opened = c.advance.skipWithin opened' := by
  rw [skipWithin_of_nesting hp h, if_neg (by simpa using hne)]

/-- Inside a delimiter, well nested tokens are passed over one by one, and
leave open what was open in front of them. -/
theorem skipWithin_of_wellNested (h : WellNested ts) (hne : opened ≠ [])
    (hp : c.pending = ts ++ rest) :
    c.skipWithin opened = (advance^[ts.length] c).skipWithin opened := by
  induction h generalizing c opened rest with
  | nil => rfl
  | plain hplain _ ih =>
    rw [skipWithin_advance hp (nesting_of_plain hplain) hne,
      ih hne (pending_advance_of_cons hp)]
    rfl
  | @group opener closer inner ts pair inside _ ihinside ih =>
    obtain ⟨b, hopener, hcloser⟩ := pair
    rw [List.cons_append, List.append_assoc] at hp
    have hinner : c.advance.pending = inner ++ (closer :: (ts ++ rest)) :=
      pending_advance_of_cons hp
    have hcloserAt : (advance^[inner.length] c.advance).pending = closer :: (ts ++ rest) := by
      rw [pending_advance_iterate, hinner, List.drop_left]
    rw [skipWithin_advance hp (nesting_of_opening hopener) (List.cons_ne_nil _ _),
      ihinside (List.cons_ne_nil _ _) hinner,
      skipWithin_advance hcloserAt (nesting_of_closing hcloser _) hne,
      ih hne (pending_advance_of_cons hcloserAt)]
    rw [List.length_cons, Function.iterate_succ_apply, List.length_append, List.length_cons,
      Nat.add_comm, Function.iterate_add_apply, Function.iterate_succ_apply]

/-- The same behind an opening delimiter, which is left open with what was
open in front of it. -/
theorem skipWithin_of_opening {opener : Token} {b : Bracket} (hopener : opener.kind = .opening b)
    (h : WellNested ts) (hp : c.pending = opener :: (ts ++ rest)) :
    c.skipWithin opened =
      (advance^[ts.length + 1] c).skipWithin ((b, opener.start) :: opened) := by
  have hbehind : c.advance.pending = ts ++ rest := pending_advance_of_cons hp
  rw [skipWithin_advance hp (nesting_of_opening hopener) (List.cons_ne_nil _ _),
    skipWithin_of_wellNested h (List.cons_ne_nil _ _) hbehind]
  rfl

/-- A unit is passed over token by token, and nothing else. -/
theorem skipBalanced_of_unit (h : BalancedUnit ts) (hp : c.pending = ts ++ rest) :
    c.skipBalanced = advance^[ts.length] c := by
  cases h with
  | plain hplain => exact skipWithin_of_nesting hp (nesting_of_plain hplain)
  | @group opener closer inner pair inside =>
    obtain ⟨b, hopener, hcloser⟩ := pair
    rw [List.cons_append, List.append_assoc] at hp
    have hcloserAt : (advance^[inner.length + 1] c).pending = closer :: rest := by
      rw [pending_advance_iterate, hp, List.drop_succ_cons, List.drop_left]
      rfl
    rw [skipBalanced, skipWithin_of_opening hopener inside hp,
      skipWithin_of_nesting hcloserAt (nesting_of_closing hcloser _)]
    rw [List.length_cons, List.length_append, List.length_singleton,
      Function.iterate_succ_apply' advance (inner.length + 1)]
    rfl

/-- Passing over a chain of open delimiters leaves all of them open. -/
theorem skipBalanced_of_leftOpen {innermost : Token} (h : LeftOpen innermost ts)
    (hp : c.pending = ts ++ rest) : ∃ b outer, innermost.kind = .opening b ∧
      c.skipBalanced = (advance^[ts.length] c).skipWithin ((b, innermost.start) :: outer) := by
  induction h generalizing rest with
  | first hopener behind => exact ⟨_, [], hopener, skipWithin_of_opening hopener behind hp⟩
  | @further outer opener b front ts _ hopener behind ih =>
    rw [List.append_assoc, List.cons_append] at hp
    obtain ⟨outermost, further, _, hfront⟩ := ih hp
    have hopenerAt : (advance^[front.length] c).pending = opener :: (ts ++ rest) := by
      rw [pending_advance_iterate, hp, List.drop_left]
    refine ⟨b, (outermost, outer.start) :: further, hopener, ?_⟩
    rw [hfront, skipWithin_of_opening hopener behind hopenerAt, ← Function.iterate_add_apply,
      List.length_append, List.length_cons, Nat.add_comm]

theorem marks_reportHere {t : Token} (hp : c.pending = t :: rest) (fault : Fault) :
    (c.reportHere fault).Marks t := by
  rw [← current_of_cons hp]
  exact marks_report _ _ _ _

/-- Where no unit stands at the front, the token to blame is marked. -/
theorem skipBalanced_of_breaks {culprit : Token} (h : Breaks ts culprit rest)
    (hp : c.pending = ts) : c.skipBalanced.pending = rest ∧ c.skipBalanced.Marks culprit := by
  cases h with
  | @stray _ found _ hcloser =>
    have hstray : nesting [] culprit = .stray found := by simp only [nesting, hcloser]
    rw [skipBalanced, skipWithin_of_stray hp hstray]
    refine ⟨?_, (marks_reportHere hp _).leads Leads.refl.advance⟩
    rw [pending_advance, pending_reportHere, hp]
    rfl
  | @mismatched innermost _ found front rest hopen hcloser hpair =>
    obtain ⟨expected, outer, hopener, hskip⟩ := skipBalanced_of_leftOpen hopen hp
    have hne : expected ≠ found := by
      rintro rfl
      exact hpair ⟨expected, hopener, hcloser⟩
    have hcloserAt : (advance^[front.length] c).pending = culprit :: rest := by
      rw [pending_advance_iterate, hp, List.drop_left]
    rw [hskip, skipWithin_of_mismatched hcloserAt (nesting_of_mismatched hcloser hne _)]
    exact ⟨by rw [pending_reportHere, hcloserAt], marks_reportHere hcloserAt _⟩
  | unclosed hopen =>
    rw [← List.append_nil ts] at hp
    obtain ⟨b, outer, -, hskip⟩ := skipBalanced_of_leftOpen hopen hp
    have hend : (advance^[ts.length] c).pending = [] := by
      rw [pending_advance_iterate, hp, List.drop_left]
    rw [hskip, skipWithin_of_nil hend]
    exact ⟨by rw [pending_reportDelimiter, hend], marks_report _ _ _ _⟩

/-- At the end of the text nothing is passed over. Where a unit stands at the
front, it is passed over token by token, and no problem with a delimiter is
noted. Anywhere else a problem is known afterwards at the token to blame. -/
theorem skipBalanced_takes_one_unit (c : Cursor) :
    (c.pending = [] → c.skipBalanced = c) ∧
      (∀ unit rest, BalancedUnit unit → c.pending = unit ++ rest →
        c.skipBalanced = advance^[unit.length] c ∧ c.skipBalanced.pending = rest ∧
          c.skipBalanced.delimiterFindings = c.delimiterFindings) ∧
      (c.pending ≠ [] → (∀ unit rest, BalancedUnit unit → c.pending ≠ unit ++ rest) →
        ∃ culprit rest, Breaks c.pending culprit rest ∧
          c.skipBalanced.pending = rest ∧ c.skipBalanced.Marks culprit) := by
  refine ⟨fun hnil => skipWithin_of_nil hnil, fun unit rest hunit hp => ?_, fun hne hnone => ?_⟩
  · have hskip := skipBalanced_of_unit hunit hp
    refine ⟨hskip, ?_, ?_⟩
    · rw [hskip, pending_advance_iterate, hp, List.drop_left]
    · rw [hskip, delimiterFindings_advance_iterate]
  · rcases unit_or_breaks hne with ⟨unit, rest, hunit, hp⟩ | ⟨culprit, rest, hbreaks⟩
    · exact absurd hp (hnone unit rest hunit)
    · exact ⟨culprit, rest, hbreaks, skipBalanced_of_breaks hbreaks rfl⟩

/-- Nothing is left of an empty text, a string with a delimiter in it is one
token of a unit, and a closing delimiter of the wrong kind is left where it
stands. -/
theorem skipBalanced_takes_one_unit_of_texts :
    ((start (TokenStream.scan "")).pending = [] ∧
      (start (TokenStream.scan "")).skipBalanced = start (TokenStream.scan "")) ∧
    (∃ unit rest, BalancedUnit unit ∧ rest.map Token.text = ["b"] ∧
      (start (TokenStream.scan "([\")\"])b")).pending = unit ++ rest ∧
      (start (TokenStream.scan "([\")\"])b")).skipBalanced.pending = rest ∧
      (start (TokenStream.scan "([\")\"])b")).skipBalanced.delimiterFindings = []) ∧
    (start (TokenStream.scan "(a[b)]")).pending ≠ [] ∧
      (∀ unit rest, BalancedUnit unit →
        (start (TokenStream.scan "(a[b)]")).pending ≠ unit ++ rest) ∧
      ∃ culprit rest, Breaks (start (TokenStream.scan "(a[b)]")).pending culprit rest ∧
        culprit.start = 4 ∧ rest.map Token.text = [")", "]"] ∧
        (start (TokenStream.scan "(a[b)]")).skipBalanced.pending = rest := by
  refine ⟨?_, ?_, ?_⟩
  · have hnil : (start (TokenStream.scan "")).pending = [] := by decide +kernel
    exact ⟨hnil, (skipBalanced_takes_one_unit _).1 hnil⟩
  · have hp : (start (TokenStream.scan "([\")\"])b")).pending =
        [⟨[], .opening .paren, "(", 0, true⟩, ⟨[], .opening .square, "[", 1, true⟩,
          ⟨[], .stringLiteral, "\")\"", 2, true⟩, ⟨[], .closing .square, "]", 5, true⟩,
          ⟨[], .closing .paren, ")", 6, true⟩, ⟨[], .identifier, "b", 7, true⟩] := by
      decide +kernel
    have hunit : BalancedUnit [⟨[], .opening .paren, "(", 0, true⟩,
        ⟨[], .opening .square, "[", 1, true⟩, ⟨[], .stringLiteral, "\")\"", 2, true⟩,
        ⟨[], .closing .square, "]", 5, true⟩, ⟨[], .closing .paren, ")", 6, true⟩] :=
      .group ⟨.paren, rfl, rfl⟩ (.group ⟨.square, rfl, rfl⟩ (.plain rfl .nil) .nil)
    obtain ⟨-, hrest, hfindings⟩ := (skipBalanced_takes_one_unit _).2.1 _ [_] hunit hp
    exact ⟨_, _, hunit, rfl, hp, hrest, hfindings.trans (by decide +kernel)⟩
  · have hfindings : (start (TokenStream.scan "(a[b)]")).skipBalanced.findings =
        [⟨4, 1, .mismatched .square .paren⟩] := by
      decide +kernel
    have hne : (start (TokenStream.scan "(a[b)]")).pending ≠ [] := by decide +kernel
    have hnone : ∀ unit rest, BalancedUnit unit →
        (start (TokenStream.scan "(a[b)]")).pending ≠ unit ++ rest := by
      intro unit rest hunit hp
      -- a unit would have left no finding
      have hsame := ((skipBalanced_takes_one_unit _).2.1 unit rest hunit hp).2.2
      rw [delimiterFindings, hfindings] at hsame
      exact absurd hsame (by decide +kernel)
    obtain ⟨culprit, rest, hbreaks, hrest, f, hf, hstart⟩ :=
      (skipBalanced_takes_one_unit _).2.2 hne hnone
    rw [hfindings, List.mem_singleton] at hf
    refine ⟨hne, hnone, culprit, rest, hbreaks, ?_, ?_, hrest⟩
    · rw [← hstart, hf]
    · rw [← hrest]
      decide +kernel

end Cursor

end AnySome
