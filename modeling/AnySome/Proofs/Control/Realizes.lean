import AnySome.Proofs.Balance.Tidy
import AnySome.Proofs.Control.Runs

/-!
# Parsers and their scripts

A parser is *realized* by a script if, from every cursor at which a given kind
of token stands, the script takes the reader to the parser's result and cursor.
Sequences and branches are realized by their parts. A loop is, if each round
that is to be followed by another consumes something: the guard of the parser's
loop is then never what ends it, and the loop of the script, which has none,
ends too.

## Main results

* `Script.Realizes.bind`, `Script.Realizes.ite`, … — sequences and branches.
* `Script.Realizes.collect`, `Script.Realizes.iterate` — loops.
* `Script.Moves` — which rounds consume something.
-/

namespace AnySome

open Cursor AnySome.Parser AnySome.Declaration

/-! ## Texts that end once -/

/-- The end of the text stands behind the tokens to come, and nowhere else. -/
structure Cursor.Plain (c : Cursor) : Prop where
  kinds : ∀ t ∈ c.pending, t.kind ≠ .endOfFile
  final : c.final.kind = .endOfFile

namespace Cursor.Plain

variable {c : Cursor}

theorem kind_eq (h : c.Plain) : c.current.kind = c.kind := by
  cases hp : c.pending with
  | nil => simp [current, Cursor.kind, hp, h.final]
  | cons t ts => simp [current, Cursor.kind, hp]

theorem kind_eq_end_iff (h : c.Plain) : c.kind = .endOfFile ↔ c.pending = [] := by
  constructor
  · intro hkind
    cases hp : c.pending with
    | nil => rfl
    | cons t ts =>
      exact absurd ((kind_of_cons hp).symm.trans hkind) (h.kinds t (by simp [hp]))
  · exact kind_of_pending_nil

theorem leads {e : Cursor} (h : c.Plain) (hleads : c.Leads e) : e.Plain := by
  obtain ⟨ts, hts, _⟩ := hleads.exists_consumed
  refine ⟨fun t ht => h.kinds t ?_, ?_⟩
  · rw [hts]
    exact List.mem_append_right ts ht
  · rw [hleads.final_eq]
    exact h.final

end Cursor.Plain

/-- Where something else than the end stands, there are tokens to come. -/
theorem Cursor.pending_ne_nil {c : Cursor} (h : c.kind ≠ .endOfFile) : c.pending ≠ [] :=
  fun hnil => h (kind_of_pending_nil hnil)

/-- What comes behind a step is less than what came before it. -/
theorem Cursor.remaining_lt_of_leads {c e : Cursor} (hc : c.kind ≠ .endOfFile)
    (h : c.advance.Leads e) : e.remaining < c.remaining := by
  have hle := h.remaining_le
  have hpos := length_pos_of_kind_ne hc
  rw [remaining_eq, remaining_eq, length_advance] at hle
  rw [remaining_eq, remaining_eq]
  omega

namespace Script

variable {α β : Type} {d : Depths} {C C' : Kind → Prop}

/-! ## Parsers that move -/

/-- Where a token of a given kind stands, the parser consumes something if its
result is good. -/
def Moves (C : Kind → Prop) (good : α → Prop) (p : Parser α) : Prop :=
  ∀ ⦃c : Cursor⦄, c.Plain → C c.kind → good (p c).1 → (p c).2.remaining < c.remaining

namespace Moves

variable {good : α → Prop}

theorem weaken {p : Parser α} (h : Moves C good p) (hC : ∀ k, C' k → C k) : Moves C' good p :=
  fun _ hc hk => h hc (hC _ hk)

/-- A result that is not good need not come from anywhere else. -/
theorem pure {a : α} (h : ¬good a) : Moves C good (Pure.pure a) := fun _ _ _ ha => absurd ha h

theorem none : Moves C (·.isSome = true) (Pure.pure none : Parser (Option α)) :=
  pure (by simp)

/-- A step where there is a token. -/
theorem advance : Moves (· ≠ .endOfFile) (fun _ => True) Parser.advance :=
  fun _ _ hk _ => remaining_lt_of_leads hk .refl

/-- A move that begins with a step. -/
theorem move {f : Cursor → Cursor} (hf : ∀ c : Cursor, c.advance.Leads (f c)) :
    Moves (· ≠ .endOfFile) (fun _ => True) (Parser.move f) :=
  fun c _ hk _ => remaining_lt_of_leads hk (hf c)

theorem written {p : Parser Unit} (h : Moves C (fun _ => True) p) :
    Moves C (fun _ => True) (Parser.written p) :=
  fun _ hc hk _ => h hc hk trivial

/-- If the first part of a sequence consumes something, all of it does. -/
theorem bind {p : Parser β} {k : β → Parser α} [∀ b, Steady (k b)]
    (hp : Moves C (fun _ => True) p) : Moves C good (p >>= k) :=
  fun c hc hk _ => Nat.lt_of_le_of_lt
    (Steady.leads (p := k (p c).1) (p c).2).remaining_le (hp hc hk trivial)

/-- If the last part of a sequence consumes something, all of it does: what
comes before it consumes something too, or leaves the reader where it is. -/
theorem bind_after {p : Parser β} {k : β → Parser α} [Steady p] [∀ b, Steady (k b)]
    (hk : ∀ b, Moves C good (k b)) : Moves C good (p >>= k) := by
  intro c hc hkind hgood
  have hfirst := Steady.leads (p := p) c
  have hrest := Steady.leads (p := k (p c).1) (p c).2
  obtain ⟨ts, hts, _⟩ := hfirst.exists_consumed
  cases ts with
  | nil =>
    have hsame : (p c).2.kind = c.kind := by
      simp only [Cursor.kind, show (p c).2.pending = c.pending from hts.symm]
    have hlength : (p c).2.remaining = c.remaining := by
      rw [remaining_eq, remaining_eq, hts, List.nil_append]
    rw [← hlength]
    exact hk _ (hc.leads hfirst) (hsame ▸ hkind) hgood
  | cons t ts =>
    have hlength := congrArg List.length hts
    rw [List.length_append, List.length_cons] at hlength
    refine Nat.lt_of_le_of_lt hrest.remaining_le ?_
    rw [remaining_eq, remaining_eq]
    omega

/-- A step at a token that is not the end. -/
theorem advance_bind {a : Kind} {k : Unit → Parser α} [∀ u, Steady (k u)]
    (ha : a ≠ .endOfFile) : Moves (· = a) good (Parser.advance >>= k) :=
  bind (advance.weaken (by rintro _ rfl; exact ha))

theorem ite {R : Prop} [Decidable R] {p q : Parser α} (hp : R → Moves C good p)
    (hq : ¬R → Moves C good q) : Moves C good (if R then p else q) := by
  split
  next h => exact hp h
  next h => exact hq h

theorem bind_get {k : Cursor → Parser α}
    (h : ∀ c : Cursor, C c.kind → Moves (· = c.kind) good (k c)) :
    Moves C good (MonadState.get >>= k) :=
  fun c hc hk => h c hk hc rfl

theorem bind_current {k : Token → Parser α}
    (h : ∀ t : Token, C t.kind → Moves (· = t.kind) good (k t)) :
    Moves C good (Parser.current >>= k) :=
  fun c hc hk => h c.current (by rwa [hc.kind_eq]) hc hc.kind_eq.symm

theorem bind_kind {k : Kind → Parser α} (h : ∀ a, C a → Moves (· = a) good (k a)) :
    Moves C good (Parser.kind >>= k) :=
  fun c hc hk => h c.kind hk hc rfl

theorem bind_isSeparated {k : Bool → Parser α} (h : ∀ b, Moves C good (k b)) :
    Moves C good (Parser.isSeparated >>= k) :=
  fun c hc hk => h c.current.isSeparated hc hk

theorem bind_isAt {a : Kind} {k : Bool → Parser α} (htrue : Moves (· = a) good (k true))
    (hfalse : Moves C good (k false)) : Moves C good (Parser.isAt a >>= k) := by
  intro c hc hk hgood
  rw [Parser.bind_isAt] at hgood ⊢
  by_cases ha : c.kind = a
  · rw [beq_iff_eq.mpr ha] at hgood ⊢
    exact htrue hc ha hgood
  · rw [beq_false_of_ne ha] at hgood ⊢
    exact hfalse hc hk hgood

theorem bind_isAtName {k : Bool → Parser α} (htrue : Moves (·.isName = true) good (k true))
    (hfalse : Moves C good (k false)) : Moves C good (Parser.isAtName >>= k) := by
  intro c hc hk hgood
  rw [Parser.bind_isAtName] at hgood ⊢
  cases hname : c.kind.isName with
  | true =>
    rw [hname] at hgood
    exact htrue hc hname hgood
  | false =>
    rw [hname] at hgood
    exact hfalse hc hk hgood

/-- The branches of a question for the current token. -/
theorem ite_isAt {a : Kind} {p q : Parser α} (hp : Moves (· = a) good p)
    (hq : Moves C good q) : Moves C good (Parser.isAt a >>= fun b => if b then p else q) :=
  bind_isAt hp hq

theorem ite_isAtName {p q : Parser α} (hp : Moves (·.isName = true) good p)
    (hq : Moves C good q) : Moves C good (Parser.isAtName >>= fun b => if b then p else q) :=
  bind_isAtName hp hq

end Moves

/-! ## Parsers that are realized -/

/-- From every cursor at which a token of the given kind stands, the script
takes the reader to the parser's result and cursor. -/
def Realizes (d : Depths) (C : Kind → Prop) (P : Script α) (p : Parser α) : Prop :=
  ∀ ⦃c : Cursor⦄, c.Plain → C c.kind → Takes d P c (p c).1 (p c).2

/-- The script answers the question, and comes back. -/
def Answers (d : Depths) (C : Kind → Prop) (A : Script α) (f : Cursor → α) : Prop :=
  ∀ ⦃c : Cursor⦄, c.Plain → C c.kind → Takes d A c (f c) c

theorem Takes.plain {P : Script α} {c e : Cursor} {a : α} (h : Takes d P c a e) (hc : c.Plain) :
    e.Plain := by
  obtain ⟨ts, hts, hruns⟩ := h
  refine ⟨fun t ht => hc.kinds t ?_, ?_⟩
  · rw [hts]
    exact List.mem_append_right ts ht
  · rw [show e.final = c.final from (hruns []).final_eq]
    exact hc.final

namespace Realizes

variable {P : Script α} {p : Parser α}

theorem weaken (h : Realizes d C P p) (hC : ∀ k, C' k → C k) : Realizes d C' P p :=
  fun _ hc hk => h hc (hC _ hk)

theorem at_any (h : Realizes d anywhere P p) : Realizes d C P p := h.weaken fun _ _ => trivial

theorem pure {a : α} : Realizes d C (Pure.pure a) (Pure.pure a) := fun c _ _ => .pure a c

theorem bind {K : α → Script β} {k : α → Parser β} (hP : Realizes d C P p)
    (hK : ∀ a, Realizes d anywhere (K a) (k a)) : Realizes d C (P >>= K) (p >>= k) := by
  intro c hc hk
  have hfirst := hP hc hk
  exact hfirst.bind (hK (p c).1 (hfirst.plain hc) trivial)

theorem ite {R : Prop} [Decidable R] {Q : Script α} {q : Parser α}
    (hP : R → Realizes d C P p) (hQ : ¬R → Realizes d C Q q) :
    Realizes d C (if R then P else Q) (if R then p else q) := by
  split
  next h => exact hP h
  next h => exact hQ h

/-! ## Questions -/

theorem bind_asks {A : Script β} {f : Cursor → β} {K : β → Script α} {k : Cursor → Parser α}
    (hA : Answers d C A f)
    (hK : ∀ c : Cursor, C c.kind → Realizes d (· = c.kind) (K (f c)) (k c)) :
    Realizes d C (A >>= K) (MonadState.get >>= k) :=
  fun c hc hk => (hA hc hk).bind (hK c hk hc rfl)

theorem bind_look {f : Cursor → β} {K : β → Script α} {k : Cursor → Parser α}
    (hK : ∀ c : Cursor, C c.kind → Realizes d (· = c.kind) (K (f c)) (k c)) :
    Realizes d C (.look f >>= K) (MonadState.get >>= k) :=
  bind_asks (fun c _ _ => .look f c) hK

theorem bind_get {K : Cursor → Script α} {k : Cursor → Parser α}
    (hK : ∀ c : Cursor, C c.kind → Realizes d (· = c.kind) (K c) (k c)) :
    Realizes d C (Script.get >>= K) (MonadState.get >>= k) :=
  bind_look hK

theorem bind_current {K : Token → Script α} {k : Token → Parser α}
    (hK : ∀ t, C t.kind → Realizes d (· = t.kind) (K t) (k t)) :
    Realizes d C (Script.current >>= K) (Parser.current >>= k) :=
  fun c hc hk => .bind_look (hK c.current (by rwa [hc.kind_eq]) hc hc.kind_eq.symm)

theorem bind_kind {K : Kind → Script α} {k : Kind → Parser α}
    (hK : ∀ a, C a → Realizes d (· = a) (K a) (k a)) :
    Realizes d C (Script.kind >>= K) (Parser.kind >>= k) :=
  fun _ hc hk => .bind_look (hK _ hk hc rfl)

theorem bind_isSeparated {K : Bool → Script α} {k : Bool → Parser α}
    (hK : ∀ b, Realizes d C (K b) (k b)) :
    Realizes d C (Script.isSeparated >>= K) (Parser.isSeparated >>= k) :=
  fun _ hc hk => .bind_look (hK _ hc hk)

theorem bind_isAt {a : Kind} {K : Bool → Script α} {k : Bool → Parser α}
    (htrue : Realizes d (· = a) (K true) (k true))
    (hfalse : Realizes d C (K false) (k false)) :
    Realizes d C (Script.isAt a >>= K) (Parser.isAt a >>= k) := by
  intro c hc hk
  apply Takes.bind_look
  rw [Parser.bind_isAt]
  by_cases ha : c.kind = a
  · rw [beq_iff_eq.mpr ha]
    exact htrue hc ha
  · rw [beq_false_of_ne ha]
    exact hfalse hc hk

theorem bind_isAtName {K : Bool → Script α} {k : Bool → Parser α}
    (htrue : Realizes d (·.isName = true) (K true) (k true))
    (hfalse : Realizes d C (K false) (k false)) :
    Realizes d C (Script.isAtName >>= K) (Parser.isAtName >>= k) := by
  intro c hc hk
  apply Takes.bind_look
  rw [Parser.bind_isAtName]
  cases hname : c.kind.isName with
  | true => exact htrue hc hname
  | false => exact hfalse hc hk

/-- The branches of a question for the current token. -/
theorem ite_isAt {a : Kind} {Q : Script α} {q : Parser α} (hP : Realizes d (· = a) P p)
    (hQ : Realizes d C Q q) :
    Realizes d C (Script.isAt a >>= fun b => if b then P else Q)
      (Parser.isAt a >>= fun b => if b then p else q) :=
  bind_isAt hP hQ

theorem ite_isAtName {Q : Script α} {q : Parser α} (hP : Realizes d (·.isName = true) P p)
    (hQ : Realizes d C Q q) :
    Realizes d C (Script.isAtName >>= fun b => if b then P else Q)
      (Parser.isAtName >>= fun b => if b then p else q) :=
  bind_isAtName hP hQ

/-! ## Single steps -/

theorem next : Realizes d (· ≠ .endOfFile) .next Parser.advance :=
  fun _ _ hk => .next (pending_ne_nil hk)

/-- The current token is of a kind that is not the end. -/
theorem next_of {a : Kind} (ha : a ≠ .endOfFile) : Realizes d (· = a) .next Parser.advance :=
  next.weaken fun _ hk => hk ▸ ha

theorem next_name : Realizes d (·.isName = true) .next Parser.advance := by
  apply next.weaken
  rintro k hk rfl
  contradiction

theorem reportHere (fault : Fault) :
    Realizes d C (.reportHere fault) (Parser.reportHere fault) :=
  fun c _ _ => .reportHere fault c

theorem reportDelimiter (start : Nat) (fault : Fault) :
    Realizes d C (.reportDelimiter start fault) (Parser.reportDelimiter start fault) :=
  fun c _ _ => .reportDelimiter start fault c

theorem written {P : Script Unit} {p : Parser Unit} (h : Realizes d C P p) :
    Realizes d C (Script.written P) (Parser.written p) :=
  fun _ hc hk => (h hc hk).written

theorem spanned (h : Realizes d C P p) : Realizes d C (Script.spanned P) (Parser.spanned p) :=
  fun _ hc hk => .bind_look ((h hc hk).bind (.bind_look (.pure _ _)))

theorem spanFrom (start : Nat) :
    Realizes d C (Script.spanFrom start) (Declaration.spanFrom start) :=
  fun c _ _ => .look _ c

theorem close (b : Bracket) (start : Nat) :
    Realizes d C (Script.close b start) (Parser.close b start) := by
  intro c hc _
  apply Takes.bind_look
  unfold Parser.close
  by_cases hk : c.kind = .closing b
  · rw [if_pos hk, beq_iff_eq.mpr hk]
    exact .next (pending_ne_nil (by rw [hk]; simp))
  · rw [if_neg hk, beq_false_of_ne hk]
    exact .reportDelimiter start _ c

/-! ## Loops -/

theorem collect {R : Script (Round α)} {r : Parser (Round α)} (h : Realizes d anywhere R r)
    (hmoves : Moves anywhere (fun o => ∃ a, o = .more a) r) :
    Realizes d C (Script.collect R) (Parser.collect r) := by
  apply at_any
  intro c hc _
  -- The script lists the items in front of those that are still to come.
  suffices hloop : ∀ as : List α, Takes d (Script.loop (Script.collectRound R) as) c
      (as ++ (Parser.collect r c).1) (Parser.collect r c).2 from hloop []
  intro as
  induction hn : c.remaining using Nat.strongRecOn generalizing as c with
  | _ n ih =>
    have hround := h hc trivial
    have hmove := hmoves hc trivial
    cases hr : r c with
    | mk o e =>
    rw [hr] at hround hmove
    cases o with
    | finished =>
      rw [collect_of_finished hr, List.append_nil]
      exact .done (hround.bind (.pure _ _))
    | last a =>
      rw [collect_of_last hr]
      exact .done (hround.bind (.pure _ _))
    | more a =>
      have hless : e.remaining < c.remaining := hmove ⟨a, rfl⟩
      rw [collect_of_more hr hless, ← List.singleton_append, ← List.append_assoc]
      exact .again (hround.bind (.pure _ _))
        (ih _ (hn ▸ hless) (hround.plain hc) trivial (as ++ [a]) rfl)

theorem many {I : Script (Option α)} {item : Parser (Option α)} (h : Realizes d anywhere I item)
    (hmoves : Moves anywhere (·.isSome = true) item) :
    Realizes d C (Script.many I) (Parser.many item) := by
  apply collect
  · apply h.bind
    intro o
    cases o <;> exact pure
  · rintro c hc - ⟨a, ha⟩
    rw [Parser.run_bind] at ha ⊢
    cases hrun : item c with
    | mk o e =>
    have hmove := hmoves hc trivial
    rw [hrun] at hmove ha
    cases o with
    | none => contradiction
    | some b => exact hmove rfl

theorem iterate {R : α → Script (Option α)} {r : α → Parser (Option α)}
    (h : ∀ a, Realizes d anywhere (R a) (r a))
    (hmoves : ∀ a, Moves anywhere (·.isSome = true) (r a)) (a : α) :
    Realizes d C (Script.iterate R a) (Parser.iterate r a) := by
  apply at_any
  intro c hc _
  unfold Script.iterate
  induction hn : c.remaining using Nat.strongRecOn generalizing a c with
  | _ n ih =>
    have hround := h a hc trivial
    have hmove := hmoves a hc trivial
    cases hr : r a c with
    | mk o e =>
    rw [hr] at hround hmove
    cases o with
    | none =>
      rw [iterate_of_none hr]
      exact .done (hround.bind (.pure _ _))
    | some b =>
      rw [iterate_of_some hr (hmove rfl)]
      exact .again (hround.bind (.pure _ _)) (ih _ (hn ▸ hmove rfl) b (hround.plain hc) trivial rfl)

theorem commaSeparated (isOver : Kind → Bool) {I : Script α} {item : Parser α} [Steady item]
    (h : Realizes d anywhere I item) :
    Realizes d C (Script.commaSeparated isOver I) (Parser.commaSeparated isOver item) := by
  apply collect
  · apply bind_kind
    intro k _
    apply ite (fun _ => pure)
    intro _
    refine (at_any h).bind fun a => ?_
    exact bind_isAt ((next_of (by simp)).bind fun _ => pure) pure
  · rintro c - - ⟨a, ha⟩
    rw [Parser.bind_kind] at ha ⊢
    by_cases hover : isOver c.kind = true
    · rw [if_pos hover] at ha
      contradiction
    · rw [if_neg hover, Parser.run_bind, Parser.bind_isAt] at ha ⊢
      by_cases hcomma : (item c).2.kind = .comma
      · rw [beq_iff_eq.mpr hcomma]
        exact remaining_advance_lt (show item c = (_, _) from rfl) hcomma
      · rw [beq_false_of_ne hcomma] at ha
        contradiction

theorem advancing (h : Realizes d C P p) :
    Realizes d C (Script.advancing P) (Declaration.advancing p) := by
  intro c hc hk
  have hfirst := h hc hk
  have hplain := hfirst.plain hc
  refine .bind_look (hfirst.bind (.bind_look ?_))
  rw [show Declaration.advancing p c = ((p c).1,
    if (p c).2.remaining < c.remaining then (p c).2 else (p c).2.advance) from rfl]
  by_cases hless : (p c).2.remaining < c.remaining
  · simp only [id_eq, hless, decide_true, Bool.not_true, Bool.false_and, Bool.false_eq_true,
      if_false, if_true]
    exact .pure _ _
  · simp only [id_eq, hless, decide_false, Bool.not_false, Bool.true_and, if_false]
    by_cases hend : (p c).2.kind = .endOfFile
    · rw [beq_iff_eq.mpr hend, advance_of_pending_nil (hplain.kind_eq_end_iff.mp hend)]
      exact .pure _ _
    · rw [beq_false_of_ne hend]
      exact (Takes.next (pending_ne_nil hend)).bind (.pure _ _)

end Realizes

end Script

end AnySome
