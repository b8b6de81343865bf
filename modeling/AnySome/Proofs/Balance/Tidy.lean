import AnySome.Proofs.Run.Finish
import AnySome.Proofs.Run.Loops
import AnySome.Proofs.Run.Retrace
import AnySome.Proofs.TypeGrammar.Sound

/-!
# What a run without findings does to brackets

A bracket is consumed in one of three ways: inside a unit that is passed over,
inside a type, or as the bracket of a clause or a block whose other bracket is
asked for. In each of them a bracket that does not match is a problem. The
name of an operator function is the exception: every sign up to its parameters
belongs to it, brackets too, and nothing is noted.

So what a run without findings consumes is *tidy*: balanced, once the names of
operator functions are left out. A parser is *neat* if this holds of its runs
from every place at which a given kind of token stands.

## Main results

* `Tidy.append`, `Tidy.enclose` — how tidy signs are put together.
* `Neat.bind`, `Neat.collect`, `Neat.enclosed` — how neat parsers are.
* `Neat.skipUntil`, `Neat.skipGenerics`, … — what is passed over is tidy.
-/

namespace AnySome

open Cursor AnySome.Parser AnySome.Declaration

/-! ## Names of operator functions -/

/-- The name of an operator function is over in front of the sign. -/
def Sign.endsOperatorName (s : Sign) : Bool :=
  match s.kind with
  | .opening .paren | .opening .brace | .endOfFile => true
  | .lessThan => s.isSeparated
  | _ => s.onNewLine

/-- The name of an operator function can start with the sign. -/
def Sign.startsOperatorName (s : Sign) : Bool :=
  !s.kind.isName && s.kind != .opening .paren && s.kind != .opening .brace

/-- The signs are the name of an operator function, if that name is over
behind them. -/
def OperatorName : List Sign → Prop
  | [] => False
  | s :: N => s.startsOperatorName = true ∧ ∀ x ∈ N, x.endsOperatorName = false

/-- All names of operator functions: one behind every `func` that is not in
front of a plain name. -/
def operatorNames : List Sign → List (List Sign)
  | f :: s :: T =>
    if f.kind = .keyword .funcDecl ∧ s.startsOperatorName = true then
      (s :: T.takeWhile fun x => !x.endsOperatorName) :: operatorNames (s :: T)
    else operatorNames (s :: T)
  | _ => []

theorem mem_operatorNames_cons {N T : List Sign} (s : Sign) (h : N ∈ operatorNames T) :
    N ∈ operatorNames (s :: T) := by
  cases T with
  | nil => contradiction
  | cons t T =>
    unfold operatorNames
    split
    · exact List.mem_cons_of_mem _ h
    · exact h

theorem mem_operatorNames_append {N T : List Sign} (S : List Sign) (h : N ∈ operatorNames T) :
    N ∈ operatorNames (S ++ T) := by
  induction S with
  | nil => exact h
  | cons s S ih => exact mem_operatorNames_cons s ih

theorem OperatorName.mem_operatorNames {N : List Sign} (h : OperatorName N) {f e : Sign}
    (hf : f.kind = .keyword .funcDecl) (he : e.endsOperatorName = true) (T : List Sign) :
    N ∈ operatorNames (f :: (N ++ e :: T)) := by
  cases N with
  | nil => exact h.elim
  | cons s N =>
    obtain ⟨hs, hN⟩ := h
    have hname : (N ++ e :: T).takeWhile (fun x => !x.endsOperatorName) = N := by
      rw [List.takeWhile_append_of_pos (by simpa using hN), List.takeWhile_cons, he]
      exact List.append_nil N
    rw [List.cons_append, operatorNames, if_pos ⟨hf, hs⟩, hname]
    exact List.mem_cons_self

/-- The second list is what is left of the first when some names of operator
functions are left out of it. -/
inductive OutsideNames : List Sign → List Sign → Prop
  | nil : OutsideNames [] []
  | keep {T K : List Sign} (s : Sign) (rest : OutsideNames T K) : OutsideNames (s :: T) (s :: K)
  | name {N T K : List Sign} {f e : Sign} (keyword : f.kind = .keyword .funcDecl)
      (operator : OperatorName N) (ends : e.endsOperatorName = true)
      (rest : OutsideNames (e :: T) K) : OutsideNames (f :: (N ++ e :: T)) (f :: K)

/-- Signs that are no brackets are balanced. -/
theorem Balanced.of_free {T : List Sign} (h : ∀ x ∈ T, isBracket x.kind = false) :
    Balanced T := by
  induction T with
  | nil => exact .nil
  | cons s T ih =>
    exact .cons (h s List.mem_cons_self) (ih fun x hx => h x (List.mem_cons_of_mem s hx))

namespace OutsideNames

variable {S T K L : List Sign}

theorem refl (T : List Sign) : OutsideNames T T := by
  induction T with
  | nil => exact .nil
  | cons s T ih => exact .keep s ih

theorem append (h : OutsideNames S K) (k : OutsideNames T L) :
    OutsideNames (S ++ T) (K ++ L) := by
  induction h with
  | nil => exact k
  | keep s _ ih => exact .keep s ih
  | name hf hN he _ ih =>
    rw [List.cons_append, List.append_assoc]
    exact .name hf hN he ih

/-- Names without brackets do not matter to what is open. -/
theorem nestAll_eq (h : OutsideNames T K)
    (hnames : ∀ N ∈ operatorNames T, ∀ x ∈ N, isBracket x.kind = false) (o : List Bracket) :
    nestAll o T = nestAll o K := by
  induction h generalizing o with
  | nil => rfl
  | @keep T K s _ ih =>
    simp only [nestAll]
    congr 1
    funext o'
    apply ih
    exact fun N hN => hnames N (mem_operatorNames_cons s hN)
  | @name N T K f e hf hN he _ ih =>
    have hflat : Balanced N := .of_free (hnames N (hN.mem_operatorNames hf he T))
    rw [nestAll, nestAll]
    congr 1
    funext o'
    rw [nestAll_append, hflat o', Option.bind_some]
    apply ih
    intro M hM
    exact hnames M (mem_operatorNames_cons f (mem_operatorNames_append N hM))

end OutsideNames

/-! ## Tidy signs -/

/-- Outside of the names of operator functions, the signs close what they open
and nothing else. -/
def Tidy (T : List Sign) : Prop := ∃ K, OutsideNames T K ∧ Balanced K

namespace Tidy

variable {S T : List Sign}

theorem of_balanced (h : Balanced T) : Tidy T := ⟨T, .refl T, h⟩

theorem nil : Tidy [] := of_balanced .nil

theorem append (hS : Tidy S) (hT : Tidy T) : Tidy (S ++ T) := by
  obtain ⟨K, hSK, hK⟩ := hS
  obtain ⟨L, hTL, hL⟩ := hT
  exact ⟨K ++ L, hSK.append hTL, hK.append hL⟩

theorem enclose {l r : Sign} {b : Bracket} (hl : l.kind = .opening b) (hr : r.kind = .closing b)
    (hT : Tidy T) : Tidy (l :: (T ++ [r])) := by
  obtain ⟨K, hTK, hK⟩ := hT
  exact ⟨l :: (K ++ [r]), .keep l (hTK.append (.refl [r])), hK.enclose hl hr⟩

/-- The keyword of a function, the name of an operator and what follows it. -/
theorem operator {f e : Sign} {N : List Sign} (hf : f.kind = .keyword .funcDecl)
    (hN : OperatorName N) (he : e.endsOperatorName = true) (hT : Tidy (e :: T)) :
    Tidy (f :: (N ++ e :: T)) := by
  obtain ⟨K, hTK, hK⟩ := hT
  exact ⟨f :: K, .name hf hN he hTK, .cons (by rw [hf]; rfl) hK⟩

end Tidy

/-! ## Tidy runs -/

/-- Where something else than the end stands, there is a token. -/
theorem Cursor.exists_token {c : Cursor} (h : c.kind ≠ .endOfFile) :
    ∃ t, c.pending = t :: c.advance.pending ∧ t.kind = c.kind := by
  cases hp : c.pending with
  | nil => exact absurd (kind_of_pending_nil hp) h
  | cons t ts =>
    refine ⟨t, ?_, (kind_of_cons hp).symm⟩
    rw [pending_advance_of_cons hp]

theorem Cursor.Leads.remaining_le {c d : Cursor} (h : c.Leads d) : d.remaining ≤ c.remaining := by
  obtain ⟨ts, hts, _⟩ := h.exists_consumed
  rw [remaining_eq, remaining_eq, hts, List.length_append]
  omega

/-- What is consumed between the two cursors is tidy. -/
def Passes (c d : Cursor) : Prop :=
  ∃ ts, c.pending = ts ++ d.pending ∧ Tidy (ts.map Token.sign)

namespace Passes

variable {c d e : Cursor}

theorem refl (c : Cursor) : Passes c c := ⟨[], rfl, .nil⟩

theorem trans (h : Passes c d) (k : Passes d e) : Passes c e := by
  obtain ⟨ts, hts, htidy⟩ := h
  obtain ⟨us, hus, hrest⟩ := k
  refine ⟨ts ++ us, ?_, ?_⟩
  · rw [hts, hus, List.append_assoc]
  · rw [List.map_append]
    exact htidy.append hrest

theorem of_signs {fin : Sign} {T U : List Sign} (hleads : c.Leads d) (hc : c.At fin (T ++ U))
    (hd : d.At fin U) (hT : Tidy T) : Passes c d := by
  obtain ⟨ts, hts, _⟩ := hleads.exists_consumed
  refine ⟨ts, hts, ?_⟩
  have hsigns := hc.signs
  rw [hts, List.map_append, hd.signs] at hsigns
  rw [List.append_cancel_right hsigns]
  exact hT

/-- A token that is no bracket. -/
theorem advance (h : isBracket c.kind = false) : Passes c c.advance := by
  cases hp : c.pending with
  | nil =>
    rw [advance_of_pending_nil hp]
    exact refl c
  | cons t ts =>
    rw [kind_of_cons hp] at h
    refine ⟨[t], ?_, .of_balanced (.single h)⟩
    rw [hp, pending_advance_of_cons hp]
    rfl

end Passes

/-! ## Neat parsers -/

/-- Where the kind of the current token has the property, what a run without
findings consumes is tidy. -/
def Neat (P : Kind → Prop) (p : Parser α) : Prop :=
  ∀ ⦃c : Cursor⦄, c.Clean → P c.kind → (p c).2.findings = [] → Passes c (p c).2

/-- No condition on the current token. -/
def anywhere (_ : Kind) : Prop := True

namespace Neat

variable {α β : Type} {P Q : Kind → Prop} {p : Parser α}

theorem weaken (h : Neat P p) (hQ : ∀ k, Q k → P k) : Neat Q p :=
  fun _ hc hk => h hc (hQ _ hk)

theorem at_any (h : Neat anywhere p) : Neat Q p := h.weaken fun _ _ => trivial

theorem pure {a : α} : Neat P (Pure.pure a : Parser α) := fun c _ _ _ => .refl c

theorem bind {k : α → Parser β} [Steady p] [∀ a, Steady (k a)] (hp : Neat P p)
    (hk : ∀ a, Neat anywhere (k a)) : Neat P (p >>= k) := by
  intro c hc hkind hrun
  have hfirst : (p c).2.findings = [] :=
    (Steady.leads (p := k (p c).1) (p c).2).findings_nil hrun
  have hclean : (p c).2.Clean := (Steady.leads c).clean hc hfirst
  exact (hp hc hkind hfirst).trans (hk (p c).1 hclean trivial hrun)

theorem ite {R : Prop} [Decidable R] {q : Parser α} (hp : R → Neat P p) (hq : ¬R → Neat P q) :
    Neat P (if R then p else q) := by
  split
  next h => exact hp h
  next h => exact hq h

theorem bind_get {k : Cursor → Parser α} (hk : ∀ c : Cursor, P c.kind → Neat (· = c.kind) (k c)) :
    Neat P (get >>= k) :=
  fun c hc hkind hrun => hk c hkind hc rfl hrun

/-- Behind a parser that stays where it is, the same is known of the token. -/
theorem bind_stay {k : α → Parser β} (hstay : ∀ c, (p c).2 = c) (hk : ∀ a, Neat P (k a)) :
    Neat P (p >>= k) := by
  intro c hc hkind hrun
  rw [Parser.run_bind, hstay] at hrun ⊢
  exact hk (p c).1 hc hkind hrun

theorem bind_current {k : Token → Parser α} (hk : ∀ t, Neat P (k t)) :
    Neat P (Parser.current >>= k) := bind_stay (fun _ => rfl) hk

/-- The kind of the token is known to what comes next. -/
theorem bind_kind {k : Kind → Parser α} (hk : ∀ a, P a → Neat (· = a) (k a)) :
    Neat P (Parser.kind >>= k) :=
  fun c hc hkind hrun => hk c.kind hkind hc rfl hrun

theorem bind_isAt {a : Kind} {k : Bool → Parser α} (htrue : Neat (· = a) (k true))
    (hfalse : Neat P (k false)) : Neat P (Parser.isAt a >>= k) := by
  intro c hc hkind hrun
  rw [Parser.bind_isAt] at hrun ⊢
  by_cases ha : c.kind = a
  · rw [beq_iff_eq.mpr ha] at hrun ⊢
    exact htrue hc ha hrun
  · rw [beq_false_of_ne ha] at hrun ⊢
    exact hfalse hc hkind hrun

theorem bind_isAtName {k : Bool → Parser α} (htrue : Neat (·.isName = true) (k true))
    (hfalse : Neat P (k false)) : Neat P (Parser.isAtName >>= k) := by
  intro c hc hkind hrun
  rw [Parser.bind_isAtName] at hrun ⊢
  cases hname : c.kind.isName with
  | true =>
    rw [hname] at hrun
    exact htrue hc hname hrun
  | false =>
    rw [hname] at hrun
    exact hfalse hc hkind hrun

/-- The branches of a question for the current token. -/
theorem ite_isAt {a : Kind} {q : Parser α} (hp : Neat (· = a) p) (hq : Neat P q) :
    Neat P (Parser.isAt a >>= fun b => if b then p else q) :=
  bind_isAt hp hq

theorem ite_isAtName {q : Parser α} (hp : Neat (·.isName = true) p) (hq : Neat P q) :
    Neat P (Parser.isAtName >>= fun b => if b then p else q) :=
  bind_isAtName hp hq

/-! ## Findings -/

theorem reportHere {fault : Fault} : Neat P (Parser.reportHere fault) :=
  fun c _ _ hrun => absurd hrun (findings_reportHere_ne_nil fault c)

theorem reportHere_bind {fault : Fault} {k : Unit → Parser α} [∀ a, Steady (k a)] :
    Neat P (Parser.reportHere fault >>= k) := by
  intro c _ _ hrun
  exact absurd ((Steady.leads (p := k ()) (c.reportHere fault)).findings_nil hrun)
    (findings_reportHere_ne_nil fault c)

theorem reportDelimiter_bind {start : Nat} {fault : Fault} {k : Unit → Parser α}
    [∀ a, Steady (k a)] : Neat P (Parser.reportDelimiter start fault >>= k) := by
  intro c _ _ hrun
  exact absurd ((Steady.leads (p := k ()) (c.reportDelimiter start fault)).findings_nil hrun)
    (findings_reportDelimiter_ne_nil start fault c)

/-! ## Single steps -/

theorem advance : Neat (isBracket · = false) Parser.advance :=
  fun _ _ hkind _ => .advance hkind

/-- The current token is of a kind that is no bracket. -/
theorem advance_of {a : Kind} (ha : isBracket a = false) : Neat (· = a) Parser.advance := by
  apply advance.weaken
  rintro _ rfl
  exact ha

theorem advance_name : Neat (·.isName = true) Parser.advance :=
  advance.weaken fun _ hk => isBracket_of_isName hk

theorem written {q : Parser Unit} (h : Neat P q) : Neat P (Parser.written q) :=
  fun _ hc hkind hrun => h hc hkind hrun

theorem spanned (h : Neat P p) : Neat P (Parser.spanned p) :=
  fun _ hc hkind hrun => h hc hkind hrun

theorem spanFrom (start : Nat) : Neat P (spanFrom start) := fun c _ _ _ => .refl c

/-- A clause or a block in brackets, and what stands behind it. -/
theorem enclosed {b : Bracket} {start : Nat} {k : α → Parser β} [Steady p] [∀ a, Steady (k a)]
    (hp : Neat anywhere p) (hk : ∀ a, Neat anywhere (k a)) :
    Neat (· = .opening b) (Parser.advance >>= fun _ => p >>= fun a =>
      Parser.close b start >>= fun _ => k a) := by
  intro c hc hkind hrun
  have hclose : (Parser.close b start (p c.advance).2).2.findings = [] :=
    (Steady.leads (p := k (p c.advance).1) _).findings_nil hrun
  have hinner : (p c.advance).2.findings = [] :=
    (Steady.leads (p := Parser.close b start) _).findings_nil hclose
  have hclean : (p c.advance).2.Clean := (Steady.leads c.advance).clean hc.advance hinner
  have hrest := hk (p c.advance).1 ((Steady.leads (p := Parser.close b start) _).clean hclean hclose)
    trivial hrun
  -- Without findings, the closing bracket is there.
  have hcloser : (p c.advance).2.kind = .closing b := by
    unfold Parser.close at hclose
    split at hclose
    next hk => exact hk
    · exact absurd hclose (findings_reportDelimiter_ne_nil _ _ _)
  have hend : (Parser.close b start (p c.advance).2).2 = (p c.advance).2.advance := by
    unfold Parser.close
    rw [if_pos hcloser]
  refine Passes.trans ?_ hrest
  rw [hend]
  obtain ⟨ts, hts, htidy⟩ := hp hc.advance trivial hinner
  obtain ⟨l, hl, hlkind⟩ := exists_token (show c.kind ≠ _ by rw [hkind]; simp)
  obtain ⟨r, hr, hrkind⟩ := exists_token (show (p c.advance).2.kind ≠ _ by rw [hcloser]; simp)
  refine ⟨l :: (ts ++ [r]), ?_, ?_⟩
  · rw [hl, hts, hr]
    simp
  · rw [List.map_cons, List.map_append]
    refine Tidy.enclose (b := b) ?_ ?_ htidy
    · exact hlkind.trans hkind
    · exact hrkind.trans hcloser

/-! ## Loops -/

/-- A loop of neat rounds is neat. -/
theorem collect {round : Parser (Round α)} [Steady round] (h : Neat anywhere round) :
    Neat P (Parser.collect round) := by
  apply at_any
  intro c hc _ hrun
  induction hn : c.remaining using Nat.strongRecOn generalizing c with
  | _ n ih =>
    have hfirst : (round c).2.findings = [] := (Parser.leads_collect c).findings_nil hrun
    have hclean : (round c).2.Clean := (Steady.leads c).clean hc hfirst
    have hround := h hc trivial hfirst
    cases hr : round c with
    | mk r d =>
    rw [hr] at hclean hround
    cases r with
    | finished =>
      rw [collect_of_finished hr]
      exact hround
    | last a =>
      rw [collect_of_last hr]
      exact hround
    | more a =>
      by_cases hmove : d.remaining < c.remaining
      · rw [collect_of_more hr hmove] at hrun ⊢
        exact hround.trans (ih _ (hn ▸ hmove) hclean trivial hrun rfl)
      · rw [collect_of_stuck hr hmove]
        exact hround

theorem many {item : Parser (Option α)} [Steady item] (h : Neat anywhere item) :
    Neat P (Parser.many item) :=
  collect (h.bind fun _ => pure)

theorem iterate {round : α → Parser (Option α)} [∀ a, Steady (round a)]
    (h : ∀ a, Neat anywhere (round a)) (a : α) : Neat P (Parser.iterate round a) := by
  apply at_any
  intro c hc _ hrun
  induction hn : c.remaining using Nat.strongRecOn generalizing a c with
  | _ n ih =>
    have hfirst : (round a c).2.findings = [] :=
      (Parser.leads_iterate_of_round a c).findings_nil hrun
    have hclean : (round a c).2.Clean := (Steady.leads c).clean hc hfirst
    have hround := h a hc trivial hfirst
    cases hr : round a c with
    | mk o d =>
    rw [hr] at hclean hround
    cases o with
    | none =>
      rw [iterate_of_none hr]
      exact hround
    | some b =>
      by_cases hmove : d.remaining < c.remaining
      · rw [iterate_of_some hr hmove] at hrun ⊢
        exact hround.trans (ih _ (hn ▸ hmove) b hclean trivial hrun rfl)
      · rw [iterate_of_stuck hr hmove]
        exact hround

/-- A token that is consumed because nothing else was is no bracket, if the
parser moves at brackets. -/
theorem advancing [Steady p] (h : Neat anywhere p)
    (hmoves : ∀ ⦃c : Cursor⦄, isBracket c.kind = true → (p c).2.remaining < c.remaining) :
    Neat P (advancing p) := by
  apply at_any
  intro c hc _ hrun
  have hfirst : (p c).2.findings = [] := (Parser.leads_advancing c).findings_nil hrun
  have hpasses := h hc trivial hfirst
  by_cases hmove : (p c).2.remaining < c.remaining
  · rw [show (Declaration.advancing p c).2 = (p c).2 from if_pos hmove]
    exact hpasses
  · rw [show (Declaration.advancing p c).2 = (p c).2.advance from if_neg hmove]
    refine hpasses.trans (.advance ?_)
    obtain ⟨ts, hts, _⟩ := (Steady.leads (p := p) c).exists_consumed
    have hlength := congrArg List.length hts
    rw [List.length_append, ← remaining_eq, ← remaining_eq] at hlength
    have hnone : ts = [] := List.length_eq_zero_iff.mp (by omega)
    have hkind : (p c).2.kind = c.kind := by
      unfold Cursor.kind
      rw [hts, hnone]
      rfl
    rw [hkind, Bool.eq_false_iff]
    exact fun hbracket => hmove (hmoves hbracket)

/-! ## Types -/

theorem ascription : Neat P Declaration.ascription := by
  intro c hc _ hrun
  obtain ⟨T, U, e, hTU, hU, hspells, _⟩ :=
    TypeExpr.sound_of_depth TypeExpr.nestingLimit hc.at hrun
  have hat := hc.at
  rw [hTU] at hat
  exact .of_signs (Steady.leads (p := Declaration.ascription) c) hat hU
    (.of_balanced hspells.shape.balanced)

/-! ## Moves -/

/-- A move is neat if its way is. -/
theorem move {f : Cursor → Cursor}
    (h : ∀ ⦃c : Cursor⦄, c.Clean → P c.kind → (f c).findings = [] → Passes c (f c)) :
    Neat P (Parser.move f) := h

end Neat

namespace Cursor

variable {c : Cursor}

theorem passes_skipBalanced (hc : c.Clean) (h : c.skipBalanced.findings = []) :
    Passes c c.skipBalanced := by
  have hat := hc.at
  rcases skipWithin_sound [] c hat h with ⟨hnil, _, hend⟩ | ⟨T, U, hTU, hU, hcloses⟩
  · rw [hnil] at hat
    exact .of_signs c.leads_skipBalanced (T := []) hat hend .nil
  · rw [hTU] at hat
    exact .of_signs c.leads_skipBalanced hat hU (.of_balanced (.of_closes hcloses))

theorem passes_skipUntil (isOver : Cursor → Bool) (hc : c.Clean)
    (h : (c.skipUntil isOver).findings = []) : Passes c (c.skipUntil isOver) := by
  fun_induction skipUntil isOver c with
  | case1 => exact .refl _
  | case2 => exact .refl _
  | case3 c _ _ ih =>
    have hunit := (leads_skipUntil isOver _).findings_nil h
    exact (passes_skipBalanced hc hunit).trans (ih (c.leads_skipBalanced.clean hc hunit) h)

/-- One unit, and then further units up to a place. -/
theorem passes_skipBalanced_skipUntil (isOver : Cursor → Bool) (hc : c.Clean)
    (h : (c.skipBalanced.skipUntil isOver).findings = []) :
    Passes c (c.skipBalanced.skipUntil isOver) := by
  have hunit := (leads_skipUntil isOver _).findings_nil h
  have hclean := c.leads_skipBalanced.clean hc hunit
  exact (passes_skipBalanced hc hunit).trans (passes_skipUntil isOver hclean h)

theorem passes_skipStatement (hc : c.Clean) (h : c.skipStatement.findings = []) :
    Passes c c.skipStatement := by
  unfold skipStatement at h ⊢
  split at h
  · exact absurd (Leads.refl.advance.findings_nil h) (findings_reportHere_ne_nil _ _)
  · exact .refl c
  · exact passes_skipBalanced_skipUntil _ hc h

theorem passes_skipExpression (oneLine : Bool) (hc : c.Clean)
    (h : (c.skipExpression oneLine).findings = []) : Passes c (c.skipExpression oneLine) := by
  unfold skipExpression at h ⊢
  split at h
  · exact absurd h (findings_reportHere_ne_nil _ _)
  next hover =>
    rw [if_neg hover]
    exact passes_skipBalanced_skipUntil _ hc h

theorem passes_skipAdjacentParen (hc : c.Clean) (h : c.skipAdjacentParen.findings = []) :
    Passes c c.skipAdjacentParen := by
  unfold skipAdjacentParen at h ⊢
  split
  next hparen =>
    rw [if_pos hparen] at h
    exact passes_skipBalanced hc h
  · exact .refl c

/-- A token that is no bracket, and an argument list that belongs to it. -/
theorem passes_advance_skipAdjacentParen (hc : c.Clean) (hkind : isBracket c.kind = false)
    (h : c.advance.skipAdjacentParen.findings = []) :
    Passes c c.advance.skipAdjacentParen :=
  (Passes.advance hkind).trans (passes_skipAdjacentParen hc.advance h)

theorem passes_skipAttribute (hc : c.Clean) (hkind : isBracket c.kind = false)
    (h : c.skipAttribute.findings = []) : Passes c c.skipAttribute := by
  unfold skipAttribute at h ⊢
  dsimp only at h ⊢
  split at h
  next hname =>
    rw [if_pos hname]
    exact (Passes.advance hkind).trans
      (passes_advance_skipAdjacentParen hc.advance (isBracket_of_isName hname) h)
  · exact absurd h (findings_reportHere_ne_nil _ _)

theorem passes_skipGenericWithin (start depth : Nat) (hc : c.Clean)
    (h : (c.skipGenericWithin start depth).findings = []) :
    Passes c (c.skipGenericWithin start depth) := by
  fun_induction skipGenericWithin start depth c with
  | case1 => exact absurd h (findings_reportDelimiter_ne_nil _ _ _)
  | case2 _ _ _ hk ih => exact (Passes.advance (by rw [hk]; rfl)).trans (ih hc.advance h)
  | case3 _ _ _ hk _ => exact .advance (by rw [hk]; rfl)
  | case4 _ _ _ hk _ ih => exact (Passes.advance (by rw [hk]; rfl)).trans (ih hc.advance h)
  | case5 => exact absurd h (findings_reportDelimiter_ne_nil _ _ _)
  | case6 => exact absurd h (findings_reportDelimiter_ne_nil _ _ _)
  | case7 => exact absurd h (findings_reportDelimiter_ne_nil _ _ _)
  | case8 _ c _ _ _ _ _ _ ih =>
    have hunit := (leads_skipGenericWithin start _ _).findings_nil h
    exact (passes_skipBalanced hc hunit).trans (ih (c.leads_skipBalanced.clean hc hunit) h)

theorem passes_skipRequirements (afterComma : Bool) (hc : c.Clean)
    (h : (c.skipRequirements afterComma).findings = []) :
    Passes c (c.skipRequirements afterComma) := by
  fun_induction skipRequirements afterComma c with
  | case1 => exact .refl _
  | case2 => exact .refl _
  | case3 _ c _ _ ih =>
    have hunit := (leads_skipRequirements _ _).findings_nil h
    exact (passes_skipBalanced hc hunit).trans (ih (c.leads_skipBalanced.clean hc hunit) h)

end Cursor

end AnySome
