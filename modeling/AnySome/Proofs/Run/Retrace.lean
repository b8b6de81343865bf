import AnySome.Proofs.Run.Steady

/-!
# Passing over the same text again

What is passed over is decided by the signs that are consumed and by the one
behind them, and by nothing else. So a move that consumed some signs without
findings consumes the same signs wherever they stand in front of the same
next sign: it *retraces* its way (`Cursor.Retraces`). That is how a text is
read again after types elsewhere in it have changed.

Balanced units have a description of their own. `Closes o T` says that the
last sign of `T`, and none before it, closes everything that is open when the
brackets `o` were open in front of `T`.

## Main results

* `Cursor.skipWithin_sound`, `Cursor.skipWithin_complete` — a unit is passed
  over exactly when it closes what it opens.
* `Cursor.Retraces.skipUntil` — a run of units up to a place told by its next
  sign is retraced.
-/

namespace AnySome

/-! ## Nesting of brackets -/

/-- The brackets that are open behind a token of kind `k`, if `o` are open in
front of it; none if it closes something else. -/
def nest (o : List Bracket) : Kind → Option (List Bracket)
  | .opening b => some (b :: o)
  | .closing b =>
    match o with
    | [] => none
    | expected :: outer => if expected = b then some outer else none
  | _ => some o

/-- The last sign, and none before it, closes all that is open when `o` are
open in front of the first. -/
inductive Closes : List Bracket → List Sign → Prop where
  | last {o : List Bracket} {s : Sign} : nest o s.kind = some [] → Closes o [s]
  | more {o o' : List Bracket} {s : Sign} {T : List Sign} :
      nest o s.kind = some o' → o' ≠ [] → Closes o' T → Closes o (s :: T)

theorem Closes.ne_nil {o : List Bracket} {T : List Sign} (h : Closes o T) : T ≠ [] := by
  cases h <;> simp

namespace Cursor

theorem nest_of_nesting {opened opened' : List (Bracket × Nat)} {t : Token}
    (h : nesting opened t = .consume opened') :
    nest (opened.map Prod.fst) t.kind = some (opened'.map Prod.fst) := by
  unfold nesting at h
  split at h
  next b hk =>
    cases h
    simp [hk, nest]
  next b hk =>
    split at h
    · contradiction
    next expected _ outer =>
      split at h
      next heq =>
        cases h
        simp [hk, nest, heq]
      · contradiction
  next hopen hclose =>
    cases h
    unfold nest
    split
    next b hk => exact absurd hk (hopen b)
    next b hk => exact absurd hk (hclose b)
    · rfl

theorem nesting_of_opening {opened : List (Bracket × Nat)} {t : Token} {b : Bracket}
    (h : t.kind = .opening b) : nesting opened t = .consume ((b, t.start) :: opened) := by
  simp only [nesting, h]

theorem nesting_of_closing {opened : List (Bracket × Nat)} {t : Token} {b : Bracket}
    (h : t.kind = .closing b) (start : Nat) : nesting ((b, start) :: opened) t = .consume opened := by
  simp only [nesting, h, if_true]

theorem nesting_of_nest {opened : List (Bracket × Nat)} {t : Token} {o : List Bracket}
    (h : nest (opened.map Prod.fst) t.kind = some o) :
    ∃ opened', nesting opened t = .consume opened' ∧ opened'.map Prod.fst = o := by
  unfold nest at h
  split at h
  next b hk =>
    cases h
    exact ⟨(b, t.start) :: opened, nesting_of_opening hk, rfl⟩
  next b hk =>
    cases opened with
    | nil => simp at h
    | cons p outer =>
      obtain ⟨expected, start⟩ := p
      simp only [List.map_cons] at h
      split at h
      next heq =>
        cases h
        subst heq
        exact ⟨outer, nesting_of_closing hk start, rfl⟩
      · contradiction
  next hopen hclose =>
    cases h
    refine ⟨opened, ?_, rfl⟩
    unfold nesting
    cases hk : t.kind with
    | opening b => exact absurd hk (hopen b)
    | closing b => exact absurd hk (hclose b)
    | _ => rfl

/-- A unit that is passed over without findings closes what it opens. -/
theorem skipWithin_sound (opened : List (Bracket × Nat)) (c : Cursor) {fin : Sign}
    {S : List Sign} (hc : c.At fin S) (h : (c.skipWithin opened).findings = []) :
    (S = [] ∧ opened = [] ∧ (c.skipWithin opened).At fin []) ∨
      ∃ T U, S = T ++ U ∧ (c.skipWithin opened).At fin U ∧ Closes (opened.map Prod.fst) T := by
  fun_induction skipWithin opened c generalizing S with
  | case1 c hp =>
    have hS : S = [] := hc.pending_eq_nil_iff.mp hp
    subst hS
    exact .inl ⟨rfl, rfl, hc⟩
  | case2 => exact absurd h (findings_reportDelimiter_ne_nil _ _ _)
  | case3 =>
    exact absurd ((Leads.refl.advance).findings_nil h) (findings_reportHere_ne_nil _ _)
  | case4 => exact absurd h (findings_reportHere_ne_nil _ _)
  | case5 opened c t rest hp opened' hnest hempty =>
    have hsigns := hc.signs
    rw [hp, List.map_cons] at hsigns
    subst hsigns
    refine .inr ⟨[t.sign], rest.map Token.sign, rfl, hc.advance, .last ?_⟩
    have hnil : opened' = [] := by simpa using hempty
    simpa [hnil] using nest_of_nesting hnest
  | case6 opened c t rest hp opened' hnest hne ih =>
    have hsigns := hc.signs
    rw [hp, List.map_cons] at hsigns
    subst hsigns
    have hopen : opened' ≠ [] := by simpa using hne
    rcases ih hc.advance h with ⟨_, hnil, _⟩ | ⟨T, U, hTU, hU, hcloses⟩
    · exact absurd hnil hopen
    · refine .inr ⟨t.sign :: T, U, ?_, hU, .more (nest_of_nesting hnest) ?_ hcloses⟩
      · simpa using hTU
      · simpa using hopen

theorem skipWithin_of_nil {opened : List (Bracket × Nat)} {c : Cursor} (hp : c.pending = []) :
    c.skipWithin opened = match opened with
      | [] => c
      | (bracket, start) :: _ => c.reportDelimiter start (.unclosed bracket) := by
  rw [skipWithin.eq_def]
  split
  · rfl
  next hcons => rw [hp] at hcons; contradiction

section

variable {opened opened' : List (Bracket × Nat)} {c : Cursor} {t : Token} {rest : List Token}

/-- What becomes of a token is told by its nesting. -/
theorem skipWithin_of_cons (hp : c.pending = t :: rest) :
    c.skipWithin opened = match nesting opened t with
      | .stray found => (c.reportHere (.stray found)).advance
      | .mismatched expected found => c.reportHere (.mismatched expected found)
      | .consume opened' => if opened'.isEmpty then c.advance else c.advance.skipWithin opened' := by
  rw [skipWithin.eq_def]
  split
  next hnil => rw [hp] at hnil; contradiction
  next u us hcons =>
    rw [hp] at hcons
    cases hcons
    rfl

theorem skipWithin_of_nesting (hp : c.pending = t :: rest)
    (h : nesting opened t = .consume opened') :
    c.skipWithin opened = if opened'.isEmpty then c.advance else c.advance.skipWithin opened' := by
  rw [skipWithin_of_cons hp, h]

theorem skipWithin_of_stray (hp : c.pending = t :: rest) {found : Bracket}
    (h : nesting opened t = .stray found) :
    c.skipWithin opened = (c.reportHere (.stray found)).advance := by
  rw [skipWithin_of_cons hp, h]

theorem skipWithin_of_mismatched (hp : c.pending = t :: rest) {expected found : Bracket}
    (h : nesting opened t = .mismatched expected found) :
    c.skipWithin opened = c.reportHere (.mismatched expected found) := by
  rw [skipWithin_of_cons hp, h]

end

/-- A unit that closes what it opens is passed over without findings. -/
theorem skipWithin_complete {o : List Bracket} {T : List Sign} (h : Closes o T)
    {opened : List (Bracket × Nat)} (ho : opened.map Prod.fst = o) {c : Cursor} {fin : Sign}
    {U : List Sign} (hc : c.At fin (T ++ U)) : (c.skipWithin opened).At fin U := by
  induction h generalizing opened c with
  | @last o s hnest =>
    subst ho
    obtain ⟨t, rest, hp, rfl⟩ := hc.exists_cons
    obtain ⟨opened', hstep, hopened'⟩ := nesting_of_nest hnest
    have hnil : opened' = [] := by simpa using hopened'
    rw [skipWithin_of_nesting hp hstep, hnil]
    exact hc.advance
  | @more o o' s T hnest hne _ ih =>
    subst ho
    obtain ⟨t, rest, hp, rfl⟩ := hc.exists_cons
    obtain ⟨opened', hstep, hopened'⟩ := nesting_of_nest hnest
    have hopen : opened' ≠ [] := by
      intro hnil
      exact hne (by rw [← hopened', hnil]; rfl)
    rw [skipWithin_of_nesting hp hstep, if_neg (by simpa using hopen)]
    exact ih hopened' hc.advance

theorem skipBalanced_sound {c : Cursor} {fin : Sign} {S : List Sign} (hc : c.At fin S)
    (hS : S ≠ []) (h : c.skipBalanced.findings = []) :
    ∃ T U, S = T ++ U ∧ c.skipBalanced.At fin U ∧ Closes [] T := by
  rcases skipWithin_sound [] c hc h with ⟨hnil, _, _⟩ | hunit
  · exact absurd hnil hS
  · exact hunit

theorem skipBalanced_complete {T U : List Sign} {c : Cursor} {fin : Sign} (h : Closes [] T)
    (hc : c.At fin (T ++ U)) : c.skipBalanced.At fin U :=
  skipWithin_complete h rfl hc

theorem skipBalanced_of_nil {c : Cursor} {fin : Sign} (hc : c.At fin []) :
    c.skipBalanced.At fin [] := by
  rw [skipBalanced, skipWithin_of_nil (hc.pending_eq_nil_iff.mpr rfl)]
  exact hc

/-! ## Retracing -/

/-- A move without findings takes the same way in front of the same sign. -/
def Retraces (f : Cursor → Cursor) : Prop :=
  ∀ ⦃fin : Sign⦄ ⦃S : List Sign⦄ ⦃c : Cursor⦄, c.At fin S → (f c).findings = [] →
    ∃ T U, S = T ++ U ∧ (f c).At fin U ∧
      ∀ ⦃c' : Cursor⦄ ⦃U' : List Sign⦄, U'.headD fin = U.headD fin → c'.At fin (T ++ U') →
        (f c').At fin U'

/-- The answer at a place is told by the sign that stands there. -/
def ByNext (b : Cursor → α) : Prop :=
  ∀ ⦃c d : Cursor⦄, c.Clean → d.Clean → c.next = d.next → b c = b d

theorem ByNext.of_next {b : Sign → α} : ByNext fun c => b c.next := by
  intro c d _ _ h
  exact congrArg b h

theorem ByNext.kind : ByNext Cursor.kind := by
  intro c d hc hd h
  rw [hc.kind_eq, hd.kind_eq, h]

theorem headD_append {fin : Sign} (T : List Sign) {U U' : List Sign}
    (h : U'.headD fin = U.headD fin) : (T ++ U').headD fin = (T ++ U).headD fin := by
  cases T with
  | nil => exact h
  | cons t T => rfl

namespace Retraces

variable {f g : Cursor → Cursor}

theorem stay : Retraces id := by
  intro fin S c hc _
  exact ⟨[], S, rfl, hc, fun _ _ _ hc' => hc'⟩

theorem reportHere {fault : Fault} : Retraces fun c => c.reportHere fault := by
  intro fin S c _ h
  exact absurd h (findings_reportHere_ne_nil _ _)

theorem advance : Retraces Cursor.advance := by
  intro fin S c hc _
  cases S with
  | nil =>
    refine ⟨[], [], rfl, hc.advance, ?_⟩
    intro c' U' hU' hc'
    have hnil : U' = [] := hc'.eq_nil_of_headD hU'
    subst hnil
    exact hc'.advance
  | cons s S => exact ⟨[s], S, rfl, hc.advance, fun _ _ _ hc' => hc'.advance⟩

theorem skipBalanced : Retraces skipBalanced := by
  intro fin S c hc h
  cases S with
  | nil =>
    refine ⟨[], [], rfl, skipBalanced_of_nil hc, ?_⟩
    intro c' U' hU' hc'
    have hnil : U' = [] := hc'.eq_nil_of_headD hU'
    subst hnil
    exact skipBalanced_of_nil hc'
  | cons s S =>
    obtain ⟨T, U, hTU, hU, hunit⟩ := skipBalanced_sound hc (by simp) h
    exact ⟨T, U, hTU, hU, fun _ _ _ hc' => skipBalanced_complete hunit hc'⟩

theorem comp (hf : Retraces f) (hg : Retraces g) (hleads : ∀ c : Cursor, c.Leads (g c)) :
    Retraces fun c => g (f c) := by
  intro fin S c hc h
  obtain ⟨T, U, rfl, hU, hfT⟩ := hf hc ((hleads (f c)).findings_nil h)
  obtain ⟨V, W, rfl, hW, hgV⟩ := hg hU h
  refine ⟨T ++ V, W, by simp, hW, ?_⟩
  intro c' U' hU' hc'
  rw [List.append_assoc] at hc'
  exact hgV hU' (hfT (headD_append V hU') hc')

/-- A move that is one or another that is retraced, as the next sign tells. -/
theorem select {k : Cursor → α} (hk : ByNext k)
    (hf : ∀ a, ∃ g, Retraces g ∧ ∀ c, k c = a → f c = g c) : Retraces f := by
  intro fin S c hc h
  obtain ⟨g, hg, heq⟩ := hf (k c)
  rw [heq c rfl] at h ⊢
  obtain ⟨T, U, rfl, hU, hT⟩ := hg hc h
  refine ⟨T, U, rfl, hU, ?_⟩
  intro c' U' hU' hc'
  have hsame : k c' = k c := by
    apply hk hc'.clean hc.clean
    rw [hc'.next_eq, hc.next_eq]
    exact headD_append T hU'
  rw [heq c' hsame]
  exact hT hU' hc'

theorem ite {b : Cursor → Bool} (hb : ByNext b) (hf : Retraces f) (hg : Retraces g) :
    Retraces fun c => if b c then f c else g c :=
  select hb fun a => by
    cases a with
    | true => exact ⟨f, hf, fun c hc => if_pos hc⟩
    | false => exact ⟨g, hg, fun c hc => if_neg (Bool.not_eq_true _ ▸ hc)⟩

/-- A run of units up to a place told by its next sign is retraced. -/
theorem skipUntil {isOver : Cursor → Bool} (hover : ByNext isOver) :
    Retraces (Cursor.skipUntil isOver) := by
  intro fin S c hc h
  fun_induction Cursor.skipUntil isOver c generalizing S with
  | case1 c hp =>
    have hS : S = [] := hc.pending_eq_nil_iff.mp hp
    subst hS
    refine ⟨[], [], rfl, hc, ?_⟩
    intro c' U' hU' hc'
    have hnil : U' = [] := hc'.eq_nil_of_headD hU'
    subst hnil
    have hp' : c'.pending = [] := hc'.pending_eq_nil_iff.mpr rfl
    rw [Cursor.skipUntil, dif_pos hp']
    exact hc'
  | case2 c hp hstop =>
    refine ⟨[], S, rfl, hc, ?_⟩
    intro c' U' hU' hc'
    have hstop' : isOver c' = true := by
      rw [← hstop]
      apply hover hc'.clean hc.clean
      rw [hc'.next_eq, hc.next_eq]
      exact hU'
    rw [Cursor.skipUntil]
    split <;> exact hc'
  | case3 c hp hgo ih =>
    have hS : S ≠ [] := fun hnil => hp (hc.pending_eq_nil_iff.mpr hnil)
    obtain ⟨T, U, rfl, hU, hunit⟩ :=
      skipBalanced_sound hc hS ((leads_skipUntil isOver _).findings_nil h)
    obtain ⟨V, W, rfl, hW, hV⟩ := ih hU h
    refine ⟨T ++ V, W, by simp, hW, ?_⟩
    intro c' U' hU' hc'
    rw [List.append_assoc] at hc'
    have hgo' : isOver c' = isOver c := by
      apply hover hc'.clean hc.clean
      rw [hc'.next_eq, hc.next_eq]
      exact headD_append T (headD_append V hU')
    have hp' : c'.pending ≠ [] := by
      intro hnil
      have := hc'.pending_eq_nil_iff.mp hnil
      simp [hunit.ne_nil] at this
    rw [Cursor.skipUntil, dif_neg hp', if_neg (by rw [hgo']; exact hgo)]
    exact hV hU' (skipBalanced_complete hunit hc')

theorem skipStatement : Retraces Cursor.skipStatement := by
  have hrest : Retraces fun c => c.skipBalanced.skipUntil atStatementEnd := by
    refine comp skipBalanced (skipUntil ?_) (leads_skipUntil _)
    intro c d hc hd h
    have hline : c.current.onNewLine = d.current.onNewLine := congrArg Sign.onNewLine h
    unfold atStatementEnd
    rw [ByNext.kind hc hd h, hline]
  refine select ByNext.kind fun k => ?_
  cases k with
  | closing found =>
    exact ⟨_, comp reportHere advance fun _ => Leads.refl.advance,
      fun c hk => by rw [Cursor.skipStatement, hk]⟩
  | endOfFile => exact ⟨_, stay, fun c hk => by rw [Cursor.skipStatement, hk, id]⟩
  | _ => exact ⟨_, hrest, fun c hk => by rw [Cursor.skipStatement, hk]⟩

theorem skipExpression (oneLine : Bool) : Retraces (Cursor.skipExpression oneLine) := by
  refine ite (b := fun c => endsExpression c.kind) ?_ reportHere
    (comp skipBalanced (skipUntil ?_) (leads_skipUntil _))
  · intro c d hc hd h
    exact congrArg endsExpression (ByNext.kind hc hd h)
  · intro c d hc hd h
    have hline : c.current.onNewLine = d.current.onNewLine := congrArg Sign.onNewLine h
    simp only [ByNext.kind hc hd h, hline]

theorem skipAdjacentParen : Retraces Cursor.skipAdjacentParen := by
  refine ite (b := fun c => c.kind == .opening .paren && !c.current.isSeparated) ?_
    skipBalanced stay
  intro c d hc hd h
  have hgap : c.current.isSeparated = d.current.isSeparated := congrArg Sign.isSeparated h
  simp only [ByNext.kind hc hd h, hgap]

theorem skipAttribute : Retraces Cursor.skipAttribute := by
  have hname : Retraces fun c => if c.kind.isName then c.advance.skipAdjacentParen
      else c.reportHere (.missing .attributeName) := by
    refine ite (b := fun c => c.kind.isName) ?_
      (comp advance skipAdjacentParen leads_skipAdjacentParen) reportHere
    intro c d hc hd h
    exact congrArg Kind.isName (ByNext.kind hc hd h)
  refine comp (f := Cursor.advance) (g := fun c => if c.kind.isName then
    c.advance.skipAdjacentParen else c.reportHere (.missing .attributeName)) advance hname ?_
  intro c
  split
  · exact Leads.refl.advance.trans (leads_skipAdjacentParen _)
  · exact Leads.refl.reportHere _

theorem skipRequirements (afterComma : Bool) : Retraces (Cursor.skipRequirements afterComma) := by
  intro fin S c hc h
  fun_induction Cursor.skipRequirements afterComma c generalizing S with
  | case1 afterComma c hp =>
    have hS : S = [] := hc.pending_eq_nil_iff.mp hp
    subst hS
    refine ⟨[], [], rfl, hc, ?_⟩
    intro c' U' hU' hc'
    have hnil : U' = [] := hc'.eq_nil_of_headD hU'
    subst hnil
    have hp' : c'.pending = [] := hc'.pending_eq_nil_iff.mpr rfl
    rw [Cursor.skipRequirements, dif_pos hp']
    exact hc'
  | case2 afterComma c hp hstop =>
    refine ⟨[], S, rfl, hc, ?_⟩
    intro c' U' hU' hc'
    have hkind : c'.kind = c.kind := by rw [hc'.kind_eq, hc.kind_eq]; exact congrArg _ hU'
    have hline : c'.current.onNewLine = c.current.onNewLine := by
      rw [hc'.onNewLine_eq, hc.onNewLine_eq]
      exact congrArg _ hU'
    rw [Cursor.skipRequirements, hkind, hline]
    split <;> exact hc'
  | case3 afterComma c hp hgo ih =>
    have hS : S ≠ [] := fun hnil => hp (hc.pending_eq_nil_iff.mpr hnil)
    obtain ⟨T, U, rfl, hU, hunit⟩ :=
      skipBalanced_sound hc hS ((leads_skipRequirements _ _).findings_nil h)
    obtain ⟨V, W, rfl, hW, hV⟩ := ih hU h
    refine ⟨T ++ V, W, by simp, hW, ?_⟩
    intro c' U' hU' hc'
    rw [List.append_assoc] at hc'
    have hhead := headD_append T (headD_append V hU')
    have hkind : c'.kind = c.kind := by rw [hc'.kind_eq, hc.kind_eq]; exact congrArg _ hhead
    have hline : c'.current.onNewLine = c.current.onNewLine := by
      rw [hc'.onNewLine_eq, hc.onNewLine_eq]
      exact congrArg _ hhead
    have hp' : c'.pending ≠ [] := by
      intro hnil
      have := hc'.pending_eq_nil_iff.mp hnil
      simp [hunit.ne_nil] at this
    rw [Cursor.skipRequirements, dif_neg hp', hkind, hline, if_neg hgo]
    exact hV hU' (skipBalanced_complete hunit hc')

theorem skipWhereClause : Retraces Cursor.skipWhereClause :=
  comp (f := Cursor.advance) advance (skipRequirements true) (leads_skipRequirements true)

/-- A generic clause is retraced, wherever the clause is said to start. -/
theorem skipGenericWithin (start depth : Nat) {fin : Sign} {S : List Sign} {c : Cursor}
    (hc : c.At fin S) (h : (c.skipGenericWithin start depth).findings = []) :
    ∃ T U, S = T ++ U ∧ (c.skipGenericWithin start depth).At fin U ∧
      ∀ {c' : Cursor} {U' : List Sign} (start' : Nat), U'.headD fin = U.headD fin →
        c'.At fin (T ++ U') → (c'.skipGenericWithin start' depth).At fin U' := by
  fun_induction Cursor.skipGenericWithin start depth c generalizing S with
  | case1 => exact absurd h (findings_reportDelimiter_ne_nil _ _ _)
  | case2 depth c hp hkind ih =>
    obtain ⟨s, S, rfl⟩ := hc.exists_signs_cons hp
    obtain ⟨T, U, rfl, hU, hT⟩ := ih hc.advance h
    refine ⟨s :: T, U, rfl, hU, ?_⟩
    intro c' U' start' hU' hc'
    have hkind' : c'.kind = .lessThan := by rw [hc'.kind_eq, ← hkind, hc.kind_eq]; rfl
    rw [Cursor.skipGenericWithin, dif_neg hc'.pending_ne_nil]
    simp only [hkind']
    exact hT start' hU' hc'.advance
  | case3 depth c hp hkind hdepth =>
    obtain ⟨s, S, rfl⟩ := hc.exists_signs_cons hp
    refine ⟨[s], S, rfl, hc.advance, ?_⟩
    intro c' U' start' hU' hc'
    have hkind' : c'.kind = .greaterThan := by rw [hc'.kind_eq, ← hkind, hc.kind_eq]; rfl
    rw [Cursor.skipGenericWithin, dif_neg hc'.pending_ne_nil]
    simp only [hkind', if_pos hdepth]
    exact hc'.advance
  | case4 depth c hp hkind hdepth ih =>
    obtain ⟨s, S, rfl⟩ := hc.exists_signs_cons hp
    obtain ⟨T, U, rfl, hU, hT⟩ := ih hc.advance h
    refine ⟨s :: T, U, rfl, hU, ?_⟩
    intro c' U' start' hU' hc'
    have hkind' : c'.kind = .greaterThan := by rw [hc'.kind_eq, ← hkind, hc.kind_eq]; rfl
    rw [Cursor.skipGenericWithin, dif_neg hc'.pending_ne_nil]
    simp only [hkind', if_neg hdepth]
    exact hT start' hU' hc'.advance
  | case5 => exact absurd h (findings_reportDelimiter_ne_nil _ _ _)
  | case6 => exact absurd h (findings_reportDelimiter_ne_nil _ _ _)
  | case7 => exact absurd h (findings_reportDelimiter_ne_nil _ _ _)
  | case8 depth c hp hless hgreater hopen hclose hsemi ih =>
    have hS : S ≠ [] := fun hnil => hp (hc.pending_eq_nil_iff.mpr hnil)
    obtain ⟨T, U, rfl, hU, hunit⟩ :=
      skipBalanced_sound hc hS ((leads_skipGenericWithin _ _ _).findings_nil h)
    obtain ⟨V, W, rfl, hW, hV⟩ := ih hU h
    refine ⟨T ++ V, W, by simp, hW, ?_⟩
    intro c' U' start' hU' hc'
    rw [List.append_assoc] at hc'
    obtain ⟨s, T, rfl⟩ := List.exists_cons_of_ne_nil hunit.ne_nil
    have hkind' : c'.kind = c.kind := by rw [hc'.kind_eq, hc.kind_eq]; rfl
    have hstep : c'.skipGenericWithin start' depth =
        c'.skipBalanced.skipGenericWithin start' depth := by
      rw [Cursor.skipGenericWithin, dif_neg hc'.pending_ne_nil, hkind']
      split <;> simp_all
    rw [hstep]
    exact hV start' hU' (skipBalanced_complete hunit hc')

theorem skipGenericClause : Retraces Cursor.skipGenericClause := by
  intro fin S c hc h
  obtain ⟨T, U, hTU, hU, hT⟩ := skipGenericWithin _ _ hc h
  exact ⟨T, U, hTU, hU, fun _ _ hU' hc' => hT _ hU' hc'⟩

end Retraces

end Cursor

/-! ## Clauses and directives of declarations -/

namespace Declaration

open Cursor

theorem retraces_skipGenerics : Retraces skipGenerics := by
  refine .ite (b := fun c => c.kind == .lessThan) ?_ .skipGenericClause .stay
  intro c d hc hd h
  exact congrArg (· == Kind.lessThan) (ByNext.kind hc hd h)

theorem retraces_skipWhere : Retraces skipWhere := by
  refine .ite (b := fun c => c.kind == .keyword .whereClause) ?_ .skipWhereClause .stay
  intro c d hc hd h
  exact congrArg (· == Kind.keyword .whereClause) (ByNext.kind hc hd h)

theorem retraces_skipHeader : Retraces skipHeader := by
  refine .skipUntil ?_
  intro c d hc hd h
  exact congrArg endsHeader (ByNext.kind hc hd h)

theorem retraces_skipFailureMark : Retraces skipFailureMark := by
  refine .ite (b := fun c => (c.kind == .question || c.kind == .exclamation)
    && !c.current.isSeparated) ?_ .advance .stay
  intro c d hc hd h
  have hgap : c.current.isSeparated = d.current.isSeparated := congrArg Sign.isSeparated h
  simp only [ByNext.kind hc hd h, hgap]

theorem retraces_skipDirective : Retraces skipDirective := by
  have hline : Retraces fun c => c.advance.skipUntil (·.current.onNewLine) :=
    .comp (f := Cursor.advance) .advance (.skipUntil (.of_next (b := Sign.onNewLine)))
      (leads_skipUntil _)
  have htext : ByNext fun c => c.current.text := .of_next (b := Sign.text)
  refine .select htext fun text => ?_
  by_cases hif : text = "#if" ∨ text = "#elseif"
  · exact ⟨_, hline, fun c hc => by rw [skipDirective_eq, hc, if_pos hif]⟩
  by_cases helse : text = "#else" ∨ text = "#endif"
  · exact ⟨_, .advance, fun c hc => by rw [skipDirective_eq, hc, if_neg hif, if_pos helse]⟩
  · exact ⟨_, .skipStatement, fun c hc => by rw [skipDirective_eq, hc, if_neg hif, if_neg helse]⟩

end Declaration

end AnySome
