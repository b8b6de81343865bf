import AnySome.Proofs.Run.Steady

/-!
# Running compound parsers

A sequence runs its first part and then, on the result and the cursor behind
it, the second. The loops go on for as long as they move: for the rounds that
this library repeats there is one equation for each way in which a round can
end.
-/

namespace AnySome.Parser

/-! ## Sequences and branches -/

theorem run_bind (p : Parser α) (k : α → Parser β) (c : Cursor) :
    (p >>= k) c = k (p c).1 (p c).2 := rfl

theorem run_pure (a : α) (c : Cursor) : (pure a : Parser α) c = (a, c) := rfl

theorem bind_get (k : Cursor → Parser β) (c : Cursor) : (get >>= k) c = k c c := rfl

theorem bind_current (k : Token → Parser β) (c : Cursor) :
    (current >>= k) c = k c.current c := rfl

theorem bind_kind (k : Kind → Parser β) (c : Cursor) : (kind >>= k) c = k c.kind c := rfl

theorem bind_isAt (what : Kind) (k : Bool → Parser β) (c : Cursor) :
    (isAt what >>= k) c = k (c.kind == what) c := rfl

theorem bind_isAtName (k : Bool → Parser β) (c : Cursor) :
    (isAtName >>= k) c = k c.kind.isName c := rfl

theorem bind_isSeparated (k : Bool → Parser β) (c : Cursor) :
    (isSeparated >>= k) c = k c.current.isSeparated c := rfl

theorem bind_advance (k : Unit → Parser β) (c : Cursor) :
    (advance >>= k) c = k () c.advance := rfl

theorem run_ite (P : Prop) [Decidable P] (p q : Parser α) (c : Cursor) :
    (if P then p else q) c = if P then p c else q c := by
  split <;> rfl

/-! ## Growing results -/

section iterate

variable {round : α → Parser (Option α)} {a b : α} {c d : Cursor}

theorem iterate_of_none (h : round a c = (none, d)) : iterate round a c = (a, d) := by
  rw [iterate, h]

theorem iterate_of_some (h : round a c = (some b, d)) (hmove : d.remaining < c.remaining) :
    iterate round a c = iterate round b d := by
  rw [iterate, h]
  exact if_pos hmove

theorem iterate_of_stuck (h : round a c = (some b, d)) (hstay : ¬d.remaining < c.remaining) :
    iterate round a c = (b, d) := by
  rw [iterate, h]
  exact if_neg hstay

end iterate

/-! ## Lists of items -/

section collect

variable {round : Parser (Round α)} {a : α} {c d : Cursor}

theorem collect_of_finished (h : round c = (.finished, d)) : collect round c = ([], d) := by
  rw [collect, h]

theorem collect_of_last (h : round c = (.last a, d)) : collect round c = ([a], d) := by
  rw [collect, h]

theorem collect_of_more (h : round c = (.more a, d)) (hmove : d.remaining < c.remaining) :
    collect round c = (a :: (collect round d).1, (collect round d).2) := by
  rw [collect, h]
  exact if_pos hmove

theorem collect_of_stuck (h : round c = (.more a, d)) (hstay : ¬d.remaining < c.remaining) :
    collect round c = ([a], d) := by
  rw [collect, h]
  exact if_neg hstay

end collect

section many

variable {item : Parser (Option α)} {a : α} {c d : Cursor}

theorem many_of_none (h : item c = (none, d)) : many item c = ([], d) := by
  refine collect_of_finished ?_
  rw [run_bind, h]
  rfl

theorem many_of_some (h : item c = (some a, d)) (hmove : d.remaining < c.remaining) :
    many item c = (a :: (many item d).1, (many item d).2) := by
  refine collect_of_more ?_ hmove
  rw [run_bind, h]
  rfl

theorem many_of_stuck (h : item c = (some a, d)) (hstay : ¬d.remaining < c.remaining) :
    many item c = ([a], d) := by
  refine collect_of_stuck ?_ hstay
  rw [run_bind, h]
  rfl

/-- Where no item is listed, there is none. -/
theorem eq_none_of_many_nil (h : many item c = ([], d)) : item c = (none, d) := by
  cases hitem : item c with
  | mk o e =>
    cases o with
    | none =>
      rw [many_of_none hitem] at h
      cases h
      rfl
    | some a =>
      by_cases hmove : e.remaining < c.remaining
      · rw [many_of_some hitem hmove] at h
        cases h
      · rw [many_of_stuck hitem hmove] at h
        cases h

end many

/-! ## Lists with commas -/

section commaSeparated

variable {isOver : Kind → Bool} {item : Parser α} {a : α} {c d : Cursor}

theorem commaSeparated_of_over (h : isOver c.kind = true) :
    commaSeparated isOver item c = ([], c) := by
  refine collect_of_finished ?_
  simp only [bind_kind, run_ite, h, if_true]
  rfl

theorem commaSeparated_of_last (h : isOver c.kind = false) (hitem : item c = (a, d))
    (hcomma : d.kind ≠ .comma) : commaSeparated isOver item c = ([a], d) := by
  refine collect_of_last ?_
  have hnot : (d.kind == .comma) = false := by simpa using hcomma
  simp only [bind_kind, run_ite, h, Bool.false_eq_true, if_false]
  rw [run_bind, hitem]
  simp only [bind_isAt, run_ite, hnot, Bool.false_eq_true, if_false]
  rfl

theorem commaSeparated_of_more (h : isOver c.kind = false) (hitem : item c = (a, d))
    (hcomma : d.kind = .comma) (hmove : d.advance.remaining < c.remaining) :
    commaSeparated isOver item c =
      (a :: (commaSeparated isOver item d.advance).1,
        (commaSeparated isOver item d.advance).2) := by
  refine collect_of_more ?_ hmove
  have his : (d.kind == .comma) = true := by simpa using hcomma
  simp only [bind_kind, run_ite, h, Bool.false_eq_true, if_false]
  rw [run_bind, hitem]
  simp only [bind_isAt, run_ite, his, if_true]
  rfl

/-- A round that ends with a comma has moved. -/
theorem remaining_advance_lt [Steady item] (hitem : item c = (a, d))
    (hcomma : d.kind = .comma) : d.advance.remaining < c.remaining := by
  have hleads : c.Leads d := by simpa [hitem] using Steady.leads (p := item) c
  obtain ⟨ts, hts, _⟩ := hleads.exists_consumed
  have hpos := Cursor.length_pos_of_kind_ne (c := d) (by simp [hcomma])
  have hlen := congrArg List.length hts
  rw [List.length_append] at hlen
  rw [d.advance.remaining_eq, c.remaining_eq, Cursor.length_advance]
  omega

end commaSeparated

/-! ## Rounds lead to where their loops lead -/

theorem leads_collect {round : Parser (Round α)} [Steady round] (c : Cursor) :
    (round c).2.Leads (collect round c).2 := by
  cases h : round c with
  | mk r d =>
    cases r with
    | finished =>
      rw [collect_of_finished h]
      exact Cursor.Leads.refl
    | last a =>
      rw [collect_of_last h]
      exact Cursor.Leads.refl
    | more a =>
      by_cases hmove : d.remaining < c.remaining
      · rw [collect_of_more h hmove]
        exact Steady.leads (p := collect round) d
      · rw [collect_of_stuck h hmove]
        exact Cursor.Leads.refl

theorem leads_iterate_of_round {round : α → Parser (Option α)} [∀ a, Steady (round a)] (a : α)
    (c : Cursor) : (round a c).2.Leads (iterate round a c).2 := by
  cases h : round a c with
  | mk o d =>
    cases o with
    | none =>
      rw [iterate_of_none h]
      exact Cursor.Leads.refl
    | some b =>
      by_cases hmove : d.remaining < c.remaining
      · rw [iterate_of_some h hmove]
        exact leads_iterate b d
      · rw [iterate_of_stuck h hmove]
        exact Cursor.Leads.refl

theorem leads_advancing {p : Parser α} (c : Cursor) :
    (p c).2.Leads (Declaration.advancing p c).2 := by
  show (p c).2.Leads (if (p c).2.remaining < c.remaining then (p c).2 else (p c).2.advance)
  split
  · exact Cursor.Leads.refl
  · exact Cursor.Leads.refl.advance

end AnySome.Parser
