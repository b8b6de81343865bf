import AnySome.Proofs.Control.Script
import AnySome.Proofs.Run.Leads

/-!
# What scripts do

A script runs from one stand to another: a stand is a cursor with the tokens
that have been left behind, in order, and the depths counted so far. A step at
the end of the text leaves the end behind, once more each time. There is at
most one run from a stand, and none if a loop or a call goes on forever.

A run *takes* the reader from one cursor to another if it leaves behind what is
consumed between them, each token once, and counts back to the same depths.

## Main results

* `Script.Runs.unique` — a script has one outcome.
* `Script.Takes.bind`, `Script.Takes.again`, … — how runs are put together.
-/

namespace AnySome

/-- A place of the reader, and how it got there. -/
structure Stand where
  cursor : Cursor
  /-- The tokens that were current before, in order. -/
  passed : List Token
  depths : Depths

/-- Where the next token is current. -/
def Stand.next (s : Stand) : Stand :=
  { s with cursor := s.cursor.advance, passed := s.passed ++ [s.cursor.current] }

namespace Script

open AnySome.Parser

/-! ## Runs -/

/-- The script runs from one stand to another and gives a result. -/
inductive Runs : {α : Type} → Script α → Stand → α → Stand → Prop where
  | look {α : Type} (f : Cursor → α) (s : Stand) : Runs (.look f) s (f s.cursor) s
  | next (s : Stand) : Runs .next s () s.next
  | reportHere (fault : Fault) (s : Stand) :
      Runs (.reportHere fault) s () { s with cursor := s.cursor.reportHere fault }
  | reportDelimiter (start : Nat) (fault : Fault) (s : Stand) :
      Runs (.reportDelimiter start fault) s ()
        { s with cursor := s.cursor.reportDelimiter start fault }
  | depths {α : Type} (f : Depths → α) (s : Stand) : Runs (.depths f) s (f s.depths) s
  | setDepths (d : Depths) (s : Stand) : Runs (.setDepths d) s () { s with depths := d }
  | bind {α β : Type} {p : Script α} {k : α → Script β} {s m e : Stand} {a : α} {b : β}
      (first : Runs p s a m) (then_ : Runs (k a) m b e) : Runs (.bind p k) s b e
  | again {σ α : Type} {round : σ → Script (σ ⊕ α)} {x y : σ} {s m e : Stand} {a : α}
      (here : Runs (round x) s (.inl y) m) (rest : Runs (.loop round y) m a e) :
      Runs (.loop round x) s a e
  | done {σ α : Type} {round : σ → Script (σ ⊕ α)} {x : σ} {s e : Stand} {a : α}
      (here : Runs (round x) s (.inr a) e) : Runs (.loop round x) s a e
  | lookahead {α : Type} {p : Script α} {s e : Stand} {a : α} (ahead : Runs p s a e) :
      Runs (.lookahead p) s a { s with depths := e.depths }
  | call {α : Type} {r : Routine α} {s e : Stand} {a : α} (inside : Runs r.body s a e) :
      Runs (.call r) s a e

/-- A script has at most one outcome. -/
theorem Runs.unique {α : Type} {p : Script α} {s e f : Stand} {a b : α} (h : Runs p s a e)
    (k : Runs p s b f) : a = b ∧ e = f := by
  induction h generalizing f with
  | look g s => cases k; exact ⟨rfl, rfl⟩
  | next s => cases k; exact ⟨rfl, rfl⟩
  | reportHere fault s => cases k; exact ⟨rfl, rfl⟩
  | reportDelimiter start fault s => cases k; exact ⟨rfl, rfl⟩
  | depths g s => cases k; exact ⟨rfl, rfl⟩
  | setDepths d s => cases k; exact ⟨rfl, rfl⟩
  | bind _ _ ihfirst ihthen =>
    cases k with
    | bind first then_ =>
      obtain ⟨rfl, rfl⟩ := ihfirst first
      exact ihthen then_
  | again _ _ ihhere ihrest =>
    cases k with
    | again here rest =>
      obtain ⟨hy, rfl⟩ := ihhere here
      cases hy
      exact ihrest rest
    | done here =>
      obtain ⟨hy, -⟩ := ihhere here
      contradiction
  | done _ ihhere =>
    cases k with
    | again here rest =>
      obtain ⟨hy, -⟩ := ihhere here
      contradiction
    | done here =>
      obtain ⟨hy, rfl⟩ := ihhere here
      cases hy
      exact ⟨rfl, rfl⟩
  | lookahead _ ih =>
    cases k with
    | lookahead ahead =>
      obtain ⟨rfl, rfl⟩ := ih ahead
      exact ⟨rfl, rfl⟩
  | call _ ih =>
    cases k with
    | call inside => exact ih inside

/-- No run changes what stands at the end of the text. -/
theorem Runs.final_eq {α : Type} {p : Script α} {s e : Stand} {a : α} (h : Runs p s a e) :
    e.cursor.final = s.cursor.final := by
  induction h with
  | next s => exact s.cursor.final_advance
  | reportHere fault s => exact Cursor.final_report _ _ _ _
  | reportDelimiter start fault s => exact Cursor.final_report _ _ _ _
  | bind _ _ ihfirst ihthen => exact ihthen.trans ihfirst
  | again _ _ ihhere ihrest => exact ihrest.trans ihhere
  | done _ ih => exact ih
  | call _ ih => exact ih
  | _ => rfl

/-! ## Runs between cursors -/

variable {α β : Type} {d : Depths}

/-- From the first cursor, at the given depths, the script runs to the second
and gives the result. It leaves behind what was consumed between them, each
token once, and counts back to the same depths. -/
def Takes (d : Depths) (P : Script α) (c : Cursor) (a : α) (e : Cursor) : Prop :=
  ∃ ts, c.pending = ts ++ e.pending ∧ ∀ passed, Runs P ⟨c, passed, d⟩ a ⟨e, passed ++ ts, d⟩

namespace Takes

variable {P : Script α} {K : α → Script β} {c m e : Cursor} {a : α} {b : β}

/-- A run that consumes nothing. -/
theorem of_same (hsame : c.pending = e.pending)
    (h : ∀ passed, Runs P ⟨c, passed, d⟩ a ⟨e, passed, d⟩) : Takes d P c a e :=
  ⟨[], hsame, fun passed => by rw [List.append_nil]; exact h passed⟩

theorem look (f : Cursor → α) (c : Cursor) : Takes d (.look f) c (f c) c :=
  of_same rfl fun _ => .look f _

theorem pure (a : α) (c : Cursor) : Takes d (Pure.pure a) c a c := look (fun _ => a) c

theorem reportHere (fault : Fault) (c : Cursor) :
    Takes d (.reportHere fault) c () (c.reportHere fault) :=
  of_same (c.pending_reportHere fault).symm fun _ => .reportHere fault _

theorem reportDelimiter (start : Nat) (fault : Fault) (c : Cursor) :
    Takes d (.reportDelimiter start fault) c () (c.reportDelimiter start fault) :=
  of_same (c.pending_reportDelimiter start fault).symm fun _ => .reportDelimiter start fault _

/-- Where there is a token, a step consumes it. -/
theorem next (hc : c.pending ≠ []) : Takes d .next c () c.advance := by
  obtain ⟨t, ts, hp⟩ := List.exists_cons_of_ne_nil hc
  refine ⟨[t], by rw [Cursor.pending_advance_of_cons hp, hp]; rfl, fun passed => ?_⟩
  rw [← Cursor.current_of_cons hp]
  exact .next ⟨c, passed, d⟩

theorem bind (hP : Takes d P c a m) (hK : Takes d (K a) m b e) : Takes d (P >>= K) c b e := by
  obtain ⟨ts, hts, hfirst⟩ := hP
  obtain ⟨us, hus, hthen⟩ := hK
  refine ⟨ts ++ us, by rw [hts, hus, List.append_assoc], fun passed => ?_⟩
  rw [← List.append_assoc]
  exact .bind (hfirst passed) (hthen (passed ++ ts))

/-- A question about the cursor, and what depends on the answer. -/
theorem bind_look {f : Cursor → α} (hK : Takes d (K (f c)) c b e) :
    Takes d (.look f >>= K) c b e :=
  (look f c).bind hK

/-- A question whose answer is known. -/
theorem bind_look_of {f : Cursor → α} (h : f c = a) (hK : Takes d (K a) c b e) :
    Takes d (.look f >>= K) c b e :=
  bind_look (by rw [h]; exact hK)

/-- A question about the depths. -/
theorem bind_depths {f : Depths → α} (hK : Takes d (K (f d)) c b e) :
    Takes d (.depths f >>= K) c b e :=
  (of_same rfl fun passed => .depths f ⟨c, passed, d⟩ : Takes d (.depths f) c (f d) c).bind hK

theorem written {P : Script Unit} (hP : Takes d P c () e) :
    Takes d (Script.written P) c (c.writtenSince e) e :=
  bind_look (hP.bind (bind_look (.pure _ _)))

theorem lookahead (hP : Takes d P c a e) : Takes d (.lookahead P) c a c := by
  obtain ⟨ts, _, hruns⟩ := hP
  exact of_same rfl fun passed => .lookahead (hruns passed)

theorem call {r : Routine α} (h : Takes d r.body c a e) : Takes d (.call r) c a e := by
  obtain ⟨ts, hts, hruns⟩ := h
  exact ⟨ts, hts, fun passed => .call (hruns passed)⟩

section loop

variable {σ : Type} {R : σ → Script (σ ⊕ α)} {x y : σ}

theorem done (h : Takes d (R x) c (.inr a) e) : Takes d (.loop R x) c a e := by
  obtain ⟨ts, hts, hruns⟩ := h
  exact ⟨ts, hts, fun passed => .done (hruns passed)⟩

theorem again (h : Takes d (R x) c (.inl y) m) (hrest : Takes d (.loop R y) m a e) :
    Takes d (.loop R x) c a e := by
  obtain ⟨ts, hts, hhere⟩ := h
  obtain ⟨us, hus, hruns⟩ := hrest
  refine ⟨ts ++ us, by rw [hts, hus, List.append_assoc], fun passed => ?_⟩
  rw [← List.append_assoc]
  exact .again (hhere passed) (hruns (passed ++ ts))

end loop

/-- A type or a block more is counted while the script runs. -/
theorem inType (hP : Takes { d with types := d.types + 1 } P c a e) :
    Takes d (Script.inType P) c a e := by
  obtain ⟨ts, hts, hruns⟩ := hP
  refine ⟨ts, hts, fun passed => ?_⟩
  refine .bind (.depths id _) (.bind (.setDepths _ _) (.bind (hruns passed) ?_))
  exact .bind (.depths id _) (.bind (.setDepths _ _) (.look _ _))

theorem inBlock (hP : Takes { d with blocks := d.blocks + 1 } P c a e) :
    Takes d (Script.inBlock P) c a e := by
  obtain ⟨ts, hts, hruns⟩ := hP
  refine ⟨ts, hts, fun passed => ?_⟩
  refine .bind (.depths id _) (.bind (.setDepths _ _) (.bind (hruns passed) ?_))
  exact .bind (.depths id _) (.bind (.setDepths _ _) (.look _ _))

end Takes

end Script

end AnySome
