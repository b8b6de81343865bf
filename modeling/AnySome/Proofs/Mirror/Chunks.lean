import AnySome.Declaration.Basic
import AnySome.Proofs.TypeGrammar.Complete

/-!
# Two texts that differ in their types

The tokens of a text are cut into chunks: tokens that are kept, and the types
of declarations, each with the token in front of it. That token is a colon, an
equals sign or an arrow, and it is kept as well, so a text and its revision
have the same next token in front of every chunk.

Two cursors are twins if one stands in a text and the other at the same chunk
of a revision. A revision puts balanced signs in the place of balanced signs,
so passing over a unit keeps twins together even if types are inside.

## Main results

* `Revision.headD_news` — a text and its revision start with the same sign.
* `Twins.skipWithin` — twins pass over the same units.
-/

namespace AnySome

open Cursor TypeExpr

/-! ## Chunks -/

/-- The kinds of tokens that announce a type in a declaration. -/
def isGuard : Kind → Bool
  | .colon | .equals | .arrow => true
  | _ => false

/-- A type in a run of tokens, with the token that announces it and the sign
that stands behind it. The levels of the type are as few as can be there. -/
structure Segment where
  guard : Token
  tokens : List Token
  next : Sign
  ascription : Ascription
  ending : Ending
  levels : Nat
  isGuard_guard : isGuard guard.kind = true
  spells : Spells levels ascription.parsed (tokens.map Token.sign) ending
  stops : ending.Stops next
  levels_le : levels ≤ nestingLimit
  least : ∀ ⦃n : Nat⦄ ⦃e : Ending⦄, Spells n ascription.parsed (tokens.map Token.sign) e →
    e.Stops next → levels ≤ n
  type_eq : ascription.type = ascription.parsed
  span_eq : ascription.span =
    ⟨(tokens.headD guard).start, max (lastStop guard.stop tokens) (tokens.headD guard).start⟩

/-- A part of a run of tokens. -/
inductive Chunk where
  /-- A token that stays as it is. -/
  | kept (token : Token)
  /-- A type and the token in front of it. -/
  | typed (segment : Segment)

namespace Chunk

/-- The tokens of a chunk. -/
def tokens : Chunk → List Token
  | .kept t => [t]
  | .typed s => s.guard :: s.tokens

/-- The ascription of a chunk, if it has one. -/
def ascriptions : Chunk → List Ascription
  | .kept _ => []
  | .typed s => [s.ascription]

/-- The tokens of chunks that follow each other. -/
def allTokens (K : List Chunk) : List Token := K.flatMap tokens

/-- The ascriptions of chunks that follow each other. -/
def allAscriptions (K : List Chunk) : List Ascription := K.flatMap ascriptions

@[simp] theorem allTokens_append (K L : List Chunk) :
    allTokens (K ++ L) = allTokens K ++ allTokens L := by
  simp [allTokens]

@[simp] theorem allAscriptions_append (K L : List Chunk) :
    allAscriptions (K ++ L) = allAscriptions K ++ allAscriptions L := by
  simp [allAscriptions]

@[simp] theorem allTokens_kept (ts : List Token) : allTokens (ts.map .kept) = ts := by
  induction ts with
  | nil => rfl
  | cons t ts ih =>
    show t :: allTokens (ts.map .kept) = t :: ts
    rw [ih]

@[simp] theorem allAscriptions_kept (ts : List Token) : allAscriptions (ts.map .kept) = [] := by
  induction ts with
  | nil => rfl
  | cons t ts ih => exact ih

/-- The chunks are cut from the front of `ts` and leave `us`, in a text with the
end `fin`: every type stands in front of the sign that it knows. -/
inductive Cut (fin : Sign) : List Chunk → (ts us : List Token) → Prop where
  | nil (ts : List Token) : Cut fin [] ts ts
  | kept {K : List Chunk} {t : Token} {ts us : List Token} :
      Cut fin K ts us → Cut fin (.kept t :: K) (t :: ts) us
  | typed {K : List Chunk} {s : Segment} {ts us : List Token} :
      s.next = (ts.map Token.sign).headD fin → Cut fin K ts us →
      Cut fin (.typed s :: K) (s.guard :: (s.tokens ++ ts)) us

namespace Cut

variable {fin : Sign} {K L : List Chunk} {ts us vs : List Token}

theorem tokens_eq (h : Cut fin K ts us) : ts = allTokens K ++ us := by
  induction h with
  | nil => rfl
  | @kept K t ts us _ ih =>
    rw [ih]
    rfl
  | @typed K s ts us _ _ ih =>
    rw [ih]
    simp [allTokens, tokens]

theorem append (h : Cut fin K ts us) (k : Cut fin L us vs) : Cut fin (K ++ L) ts vs := by
  induction h with
  | nil => exact k
  | kept _ ih => exact .kept (ih k)
  | typed hnext _ ih => exact .typed hnext (ih k)

theorem keep_all (ts us : List Token) : Cut fin (ts.map .kept) (ts ++ us) us := by
  induction ts with
  | nil => exact .nil us
  | cons t ts ih => exact .kept ih

/-- The place of a type among the tokens. -/
theorem exists_place {s : Segment} (h : Cut fin K ts us) (hs : Chunk.typed s ∈ K) :
    ∃ before behind, ts = before ++ s.guard :: (s.tokens ++ behind) ∧
      s.next = (behind.map Token.sign).headD fin := by
  induction h with
  | nil => contradiction
  | @kept K t ts us _ ih =>
    obtain ⟨before, behind, rfl, hnext⟩ := ih (by simpa using hs)
    exact ⟨t :: before, behind, rfl, hnext⟩
  | @typed K r ts us hr _ ih =>
    rcases List.mem_cons.mp hs with heq | hs
    · cases heq
      exact ⟨[], ts, rfl, hr⟩
    · obtain ⟨before, behind, rfl, hnext⟩ := ih hs
      refine ⟨r.guard :: (r.tokens ++ before), behind, ?_, hnext⟩
      simp

end Cut

/-- Chunks without ascriptions are kept tokens. -/
theorem exists_kept {K : List Chunk} (h : allAscriptions K = []) :
    ∃ ts : List Token, K = ts.map .kept := by
  induction K with
  | nil => exact ⟨[], rfl⟩
  | cons k K ih =>
    simp only [allAscriptions, List.flatMap_cons, List.append_eq_nil_iff] at h
    obtain ⟨ts, rfl⟩ := ih h.2
    cases k with
    | kept t => exact ⟨t :: ts, rfl⟩
    | typed s => simp [ascriptions] at h

end Chunk

/-! ## Revisions -/

/-- Other types for the ascriptions of a text, and their signs. One of them may
be nested too deeply, or none is. -/
structure Revision where
  type : Ascription → TypeExpr
  signs : Segment → List Sign
  mayBeDeep : Prop

namespace Revision

variable (w : Revision)

/-- The signs of a chunk in the revised text. -/
def chunk : Chunk → List Sign
  | .kept t => [t.sign]
  | .typed s => s.guard.sign :: w.signs s

/-- The signs of the revised text. -/
def news (K : List Chunk) : List Sign := K.flatMap w.chunk

/-- The signs of the revision spell its types, and end as the old ones do. -/
def Fits (K : List Chunk) : Prop :=
  ∀ s, Chunk.typed s ∈ K → ∃ n, (nestingLimit < n → w.mayBeDeep) ∧
    Spells n (w.type s.ascription) (w.signs s) s.ending

variable {w} {K L : List Chunk} {fin : Sign}

@[simp] theorem news_nil : w.news [] = [] := rfl

@[simp] theorem news_cons (k : Chunk) : w.news (k :: K) = w.chunk k ++ w.news K := by
  simp [news]

@[simp] theorem news_append : w.news (K ++ L) = w.news K ++ w.news L := by
  simp [news]

@[simp] theorem news_kept (ts : List Token) : w.news (ts.map .kept) = ts.map Token.sign := by
  induction ts with
  | nil => rfl
  | cons t ts ih => simp [chunk, ih]

theorem Fits.append_iff : w.Fits (K ++ L) ↔ w.Fits K ∧ w.Fits L := by
  unfold Fits
  constructor
  · intro h
    exact ⟨fun s hs => h s (List.mem_append_left L hs), fun s hs => h s (List.mem_append_right K hs)⟩
  · rintro ⟨hK, hL⟩ s hs
    rcases List.mem_append.mp hs with hs | hs
    · exact hK s hs
    · exact hL s hs

theorem chunk_ne_nil (k : Chunk) : w.chunk k ≠ [] := by
  cases k <;> simp [chunk]

/-- A text and its revision start with the same sign. -/
theorem headD_news (K : List Chunk) :
    (w.news K).headD fin = ((Chunk.allTokens K).map Token.sign).headD fin := by
  cases K with
  | nil => rfl
  | cons k K => cases k <;> rfl

theorem length_news_lt (h : K ≠ []) : (w.news L).length < (w.news (K ++ L)).length := by
  obtain ⟨k, K, rfl⟩ := List.exists_cons_of_ne_nil h
  have hpos := List.length_pos_iff.mpr (w.chunk_ne_nil k)
  simp only [List.cons_append, news_cons, news_append, List.length_append]
  omega

theorem length_tokens_lt (h : K ≠ []) :
    (Chunk.allTokens L).length < (Chunk.allTokens (K ++ L)).length := by
  obtain ⟨k, K, rfl⟩ := List.exists_cons_of_ne_nil h
  have hpos : 0 < k.tokens.length := by cases k <;> simp [Chunk.tokens]
  simp only [Chunk.allTokens, List.cons_append, List.flatMap_cons, List.flatMap_append,
    List.length_append]
  omega

end Revision

/-! ## Twins -/

/-- Cursors at the same chunk of a text and of its revision. -/
structure Twins (w : Revision) (fin : Sign) (K : List Chunk) (c d : Cursor) : Prop where
  old : c.pending = Chunk.allTokens K
  new : d.pending.map Token.sign = w.news K
  oldFinal : c.final.sign = fin
  newFinal : d.final.sign = fin
  fits : w.Fits K

namespace Twins

variable {w : Revision} {fin : Sign} {K : List Chunk} {c d : Cursor}

theorem next_eq (h : Twins w fin K c d) : d.next = c.next := by
  have hnew := congrArg (fun S => S.headD fin) h.new
  have hold := congrArg (fun ts => (ts.map Token.sign).headD fin) h.old
  have hhead : (w.news K).headD fin = ((Chunk.allTokens K).map Token.sign).headD fin :=
    w.headD_news K
  rw [hhead, ← hold] at hnew
  unfold Cursor.next Cursor.current
  rw [← h.newFinal] at hnew
  have hfinal : c.final.sign = d.final.sign := h.oldFinal.trans h.newFinal.symm
  cases hd : d.pending with
  | nil =>
    cases hc : c.pending with
    | nil => exact hfinal.symm
    | cons t ts =>
      rw [hd, hc] at hnew
      exact hnew
  | cons u us =>
    cases hc : c.pending with
    | nil =>
      rw [hd, hc] at hnew
      exact hnew.trans hfinal.symm
    | cons t ts =>
      rw [hd, hc] at hnew
      exact hnew

theorem kind_eq (h : Twins w fin K c d) : d.kind = c.kind := by
  have hnext := congrArg Sign.kind h.next_eq
  unfold Cursor.next Cursor.current at hnext
  unfold Cursor.kind
  cases K with
  | nil =>
    have hc : c.pending = [] := h.old
    have hd : d.pending = [] := by simpa using h.new
    rw [hc, hd]
  | cons k K =>
    obtain ⟨t, ts, hc⟩ : ∃ t ts, c.pending = t :: ts := by
      rw [h.old]
      cases k <;> exact ⟨_, _, rfl⟩
    obtain ⟨u, us, hd⟩ : ∃ u us, d.pending = u :: us := by
      have hnew := h.new
      cases hd : d.pending with
      | nil =>
        rw [hd] at hnew
        cases k <;> simp [Revision.chunk] at hnew
      | cons u us => exact ⟨u, us, rfl⟩
    rw [hc, hd] at hnext ⊢
    exact hnext

theorem text_eq (h : Twins w fin K c d) : d.current.text = c.current.text :=
  congrArg Sign.text h.next_eq

theorem onNewLine_eq (h : Twins w fin K c d) : d.current.onNewLine = c.current.onNewLine :=
  congrArg Sign.onNewLine h.next_eq

theorem isSeparated_eq (h : Twins w fin K c d) :
    d.current.isSeparated = c.current.isSeparated :=
  congrArg Sign.isSeparated h.next_eq

theorem report (h : Twins w fin K c d) (start stop start' stop' : Nat) (fault fault' : Fault) :
    Twins w fin K (c.report start stop fault) (d.report start' stop' fault') := by
  refine ⟨?_, ?_, ?_, ?_, h.fits⟩
  · rw [pending_report, h.old]
  · rw [pending_report, h.new]
  · rw [final_report, h.oldFinal]
  · rw [final_report, h.newFinal]

theorem advance {t : Token} (h : Twins w fin (.kept t :: K) c d) :
    Twins w fin K c.advance d.advance := by
  refine ⟨?_, ?_, ?_, ?_, (Revision.Fits.append_iff (K := [.kept t])).mp h.fits |>.2⟩
  · exact pending_advance_of_cons h.old
  · rw [pending_advance, List.map_tail, h.new]
    rfl
  · rw [final_advance, h.oldFinal]
  · rw [final_advance, h.newFinal]

/-! ## Passing over units -/

theorem cons_tail {t : Token} {L : List Chunk} (h : Twins w fin (.kept t :: L) c d) :
    ∃ u us, c.pending = t :: Chunk.allTokens L ∧ d.pending = u :: us ∧ u.sign = t.sign := by
  have hnew := h.new
  cases hd : d.pending with
  | nil =>
    rw [hd] at hnew
    contradiction
  | cons u us =>
    rw [hd] at hnew
    exact ⟨u, us, h.old, rfl, (List.cons.inj hnew).1⟩

end Twins

namespace Cursor

/-- Inside brackets that stay open, signs are passed over one by one. -/
theorem skipWithin_of_nestAll {outer : List Bracket} (houter : outer ≠ []) {ts rest : List Token}
    {o o' : List Bracket} (hnest : nestAll o (ts.map Token.sign) = some o')
    {opened : List (Bracket × Nat)} (ho : opened.map Prod.fst = o ++ outer) {c : Cursor}
    (hp : c.pending = ts ++ rest) :
    ∃ (opened' : List (Bracket × Nat)) (c' : Cursor),
      c.skipWithin opened = c'.skipWithin opened' ∧ opened'.map Prod.fst = o' ++ outer ∧
      c'.pending = rest ∧ c'.final = c.final := by
  induction ts generalizing o opened c with
  | nil =>
    cases hnest
    exact ⟨opened, c, rfl, ho, hp, rfl⟩
  | cons t ts ih =>
    simp only [List.map_cons, nestAll, Token.sign_kind] at hnest
    cases hstep : nest o t.kind with
    | none => simp [hstep] at hnest
    | some p =>
      rw [hstep, Option.bind_some] at hnest
      have hwide : nest (opened.map Prod.fst) t.kind = some (p ++ outer) := by
        rw [ho]
        exact nest_append hstep outer
      obtain ⟨opened', hconsume, hopened'⟩ := nesting_of_nest hwide
      have hne : ¬opened'.isEmpty = true := by
        intro hempty
        rw [List.isEmpty_iff.mp hempty] at hopened'
        exact houter (List.append_eq_nil_iff.mp hopened'.symm).2
      obtain ⟨opened'', c', hskip, hmap, hpending, hfinal⟩ :=
        ih hnest hopened' (c := c.advance) (pending_advance_of_cons hp)
      refine ⟨opened'', c', ?_, hmap, hpending, by rw [hfinal, final_advance]⟩
      rw [skipWithin_of_nesting hp hconsume, if_neg hne, hskip]

theorem skipWithin_of_balanced {ts rest : List Token} (hts : Balanced (ts.map Token.sign))
    {opened : List (Bracket × Nat)} (hne : opened ≠ []) {c : Cursor}
    (hp : c.pending = ts ++ rest) :
    ∃ (opened' : List (Bracket × Nat)) (c' : Cursor),
      c.skipWithin opened = c'.skipWithin opened' ∧
      opened'.map Prod.fst = opened.map Prod.fst ∧ c'.pending = rest ∧ c'.final = c.final := by
  have hnest : nestAll [] (ts.map Token.sign) = some [] := hts []
  exact skipWithin_of_nestAll (by simpa using hne) hnest rfl hp

/-- A closing token that fits nothing fits nothing inside the same brackets. -/
theorem nesting_eq_of_not_consume {opened opened' : List (Bracket × Nat)} {t u : Token}
    (hk : u.kind = t.kind) (ho : opened'.map Prod.fst = opened.map Prod.fst)
    (h : ∀ o, nesting opened t ≠ .consume o) : nesting opened' u = nesting opened t := by
  unfold nesting at h ⊢
  rw [hk]
  cases hb : t.kind with
  | closing b =>
    simp only [hb] at h
    cases opened with
    | nil =>
      have hnil : opened' = [] := by simpa using ho
      rw [hnil]
    | cons p outer =>
      cases opened' with
      | nil => contradiction
      | cons p' outer' =>
        have hhead : p'.1 = p.1 := (List.cons.inj ho).1
        by_cases hp : p.1 = b
        · exact absurd (if_pos hp) (h outer)
        · simp only [hhead, if_neg hp]
  | _ => simp [hb] at h

theorem isBracket_of_isGuard {k : Kind} (h : isGuard k = true) : isBracket k = false := by
  cases k <;> first | rfl | contradiction

end Cursor

namespace Twins

variable {w : Revision} {fin : Sign} {K : List Chunk} {c d : Cursor}

/-- Twins that have come to the end of their texts inside the same brackets. -/
theorem skipWithin_nil {opened opened' : List (Bracket × Nat)} (h : Twins w fin [] c d)
    (ho : opened'.map Prod.fst = opened.map Prod.fst) :
    Twins w fin [] (c.skipWithin opened) (d.skipWithin opened') := by
  have hc : c.pending = [] := h.old
  have hd : d.pending = [] := by simpa using h.new
  rw [skipWithin_of_nil hc, skipWithin_of_nil hd]
  cases opened with
  | nil =>
    have hnil : opened' = [] := by simpa using ho
    rw [hnil]
    exact h
  | cons p outer =>
    cases opened' with
    | nil => contradiction
    | cons p' outer' => exact h.report _ _ _ _ _ _

/-- Inside brackets, twins pass over a type and the one in its place, and are
inside the same brackets again. -/
theorem skipWithin_typed {s : Segment} {opened opened' : List (Bracket × Nat)}
    (h : Twins w fin (.typed s :: K) c d) (ho : opened'.map Prod.fst = opened.map Prod.fst)
    (hopen : opened ≠ []) :
    ∃ (inner inner' : List (Bracket × Nat)) (c' d' : Cursor), inner ≠ [] ∧
      inner'.map Prod.fst = inner.map Prod.fst ∧ Twins w fin K c' d' ∧
      c.skipWithin opened = c'.skipWithin inner ∧ d.skipWithin opened' = d'.skipWithin inner' := by
  have hopen' : opened' ≠ [] := by
    intro hnil
    rw [hnil] at ho
    exact hopen (List.map_eq_nil_iff.mp ho.symm)
  have hguard := isBracket_of_isGuard s.isGuard_guard
  have hold : Balanced ((s.guard :: s.tokens).map Token.sign) :=
    .cons hguard s.spells.shape.balanced
  have hnew : Balanced (s.guard.sign :: w.signs s) := by
    obtain ⟨n, _, hspells⟩ := h.fits s (by simp)
    exact .cons hguard hspells.shape.balanced
  -- The tokens of the revised type are the first of those to come.
  obtain ⟨us, vs, hd, hus, hvs⟩ := List.map_eq_append_iff.mp h.new
  rw [← show us.map Token.sign = s.guard.sign :: w.signs s from hus] at hnew
  have hc : c.pending = (s.guard :: s.tokens) ++ Chunk.allTokens K := h.old
  obtain ⟨inner, c', hskip, hinner, hpc, hfc⟩ := skipWithin_of_balanced hold hopen hc
  obtain ⟨inner', d', hskip', hinner', hpd, hfd⟩ := skipWithin_of_balanced hnew hopen' hd
  refine ⟨inner, inner', c', d', ?_, hinner'.trans (ho.trans hinner.symm), ⟨hpc, ?_, ?_, ?_, ?_⟩,
    hskip, hskip'⟩
  · intro hnil
    rw [hnil] at hinner
    exact hopen (List.map_eq_nil_iff.mp hinner.symm)
  · rw [hpd]
    exact hvs
  · rw [hfc, h.oldFinal]
  · rw [hfd, h.newFinal]
  · exact (Revision.Fits.append_iff (K := [.typed s])).mp h.fits |>.2

/-- Twins pass over the same units, also over types inside brackets. -/
theorem skipWithin {opened opened' : List (Bracket × Nat)} (h : Twins w fin K c d)
    (ho : opened'.map Prod.fst = opened.map Prod.fst)
    (hK : opened ≠ [] ∨ ∀ s L, K ≠ .typed s :: L) :
    ∃ K₁ K₂, K = K₁ ++ K₂ ∧ Twins w fin K₂ (c.skipWithin opened) (d.skipWithin opened') := by
  induction K generalizing c d opened opened' with
  | nil => exact ⟨[], [], rfl, h.skipWithin_nil ho⟩
  | cons k K ih =>
    cases k with
    | kept t =>
      obtain ⟨u, us, hc, hd, hsign⟩ := h.cons_tail
      have hk : u.kind = t.kind := congrArg Sign.kind hsign
      cases hstep : nesting opened t with
      | consume inner =>
        have hnest := nest_of_nesting hstep
        rw [← ho, ← hk] at hnest
        obtain ⟨inner', hstep', hinner⟩ := nesting_of_nest hnest
        rw [skipWithin_of_nesting hc hstep, skipWithin_of_nesting hd hstep']
        cases inner with
        | nil =>
          have hnil : inner' = [] := by simpa using hinner
          rw [hnil]
          exact ⟨[.kept t], K, rfl, h.advance⟩
        | cons p outer =>
          cases inner' with
          | nil => contradiction
          | cons p' outer' =>
            obtain ⟨K₁, K₂, rfl, htwins⟩ := ih h.advance hinner (.inl (by simp))
            exact ⟨.kept t :: K₁, K₂, rfl, htwins⟩
      | stray found =>
        have hsame := nesting_eq_of_not_consume hk ho (by simp [hstep])
        rw [skipWithin_of_stray hc hstep, skipWithin_of_stray hd (hsame.trans hstep)]
        exact ⟨[.kept t], K, rfl, (h.report _ _ _ _ _ _).advance⟩
      | mismatched expected found =>
        have hsame := nesting_eq_of_not_consume hk ho (by simp [hstep])
        rw [skipWithin_of_mismatched hc hstep, skipWithin_of_mismatched hd (hsame.trans hstep)]
        exact ⟨[], .kept t :: K, rfl, h.report _ _ _ _ _ _⟩
    | typed s =>
      have hopen : opened ≠ [] := by
        rcases hK with hopen | hhead
        · exact hopen
        · exact absurd rfl (hhead s K)
      obtain ⟨inner, inner', c', d', hne, hinner, htwins, hskip, hskip'⟩ :=
        h.skipWithin_typed ho hopen
      obtain ⟨K₁, K₂, rfl, hrest⟩ := ih htwins hinner (.inl hne)
      rw [hskip, hskip']
      exact ⟨.typed s :: K₁, K₂, rfl, hrest⟩

theorem not_typed (h : Twins w fin K c d) (hk : isGuard c.kind = false) (s : Segment)
    (L : List Chunk) : K ≠ .typed s :: L := by
  rintro rfl
  have hc : c.pending = s.guard :: (s.tokens ++ Chunk.allTokens L) := h.old
  rw [kind_of_cons hc, s.isGuard_guard] at hk
  contradiction

/-- Twins pass over a unit that does not announce a type. -/
theorem skipBalanced (h : Twins w fin K c d) (hk : isGuard c.kind = false) :
    ∃ K₁ K₂, K = K₁ ++ K₂ ∧ Twins w fin K₂ c.skipBalanced d.skipBalanced :=
  h.skipWithin rfl (.inr (h.not_typed hk))

end Twins

end AnySome
