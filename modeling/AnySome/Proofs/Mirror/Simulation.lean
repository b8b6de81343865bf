import Mathlib.Data.Nat.Find
import AnySome.Proofs.Mirror.Lookahead
import AnySome.Proofs.Mirror.Outline

/-!
# Reading a revised text

A run of a parser cuts the tokens that it consumes into chunks: the types of
the ascriptions in its result, and what is kept. Where those types are
replaced, a run on the revised text meets a type nested too deeply, or it
consumes the same chunks and gives the same result, with the other types in
it. That is what it means for runs to *mirror* a run (`Mirrors`).

The chunks are told by the run on the old text alone. So a statement is about
one parser on the old text and a family of parsers on new ones: the members of
the family differ in what earlier parts of the new run have given.

## Main results

* `Mirrors.bind` — sequences mirror sequences.
* `Mirrors.move` — a move that retraces its way mirrors itself.
* `Mirrors.collect` — loops mirror loops.
* `Mirrors.bind_ascription` — the token that announces a type, and the type.
-/

namespace AnySome

open Cursor AnySome.Parser Chunk

/-! ## Twins without problems -/

/-- Twins in front of which nothing is wrong. -/
structure InStep (w : Revision) (fin : Sign) (K : List Chunk) (c d : Cursor) : Prop
    extends Twins w fin K c d where
  oldClean : c.Clean
  newClean : d.Clean

namespace InStep

variable {w : Revision} {fin : Sign} {K L : List Chunk} {c d c' d' : Cursor}

theorem at_old (h : InStep w fin K c d) : c.At fin ((allTokens K).map Token.sign) :=
  ⟨h.oldClean, by rw [h.old], h.oldFinal⟩

theorem at_new (h : InStep w fin K c d) : d.At fin (w.news K) := ⟨h.newClean, h.new, h.newFinal⟩

theorem rest_eq (h : InStep w fin (K ++ L) c d) {rest : List Token}
    (hp : c.pending = allTokens K ++ rest) : rest = allTokens L := by
  rw [h.old, allTokens_append] at hp
  exact (List.append_cancel_left hp).symm

/-- Runs that stop behind the same chunks stay in step. -/
theorem behind (h : InStep w fin (K ++ L) c d) (hleads : c.Leads c') (hc' : c'.findings = [])
    (hp : c.pending = allTokens K ++ c'.pending) (hd' : d'.At fin (w.news L)) :
    InStep w fin L c' d' where
  old := h.rest_eq hp
  new := hd'.signs
  oldFinal := by rw [hleads.final_eq, h.oldFinal]
  newFinal := hd'.final
  fits := (Revision.Fits.append_iff.mp h.fits).2
  oldClean := hleads.clean h.oldClean hc'
  newClean := hd'.clean

end InStep

/-! ## Mirrored runs -/

/-- The new outcome is a type nested too deeply, where there may be one, or it is
in step with the old one and says the same. -/
def Follows (w : Revision) [Mirrored α] (fin : Sign) (L : List Chunk) (old new : α × Cursor) :
    Prop :=
  new.2.DeepIf w.mayBeDeep ∨ (InStep w fin L old.2 new.2 ∧ Both w old.1 new.1)

/-- Whatever types are replaced, runs of `q` on the revised text read what `p`
reads on the text. The ascriptions `seen` are in the result from before. -/
def Mirrors (w : Revision) [Mirrored α] (seen : List Ascription) (p : Parser α)
    (q : ι → Parser α) : Prop :=
  ∀ ⦃c : Cursor⦄, c.Clean → (p c).2.findings = [] →
    ∃ K, Cut c.final.sign K c.pending (p c).2.pending ∧
      seen ++ allAscriptions K = Mirrored.ascriptions (p c).1 ∧
      ∀ (i : ι) ⦃fin : Sign⦄ ⦃L : List Chunk⦄ ⦃d : Cursor⦄, InStep w fin (K ++ L) c d →
        Follows w fin L (p c) (q i d)

namespace Mirrors

variable {w : Revision} {seen : List Ascription} {ι κ α β : Type} [Mirrored α] [Mirrored β]
  {p : Parser α} {q : ι → Parser α}

theorem comap {q' : κ → Parser α} (h : Mirrors w seen p q) (g : κ → ι)
    (hq : ∀ i, q' i = q (g i)) : Mirrors w seen p q' := by
  intro c hc hrun
  obtain ⟨K, hp, hseen, hnew⟩ := h hc hrun
  refine ⟨K, hp, hseen, ?_⟩
  intro i fin L d hstep
  rw [hq i]
  exact hnew (g i) hstep

theorem of_pure {a : α} (hseen : seen = Mirrored.ascriptions a)
    (hq : ∀ i, ∃ b, q i = Pure.pure b ∧ Both w a b) : Mirrors w seen (Pure.pure a) q := by
  intro c hc hrun
  refine ⟨[], .nil _, (List.append_nil seen).trans hseen, ?_⟩
  intro i fin L d hstep
  obtain ⟨b, hb, hboth⟩ := hq i
  rw [hb]
  exact .inr ⟨hstep, hboth⟩

theorem pure {a : α} {b : ι → α} (hseen : seen = Mirrored.ascriptions a)
    (hb : ∀ i, Both w a (b i)) : Mirrors w seen (Pure.pure a) (fun i => Pure.pure (b i)) :=
  of_pure hseen fun i => ⟨b i, rfl, hb i⟩

/-- Sequences mirror sequences: what the first part gives on the new text is
known to the second part there. -/
theorem bind {k : α → Parser β} {k' : ι → α → Parser β} [Steady p] [∀ a, Steady (k a)]
    [∀ i a, Steady (k' i a)] (hp : Mirrors w [] p q)
    (hk : ∀ a, Mirrors w (seen ++ Mirrored.ascriptions a) (k a)
      (fun x : { x : ι × α // Both w a x.2 } => k' x.1.1 x.1.2)) :
    Mirrors w seen (p >>= k) (fun i => q i >>= k' i) := by
  intro c hc hrun
  have hfirst : (p c).2.findings = [] :=
    (Steady.leads (p := k (p c).1) (p c).2).findings_nil hrun
  have hclean : (p c).2.Clean := (Steady.leads c).clean hc hfirst
  obtain ⟨K, hpK, hseenK, hnewK⟩ := hp hc hfirst
  obtain ⟨M, hpM, hseenM, hnewM⟩ := hk (p c).1 hclean hrun
  rw [(Steady.leads (p := p) c).final_eq] at hpM
  refine ⟨K ++ M, hpK.append hpM, ?_, ?_⟩
  · rw [allAscriptions_append, ← List.append_assoc]
    rw [List.nil_append] at hseenK
    rw [hseenK]
    exact hseenM
  · intro i fin L d hstep
    rw [List.append_assoc] at hstep
    rcases hnewK i hstep with hdeep | ⟨hstep', hboth⟩
    · exact .inl (Steady.deep (p := k' i (q i d).1) hdeep)
    · exact hnewM ⟨(i, (q i d).1), hboth⟩ hstep'

theorem bind_plain [Plain α] {k : α → Parser β} {k' : ι → α → Parser β} [Steady p]
    [∀ a, Steady (k a)] [∀ i a, Steady (k' i a)] (hp : Mirrors w [] p q)
    (hk : ∀ a, Mirrors w seen (k a) (fun i => k' i a)) :
    Mirrors w seen (p >>= k) (fun i => q i >>= k' i) := by
  refine hp.bind fun a => ?_
  rw [Plain.ascriptions_eq, List.append_nil]
  exact (hk a).comap (fun x => x.1.1) fun x => by rw [x.2.eq]

theorem ite_of_iff {P : Prop} {P' : ι → Prop} [Decidable P] [∀ i, Decidable (P' i)]
    (hP : ∀ i, P' i ↔ P) {p' : Parser α} {q' : ι → Parser α} (hp : P → Mirrors w seen p q)
    (hp' : ¬P → Mirrors w seen p' q') :
    Mirrors w seen (if P then p else p') (fun i => if P' i then q i else q' i) := by
  split
  next h => exact (hp h).comap id fun i => if_pos ((hP i).mpr h)
  next h => exact (hp' h).comap id fun i => if_neg fun h' => h ((hP i).mp h')

theorem ite {P : Prop} [Decidable P] {p' : Parser α} {q' : ι → Parser α}
    (hp : P → Mirrors w seen p q) (hp' : ¬P → Mirrors w seen p' q') :
    Mirrors w seen (if P then p else p') (fun i => if P then q i else q' i) :=
  ite_of_iff (fun _ => Iff.rfl) hp hp'

/-- A run with findings mirrors nothing. -/
theorem vacuous (h : ∀ c : Cursor, (p c).2.findings ≠ []) : Mirrors w seen p q := by
  intro c hc hrun
  exact absurd hrun (h c)

theorem reportHere_bind {fault : Fault} {k : Unit → Parser α} [∀ a, Steady (k a)] :
    Mirrors w seen (reportHere fault >>= k) q := by
  apply vacuous
  intro c hrun
  exact findings_reportHere_ne_nil fault c
    ((Steady.leads (p := k ()) (c.reportHere fault)).findings_nil hrun)

theorem reportDelimiter_bind {start : Nat} {fault : Fault} {k : Unit → Parser α}
    [∀ a, Steady (k a)] : Mirrors w seen (reportDelimiter start fault >>= k) q := by
  apply vacuous
  intro c hrun
  exact findings_reportDelimiter_ne_nil start fault c
    ((Steady.leads (p := k ()) (c.reportDelimiter start fault)).findings_nil hrun)

/-! ## Single steps -/

section Steps

variable {γ : Type} [Mirrored γ] [Plain γ]

/-- What twins agree on can be asked. -/
theorem look {g : Cursor → γ}
    (hg : ∀ {fin : Sign} {K : List Chunk} {c d : Cursor}, Twins w fin K c d → g d = g c) :
    Mirrors w [] (fun c => (g c, c)) (fun _ : ι => fun c => (g c, c)) := by
  intro c hc hrun
  refine ⟨[], .nil _, (Plain.ascriptions_eq _).symm, ?_⟩
  intro i fin L d hstep
  refine .inr ⟨hstep, ?_⟩
  have heq : g d = g c := hg hstep.toTwins
  simp only [heq]
  exact .refl _

theorem isAt (k : Kind) : Mirrors w [] (isAt k) (fun _ : ι => Parser.isAt k) :=
  look fun h => congrArg (· == k) h.kind_eq

theorem kind : Mirrors w [] kind (fun _ : ι => Parser.kind) :=
  look fun h => h.kind_eq

theorem isAtName : Mirrors w [] isAtName (fun _ : ι => Parser.isAtName) :=
  look fun h => congrArg Kind.isName h.kind_eq

/-- The kind of the token decides how to go on. -/
theorem bind_kind {k : Kind → Parser β} {k' : ι → Kind → Parser β}
    (hsteady : ∀ a, Steady (k a)) (hsteady' : ∀ i a, Steady (k' i a))
    (hk : ∀ a, Mirrors w seen (k a) (fun i => k' i a)) :
    Mirrors w seen (Parser.kind >>= k) (fun i => Parser.kind >>= k' i) :=
  kind.bind_plain hk

theorem bind_get {g : Cursor → γ} {k : γ → Parser β} [∀ a, Steady (k a)]
    (hg : ∀ {fin : Sign} {K : List Chunk} {c d : Cursor}, Twins w fin K c d → g d = g c)
    (hk : ∀ a, Mirrors w seen (k a) (fun _ : ι => k a)) :
    Mirrors w seen (get >>= fun c => k (g c)) (fun _ : ι => get >>= fun c => k (g c)) := by
  have hsteady : Steady (fun c => (g c, c) : Parser γ) := ⟨fun _ => .refl⟩
  exact (look hg).bind_plain hk

end Steps

theorem current : Mirrors w [] current (fun _ : ι => Parser.current) := by
  intro c hc hrun
  refine ⟨[], .nil _, rfl, ?_⟩
  intro i fin L d hstep
  refine .inr ⟨hstep, ?_⟩
  have hnext : d.current.sign = c.current.sign := hstep.next_eq
  have hgap : d.current.gap = c.current.gap := congrArg Sign.gap hnext
  have hkind : d.current.kind = c.current.kind := congrArg Sign.kind hnext
  have htext : d.current.text = c.current.text := congrArg Sign.text hnext
  show (⟨d.current.gap, d.current.kind, d.current.text, 0, true⟩ : Token) =
    ⟨c.current.gap, c.current.kind, c.current.text, 0, true⟩
  rw [hgap, hkind, htext]

/-- A move that retraces its way keeps everything that it passes. -/
theorem move {f : Cursor → Cursor} (hf : Retraces f) (hleads : ∀ c : Cursor, c.Leads (f c)) :
    Mirrors w [] (move f) (fun _ : ι => Parser.move f) := by
  intro c hc hrun
  have hrun' : (f c).findings = [] := hrun
  obtain ⟨T, U, hTU, hU, hsame⟩ := hf hc.at hrun'
  obtain ⟨ts, us, hp, rfl, rfl⟩ := List.map_eq_append_iff.mp hTU
  have hus : us = (f c).pending := by
    obtain ⟨vs, hvs, _⟩ := (hleads c).exists_consumed
    have hlen := congrArg List.length hU.signs
    rw [List.length_map, List.length_map] at hlen
    exact (List.append_inj' (hp.symm.trans hvs) hlen.symm).2
  subst hus
  refine ⟨ts.map .kept, ?_, by simp; rfl, ?_⟩
  · rw [hp]
    exact .keep_all ts _
  · intro i fin L d hstep
    have hL : (f c).pending = allTokens L := hstep.rest_eq (by rw [allTokens_kept, hp])
    have hhead : (w.news L).headD fin = ((f c).pending.map Token.sign).headD fin := by
      rw [hL, Revision.headD_news]
    have hd := hstep.at_new
    rw [Revision.news_append, Revision.news_kept] at hd
    rw [← hstep.oldFinal] at hd hhead
    have hnew := hsame hhead hd
    rw [hstep.oldFinal] at hnew
    refine .inr ⟨hstep.behind (hleads c) hrun' ?_ hnew, rfl⟩
    rw [allTokens_kept, hp]
    rfl

theorem advance : Mirrors w [] advance (fun _ : ι => Parser.advance) :=
  move .advance fun _ => Leads.refl.advance

theorem close (bracket : Bracket) (start : Nat) (start' : ι → Nat) :
    Mirrors w [] (close bracket start) (fun i => Parser.close bracket (start' i)) := by
  intro c hc hrun
  unfold Parser.close at hrun ⊢
  split at hrun
  next hk =>
    simp only [if_pos hk]
    obtain ⟨K, hp, hseen, hnew⟩ := advance (w := w) (ι := ι) hc hrun
    refine ⟨K, hp, hseen, ?_⟩
    intro i fin L d hstep
    rw [if_pos (hstep.kind_eq.trans hk)]
    exact hnew i hstep
  · exact absurd hrun (findings_reportDelimiter_ne_nil _ _ _)

/-! ## Texts and spans -/

theorem spanFrom (start : Nat) (start' : ι → Nat) :
    Mirrors w [] (Declaration.spanFrom start) (fun i => Declaration.spanFrom (start' i)) := by
  intro c hc hrun
  refine ⟨[], .nil _, rfl, ?_⟩
  intro i fin L d hstep
  exact .inr ⟨hstep, rfl⟩

theorem spanned (h : Mirrors w [] p q) :
    Mirrors w [] (spanned p) (fun i => Parser.spanned (q i)) := by
  intro c hc hrun
  obtain ⟨K, hp, hseen, hnew⟩ := h hc hrun
  refine ⟨K, hp, ?_, ?_⟩
  · rw [hseen]
    exact (List.append_nil _).symm
  · intro i fin L d hstep
    rcases hnew i hstep with hdeep | ⟨hstep', hboth⟩
    · exact .inl hdeep
    · exact .inr ⟨hstep', Prod.ext hboth rfl⟩

/-- A text is the same if no type is in it. -/
theorem written {p : Parser Unit} {q : ι → Parser Unit} (h : Mirrors w [] p q) :
    Mirrors w [] (written p) (fun i => Parser.written (q i)) := by
  intro c hc hrun
  obtain ⟨K, hp, hseen, hnew⟩ := h hc hrun
  obtain ⟨ts, rfl⟩ := exists_kept hseen
  refine ⟨ts.map .kept, hp, hseen, ?_⟩
  intro i fin L d hstep
  rcases hnew i hstep with hdeep | ⟨hstep', _⟩
  · exact .inl hdeep
  refine .inr ⟨hstep', ?_⟩
  have hold := hstep.at_old
  rw [allTokens_append, allTokens_kept, List.map_append] at hold
  have hnew := hstep.at_new
  rw [Revision.news_append, Revision.news_kept] at hnew
  show d.writtenSince (q i d).2 = c.writtenSince (p c).2
  rw [hnew.writtenSince_eq hstep'.at_new, hold.writtenSince_eq hstep'.at_old]

/-! ## Loops -/

theorem round_cases {r r' : Round α} (h : Both w r r') :
    (r = .finished ∧ r' = .finished) ∨ (∃ a a', r = .last a ∧ r' = .last a' ∧ Both w a a') ∨
      ∃ a a', r = .more a ∧ r' = .more a' ∧ Both w a a' := by
  unfold Both at h ⊢
  cases r <;> cases r' <;> simp_all [Mirrored.outline]

section

variable {fin : Sign} {L M : List Chunk} {c d : Cursor} {round : Parser (Round α)} [Steady round]
  {a : α}

/-- A list loop on the new text, behind a round that has found nothing. -/
theorem follows_finished (h : Follows w fin L (.finished, c) (round d)) :
    Follows w fin L ([], c) (Parser.collect round d) := by
  rcases h with hdeep | ⟨hstep, hboth⟩
  · exact .inl (hdeep.leads (leads_collect d))
  rcases round_cases hboth with ⟨_, hr⟩ | ⟨_, _, hr, _⟩ | ⟨_, _, hr, _⟩
  · rw [collect_of_finished (d := (round d).2) (Prod.ext hr rfl)]
    exact .inr ⟨hstep, rfl⟩
  · contradiction
  · contradiction

theorem follows_last (h : Follows w fin L (.last a, c) (round d)) :
    Follows w fin L ([a], c) (Parser.collect round d) := by
  rcases h with hdeep | ⟨hstep, hboth⟩
  · exact .inl (hdeep.leads (leads_collect d))
  rcases round_cases hboth with ⟨hr, _⟩ | ⟨b, a', hr, hr', ha⟩ | ⟨_, _, hr, _⟩
  · contradiction
  · cases hr
    rw [collect_of_last (d := (round d).2) (Prod.ext hr' rfl)]
    exact .inr ⟨hstep, ha.singleton⟩
  · contradiction

/-- A round that has moved, with what the loop does behind it. -/
theorem follows_more {rest : List α × Cursor} (h : Follows w fin L (.more a, c) (round d))
    (hmoved : InStep w fin L c (round d).2 → (round d).2.remaining < d.remaining)
    (hrest : InStep w fin L c (round d).2 →
      Follows w fin M rest (Parser.collect round (round d).2)) :
    Follows w fin M (a :: rest.1, rest.2) (Parser.collect round d) := by
  rcases h with hdeep | ⟨hstep, hboth⟩
  · exact .inl (hdeep.leads (leads_collect d))
  rcases round_cases hboth with ⟨hr, _⟩ | ⟨_, _, hr, _⟩ | ⟨b, a', hr, hr', ha⟩
  · contradiction
  · contradiction
  cases hr
  rw [collect_of_more (d := (round d).2) (Prod.ext hr' rfl) (hmoved hstep)]
  rcases hrest hstep with hdeep | ⟨hstep', hall⟩
  · exact .inl hdeep
  · exact .inr ⟨hstep', ha.cons hall⟩

theorem follows_stuck (h : Follows w fin L (.more a, c) (round d))
    (hstay : InStep w fin L c (round d).2 → ¬(round d).2.remaining < d.remaining) :
    Follows w fin L ([a], c) (Parser.collect round d) := by
  rcases h with hdeep | ⟨hstep, hboth⟩
  · exact .inl (hdeep.leads (leads_collect d))
  rcases round_cases hboth with ⟨hr, _⟩ | ⟨_, _, hr, _⟩ | ⟨b, a', hr, hr', ha⟩
  · contradiction
  · contradiction
  cases hr
  rw [collect_of_stuck (d := (round d).2) (Prod.ext hr' rfl) (hstay hstep)]
  exact .inr ⟨hstep, ha.singleton⟩

end

/-- Loops mirror loops: a round moves in the new text if it moves in the old. -/
theorem collect {round : Parser (Round α)} {round' : ι → Parser (Round α)} [Steady round]
    [∀ i, Steady (round' i)] (h : Mirrors w [] round round') :
    Mirrors w [] (collect round) (fun i => Parser.collect (round' i)) := by
  intro c hc hrun
  induction hn : c.remaining using Nat.strongRecOn generalizing c with
  | _ n ih =>
    have hfirst : (round c).2.findings = [] := (leads_collect c).findings_nil hrun
    have hclean : (round c).2.Clean := (Steady.leads c).clean hc hfirst
    have hfinal : (round c).2.final = c.final := (Steady.leads c).final_eq
    obtain ⟨K, hp, hseen, hnew⟩ := h hc hfirst
    cases hround : round c with
    | mk r c' =>
    rw [hround] at hclean hfinal hp hseen hnew
    dsimp only at hclean hfinal hp hseen hnew
    cases r with
    | finished =>
      rw [collect_of_finished hround]
      exact ⟨K, hp, hseen, fun i _ _ _ hstep => follows_finished (hnew i hstep)⟩
    | last a =>
      rw [collect_of_last hround]
      exact ⟨K, hp, by rw [hseen]; exact (List.append_nil _).symm,
        fun i _ _ _ hstep => follows_last (hnew i hstep)⟩
    | more a =>
      by_cases hmove : c'.remaining < c.remaining
      · rw [collect_of_more hround hmove] at hrun ⊢
        obtain ⟨M, hpM, hseenM, hnewM⟩ := ih _ (hn ▸ hmove) hclean hrun rfl
        rw [hfinal] at hpM
        refine ⟨K ++ M, hp.append hpM, ?_, ?_⟩
        · rw [List.nil_append] at hseen hseenM ⊢
          rw [allAscriptions_append, hseen, hseenM]
          rfl
        · intro i fin L d hstep
          rw [List.append_assoc] at hstep
          refine follows_more (hnew i hstep) ?_ fun hstep' => hnewM i hstep'
          exact fun hstep' => (hstep.moved_together hstep'.toTwins).mpr hmove
      · rw [collect_of_stuck hround hmove]
        refine ⟨K, hp, by rw [hseen]; exact (List.append_nil _).symm, ?_⟩
        intro i fin L d hstep
        refine follows_stuck (hnew i hstep) ?_
        exact fun hstep' hlt => hmove ((hstep.moved_together hstep'.toTwins).mp hlt)

theorem many {item : Parser (Option α)} {item' : ι → Parser (Option α)} [Steady item]
    [∀ i, Steady (item' i)] (h : Mirrors w [] item item') :
    Mirrors w [] (many item) (fun i => Parser.many (item' i)) := by
  refine collect (h.bind fun o => ?_)
  cases o with
  | none =>
    refine of_pure rfl ?_
    rintro ⟨⟨i, o'⟩, ho⟩
    cases o' with
    | none => exact ⟨.finished, rfl, rfl⟩
    | some a' => exact absurd ho (by simp [Both, Mirrored.outline])
  | some a =>
    refine of_pure (List.append_nil _) ?_
    rintro ⟨⟨i, o'⟩, ho⟩
    cases o' with
    | none => exact absurd ho (by simp [Both, Mirrored.outline])
    | some a' => exact ⟨.more a', rfl, congrArg Round.more (Option.some.inj ho)⟩

/-- A growing result that is the same in both texts. -/
theorem iterate [Plain α] {round : α → Parser (Option α)} [∀ a, Steady (round a)]
    (h : ∀ a, Mirrors w [] (round a) (fun _ : ι => round a)) (a : α) :
    Mirrors w [] (iterate round a) (fun _ : ι => Parser.iterate round a) := by
  intro c hc hrun
  induction hn : c.remaining using Nat.strongRecOn generalizing a c with
  | _ n ih =>
    have hfirst : (round a c).2.findings = [] := (leads_iterate_of_round a c).findings_nil hrun
    have hclean : (round a c).2.Clean := (Steady.leads c).clean hc hfirst
    have hfinal : (round a c).2.final = c.final := (Steady.leads c).final_eq
    obtain ⟨K, hp, hseen, hnew⟩ := h a hc hfirst
    cases hround : round a c with
    | mk o c' =>
    rw [hround] at hclean hfinal hp hseen hnew
    dsimp only at hclean hfinal hp hseen hnew
    have hkept : allAscriptions K = [] := hseen.trans (Plain.ascriptions_eq o)
    have hnext : ∀ (i : ι) ⦃fin : Sign⦄ ⦃L : List Chunk⦄ ⦃d : Cursor⦄,
        InStep w fin (K ++ L) c d → (Parser.iterate round a d).2.DeepIf w.mayBeDeep ∨
          ∃ d', round a d = (o, d') ∧ InStep w fin L c' d' := by
      intro i fin L d hstep
      rcases hnew i hstep with hdeep | ⟨hstep', hboth⟩
      · exact .inl (hdeep.leads (leads_iterate_of_round a d))
      · exact .inr ⟨(round a d).2, Prod.ext hboth.eq rfl, hstep'⟩
    cases o with
    | none =>
      rw [iterate_of_none hround]
      refine ⟨K, hp, hkept.trans (Plain.ascriptions_eq a).symm, ?_⟩
      intro i fin L d hstep
      rcases hnext i hstep with hdeep | ⟨d', hround', hstep'⟩
      · exact .inl hdeep
      show Follows w fin L _ (Parser.iterate round a d)
      rw [iterate_of_none hround']
      exact .inr ⟨hstep', .refl a⟩
    | some b =>
      by_cases hmove : c'.remaining < c.remaining
      · rw [iterate_of_some hround hmove] at hrun ⊢
        obtain ⟨M, hpM, hseenM, hnewM⟩ := ih _ (hn ▸ hmove) b hclean hrun rfl
        rw [hfinal] at hpM
        refine ⟨K ++ M, hp.append hpM, ?_, ?_⟩
        · rw [allAscriptions_append, hkept]
          exact hseenM
        · intro i fin L d hstep
          rw [List.append_assoc] at hstep
          rcases hnext i hstep with hdeep | ⟨d', hround', hstep'⟩
          · exact .inl hdeep
          have hmove' : d'.remaining < d.remaining :=
            (hstep.moved_together hstep'.toTwins).mpr hmove
          show Follows w fin L _ (Parser.iterate round a d)
          rw [iterate_of_some hround' hmove']
          exact hnewM i hstep'
      · rw [iterate_of_stuck hround hmove]
        refine ⟨K, hp, hkept.trans (Plain.ascriptions_eq b).symm, ?_⟩
        intro i fin L d hstep
        rcases hnext i hstep with hdeep | ⟨d', hround', hstep'⟩
        · exact .inl hdeep
        have hstay : ¬d'.remaining < d.remaining :=
          fun hlt => hmove ((hstep.moved_together hstep'.toTwins).mp hlt)
        show Follows w fin L _ (Parser.iterate round a d)
        rw [iterate_of_stuck hround' hstay]
        exact .inr ⟨hstep', .refl b⟩

theorem advancing [Steady p] [∀ i, Steady (q i)] (h : Mirrors w [] p q) :
    Mirrors w [] (Declaration.advancing p) (fun i => Declaration.advancing (q i)) := by
  intro c hc hrun
  have hleads : (p c).2.Leads (Declaration.advancing p c).2 := leads_advancing c
  have hfirst : (p c).2.findings = [] := hleads.findings_nil hrun
  have hclean : (p c).2.Clean := (Steady.leads c).clean hc hfirst
  obtain ⟨K, hp, hseen, hnew⟩ := h hc hfirst
  by_cases hmove : (p c).2.remaining < c.remaining
  · have hsame : Declaration.advancing p c = p c := Prod.ext rfl (if_pos hmove)
    rw [hsame]
    refine ⟨K, hp, hseen, ?_⟩
    intro i fin L d hstep
    rcases hnew i hstep with hdeep | ⟨hstep', hboth⟩
    · exact .inl (hdeep.leads (leads_advancing d))
    · have hmove' : (q i d).2.remaining < d.remaining :=
        (hstep.moved_together hstep'.toTwins).mpr hmove
      have hsame' : Declaration.advancing (q i) d = q i d := Prod.ext rfl (if_pos hmove')
      show Follows w fin L _ (Declaration.advancing (q i) d)
      rw [hsame']
      exact .inr ⟨hstep', hboth⟩
  · have hstep : Declaration.advancing p c = ((p c).1, (p c).2.advance) :=
      Prod.ext rfl (if_neg hmove)
    rw [hstep] at hrun ⊢
    obtain ⟨M, hpM, hseenM, hnewM⟩ := advance (w := w) (ι := ι) hclean hrun
    rw [(Steady.leads (p := p) c).final_eq] at hpM
    refine ⟨K ++ M, hp.append hpM, ?_, ?_⟩
    · have hnone : allAscriptions M = [] := hseenM
      rw [allAscriptions_append, hnone, List.append_nil]
      exact hseen
    · intro i fin L d hstep
      rw [List.append_assoc] at hstep
      rcases hnew i hstep with hdeep | ⟨hstep', hboth⟩
      · exact .inl (hdeep.leads (leads_advancing d))
      · have hstay : ¬(q i d).2.remaining < d.remaining :=
          fun hlt => hmove ((hstep.moved_together hstep'.toTwins).mp hlt)
        have hsame' : Declaration.advancing (q i) d = ((q i d).1, (q i d).2.advance) :=
          Prod.ext rfl (if_neg hstay)
        show Follows w fin L _ (Declaration.advancing (q i) d)
        rw [hsame']
        rcases hnewM i hstep' with hdeep | ⟨hstep'', _⟩
        · exact .inl hdeep
        · exact .inr ⟨hstep'', hboth⟩

/-! ## Types -/

theorem ascription_eq (c : Cursor) :
    Declaration.ascription c =
      let type := TypeExpr.parser TypeExpr.nestingLimit c
      (Ascription.ofParsed ⟨c.current.start, max type.2.previousStop c.current.start⟩ type.1,
        type.2) := rfl

/-- What is read as the type behind a token is a segment. -/
theorem exists_segment {c : Cursor} (hc : c.Clean) (hguard : isGuard c.kind = true)
    (hrun : (Declaration.ascription c.advance).2.findings = []) :
    ∃ s : Segment, c.pending = s.guard :: (s.tokens ++ (Declaration.ascription c.advance).2.pending) ∧
      s.ascription = (Declaration.ascription c.advance).1 ∧
      s.next =
        ((Declaration.ascription c.advance).2.pending.map Token.sign).headD c.final.sign := by
  classical
  obtain ⟨t, ts, hp⟩ : ∃ t ts, c.pending = t :: ts := by
    apply List.exists_cons_of_ne_nil
    intro hnil
    rw [kind_of_pending_nil hnil] at hguard
    contradiction
  have hkind := (kind_of_cons hp).symm
  rw [ascription_eq] at hrun ⊢
  dsimp only at hrun ⊢
  obtain ⟨T, U, e, hTU, hU, hspells, hstops, _⟩ :=
    TypeExpr.sound_of_depth TypeExpr.nestingLimit hc.advance.at hrun
  obtain ⟨us, hus, hstop⟩ :=
    (Steady.leads (p := TypeExpr.parser TypeExpr.nestingLimit) c.advance).exists_consumed
  generalize TypeExpr.parser TypeExpr.nestingLimit c.advance = type at *
  -- The signs of the type are those of the tokens that were consumed.
  have hsigns : us.map Token.sign = T := by
    rw [hus, List.map_append, hU.signs] at hTU
    exact List.append_cancel_right hTU
  have hadvance := pending_advance_of_cons hp
  obtain ⟨v, vs, rfl⟩ : ∃ v vs, us = v :: vs := by
    apply List.exists_cons_of_ne_nil
    rintro rfl
    exact hspells.shape.ne_nil hsigns.symm
  have hstart : c.advance.current = v := by
    unfold Cursor.current
    rw [hus]
    rfl
  subst hsigns
  rw [previousStop_advance hp] at hstop
  rw [← hU.signs, final_advance] at hstops
  -- Of all spellings that stop there, one with the fewest levels.
  have hsome : ∃ n e, TypeExpr.Spells n type.1 ((v :: vs).map Token.sign) e ∧
      e.Stops ((type.2.pending.map Token.sign).headD c.final.sign) := ⟨_, e, hspells, hstops⟩
  obtain ⟨e', hspells', hstops'⟩ := Nat.find_spec hsome
  refine ⟨⟨t, v :: vs, _, _, e', Nat.find hsome, by rw [hkind, hguard], hspells', hstops', ?_, ?_,
    rfl, ?_⟩, ?_, rfl, rfl⟩
  · exact Nat.find_min' hsome ⟨e, hspells, hstops⟩
  · exact fun n e hn he => Nat.find_min' hsome ⟨e, hn, he⟩
  · rw [hstart, hstop]
    rfl
  · rw [hp, ← hadvance, hus]

/-- The revised type is read in the place of the old one. -/
theorem ascription_follows {s : Segment} {fin : Sign} {L : List Chunk} {c d : Cursor}
    (hstep : InStep w fin (.typed s :: L) c d)
    (hnext : s.next = ((allTokens L).map Token.sign).headD fin) :
    (Declaration.ascription d.advance).2.DeepIf w.mayBeDeep ∨
      ((Declaration.ascription d.advance).2.At fin (w.news L) ∧
        Both w s.ascription (Declaration.ascription d.advance).1) := by
  have hd : d.advance.At fin (w.signs s ++ w.news L) := hstep.at_new.advance
  have hstops := s.stops
  rw [hnext, ← Revision.headD_news (w := w)] at hstops
  obtain ⟨n, hmay, hspells⟩ := hstep.fits s (by simp)
  rw [ascription_eq]
  rcases TypeExpr.complete_of_depth hmay hspells hstops hd with
    hdeep | ⟨htype, hat⟩
  · exact .inl hdeep
  · refine .inr ⟨hat, ?_⟩
    show (⟨default, (TypeExpr.parser TypeExpr.nestingLimit d.advance).1,
      (TypeExpr.parser TypeExpr.nestingLimit d.advance).1⟩ : Ascription) = _
    rw [htype]
    rfl

/-- A token that announces a type, the type, and what stands behind it. -/
theorem bind_ascription {g : Kind} (hg : isGuard g = true) {k : Ascription → Parser β}
    {k' : ι → Ascription → Parser β} [∀ a, Steady (k a)] [∀ i a, Steady (k' i a)]
    {r : Bool → Parser β} {r' : ι → Bool → Parser β}
    (hr : r true = (Parser.advance >>= fun _ => Declaration.ascription >>= k))
    (hr' : ∀ i, r' i true = (Parser.advance >>= fun _ => Declaration.ascription >>= k' i))
    (hfalse : Mirrors w seen (r false) (fun i => r' i false))
    (hk : ∀ a, Mirrors w (seen ++ [a]) (k a)
      (fun x : { x : ι × Ascription // Both w a x.2 } => k' x.1.1 x.1.2)) :
    Mirrors w seen (Parser.isAt g >>= r) (fun i => Parser.isAt g >>= r' i) := by
  intro c hc hrun
  rw [Parser.bind_isAt] at hrun ⊢
  by_cases hkind : c.kind = g
  · rw [beq_iff_eq.mpr hkind, hr, Parser.bind_advance, run_bind] at hrun ⊢
    have hfirst : (Declaration.ascription c.advance).2.findings = [] :=
      (Steady.leads (p := k _) _).findings_nil hrun
    have hleads : c.Leads (Declaration.ascription c.advance).2 :=
      Leads.refl.advance.trans (Steady.leads c.advance)
    obtain ⟨s, hp, hs, hnext⟩ := exists_segment hc (by rw [hkind, hg]) hfirst
    obtain ⟨M, hpM, hseenM, hnewM⟩ := hk _ (hleads.clean hc hfirst) hrun
    rw [hleads.final_eq] at hpM
    refine ⟨.typed s :: M, ?_, ?_, ?_⟩
    · rw [hp]
      exact .typed hnext hpM
    · rw [← hseenM, ← hs]
      simp [allAscriptions, Chunk.ascriptions]
    · intro i fin L d hstep
      have hrest : (Declaration.ascription c.advance).2.pending = allTokens (M ++ L) := by
        have hold : c.pending = s.guard :: (s.tokens ++ allTokens (M ++ L)) := hstep.old
        rw [hp] at hold
        exact List.append_cancel_left (List.cons.inj hold).2
      rw [hrest, hstep.oldFinal] at hnext
      have hnew : (Parser.isAt g >>= r' i) d =
          k' i (Declaration.ascription d.advance).1 (Declaration.ascription d.advance).2 := by
        rw [Parser.bind_isAt, hstep.kind_eq, beq_iff_eq.mpr hkind, hr' i]
        rfl
      show Follows w fin L _ ((Parser.isAt g >>= r' i) d)
      rw [hnew]
      rcases ascription_follows hstep hnext with hdeep | ⟨hat, hboth⟩
      · exact .inl (Steady.deep (p := k' i _) hdeep)
      · rw [hs] at hboth
        refine hnewM ⟨(i, _), hboth⟩ ?_
        exact InStep.behind (K := [.typed s]) hstep hleads hfirst
          (by rw [hp]; simp [allTokens, Chunk.tokens]) hat
  · rw [beq_false_of_ne hkind] at hrun ⊢
    obtain ⟨K, hp, hseen, hother⟩ := hfalse hc hrun
    refine ⟨K, hp, hseen, ?_⟩
    intro i fin L d hstep
    have hnew : (Parser.isAt g >>= r' i) d = r' i false d := by
      rw [Parser.bind_isAt, hstep.kind_eq, beq_false_of_ne hkind]
    show Follows w fin L _ ((Parser.isAt g >>= r' i) d)
    rw [hnew]
    exact hother i hstep

end Mirrors

end AnySome
