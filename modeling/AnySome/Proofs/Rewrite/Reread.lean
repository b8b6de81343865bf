import AnySome.Proofs.Mirror.Declarations
import AnySome.Proofs.Rewrite.Levels

/-!
# Reading a file that was written back

A file that was read, some of whose types are replaced by variants of
themselves, is written back and read again. Either a type is now nested too
deeply, and that is the first problem, or the declarations are the same with
the new types in them. The former happens only if some type was read with less
room below the limit than its variant may take up.

## Main results

* `SourceFile.parse_render` — what reading a file again can give.
-/

namespace AnySome

open AnySome.Cursor AnySome.Parser AnySome.Chunk

/-! ## The start of a text -/

theorem Agree.head?_eq {A B : List Char} (h : Agree A B) : B.head? = A.head? := by
  cases h with
  | refl => rfl
  | hinge R hc Y Y' => cases R <;> rfl

/-- A byte order mark at the start of a text, or nothing. -/
theorem TokenStream.exists_mark (text : String) :
    ∃ R, text.toList = R ++ (body text).2 ∧ (body text).1 = Text.byteLength R ∧
      ∀ {other : String} {B : List Char}, other.toList = R ++ B → Agree (body text).2 B →
        body other = ((body text).1, B) := by
  unfold body
  split
  next cs hcs =>
    refine ⟨['\ufeff'], hcs, rfl, ?_⟩
    intro other B hother _
    rw [hother]
    rfl
  next hmark =>
    refine ⟨[], rfl, rfl, ?_⟩
    intro other B hother hagree
    rw [List.nil_append] at hother
    split
    next ds hds =>
      have hhead := hagree.head?_eq
      rw [← hother, hds, List.head?_cons] at hhead
      obtain ⟨cs, hcs⟩ := List.head?_eq_some_iff.mp hhead.symm
      exact absurd hcs (hmark cs)
    · rw [hother]

namespace Cursor

/-- The start of a text from which the signs are read. -/
theorem at_start {text : String} {S : List Sign} {g : List Trivia}
    (hg : Trivia.gap (g.flatMap Trivia.chars) = (g, [])) (hclosed : g.any Trivia.isUnclosed = false)
    (hbody : (TokenStream.body text).2 = S.flatMap Sign.chars ++ g.flatMap Trivia.chars)
    (h : Lexes S (g.flatMap Trivia.chars)) :
    (start (TokenStream.scan text)).At ⟨g, .endOfFile, ""⟩ S := by
  have hscan := h.scan_eq hg (TokenStream.body text).1
  rw [← hbody] at hscan
  obtain ⟨hpending, hfinal, hends⟩ := hscan
  obtain ⟨g', stop, hend, _⟩ := TokenStream.final_scanFrom (TokenStream.body text).1
    (TokenStream.body text).2
  have hgap : g' = g := by
    rw [hend] at hfinal
    exact congrArg Sign.gap hfinal
  subst hgap
  have hlast : (TokenStream.scan text).final.isUnterminated = false := by
    unfold TokenStream.scan
    rw [hend]
    simpa [Token.isUnterminated, Token.endOfText] using hclosed
  have hclean : (start (TokenStream.scan text)).Clean := by
    refine clean_start_of hends (fun t ht => TokenStream.kind_ne_of_mem_scanFrom ht) hlast ?_
    exact congrArg Token.kind hend
  exact ⟨hclean, by rw [pending_start]; exact hpending, by rw [final_start]; exact hfinal⟩

end Cursor

/-! ## Reading and writing -/

namespace SourceFile

variable {name text : String} {file : SourceFile}

/-- The run of the reader on a text. -/
def run (text : String) : List Declaration × Cursor :=
  Declaration.parser (Cursor.start (TokenStream.scan text))

theorem parse_eq (name text : String) :
    parse name text =
      if (run text).2.findings = [] then .ok ⟨name, text, (run text).1⟩
      else .error (ParseError.ofDiagnostics name text
        ((run text).2.findings.map (·.toDiagnostic name))) := by
  have hrecover : recover name text =
      (⟨name, text, (run text).1⟩, (run text).2.findings.map (·.toDiagnostic name)) := rfl
  unfold parse
  rw [hrecover]
  simp only [List.isEmpty_map, List.isEmpty_iff]

theorem parse_eq_ok_iff : parse name text = .ok file ↔
    (run text).2.findings = [] ∧ file = ⟨name, text, (run text).1⟩ := by
  rw [parse_eq]
  split
  next h =>
    constructor
    · intro heq
      cases heq
      exact ⟨h, rfl⟩
    · rintro ⟨-, rfl⟩
      rfl
  next h => simp [h]

/-- A type nested too deeply is the first problem of its file. -/
theorem parse_of_deep (name : String) (h : (run text).2.Deep) :
    ∃ e, parse name text = .error e ∧
      e.diagnostics.head?.map Diagnostic.message = some "type is nested too deeply" := by
  have hne : ¬(run text).2.findings = [] := h.findings_ne_nil
  obtain ⟨f, hf, hfault⟩ := h
  refine ⟨_, by rw [parse_eq, if_neg hne], ?_⟩
  show ((run text).2.findings.map (·.toDiagnostic name)).head?.map Diagnostic.message = _
  rw [List.head?_map, hf]
  show some f.fault.message = _
  rw [hfault]
  rfl

/-- The chunks of a text without problems, and what can be read from its
revisions. -/
theorem exists_chunks (h : (run text).2.findings = []) (w : Revision) :
    ∃ K, Cut (TokenStream.scan text).final.sign K (TokenStream.scan text).pending [] ∧
      allAscriptions K = Declaration.ascriptionsList (run text).1 ∧
      ∀ ⦃fin : Sign⦄ ⦃d : Cursor⦄, InStep w fin K (Cursor.start (TokenStream.scan text)) d →
        Follows w fin [] (run text) (Declaration.parser d) := by
  have hclean := clean_start h
  obtain ⟨K, hp, hseen, hnew⟩ := Mirrors.parser (w := w) (ι := Unit) hclean h
  rw [Declaration.pending_parser hclean.kinds, pending_start, final_start] at hp
  refine ⟨K, hp, ?_, ?_⟩
  · rw [← ascriptions_members]
    exact hseen
  · intro fin d hstep
    exact hnew () (by rwa [List.append_nil])

/-- A type in a text that is read is read itself. -/
theorem lexes_of_mem {K : List Chunk} {Y : List Char}
    (h : Lexes ((allTokens K).map Token.sign) Y) {s : Segment} (hs : Chunk.typed s ∈ K) :
    ∃ X, Lexes (s.tokens.map Token.sign) X := by
  obtain ⟨A, B, rfl⟩ := List.append_of_mem hs
  have hsplit : (allTokens (A ++ .typed s :: B)).map Token.sign =
      (allTokens A).map Token.sign ++
        ([s.guard.sign] ++ (s.tokens.map Token.sign ++ (allTokens B).map Token.sign)) := by
    simp [allTokens, Chunk.tokens]
  rw [hsplit, Lexes.append_iff, Lexes.append_iff, Lexes.append_iff] at h
  exact ⟨_, h.2.2.1⟩

theorem mem_ascriptions_of_mem {K : List Chunk} {s : Segment} (hs : Chunk.typed s ∈ K) :
    s.ascription ∈ allAscriptions K :=
  List.mem_flatMap.mpr ⟨_, hs, List.mem_singleton.mpr rfl⟩

/-- The changed ascriptions of a file whose ascriptions are those of a revision. -/
theorem changes_eq {K : List Chunk} {w : Revision} {f : SourceFile} {offset : Nat}
    (hplaced : Placed offset (allTokens K))
    (hf : Declaration.ascriptionsList f.declarations = (allAscriptions K).map w.update) :
    f.ascriptions.filter Ascription.isChanged = changes w K := by
  have hsorted : f.ascriptions = (allAscriptions K).map w.update := by
    unfold ascriptions
    rw [hf]
    apply sortByStart_eq_self
    rw [List.pairwise_map]
    exact hplaced.starts.1
  rw [hsorted]
  rfl

/-- What is written for a file whose ascriptions are those of a revision. -/
theorem render_eq {K : List Chunk} {w : Revision} {f : SourceFile} {R Y : List Char}
    (hw : ∀ s, Chunk.typed s ∈ K → s.Written (w.type s.ascription) (w.signs s))
    (hplaced : Placed (Text.byteLength R) (allTokens K))
    (htext : f.text.toList = R ++ (Token.allChars (allTokens K) ++ Y))
    (hf : Declaration.ascriptionsList f.declarations = (allAscriptions K).map w.update) :
    f.render.toList = R ++ ((w.news K).flatMap Sign.chars ++ Y) := by
  unfold render
  dsimp only
  rw [changes_eq hplaced hf, htext, String.toList_ofList]
  exact splice_chunks hw (by rwa [Nat.zero_add]) (by rw [Nat.zero_add])

/-- A revision with the given types, and with signs that can stand in the
place of a type wherever there are any. -/
theorem exists_revision (type : Ascription → TypeExpr) (growth : Ascription → Nat) (deep : Prop) :
    ∃ w : Revision, w.type = type ∧ w.mayBeDeep = deep ∧ ∀ s : Segment,
      (∃ S, s.Respelt (growth s.ascription) (type s.ascription) S) →
        s.Respelt (growth s.ascription) (type s.ascription) (w.signs s) := by
  choose signs hsigns using fun s : Segment =>
    show ∃ S, (∃ S', s.Respelt (growth s.ascription) (type s.ascription) S') →
        s.Respelt (growth s.ascription) (type s.ascription) S by
      by_cases hex : ∃ S', s.Respelt (growth s.ascription) (type s.ascription) S'
      · exact hex.imp fun S hS _ => hS
      · exact ⟨[], fun h => absurd h hex⟩
  exact ⟨⟨type, signs, deep⟩, rfl, rfl, hsigns⟩

/-- The tokens of a text without problems are read one after the other. -/
theorem lexes_pending {K : List Chunk} (hclean : (Cursor.start (TokenStream.scan text)).Clean)
    (hpending : (TokenStream.scan text).pending = allTokens K) :
    Lexes ((allTokens K).map Token.sign) (TokenStream.scan text).final.gapChars := by
  rw [← hpending]
  exact Lexes.of_scan fun t ht => hclean.pending t (by rwa [pending_start])

/-- A text without problems, cut into chunks, and a revision that has variants in
the place of its types. -/
structure Revised (text : String) (w : Revision) (growth : Ascription → Nat) (K : List Chunk) :
    Prop where
  clean : (Cursor.start (TokenStream.scan text)).Clean
  cut : Cut (TokenStream.scan text).final.sign K (TokenStream.scan text).pending []
  ascriptions_eq : allAscriptions K = Declaration.ascriptionsList (run text).1
  variant : ∀ s, Chunk.typed s ∈ K →
    TypeExpr.Variant (growth s.ascription) s.ascription.parsed (w.type s.ascription)
  respelt : ∀ s, Chunk.typed s ∈ K →
    s.Respelt (growth s.ascription) (w.type s.ascription) (w.signs s)
  follows : ∀ ⦃fin : Sign⦄ ⦃d : Cursor⦄, InStep w fin K (Cursor.start (TokenStream.scan text)) d →
    Follows w fin [] (run text) (Declaration.parser d)

/-- Every choice of variants is that of a revision. -/
theorem exists_revised (hrun : (run text).2.findings = []) {type : Ascription → TypeExpr}
    {growth : Ascription → Nat}
    (hvariant : ∀ a ∈ Declaration.ascriptionsList (run text).1,
      TypeExpr.Variant (growth a) a.parsed (type a)) (deep : Prop) :
    ∃ w K, w.type = type ∧ w.mayBeDeep = deep ∧ Revised text w growth K := by
  have hclean := clean_start hrun
  obtain ⟨w, rfl, rfl, hsigns⟩ := exists_revision type growth deep
  obtain ⟨K, hcut, hascriptions, hfollows⟩ := exists_chunks hrun w
  have hvariantK : ∀ s, Chunk.typed s ∈ K →
      TypeExpr.Variant (growth s.ascription) s.ascription.parsed (w.type s.ascription) := by
    intro s hs
    apply hvariant
    rw [← hascriptions]
    exact mem_ascriptions_of_mem hs
  refine ⟨w, K, rfl, rfl, hclean, hcut, hascriptions, hvariantK, ?_, hfollows⟩
  intro s hs
  have hpending : (TokenStream.scan text).pending = allTokens K := by
    rw [hcut.tokens_eq, List.append_nil]
  obtain ⟨X, hX⟩ := lexes_of_mem (lexes_pending hclean hpending) hs
  exact hsigns s (s.exists_respelt hX (hvariantK s hs))

namespace Revised

variable {w : Revision} {growth : Ascription → Nat} {K : List Chunk} {f : SourceFile}

theorem pending_eq (h : Revised text w growth K) :
    (TokenStream.scan text).pending = allTokens K := by
  rw [h.cut.tokens_eq, List.append_nil]

theorem lexes (h : Revised text w growth K) :
    Lexes ((allTokens K).map Token.sign) (TokenStream.scan text).final.gapChars :=
  lexes_pending h.clean h.pending_eq

theorem placed (h : Revised text w growth K) : Placed (TokenStream.body text).1 (allTokens K) := by
  rw [← h.pending_eq]
  exact .scanFrom _ _

/-- Where variants can stand in the place of types, the signs of the revision
are read from the text that is written. -/
theorem at_render (h : Revised text w growth K) (htext : f.text = text)
    (hf : Declaration.ascriptionsList f.declarations = (allAscriptions K).map w.update) :
    (Cursor.start (TokenStream.scan f.render)).At (TokenStream.scan text).final.sign
      (w.news K) := by
  obtain ⟨R, htoList, hmark, hbody⟩ := TokenStream.exists_mark text
  obtain ⟨g, stop, hfinal, hgap⟩ := TokenStream.final_scanFrom (TokenStream.body text).1
    (TokenStream.body text).2
  have hlast : (TokenStream.scan text).final = .endOfText g stop := hfinal
  -- The old text, as the signs of its chunks and the last gap.
  have hlexes := h.lexes
  have hchars : (TokenStream.body text).2 =
      Token.allChars (allTokens K) ++ g.flatMap Trivia.chars := by
    have hall := TokenStream.flatMap_fullChars_scanFrom (TokenStream.body text).1
      (TokenStream.body text).2
    rw [TokenStream.toList, List.flatMap_append, hfinal] at hall
    rw [← hall, ← h.pending_eq]
    simp [Token.allChars, Token.fullChars, Token.gapChars, Token.endOfText, TokenStream.scan]
  have hclosed : g.any Trivia.isUnclosed = false := by
    have hend := h.clean.final
    rw [final_start, hlast] at hend
    simpa [Token.isUnterminated, Token.endOfText] using hend
  rw [hlast] at hlexes ⊢
  -- The new text, as the signs of the revision and the same gap.
  have hrender : f.render.toList =
      R ++ ((w.news K).flatMap Sign.chars ++ g.flatMap Trivia.chars) := by
    refine render_eq (fun s hs => (h.respelt s hs).toWritten) ?_ ?_ hf
    · rw [← hmark]
      exact h.placed
    · rw [htext, htoList, hchars]
  have hagree : Agree _ ((w.news K).flatMap Sign.chars ++ g.flatMap Trivia.chars) :=
    Revision.agree_news (w := w) hlexes
  have hnew : (TokenStream.body f.render).2 =
      (w.news K).flatMap Sign.chars ++ g.flatMap Trivia.chars := by
    rw [hbody hrender (hchars ▸ hagree)]
  exact at_start hgap hclosed hnew (Revision.lexes_news h.respelt hlexes)

/-- The two runs start in step, if the revision fits. -/
theorem inStep (h : Revised text w growth K) (htext : f.text = text)
    (hf : Declaration.ascriptionsList f.declarations = (allAscriptions K).map w.update)
    (hfits : w.Fits K) :
    InStep w (TokenStream.scan text).final.sign K (Cursor.start (TokenStream.scan text))
      (Cursor.start (TokenStream.scan f.render)) := by
  have hnew := h.at_render htext hf
  refine ⟨⟨?_, hnew.signs, ?_, hnew.final, hfits⟩, h.clean, hnew.clean⟩
  · rw [pending_start, h.pending_eq]
  · rw [final_start]

end Revised

/-- What reading a file again can give, after some of its types were replaced
by variants: a type nested too deeply, if one was too close to the limit, or
the same declarations. -/
theorem parse_render (hparse : parse name text = .ok file) {type : Ascription → TypeExpr}
    {growth : Ascription → Nat}
    (hvariant : ∀ a ∈ Declaration.ascriptionsList file.declarations,
      TypeExpr.Variant (growth a) a.parsed (type a))
    {deep : Prop}
    (hdeep : ∀ a ∈ Declaration.ascriptionsList file.declarations,
      ¬ReadsWithin text (TypeExpr.nestingLimit - growth a) a → deep)
    {f : SourceFile} (htext : f.text = text)
    (hf : Declaration.ascriptionsList f.declarations =
      (Declaration.ascriptionsList file.declarations).map fun a => { a with type := type a }) :
    (deep ∧ ∃ e, parse name f.render = .error e ∧
        e.diagnostics.head?.map Diagnostic.message = some "type is nested too deeply") ∨
      ∃ g, parse name f.render = .ok g ∧
        Declaration.outlineList Ascription.bare g.declarations =
          Declaration.outlineList (fun a => ⟨default, type a, type a⟩) file.declarations := by
  obtain ⟨hrun, rfl⟩ := parse_eq_ok_iff.mp hparse
  obtain ⟨w, K, rfl, rfl, hrevised⟩ := exists_revised hrun hvariant deep
  have hfits : w.Fits K := by
    intro s hs
    refine ⟨_, ?_, (hrevised.respelt s hs).spells⟩
    intro hlimit
    apply hdeep s.ascription
    · rw [← hrevised.ascriptions_eq]
      exact mem_ascriptions_of_mem hs
    · rw [readsWithin_iff hrevised.clean hrevised.cut hs]
      obtain ⟨m, hlevels, _⟩ := s.spells.exists_level
      omega
  have hstep := hrevised.inStep htext (by rw [hf, hrevised.ascriptions_eq]; rfl) hfits
  rcases hrevised.follows hstep with ⟨hmay, hfirst⟩ | ⟨hend, hboth⟩
  · exact .inl ⟨hmay, parse_of_deep name hfirst⟩
  · refine .inr ⟨_, parse_eq_ok_iff.mpr ⟨hend.newClean.findings, rfl⟩, ?_⟩
    exact Both.outlineList_eq hboth

end SourceFile

end AnySome
