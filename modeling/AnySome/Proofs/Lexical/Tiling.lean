import Mathlib.Logic.Function.Iterate
import AnySome.Proofs.Lexical.Gap
import AnySome.Proofs.Run.Finish

/-!
# Tokens and gaps tile their text

Reading a text token by token ends, and loses nothing. The token behind each
place starts where the gap behind that place ends, and the next place is where
the token stops. So the gaps and the texts of the tokens, put together, are the
text, and all of these places are between its characters.

## Main results

* `Reader.tile_next` — what one call of the reader does.
* `Reader.toList_scanFrom` — calling it again and again gives the tokens of the
  text.
* `Reader.scan_tiles_text` — the tokens and gaps of every text.
-/

namespace AnySome

/-! ## Offsets -/

theorem Text.utf8ByteSize_ofList (cs : List Char) :
    (String.ofList cs).utf8ByteSize = byteLength cs := by
  induction cs with
  | nil => rfl
  | cons c cs ih =>
    rw [byteLength_cons, ← ih]
    simp

/-- The bytes of a front part of a text end at a character boundary. -/
theorem Text.isValid_front {text : String} {A B : List Char} (h : text.toList = A ++ B) :
    String.Pos.Raw.IsValid text ⟨byteLength A⟩ := by
  rw [String.Pos.Raw.isValid_iff_exists_append]
  refine ⟨String.ofList A, String.ofList B, ?_, ?_⟩
  · rw [← String.ofList_append, ← h, String.ofList_toList]
  · rw [← utf8ByteSize_ofList]
    rfl

/-- The slice between two parts of a text. -/
theorem Text.slice_middle {text : String} {A B C : List Char} (h : text.toList = A ++ (B ++ C)) :
    slice text (byteLength A) (byteLength A + byteLength B) = String.ofList B := by
  unfold slice cut
  rw [if_pos (by omega), h, dropBytes?_append, Nat.add_sub_cancel_left, Option.bind_some,
    takeBytes?_append]
  rfl

namespace Reader

/-! ## One call -/

/-- What one call of the reader does: it reads a gap and a token, and no token
only at the end of the text. -/
structure Tile (r r' : Reader) : Prop where
  rest_eq : r.rest = r'.token.gapChars ++ (r'.token.text.toList ++ r'.rest)
  start_eq : r'.token.start = r.token.stop + Text.byteLength r'.token.gapChars
  isSeparated_iff : r'.token.isSeparated = true ↔ r'.token.gapChars ≠ []
  found : r'.token.kind ≠ .endOfFile → r'.token.text ≠ "" ∧ Gap .token r'.token.gapChars
  finish : r'.token.kind = .endOfFile → r'.token.text = "" ∧ r'.rest = [] ∧
    Gap (if r'.token.isUnterminated then .comment else .text) r'.token.gapChars

theorem tile_next (r : Reader) : Tile r r.next := by
  have happ := Trivia.gap_append r.rest
  have hgap := Trivia.gap_spec r.rest
  have hnil := Trivia.gap_eq_nil_iff r.rest
  cases hrest : (Trivia.gap r.rest).2 with
  | nil =>
    have hnext : r.next = ⟨.endOfText (Trivia.gap r.rest).1
        (r.token.stop + Text.byteLength ((Trivia.gap r.rest).1.flatMap Trivia.chars)), []⟩ := by
      unfold next Token.step
      dsimp only
      rw [hrest]
      rfl
    rw [hrest] at happ hgap
    rw [hnext]
    refine ⟨?_, rfl, ?_, fun h => absurd rfl h, fun _ => ⟨rfl, rfl, ?_⟩⟩
    · exact happ.symm
    · simpa [Token.isSeparated, Token.endOfText, Token.gapChars] using not_congr hnil
    · simpa [Trivia.ending, Token.isUnterminated, Token.endOfText, Token.gapChars] using hgap
  | cons c tail =>
    have hnext : r.next = ⟨Token.ofLexeme (Trivia.gap r.rest).1
        (r.token.stop + Text.byteLength ((Trivia.gap r.rest).1.flatMap Trivia.chars))
        (Lexeme.scan c tail) c tail, tail.drop ((Lexeme.scan c tail).length - 1)⟩ := by
      unfold next Token.step
      dsimp only
      rw [hrest]
      rfl
    rw [hrest] at happ hgap
    rw [hnext]
    refine ⟨?_, rfl, ?_, fun _ => ⟨?_, ?_⟩, fun h => absurd h (kind_scan_ne c tail)⟩
    · simpa [Token.ofLexeme, Token.gapChars] using happ.symm
    · simpa [Token.isSeparated, Token.ofLexeme, Token.gapChars] using not_congr hnil
    · simp [Token.ofLexeme]
    · simpa [Trivia.ending, Token.ofLexeme, Token.gapChars] using hgap

/-! ## Many calls -/

/-- The tokens of what is left to read are read one after the other. -/
theorem toList_scanFrom (r : Reader) :
    (TokenStream.scanFrom r.token.stop r.rest).toList =
      (List.range ((TokenStream.scanFrom r.token.stop r.rest).pending.length + 1)).map
        fun i => (next^[i + 1] r).token := by
  induction hn : r.rest.length using Nat.strongRecOn generalizing r with
  | ind n ih =>
    cases hstep : Token.step r.token.stop r.rest with
    | finish last =>
      have hnext : r.next = ⟨last, []⟩ := by
        unfold next
        rw [hstep]
      rw [TokenStream.scanFrom_of_finish hstep]
      simp [TokenStream.toList, hnext]
    | found t rest =>
      have hnext : r.next = ⟨t, rest⟩ := by
        unfold next
        rw [hstep]
      have hlt := Token.length_lt_of_step_found hstep
      have hrest : (TokenStream.scanFrom t.stop rest).toList =
          (List.range ((TokenStream.scanFrom t.stop rest).pending.length + 1)).map
            fun i => (next^[i + 1] ⟨t, rest⟩).token := ih rest.length (by omega) ⟨t, rest⟩ rfl
      have hcons : (TokenStream.scanFrom r.token.stop r.rest).toList =
          t :: (TokenStream.scanFrom t.stop rest).toList := by
        rw [TokenStream.scanFrom_of_found hstep]
        rfl
      have hlength : (TokenStream.scanFrom r.token.stop r.rest).pending.length =
          (TokenStream.scanFrom t.stop rest).pending.length + 1 := by
        rw [TokenStream.scanFrom_of_found hstep]
        rfl
      have hfirst : (next^[0 + 1] r).token = t := by
        rw [Function.iterate_succ_apply, hnext]
        rfl
      rw [hcons, hlength, hrest]
      generalize (TokenStream.scanFrom t.stop rest).pending.length = k
      rw [List.range_succ_eq_map (n := k + 1), List.map_cons, List.map_map, hfirst]
      congr 1
      apply List.map_congr_left
      intro i _
      rw [Function.comp_apply, Function.iterate_succ_apply next (i + 1) r, hnext]

/-- The reader after `n` calls on a fresh one. -/
def after (text : String) (n : Nat) : Reader := next^[n] (start text)

/-- The token of the `n`th call. Before the first call it is the empty one at
the start of the text, or behind the byte order mark there. -/
def nth (text : String) (n : Nat) : Token := (after text n).token

/-- The source between the `n`th token and the one behind it. -/
def between (text : String) (n : Nat) : String :=
  Text.slice text (nth text n).stop (nth text (n + 1)).start

/-- The byte order mark of a text that has one. -/
def mark (text : String) : List Char :=
  match text.toList with
  | '\ufeff' :: _ => ['\ufeff']
  | _ => []

/-- The byte order mark, and the source of the first `n` gaps and tokens. -/
def front (text : String) (n : Nat) : List Char :=
  mark text ++ (List.range n).flatMap fun i =>
    (between text i).toList ++ (nth text (i + 1)).text.toList

variable (text : String) (n : Nat)

/-- The tokens of a text are those of the calls on a fresh reader. -/
theorem toList_scan : (TokenStream.scan text).toList =
    (List.range ((TokenStream.scan text).pending.length + 1)).map fun i => nth text (i + 1) :=
  toList_scanFrom (start text)

theorem getElem?_scan {i : Nat} (h : i ≤ (TokenStream.scan text).pending.length) :
    (TokenStream.scan text).toList[i]? = some (nth text (i + 1)) := by
  rw [toList_scan, List.getElem?_map, List.getElem?_range (by omega)]
  rfl

theorem nth_mem_pending {i : Nat} (h : i < (TokenStream.scan text).pending.length) :
    nth text (i + 1) ∈ (TokenStream.scan text).pending := by
  have hget := getElem?_scan text (Nat.le_of_lt h)
  rw [TokenStream.toList, List.getElem?_append_left h] at hget
  exact List.mem_of_getElem? hget

theorem nth_eq_final :
    nth text ((TokenStream.scan text).pending.length + 1) = (TokenStream.scan text).final := by
  have hget := getElem?_scan text (Nat.le_refl _)
  rw [TokenStream.toList, List.getElem?_concat_length, Option.some.injEq] at hget
  exact hget.symm

theorem after_succ : after text (n + 1) = (after text n).next :=
  Function.iterate_succ_apply' next n (start text)

theorem tile : Tile (after text n) (after text (n + 1)) := by
  rw [after_succ]
  exact tile_next _

theorem mark_append_body : text.toList = mark text ++ (TokenStream.body text).2 ∧
    (TokenStream.body text).1 = Text.byteLength (mark text) := by
  by_cases hmark : ∃ cs, text.toList = '\ufeff' :: cs
  · obtain ⟨cs, hcs⟩ := hmark
    unfold mark TokenStream.body
    rw [hcs]
    exact ⟨rfl, rfl⟩
  · have hnone : mark text = [] := by
      unfold mark
      split
      next cs hcs => exact absurd ⟨cs, hcs⟩ hmark
      · rfl
    have hbody : TokenStream.body text = (0, text.toList) := by
      unfold TokenStream.body
      split
      next cs hcs => exact absurd ⟨cs, hcs⟩ hmark
      · rfl
    rw [hnone, hbody]
    exact ⟨rfl, rfl⟩

variable {text n} in
theorem toList_between_of (hfront : text.toList = front text n ++ (after text n).rest)
    (hstop : (nth text n).stop = Text.byteLength (front text n)) :
    (between text n).toList = (nth text (n + 1)).gapChars := by
  have htile := tile text n
  have hstart : (nth text (n + 1)).start =
      (nth text n).stop + Text.byteLength (nth text (n + 1)).gapChars := htile.start_eq
  have hrest : (after text n).rest = (nth text (n + 1)).gapChars ++
      ((nth text (n + 1)).text.toList ++ (after text (n + 1)).rest) := htile.rest_eq
  rw [hrest] at hfront
  unfold between
  rw [hstart, hstop, Text.slice_middle hfront, String.toList_ofList]

/-- What has been read stands in front of what is left. -/
theorem front_append_rest : text.toList = front text n ++ (after text n).rest ∧
    (nth text n).stop = Text.byteLength (front text n) := by
  induction n with
  | zero =>
    obtain ⟨htext, hsize⟩ := mark_append_body text
    have hfront : front text 0 = mark text := List.append_nil _
    rw [hfront]
    exact ⟨htext, hsize⟩
  | succ n ih =>
    obtain ⟨htext, hstop⟩ := ih
    have htile := tile text n
    have hbetween := toList_between_of htext hstop
    have hfront : front text (n + 1) = front text n ++
        ((nth text (n + 1)).gapChars ++ (nth text (n + 1)).text.toList) := by
      unfold front
      rw [List.range_succ, List.flatMap_append, List.flatMap_singleton, hbetween, List.append_assoc]
    have hstart : (nth text (n + 1)).start =
        (nth text n).stop + Text.byteLength (nth text (n + 1)).gapChars := htile.start_eq
    rw [hfront]
    constructor
    · rw [htext, htile.rest_eq, List.append_assoc, List.append_assoc]
      rfl
    · unfold Token.stop
      rw [hstart, hstop, Text.byteLength_append, Text.byteLength_append]
      omega

theorem toList_between : (between text n).toList = (nth text (n + 1)).gapChars :=
  toList_between_of (front_append_rest text n).1 (front_append_rest text n).2

/-- The text around the token of a call. -/
theorem toList_eq_around : text.toList = (front text n ++ (nth text (n + 1)).gapChars) ++
      ((nth text (n + 1)).text.toList ++ (after text (n + 1)).rest) ∧
    (nth text (n + 1)).start =
      Text.byteLength (front text n ++ (nth text (n + 1)).gapChars) := by
  obtain ⟨htext, hstop⟩ := front_append_rest text n
  have htile := tile text n
  constructor
  · rw [htext, htile.rest_eq, List.append_assoc]
    rfl
  · rw [Text.byteLength_append, ← hstop]
    exact htile.start_eq

/-! ## Tilings -/

/-- The first `n` calls on a fresh reader of a text give tokens, the next one
gives the end of the text, and all of them tile the text. -/
structure Tiling (text : String) (n : Nat) : Prop where
  /-- The end is found by the last call and by none before. -/
  kind_eq : (nth text (n + 1)).kind = .endOfFile
  kind_ne : ∀ i < n, (nth text (i + 1)).kind ≠ .endOfFile
  text_ne : ∀ i < n, (nth text (i + 1)).text ≠ ""
  /-- The end is empty, and stands at the end of the text. -/
  last : (nth text (n + 1)).text = "" ∧ (nth text (n + 1)).start = text.utf8ByteSize
  /-- The first call begins behind the byte order mark, the others where the
  token before stops. -/
  begins : (nth text 0).stop = Text.byteLength (mark text)
  stop_le_start : ∀ i, (nth text i).stop ≤ (nth text (i + 1)).start
  /-- Tokens start and stop between characters, and are the source there. -/
  start_isValid : ∀ i, String.Pos.Raw.IsValid text ⟨(nth text (i + 1)).start⟩
  stop_isValid : ∀ i, String.Pos.Raw.IsValid text ⟨(nth text (i + 1)).stop⟩
  text_eq : ∀ i, (nth text (i + 1)).text =
    Text.slice text (nth text (i + 1)).start (nth text (i + 1)).stop
  /-- What stands between tokens is a gap, and a token knows whether there is any. -/
  gap : ∀ i < n, Gap .token (between text i).toList
  lastGap : Gap (if (nth text (n + 1)).isUnterminated then .comment else .text)
    (between text n).toList
  isSeparated_iff : ∀ i, (nth text (i + 1)).isSeparated = true ↔ between text i ≠ ""
  /-- Put together, gaps and tokens are the source. -/
  toList_eq : text.toList = mark text ++ (List.range (n + 1)).flatMap fun i =>
    (between text i).toList ++ (nth text (i + 1)).text.toList

/-- Reading a text ends, and the tokens tile it. -/
theorem scan_tiles_text (text : String) : ∃ n, Tiling text n := by
  refine ⟨(TokenStream.scan text).pending.length, ?_⟩
  generalize hn : (TokenStream.scan text).pending.length = n
  have hkind_ne : ∀ i < n, (nth text (i + 1)).kind ≠ .endOfFile := by
    intro i hi
    exact TokenStream.kind_ne_of_mem_scanFrom (nth_mem_pending text (hn ▸ hi))
  have hkind : (nth text (n + 1)).kind = .endOfFile := by
    obtain ⟨g, start, hfinal, _⟩ := TokenStream.final_scanFrom (TokenStream.body text).1
      (TokenStream.body text).2
    rw [← hn, nth_eq_final]
    exact congrArg Token.kind hfinal
  obtain ⟨htext, hrest, hgap⟩ := (tile text n).finish hkind
  have htext : (nth text (n + 1)).text = "" := htext
  have hrest : (after text (n + 1)).rest = [] := hrest
  have hwhole := (front_append_rest text (n + 1)).1
  rw [hrest, List.append_nil] at hwhole
  constructor
  case kind_eq => exact hkind
  case kind_ne => exact hkind_ne
  case text_ne => exact fun i hi => ((tile text i).found (hkind_ne i hi)).1
  case last =>
    refine ⟨htext, ?_⟩
    obtain ⟨haround, hstart⟩ := toList_eq_around text n
    rw [htext, hrest, String.toList_empty, List.append_nil, List.append_nil] at haround
    rw [hstart, ← haround, ← Text.utf8ByteSize_ofList, String.ofList_toList]
  case begins => exact (mark_append_body text).2
  case stop_le_start =>
    intro i
    have hstart : (nth text (i + 1)).start =
        (nth text i).stop + Text.byteLength (nth text (i + 1)).gapChars := (tile text i).start_eq
    omega
  case start_isValid =>
    intro i
    obtain ⟨haround, hstart⟩ := toList_eq_around text i
    rw [hstart]
    exact Text.isValid_front haround
  case stop_isValid =>
    intro i
    obtain ⟨hfront, hstop⟩ := front_append_rest text (i + 1)
    rw [hstop]
    exact Text.isValid_front hfront
  case text_eq =>
    intro i
    obtain ⟨haround, hstart⟩ := toList_eq_around text i
    unfold Token.stop
    rw [hstart, Text.slice_middle haround, String.ofList_toList]
  case gap =>
    intro i hi
    rw [toList_between]
    exact ((tile text i).found (hkind_ne i hi)).2
  case lastGap =>
    rw [toList_between]
    exact hgap
  case isSeparated_iff =>
    intro i
    have hseparated := (tile text i).isSeparated_iff
    rw [show (nth text (i + 1)).isSeparated = true ↔ (nth text (i + 1)).gapChars ≠ [] from
      hseparated, ← toList_between, Ne, String.toList_eq_nil_iff]
  case toList_eq => exact hwhole

end Reader

end AnySome
