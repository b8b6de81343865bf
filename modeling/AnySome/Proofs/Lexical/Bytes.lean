import Mathlib.Data.List.Forall2
import AnySome.Proofs.Lexical.RecodedTokens

/-!
# Reading bytes

A scanner of UTF-8 sees no characters but bytes. What it does is reading the text
in which every byte stands as the character of its code: an ASCII character is
its own byte, and the bytes of any other are again outside ASCII. That is a
coding which keeps the ends of lines, and in such a coding a text has the same
tokens, coded one by one. So reading characters and reading bytes is one.

Offsets count bytes. In the coded text they count characters, so a scanner of
bytes also finds the tokens in the same places.

## Main results

* `Trivia.gap_coded`, `Token.step_coded` — one gap and one token.
* `TokenStream.scanFrom_coded` — all tokens, in a coding that keeps line ends.
* `TokenStream.scanFrom_utf8` — and byte by byte.
-/

namespace AnySome

/-! ## Codings that keep line ends -/

/-- The characters that end a line are coded as themselves. -/
def Recoding.KeepsLineEnds (r : Recoding) : Prop :=
  ∀ c, Trivia.isLineBreak c = true → r.code c = [c]

section Coded

variable {r : Recoding} (hkeeps : r.KeepsLineEnds)

include hkeeps

/-- A character stands for itself, or both are outside ASCII. -/
theorem Recoding.KeepsLineEnds.eq_or_le {c d : Char} (h : d ∈ r.code c) :
    d = c ∨ 0x80 ≤ c.toNat ∧ 0x80 ≤ d.toNat := by
  by_cases hc : Telling c
  · rw [r.code_of_telling hc, List.mem_singleton] at h
    exact .inl h
  cases hline : Trivia.isLineBreak c with
  | true =>
    rw [hkeeps c hline, List.mem_singleton] at h
    exact .inl h
  | false =>
    have hline' := (r.isLineBreak_eq h).trans hline
    exact .inr ⟨le_of_not_telling hc hline,
      le_of_not_telling (r.not_telling_of_mem hc h) hline'⟩

/-- So no character of ASCII comes or goes. -/
theorem Recoding.KeepsLineEnds.eq_iff {a c d : Char} (ha : a.toNat < 0x80) (h : d ∈ r.code c) :
    d = a ↔ c = a := by
  rcases hkeeps.eq_or_le h with rfl | ⟨hc, hd⟩
  · rfl
  · constructor
    · rintro rfl
      omega
    · rintro rfl
      omega

theorem Recoding.KeepsLineEnds.not_splitsEscaped (cs : List Char) : ¬r.SplitsEscaped cs := by
  rintro ⟨front, n, c, back, -, hline, hcode⟩
  exact hcode (hkeeps c hline)

/-! ## Names in backticks -/

namespace Lexeme

theorem backticked_write (cs : List Char) :
    Written r ('\x60' :: cs) (backticked cs) (backticked (r.write cs)) := by
  have htick : Telling '\x60' := by decide
  obtain ⟨body, rest, rfl, hbody, hrest⟩ := exists_quotedPart cs
  have hbody' : ∀ c ∈ r.write body, isQuotedPart c = true := by
    intro d hd
    obtain ⟨c, hc, hmem⟩ := List.mem_flatMap.mp hd
    have hpart := hbody c hc
    rw [isQuotedPart, Bool.and_eq_true, bne_iff_ne, bne_iff_ne] at hpart ⊢
    rwa [Ne, Ne, hkeeps.eq_iff (by decide) hmem, hkeeps.eq_iff (by decide) hmem]
  have htake : ('\x60' :: (body ++ rest)).take (body.length + 1) = '\x60' :: body := by
    rw [List.take_succ_cons, List.take_left]
  rw [r.write_append]
  rcases hrest with hopen | ⟨ds, rfl⟩
  · have hopen' : r.write rest = [] ∨ ∃ ds, r.write rest = '\n' :: ds := by
      rcases hopen with rfl | ⟨ds, rfl⟩
      · exact .inl rfl
      · exact .inr ⟨r.write ds, by rw [r.write_cons, hkeeps '\n' rfl, List.singleton_append]⟩
    rw [backticked_of_open hbody hopen, backticked_of_open hbody' hopen']
    refine ⟨rfl, rfl, ?_⟩
    dsimp only
    rw [htake, r.write_cons_of_telling htick, List.length_cons]
  · have htake' : ('\x60' :: (body ++ '\x60' :: ds)).take (body.length + 2) =
        '\x60' :: (body ++ ['\x60']) := by
      rw [List.take_succ_cons, List.take_length_add_append]
      rfl
    rw [backticked_of_closed hbody, r.write_cons_of_telling htick, backticked_of_closed hbody']
    refine ⟨rfl, rfl, ?_⟩
    dsimp only
    rw [htake', r.write_cons_of_telling htick, r.write_append, r.write_cons_of_telling htick]
    simp

/-- Every token is found in such a coding. -/
theorem scan_coded {c d : Char} {cs ds : List Char} (hcode : r.code c = d :: ds)
    (hline : Trivia.isLineBreak c = false) :
    Written r (c :: cs) (scan c cs) (scan d (ds ++ r.write cs)) := by
  by_cases htick : c = '\x60'
  · subst htick
    rw [r.code_of_telling (by decide)] at hcode
    obtain ⟨rfl, rfl⟩ := List.cons.inj hcode
    exact backticked_write hkeeps cs
  · exact scan_write hcode hline htick (hkeeps.not_splitsEscaped _)

end Lexeme

end Coded

/-! ## Gaps -/

namespace Trivia

/-- A piece of a gap, and the piece in the coding. -/
inductive Coded (r : Recoding) : Trivia → Trivia → Prop
  | lineBreak {c : Char} (h : r.code c = [c]) : Coded r (.lineBreak c) (.lineBreak c)
  | blank {c : Char} (h : r.code c = [c]) : Coded r (.blank c) (.blank c)
  | lineComment (text : List Char) : Coded r (.lineComment text) (.lineComment (r.write text))
  | blockComment (text : List Char) (closed : Bool) :
      Coded r (.blockComment text closed) (.blockComment (r.write text) closed)

theorem Coded.chars_eq {r : Recoding} {t u : Trivia} (h : Coded r t u) :
    u.chars = r.write t.chars := by
  cases h with
  | lineBreak h => simp [chars, h]
  | blank h => simp [chars, h]
  | lineComment => rfl
  | blockComment => rfl

theorem flatMap_chars_of_coded {r : Recoding} {g g' : List Trivia}
    (h : List.Forall₂ (Coded r) g g') : g'.flatMap chars = r.write (g.flatMap chars) := by
  induction h with
  | nil => rfl
  | cons htu _ ih => simp [htu.chars_eq, ih]

variable {r : Recoding} (hkeeps : r.KeepsLineEnds)

include hkeeps

theorem scan?_coded {cs : List Char} {t : Trivia} (h : scan? cs = some t) :
    ∃ u, scan? (r.write cs) = some u ∧ Coded r t u := by
  have hslash : Telling '/' := by decide
  have hstar : Telling '*' := by decide
  cases cs with
  | nil => contradiction
  | cons c cs =>
    by_cases hbreak : isLineBreak c = true
    · have hcode := hkeeps c hbreak
      rw [scan?_of_isLineBreak hbreak] at h
      cases h
      rw [r.write_cons, hcode, List.singleton_append, scan?_of_isLineBreak hbreak]
      exact ⟨_, rfl, .lineBreak hcode⟩
    by_cases hblank : isBlank c = true
    · have hcode := r.code_of_telling (telling_of_isBlank hblank)
      rw [scan?_of_isBlank hblank] at h
      cases h
      rw [r.write_cons, hcode, List.singleton_append, scan?_of_isBlank hblank]
      exact ⟨_, rfl, .blank hcode⟩
    by_cases hline : ∃ body, c :: cs = '/' :: '/' :: body
    · obtain ⟨body, hbody⟩ := hline
      have hend : (r.write body).takeWhile (· ≠ '\n') = r.write (body.takeWhile (· ≠ '\n')) :=
        r.takeWhile_write (fun c d hd => by
          have hfeed : d = '\n' ↔ c = '\n' := hkeeps.eq_iff (by decide) hd
          simp [hfeed]) body
      rw [hbody] at h ⊢
      cases h
      rw [r.write_cons_of_telling hslash, r.write_cons_of_telling hslash]
      refine ⟨_, rfl, ?_⟩
      rw [hend, ← r.write_cons_of_telling hslash, ← r.write_cons_of_telling hslash]
      exact .lineComment _
    by_cases hblock : ∃ body, c :: cs = '/' :: '*' :: body
    · obtain ⟨body, hbody⟩ := hblock
      have hextent := blockExtent_write r 1 0 0 body
      rw [hbody] at h ⊢
      cases h
      rw [r.write_cons_of_telling hslash, r.write_cons_of_telling hstar]
      refine ⟨_, rfl, ?_⟩
      rw [hextent.take_eq, hextent.closed_eq, ← r.write_cons_of_telling hstar,
        ← r.write_cons_of_telling hslash]
      exact .blockComment _ _
    · rw [scan?_eq_none_of hbreak hblank hline hblock] at h
      contradiction

/-- The gap at the start of a coded text. -/
theorem gap_coded (cs : List Char) :
    List.Forall₂ (Coded r) (gap cs).1 (gap (r.write cs)).1 ∧
      (gap (r.write cs)).2 = r.write (gap cs).2 := by
  fun_induction gap cs with
  | case1 cs h =>
    rw [gap_of_none (scan?_write_none r h)]
    exact ⟨.nil, rfl⟩
  | case2 cs t h ts rest heq ih =>
    rw [heq] at ih
    obtain ⟨u, hu, htu⟩ := scan?_coded hkeeps h
    have happ := congrArg r.write (chars_append_drop h)
    rw [r.write_append, ← htu.chars_eq] at happ
    rw [← happ] at hu ⊢
    rw [gap_of_some hu]
    exact ⟨.cons htu ih.1, ih.2⟩

end Trivia

/-! ## Tokens -/

/-- A token, and the token in the coding. -/
structure Token.Coded (r : Recoding) (t u : Token) : Prop where
  gap : List.Forall₂ (Trivia.Coded r) t.gap u.gap
  kind_eq : u.kind = t.kind
  text_eq : u.text.toList = r.write t.text.toList
  closed_eq : u.closed = t.closed

namespace Token

theorem Coded.gapChars_eq {r : Recoding} {t u : Token} (h : Coded r t u) :
    u.gapChars = r.write t.gapChars :=
  Trivia.flatMap_chars_of_coded h.gap

theorem flatMap_fullChars_of_coded {r : Recoding} {ts us : List Token}
    (h : List.Forall₂ (Coded r) ts us) :
    us.flatMap fullChars = r.write (ts.flatMap fullChars) := by
  induction h with
  | nil => rfl
  | cons htu _ ih => simp [fullChars, htu.gapChars_eq, htu.text_eq, ih]

/-- What is found in a text, and what is found in its coding. -/
inductive Step.Coded (r : Recoding) : Step → Step → Prop
  | finish {t u : Token} (h : Token.Coded r t u) : Coded r (.finish t) (.finish u)
  | found {t u : Token} {rest : List Char} (h : Token.Coded r t u) :
      Coded r (.found t rest) (.found u (r.write rest))

theorem step_coded {r : Recoding} (hkeeps : r.KeepsLineEnds) (m n : Nat) (cs : List Char) :
    Step.Coded r (step m cs) (step n (r.write cs)) := by
  obtain ⟨hgap, hrest⟩ := Trivia.gap_coded hkeeps cs
  have hscan := Trivia.scan?_gap cs
  cases hbehind : (Trivia.gap cs).2 with
  | nil =>
    rw [hbehind, r.write_nil] at hrest
    rw [step_of_gap_nil hbehind, step_of_gap_nil hrest]
    exact .finish ⟨hgap, rfl, rfl, rfl⟩
  | cons c tail =>
    obtain ⟨d, ds, hcode, -⟩ := r.exists_code c
    rw [hbehind, Trivia.scan?_eq_none_iff] at hscan
    rw [hbehind, r.write_cons, hcode, List.cons_append] at hrest
    rw [step_of_gap_cons hbehind, step_of_gap_cons hrest]
    have hlexeme : Lexeme.Written r (c :: tail) _ _ := Lexeme.scan_coded hkeeps hcode hscan.1
    have hpos := Lexeme.length_scan_pos c tail
    have hpos' := Lexeme.length_scan_pos d (ds ++ r.write tail)
    have hcut := hlexeme.cut hcode hpos hpos'
    rw [hcut.2]
    apply Step.Coded.found
    refine ⟨hgap, hlexeme.kind_eq, ?_, hlexeme.closed_eq⟩
    unfold ofLexeme
    dsimp only
    rw [String.toList_ofList, String.toList_ofList, hcut.1]

end Token

/-- A text is read as the same tokens in every coding that keeps line ends. -/
theorem TokenStream.scanFrom_coded {r : Recoding} (hkeeps : r.KeepsLineEnds) (m n : Nat)
    (cs : List Char) :
    List.Forall₂ (Token.Coded r) (scanFrom m cs).toList (scanFrom n (r.write cs)).toList := by
  induction hlen : cs.length using Nat.strongRecOn generalizing m n cs with
  | ind len ih =>
    have hstep := Token.step_coded hkeeps m n cs
    generalize hs : Token.step m cs = s at hstep
    generalize hs' : Token.step n (r.write cs) = s' at hstep
    cases hstep with
    | finish htu =>
      rw [scanFrom_of_finish hs, scanFrom_of_finish hs']
      exact .cons htu .nil
    | @found t u rest htu =>
      rw [scanFrom_of_found hs, scanFrom_of_found hs']
      exact .cons htu (ih _ (hlen ▸ Token.length_lt_of_step_found hs) _ _ rest rfl)

/-! ## UTF-8 -/

/-- The bytes of a character, each as the character of its code. -/
def Text.byteChars (c : Char) : List Char :=
  (String.utf8EncodeChar c).map fun b => Char.ofNat b.toNat

namespace Text

theorem toNat_ofNat_byte (b : UInt8) : (Char.ofNat b.toNat).toNat = b.toNat := by
  have hlt := b.toNat_lt
  have hvalid : b.toNat.isValidChar := .inl (by omega)
  rw [Char.ofNat, dif_pos hvalid]
  rfl

theorem byteChars_of_ascii {c : Char} (h : c.toNat < 0x80) : byteChars c = [c] := by
  have hcode : (UInt8.ofNat c.toNat).toNat = c.toNat := by
    rw [UInt8.toNat_ofNat']
    omega
  rw [byteChars, encode_of_ascii h, List.map_singleton, hcode, Char.ofNat_toNat]

theorem le_of_mem_byteChars {c d : Char} (hc : 0x80 ≤ c.toNat) (h : d ∈ byteChars c) :
    0x80 ≤ d.toNat := by
  obtain ⟨b, hb, rfl⟩ := List.mem_map.mp h
  rw [toNat_ofNat_byte]
  exact le_of_mem_encode hc hb

theorem isLineBreak_of_le {c : Char} (h : 0x80 ≤ c.toNat) : Trivia.isLineBreak c = false := by
  rw [Bool.eq_false_iff]
  intro hbreak
  rcases Trivia.isLineBreak_iff.mp hbreak with rfl | rfl <;> exact absurd h (by decide)

/-- The text whose characters are the bytes of the text. -/
def utf8 : Recoding where
  code := byteChars
  code_ne_nil c := by
    have hlength : (byteChars c).length = c.utf8Size := by simp [byteChars]
    have hpos := c.utf8Size_pos
    exact List.ne_nil_of_length_pos (hlength ▸ hpos)
  code_of_telling h := byteChars_of_ascii h.1
  eq_of_mem := by
    intro c d h hd
    rcases Nat.lt_or_ge c.toNat 0x80 with hc | hc
    · rw [byteChars_of_ascii hc, List.mem_singleton] at h
      exact h
    · exact absurd hd.1 (Nat.not_lt_of_le (le_of_mem_byteChars hc h))
  isLineBreak_eq := by
    intro c d h
    rcases Nat.lt_or_ge c.toNat 0x80 with hc | hc
    · rw [byteChars_of_ascii hc, List.mem_singleton] at h
      rw [h]
    · rw [isLineBreak_of_le hc, isLineBreak_of_le (le_of_mem_byteChars hc h)]

theorem write_utf8 (cs : List Char) :
    utf8.write cs = (bytes cs).map fun b => Char.ofNat b.toNat := by
  rw [bytes, List.map_flatMap]
  rfl

/-- Its places are the offsets of the text. -/
@[simp] theorem length_write_utf8 (cs : List Char) : (utf8.write cs).length = byteLength cs := by
  rw [write_utf8, List.length_map, length_bytes]

theorem keepsLineEnds_utf8 : utf8.KeepsLineEnds := by
  intro c hc
  rcases Trivia.isLineBreak_iff.mp hc with rfl | rfl
  · exact byteChars_of_ascii (by decide)
  · exact byteChars_of_ascii (by decide)

end Text

namespace TokenStream

/-- The bytes of a text are read as the bytes of its tokens. -/
theorem scanFrom_utf8 (m n : Nat) (cs : List Char) :
    List.Forall₂ (Token.Coded Text.utf8) (scanFrom m cs).toList
      (scanFrom n (Text.utf8.write cs)).toList :=
  scanFrom_coded Text.keepsLineEnds_utf8 m n cs

/-- And the offset of a token is its place among the bytes. -/
theorem start_eq_length (m n : Nat) {cs : List Char} {front back : List Token} {t : Token}
    (h : (scanFrom m cs).toList = front ++ t :: back) :
    ∃ front' u back', (scanFrom n (Text.utf8.write cs)).toList = front' ++ u :: back' ∧
      Token.Coded Text.utf8 t u ∧
      t.start = m + (front'.flatMap Token.fullChars ++ u.gapChars).length := by
  have hcoded := (scanFrom_utf8 m n cs).flip
  rw [h] at hcoded
  generalize (scanFrom n (Text.utf8.write cs)).toList = all at hcoded ⊢
  have hfront := (List.forall₂_take_append _ _ _ hcoded).flip
  have hbehind := List.forall₂_drop_append _ _ _ hcoded
  have hsplit := List.take_append_drop front.length all
  generalize all.drop front.length = behind at hbehind hsplit
  cases hbehind with
  | @cons u _ back' _ htu _ =>
    refine ⟨all.take front.length, u, back', hsplit.symm, htu, ?_⟩
    rw [start_of_append h, Token.flatMap_fullChars_of_coded hfront, htu.gapChars_eq,
      ← Text.utf8.write_append, Text.length_write_utf8]

end TokenStream

end AnySome
