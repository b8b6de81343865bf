import AnySome.Proofs.Lexical.Delimiters

/-!
# Texts in another coding

The reader of tokens looks for few characters, and none of these is outside
ASCII or ends a line. Of all others it asks at most whether they end a line, and
passes them one after another. So a text may be coded anew, with several
characters in the place of one: as long as the characters that are looked for
stay, and the others become no such characters, literals and names reach as far
as before.

An escape in a string takes the character behind its signs unseen. Where that
is a line end, and is coded as more than itself, the rest of its code is left to
be read and may end the literal: such escapes are excluded.

## Main results

* `Recoding.prefix_write_iff` — what is looked for is found in the same places.
* `Literal.run_write`, `Literal.stringExtent_write` — the automaton of strings.
-/

namespace AnySome

/-! ## Codings -/

/-- A character that the reader may look for: it is in ASCII and ends no line. -/
def Telling (c : Char) : Prop := c.toNat < 0x80 ∧ Trivia.isLineBreak c = false

instance (c : Char) : Decidable (Telling c) := inferInstanceAs (Decidable (_ ∧ _))

theorem ne_of_telling {c d : Char} (hd : ¬Telling d) (hc : Telling c) : d ≠ c := by
  rintro rfl
  exact hd hc

/-- A text for every character, to be put in its place. -/
structure Recoding where
  code : Char → List Char
  code_ne_nil (c : Char) : code c ≠ []
  /-- A character that may be looked for stays as it is. -/
  code_of_telling {c : Char} (h : Telling c) : code c = [c]
  /-- It is in the code of no other. -/
  eq_of_mem {c d : Char} (h : d ∈ code c) (hd : Telling d) : d = c
  /-- Line ends, and nothing else, are coded as line ends. -/
  isLineBreak_eq {c d : Char} (h : d ∈ code c) : Trivia.isLineBreak d = Trivia.isLineBreak c

namespace Recoding

variable (r : Recoding)

/-- The text in this coding. -/
def write (cs : List Char) : List Char := cs.flatMap r.code

@[simp] theorem write_nil : r.write [] = [] := rfl

@[simp] theorem write_cons (c : Char) (cs : List Char) :
    r.write (c :: cs) = r.code c ++ r.write cs := List.flatMap_cons

@[simp] theorem write_append (as bs : List Char) :
    r.write (as ++ bs) = r.write as ++ r.write bs := List.flatMap_append

theorem write_cons_of_telling {c : Char} (h : Telling c) (cs : List Char) :
    r.write (c :: cs) = c :: r.write cs := by
  rw [write_cons, r.code_of_telling h, List.singleton_append]

theorem write_of_telling {cs : List Char} (h : ∀ c ∈ cs, Telling c) : r.write cs = cs := by
  induction cs with
  | nil => rfl
  | cons c cs ih =>
    rw [List.forall_mem_cons] at h
    rw [r.write_cons_of_telling h.1, ih h.2]

theorem not_telling_of_mem {c d : Char} (hc : ¬Telling c) (hd : d ∈ r.code c) : ¬Telling d := by
  intro h
  rw [r.eq_of_mem hd h] at h
  exact hc h

theorem exists_code (c : Char) : ∃ d ds, r.code c = d :: ds ∧ d ∈ r.code c := by
  obtain ⟨d, ds, hcode⟩ := List.exists_cons_of_ne_nil (r.code_ne_nil c)
  exact ⟨d, ds, hcode, hcode ▸ List.mem_cons_self⟩

/-- What is looked for is found in the same places. -/
theorem prefix_write_iff {word cs : List Char} (hword : ∀ c ∈ word, Telling c) :
    word <+: r.write cs ↔ word <+: cs := by
  induction word generalizing cs with
  | nil => simp
  | cons w word ih =>
    rw [List.forall_mem_cons] at hword
    cases cs with
    | nil => simp
    | cons c cs =>
      by_cases hc : Telling c
      · rw [r.write_cons_of_telling hc, List.cons_prefix_cons, List.cons_prefix_cons, ih hword.2]
      · obtain ⟨d, ds, hcode, hd⟩ := r.exists_code c
        have hwc : w ≠ c := (ne_of_telling hc hword.1).symm
        have hwd : w ≠ d := (ne_of_telling (r.not_telling_of_mem hc hd) hword.1).symm
        rw [write_cons, hcode, List.cons_append, List.cons_prefix_cons, List.cons_prefix_cons]
        simp [hwd, hwc]

theorem head?_write_iff {c : Char} (hc : Telling c) {cs : List Char} :
    (r.write cs).head? = some c ↔ cs.head? = some c := by
  have hone : [c] <+: r.write cs ↔ [c] <+: cs := r.prefix_write_iff (by simpa using hc)
  rwa [List.singleton_prefix_iff_head?_eq_some, List.singleton_prefix_iff_head?_eq_some] at hone

theorem startsWith_write {word : List Char} (hword : ∀ c ∈ word, Telling c) (cs : List Char) :
    Name.startsWith word (r.write cs) = Name.startsWith word cs := by
  have hprefix : word <+: r.write cs ↔ word <+: cs := r.prefix_write_iff hword
  rw [Bool.eq_iff_iff, Name.startsWith_iff, Name.startsWith_iff]
  simpa [List.IsPrefix, eq_comm] using hprefix

/-! ### Parts -/

theorem take_write (n : Nat) (cs : List Char) :
    (r.write cs).take (r.write (cs.take n)).length = r.write (cs.take n) := by
  have hsplit := r.write_append (cs.take n) (cs.drop n)
  rw [List.take_append_drop] at hsplit
  rw [hsplit, List.take_left]

theorem drop_write (n : Nat) (cs : List Char) :
    (r.write cs).drop (r.write (cs.take n)).length = r.write (cs.drop n) := by
  have hsplit := r.write_append (cs.take n) (cs.drop n)
  rw [List.take_append_drop] at hsplit
  rw [hsplit, List.drop_left]

/-- A run of characters ends at the same place if each character goes on or
stops like all of its code. -/
theorem takeWhile_write {p : Char → Bool} (h : ∀ c, ∀ d ∈ r.code c, p d = p c)
    (cs : List Char) : (r.write cs).takeWhile p = r.write (cs.takeWhile p) := by
  induction cs with
  | nil => rfl
  | cons c cs ih =>
    rw [write_cons, List.takeWhile_cons]
    cases hc : p c with
    | true =>
      have hcode : ∀ d ∈ r.code c, p d = true := fun d hd => (h c d hd).trans hc
      rw [List.takeWhile_append_of_pos hcode, ih, if_pos rfl, write_cons]
    | false =>
      obtain ⟨d, ds, hcode, hd⟩ := r.exists_code c
      rw [hcode, List.cons_append, List.takeWhile_cons, h c d hd, hc, if_neg Bool.false_ne_true,
        if_neg Bool.false_ne_true, write_nil]

end Recoding

/-! ## Escaped line ends -/

/-- A backslash, with any number of signs `#` behind it, stands in front of a
line end that is coded as more than itself. -/
def Recoding.SplitsEscaped (r : Recoding) (cs : List Char) : Prop :=
  ∃ front n c back, cs = front ++ '\\' :: (List.replicate n '#' ++ c :: back) ∧
    Trivia.isLineBreak c = true ∧ r.code c ≠ [c]

theorem Recoding.SplitsEscaped.of_append {r : Recoding} (as : List Char) {bs : List Char}
    (h : r.SplitsEscaped bs) : r.SplitsEscaped (as ++ bs) := by
  obtain ⟨front, n, c, back, rfl, hc⟩ := h
  exact ⟨as ++ front, n, c, back, (List.append_assoc ..).symm, hc⟩

/-! ## Extents -/

/-- What was found in `cs` behind `seen` known characters, and what was found in
its coding behind `seen'`. -/
structure Extent.Written (r : Recoding) (seen seen' : Nat) (cs : List Char) (e e' : Extent) :
    Prop where
  closed_eq : e'.closed = e.closed
  length_eq : ∃ n, e.length = seen + n ∧ e'.length = seen' + (r.write (cs.take n)).length

namespace Extent.Written

variable {r : Recoding} {seen seen' : Nat} {cs front : List Char} {e e' : Extent}

/-- Nothing more is taken. -/
theorem done {closed : Bool} : Written r seen seen' cs ⟨seen, closed⟩ ⟨seen', closed⟩ :=
  ⟨rfl, 0, rfl, rfl⟩

/-- Known characters may be counted among those that were found. -/
theorem behind {s s' : Nat} (hs : s = seen + front.length)
    (hs' : s' = seen' + (r.write front).length) (h : Written r s s' cs e e') :
    Written r seen seen' (front ++ cs) e e' := by
  obtain ⟨n, hn, hn'⟩ := h.length_eq
  refine ⟨h.closed_eq, front.length + n, by omega, ?_⟩
  rw [List.take_length_add_append, r.write_append, List.length_append]
  omega

theorem behind_char {c : Char} {s s' : Nat} (hs : s = seen + 1)
    (hs' : s' = seen' + (r.code c).length) (h : Written r s s' cs e e') :
    Written r seen seen' (c :: cs) e e' := by
  have hall : Written r seen seen' ([c] ++ cs) e e' := behind hs (by simpa using hs') h
  exact hall

theorem behind_told {c : Char} (hc : Telling c) (h : Written r (seen + 1) (seen' + 1) cs e e') :
    Written r seen seen' (c :: cs) e e' :=
  behind_char rfl (by rw [r.code_of_telling hc, List.length_singleton]) h

/-- The coding of what was found is what was found in the coding. -/
theorem take_eq (h : Written r 0 0 cs e e') :
    (r.write cs).take e'.length = r.write (cs.take e.length) := by
  obtain ⟨n, hn, hn'⟩ := h.length_eq
  rw [hn, hn', Nat.zero_add, Nat.zero_add, r.take_write]

theorem drop_eq (h : Written r 0 0 cs e e') :
    (r.write cs).drop e'.length = r.write (cs.drop e.length) := by
  obtain ⟨n, hn, hn'⟩ := h.length_eq
  rw [hn, hn', Nat.zero_add, Nat.zero_add, r.drop_write]

end Extent.Written

namespace Literal

/-! ## Signs and quotes -/

theorem telling_signs (count : Nat) : ∀ c ∈ List.replicate count '#', Telling c := by
  intro c hc
  rw [List.eq_of_mem_replicate hc]
  decide

theorem telling_quotes (multiline : Bool) : ∀ c ∈ quotes multiline, Telling c := by
  have hquote : Telling '"' := by decide
  cases multiline <;> simpa [quotes] using hquote

theorem telling_opener (count : Nat) (multiline : Bool) : ∀ c ∈ opener count multiline, Telling c :=
  List.forall_mem_append.mpr ⟨telling_signs count, telling_quotes multiline⟩

theorem telling_closer (count : Nat) (multiline : Bool) : ∀ c ∈ closer count multiline, Telling c :=
  List.forall_mem_append.mpr ⟨telling_quotes multiline, telling_signs count⟩

theorem telling_escaper (count : Nat) : ∀ c ∈ escaper count, Telling c :=
  List.forall_mem_cons.mpr ⟨by decide, telling_signs count⟩

section Coded

variable (r : Recoding)

@[simp] theorem hashes_write (cs : List Char) : hashes (r.write cs) = hashes cs := by
  have hiff : ∀ n, n ≤ hashes (r.write cs) ↔ n ≤ hashes cs := by
    intro n
    rw [le_hashes_iff, le_hashes_iff, r.prefix_write_iff (telling_signs n)]
  exact Nat.le_antisymm ((hiff _).mp (Nat.le_refl _)) ((hiff _).mpr (Nat.le_refl _))

theorem looksMultiline_write (multiline : Bool) (behind : List Char) :
    LooksMultiline multiline (r.write behind) ↔ LooksMultiline multiline behind := by
  unfold LooksMultiline
  rw [r.prefix_write_iff]
  have hquote : Telling '"' := by decide
  simpa using hquote

end Coded

/-! ## Characters that are passed -/

section Passed

variable {count seen : Nat} {multiline : Bool} {outer : List Frame} {front cs : List Char}

theorem not_closer_of_not_telling {c : Char} (hc : ¬Telling c) (cs : List Char) :
    ¬closer count multiline <+: c :: cs := by
  intro hcloser
  apply hc
  apply telling_closer count multiline
  apply List.mem_of_mem_head?
  obtain ⟨more, hquotes⟩ := exists_quotes_eq multiline
  rw [closer, hquotes, List.cons_append, List.cons_prefix_cons] at hcloser
  rw [closer, hquotes, hcloser.1]
  rfl

/-- A literal passes what it does not look for. -/
theorem run_untold (hfront : ∀ c ∈ front, ¬Telling c)
    (hline : multiline = false → ∀ c ∈ front, Trivia.isLineBreak c = false) :
    run (.quoted count multiline :: outer) seen (front ++ cs) =
      run (.quoted count multiline :: outer) (seen + front.length) cs := by
  apply run_content
  · exact fun h => hfront _ h (by decide)
  · exact hline
  · rintro before c behind rfl
    exact not_closer_of_not_telling (hfront c (by simp)) _

/-- So does an interpolation. -/
theorem run_group_untold (hfront : ∀ c ∈ front, ¬Telling c) :
    run (.group :: outer) seen (front ++ cs) = run (.group :: outer) (seen + front.length) cs := by
  induction front generalizing seen with
  | nil => rfl
  | cons c front ih =>
    rw [List.forall_mem_cons] at hfront
    have hc : c ∉ ['(', ')', '"', '#'] := by
      intro hmem
      apply hfront.1
      simp only [List.mem_cons, List.not_mem_nil, or_false] at hmem
      rcases hmem with rfl | rfl | rfl | rfl <;> decide
    rw [List.cons_append, run_ordinary hc, ih hfront.2, List.length_cons]
    congr 1
    omega

end Passed

/-! ## Strings -/

/-- The automaton gets as far in the coding of a text as in the text. -/
def RunsAlike (r : Recoding) (cs : List Char) : Prop :=
  ∀ stack seen seen', Extent.Written r seen seen' cs (run stack seen cs)
    (run stack seen' (r.write cs))

namespace RunsAlike

variable {r : Recoding} {count seen seen' : Nat} {multiline : Bool} {outer : List Frame}

/-- An escape in front of `d`. -/
theorem escaped {d : Char} {ds : List Char} (hds : RunsAlike r ds)
    (hsplit : Trivia.isLineBreak d = true → r.code d = [d]) :
    Extent.Written r seen seen' (escaper count ++ d :: ds)
      (run (.quoted count multiline :: outer) seen (escaper count ++ d :: ds))
      (run (.quoted count multiline :: outer) seen' (r.write (escaper count ++ d :: ds))) := by
  have hescaper := r.write_of_telling (telling_escaper count)
  have hlength : (escaper count).length = count + 1 := by simp [escaper]
  rw [r.write_append, hescaper, r.write_cons, run_escaper, List.append_cons]
  by_cases hd : r.code d = [d]
  · rw [hd, List.singleton_append, run_escaper]
    apply Extent.Written.behind _ _ (hds _ _ _)
    · simp [hlength, Nat.add_assoc]
    · simp [hescaper, hlength, hd, Nat.add_assoc]
  · -- The escape takes the first character of the code, and the others are passed.
    obtain ⟨e, es, hcode, he⟩ := r.exists_code d
    have hmem : ∀ c ∈ es, c ∈ r.code d := fun c hc => hcode ▸ List.mem_cons_of_mem e hc
    have htold : ¬Telling d := fun h => hd (r.code_of_telling h)
    have huntold : ∀ c ∈ es, ¬Telling c := fun c hc => r.not_telling_of_mem htold (hmem c hc)
    have hunbroken : Trivia.isLineBreak d = false := Bool.eq_false_iff.mpr fun h => hd (hsplit h)
    have hline : ∀ c ∈ es, Trivia.isLineBreak c = false := fun c hc =>
      (r.isLineBreak_eq (hmem c hc)).trans hunbroken
    have hdp : d ≠ '(' := ne_of_telling htold (by decide)
    have hep : e ≠ '(' := ne_of_telling (r.not_telling_of_mem htold he) (by decide)
    rw [hcode, List.cons_append, run_escaper, if_neg hdp, if_neg hep,
      run_untold huntold fun _ => hline]
    apply Extent.Written.behind _ _ (hds _ _ _)
    · simp [hlength, Nat.add_assoc]
    · simp [hescaper, hlength, hcode]
      omega

/-- What a literal passes. -/
theorem plain {c : Char} {cs : List Char} (hcs : RunsAlike r cs)
    (hescape : ¬escaper count <+: c :: cs) (hcloser : ¬closer count multiline <+: c :: cs)
    (hline : multiline = false → Trivia.isLineBreak c = false) :
    Extent.Written r seen seen' (c :: cs) (run (.quoted count multiline :: outer) seen (c :: cs))
      (run (.quoted count multiline :: outer) seen' (r.write (c :: cs))) := by
  have hcode : run (.quoted count multiline :: outer) seen' (r.code c ++ r.write cs) =
      run (.quoted count multiline :: outer) (seen' + (r.code c).length) (r.write cs) := by
    by_cases hc : Telling c
    · rw [← r.prefix_write_iff (telling_escaper count), r.write_cons_of_telling hc] at hescape
      rw [← r.prefix_write_iff (telling_closer count multiline),
        r.write_cons_of_telling hc] at hcloser
      rw [r.code_of_telling hc, List.singleton_append, run_plain hescape hcloser hline]
      rfl
    · apply run_untold fun d hd => r.not_telling_of_mem hc hd
      exact fun hone d hd => (r.isLineBreak_eq hd).trans (hline hone)
  rw [run_plain hescape hcloser hline, r.write_cons, hcode]
  exact .behind_char rfl rfl (hcs _ _ _)

/-- Inside a literal. -/
theorem quoted {cs : List Char} (hfree : ¬r.SplitsEscaped cs)
    (ih : ∀ ds, ds.length < cs.length → ¬r.SplitsEscaped ds → RunsAlike r ds) :
    Extent.Written r seen seen' cs (run (.quoted count multiline :: outer) seen cs)
      (run (.quoted count multiline :: outer) seen' (r.write cs)) := by
  by_cases hescape : escaper count <+: cs
  · obtain ⟨behind, rfl⟩ := hescape
    cases behind with
    | nil =>
      have hwritten := r.write_of_telling (telling_escaper count)
      have hlength : (escaper count).length = count + 1 := by simp [escaper]
      rw [r.write_append, hwritten, r.write_nil, run_escaper_end, run_escaper_end]
      apply Extent.Written.behind _ _ .done
      · rw [hlength]
      · rw [hwritten, hlength]
    | cons d ds =>
      apply escaped
      · apply ih ds
        · simp only [List.length_append, List.length_cons]
          omega
        · intro hsplit
          apply hfree
          rw [List.append_cons]
          exact hsplit.of_append _
      · intro hbreak
        by_contra hcode
        exact hfree ⟨[], count, d, ds, rfl, hbreak, hcode⟩
  by_cases hcloser : closer count multiline <+: cs
  · obtain ⟨behind, rfl⟩ := hcloser
    have hwritten := r.write_of_telling (telling_closer count multiline)
    have hpos : 0 < (closer count multiline).length := by
      have hquotes := length_quotes_pos multiline
      rw [length_closer]
      omega
    have hbehind := ih behind (by rw [List.length_append]; omega) fun h => hfree (h.of_append _)
    rw [r.write_append, hwritten, run_closer, run_closer]
    apply Extent.Written.behind rfl _ (hbehind _ _ _)
    rw [hwritten]
  cases cs with
  | nil =>
    rw [r.write_nil, run, run]
    exact .done
  | cons c cs =>
    by_cases hstop : multiline = false ∧ Trivia.isLineBreak c = true
    · obtain ⟨d, ds, hcode, hd⟩ := r.exists_code c
      have hbreak : Trivia.isLineBreak d = true := (r.isLineBreak_eq hd).trans hstop.2
      rw [hstop.1, r.write_cons, hcode, List.cons_append, run_lineBreak hstop.2,
        run_lineBreak hbreak]
      exact .done
    · apply plain _ hescape hcloser
      · exact fun hone => Bool.eq_false_iff.mpr fun h => hstop ⟨hone, h⟩
      · exact ih cs (Nat.lt_succ_self _) fun h => hfree (h.of_append [c])

/-- A character that is looked for, and taken by itself. -/
theorem told {c : Char} {cs : List Char} {stack stack' : List Frame} (hcs : RunsAlike r cs)
    (hc : Telling c) (hrun : ∀ seen ds, run stack seen (c :: ds) = run stack' (seen + 1) ds) :
    Extent.Written r seen seen' (c :: cs) (run stack seen (c :: cs))
      (run stack seen' (r.write (c :: cs))) := by
  rw [r.write_cons_of_telling hc, hrun, hrun]
  exact .behind_told hc (hcs _ _ _)

/-- Inside an interpolation. -/
theorem group {cs : List Char} (hfree : ¬r.SplitsEscaped cs)
    (ih : ∀ ds, ds.length < cs.length → ¬r.SplitsEscaped ds → RunsAlike r ds) :
    Extent.Written r seen seen' cs (run (.group :: outer) seen cs)
      (run (.group :: outer) seen' (r.write cs)) := by
  rcases exists_opener cs with ⟨count, multiline, behind, rfl, hmulti⟩ |
    ⟨count, rest, rfl, hsign, hquote⟩
  · have hwritten := r.write_of_telling (telling_opener count multiline)
    have hpos : 0 < (opener count multiline).length := by
      have hquotes := length_quotes_pos multiline
      rw [length_opener]
      omega
    have hbehind := ih behind (by rw [List.length_append]; omega) fun h => hfree (h.of_append _)
    rw [r.write_append, hwritten, run_opener hmulti,
      run_opener ((looksMultiline_write r multiline behind).not.mpr hmulti)]
    apply Extent.Written.behind rfl _ (hbehind _ _ _)
    rw [hwritten]
  by_cases hcount : 0 < count
  · have hwritten := r.write_of_telling (telling_signs count)
    have hlength : (List.replicate count '#').length = count := List.length_replicate
    have hbehind := ih rest (by rw [List.length_append]; omega) fun h => hfree (h.of_append _)
    rw [r.write_append, hwritten, run_signs hcount hsign hquote,
      run_signs hcount ((r.head?_write_iff (by decide)).not.mpr hsign)
        ((r.head?_write_iff (by decide)).not.mpr hquote)]
    apply Extent.Written.behind _ _ (hbehind _ _ _)
    · rw [hlength]
    · rw [hwritten, hlength]
  obtain rfl : count = 0 := Nat.eq_zero_of_not_pos hcount
  rw [List.replicate_zero, List.nil_append] at hfree ih ⊢
  cases rest with
  | nil =>
    rw [r.write_nil, run, run]
    exact .done
  | cons c cs =>
    have hcs := ih cs (Nat.lt_succ_self _) fun h => hfree (h.of_append [c])
    by_cases hc : Telling c
    · by_cases hopen : c = '('
      · subst hopen
        exact hcs.told hc fun _ => run_nested
      by_cases hclose : c = ')'
      · subst hclose
        exact hcs.told hc fun _ => run_groupEnd
      · apply hcs.told hc fun _ => run_ordinary _
        rw [List.head?_cons, Ne, Option.some.injEq] at hsign hquote
        simp [hopen, hclose, hsign, hquote]
    · have hpassed : run (.group :: outer) seen ([c] ++ cs) = _ :=
        run_group_untold (by simpa using hc)
      rw [List.singleton_append] at hpassed
      rw [hpassed, r.write_cons, run_group_untold fun d hd => r.not_telling_of_mem hc hd]
      exact .behind_char rfl rfl (hcs _ _ _)

end RunsAlike

/-- The automaton of strings does not mind the coding. -/
theorem run_write {r : Recoding} (stack : List Frame) (seen seen' : Nat) {cs : List Char}
    (hfree : ¬r.SplitsEscaped cs) :
    Extent.Written r seen seen' cs (run stack seen cs) (run stack seen' (r.write cs)) := by
  induction hn : cs.length using Nat.strongRecOn generalizing stack seen seen' cs with
  | ind n ih =>
    subst hn
    have hshorter : ∀ ds, ds.length < cs.length → ¬r.SplitsEscaped ds → RunsAlike r ds :=
      fun ds hlt hds stack seen seen' => ih _ hlt stack seen seen' hds rfl
    match stack with
    | [] =>
      rw [run, run]
      exact .done
    | .quoted count multiline :: outer => exact RunsAlike.quoted hfree hshorter
    | .group :: outer => exact RunsAlike.group hfree hshorter

theorem stringExtent_write {r : Recoding} (count : Nat) {cs : List Char}
    (hfree : ¬r.SplitsEscaped ('"' :: cs)) :
    Extent.Written r count count ('"' :: cs) (stringExtent count ('"' :: cs))
      (stringExtent count ('"' :: r.write cs)) := by
  obtain ⟨multiline, behind, hcs, hmulti⟩ := exists_quotes cs
  have hmulti' := (looksMultiline_write r multiline behind).not.mpr hmulti
  have hquotes := r.write_of_telling (telling_quotes multiline)
  rw [← r.write_cons_of_telling (by decide), hcs, r.write_append, hquotes,
    stringExtent_quotes count hmulti, stringExtent_quotes count hmulti']
  rw [hcs] at hfree
  apply Extent.Written.behind rfl _ (run_write _ _ _ fun h => hfree (h.of_append _))
  rw [hquotes]

end Literal

end AnySome
