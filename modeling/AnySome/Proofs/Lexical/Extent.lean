import AnySome.Proofs.Lexical.Hinge

/-!
# Tokens take no more than there is

The length that reading finds for a token is never more than the number of
characters that are left. For a string literal this comes down to the moves of
its automaton: each of them consumes characters that it has looked at.

## Main results

* `Literal.length_run_le` — the automaton stays within the text.
* `Lexeme.length_scan_le` — so does every token.
-/

namespace AnySome

/-! ## Literals -/

namespace Literal

theorem hashes_le_length (cs : List Char) : hashes cs ≤ cs.length :=
  (List.takeWhile_prefix _).length_le

/-- A literal opens with quotes that are there. -/
theorem opening_le_length (count : Nat) (cs : List Char) (h : cs ≠ []) :
    (opening count cs).2 ≤ cs.length := by
  unfold opening
  split
  next htriple =>
    unfold startsWithTripleQuote at htriple
    split at htriple
    · simp
    · contradiction
  · exact List.length_pos_iff.mpr h

theorem quotedMove_le_length {count : Nat} {multiline : Bool} {outer stack : List Frame} {a : Char}
    {cs : List Char} {extra : Nat}
    (h : quotedMove count multiline outer a cs = .next extra stack) : extra ≤ cs.length := by
  have hhashes := hashes_le_length cs
  unfold quotedMove at h
  dsimp only at h
  split at h
  next hescape =>
    have hdrop : (cs.drop count).length = cs.length - count := List.length_drop
    split at h
    · cases h
      omega
    next heq =>
      cases h
      rw [heq, List.length_cons] at hdrop
      omega
    next heq =>
      cases h
      rw [heq, List.length_cons] at hdrop
      omega
  next =>
    split at h
    · split at h
      · split at h
        next hclose =>
          cases h
          have hdrop := hashes_le_length (cs.drop 2)
          have hlen : (cs.drop 2).length = cs.length - 2 := List.length_drop
          have htriple := hclose.1
          unfold startsWithTripleQuote at htriple
          split at htriple
          next heq =>
            cases heq
            simp only [List.length_cons] at hlen ⊢
            omega
          · contradiction
        · cases h
          omega
      · split at h <;> cases h <;> omega
    · split at h
      · contradiction
      · cases h
        omega

theorem groupMove_le_length {outer stack : List Frame} {a : Char} {cs : List Char} {extra : Nat}
    (h : groupMove outer a cs = .next extra stack) : extra ≤ cs.length := by
  have hhashes := hashes_le_length cs
  unfold groupMove at h
  dsimp only at h
  split at h
  · cases h
    omega
  split at h
  · cases h
    omega
  split at h
  · cases h
    have hquotes := opening_le_length 0 (a :: cs) (by simp)
    simp only [List.length_cons] at hquotes
    omega
  split at h
  · have hdrop : (cs.drop (hashes cs)).length = cs.length - hashes cs := List.length_drop
    split at h
    next tail heq =>
      cases h
      have hquotes := opening_le_length (hashes cs + 1) ('"' :: tail) (by simp)
      rw [heq] at hdrop
      omega
    · cases h
      omega
  · cases h
    omega

/-- A move takes no more characters than there are behind the one it is at. -/
theorem move_le_length {frame : Frame} {outer stack : List Frame} {a : Char} {cs : List Char}
    {extra : Nat} (h : move frame outer a cs = .next extra stack) : extra ≤ cs.length := by
  cases frame with
  | quoted count multiline => exact quotedMove_le_length h
  | group => exact groupMove_le_length h

theorem length_run_le (stack : List Frame) (seen : Nat) (cs : List Char) :
    (run stack seen cs).length ≤ seen + cs.length := by
  fun_induction run stack seen cs with
  | case1 => simp
  | case2 => simp
  | case3 => simp
  | case4 seen frame outer a cs extra stack' hmove ih =>
    have hle := move_le_length hmove
    have hlen : (cs.drop extra).length = cs.length - extra := List.length_drop
    simp only [List.length_cons]
    omega

theorem length_stringExtent_le (count : Nat) (cs : List Char) (h : cs ≠ []) :
    (stringExtent count cs).length ≤ count + cs.length := by
  have hquotes := opening_le_length count cs h
  have hrun := length_run_le [(opening count cs).1] (count + (opening count cs).2)
    (cs.drop (opening count cs).2)
  have hlen : (cs.drop (opening count cs).2).length = cs.length - (opening count cs).2 :=
    List.length_drop
  have heq : stringExtent count cs = run [(opening count cs).1] (count + (opening count cs).2)
      (cs.drop (opening count cs).2) := rfl
  rw [heq]
  omega

/-- A literal takes at least its first quote. -/
theorem length_stringExtent_pos (count : Nat) (cs : List Char) :
    0 < (stringExtent count cs).length := by
  have hopening : 0 < (opening count cs).2 := by
    unfold opening
    split <;> simp
  have hrun := le_length_run [(opening count cs).1] (count + (opening count cs).2)
    (cs.drop (opening count cs).2)
  have heq : stringExtent count cs = run [(opening count cs).1] (count + (opening count cs).2)
    (cs.drop (opening count cs).2) := rfl
  rw [heq]
  omega

theorem length_regexRun_le (count seen : Nat) (cs : List Char) :
    (regexRun count seen cs).length ≤ seen + cs.length := by
  fun_induction regexRun count seen cs with
  | case1 => simp
  | case2 seen a cs hclose =>
    have := hashes_le_length cs
    simp only [List.length_cons]
    omega
  | case3 seen a cs _ ih =>
    simp only [List.length_cons]
    omega

theorem numberLength_le (last : Char) (cs : List Char) : numberLength last cs ≤ cs.length := by
  fun_induction numberLength last cs with
  | case1 => simp
  | case2 last a cs _ ih =>
    simp only [List.length_cons]
    omega
  | case3 => simp

end Literal

/-! ## Tokens -/

namespace Lexeme

theorem length_backticked_le (cs : List Char) : (backticked cs).length ≤ cs.length + 1 := by
  unfold backticked
  dsimp only
  generalize hbody : (cs.takeWhile fun c => c != '\x60' && c != '\n').length = n
  have hle : n ≤ cs.length := by
    rw [← hbody]
    exact (List.takeWhile_prefix _).length_le
  have hlen : (cs.drop n).length = cs.length - n := List.length_drop
  split
  next heq =>
    rw [heq, List.length_cons] at hlen
    simp only
    omega
  · simp only
    omega

theorem length_pound_le (cs : List Char) : (pound cs).length ≤ cs.length + 1 := by
  have hhashes := Literal.hashes_le_length cs
  cases hdrop : cs.drop (Literal.hashes cs) with
  | nil => simp [pound_of_drop_nil hdrop, single]
  | cons d tail =>
    have hlen : (cs.drop (Literal.hashes cs)).length = cs.length - Literal.hashes cs :=
      List.length_drop
    rw [hdrop, List.length_cons] at hlen
    rw [pound_of_drop hdrop]
    dsimp only
    split
    · have hstring := Literal.length_stringExtent_le (Literal.hashes cs + 1)
        ('"' :: tail) (by simp)
      simp only [List.length_cons] at hstring ⊢
      omega
    split
    · have hregex := Literal.length_regexRun_le (Literal.hashes cs + 1)
        (Literal.hashes cs + 1 + 1) tail
      simp only
      omega
    split
    · have hname : nameLength cs ≤ cs.length := (List.takeWhile_prefix _).length_le
      simp only
      omega
    · simp [single]

/-- A token takes no more characters than there are. -/
theorem length_scan_le (a : Char) (cs : List Char) : (scan a cs).length ≤ cs.length + 1 := by
  obtain ⟨f, hform, hscan⟩ := exists_form a
  rw [hscan]
  cases hform with
  | punctuation => simp [single]
  | hyphen =>
    dsimp only
    split
    next harrow =>
      obtain ⟨ds, rfl⟩ := List.head?_eq_some_iff.mp harrow
      simp
    · simp [single]
  | point =>
    dsimp only
    split
    next hdots =>
      obtain ⟨back, rfl⟩ := (Name.startsWith_iff _ _).mp hdots
      simp
    · simp [single]
  | quote =>
    have hstring := Literal.length_stringExtent_le 0 ('"' :: cs) (by simp)
    simp only [List.length_cons] at hstring ⊢
    omega
  | pound => exact length_pound_le cs
  | backtick => exact length_backticked_le cs
  | digit => exact Nat.succ_le_succ (Literal.numberLength_le a cs)
  | sign => simp [single]
  | name => exact Nat.succ_le_succ (List.takeWhile_prefix _).length_le
  | unknown => simp [single]

theorem length_pound_pos (cs : List Char) : 0 < (pound cs).length := by
  cases hdrop : cs.drop (Literal.hashes cs) with
  | nil => simp [pound_of_drop_nil hdrop, single]
  | cons d tail =>
    rw [pound_of_drop hdrop]
    dsimp only
    split
    · exact Literal.length_stringExtent_pos _ _
    split
    · have hregex := Literal.le_length_regexRun (Literal.hashes cs + 1)
        (Literal.hashes cs + 1 + 1) tail
      simp only
      omega
    split <;> simp [single]

theorem length_scan_pos (a : Char) (cs : List Char) : 0 < (scan a cs).length := by
  obtain ⟨f, hform, hscan⟩ := exists_form a
  rw [hscan]
  cases hform with
  | punctuation => exact Nat.one_pos
  | hyphen =>
    dsimp only
    split <;> exact Nat.succ_pos _
  | point =>
    dsimp only
    split <;> exact Nat.succ_pos _
  | quote => exact Literal.length_stringExtent_pos _ _
  | pound => exact length_pound_pos cs
  | backtick => exact length_backticked_pos cs
  | digit => exact Nat.succ_pos _
  | sign => exact Nat.one_pos
  | name => exact Nat.succ_pos _
  | unknown => exact Nat.one_pos

end Lexeme

end AnySome
