import AnySome.Source.Diagnostic
import AnySome.Source.Span
import AnySome.Token.Scan
import AnySome.Cursor.Fault

/-!
# A place in a token stream

A cursor is what a parser works on: the tokens that are still to come, the
place where the last consumed token ended, and the problems found so far.
Looking ahead is running on a cursor and going back to the earlier one, so
what is found while looking ahead is forgotten with it.

There is at most one problem per place. Recovery can come by the same token
more than once, and the first problem is the one that counts.

An unterminated token is a problem as soon as it becomes the current one,
whoever steps onto it.

The starts and stops of tokens are natural numbers without a bound. A cursor
that cuts them to 32 bits, as a parser may, has the same places, spans and
findings for texts of fewer than 2^32 bytes; longer ones are outside of what
the theorems about this cursor say of it.

## Main results

* `Cursor.length_advance` — a step consumes one token, if there is one.
-/

namespace AnySome

/-- A problem at a range of bytes. -/
structure Finding where
  start : Nat
  length : Nat
  fault : Fault
deriving DecidableEq, Repr

/-- The finding as a diagnostic of the named file. -/
def Finding.toDiagnostic (file : String) (f : Finding) : Diagnostic :=
  ⟨.error, file, f.start, f.length, f.fault.message⟩

/-- A place in a token stream, and the problems found on the way to it. -/
structure Cursor where
  /-- The tokens to come, in front of the end of the text. -/
  pending : List Token
  /-- How many they are: loops compare this number to tell whether they move. -/
  remaining : Nat
  remaining_eq : remaining = pending.length
  /-- The empty token at the end of the text. -/
  final : Token
  /-- Byte offset at which the last consumed token ended. -/
  previousStop : Nat
  findings : List Finding
deriving DecidableEq, Repr

namespace Cursor

attribute [simp] Cursor.remaining_eq

/-! ## The current token -/

/-- The token at the cursor. -/
def current (c : Cursor) : Token := c.pending.headD c.final

/-- The kind of the token at the cursor. -/
def kind (c : Cursor) : Kind :=
  match c.pending with
  | [] => .endOfFile
  | t :: _ => t.kind

/-- Everything has been consumed. -/
def atEnd (c : Cursor) : Bool := c.pending.isEmpty

/-- The text consumed between an earlier cursor and this one, as written. -/
def writtenSince (earlier c : Cursor) : String :=
  Token.written (earlier.pending.take (earlier.remaining - c.remaining))

/-! ## Problems -/

/-- Notes a problem at a range of bytes, unless one is known to start there. -/
def report (start stop : Nat) (fault : Fault) (c : Cursor) : Cursor :=
  if c.findings.any (fun f => f.start == start) then c
  else { c with findings := c.findings ++ [⟨start, stop - start, fault⟩] }

/-- Notes a problem with the current token. -/
def reportHere (fault : Fault) (c : Cursor) : Cursor :=
  c.report c.current.start c.current.stop fault

/-- Notes a problem with the delimiter at byte `start`. -/
def reportDelimiter (start : Nat) (fault : Fault) (c : Cursor) : Cursor :=
  c.report start (start + 1) fault

/-- Notes a current token without an end. -/
def checkTerminated (c : Cursor) : Cursor :=
  if c.current.isUnterminated then c.reportHere (Fault.ofUnterminated c.kind) else c

/-! ## Moving -/

/-- Consumes the current token. At the end of the text there is none. -/
def advance (c : Cursor) : Cursor :=
  match h : c.pending with
  | [] => c
  | t :: rest =>
    checkTerminated
      { c with
        pending := rest
        remaining := c.remaining - 1
        remaining_eq := by simp [h]
        previousStop := t.stop }

/-- The cursor at the start of a token stream. -/
def start (s : TokenStream) : Cursor :=
  checkTerminated ⟨s.pending, s.pending.length, rfl, s.final, (s.pending.headD s.final).start, []⟩

/-! ## What the operations keep -/

@[simp] theorem pending_report (start stop : Nat) (fault : Fault) (c : Cursor) :
    (c.report start stop fault).pending = c.pending := by
  unfold report
  split <;> rfl

@[simp] theorem pending_reportHere (fault : Fault) (c : Cursor) :
    (c.reportHere fault).pending = c.pending := by
  simp [reportHere]

@[simp] theorem pending_reportDelimiter (start : Nat) (fault : Fault) (c : Cursor) :
    (c.reportDelimiter start fault).pending = c.pending := by
  simp [reportDelimiter]

@[simp] theorem pending_checkTerminated (c : Cursor) :
    c.checkTerminated.pending = c.pending := by
  unfold checkTerminated
  split <;> simp

/-- A step drops the current token. -/
@[simp] theorem pending_advance (c : Cursor) : c.advance.pending = c.pending.tail := by
  unfold advance
  split <;> simp_all

/-- A step consumes one token, if there is one. -/
theorem length_advance (c : Cursor) :
    c.advance.pending.length = c.pending.length - 1 := by
  simp

/-- Only the end of the text has no tokens to come. -/
theorem kind_of_pending_nil {c : Cursor} (h : c.pending = []) : c.kind = .endOfFile := by
  simp [kind, h]

/-- The token at the cursor is the first of those to come. -/
theorem current_of_cons {c : Cursor} {t : Token} {ts : List Token} (h : c.pending = t :: ts) :
    c.current = t := by
  simp [current, h]

theorem kind_of_cons {c : Cursor} {t : Token} {ts : List Token} (h : c.pending = t :: ts) :
    c.kind = t.kind := by
  simp [kind, h]

theorem pending_advance_of_cons {c : Cursor} {t : Token} {ts : List Token}
    (h : c.pending = t :: ts) : c.advance.pending = ts := by
  simp [h]

/-- Where another kind of token stands, there is a token to come. -/
theorem length_pos_of_kind_ne {c : Cursor} (h : c.kind ≠ .endOfFile) :
    0 < c.pending.length := by
  apply List.length_pos_iff.mpr
  intro hnil
  exact h (kind_of_pending_nil hnil)

end Cursor

end AnySome
