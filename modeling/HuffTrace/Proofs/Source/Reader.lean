/-
  HuffTrace.Proofs.Source.Reader

  How the rest of a span is read.  The first character of a span chooses the
  reader for what follows it (`reads`), and the keyword of a definition chooses
  how far the definition goes (`definition_eq`).  What holds of every reader
  holds of the spans of all texts, so that the choice is looked at only here.
-/

import HuffTrace.Source.Span

namespace HuffTrace.Span

/-! ## First characters -/

/-- The reader that a character chooses. -/
inductive Reads (c : Char) : (List Char → SpanKind × Nat) → Prop where
  | layout (hc : isLayout c = true) : Reads c fun cs => (.skipped, runLength isLayout cs)
  | blockStart (hc : c = '\x7b') : Reads c fun _ => (.lexeme .blockStart, 0)
  | blockEnd (hc : c = '\x7d') : Reads c fun _ => (.lexeme .blockEnd, 0)
  | slash (hc : c = '/') : Reads c afterSlash
  | digit (hc : Text.isDigit c = true) : Reads c (afterDigit c)
  | square (hc : c = '[') : Reads c (afterBracket ']' .constant)
  | angle (hc : c = '<') : Reads c (afterBracket '>' .argument)
  | word (hc : isWordStart c = true) : Reads c afterWordStart
  | hash (hc : c = '#') : Reads c afterHash
  | unknown : Reads c fun _ => (.unrecognized, 0)

theorem reads (c : Char) : Reads c (after c) := by
  unfold after
  split
  · next hc => exact .layout hc
  split
  · next hc => exact .blockStart (beq_iff_eq.1 hc)
  split
  · next hc => exact .blockEnd (beq_iff_eq.1 hc)
  split
  · next hc => exact .slash (beq_iff_eq.1 hc)
  split
  · next hc => exact .digit hc
  split
  · next hc => exact .square (beq_iff_eq.1 hc)
  split
  · next hc => exact .angle (beq_iff_eq.1 hc)
  split
  · next hc => exact .word hc
  split
  · next hc => exact .hash (beq_iff_eq.1 hc)
  · exact .unknown

/-! ## Keywords of definitions -/

/-- Whether a text starts a macro, function or test. -/
def startsBody (cs : List Char) : Bool :=
  startsWithWord "macro" cs || startsWithWord "fn" cs || startsWithWord "test" cs

/-- What the keyword of a definition announces. -/
inductive DefinitionKind where
  /-- A macro, function or test. -/
  | body
  | interface (kind : SignatureKind)
  | constant
  | table

/-- What a text announces, if it starts with a keyword. -/
def definitionKind? (cs : List Char) : Option DefinitionKind :=
  if startsBody cs then some .body
  else if let some kind := interfaceKind? cs then some (.interface kind)
  else if startsWith "constant" cs then some .constant
  else if startsWith "jumptable" cs || startsWith "table" cs then some .table
  else none

/-- The span of a definition.  A macro goes through its brace and a table through both of its
    braces, the others up to the end of the line. -/
def DefinitionKind.span : DefinitionKind → List Char → SpanKind × Nat
  | body, cs =>
    match through? '\x7b' cs with
    | some n => (.lexeme .macroDefinition, n)
    | none => (.unrecognized, cs.length)
  | interface kind, cs => (.lexeme (.interface kind), runLength (· != '\n') cs)
  | constant, cs => (.lexeme .constantDefinition, runLength (· != '\n') cs)
  | table, cs =>
    match through? '\x7b' cs with
    | some n =>
      match through? '\x7d' (cs.drop n) with
      | some m => (.lexeme .tableDefinition, n + m)
      | none => (.unrecognized, cs.length)
    | none => (.unrecognized, cs.length)

theorem definition_eq (cs : List Char) :
    definition cs = match definitionKind? cs with
      | some kind => kind.span cs
      | none => (.unrecognized, 0) := by
  unfold definition definitionKind?
  rw [← startsBody]
  split
  · rfl
  cases interfaceKind? cs with
  | some kind => rfl
  | none =>
    simp only
    split
    · rfl
    split
    · rfl
    · rfl

end HuffTrace.Span
