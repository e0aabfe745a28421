/-
  HuffTrace.Source.Span

  Source text cut into spans.  A span is a lexeme, a skipped stretch (layout,
  comments, attributes) or a stretch that is not recognised.  Cutting never
  fails and loses nothing: at each place the first character decides what is
  tried, and what is tried reports how many of the following characters belong
  to the span.

  A lexeme that has begun and cannot be finished is not recognised up to the
  place where it fails; nothing shorter is tried instead.  Block comments are
  such a case throughout.
-/

import HuffTrace.Diagnostics
import HuffTrace.Text.Digit

namespace HuffTrace

/-- The kinds of interface definitions, which declare a signature. -/
inductive SignatureKind where
  | function
  | event
  | error
  deriving DecidableEq, Repr

/-- The classes of the token grammar. -/
inductive Lexeme where
  /-- A macro header from `#define` through its opening brace. -/
  | macroDefinition
  /-- The line of a function, event or error definition. -/
  | interface (kind : SignatureKind)
  /-- The line of a constant definition. -/
  | constantDefinition
  /-- A jump table or code table with its body. -/
  | tableDefinition
  /-- An include directive with its quoted path. -/
  | inclusion
  /-- A hexadecimal or decimal number. -/
  | number
  /-- A name in square brackets. -/
  | constant
  /-- A name in angle brackets. -/
  | argument
  /-- A name with arguments in parentheses. -/
  | invocation
  /-- A name with a colon. -/
  | label
  /-- A bare name. -/
  | identifier
  | blockStart
  | blockEnd
  deriving DecidableEq, Repr

/-- What a span is. -/
inductive SpanKind where
  | lexeme (lexeme : Lexeme)
  | skipped
  | unrecognized
  deriving DecidableEq, Repr

/-- A stretch of the source. -/
structure Span where
  kind : SpanKind
  text : List Char
  deriving DecidableEq, Repr

namespace Span

/-! ## Character classes -/

/-- Layout between lexemes. -/
def isLayout (c : Char) : Bool :=
  c == ' ' || c == '\t' || c == '\r' || c == '\n' || c == '\x0c'

/-- Layout inside a directive. -/
def isGap (c : Char) : Bool :=
  c == ' ' || c == '\t'

/-- A character of a name. -/
def isWordChar (c : Char) : Bool :=
  c.isAlphanum || c == '_'

/-- The first character of a name. -/
def isWordStart (c : Char) : Bool :=
  c.isAlpha || c == '_'

/-- How many characters from the start satisfy `p`. -/
def runLength (p : Char → Bool) (cs : List Char) : Nat :=
  (cs.takeWhile p).length

/-! ## Spans by their first character

Each function gets the characters after the first one, and answers with the kind of
the span and the number of these characters in it. -/

/-- The extent of a block comment after its opening: up to, and without, a slash that
    follows a star. -/
def commentLength (starred : Bool) : List Char → Nat
  | [] => 0
  | c :: cs => if starred && c == '/' then 0 else commentLength (c == '*') cs + 1

/-- After a slash. -/
def afterSlash : List Char → SpanKind × Nat
  | '/' :: cs => (.skipped, runLength (· != '\n') cs + 1)
  | '*' :: cs => (.unrecognized, commentLength false cs + 1)
  | _ => (.unrecognized, 0)

/-- After a digit. -/
def afterDigit (c : Char) (cs : List Char) : SpanKind × Nat :=
  match cs with
  | x :: d :: _ =>
    if c == '0' && (x == 'x' || x == 'X') && Text.isHexDigit d then
      (.lexeme .number, runLength Text.isHexDigit (cs.drop 1) + 1)
    else (.lexeme .number, runLength Text.isDigit cs)
  | _ => (.lexeme .number, runLength Text.isDigit cs)

/-- After a bracket that is to be closed by `close` around a name. -/
def afterBracket (close : Char) (lexeme : Lexeme) (cs : List Char) : SpanKind × Nat :=
  let n := runLength isWordChar cs
  if n = 0 then (.unrecognized, 0)
  else if (cs.drop n).head? = some close then (.lexeme lexeme, n + 1)
  else (.unrecognized, n)

/-- The arguments of an invocation after their opening parenthesis: whether they are
    closed on the line, with parentheses nested at most once, and how far that is known. -/
def argumentsLength (nested : Bool) : List Char → Bool × Nat
  | [] => (false, 0)
  | c :: cs =>
    if c == '\n' then (false, 0)
    else if c == ')' && !nested then (true, 1)
    else if c == '(' && nested then (false, 0)
    else
      let (closed, n) := argumentsLength (if c == '(' then true else c != ')' && nested) cs
      (closed, n + 1)

/-- After the first character of a name. -/
def afterWordStart (cs : List Char) : SpanKind × Nat :=
  let n := runLength isWordChar cs
  match cs.drop n with
  | ':' :: _ => (.lexeme .label, n + 1)
  | '(' :: rest =>
    let (closed, m) := argumentsLength false rest
    (if closed then .lexeme .invocation else .unrecognized, n + 1 + m)
  | _ => (.lexeme .identifier, n)

/-- An attribute after its opening `#[`. -/
def attributeBody (cs : List Char) : SpanKind × Nat :=
  let n := runLength (fun c => c != ']' && c != '\n') cs
  if (cs.drop n).head? = some ']' then (.skipped, n + 1) else (.unrecognized, n)

/-- An include directive after its keyword. -/
def inclusion (cs : List Char) : SpanKind × Nat :=
  let gap := runLength isGap cs
  match cs.drop gap with
  | quote :: rest =>
    if quote == '"' || quote == '\'' then
      let n := runLength (fun c => c != quote && c != '\n') rest
      if (rest.drop n).head? = some quote then (.lexeme .inclusion, gap + 1 + n + 1)
      else (.unrecognized, gap + 1 + n)
    else (.unrecognized, gap)
  | [] => (.unrecognized, gap)

/-- The rest of the text through its first `close`, if there is one. -/
def through? (close : Char) (cs : List Char) : Option Nat :=
  let n := runLength (· != close) cs
  if n < cs.length then some (n + 1) else none

/-- Whether a text starts with a keyword. -/
def startsWith (keyword : String) (cs : List Char) : Bool :=
  keyword.toList.isPrefixOf cs

/-- Whether a text starts with a keyword and a gap. -/
def startsWithWord (keyword : String) (cs : List Char) : Bool :=
  startsWith keyword cs && ((cs.drop keyword.length).head?.map isGap).getD false

/-- The kind of the interface definition that a text starts. -/
def interfaceKind? (cs : List Char) : Option SignatureKind :=
  if startsWith "function" cs then some .function
  else if startsWith "event" cs then some .event
  else if startsWith "error" cs then some .error
  else none

/-- A definition after its keyword and the gap that follows it; nothing is recognised if the
    text starts no kind of definition. -/
def definition (cs : List Char) : SpanKind × Nat :=
  if startsWithWord "macro" cs || startsWithWord "fn" cs || startsWithWord "test" cs then
    match through? '\x7b' cs with
    | some n => (.lexeme .macroDefinition, n)
    | none => (.unrecognized, cs.length)
  else if let some kind := interfaceKind? cs then
    (.lexeme (.interface kind), runLength (· != '\n') cs)
  else if startsWith "constant" cs then
    (.lexeme .constantDefinition, runLength (· != '\n') cs)
  else if startsWith "jumptable" cs || startsWith "table" cs then
    match through? '\x7b' cs with
    | some n =>
      match through? '\x7d' (cs.drop n) with
      | some m => (.lexeme .tableDefinition, n + m)
      | none => (.unrecognized, cs.length)
    | none => (.unrecognized, cs.length)
  else (.unrecognized, 0)

/-- After a hash. -/
def afterHash (cs : List Char) : SpanKind × Nat :=
  if startsWith "[" cs then
    let (kind, n) := attributeBody (cs.drop 1)
    (kind, n + 1)
  else if startsWith "include" cs then
    let (kind, n) := inclusion (cs.drop 7)
    (kind, n + 7)
  else if startsWithWord "define" cs then
    let gap := runLength isGap (cs.drop 6)
    let (kind, n) := definition (cs.drop (6 + gap))
    (kind, n + gap + 6)
  else (.unrecognized, 0)

/-- The span that a character starts. -/
def after (c : Char) (cs : List Char) : SpanKind × Nat :=
  if isLayout c then (.skipped, runLength isLayout cs)
  else if c == '\x7b' then (.lexeme .blockStart, 0)
  else if c == '\x7d' then (.lexeme .blockEnd, 0)
  else if c == '/' then afterSlash cs
  else if Text.isDigit c then afterDigit c cs
  else if c == '[' then afterBracket ']' .constant cs
  else if c == '<' then afterBracket '>' .argument cs
  else if isWordStart c then afterWordStart cs
  else if c == '#' then afterHash cs
  else (.unrecognized, 0)

/-! ## Cutting -/

/-- Cuts a text into spans. -/
def cut : List Char → List Span
  | [] => []
  | c :: cs =>
    let (kind, n) := after c cs
    ⟨kind, c :: cs.take n⟩ :: cut (cs.drop n)
termination_by cs => cs.length
decreasing_by simp only [List.length_drop, List.length_cons]; omega

/-- Puts a span before others, joining stretches that are not recognised and touch. -/
def consJoin (s : Span) : List Span → List Span
  | t :: rest =>
    if s.kind = .unrecognized ∧ t.kind = .unrecognized then
      ⟨.unrecognized, s.text ++ t.text⟩ :: rest
    else s :: t :: rest
  | [] => [s]

/-- The spans of a text, with touching stretches that are not recognised joined. -/
def cutJoined (cs : List Char) : List Span :=
  (cut cs).foldr consJoin []

/-- The number of line breaks in a text. -/
def breaks (cs : List Char) : Nat :=
  cs.count '\n'

/-- Pairs each span with the line of its first character, the first span being at `line`. -/
def numbered (line : Nat) : List Span → List (Located Span)
  | [] => []
  | s :: rest => ⟨line, s⟩ :: numbered (line + breaks s.text) rest

end Span

end HuffTrace
