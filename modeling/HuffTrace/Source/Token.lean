/-
  HuffTrace.Source.Token

  Tokens: the lexemes of a source with what they mean to the interpreter and
  the lines on which they begin and end.
-/

import HuffTrace.Builtin
import HuffTrace.Opcode.Mnemonic
import HuffTrace.Problem
import HuffTrace.Source.Span
import HuffTrace.Text.Blank

namespace HuffTrace

/-- What a token means. -/
inductive TokenKind where
  | macroDefinition
  | interface (kind : SignatureKind)
  | constantDefinition
  | tableDefinition
  | inclusion
  | literal
  | constant
  | argument
  | call
  | builtin (builtin : Builtin)
  | label
  | opcode (opcode : Opcode)
  /-- A bare name that is no opcode. -/
  | reference
  | blockStart
  | blockEnd
  deriving DecidableEq, Repr

/-- A token of a source. -/
structure Token where
  kind : TokenKind
  text : String
  /-- The line of the first character. -/
  line : Nat
  /-- The line of the last character. -/
  endLine : Nat
  deriving DecidableEq, Repr

namespace Token

/-- The name before the arguments of an invocation. -/
def calledName (cs : List Char) : List Char :=
  Text.trim (cs.takeWhile (· != '('))

/-- The meaning of a lexeme with a text. -/
def classify (text : List Char) : Lexeme → TokenKind
  | .macroDefinition => .macroDefinition
  | .interface kind => .interface kind
  | .constantDefinition => .constantDefinition
  | .tableDefinition => .tableDefinition
  | .inclusion => .inclusion
  | .number => .literal
  | .constant => .constant
  | .argument => .argument
  | .invocation =>
    match Builtin.ofName? (.ofList (calledName text)) with
    | some builtin => .builtin builtin
    | none => .call
  | .label => .label
  | .identifier =>
    match Opcode.ofMnemonic? (.ofList text) with
    | some opcode => .opcode opcode
    | none => .reference
  | .blockStart => .blockStart
  | .blockEnd => .blockEnd

/-- The token of a span, if it is a lexeme. -/
def ofSpan? (s : Located Span) : Option Token :=
  match s.item.kind with
  | .lexeme lexeme =>
    some {
      kind := classify s.item.text lexeme
      text := .ofList s.item.text
      line := s.line
      endLine := s.line + Span.breaks s.item.text.dropLast }
  | _ => none

/-- The problem with a span, if it is not recognised. -/
def problem? (s : Located Span) : Option (Located Problem) :=
  if s.item.kind = .unrecognized then some ⟨s.line, .unrecognized (.ofList s.item.text)⟩
  else none

/-- The tokens of a source, and what in it is no token. -/
def scan (source : String) : Array Token × Diagnostics Problem :=
  let spans := Span.numbered 1 (Span.cutJoined source.toList)
  ((spans.filterMap ofSpan?).toArray, Diagnostics.empty.addAll (spans.filterMap problem?))

/-! ## Parts of a token -/

/-- The name that a token mentions or defines. -/
def name (t : Token) : String :=
  match t.kind with
  | .call | .builtin _ => .ofList (calledName t.text.toList)
  | .label => .ofList (Text.dropEndWhile (· == ':') t.text.toList)
  | .constant =>
    .ofList (Text.dropEndWhile (· == ']') (t.text.toList.dropWhile (· == '[')))
  | _ => t.text

/-- What stands between the first opening and the last closing parenthesis, without the
    blanks around it; nothing if they do not enclose a text. -/
def argument (t : Token) : List Char :=
  let inside := Text.dropEndWhile (· != ')') (t.text.toList.dropWhile (· != '(')).tail
  Text.trim inside.dropLast

/-- The path of an include directive. -/
def includePath? (t : Token) : Option String :=
  match t.text.toList.dropWhile (!Text.isQuote ·) with
  | quote :: rest =>
    if rest.contains quote then some (.ofList (rest.takeWhile (· != quote))) else none
  | [] => none

end Token

end HuffTrace
