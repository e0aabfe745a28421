/-
  HuffTrace.Source.Program

  A program: the tokens of a source together with tables of the macro heads,
  macros and signatures that they define.  The tables are computed once; that
  they are those of the tokens is part of the type.
-/

import HuffTrace.Source.Signature
import HuffTrace.Source.Token

namespace HuffTrace

/-- Where a macro stands in a token list. -/
structure Extent where
  /-- The position of the definition. -/
  definition : Nat
  /-- The position just past the body: that of its closing brace, of the next definition if
      the body is never closed, or the length of the list. -/
  stop : Nat
  deriving DecidableEq, Repr

/-- The head of the macro that a token defines. -/
def Token.header? (t : Token) : Option Header :=
  if t.kind = .macroDefinition then Header.parse? t.text.toList else none

namespace Program

/-- The end of a body with `depth` open braces, of which the last `left` tokens remain. -/
def bodyEnd (tokens : Array Token) (depth : Nat) : Nat → Nat
  | 0 => tokens.size
  | left + 1 =>
    let position := tokens.size - (left + 1)
    match (tokens[position]?).map Token.kind with
    | some .blockStart => bodyEnd tokens (depth + 1) left
    | some .blockEnd => if depth ≤ 1 then position else bodyEnd tokens (depth - 1) left
    | some .macroDefinition => position
    | _ => bodyEnd tokens depth left

/-- The end of the body of the definition at a position. -/
def blockEnd (tokens : Array Token) (definition : Nat) : Nat :=
  bodyEnd tokens 1 (tokens.size - (definition + 1))

/-- The macro that the token at a position defines. -/
def macroAt? (tokens : Array Token) (position : Nat) : Option (String × Extent) := do
  let token ← tokens[position]?
  let header ← token.header?
  some (header.name, ⟨position, blockEnd tokens position⟩)

/-- The macros that tokens define, in order. -/
def macroTable (tokens : Array Token) : List (String × Extent) :=
  (List.range tokens.size).filterMap (macroAt? tokens)

/-- The signature that a token defines, by kind and name. -/
def signatureOf? (token : Token) : Option ((SignatureKind × String) × String) :=
  match token.kind with
  | .interface kind => do
    let name ← Header.name? token.text.toList
    let signature ← Signature.ofDefinition? token.text.toList
    some ((kind, .ofList name), .ofList signature)
  | _ => none

/-- The signatures that tokens define, in order. -/
def signatureTable (tokens : Array Token) : List ((SignatureKind × String) × String) :=
  tokens.toList.filterMap signatureOf?

end Program

/-- Tokens with the tables of what they define. -/
structure Program where
  tokens : Array Token
  headers : Array (Option Header) := tokens.map Token.header?
  macros : List (String × Extent) := Program.macroTable tokens
  signatures : List ((SignatureKind × String) × String) := Program.signatureTable tokens
  headers_eq : headers = tokens.map Token.header? := by rfl
  macros_eq : macros = Program.macroTable tokens := by rfl
  signatures_eq : signatures = Program.signatureTable tokens := by rfl

namespace Program

/-- The program of a token list. -/
def ofTokens (tokens : Array Token) : Program :=
  { tokens }

/-- The program without tokens. -/
def empty : Program :=
  ofTokens #[]

/-- The program of a source, and what in the source is no token. -/
def ofSource (source : String) : Program × Diagnostics Problem :=
  let (tokens, problems) := Token.scan source
  (ofTokens tokens, problems)

/-- The number of tokens. -/
def size (p : Program) : Nat :=
  p.tokens.size

/-- The token at a position. -/
def token? (p : Program) (position : Nat) : Option Token :=
  p.tokens[position]?

/-- The head of the macro that the token at a position defines. -/
def header? (p : Program) (position : Nat) : Option Header :=
  (p.headers[position]?).join

/-- The macro with a name, of several the first. -/
def findMacro? (p : Program) (name : String) : Option Extent :=
  p.macros.lookup name

/-- The signature with a kind and a name, of several the first. -/
def findSignature? (p : Program) (kind : SignatureKind) (name : String) : Option String :=
  p.signatures.lookup (kind, name)

/-- Whether the token at a position is the last one on the line where it ends. -/
def isLastOnLine (p : Program) (position : Nat) : Bool :=
  match p.token? position, p.token? (position + 1) with
  | none, _ => false
  | some _, none => true
  | some token, some next => token.endLine < next.line

end Program

end HuffTrace
