/-
  HuffTrace.Value

  What a stack cell holds: a word that is known now, together with the text
  that shows it, or only the text of an expression over values that are not.
-/

import HuffTrace.Word.Literal

namespace HuffTrace

/-- A symbolic value. -/
inductive Value where
  /-- A known word and the text that shows it. -/
  | known (word : Word) (text : String)
  /-- The text of an expression whose word is not known. -/
  | symbolic (text : String)
  deriving DecidableEq, Repr

namespace Value

/-- A computed word, shown in hexadecimal. -/
def folded (word : Word) : Value :=
  .known word word.toHex

/-- A literal shown as it is written; a text that is no literal stays symbolic. -/
def literal (text : String) : Value :=
  match Word.parse text with
  | .ok word => .known word text
  | .error _ => .symbolic text

/-- The word of a known value. -/
def word? : Value → Option Word
  | known word _ => some word
  | symbolic _ => none

/-- The text that shows a value. -/
def text : Value → String
  | known _ text => text
  | symbolic text => text

/-- Whether the word of a value is known. -/
def isKnown (v : Value) : Bool :=
  v.word?.isSome

end Value

end HuffTrace
