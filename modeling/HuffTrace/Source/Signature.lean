/-
  HuffTrace.Source.Signature

  Signatures in canonical form, which is a name and the list of parameter types
  without parameter names, modifiers and blanks, and the selectors computed
  from them.
-/

import HuffTrace.Keccak
import HuffTrace.Source.Header
import HuffTrace.Text.Hex
import HuffTrace.Value

namespace HuffTrace.Signature

/-- The type of a parameter: its first part outside parentheses, without blanks. -/
def parameterType (parameter : List Char) : List Char :=
  let parts := Parens.splitOutside Text.isBlank 0 parameter
  ((parts.find? (!·.isEmpty)).getD parameter).filter (!Text.isBlank ·)

/-- The types of a parameter list. -/
def parameterTypes (parameters : List Char) : List (List Char) :=
  let parts := (Parens.splitOutside (· == ',') 0 parameters).map Text.trim
  (parts.filter (!·.isEmpty)).map parameterType

/-- The canonical form of a signature, which may stand in quotes. -/
def canonical? (cs : List Char) : Option (List Char) := do
  let text := Text.trimQuotes (Text.trim cs)
  let (parameters, _) ← Parens.group? text
  let name := Text.trim (text.takeWhile (· != '('))
  pure (name ++ '(' :: [','].intercalate (parameterTypes parameters) ++ [')'])

/-- The canonical signature that a definition declares. -/
def ofDefinition? (cs : List Char) : Option (List Char) := do
  let name ← Header.name? cs
  let fromName ← Text.startingAt? name cs
  canonical? fromName

/-- The first four bytes of the hash of a signature, as a value. -/
def selector (signature : String) : Value :=
  let bytes := (Keccak.digest signature.toUTF8.toList).toList.take 4
  .known (Word.ofBytes bytes) (.ofList ('0' :: 'x' :: Text.hexBytes bytes))

end HuffTrace.Signature
