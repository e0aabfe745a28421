/-
  HuffTrace.Text.Quoted

  Texts and characters as they are quoted inside messages.  The delimiter, the
  backslash and the common controls have short escapes; every other character
  that is not printable, or that attaches to its neighbour, is written as
  `\u` with its code point in braces.
-/

import HuffTrace.Text.Extending
import HuffTrace.Text.Printable

namespace HuffTrace.Text

/-- A character by its code point, in lower-case hexadecimal without padding. -/
def codePoint (c : Char) : List Char :=
  "\\u\x7b".toList ++ Nat.toDigits 16 c.toNat ++ ['\x7d']

/-- A character as it stands between delimiters of the given kind. -/
def escape (delimiter c : Char) : List Char :=
  if c = delimiter ∨ c = '\\' then ['\\', c]
  else if c = '\n' then ['\\', 'n']
  else if c = '\r' then ['\\', 'r']
  else if c = '\t' then ['\\', 't']
  else if c = '\x00' then ['\\', '0']
  else if isExtending c || !isPrintable c then codePoint c
  else [c]

/-- A string in double quotes. -/
def quoted (text : String) : String :=
  .ofList ('"' :: text.toList.flatMap (escape '"') ++ ['"'])

/-- A character in single quotes. -/
def quotedChar (c : Char) : String :=
  .ofList ('\'' :: escape '\'' c ++ ['\''])

end HuffTrace.Text
