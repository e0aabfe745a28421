/-
  HuffTrace.Text.Blank

  The Unicode `White_Space` property, and trimming of texts held as lists of
  characters.  Trimming from the end is trimming the reversed list from the
  front, so a law about `List.dropWhile` serves both directions.
-/

namespace HuffTrace.Text

/-- Whether a character has the Unicode `White_Space` property. -/
def isBlank (c : Char) : Bool :=
  let n := c.toNat
  (0x09 ≤ n && n ≤ 0x0D) || n == 0x20 || n == 0x85 || n == 0xA0 || n == 0x1680
    || (0x2000 ≤ n && n ≤ 0x200A) || n == 0x2028 || n == 0x2029 || n == 0x202F
    || n == 0x205F || n == 0x3000

/-- Drops the longest end of a text that satisfies `p` throughout. -/
def dropEndWhile (p : Char → Bool) (cs : List Char) : List Char :=
  (cs.reverse.dropWhile p).reverse

/-- Drops the blanks at the start of a text. -/
def trimStart (cs : List Char) : List Char :=
  cs.dropWhile isBlank

/-- Drops the blanks at the end of a text. -/
def trimEnd (cs : List Char) : List Char :=
  dropEndWhile isBlank cs

/-- Drops the blanks on both sides of a text. -/
def trim (cs : List Char) : List Char :=
  trimEnd (trimStart cs)

/-- Whether a character is a single or a double quote. -/
def isQuote (c : Char) : Bool :=
  c == '"' || c == '\''

/-- Drops the quotes on both sides of a text. -/
def trimQuotes (cs : List Char) : List Char :=
  dropEndWhile isQuote (cs.dropWhile isQuote)

end HuffTrace.Text
