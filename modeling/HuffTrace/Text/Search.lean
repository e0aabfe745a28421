/-
  HuffTrace.Text.Search

  The first occurrence of a text inside another one.  A search answers with the
  rest of the text rather than with a position, so that what follows the
  occurrence can be read on directly.
-/

namespace HuffTrace.Text

/-- The part of a text that starts at the first occurrence of `needle`. -/
def startingAt? (needle : List Char) : List Char → Option (List Char)
  | [] => if needle.isEmpty then some [] else none
  | c :: cs =>
    if needle.isPrefixOf (c :: cs) then some (c :: cs) else startingAt? needle cs

/-- The part of a text that follows the first occurrence of `needle`. -/
def after? (needle cs : List Char) : Option (List Char) :=
  (startingAt? needle cs).map (·.drop needle.length)

/-- What remains of a text that starts with `start`. -/
def dropStart? (start cs : List Char) : Option (List Char) :=
  if start.isPrefixOf cs then some (cs.drop start.length) else none

end HuffTrace.Text
