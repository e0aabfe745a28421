/-
  HuffTrace.Source.Header

  The head of a `#define` directive: its kind, its name, and for macros the
  declared numbers of stack inputs and outputs.

  The name is found again by its first occurrence in the whole text, and the
  first balanced group of parentheses after it is taken for the parameter list,
  so that parameter names cannot be mistaken for the arity keywords.
-/

import HuffTrace.Source.Span
import HuffTrace.Text.Blank
import HuffTrace.Text.Search

namespace HuffTrace

/-! ## Parentheses -/

namespace Parens

/-- Splits a text after the parenthesis that closes `depth + 1` open ones, leaving that
    parenthesis out. -/
def close? (depth : Nat) : List Char → Option (List Char × List Char)
  | [] => none
  | c :: cs =>
    if c = ')' ∧ depth = 0 then some ([], cs)
    else
      let inner := if c = '(' then depth + 1 else if c = ')' then depth - 1 else depth
      (close? inner cs).map fun (inside, rest) => (c :: inside, rest)

/-- The inside of the first balanced group of parentheses, and what follows the group. -/
def group? (cs : List Char) : Option (List Char × List Char) :=
  match cs.dropWhile (· != '(') with
  | [] => none
  | _ :: rest => close? 0 rest

/-- Splits a text at the separators that stand outside parentheses; `depth` counts those
    already open. -/
def splitOutside (isSeparator : Char → Bool) (depth : Nat) : List Char → List (List Char)
  | [] => [[]]
  | c :: cs =>
    if depth = 0 ∧ c ≠ '(' ∧ c ≠ ')' ∧ isSeparator c then [] :: splitOutside isSeparator 0 cs
    else
      let inner := if c = '(' then depth + 1 else if c = ')' then depth - 1 else depth
      match splitOutside isSeparator inner cs with
      | part :: parts => (c :: part) :: parts
      | [] => [[c]]

end Parens

/-! ## Headers -/

/-- The head of a macro definition. -/
structure Header where
  /-- The keyword of the definition: `macro`, `fn` or `test`. -/
  kind : String
  name : String
  /-- The declared number of inputs, if there is one. -/
  takes : Option Nat
  /-- The declared number of outputs, if there is one. -/
  returns : Option Nat
  deriving DecidableEq, Repr

namespace Header

/-- What follows `#define` and the blanks after it. -/
def afterDefine? (cs : List Char) : Option (List Char) :=
  (Text.dropStart? "#define".toList (Text.trimStart cs)).map Text.trimStart

/-- The keyword of a definition and what follows it, which starts with a blank. -/
def keyword? (cs : List Char) : Option (List Char × List Char) := do
  let rest ← afterDefine? cs
  let isDark := fun c => !Text.isBlank c
  if rest.any Text.isBlank then some (rest.takeWhile isDark, rest.dropWhile isDark) else none

/-- The kind of a definition. -/
def kind? (cs : List Char) : Option (List Char) :=
  (keyword? cs).map (·.1)

/-- The name of a definition. -/
def name? (cs : List Char) : Option (List Char) := do
  let (_, rest) ← keyword? cs
  let name := (Text.trimStart rest).takeWhile Span.isWordChar
  if name.isEmpty then none else some name

/-- The number in parentheses after the first occurrence of a keyword. -/
def arity? (keyword : String) (cs : List Char) : Option Nat := do
  let rest ← Text.after? keyword.toList cs
  let inside ← Text.dropStart? ['('] (Text.trimStart rest)
  if inside.contains ')' then
    Text.natural? UInt64.size (Text.trim (inside.takeWhile (· != ')')))
  else none

/-- The head of a macro definition with a text. -/
def parse? (cs : List Char) : Option Header := do
  let kind ← kind? cs
  let name ← name? cs
  let afterName ← Text.after? name cs
  let rest := ((Parens.group? afterName).map (·.2)).getD afterName
  pure {
    kind := .ofList kind
    name := .ofList name
    takes := arity? "takes" rest
    returns := arity? "returns" rest }

end Header

end HuffTrace
