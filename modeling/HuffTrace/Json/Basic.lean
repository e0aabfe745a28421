/-
  HuffTrace.Json.Basic

  JSON values as they are written, and two layouts for writing them: compact,
  and indented by two spaces a level.

  A value keeps the form in which it is written: a number is its characters, a
  string the escaped text between its quotes, and an object the list of its
  members in order.  Reading an escaped text may fail, since escapes can name
  half of a surrogate pair, which no text has.
-/

import HuffTrace.Text.Digit

namespace HuffTrace

/-- A JSON value. -/
inductive Json where
  | null
  | bool (b : Bool)
  /-- A number by its characters. -/
  | number (digits : List Char)
  /-- A string by its escaped text. -/
  | string (body : List Char)
  | array (items : List Json)
  /-- An object by its members; names are escaped texts. -/
  | object (members : List (List Char × Json))

namespace Json

/-! ## Escaped texts -/

/-- A character inside a string. -/
def escapeChar (c : Char) : List Char :=
  if c = '"' then ['\\', '"']
  else if c = '\\' then ['\\', '\\']
  else if c = '\x08' then ['\\', 'b']
  else if c = '\x0c' then ['\\', 'f']
  else if c = '\n' then ['\\', 'n']
  else if c = '\r' then ['\\', 'r']
  else if c = '\t' then ['\\', 't']
  else if c.toNat < 0x20 then
    ['\\', 'u', '0', '0', Nat.digitChar (c.toNat / 16), Nat.digitChar (c.toNat % 16)]
  else [c]

/-- A text as it stands inside a string. -/
def escape (text : String) : List Char :=
  text.toList.flatMap escapeChar

/-- The character that a letter after a backslash stands for. -/
def unescapeLetter? : Char → Option Char
  | '"' => some '"'
  | '\\' => some '\\'
  | '/' => some '/'
  | 'b' => some '\x08'
  | 'f' => some '\x0c'
  | 'n' => some '\n'
  | 'r' => some '\r'
  | 't' => some '\t'
  | _ => none

/-- The number that four hexadecimal digits write. -/
def codeUnit? (a b c d : Char) : Option Nat := do
  let a ← Text.digit? 16 a
  let b ← Text.digit? 16 b
  let c ← Text.digit? 16 c
  let d ← Text.digit? 16 d
  pure (((a * 16 + b) * 16 + c) * 16 + d)

/-- Whether a code unit is the first half of a surrogate pair. -/
def isHighSurrogate (unit : Nat) : Bool :=
  0xD800 ≤ unit && unit < 0xDC00

/-- Whether a code unit is the second half of a surrogate pair. -/
def isLowSurrogate (unit : Nat) : Bool :=
  0xDC00 ≤ unit && unit < 0xE000

/-- The character of a surrogate pair. -/
def ofSurrogates (high low : Nat) : Char :=
  Char.ofNat (0x10000 + (high - 0xD800) * 0x400 + (low - 0xDC00))

/-- The text that an escaped text stands for. -/
def unescape? : List Char → Option (List Char)
  | [] => some []
  | '\\' :: 'u' :: a :: b :: c :: d :: rest => do
    let unit ← codeUnit? a b c d
    if isHighSurrogate unit then
      match rest with
      | '\\' :: 'u' :: a' :: b' :: c' :: d' :: more =>
        let next ← codeUnit? a' b' c' d'
        if isLowSurrogate next then (unescape? more).map (ofSurrogates unit next :: ·) else none
      | _ => none
    else if isLowSurrogate unit then none
    else (unescape? rest).map (Char.ofNat unit :: ·)
  | '\\' :: letter :: rest => do
    let c ← unescapeLetter? letter
    (unescape? rest).map (c :: ·)
  | c :: rest => (unescape? rest).map (c :: ·)

/-! ## Building values -/

/-- A text as a JSON value. -/
def ofString (text : String) : Json :=
  .string (escape text)

/-- A number as a JSON value. -/
def ofNat (n : Nat) : Json :=
  .number (Nat.toDigits 10 n)

/-- An object with the given fields. -/
def ofFields (fields : List (String × Json)) : Json :=
  .object (fields.map fun (name, value) => (escape name, value))

/-! ## Taking values apart -/

/-- The text of a string. -/
def toString? : Json → Option String
  | .string body => (unescape? body).map String.ofList
  | _ => none

/-- The truth value of a boolean. -/
def toBool? : Json → Option Bool
  | .bool b => some b
  | _ => none

/-- The value of a number below a bound that is written with digits only. -/
def toNat? (bound : Nat) : Json → Option Nat
  | .number digits =>
    if digits.all Text.isDigit then Text.natural? bound digits else none
  | _ => none

/-- The items of an array. -/
def toList? : Json → Option (List Json)
  | .array items => some items
  | _ => none

/-- The values of the fields with the given names, in their order.  An object must have
    each of them once and may have others; an array stands for the values themselves. -/
def fields? (names : List String) : Json → Option (List Json)
  | .array items => if items.length = names.length then some items else none
  | .object members => do
    let read ← members.mapM fun (name, value) => (unescape? name).map fun text =>
      (String.ofList text, value)
    names.mapM fun name =>
      match read.filter (·.1 == name) with
      | [(_, value)] => some value
      | _ => none
  | _ => none

/-! ## Writing -/

/-- How the parts of an array or object are laid out. -/
structure Layout where
  /-- Whether each part stands on a line of its own, indented by its level. -/
  indented : Bool
  deriving DecidableEq, Repr

/-- Nothing but what is needed. -/
def Layout.compact : Layout := ⟨false⟩

/-- One part a line. -/
def Layout.pretty : Layout := ⟨true⟩

/-- The start of a line at a level of nesting. -/
def Layout.newline (layout : Layout) (level : Nat) : List Char :=
  if layout.indented then '\n' :: List.replicate (2 * level) ' ' else []

/-- What stands between a name and its value. -/
def Layout.colon (layout : Layout) : List Char :=
  if layout.indented then [':', ' '] else [':']

/-- Parts at a level of nesting between brackets. -/
def Layout.bracket (layout : Layout) (level : Nat) (opening closing : Char)
    (parts : List (List Char)) : List Char :=
  if parts.isEmpty then [opening, closing]
  else
    opening :: [','].intercalate (parts.map (layout.newline (level + 1) ++ ·))
      ++ layout.newline level ++ [closing]

mutual

/-- A value at a level of nesting. -/
def write (layout : Layout) (level : Nat) : Json → List Char
  | null => "null".toList
  | bool true => "true".toList
  | bool false => "false".toList
  | number digits => digits
  | string body => '"' :: body ++ ['"']
  | array items => layout.bracket level '[' ']' (writeItems layout (level + 1) items)
  | object members =>
    layout.bracket level '\x7b' '\x7d' (writeMembers layout (level + 1) members)

/-- The items of an array. -/
def writeItems (layout : Layout) (level : Nat) : List Json → List (List Char)
  | [] => []
  | item :: rest => write layout level item :: writeItems layout level rest

/-- The members of an object. -/
def writeMembers (layout : Layout) (level : Nat) : List (List Char × Json) → List (List Char)
  | [] => []
  | (name, value) :: rest =>
    ('"' :: name ++ '"' :: layout.colon ++ write layout level value)
      :: writeMembers layout level rest

end

/-- A value as text. -/
def render (layout : Layout) (value : Json) : String :=
  .ofList (write layout 0 value)

end Json

end HuffTrace
