/-
  HuffTrace.Word.Literal

  Words as text.  A literal is hexadecimal after `0x` or `0X` and decimal
  otherwise.  Digits are read from the left, and the first position that goes
  wrong decides the error: a character that is no digit of the base, or a value
  that leaves the word.
-/

import HuffTrace.Text.Digit
import HuffTrace.Text.Quoted
import HuffTrace.Text.Search
import HuffTrace.Word.Basic

namespace HuffTrace

/-- Why a text or a byte string is not a word. -/
inductive LiteralError where
  /-- There is no digit. -/
  | empty
  /-- A character is no digit of the base; `index` counts the bytes before it. -/
  | invalidDigit (character : Char) (index : Nat)
  /-- The value does not fit in a word. -/
  | overflow (text : String)
  /-- A byte string has not the length of a word. -/
  | invalidLength (length : Nat)
  deriving DecidableEq, Repr

/-- The error in words. -/
def LiteralError.message : LiteralError → String
  | .empty => "Cannot parse a word from an empty literal"
  | .invalidDigit character index =>
    "Invalid digit " ++ Text.quotedChar character ++ " at index " ++ Text.decimal index
  | .overflow text => "Literal " ++ Text.quoted text ++ " does not fit in 256 bits"
  | .invalidLength length => "Expected 32 bytes but got " ++ Text.decimal length

namespace Word

/-- One more than the largest word. -/
def bound : Nat := 1 <<< 256

/-- Reads the digits of the literal `text` onto the value read so far; `index` counts the
    bytes of the literal before them. -/
def readDigits (base : Nat) (text : String) (value index : Nat) :
    List Char → Except LiteralError Word
  | [] => .ok (BitVec.ofNat 256 value)
  | c :: cs =>
    match Text.digit? base c with
    | none => .error (.invalidDigit c index)
    | some d =>
      let next := base * value + d
      if next < bound then readDigits base text next (index + c.utf8Size) cs
      else .error (.overflow text)

/-- The digits of a hexadecimal literal, if the text has the mark of one. -/
def hexDigits? (cs : List Char) : Option (List Char) :=
  Text.dropStart? ['0', 'x'] cs <|> Text.dropStart? ['0', 'X'] cs

/-- The word that a text writes in hexadecimal, with or without the mark. -/
def ofHex (text : String) : Except LiteralError Word :=
  match hexDigits? text.toList with
  | some [] => .error .empty
  | some digits => readDigits 16 text 0 2 digits
  | none => if text.toList.isEmpty then .error .empty else readDigits 16 text 0 0 text.toList

/-- The word that a text writes in decimal. -/
def ofDecimal (text : String) : Except LiteralError Word :=
  if text.toList.isEmpty then .error .empty else readDigits 10 text 0 0 text.toList

/-- The word that a literal writes. -/
def parse (text : String) : Except LiteralError Word :=
  if (hexDigits? text.toList).isSome then ofHex text else ofDecimal text

/-- The word that exactly 32 bytes write, most significant first. -/
def ofBytes? (bytes : List UInt8) : Except LiteralError Word :=
  if bytes.length = byteCount then .ok (ofBytes bytes) else .error (.invalidLength bytes.length)

/-- The word in hexadecimal, with the mark and without leading zeros. -/
def toHex (w : Word) : String :=
  .ofList ('0' :: 'x' :: Nat.toDigits 16 w.toNat)

/-- The word in decimal. -/
def toDecimal (w : Word) : String :=
  Text.decimal w.toNat

/-- The two's complement value of the word in decimal. -/
def toSignedDecimal (w : Word) : String :=
  let magnitude := Text.decimal w.toInt.natAbs
  if w.toInt < 0 then "-" ++ magnitude else magnitude

end Word

end HuffTrace
