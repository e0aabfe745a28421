/-
  HuffTrace.Text.Hex

  Byte strings as plain hexadecimal text, two lower-case digits a byte.
-/

import HuffTrace.Text.Digit

namespace HuffTrace.Text

/-- The two hexadecimal digits of a byte. -/
def hexByte (b : UInt8) : List Char :=
  [Nat.digitChar (b.toNat / 16), Nat.digitChar (b.toNat % 16)]

/-- The hexadecimal digits of a byte string. -/
def hexBytes (bytes : List UInt8) : List Char :=
  bytes.flatMap hexByte

/-- The byte string that pairs of hexadecimal digits of either case write. -/
def bytesOfHex? : List Char → Option (List UInt8)
  | [] => some []
  | [_] => none
  | hi :: lo :: rest => do
    let h ← digit? 16 hi
    let l ← digit? 16 lo
    let bytes ← bytesOfHex? rest
    pure (UInt8.ofNat (16 * h + l) :: bytes)

end HuffTrace.Text
