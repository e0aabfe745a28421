/-
  HuffTrace.Text.Digit

  ASCII digits and the natural numbers written with them.  Numbers are read
  against an exclusive bound and may carry a plus sign; anything else than
  digits after the sign, or no digit at all, is refused.
-/

namespace HuffTrace.Text

/-- The value of an ASCII digit in a base of at most sixteen. -/
def digit? (base : Nat) (c : Char) : Option Nat :=
  let value :=
    if '0' ≤ c ∧ c ≤ '9' then c.toNat - 48
    else if 'a' ≤ c ∧ c ≤ 'f' then c.toNat - 87
    else if 'A' ≤ c ∧ c ≤ 'F' then c.toNat - 55
    else base
  if value < base then some value else none

/-- A number in decimal. -/
def decimal (n : Nat) : String :=
  .ofList (Nat.toDigits 10 n)

/-- Whether a character is an ASCII decimal digit. -/
def isDigit (c : Char) : Bool :=
  (digit? 10 c).isSome

/-- Whether a character is an ASCII hexadecimal digit of either case. -/
def isHexDigit (c : Char) : Bool :=
  (digit? 16 c).isSome

/-- Reads decimal digits onto the value read so far. -/
def readDecimal? (value : Nat) : List Char → Option Nat
  | [] => some value
  | c :: cs => (digit? 10 c).bind fun d => readDecimal? (10 * value + d) cs

/-- The number below `bound` that a text writes in decimal, a leading plus sign allowed. -/
def natural? (bound : Nat) (cs : List Char) : Option Nat :=
  let digits := if cs.head? = some '+' then cs.tail else cs
  if digits.isEmpty then none else (readDecimal? 0 digits).filter (· < bound)

end HuffTrace.Text
