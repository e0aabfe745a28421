/-
  HuffTrace.Word.Basic

  The 256-bit words of the virtual machine and their arithmetic.

  Addition, subtraction, multiplication and the bitwise operations are those of
  bit vectors, which wrap.  Division and remainder by zero give zero.  Shifts
  and byte indices are whole words, and an amount past the width behaves as if
  every bit had been moved out.  Modular addition and multiplication are exact
  although no intermediate value ever needs more than 256 bits.
-/

namespace HuffTrace

/-- A 256-bit machine word. -/
abbrev Word := BitVec 256

namespace Word

/-- The number of bytes in a word. -/
def byteCount : Nat := 32

/-- One for true and zero for false. -/
def ofBool (b : Bool) : Word :=
  if b then 1 else 0

/-- The value of a word that fits in 64 bits. -/
def toIndex? (w : Word) : Option Nat :=
  if w.toNat < UInt64.size then some w.toNat else none

/-! ## Bytes -/

/-- The 32 bytes of a word, most significant first. -/
def toBytes (w : Word) : List UInt8 :=
  (List.range byteCount).map fun i => UInt8.ofNat (w.toNat >>> (8 * (byteCount - 1 - i)))

/-- The word that bytes write, most significant first; only the last 32 count. -/
def ofBytes (bytes : List UInt8) : Word :=
  BitVec.ofNat 256 (bytes.foldl (fun value b => 256 * value + b.toNat) 0)

/-! ## Division -/

/-- The quotient, zero for a zero divisor. -/
def div (a b : Word) : Word :=
  if b = 0 then 0 else a / b

/-- The remainder, zero for a zero divisor. -/
def mod (a b : Word) : Word :=
  if b = 0 then 0 else a % b

/-- The two's complement quotient truncated toward zero, zero for a zero divisor. -/
def sdiv (a b : Word) : Word :=
  if b = 0 then 0 else BitVec.sdiv a b

/-- The two's complement remainder with the sign of the dividend, zero for a zero divisor. -/
def smod (a b : Word) : Word :=
  if b = 0 then 0 else BitVec.srem a b

/-! ## Modular arithmetic and powers -/

/-- The sum modulo `n`, zero for a zero modulus.  With both operands reduced, the sum
    reaches `n` exactly if the first is at least the gap between the second and `n`. -/
def addmod (a b n : Word) : Word :=
  if n = 0 then 0
  else
    let x := a % n
    let y := b % n
    let gap := n - y
    if gap ≤ x then x - gap else x + y

/-- The product modulo `n`, zero for a zero modulus, by doubling and adding from the
    most significant bit of the second factor down. -/
def mulmod (a b n : Word) : Word :=
  if n = 0 then 0
  else
    let x := a % n
    let y := b % n
    (List.range 256).foldr
      (fun bit acc =>
        let doubled := addmod acc acc n
        if y.getLsbD bit then addmod doubled x n else doubled)
      0

/-- Multiplies `result` by the power `base ^ exponent`, squaring the base and halving
    the exponent at each turn. -/
def mulPow (result base : Word) (exponent : Nat) : Word :=
  if exponent = 0 then result
  else
    mulPow (if exponent % 2 = 1 then result * base else result) (base * base) (exponent / 2)
termination_by exponent

/-- The power of a word by a word. -/
def exp (a e : Word) : Word :=
  mulPow 1 a e.toNat

/-! ## Comparison -/

/-- Whether `a` is below `b`, as a word. -/
def lt (a b : Word) : Word :=
  ofBool (a.ult b)

/-- Whether `a` is above `b`, as a word. -/
def gt (a b : Word) : Word :=
  ofBool (b.ult a)

/-- Whether `a` is below `b` in two's complement, as a word. -/
def slt (a b : Word) : Word :=
  ofBool (BitVec.slt a b)

/-- Whether `a` is above `b` in two's complement, as a word. -/
def sgt (a b : Word) : Word :=
  ofBool (BitVec.slt b a)

/-- Whether two words are equal, as a word. -/
def eq (a b : Word) : Word :=
  ofBool (a == b)

/-- Whether a word is zero, as a word. -/
def iszero (a : Word) : Word :=
  ofBool (a == 0)

/-! ## Shifts and bytes -/

/-- The value shifted left. -/
def shl (value shift : Word) : Word :=
  if shift.toNat < 256 then value <<< shift.toNat else 0

/-- The value shifted right, zeros coming in. -/
def shr (value shift : Word) : Word :=
  if shift.toNat < 256 then value >>> shift.toNat else 0

/-- The value shifted right, copies of the sign bit coming in. -/
def sar (value shift : Word) : Word :=
  if shift.toNat < 256 then value.sshiftRight shift.toNat
  else if value.msb then BitVec.allOnes 256
  else 0

/-- Extends the sign of the byte at `index`, counted from the least significant one,
    over the bytes above it. -/
def signextend (value index : Word) : Word :=
  if index.toNat < byteCount - 1 then
    let sign := 8 * index.toNat + 7
    let mask : Word := (1 <<< (sign + 1)) - 1
    if value.getLsbD sign then value ||| ~~~mask else value &&& mask
  else value

/-- The byte at `index`, counted from the most significant one. -/
def byte (value index : Word) : Word :=
  if index.toNat < byteCount then
    (value >>> (8 * (byteCount - 1 - index.toNat))) &&& 0xff
  else 0

end Word

end HuffTrace
