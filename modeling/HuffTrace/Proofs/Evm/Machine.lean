/-
  HuffTrace.Proofs.Evm.Machine

  The concrete virtual machine on straight-line code: a stack of 256-bit words
  and a memory of bytes that are zero until they are written.

  Arithmetic is written over unbounded integers and then taken modulo `2 ^ 256`,
  on `toNat` for unsigned and on `toInt` for signed operations.  What the code
  alone does not decide is left open: the words behind names, the answers of
  the environment and the bytes that come from outside of memory may be
  anything.

  There is no rule for jumps, for opcodes that end the execution, for calls and
  for `mstore8`.
-/

import HuffTrace.Opcode.Semantics
import HuffTrace.Proofs.Word.Literal
import HuffTrace.Source.Token

namespace HuffTrace.Evm

/-- A state of the concrete machine. -/
structure State where
  /-- The words on the stack, top first. -/
  stack : List Word := []
  memory : Nat → UInt8 := fun _ => 0

/-! ## Arithmetic -/

/-- One for a condition that holds and zero otherwise. -/
def flag (condition : Prop) [Decidable condition] : Word :=
  if condition then 1 else 0

/-- The function of an opcode with one operand. -/
def unary? : Opcode → Option (Word → Word)
  | .iszero => some fun a => flag (a.toNat = 0)
  | .not => some fun a => BitVec.ofNat 256 (2 ^ 256 - 1 - a.toNat)
  | _ => none

/-- The function of an opcode with two operands, the top one first. -/
def binary? : Opcode → Option (Word → Word → Word)
  | .add => some fun a b => BitVec.ofNat 256 (a.toNat + b.toNat)
  | .mul => some fun a b => BitVec.ofNat 256 (a.toNat * b.toNat)
  | .sub => some fun a b => BitVec.ofInt 256 ((a.toNat : Int) - b.toNat)
  | .div => some fun a b => BitVec.ofNat 256 (a.toNat / b.toNat)
  | .sdiv => some fun a b => BitVec.ofInt 256 (a.toInt.tdiv b.toInt)
  | .mod => some fun a b => if b = 0 then 0 else BitVec.ofNat 256 (a.toNat % b.toNat)
  | .smod => some fun a b => if b = 0 then 0 else BitVec.ofInt 256 (a.toInt.tmod b.toInt)
  | .exp => some fun a e => BitVec.ofNat 256 (a.toNat ^ e.toNat)
  | .signextend => some fun k x =>
    if k.toNat < 31 then BitVec.ofInt 256 ((x.toNat : Int).bmod (2 ^ (8 * (k.toNat + 1)))) else x
  | .lt => some fun a b => flag (a.toNat < b.toNat)
  | .gt => some fun a b => flag (b.toNat < a.toNat)
  | .slt => some fun a b => flag (a.toInt < b.toInt)
  | .sgt => some fun a b => flag (b.toInt < a.toInt)
  | .eq => some fun a b => flag (a.toNat = b.toNat)
  | .and => some fun a b => BitVec.ofNat 256 (a.toNat &&& b.toNat)
  | .or => some fun a b => BitVec.ofNat 256 (a.toNat ||| b.toNat)
  | .xor => some fun a b => BitVec.ofNat 256 (a.toNat ^^^ b.toNat)
  | .byte => some fun i x =>
    if i.toNat < 32 then BitVec.ofNat 256 (x.toNat / 256 ^ (31 - i.toNat) % 256) else 0
  | .shl => some fun s x => BitVec.ofNat 256 (x.toNat * 2 ^ s.toNat)
  | .shr => some fun s x => BitVec.ofNat 256 (x.toNat / 2 ^ s.toNat)
  | .sar => some fun s x => BitVec.ofInt 256 (x.toInt / 2 ^ s.toNat)
  | _ => none

/-- The function of an opcode with three operands, the top one first. -/
def ternary? : Opcode → Option (Word → Word → Word → Word)
  | .addmod => some fun a b n =>
    if n = 0 then 0 else BitVec.ofNat 256 ((a.toNat + b.toNat) % n.toNat)
  | .mulmod => some fun a b n =>
    if n = 0 then 0 else BitVec.ofNat 256 (a.toNat * b.toNat % n.toNat)
  | _ => none

/-! ## Memory -/

/-- The bytes of a region. -/
def slice (memory : Nat → UInt8) (offset size : Nat) : List UInt8 :=
  (List.range size).map fun i => memory (offset + i)

/-- A memory with bytes written from an offset on. -/
def patch (memory : Nat → UInt8) (offset : Nat) (bytes : List UInt8) : Nat → UInt8 :=
  fun i => if offset ≤ i then (bytes[i - offset]?).getD (memory i) else memory i

/-- The 32 bytes of a word, most significant first. -/
def bytesOf (w : Word) : List UInt8 :=
  (List.range 32).map fun i => UInt8.ofNat (w.toNat / 256 ^ (31 - i))

/-- The word that bytes write, most significant first. -/
def wordOf (bytes : List UInt8) : Word :=
  BitVec.ofNat 256 (Nat.ofDigits 256 (bytes.reverse.map UInt8.toNat))

/-! ## Opcodes -/

/-- The number of operands of an opcode whose result only the environment knows. -/
def queryInputs? : Opcode → Option Nat
  | .address | .origin | .caller | .callvalue | .calldatasize | .codesize | .gasprice
  | .returndatasize | .coinbase | .timestamp | .number | .prevrandao | .gaslimit | .chainid
  | .selfbalance | .basefee | .blobbasefee | .msize | .pc | .gas => some 0
  | .balance | .calldataload | .extcodesize | .extcodehash | .blockhash | .blobhash | .sload
  | .tload => some 1
  | .create => some 3
  | .create2 => some 4
  | _ => none

/-- The number of operands of an opcode without a result that leaves memory alone. -/
def sinkInputs? : Opcode → Option Nat
  | .pop => some 1
  | .sstore | .tstore => some 2
  | .log topics => some (2 + topics)
  | _ => none

/-- The number of operands before the target of an opcode that copies bytes into memory from
    outside. -/
def copyInputs? : Opcode → Option Nat
  | .calldatacopy | .codecopy | .returndatacopy => some 0
  | .extcodecopy => some 1
  | _ => none

/-- What an opcode can do to a state. -/
inductive Effect : Opcode → State → State → Prop where
  | push0 (stack : List Word) (memory : Nat → UInt8) :
    Effect .push0 ⟨stack, memory⟩ ⟨0 :: stack, memory⟩
  | unary {op : Opcode} {f : Word → Word} (function : unary? op = some f) (a : Word)
      (rest : List Word) (memory : Nat → UInt8) :
    Effect op ⟨a :: rest, memory⟩ ⟨f a :: rest, memory⟩
  | binary {op : Opcode} {f : Word → Word → Word} (function : binary? op = some f) (a b : Word)
      (rest : List Word) (memory : Nat → UInt8) :
    Effect op ⟨a :: b :: rest, memory⟩ ⟨f a b :: rest, memory⟩
  | ternary {op : Opcode} {f : Word → Word → Word → Word} (function : ternary? op = some f)
      (a b c : Word) (rest : List Word) (memory : Nat → UInt8) :
    Effect op ⟨a :: b :: c :: rest, memory⟩ ⟨f a b c :: rest, memory⟩
  | query {op : Opcode} {args : List Word} (inputs : queryInputs? op = some args.length)
      (answer : Word) (rest : List Word) (memory : Nat → UInt8) :
    Effect op ⟨args ++ rest, memory⟩ ⟨answer :: rest, memory⟩
  | sink {op : Opcode} {args : List Word} (inputs : sinkInputs? op = some args.length)
      (rest : List Word) (memory : Nat → UInt8) :
    Effect op ⟨args ++ rest, memory⟩ ⟨rest, memory⟩
  /-- The literal to push is a token of its own. -/
  | push (width : Fin 32) (c : State) : Effect (.push width) c c
  | jumpdest (c : State) : Effect .jumpdest c c
  | dup (depth : Fin 16) {stack : List Word} {w : Word} (copied : stack[depth.val]? = some w)
      (memory : Nat → UInt8) :
    Effect (.dup depth) ⟨stack, memory⟩ ⟨w :: stack, memory⟩
  | swap (depth : Fin 16) {between : List Word} (deep : between.length = depth) (a b : Word)
      (rest : List Word) (memory : Nat → UInt8) :
    Effect (.swap depth) ⟨a :: (between ++ b :: rest), memory⟩
      ⟨b :: (between ++ a :: rest), memory⟩
  | mload (offset : Word) (rest : List Word) (memory : Nat → UInt8) :
    Effect .mload ⟨offset :: rest, memory⟩ ⟨wordOf (slice memory offset.toNat 32) :: rest, memory⟩
  | mstore (offset value : Word) (rest : List Word) (memory : Nat → UInt8) :
    Effect .mstore ⟨offset :: value :: rest, memory⟩
      ⟨rest, patch memory offset.toNat (bytesOf value)⟩
  | mcopy (target source size : Word) (rest : List Word) (memory : Nat → UInt8) :
    Effect .mcopy ⟨target :: source :: size :: rest, memory⟩
      ⟨rest, patch memory target.toNat (slice memory source.toNat size.toNat)⟩
  | sha3 (offset size : Word) (rest : List Word) (memory : Nat → UInt8) :
    Effect .sha3 ⟨offset :: size :: rest, memory⟩
      ⟨wordOf (Keccak.digest (slice memory offset.toNat size.toNat)).toList :: rest, memory⟩
  /-- Bytes come in from outside of memory. -/
  | copyIn {op : Opcode} {args : List Word} (inputs : copyInputs? op = some args.length)
      (target source size : Word) (rest : List Word) (memory : Nat → UInt8)
      (bytes : List UInt8) (whole : bytes.length = size.toNat) :
    Effect op ⟨args ++ target :: source :: size :: rest, memory⟩
      ⟨rest, patch memory target.toNat bytes⟩

/-! ## Tokens -/

/-- What a token of straight-line code can do to a state.  A number pushes its value; one
    that no word holds, and a name, stand for words that are not known here. -/
inductive Step (token : Token) : State → State → Prop where
  | literal (kind : token.kind = .literal) (w : Word) (stack : List Word) (memory : Nat → UInt8)
      (value : ∀ n, Word.numeral? token.text = some n → n < 2 ^ 256 → w = BitVec.ofNat 256 n) :
    Step token ⟨stack, memory⟩ ⟨w :: stack, memory⟩
  | symbol (kind : token.kind = .constant ∨ token.kind = .argument ∨ token.kind = .reference)
      (w : Word) (stack : List Word) (memory : Nat → UInt8) :
    Step token ⟨stack, memory⟩ ⟨w :: stack, memory⟩
  | opcode {op : Opcode} (kind : token.kind = .opcode op) {c c' : State}
      (effect : Effect op c c') : Step token c c'

end HuffTrace.Evm
