/-
  HuffTrace.Opcode.Semantics

  What each opcode does to the symbolic stack and memory.

  An operation whose operands are all known folds to a known result, and
  otherwise builds the text of an expression over the texts of its operands;
  the first operand popped is written first unless the usual notation has it
  the other way round.  A memory operation takes effect only if its region is
  known and lies within a limit.

  An operand that is missing from the stack is replaced by a placeholder, so
  every opcode runs to its end whatever it finds; what went wrong on the way is
  collected in order.
-/

import HuffTrace.Keccak
import HuffTrace.Memory
import HuffTrace.Opcode.Basic
import HuffTrace.Stack

namespace HuffTrace

/-- What an opcode works on. -/
structure Workspace where
  stack : Stack := {}
  memory : Memory := {}
  /-- The faults met so far, in order. -/
  faults : List Fault := []
  deriving DecidableEq, Repr

namespace Workspace

/-- Notes a fault. -/
def report (w : Workspace) (fault : Fault) : Workspace :=
  { w with faults := w.faults ++ [fault] }

/-- What stands for an operand that is missing from the stack. -/
def missing : Value := .symbolic "?"

/-- Takes the top value, or the placeholder for it, off the stack. -/
def pop (w : Workspace) : Value × Workspace :=
  match w.stack.pop with
  | .ok (v, stack) => (v, { w with stack })
  | .error error => (missing, w.report (.stack error))

/-- Takes a number of values off the stack. -/
def discard (w : Workspace) : Nat → Workspace
  | 0 => w
  | n + 1 => (w.pop.2).discard n

/-- Keeps the result of a stack operation, or the stack as it was if the operation fails. -/
def attempt (w : Workspace) (result : Except StackError Stack) : Workspace :=
  match result with
  | .ok stack => { w with stack }
  | .error error => w.report (.stack error)

/-- Adds a value to the stack. -/
def push (w : Workspace) (v : Value) : Workspace :=
  w.attempt (w.stack.push v)

/-- Adds the text of an expression to the stack. -/
def pushText (w : Workspace) (text : String) : Workspace :=
  w.push (.symbolic text)

/-! ## Operations that fold -/

/-- Replaces the top value. -/
def unary (fold : Word → Word) (render : String → String) (w : Workspace) : Workspace :=
  let (a, w) := w.pop
  match a.word? with
  | some x => w.push (.folded (fold x))
  | none => w.pushText (render a.text)

/-- Replaces the top two values. -/
def binary (fold : Word → Word → Word) (render : String → String → String) (w : Workspace) :
    Workspace :=
  let (a, w) := w.pop
  let (b, w) := w.pop
  match a.word?, b.word? with
  | some x, some y => w.push (.folded (fold x y))
  | _, _ => w.pushText (render a.text b.text)

/-- Replaces the top three values. -/
def ternary (fold : Word → Word → Word → Word) (render : String → String → String → String)
    (w : Workspace) : Workspace :=
  let (a, w) := w.pop
  let (b, w) := w.pop
  let (c, w) := w.pop
  match a.word?, b.word?, c.word? with
  | some x, some y, some z => w.push (.folded (fold x y z))
  | _, _, _ => w.pushText (render a.text b.text c.text)

/-- Replaces the top value by the text of a look-up at it, clipped to `limit` characters. -/
def lookUp (before : String) (limit : Nat) (after : String) (w : Workspace) : Workspace :=
  let (key, w) := w.pop
  w.pushText (before ++ Text.clip limit key.text ++ after)

/-! ## Memory -/

/-- The region that two operands name, if both are known and it ends within `limit`.  A
    known region that ends beyond it, or that 64 bits cannot address, is a fault. -/
def region? (limit : Nat) (offset size : Value) (w : Workspace) :
    Option (Nat × Nat) × Workspace :=
  match offset.word?, size.word? with
  | some o, some s =>
    match o.toIndex?, s.toIndex? with
    | some o, some s =>
      if o + s < UInt64.size ∧ o + s ≤ limit then (some (o, s), w)
      else (none, w.report (.unsupportedMemoryOffset offset.text))
    | _, _ => (none, w.report (.unsupportedMemoryOffset offset.text))
  | _, _ => (none, w)

/-- The offset of a word in memory, under the same conditions. -/
def wordOffset? (limit : Nat) (offset : Value) (w : Workspace) : Option Nat × Workspace :=
  let (region, w) := w.region? limit offset (.folded (BitVec.ofNat 256 Word.byteCount))
  (region.map (·.1), w)

/-- Loads the word at the offset on top of the stack. -/
def loadWord (limit : Nat) (w : Workspace) : Workspace :=
  let (offset, w) := w.pop
  let (address, w) := w.wordOffset? limit offset
  match address.bind w.memory.load with
  | some word => w.push (.folded word)
  | none => w.pushText ("mem[" ++ Text.clip 10 offset.text ++ "]")

/-- Stores a word. -/
def storeWord (limit : Nat) (w : Workspace) : Workspace :=
  let (offset, w) := w.pop
  let (value, w) := w.pop
  let (address, w) := w.wordOffset? limit offset
  match address, value.word? with
  | none, _ => w
  | some start, some word => { w with memory := w.memory.store start word }
  | some start, none => { w with memory := w.memory.forget start Word.byteCount }

/-- Stores the least significant byte of a word, followed by zeros up to the length of a
    word. -/
def storeLowByte (limit : Nat) (w : Workspace) : Workspace :=
  let (offset, w) := w.pop
  let (value, w) := w.pop
  let (address, w) := w.wordOffset? limit offset
  match address, value.word? with
  | none, _ => w
  | some start, some word =>
    { w with memory := w.memory.storeByte start (UInt8.ofNat word.toNat) }
  | some start, none => { w with memory := (w.memory.storeByte start 0).forget start 1 }

/-- Copies a region of memory; if only its source is not known or lies too high, the
    target becomes unknown. -/
def copyWithin (limit : Nat) (w : Workspace) : Workspace :=
  let (target, w) := w.pop
  let (source, w) := w.pop
  let (size, w) := w.pop
  match w.region? limit target size with
  | (none, w) => w
  | (some (start, count), w) =>
    match w.region? limit source size with
    | (some (origin, _), w) => { w with memory := w.memory.copy start origin count }
    | (none, w) => { w with memory := w.memory.forget start count }

/-- Copies bytes from outside, which are unknown, into memory; `leading` operands come
    before the target. -/
def copyIn (leading limit : Nat) (w : Workspace) : Workspace :=
  let w := w.discard leading
  let (target, w) := w.pop
  let (_, w) := w.pop
  let (size, w) := w.pop
  match w.region? limit target size with
  | (none, w) => w
  | (some (start, count), w) => { w with memory := w.memory.forget start count }

/-- Hashes a region of memory. -/
def hashRegion (limit : Nat) (w : Workspace) : Workspace :=
  let (offset, w) := w.pop
  let (size, w) := w.pop
  let (region, w) := w.region? limit offset size
  match region.bind fun (start, count) => w.memory.read start count with
  | some bytes => w.push (.folded (Word.ofBytes (Keccak.digest bytes).toList))
  | none => w.pushText "hash"

/-! ## Jumps -/

/-- Jumps to the label on top of the stack, after `conditions` further operands. -/
def jumpTo (conditions : Nat) (w : Workspace) : Workspace :=
  let (target, w) := w.pop
  let w := w.discard conditions
  { w with stack := w.stack.jump target.text }

end Workspace

open Workspace in
/-- Executes an opcode; `limit` bounds the memory that is tracked. -/
def Opcode.run (limit : Nat) : Opcode → Workspace → Workspace
  | .add => binary (· + ·) fun a b => a ++ " + " ++ b
  | .mul => binary (· * ·) fun a b => a ++ " * " ++ b
  | .sub => binary (· - ·) fun a b => a ++ " - " ++ b
  | .div => binary Word.div fun a b => a ++ " / " ++ b
  | .sdiv => binary Word.sdiv fun a b => a ++ " / " ++ b
  | .mod => binary Word.mod fun a b => a ++ " % " ++ b
  | .smod => binary Word.smod fun a b => a ++ " % " ++ b
  | .addmod => ternary Word.addmod fun a b n => "(" ++ a ++ " + " ++ b ++ ") % " ++ n
  | .mulmod => ternary Word.mulmod fun a b n => "(" ++ a ++ " * " ++ b ++ ") % " ++ n
  | .exp => binary Word.exp fun a b => a ++ " ** " ++ b
  | .signextend =>
    binary (fun index value => Word.signextend value index) fun index value =>
      "signextend(" ++ index ++ ", " ++ value ++ ")"
  | .lt => binary Word.lt fun a b => a ++ " < " ++ b
  | .gt => binary Word.gt fun a b => a ++ " > " ++ b
  | .slt => binary Word.slt fun a b => a ++ " < " ++ b
  | .sgt => binary Word.sgt fun a b => a ++ " > " ++ b
  | .eq => binary Word.eq fun a b => a ++ " == " ++ b
  | .iszero => unary Word.iszero fun a => a ++ " == 0"
  | .and => binary (· &&& ·) fun a b => a ++ " & " ++ b
  | .or => binary (· ||| ·) fun a b => a ++ " | " ++ b
  | .xor => binary (· ^^^ ·) fun a b => a ++ " ^ " ++ b
  | .not => unary (~~~·) fun a => "~" ++ a
  | .byte =>
    binary (fun index value => Word.byte value index) fun index value =>
      "byte(" ++ index ++ ", " ++ value ++ ")"
  | .shl =>
    binary (fun shift value => Word.shl value shift) fun shift value => value ++ " << " ++ shift
  | .shr =>
    binary (fun shift value => Word.shr value shift) fun shift value => value ++ " >> " ++ shift
  | .sar =>
    binary (fun shift value => Word.sar value shift) fun shift value => value ++ " >> " ++ shift
  | .sha3 => hashRegion limit
  | .balance => lookUp "balanceOf(" 20 ")"
  | .calldataload => fun w =>
    let (offset, w) := w.pop
    w.pushText ("calldata[" ++ offset.text ++ "]")
  | .calldatacopy | .codecopy | .returndatacopy => copyIn 0 limit
  | .extcodecopy => copyIn 1 limit
  | .mload => loadWord limit
  | .mstore => storeWord limit
  | .mstore8 => storeLowByte limit
  | .sload => lookUp "storage[" 10 "]"
  | .tload => lookUp "transient[" 10 "]"
  | .mcopy => copyWithin limit
  | .push0 => fun w => w.push (.folded 0)
  | .dup depth => fun w => w.attempt (w.stack.dup (depth + 1))
  | .swap depth => fun w => w.attempt (w.stack.swap (depth + 1))
  | .jump => jumpTo 0
  | .jumpi => jumpTo 1
  | .push _ | .stop | .jumpdest | .invalid => id
  | opcode => fun w =>
    let w := w.discard opcode.arity
    match opcode.resultName? with
    | some name => w.pushText name
    | none => w

end HuffTrace
