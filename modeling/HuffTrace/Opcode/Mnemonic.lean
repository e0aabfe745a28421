/-
  HuffTrace.Opcode.Mnemonic

  The names of opcodes in source text.  Most stand in one table, in which the
  first name of an opcode is the one it is shown under and a later one is an
  alias.  The numbered families are a stem followed by a decimal number without
  leading zeros, before which a plus sign is allowed.
-/

import HuffTrace.Opcode.Basic
import HuffTrace.Text.Digit
import HuffTrace.Text.Search

namespace HuffTrace.Opcode

/-- The names that carry no number. -/
def named : List (String × Opcode) :=
  [("add", add), ("mul", mul), ("sub", sub), ("div", div), ("sdiv", sdiv), ("mod", mod),
   ("smod", smod), ("addmod", addmod), ("mulmod", mulmod), ("exp", exp),
   ("signextend", signextend), ("lt", lt), ("gt", gt), ("slt", slt), ("sgt", sgt), ("eq", eq),
   ("iszero", iszero), ("and", and), ("or", or), ("xor", xor), ("not", not), ("byte", byte),
   ("shl", shl), ("shr", shr), ("sar", sar), ("sha3", sha3), ("keccak256", sha3),
   ("address", address), ("balance", balance), ("origin", origin), ("caller", caller),
   ("callvalue", callvalue), ("calldataload", calldataload), ("calldatasize", calldatasize),
   ("calldatacopy", calldatacopy), ("codesize", codesize), ("codecopy", codecopy),
   ("gasprice", gasprice), ("extcodesize", extcodesize), ("extcodecopy", extcodecopy),
   ("returndatasize", returndatasize), ("returndatacopy", returndatacopy),
   ("extcodehash", extcodehash), ("blockhash", blockhash), ("coinbase", coinbase),
   ("timestamp", timestamp), ("number", number), ("prevrandao", prevrandao),
   ("difficulty", prevrandao), ("gaslimit", gaslimit), ("chainid", chainid),
   ("selfbalance", selfbalance), ("basefee", basefee), ("blobhash", blobhash),
   ("blobbasefee", blobbasefee), ("pop", pop), ("mload", mload), ("mstore", mstore),
   ("mstore8", mstore8), ("sload", sload), ("sstore", sstore), ("tload", tload),
   ("tstore", tstore), ("mcopy", mcopy), ("msize", msize), ("push0", push0), ("stop", stop),
   ("jump", jump), ("jumpi", jumpi), ("pc", pc), ("gas", gas), ("jumpdest", jumpdest),
   ("create", create), ("call", call), ("callcode", callcode), ("return", ret),
   ("delegatecall", delegatecall), ("create2", create2), ("staticcall", staticcall),
   ("revert", revert), ("invalid", invalid), ("selfdestruct", selfdestruct)]

/-- The number after a stem, less the first number of its family, if it belongs to a family
    of `count` members. -/
def numbered? (stem : String) (first count : Nat) (text : String) : Option (Fin count) := do
  let digits ← Text.dropStart? stem.toList text.toList
  if digits.head? = some '0' ∧ digits.length ≠ 1 then none
  let n ← Text.natural? 256 digits
  if h : first ≤ n ∧ n - first < count then some ⟨n - first, h.2⟩ else none

/-- The opcode with a name. -/
def ofMnemonic? (text : String) : Option Opcode :=
  named.lookup text
    <|> (numbered? "push" 1 32 text).map push
    <|> (numbered? "dup" 1 16 text).map dup
    <|> (numbered? "swap" 1 16 text).map swap
    <|> (numbered? "log" 0 5 text).map log

/-- The name that an opcode is shown under. -/
def mnemonic : Opcode → String
  | push width => "push" ++ Text.decimal (width + 1)
  | dup depth => "dup" ++ Text.decimal (depth + 1)
  | swap depth => "swap" ++ Text.decimal (depth + 1)
  | log topics => "log" ++ Text.decimal topics
  | other => ((named.find? (·.2 == other)).map (·.1)).getD "unknown"

end HuffTrace.Opcode
