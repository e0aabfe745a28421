/-
  HuffTrace.Opcode.Basic

  The opcodes of the virtual machine, how many operands each takes, and the
  name under which the result of an opcode is shown if nothing about it can be
  computed.
-/

namespace HuffTrace

/-- An opcode.  Numbered families carry an index from zero, so that every value of the
    type is an opcode of the machine. -/
inductive Opcode where
  | add | mul | sub | div | sdiv | mod | smod | addmod | mulmod | exp | signextend
  | lt | gt | slt | sgt | eq | iszero | and | or | xor | not | byte | shl | shr | sar
  | sha3
  | address | balance | origin | caller | callvalue
  | calldataload | calldatasize | calldatacopy | codesize | codecopy | gasprice
  | extcodesize | extcodecopy | returndatasize | returndatacopy | extcodehash
  | blockhash | coinbase | timestamp | number | prevrandao | gaslimit | chainid
  | selfbalance | basefee | blobhash | blobbasefee
  | pop | mload | mstore | mstore8 | sload | sstore | tload | tstore | mcopy | msize
  | push0
  /-- `push1` to `push32`; the pushed literal is a token of its own. -/
  | push (width : Fin 32)
  /-- `dup1` to `dup16`, by the depth of the copied value. -/
  | dup (depth : Fin 16)
  /-- `swap1` to `swap16`, by the depth of the value just above the exchanged one. -/
  | swap (depth : Fin 16)
  | stop | jump | jumpi | pc | gas | jumpdest
  /-- `log0` to `log4`. -/
  | log (topics : Fin 5)
  | create | call | callcode | ret | delegatecall | create2 | staticcall | revert | invalid
  | selfdestruct
  deriving DecidableEq, Repr

namespace Opcode

/-- The number of operands that an opcode needs on the stack. -/
def arity : Opcode → Nat
  | address | origin | caller | callvalue | calldatasize | codesize | gasprice
  | returndatasize | coinbase | timestamp | number | prevrandao | gaslimit | chainid
  | selfbalance | basefee | blobbasefee | msize | push0 | push _ | stop | pc | gas | jumpdest
  | invalid => 0
  | iszero | not | balance | calldataload | extcodesize | extcodehash | blockhash | blobhash
  | pop | mload | sload | tload | jump | selfdestruct => 1
  | add | mul | sub | div | sdiv | mod | smod | exp | signextend | lt | gt | slt | sgt | eq
  | and | or | xor | byte | shl | shr | sar | sha3 | mstore | mstore8 | sstore | tstore
  | jumpi | ret | revert => 2
  | addmod | mulmod | calldatacopy | codecopy | returndatacopy | mcopy | create => 3
  | extcodecopy | create2 => 4
  | delegatecall | staticcall => 6
  | call | callcode => 7
  | log topics => 2 + topics
  | dup depth => depth + 1
  | swap depth => depth + 2

/-- The name of a result that only the running chain can know. -/
def resultName? : Opcode → Option String
  | address => some "currentAddress"
  | origin => some "origin"
  | caller => some "caller"
  | callvalue => some "callValue"
  | calldatasize => some "calldataSize"
  | codesize => some "codeSize"
  | gasprice => some "gasPrice"
  | returndatasize => some "returndataSize"
  | coinbase => some "minerAddress"
  | timestamp => some "timestamp"
  | number => some "blockNumber"
  | prevrandao => some "prevRandao"
  | gaslimit => some "gasLimit"
  | chainid => some "chainId"
  | selfbalance => some "selfBalance"
  | basefee => some "baseFee"
  | blobbasefee => some "blobBaseFee"
  | msize => some "msize"
  | pc => some "PC"
  | gas => some "gasLeft"
  | extcodesize => some "extCodeSize"
  | extcodehash => some "extCodeHash"
  | blockhash => some "blockHash"
  | blobhash => some "blobHash"
  | create | create2 => some "newAddress"
  | call | callcode | delegatecall | staticcall => some "success?"
  | _ => none

end Opcode

end HuffTrace
