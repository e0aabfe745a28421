/-
  HuffTrace.Memory

  The symbolic memory: a row of cells, each a known byte or unknown.  Writing
  past the end grows the memory with known zeros up to the written region.
  Reading past the end gives nothing, since what a program finds there has not
  been written by it as far as is known.
-/

import HuffTrace.Word.Basic

namespace HuffTrace

/-- A memory of known and unknown bytes. -/
structure Memory where
  /-- The cells; `none` is an unknown byte. -/
  cells : Array (Option UInt8) := #[]
  deriving DecidableEq, Repr

namespace Memory

/-- The memory before anything is written. -/
def empty : Memory := {}

/-- The number of cells. -/
def size (m : Memory) : Nat :=
  m.cells.size

/-- Whether nothing has been written. -/
def isEmpty (m : Memory) : Bool :=
  m.cells.isEmpty

/-- Grows the memory with known zeros until it has at least `size` cells. -/
def grow (m : Memory) (size : Nat) : Memory :=
  ⟨m.cells ++ Array.replicate (size - m.cells.size) (some 0)⟩

/-- Replaces cells from an index on. -/
def overlay (cells : Array (Option UInt8)) (index : Nat) :
    List (Option UInt8) → Array (Option UInt8)
  | [] => cells
  | c :: cs => overlay (cells.setIfInBounds index c) (index + 1) cs

/-- Writes cells from an offset on, growing as needed. -/
def write (m : Memory) (offset : Nat) (region : List (Option UInt8)) : Memory :=
  if region.isEmpty then m
  else ⟨overlay (m.grow (offset + region.length)).cells offset region⟩

/-- Stores the 32 bytes of a word. -/
def store (m : Memory) (offset : Nat) (w : Word) : Memory :=
  m.write offset (w.toBytes.map some)

/-- Stores a byte followed by 31 zeros. -/
def storeByte (m : Memory) (offset : Nat) (b : UInt8) : Memory :=
  m.write offset (some b :: List.replicate (Word.byteCount - 1) (some 0))

/-- Makes a region unknown. -/
def forget (m : Memory) (offset size : Nat) : Memory :=
  m.write offset (List.replicate size none)

/-- The cells of a region; those past the end are unknown. -/
def window (m : Memory) (offset size : Nat) : List (Option UInt8) :=
  (List.range size).map fun i => (m.cells[offset + i]?).join

/-- Copies a region as it was before the copy. -/
def copy (m : Memory) (target source size : Nat) : Memory :=
  m.write target (m.window source size)

/-- The bytes of a region, if it lies in the memory and all of them are known. -/
def read (m : Memory) (offset size : Nat) : Option (List UInt8) :=
  if size = 0 then some []
  else if m.size < offset + size then none
  else (m.window offset size).mapM id

/-- The word at an offset, if all of its bytes are known. -/
def load (m : Memory) (offset : Nat) : Option Word :=
  (m.read offset Word.byteCount).map Word.ofBytes

end Memory

end HuffTrace
