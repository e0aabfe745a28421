/-
  HuffTrace.Proofs.Evm.Tracking

  What it means for symbolic values and a symbolic memory to track concrete
  ones.  A value shows a word if it knows no other one; a memory tracks bytes
  if its known cells are right and everything beyond its end is still zero.
  The second part is what makes the zeros right with which a memory grows.

  Every write is covered by one lemma, `MemoryTracks.write`: cells are written
  here, bytes there, and each known cell is its byte.
-/

import HuffTrace.Proofs.Evm.Folding
import HuffTrace.Proofs.Memory
import HuffTrace.Proofs.Opcode.Workspace
import Mathlib.Data.List.Forall2

namespace HuffTrace.Evm

/-! ## Values -/

/-- A value shows a word if it knows no other word. -/
def Shows (v : Value) (x : Word) : Prop :=
  ∀ w, v.word? = some w → w = x

theorem shows_symbolic (text : String) (x : Word) : Shows (.symbolic text) x := by
  intro w h
  cases h

theorem shows_folded (x : Word) : Shows (.folded x) x := by
  intro w h
  exact (Option.some.inj h).symm

theorem shows_folded₁ {fold : Word → Word} (render : String → String) {a : Value} {x : Word}
    (ha : Shows a x) : Shows (Workspace.folded₁ fold render a) (fold x) := by
  rw [Workspace.folded₁]
  split
  · next h => rw [ha _ h]; exact shows_folded _
  · exact shows_symbolic _ _

theorem shows_folded₂ {fold : Word → Word → Word} (render : String → String → String)
    {a b : Value} {x y : Word} (ha : Shows a x) (hb : Shows b y) :
    Shows (Workspace.folded₂ fold render a b) (fold x y) := by
  rw [Workspace.folded₂]
  split
  · next h₁ h₂ => rw [ha _ h₁, hb _ h₂]; exact shows_folded _
  · exact shows_symbolic _ _

theorem shows_folded₃ {fold : Word → Word → Word → Word}
    (render : String → String → String → String) {a b c : Value} {x y z : Word}
    (ha : Shows a x) (hb : Shows b y) (hc : Shows c z) :
    Shows (Workspace.folded₃ fold render a b c) (fold x y z) := by
  rw [Workspace.folded₃]
  split
  · next h₁ h₂ h₃ => rw [ha _ h₁, hb _ h₂, hc _ h₃]; exact shows_folded _
  · exact shows_symbolic _ _

/-! ## Cells -/

/-- A cell covers a byte if it knows no other byte. -/
def Covers (cell : Option UInt8) (b : UInt8) : Prop :=
  ∀ x, cell = some x → x = b

theorem covers_map_some (bytes : List UInt8) :
    List.Forall₂ Covers (bytes.map some) bytes := by
  induction bytes with
  | nil => exact .nil
  | cons b bytes ih => exact .cons (fun x h => (Option.some.inj h).symm) ih

theorem covers_replicate_none (bytes : List UInt8) :
    List.Forall₂ Covers (List.replicate bytes.length none) bytes := by
  induction bytes with
  | nil => exact .nil
  | cons b bytes ih => exact .cons (fun x h => by cases h) ih

theorem eq_of_covers_map_some {bytes bytes' : List UInt8}
    (h : List.Forall₂ Covers (bytes.map some) bytes') : bytes = bytes' := by
  induction bytes generalizing bytes' with
  | nil => cases h; rfl
  | cons b bytes ih =>
    cases h with
    | cons hb hrest => rw [hb b rfl, ih hrest]

/-- The memory tracks bytes: its known cells are right, and beyond its end nothing has been
    written. -/
structure MemoryTracks (m : Memory) (bytes : Nat → UInt8) : Prop where
  known : ∀ i b, m.cells[i]? = some (some b) → bytes i = b
  fresh : ∀ i, m.size ≤ i → bytes i = 0

theorem memoryTracks_empty : MemoryTracks .empty fun _ => 0 where
  known i b h := by simp [Memory.empty] at h
  fresh _ _ := rfl

theorem patch_nil (bytes : Nat → UInt8) (offset : Nat) : patch bytes offset [] = bytes := by
  funext i
  simp [patch]

theorem patch_of_lt {bytes : Nat → UInt8} {offset i : Nat} (written : List UInt8)
    (h : i < offset) : patch bytes offset written i = bytes i := by
  rw [patch, if_neg (by omega)]

theorem patch_of_ge {bytes : Nat → UInt8} {offset i : Nat} {written : List UInt8}
    (h : offset + written.length ≤ i) : patch bytes offset written i = bytes i := by
  rw [patch, if_pos (by omega), List.getElem?_eq_none (by omega)]
  rfl

/-- Writing cells over bytes that they cover keeps a memory on track. -/
theorem MemoryTracks.write {m : Memory} {bytes : Nat → UInt8} (h : MemoryTracks m bytes)
    (offset : Nat) {region : List (Option UInt8)} {written : List UInt8}
    (hcovers : List.Forall₂ Covers region written) :
    MemoryTracks (m.write offset region) (patch bytes offset written) := by
  have hlen : region.length = written.length := hcovers.length_eq
  by_cases hne : region = []
  · subst hne
    cases hcovers
    rw [patch_nil]
    exact h
  · constructor
    · intro i b hcell
      rw [Memory.getElem?_write m offset hne] at hcell
      split at hcell
      · next hin =>
        have hbound : i - offset < written.length := by omega
        have hcover := List.forall₂_iff_get.1 hcovers |>.2 (i - offset) (by omega) hbound
        rw [List.getElem?_eq_getElem (by omega)] at hcell
        rw [patch, if_pos hin.1, List.getElem?_eq_getElem hbound]
        exact (hcover b (Option.some.inj hcell)).symm
      · next hout =>
        -- Outside of the region no byte is written.
        have hsame : patch bytes offset written i = bytes i := by
          by_cases hlow : i < offset
          · exact patch_of_lt written hlow
          · exact patch_of_ge (by omega)
        rw [hsame]
        split at hcell
        · exact h.known i b hcell
        · next hsize =>
          split at hcell
          · -- A cell that the memory has grown past: a known zero over a fresh byte.
            cases hcell
            exact h.fresh i (by omega)
          · exact absurd hcell (by simp)
    · intro i hi
      rw [Memory.size_write m offset hne] at hi
      rw [patch_of_ge (by omega)]
      exact h.fresh i (by omega)

theorem MemoryTracks.covers_window {m : Memory} {bytes : Nat → UInt8} (h : MemoryTracks m bytes)
    (offset size : Nat) :
    List.Forall₂ Covers (m.window offset size) (slice bytes offset size) := by
  rw [Memory.window, slice, List.forall₂_map_left_iff, List.forall₂_map_right_iff,
    List.forall₂_same]
  intro i _ x hx
  exact (h.known (offset + i) x (Option.join_eq_some_iff.1 hx)).symm

/-- What is read from a memory is what is there. -/
theorem MemoryTracks.read {m : Memory} {bytes : Nat → UInt8} (h : MemoryTracks m bytes)
    {offset size : Nat} {found : List UInt8} (hread : m.read offset size = some found) :
    found = slice bytes offset size := by
  have hcovers := h.covers_window offset size
  rw [Memory.window_eq_of_read hread] at hcovers
  exact eq_of_covers_map_some hcovers

theorem MemoryTracks.load {m : Memory} {bytes : Nat → UInt8} (h : MemoryTracks m bytes)
    {offset : Nat} {w : Word} (hload : m.load offset = some w) :
    w = wordOf (slice bytes offset 32) := by
  obtain ⟨found, hread, rfl⟩ := Option.map_eq_some_iff.1 hload
  rw [wordOf_eq, h.read hread]
  rfl

end HuffTrace.Evm
