/-
  HuffTrace.Proofs.Word.Exact

  Modular arithmetic and powers within 256 bits.  Modular sums and products are
  exact, and yet none of the additions and subtractions on the way wraps: the
  same computations with each of them checked (`addmod?`, `mulmod?`) never
  fail.

  Powers are meant to wrap.  Their loop works on three words, halves the
  exponent at every turn and so ends after as many turns as the exponent has
  binary digits (`Powering.ends_iff`).
-/

import HuffTrace.Proofs.Word.Arithmetic
import Mathlib.Data.Nat.Size

namespace HuffTrace.Word

/-! ## Checked sums and differences -/

/-- The sum, unless it wraps. -/
def add? (a b : Word) : Option Word :=
  if a.uaddOverflow b then none else some (a + b)

/-- The difference, unless it wraps. -/
def sub? (a b : Word) : Option Word :=
  if a.usubOverflow b then none else some (a - b)

theorem add?_of_lt {a b : Word} (h : a.toNat + b.toNat < 2 ^ 256) : add? a b = some (a + b) := by
  have hfits : a.uaddOverflow b = false := by
    simpa only [BitVec.uaddOverflow, decide_eq_false_iff_not, ge_iff_le, Nat.not_le] using h
  rw [add?, hfits]
  rfl

theorem sub?_of_le {a b : Word} (h : b.toNat ≤ a.toNat) : sub? a b = some (a - b) := by
  have hfits : a.usubOverflow b = false := by
    simpa only [BitVec.usubOverflow, decide_eq_false_iff_not, Nat.not_lt] using h
  rw [sub?, hfits]
  rfl

/-! ## Modular arithmetic -/

/-- Modular addition, unless a sum or a difference on the way wraps. -/
def addmod? (a b n : Word) : Option Word :=
  if n = 0 then some 0
  else do
    let x := a % n
    let y := b % n
    let gap ← sub? n y
    if gap ≤ x then sub? x gap else add? x y

/-- Modular multiplication, unless a sum or a difference on the way wraps. -/
def mulmod? (a b n : Word) : Option Word :=
  if n = 0 then some 0
  else
    let x := a % n
    let y := b % n
    (List.range 256).foldrM
      (fun bit acc => do
        let doubled ← addmod? acc acc n
        if y.getLsbD bit then addmod? doubled x n else some doubled)
      0

/-- Nothing wraps in a modular addition: the second operand is below the modulus, what is taken
    off the first one is at most that, and where nothing is taken off the sum is below the
    modulus. -/
theorem addmod?_eq (a b n : Word) : addmod? a b n = some (addmod a b n) := by
  by_cases hn : n = 0
  · rw [addmod?, addmod, if_pos hn, if_pos hn]
  have hy : (b % n).toNat < n.toNat := by
    rw [BitVec.toNat_umod]
    exact Nat.mod_lt _ (toNat_pos hn)
  have hgap : (n - b % n).toNat = n.toNat - (b % n).toNat :=
    BitVec.toNat_sub_of_le (BitVec.le_def.2 (Nat.le_of_lt hy))
  rw [addmod?, addmod, if_neg hn, if_neg hn]
  simp only [sub?_of_le (Nat.le_of_lt hy), Option.bind_eq_bind, Option.bind_some]
  split
  · next hreach => exact sub?_of_le (BitVec.le_def.1 hreach)
  · next hbelow =>
    rw [BitVec.le_def, hgap] at hbelow
    have hlt := n.isLt
    exact add?_of_lt (by omega)

theorem mulmod?_eq (a b n : Word) : mulmod? a b n = some (mulmod a b n) := by
  by_cases hn : n = 0
  · rw [mulmod?, mulmod, if_pos hn, if_pos hn]
  rw [mulmod?, mulmod, if_neg hn, if_neg hn]
  simp only [addmod?_eq, Option.bind_eq_bind, Option.bind_some, ← apply_ite some]
  exact List.foldrM_pure

/-- Modular sums and products are those of the unbounded integers, zero for a zero modulus, and
    no addition or subtraction of words on the way to them wraps. -/
theorem modular_arithmetic_exact (a b n : Word) :
    addmod? a b n = some (addmod a b n)
    ∧ (addmod a b n).toNat = (if n = 0 then 0 else (a.toNat + b.toNat) % n.toNat)
    ∧ mulmod? a b n = some (mulmod a b n)
    ∧ (mulmod a b n).toNat = (if n = 0 then 0 else a.toNat * b.toNat % n.toNat) := by
  refine ⟨addmod?_eq a b n, ?_, mulmod?_eq a b n, ?_⟩
  · split
    · next hn => rw [addmod, if_pos hn]; rfl
    · next hn => exact toNat_addmod a b hn
  · split
    · next hn => rw [mulmod, if_pos hn]; rfl
    · next hn => exact toNat_mulmod a b hn

/-! ## Powers -/

/-- What the loop of a power works on. -/
structure Powering where
  result : Word
  base : Word
  /-- The part of the exponent that is left. -/
  exponent : Word
  deriving DecidableEq, Repr

namespace Powering

/-- One turn of the loop. -/
def turn (p : Powering) : Powering where
  result := if p.exponent &&& 1 = 1 then p.result * p.base else p.result
  base := p.base * p.base
  exponent := p.exponent >>> 1

/-- The loop ends with a result, after a number of turns. -/
inductive Ends : Nat → Powering → Word → Prop where
  | done {p : Powering} (nothing : p.exponent = 0) : Ends 0 p p.result
  | turn {k : Nat} {p : Powering} {r : Word} (something : p.exponent ≠ 0)
      (onwards : Ends k p.turn r) : Ends (k + 1) p r

theorem toNat_exponent_turn (p : Powering) : p.turn.exponent.toNat = p.exponent.toNat / 2 := by
  rw [turn, BitVec.toNat_ushiftRight, Nat.shiftRight_one]

/-- The lowest bit of the exponent tells whether it is odd. -/
theorem and_one_eq_one_iff (e : Word) : e &&& 1 = 1 ↔ e.toNat % 2 = 1 := by
  rw [← BitVec.toNat_inj, BitVec.toNat_and, show (1 : Word).toNat = 1 from rfl,
    Nat.and_one_is_mod]

/-- A turn leaves the power that is to be computed as it is. -/
theorem mulPow_turn {p : Powering} (h : p.exponent ≠ 0) :
    mulPow p.turn.result p.turn.base p.turn.exponent.toNat
      = mulPow p.result p.base p.exponent.toNat := by
  have hpos := toNat_pos h
  rw [mulPow.eq_def p.result, if_neg (by omega), toNat_exponent_turn]
  simp only [turn, and_one_eq_one_iff]

/-- Halving takes off one binary digit. -/
theorem size_exponent_turn {p : Powering} (h : p.exponent ≠ 0) :
    p.exponent.toNat.size = p.turn.exponent.toNat.size + 1 := by
  have hpos := toNat_pos h
  rw [toNat_exponent_turn]
  conv_lhs => rw [← Nat.bit_bodd_div2 p.exponent.toNat]
  rw [Nat.size_bit (by rw [Nat.bit_bodd_div2]; omega), Nat.div2_val]

theorem ends_mulPow (p : Powering) :
    Ends p.exponent.toNat.size p (mulPow p.result p.base p.exponent.toNat) := by
  induction hleft : p.exponent.toNat using Nat.strongRecOn generalizing p with
  | ind left ih =>
    by_cases hzero : p.exponent = 0
    · have hnone : left = 0 := by rw [← hleft, hzero]; rfl
      rw [hnone, Nat.size_zero, mulPow, if_pos rfl]
      exact .done hzero
    · have hpos := toNat_pos hzero
      have hhalf : p.turn.exponent.toNat < left := by
        rw [toNat_exponent_turn]
        omega
      rw [← hleft, size_exponent_turn hzero, ← mulPow_turn hzero]
      exact .turn hzero (ih _ hhalf p.turn rfl)

/-- The loop ends in one way only. -/
theorem Ends.unique {k k' : Nat} {p : Powering} {r r' : Word} (h : Ends k p r)
    (h' : Ends k' p r') : k = k' ∧ r = r' := by
  induction h generalizing k' with
  | done nothing =>
    cases h' with
    | done _ => exact ⟨rfl, rfl⟩
    | turn something _ => exact absurd nothing something
  | turn something _ ih =>
    cases h' with
    | done nothing => exact absurd nothing something
    | turn _ onwards' =>
      obtain ⟨rfl, rfl⟩ := ih onwards'
      exact ⟨rfl, rfl⟩

theorem ends_iff {k : Nat} {p : Powering} {r : Word} :
    Ends k p r
      ↔ k = p.exponent.toNat.size ∧ r = mulPow p.result p.base p.exponent.toNat := by
  constructor
  · intro h
    exact h.unique (ends_mulPow p)
  · rintro ⟨rfl, rfl⟩
    exact ends_mulPow p

end Powering

/-- The loop of a power ends, after as many turns as the exponent has binary digits and so after
    at most 256 of them, and its result is the power modulo the number of words. -/
theorem exp_exact (a e : Word) :
    (∀ k r, Powering.Ends k ⟨1, a, e⟩ r ↔ k = e.toNat.size ∧ r = exp a e)
    ∧ e.toNat.size ≤ 256
    ∧ (exp a e).toNat = a.toNat ^ e.toNat % 2 ^ 256
    ∧ exp 0 0 = 1 := by
  refine ⟨fun k r => Powering.ends_iff, Nat.size_le.2 e.isLt, toNat_exp a e, ?_⟩
  apply BitVec.eq_of_toNat_eq
  rw [toNat_exp]
  rfl

end HuffTrace.Word
