/-
  HuffTrace.Proofs.Word.Signed

  The signed operations over the two's complement values `toInt` of words.
  Quotients are truncated toward zero and wrap in a single case, the least word
  by minus one; remainders follow the dividend.  Shifts and byte indices are
  whole words, so the statements about them hold for amounts far beyond the
  width as well.
-/

import HuffTrace.Proofs.Word.Arithmetic
import Mathlib.Data.Rat.Floor

namespace HuffTrace.Word

theorem toInt_ne_zero {b : Word} (h : b ≠ 0) : b.toInt ≠ 0 := by
  intro hzero
  exact h (BitVec.eq_of_toInt_eq (hzero.trans BitVec.toInt_zero.symm))

/-! ## Division -/

/-- The quotient is the truncated one, modulo the number of words. -/
theorem toNat_sdiv (a b : Word) :
    ((sdiv a b).toNat : Int) = a.toInt.tdiv b.toInt % 2 ^ 256 := by
  rw [sdiv_eq_ofInt, BitVec.toNat_ofInt]
  exact Int.toNat_of_nonneg (Int.emod_nonneg _ (by decide))

theorem toInt_smod (a : Word) {b : Word} (hb : b ≠ 0) :
    (smod a b).toInt = a.toInt.tmod b.toInt := by
  rw [smod, if_neg hb, BitVec.toInt_srem]

/-- A truncated remainder is zero or has the sign of the dividend. -/
theorem sign_tmod_or (n d : Int) : n.tmod d = 0 ∨ (n.tmod d).sign = n.sign := by
  rw [Int.sign_tmod]
  by_cases h : d ∣ n
  · exact .inl (Int.tmod_eq_zero_of_dvd h)
  · exact .inr (if_neg h)

theorem natAbs_tmod_lt (n : Int) {d : Int} (hd : d ≠ 0) : (n.tmod d).natAbs < d.natAbs := by
  rw [Int.natAbs_tmod]
  exact Nat.mod_lt _ (Int.natAbs_pos.2 hd)

/-! ## Comparison -/

theorem slt_eq_ite (a b : Word) : slt a b = if a.toInt < b.toInt then 1 else 0 := by
  simp only [slt, ofBool, BitVec.slt_iff_toInt_lt]

theorem sgt_eq_ite (a b : Word) : sgt a b = if b.toInt < a.toInt then 1 else 0 := by
  simp only [sgt, ofBool, BitVec.slt_iff_toInt_lt]

/-! ## Shifts and bytes -/

/-- A quotient by a power of two lies between the dividend and zero or minus one, so it is the
    value of a word where the dividend is. -/
theorem toInt_sar (value shift : Word) :
    (sar value shift).toInt = value.toInt / 2 ^ shift.toNat := by
  have hlow : -2 ^ 255 ≤ value.toInt := BitVec.le_toInt value
  have hhigh : value.toInt < 2 ^ 255 := BitVec.toInt_lt
  have hpow : (1 : Int) ≤ 2 ^ shift.toNat := one_le_pow₀ (by decide)
  rw [sar_eq_ofInt]
  -- The power may be far larger than any word; only that it is at least one is used of it.
  apply BitVec.toInt_ofInt_eq_self (by decide)
  · apply Int.le_ediv_of_mul_le (by omega)
    calc -2 ^ (256 - 1) * 2 ^ shift.toNat
        ≤ -2 ^ (256 - 1) * 1 := Int.mul_le_mul_of_nonpos_left (by decide) hpow
      _ ≤ value.toInt := by omega
  · apply Int.ediv_lt_of_lt_mul (by omega)
    calc value.toInt
        < 2 ^ (256 - 1) * 1 := by omega
      _ ≤ 2 ^ (256 - 1) * 2 ^ shift.toNat := Int.mul_le_mul_of_nonneg_left hpow (by decide)

theorem toInt_signextend (value : Word) {index : Word} (h : index.toNat < 31) :
    (signextend value index).toInt = (value.setWidth (8 * (index.toNat + 1))).toInt := by
  rw [signextend_eq_signExtend h, BitVec.toInt_signExtend_of_le (by omega)]

theorem signextend_of_le (value : Word) {index : Word} (h : 31 ≤ index.toNat) :
    signextend value index = value := by
  rw [signextend, if_neg (by unfold byteCount; omega)]

/-! ## All signed operations -/

/-- The signed operations are those of the two's complement values, for all words: division
    truncates toward zero and wraps where the quotient is the value of no word, the remainder
    has the sign of the dividend, comparisons are those of the values, an arithmetic shift
    rounds down however large its amount, and sign extension reads the low bytes through the
    indexed one as a number of their own. -/
theorem signed_exact (a b : Word) :
    (if b = 0 then sdiv a b = 0 ∧ smod a b = 0
      else ∃ q r : Int, q = a.toInt.tdiv b.toInt ∧ a.toInt = b.toInt * q + r
        ∧ ((sdiv a b).toNat : Int) = q % 2 ^ 256
        ∧ (smod a b).toInt = r ∧ (r = 0 ∨ r.sign = a.toInt.sign) ∧ r.natAbs < b.toInt.natAbs)
    ∧ sdiv (BitVec.intMin 256) (-1) = BitVec.intMin 256
    ∧ slt a b = (if a.toInt < b.toInt then 1 else 0)
    ∧ sgt a b = (if b.toInt < a.toInt then 1 else 0)
    ∧ (∀ shift : Word, (sar a shift).toInt = ⌊(a.toInt : ℚ) / (2 ^ shift.toNat : ℕ)⌋)
    ∧ (∀ index : Word,
        if index.toNat < 31 then
          (signextend a index).toInt = (a.setWidth (8 * (index.toNat + 1))).toInt
        else signextend a index = a) := by
  refine ⟨?_, by decide, slt_eq_ite a b, sgt_eq_ite a b, ?_, ?_⟩
  · split
    · next hb => exact ⟨by rw [sdiv, if_pos hb], by rw [smod, if_pos hb]⟩
    · next hb =>
      refine ⟨_, _, rfl, (Int.mul_tdiv_add_tmod _ _).symm, toNat_sdiv a b, toInt_smod a hb,
        sign_tmod_or _ _, natAbs_tmod_lt _ (toInt_ne_zero hb)⟩
  · intro shift
    rw [toInt_sar, Rat.floor_intCast_div_natCast]
    norm_cast
  · intro index
    split
    · next h => exact toInt_signextend a h
    · next h => exact signextend_of_le a (by omega)

end HuffTrace.Word
