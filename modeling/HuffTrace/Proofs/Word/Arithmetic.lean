/-
  HuffTrace.Proofs.Word.Arithmetic

  The word operations over unbounded integers.  Each operation of
  `HuffTrace.Word.Basic` is written here as the word of an integer expression:
  of the natural values `toNat` for the unsigned operations, and of the two's
  complement values `toInt` for the signed ones.

  Two of the operations are loops, and each has one lemma about a turn:
  modular multiplication consumes the second factor bit by bit, and powers
  square the base while they halve the exponent.
-/

import HuffTrace.Word.Basic
import Mathlib.Data.Nat.ModEq
import Mathlib.Tactic.Ring

namespace HuffTrace.Word

/-! ## Modular arithmetic -/

theorem toNat_pos {n : Word} (hn : n ≠ 0) : 0 < n.toNat := by
  rcases Nat.eq_zero_or_pos n.toNat with h | h
  · exact absurd (BitVec.eq_of_toNat_eq (by simpa using h)) hn
  · exact h

/-- Of two reduced operands, the sum reduces by at most one subtraction. -/
theorem mod_add_of_lt {x y n : Nat} (hx : x < n) (hy : y < n) :
    (x + y) % n = if n - y ≤ x then x - (n - y) else x + y := by
  split
  · next h =>
    rw [Nat.mod_eq_sub_mod (by omega), Nat.mod_eq_of_lt (by omega)]
    omega
  · next h => exact Nat.mod_eq_of_lt (by omega)

/-- Modular addition is exact, although it never adds beyond the modulus. -/
theorem toNat_addmod (a b : Word) {n : Word} (hn : n ≠ 0) :
    (addmod a b n).toNat = (a.toNat + b.toNat) % n.toNat := by
  have hx : a.toNat % n.toNat < n.toNat := Nat.mod_lt _ (toNat_pos hn)
  have hy : b.toNat % n.toNat < n.toNat := Nat.mod_lt _ (toNat_pos hn)
  have hgap : (n - b % n).toNat = n.toNat - b.toNat % n.toNat := by
    rw [BitVec.toNat_sub_of_le (by rw [BitVec.le_def, BitVec.toNat_umod]; omega),
      BitVec.toNat_umod]
  have hlt := n.isLt
  rw [addmod, if_neg hn, Nat.add_mod, mod_add_of_lt hx hy]
  simp only [BitVec.le_def, hgap, BitVec.toNat_umod]
  split
  · next h =>
    rw [BitVec.toNat_sub_of_le (by rw [BitVec.le_def, hgap, BitVec.toNat_umod]; exact h),
      hgap, BitVec.toNat_umod]
  · next h =>
    rw [BitVec.toNat_add, BitVec.toNat_umod, BitVec.toNat_umod, Nat.mod_eq_of_lt (by omega)]

/-- One bit more at the low end doubles a number and adds the bit. -/
theorem shiftRight_eq_double_add (y : Word) (i : Nat) :
    y.toNat >>> i = 2 * (y.toNat >>> (i + 1)) + (if y.getLsbD i then 1 else 0) := by
  rw [Nat.shiftRight_succ, ← BitVec.testBit_toNat, Nat.testBit_eq_decide_div_mod_eq,
    Nat.shiftRight_eq_div_pow]
  simp only [decide_eq_true_eq]
  split <;> omega

/-- The loop of the modular product: with the bits of `y` from `i` on consumed, the
    accumulator is the product of `x` with what these bits write. -/
theorem toNat_mulmod_foldr (x y : Word) {n : Word} (hn : n ≠ 0) (len i : Nat)
    (hi : i + len = 256) :
    ((List.range' i len).foldr
      (fun bit acc =>
        let doubled := addmod acc acc n
        if y.getLsbD bit then addmod doubled x n else doubled) 0).toNat
      = x.toNat * (y.toNat >>> i) % n.toNat := by
  induction len generalizing i with
  | zero =>
    have hy : y.toNat >>> i = 0 := by
      rw [Nat.shiftRight_eq_div_pow, Nat.div_eq_of_lt]
      have : i = 256 := by omega
      subst this
      exact y.isLt
    simp [hy]
  | succ len ih =>
    -- One bit more doubles what the higher bits write, and adds the bit.
    rw [List.range'_succ, List.foldr_cons, shiftRight_eq_double_add y i]
    have hacc := ih (i + 1) (by omega)
    simp only
    generalize List.foldr _ (0 : Word) (List.range' (i + 1) len) = acc at hacc ⊢
    generalize y.toNat >>> (i + 1) = q at hacc ⊢
    have hdouble : (acc.toNat + acc.toNat) % n.toNat = (2 * (x.toNat * q)) % n.toNat := by
      rw [hacc, ← Nat.add_mod, two_mul]
    split
    · rw [toNat_addmod _ _ hn, toNat_addmod _ _ hn, hdouble, Nat.mod_add_mod]
      congr 1
      ring
    · rw [toNat_addmod _ _ hn, hdouble]
      congr 1
      ring

/-- Modular multiplication is exact. -/
theorem toNat_mulmod (a b : Word) {n : Word} (hn : n ≠ 0) :
    (mulmod a b n).toNat = a.toNat * b.toNat % n.toNat := by
  have h := toNat_mulmod_foldr (a % n) (b % n) hn 256 0 (by omega)
  rw [mulmod, if_neg hn, List.range_eq_range']
  simp only at h ⊢
  rw [h, Nat.shiftRight_zero, BitVec.toNat_umod, BitVec.toNat_umod, ← Nat.mul_mod]

/-! ## Powers -/

/-- The loop of the power: the product of `result` with the power that is left to compute
    stays the same from turn to turn. -/
theorem toNat_mulPow (result base : Word) (e : Nat) :
    (mulPow result base e).toNat = result.toNat * base.toNat ^ e % 2 ^ 256 := by
  fun_induction mulPow result base e with
  | case1 result base =>
    rw [pow_zero, mul_one, Nat.mod_eq_of_lt result.isLt]
  | case2 result base e he ih =>
    have hsquare : base.toNat ^ e = (base.toNat * base.toNat) ^ (e / 2) * base.toNat ^ (e % 2) := by
      rw [← pow_two, ← pow_mul, ← pow_add, Nat.div_add_mod]
    simp only [dite_eq_ite] at ih
    rw [ih, hsquare, BitVec.toNat_mul]
    split
    · next h =>
      rw [BitVec.toNat_mul, h, pow_one, Nat.mul_mod, ← Nat.pow_mod, Nat.mod_mod]
      rw [← Nat.mul_mod]
      congr 1
      ring
    · next h =>
      have h0 : e % 2 = 0 := by omega
      rw [h0, pow_zero, mul_one, Nat.mul_mod, ← Nat.pow_mod, ← Nat.mul_mod]

theorem toNat_exp (a e : Word) : (exp a e).toNat = a.toNat ^ e.toNat % 2 ^ 256 := by
  rw [exp, toNat_mulPow]
  simp

/-! ## Division -/

theorem div_eq_ofNat (a b : Word) : div a b = BitVec.ofNat 256 (a.toNat / b.toNat) := by
  rw [div]
  split
  · next h => simp [h]
  · apply BitVec.eq_of_toNat_eq
    rw [BitVec.toNat_udiv, BitVec.toNat_ofNat, Nat.mod_eq_of_lt]
    exact Nat.lt_of_le_of_lt (Nat.div_le_self _ _) a.isLt

theorem mod_eq_ofNat (a b : Word) :
    mod a b = if b = 0 then 0 else BitVec.ofNat 256 (a.toNat % b.toNat) := by
  rw [mod, ← BitVec.toNat_umod, BitVec.ofNat_toNat, BitVec.setWidth_eq]

/-- The quotient of the least word by minus one wraps to the least word. -/
theorem sdiv_eq_ofInt (a b : Word) : sdiv a b = BitVec.ofInt 256 (a.toInt.tdiv b.toInt) := by
  rw [sdiv]
  split
  · next h => simp [h]
  · apply BitVec.eq_of_toInt_eq
    rw [BitVec.toInt_sdiv, BitVec.toInt_ofInt]

theorem smod_eq_ofInt (a b : Word) :
    smod a b = if b = 0 then 0 else BitVec.ofInt 256 (a.toInt.tmod b.toInt) := by
  rw [smod, ← BitVec.toInt_srem, BitVec.ofInt_toInt]

/-! ## Shifts and bytes -/

/-- An arithmetic shift is the floor of a division, however large the amount. -/
theorem sar_eq_ofInt (value shift : Word) :
    sar value shift = BitVec.ofInt 256 (value.toInt / 2 ^ shift.toNat) := by
  rw [sar]
  split
  · rw [← BitVec.ofInt_toInt (x := value.sshiftRight shift.toNat), BitVec.toInt_sshiftRight,
      Int.shiftRight_eq_div_pow]
    norm_cast
  · next h =>
    have hlo := BitVec.le_toInt value
    have hhi := BitVec.toInt_lt (x := value)
    have hpow : (2 : Int) ^ 256 ≤ 2 ^ shift.toNat := by
      exact_mod_cast Nat.pow_le_pow_right (by decide) (by omega)
    split
    · next hneg =>
      have hlt : value.toInt < 0 := BitVec.toInt_neg_of_msb_true hneg
      have hq : value.toInt / 2 ^ shift.toNat = -1 := by
        exact Int.ediv_eq_neg_one_of_neg_of_le hlt (by omega)
      rw [hq]
      decide
    · next hneg =>
      have hge : 0 ≤ value.toInt := BitVec.toInt_nonneg_of_msb_false (by simpa using hneg)
      rw [Int.ediv_eq_zero_of_lt hge (by omega)]
      rfl

theorem shl_eq_ofNat (value shift : Word) :
    shl value shift = BitVec.ofNat 256 (value.toNat * 2 ^ shift.toNat) := by
  apply BitVec.eq_of_toNat_eq
  rw [shl, BitVec.toNat_ofNat]
  split
  · rw [BitVec.toNat_shiftLeft, Nat.shiftLeft_eq]
  · next h =>
    obtain ⟨k, hk⟩ := Nat.exists_eq_add_of_le (Nat.le_of_not_lt h)
    rw [hk, pow_add, ← mul_assoc, mul_right_comm, Nat.mul_mod_left]
    rfl

theorem shr_eq_ofNat (value shift : Word) :
    shr value shift = BitVec.ofNat 256 (value.toNat / 2 ^ shift.toNat) := by
  apply BitVec.eq_of_toNat_eq
  have hv := value.isLt
  rw [shr, BitVec.toNat_ofNat, Nat.mod_eq_of_lt (Nat.lt_of_le_of_lt (Nat.div_le_self _ _) hv)]
  split
  · rw [BitVec.toNat_ushiftRight, Nat.shiftRight_eq_div_pow]
  · next h =>
    rw [Nat.div_eq_of_lt]
    · rfl
    · exact Nat.lt_of_lt_of_le hv (Nat.pow_le_pow_right (by decide) (by omega))

theorem byte_eq_ofNat (value index : Word) :
    byte value index
      = if index.toNat < 32 then
          BitVec.ofNat 256 (value.toNat / 256 ^ (31 - index.toNat) % 256)
        else 0 := by
  rw [byte]
  apply ite_congr rfl
  · intro _
    apply BitVec.eq_of_toNat_eq
    have hff : (0xff : Word).toNat = 2 ^ 8 - 1 := rfl
    have hpow : 2 ^ (8 * (byteCount - 1 - index.toNat)) = 256 ^ (31 - index.toNat) := by
      rw [pow_mul]
      rfl
    rw [BitVec.toNat_and, BitVec.toNat_ushiftRight, BitVec.toNat_ofNat, hff,
      Nat.and_two_pow_sub_one_eq_mod, Nat.shiftRight_eq_div_pow, hpow,
      Nat.mod_eq_of_lt (Nat.lt_trans (Nat.mod_lt _ (by decide)) (by decide))]
  · intro _; rfl

/-! ## Sign extension -/

/-- The mask of the low `n` bits. -/
theorem getLsbD_mask {n : Nat} (hn : n < 256) (i : Nat) :
    (((1 <<< n : Nat) : Word) - 1).getLsbD i = decide (i < n) := by
  have hone : ((1 <<< n : Nat) : Word).toNat = 2 ^ n := by
    rw [BitVec.natCast_eq_ofNat, BitVec.toNat_ofNat, Nat.one_shiftLeft]
    exact Nat.mod_eq_of_lt (Nat.pow_lt_pow_right (by decide) hn)
  have hle : (1 : Word) ≤ ((1 <<< n : Nat) : Word) := by
    rw [BitVec.le_def, hone]
    exact Nat.one_le_two_pow
  rw [← BitVec.testBit_toNat, BitVec.toNat_sub_of_le hle, hone]
  exact Nat.testBit_two_pow_sub_one n i

/-- Extending the sign of a byte is cutting the word after it and extending the sign of
    what is left. -/
theorem signextend_eq_signExtend {value index : Word} (h : index.toNat < 31) :
    signextend value index = (value.setWidth (8 * (index.toNat + 1))).signExtend 256 := by
  have hwidth : 8 * (index.toNat + 1) = 8 * index.toNat + 7 + 1 := by omega
  have hmask := fun i => getLsbD_mask (n := 8 * index.toNat + 7 + 1) (by omega) i
  rw [signextend, if_pos (show index.toNat < byteCount - 1 from h), hwidth]
  -- Bit by bit: below the cut the mask keeps the value, above it the sign bit decides.
  apply BitVec.eq_of_getLsbD_eq
  intro i hi
  have hmsb : (value.setWidth (8 * index.toNat + 7 + 1)).msb
      = value.getLsbD (8 * index.toNat + 7) := by
    rw [BitVec.msb_eq_getLsbD_last, BitVec.getLsbD_setWidth]
    simp
  rw [BitVec.getLsbD_signExtend, BitVec.getLsbD_setWidth, hmsb]
  simp only
  generalize ((1 <<< (8 * index.toNat + 7 + 1) : Nat) : Word) - 1 = mask at hmask ⊢
  split
  · next hs =>
    rw [BitVec.getLsbD_or, BitVec.getLsbD_not, hmask, hs]
    by_cases hlow : i < 8 * index.toNat + 7 + 1 <;> simp only [hi, hlow] <;> simp
  · next hs =>
    have hclear : value.getLsbD (8 * index.toNat + 7) = false := by simpa using hs
    rw [BitVec.getLsbD_and, hmask, hclear]
    by_cases hlow : i < 8 * index.toNat + 7 + 1 <;> simp only [hi, hlow] <;> simp

theorem signextend_eq_ofInt (value index : Word) :
    signextend value index
      = if index.toNat < 31 then
          BitVec.ofInt 256 ((value.toNat : Int).bmod (2 ^ (8 * (index.toNat + 1))))
        else value := by
  split
  · next h =>
    rw [signextend_eq_signExtend h, ← BitVec.toInt_setWidth,
      ← BitVec.toInt_signExtend_of_le (v := 256) (by omega), BitVec.ofInt_toInt]
  · next h => rw [signextend, if_neg (show ¬ index.toNat < byteCount - 1 from h)]

end HuffTrace.Word
