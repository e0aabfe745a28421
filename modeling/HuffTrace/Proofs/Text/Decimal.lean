/-
  HuffTrace.Proofs.Text.Decimal

  Natural numbers in decimal.  A text is read as a number exactly if it is the
  decimal form of that number after any number of zeros, with or without a plus
  sign before it (`natural?_eq_some_iff`).
-/

import HuffTrace.Text.Digit
import Mathlib.Data.List.Basic
import Mathlib.Data.List.Induction

namespace HuffTrace.Text

/-! ## Digits -/

theorem digit?_digitChar {base d : Nat} (hbase : base ≤ 16) (h : d < base) :
    digit? base d.digitChar = some d := by
  have hall : ∀ base ≤ 16, ∀ d < base, digit? base (Nat.digitChar d) = some d := by decide
  exact hall base hbase d h

theorem lt_of_digit? {base : Nat} {c : Char} {d : Nat} (h : digit? base c = some d) :
    d < base := by
  unfold digit? at h
  simp only [Option.ite_none_right_eq_some, Option.some.injEq] at h
  omega

theorem digitChar_of_digit? {c : Char} {d : Nat} (h : digit? 10 c = some d) : d.digitChar = c := by
  have hten := lt_of_digit? h
  simp only [digit?, Option.ite_none_right_eq_some, Option.some.injEq] at h
  -- The letters stand for ten and more, so the character is one of the decimal digits.
  have hvalue : 48 + d = c.toNat := by
    split at h
    · next hdecimal =>
      have hlow : 48 ≤ c.toNat := hdecimal.1
      omega
    · split at h
      · next hsmall =>
        have hlow : 97 ≤ c.toNat := hsmall.1
        omega
      · split at h
        · next hcapital =>
          have hlow : 65 ≤ c.toNat := hcapital.1
          omega
        · omega
  apply Char.toNat_inj.1
  rw [Nat.toNat_digitChar_of_lt_ten hten, hvalue]

/-- Only the number zero is written with a leading zero. -/
theorem eq_zero_of_head?_toDigits {base n : Nat} (hbase : 1 < base)
    (h : (Nat.toDigits base n).head? = some '0') : n = 0 := by
  induction n using Nat.strongRecOn with
  | ind n ih =>
    by_cases hsmall : n < base
    · rw [Nat.toDigits_of_lt_base hsmall] at h
      exact Nat.digitChar_eq_zero.1 (Option.some.inj h)
    · rw [Nat.toDigits_of_base_le hbase (by omega),
        List.head?_append_of_ne_nil _ Nat.toDigits_ne_nil] at h
      -- What stands before the last digit is the quotient, and that is not zero.
      have hpos : 0 < n / base := Nat.div_pos (by omega) (by omega)
      have hzero := ih (n / base) (Nat.div_lt_self (by omega) hbase) h
      omega

/-! ## Reading digits -/

theorem readDecimal?_append (value : Nat) (a b : List Char) :
    readDecimal? value (a ++ b) = (readDecimal? value a).bind fun n => readDecimal? n b := by
  induction a generalizing value with
  | nil => rfl
  | cons c a ih =>
    rw [List.cons_append, readDecimal?, readDecimal?]
    cases digit? 10 c with
    | none => rfl
    | some d => exact ih _

/-- Leading zeros do not count. -/
theorem readDecimal?_zeros (zeros : Nat) (cs : List Char) :
    readDecimal? 0 (List.replicate zeros '0' ++ cs) = readDecimal? 0 cs := by
  induction zeros with
  | zero => rfl
  | succ zeros ih => exact ih

theorem readDecimal?_toDigits (n : Nat) : readDecimal? 0 (Nat.toDigits 10 n) = some n := by
  induction n using Nat.strongRecOn with
  | ind n ih =>
    by_cases hsmall : n < 10
    · rw [Nat.toDigits_of_lt_base hsmall, readDecimal?, digit?_digitChar (by decide) hsmall]
      simp [readDecimal?]
    · have hlast : n % 10 < 10 := Nat.mod_lt n (by decide)
      rw [Nat.toDigits_of_base_le (by decide) (by omega), readDecimal?_append,
        ih (n / 10) (by omega), Option.bind_some, readDecimal?,
        digit?_digitChar (by decide) hlast, Option.bind_some, readDecimal?, Nat.div_add_mod]

/-- Digits that are read are the decimal form of their number after zeros. -/
theorem exists_zeros_of_readDecimal? {cs : List Char} {n : Nat} (hne : cs ≠ [])
    (h : readDecimal? 0 cs = some n) :
    ∃ zeros, cs = List.replicate zeros '0' ++ Nat.toDigits 10 n := by
  induction cs using List.reverseRecOn generalizing n with
  | nil => exact absurd rfl hne
  | append_singleton cs c ih =>
    rw [readDecimal?_append] at h
    obtain ⟨m, hm, hlast⟩ := Option.bind_eq_some_iff.1 h
    obtain ⟨d, hd, hn⟩ := Option.bind_eq_some_iff.1 hlast
    obtain rfl : 10 * m + d = n := Option.some.inj hn
    have hlt := lt_of_digit? hd
    obtain rfl := digitChar_of_digit? hd
    by_cases hfirst : cs = []
    · subst hfirst
      obtain rfl : 0 = m := Option.some.inj hm
      refine ⟨0, ?_⟩
      rw [Nat.mul_zero, Nat.zero_add, Nat.toDigits_of_lt_base hlt]
      rfl
    · obtain ⟨zeros, rfl⟩ := ih hfirst hm
      by_cases hzero : m = 0
      · -- All digits so far are zeros, the last one of them the number itself.
        subst hzero
        refine ⟨zeros + 1, ?_⟩
        rw [Nat.mul_zero, Nat.zero_add, Nat.toDigits_of_lt_base hlt, Nat.toDigits_zero,
          List.replicate_succ']
      · refine ⟨zeros, ?_⟩
        rw [← Nat.toDigits_append_toDigits (by decide) (by omega) hlt,
          Nat.toDigits_of_lt_base hlt, List.append_assoc]

/-! ## Numbers below a bound -/

/-- No digit is a plus sign. -/
theorem head?_zeros_ne_plus (zeros n : Nat) :
    (List.replicate zeros '0' ++ Nat.toDigits 10 n).head? ≠ some '+' := by
  intro h
  rcases List.mem_append.1 (List.mem_of_head? h) with hmem | hmem
  · exact absurd (List.mem_replicate.1 hmem).2 (by decide)
  · exact absurd (Nat.isDigit_of_mem_toDigits (by decide) (by decide) hmem) (by decide)

/-- A text is read as a number exactly if it is the decimal form of the number after zeros, or
    that after a plus sign. -/
theorem natural?_eq_some_iff {bound n : Nat} {cs : List Char} :
    natural? bound cs = some n
      ↔ n < bound ∧ ∃ zeros, cs = List.replicate zeros '0' ++ Nat.toDigits 10 n
        ∨ cs = '+' :: (List.replicate zeros '0' ++ Nat.toDigits 10 n) := by
  simp only [natural?, Option.ite_none_left_eq_some, Option.filter_eq_some_iff, decide_eq_true_eq,
    List.isEmpty_iff]
  constructor
  · rintro ⟨hne, hread, hlt⟩
    obtain ⟨zeros, hzeros⟩ := exists_zeros_of_readDecimal? hne hread
    refine ⟨hlt, zeros, ?_⟩
    split at hzeros
    · next hplus =>
      obtain ⟨digits, rfl⟩ := List.head?_eq_some_iff.1 hplus
      exact .inr (congrArg ('+' :: ·) hzeros)
    · exact .inl hzeros
  · rintro ⟨hlt, zeros, hcs⟩
    have hdigits : (if cs.head? = some '+' then cs.tail else cs)
        = List.replicate zeros '0' ++ Nat.toDigits 10 n := by
      rcases hcs with rfl | rfl
      · exact if_neg (head?_zeros_ne_plus zeros n)
      · exact if_pos rfl
    rw [hdigits, readDecimal?_zeros, readDecimal?_toDigits]
    exact ⟨by simp, rfl, hlt⟩

end HuffTrace.Text
