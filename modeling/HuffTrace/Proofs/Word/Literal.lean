/-
  HuffTrace.Proofs.Word.Literal

  The number that a literal writes, said without any bound on it: the digits
  after a hexadecimal mark in base sixteen, and those of an unmarked text in
  base ten.  A text is read as a word exactly if it writes a number below the
  bound, and the word is this number (`parse_eq_ok_iff`).  Words and bytes that
  are written in hexadecimal are read back.
-/

import HuffTrace.Proofs.Text.Decimal
import HuffTrace.Text.Hex
import HuffTrace.Word.Literal
import Mathlib.Data.List.Induction
import Mathlib.Data.Nat.Digits.Defs

namespace HuffTrace.Word

/-- The number that digits write in a base, most significant first, if there is a digit and
    all of them are digits of the base. -/
def digitsValue? (base : Nat) (digits : List Char) : Option Nat :=
  if digits = [] then none
  else (digits.mapM (Text.digit? base)).map fun values => Nat.ofDigits base values.reverse

/-- The number that a text writes. -/
def numeral? (text : String) : Option Nat :=
  match hexDigits? text.toList with
  | some digits => digitsValue? 16 digits
  | none => digitsValue? 10 text.toList

theorem ofDigits_reverse_cons (base d : Nat) (values : List Nat) :
    Nat.ofDigits base (d :: values).reverse
      = base ^ values.length * d + Nat.ofDigits base values.reverse := by
  rw [List.reverse_cons, Nat.ofDigits_append, Nat.ofDigits_singleton, List.length_reverse]
  omega

/-- Digits that are read extend the value read before them. -/
theorem mapM_digit?_of_readDigits {base : Nat} {text : String} {value index : Nat}
    {cs : List Char} {w : Word} (hvalue : value < bound)
    (h : readDigits base text value index cs = .ok w) :
    ∃ values, cs.mapM (Text.digit? base) = some values
      ∧ w.toNat = base ^ values.length * value + Nat.ofDigits base values.reverse := by
  induction cs generalizing value index with
  | nil =>
    cases h
    refine ⟨[], rfl, ?_⟩
    rw [BitVec.toNat_ofNat, Nat.mod_eq_of_lt (show value < 2 ^ 256 from hvalue)]
    simp
  | cons c cs ih =>
    rw [readDigits] at h
    cases hd : Text.digit? base c with
    | none => simp [hd] at h
    | some d =>
      simp only [hd] at h
      split at h
      · next hnext =>
        obtain ⟨values, hvalues, hw⟩ := ih hnext h
        refine ⟨d :: values, ?_, ?_⟩
        · rw [List.mapM_cons, hd]
          simp [hvalues]
        · rw [hw, ofDigits_reverse_cons, List.length_cons, pow_succ, Nat.mul_add]
          ring
      · exact absurd h (by simp)

theorem digitsValue?_of_readDigits {base : Nat} {text : String} {index : Nat} {cs : List Char}
    {w : Word} (hne : cs ≠ []) (h : readDigits base text 0 index cs = .ok w) :
    digitsValue? base cs = some w.toNat := by
  obtain ⟨values, hvalues, hw⟩ := mapM_digit?_of_readDigits (by decide) h
  rw [digitsValue?, if_neg hne, hvalues, hw]
  simp

/-- A literal that is read as a word writes the number of that word. -/
theorem numeral?_of_parse {text : String} {w : Word} (h : parse text = .ok w) :
    numeral? text = some w.toNat := by
  rw [parse] at h
  rw [numeral?]
  cases hhex : hexDigits? text.toList with
  | some digits =>
    rw [hhex, Option.isSome_some, if_pos rfl, ofHex, hhex] at h
    cases digits with
    | nil => exact absurd h (by simp)
    | cons d ds => exact digitsValue?_of_readDigits (by simp) h
  | none =>
    rw [hhex, Option.isSome_none, if_neg (by simp), ofDecimal] at h
    split at h
    · exact absurd h (by simp)
    · next hne => exact digitsValue?_of_readDigits (by simpa using hne) h

/-! ## Numbers below the bound -/

/-- Digits whose number stays below the bound are all read, since the value read so far never
    exceeds that number. -/
theorem readDigits_of_mapM {base : Nat} (hbase : 0 < base) (text : String) (value index : Nat)
    {cs : List Char} {values : List Nat} (hvalues : cs.mapM (Text.digit? base) = some values)
    (hbound : base ^ values.length * value + Nat.ofDigits base values.reverse < bound) :
    readDigits base text value index cs
      = .ok (BitVec.ofNat 256 (base ^ values.length * value
          + Nat.ofDigits base values.reverse)) := by
  induction cs generalizing value index values with
  | nil =>
    obtain rfl : [] = values := Option.some.inj hvalues
    simp [readDigits]
  | cons c cs ih =>
    rw [List.mapM_cons] at hvalues
    obtain ⟨d, hd, hrest⟩ := Option.bind_eq_some_iff.1 hvalues
    obtain ⟨values', hvalues', hcons⟩ := Option.bind_eq_some_iff.1 hrest
    obtain rfl : d :: values' = values := Option.some.inj hcons
    have hsplit : base ^ (d :: values').length * value + Nat.ofDigits base (d :: values').reverse
        = base ^ values'.length * (base * value + d) + Nat.ofDigits base values'.reverse := by
      rw [ofDigits_reverse_cons, List.length_cons, pow_succ]
      ring
    rw [hsplit] at hbound ⊢
    have hnext : base * value + d < bound := by
      have hone : 1 * (base * value + d) ≤ base ^ values'.length * (base * value + d) :=
        Nat.mul_le_mul_right _ (Nat.pow_pos hbase)
      omega
    rw [readDigits, hd]
    simp only [if_pos hnext]
    exact ih _ _ hvalues' hbound

theorem readDigits_of_digitsValue? {base : Nat} (hbase : 0 < base) (text : String) (index : Nat)
    {n : Nat} {cs : List Char} (h : digitsValue? base cs = some n) (hbound : n < bound) :
    cs ≠ [] ∧ readDigits base text 0 index cs = .ok (BitVec.ofNat 256 n) := by
  unfold digitsValue? at h
  split at h
  · cases h
  · next hne =>
    obtain ⟨values, hvalues, rfl⟩ := Option.map_eq_some_iff.1 h
    refine ⟨hne, ?_⟩
    have hread := readDigits_of_mapM hbase text 0 index hvalues (by simpa using hbound)
    simpa using hread

/-- A text that writes a number below the bound is read. -/
theorem parse_of_numeral? {text : String} {n : Nat} (h : numeral? text = some n)
    (hbound : n < bound) : parse text = .ok (BitVec.ofNat 256 n) := by
  rw [numeral?] at h
  rw [parse]
  cases hhex : hexDigits? text.toList with
  | some digits =>
    rw [hhex] at h
    obtain ⟨hne, hread⟩ := readDigits_of_digitsValue? (by decide) text 2 h hbound
    obtain ⟨d, ds, rfl⟩ := List.exists_cons_of_ne_nil hne
    rw [Option.isSome_some, if_pos rfl, ofHex, hhex]
    exact hread
  | none =>
    rw [hhex] at h
    obtain ⟨hne, hread⟩ := readDigits_of_digitsValue? (by decide) text 0 h hbound
    rw [Option.isSome_none, if_neg Bool.false_ne_true, ofDecimal,
      if_neg (by simpa using hne)]
    exact hread

/-- A text is read as a word exactly if it writes the number of that word. -/
theorem parse_eq_ok_iff {text : String} {w : Word} :
    parse text = .ok w ↔ numeral? text = some w.toNat := by
  constructor
  · exact numeral?_of_parse
  · intro h
    rw [parse_of_numeral? h w.isLt, BitVec.ofNat_toNat, BitVec.setWidth_eq]

/-! ## Writing in hexadecimal -/

/-- The number that digits write, zero if there is none. -/
def reading? (base : Nat) (cs : List Char) : Option Nat :=
  (cs.mapM (Text.digit? base)).map fun values => Nat.ofDigits base values.reverse

theorem digitsValue?_eq_reading? {base : Nat} {cs : List Char} (h : cs ≠ []) :
    digitsValue? base cs = reading? base cs := by
  rw [digitsValue?, if_neg h, reading?]

/-- One more digit at the end. -/
theorem reading?_snoc {base n d : Nat} {cs : List Char} {c : Char}
    (hcs : reading? base cs = some n) (hc : Text.digit? base c = some d) :
    reading? base (cs ++ [c]) = some (base * n + d) := by
  obtain ⟨values, hvalues, rfl⟩ := Option.map_eq_some_iff.1 hcs
  have hmap : (cs ++ [c]).mapM (Text.digit? base) = some (values ++ [d]) := by
    simp [List.mapM_append, hvalues, hc]
  rw [reading?, hmap, Option.map_some, List.reverse_append, List.reverse_singleton,
    List.singleton_append, Nat.ofDigits_cons, Nat.add_comm]

theorem reading?_toDigits {base : Nat} (htwo : 1 < base) (hbase : base ≤ 16) (n : Nat) :
    reading? base (Nat.toDigits base n) = some n := by
  induction n using Nat.strongRecOn with
  | ind n ih =>
    by_cases hsmall : n < base
    · rw [Nat.toDigits_of_lt_base hsmall]
      have hfirst : reading? base ([] ++ [n.digitChar]) = some (base * 0 + n) :=
        reading?_snoc rfl (Text.digit?_digitChar hbase hsmall)
      rwa [Nat.mul_zero, Nat.zero_add] at hfirst
    · have hpos : 0 < n := by omega
      have hlast : n % base < base := Nat.mod_lt n (by omega)
      rw [Nat.toDigits_of_base_le htwo (by omega),
        reading?_snoc (ih (n / base) (Nat.div_lt_self hpos htwo))
          (Text.digit?_digitChar hbase hlast),
        Nat.div_add_mod]

theorem reading?_hexBytes (bytes : List UInt8) :
    reading? 16 (Text.hexBytes bytes)
      = some (bytes.foldl (fun value b => 256 * value + b.toNat) 0) := by
  induction bytes using List.reverseRecOn with
  | nil => rfl
  | append_singleton bytes b ih =>
    have hhigh : b.toNat / 16 < 16 := by
      have := b.toNat_lt
      omega
    have hlow : b.toNat % 16 < 16 := Nat.mod_lt _ (by decide)
    have htwo := reading?_snoc (reading?_snoc ih (Text.digit?_digitChar (Nat.le_refl 16) hhigh))
      (Text.digit?_digitChar (Nat.le_refl 16) hlow)
    have hsplit : Text.hexBytes (bytes ++ [b])
        = Text.hexBytes bytes ++ [(b.toNat / 16).digitChar] ++ [(b.toNat % 16).digitChar] := by
      simp [Text.hexBytes, Text.hexByte]
    rw [hsplit, htwo, List.foldl_append, List.foldl_cons, List.foldl_nil]
    congr 1
    omega

/-- Digits after the hexadecimal mark are read in base sixteen. -/
theorem numeral?_ofList {digits : List Char} (h : digits ≠ []) :
    numeral? (.ofList ('0' :: 'x' :: digits)) = reading? 16 digits := by
  rw [numeral?, String.toList_ofList, ← digitsValue?_eq_reading? h]
  rfl

theorem foldl_lt_pow (bytes : List UInt8) :
    bytes.foldl (fun value b => 256 * value + b.toNat) 0 < 256 ^ bytes.length := by
  induction bytes using List.reverseRecOn with
  | nil => decide
  | append_singleton bytes b ih =>
    have hlt := b.toNat_lt
    rw [List.foldl_append, List.foldl_cons, List.foldl_nil, List.length_append,
      List.length_singleton, pow_succ]
    omega

/-- Every word is read back from its hexadecimal form. -/
theorem parse_toHex (w : Word) : parse w.toHex = .ok w := by
  rw [parse_eq_ok_iff, toHex, numeral?_ofList Nat.toDigits_ne_nil,
    reading?_toDigits (by decide) (by decide)]

/-- Bytes written in hexadecimal are read as the word that they write. -/
theorem parse_hexBytes {bytes : List UInt8} (hne : bytes ≠ []) (hfits : bytes.length ≤ byteCount) :
    parse (.ofList ('0' :: 'x' :: Text.hexBytes bytes)) = .ok (ofBytes bytes) := by
  have hdigits : Text.hexBytes bytes ≠ [] := by
    obtain ⟨b, rest, rfl⟩ := List.exists_cons_of_ne_nil hne
    simp [Text.hexBytes, Text.hexByte]
  have hlt : bytes.foldl (fun value b => 256 * value + b.toNat) 0 < bound :=
    calc bytes.foldl (fun value b => 256 * value + b.toNat) 0
        < 256 ^ bytes.length := foldl_lt_pow bytes
      _ ≤ 256 ^ byteCount := Nat.pow_le_pow_right (by decide) hfits
      _ = bound := by decide
  exact parse_of_numeral? ((numeral?_ofList hdigits).trans (reading?_hexBytes bytes)) hlt

end HuffTrace.Word
