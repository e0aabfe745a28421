/-
  HuffTrace.Proofs.Json.Escape

  Escaped texts.  Whatever characters a text has, its escaped form ends at the
  quote that is put after it (`readBody?_escape`) and stands for the text
  (`unescape?_escape`).  Both are shown one character at a time: what a character
  is escaped to is read on its own, whatever follows.
-/

import HuffTrace.Json.Parser
import HuffTrace.Proofs.Text.Decimal

namespace HuffTrace.Json

/-! ## Control characters -/

theorem isHexDigit_digitChar {d : Nat} (h : d < 16) : Text.isHexDigit d.digitChar = true := by
  rw [Text.isHexDigit, Text.digit?_digitChar (Nat.le_refl 16) h]
  rfl

/-- The code unit of a control character is its number. -/
theorem codeUnit?_control {c : Char} (h : c.toNat < 0x20) :
    codeUnit? '0' '0' (Nat.digitChar (c.toNat / 16)) (Nat.digitChar (c.toNat % 16))
      = some c.toNat := by
  have hzero : Text.digit? 16 '0' = some 0 := by decide
  rw [codeUnit?, hzero, Text.digit?_digitChar (Nat.le_refl 16) (by omega),
    Text.digit?_digitChar (Nat.le_refl 16) (by omega)]
  simp only [Option.bind_eq_bind, Option.bind_some, Option.pure_def, Option.some.injEq]
  omega

/-! ## Letters after a backslash -/

section Letter

variable {letter c : Char} (h : unescapeLetter? letter = some c)
include h

theorem ne_u_of_unescapeLetter? : letter ≠ 'u' := by
  rintro rfl
  cases h

theorem readBody?_letter (more : List Char) :
    readBody? ('\\' :: letter :: more)
      = (readBody? more).map fun (body, rest) => ('\\' :: letter :: body, rest) := by
  have hu := ne_u_of_unescapeLetter? h
  rw [readBody?, if_pos (by rw [h]; rfl)]
  intro _ _ _ _ _ heq
  exact absurd heq hu

theorem unescape?_letter (more : List Char) :
    unescape? ('\\' :: letter :: more) = (unescape? more).map (c :: ·) := by
  have hu := ne_u_of_unescapeLetter? h
  rw [unescape?, h]
  · rfl
  · intro _ _ _ _ _ heq
    exact absurd heq hu

end Letter

/-! ## Single characters -/

/-- A character is escaped by a backslash and a letter, by its number, or not at all. -/
theorem escapeChar_cases (c : Char) :
    (∃ letter, escapeChar c = ['\\', letter] ∧ unescapeLetter? letter = some c)
    ∨ (c.toNat < 0x20 ∧ escapeChar c
      = ['\\', 'u', '0', '0', Nat.digitChar (c.toNat / 16), Nat.digitChar (c.toNat % 16)])
    ∨ (c ≠ '"' ∧ c ≠ '\\' ∧ 0x20 ≤ c.toNat ∧ escapeChar c = [c]) := by
  unfold escapeChar
  split
  · exact .inl ⟨'"', rfl, by simp_all [unescapeLetter?]⟩
  split
  · exact .inl ⟨'\\', rfl, by simp_all [unescapeLetter?]⟩
  split
  · exact .inl ⟨'b', rfl, by simp_all [unescapeLetter?]⟩
  split
  · exact .inl ⟨'f', rfl, by simp_all [unescapeLetter?]⟩
  split
  · exact .inl ⟨'n', rfl, by simp_all [unescapeLetter?]⟩
  split
  · exact .inl ⟨'r', rfl, by simp_all [unescapeLetter?]⟩
  split
  · exact .inl ⟨'t', rfl, by simp_all [unescapeLetter?]⟩
  split
  · next hcontrol => exact .inr (.inl ⟨hcontrol, rfl⟩)
  · next hquote hbackslash _ _ _ _ _ hcontrol =>
    exact .inr (.inr ⟨hquote, hbackslash, Nat.le_of_not_lt hcontrol, rfl⟩)

theorem readBody?_escapeChar (c : Char) (more : List Char) :
    readBody? (escapeChar c ++ more)
      = (readBody? more).map fun (body, rest) => (escapeChar c ++ body, rest) := by
  rcases escapeChar_cases c with ⟨letter, hescape, hletter⟩ | ⟨hcontrol, hescape⟩
    | ⟨hquote, hbackslash, hprintable, hescape⟩
  · rw [hescape]
    exact readBody?_letter hletter more
  · have hdigits : ['0', '0', Nat.digitChar (c.toNat / 16), Nat.digitChar (c.toNat % 16)].all
        Text.isHexDigit = true := by
      simp [isHexDigit_digitChar (show c.toNat / 16 < 16 by omega),
        isHexDigit_digitChar (show c.toNat % 16 < 16 by omega), show Text.isHexDigit '0' by decide]
    rw [hescape]
    show readBody? ('\\' :: 'u' :: '0' :: '0' :: _ :: _ :: more) = _
    rw [readBody?, if_pos hdigits]
    rfl
  · rw [hescape]
    show readBody? (c :: more) = _
    rw [readBody?, if_neg (by simp [hbackslash, hprintable])]
    · rfl
    · exact hquote
    all_goals
      intros
      contradiction

theorem unescape?_escapeChar (c : Char) (more : List Char) :
    unescape? (escapeChar c ++ more) = (unescape? more).map (c :: ·) := by
  rcases escapeChar_cases c with ⟨letter, hescape, hletter⟩ | ⟨hcontrol, hescape⟩
    | ⟨hquote, hbackslash, hprintable, hescape⟩
  · rw [hescape]
    exact unescape?_letter hletter more
  · have hhigh : isHighSurrogate c.toNat = false := by
      simp only [isHighSurrogate, Bool.and_eq_false_iff, decide_eq_false_iff_not]
      omega
    have hlow : isLowSurrogate c.toNat = false := by
      simp only [isLowSurrogate, Bool.and_eq_false_iff, decide_eq_false_iff_not]
      omega
    rw [hescape]
    show unescape? ('\\' :: 'u' :: '0' :: '0' :: _ :: _ :: more) = _
    rw [unescape?, codeUnit?_control hcontrol]
    simp [hhigh, hlow]
  · rw [hescape]
    show unescape? (c :: more) = _
    rw [unescape?]
    all_goals
      intros
      contradiction

/-! ## Texts -/

/-- An escaped text ends at the first quote that is not part of it. -/
theorem readBody?_escape (text : String) (rest : List Char) :
    readBody? (escape text ++ '"' :: rest) = some (escape text, rest) := by
  rw [escape]
  induction text.toList with
  | nil => rfl
  | cons c cs ih => rw [List.flatMap_cons, List.append_assoc, readBody?_escapeChar, ih]; rfl

/-- An escaped text stands for the text. -/
theorem unescape?_escape (text : String) : unescape? (escape text) = some text.toList := by
  rw [escape]
  induction text.toList with
  | nil => rfl
  | cons c cs ih => rw [List.flatMap_cons, unescape?_escapeChar, ih]; rfl

theorem toString?_ofString (text : String) : (ofString text).toString? = some text := by
  rw [ofString, toString?, unescape?_escape, Option.map_some, String.ofList_toList]

end HuffTrace.Json
