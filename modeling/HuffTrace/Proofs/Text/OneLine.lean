/-
  HuffTrace.Proofs.Text.OneLine

  Texts without a line break: numbers in any base are such texts, and the
  operations that shorten and join texts keep to one line.
-/

import HuffTrace.Text.Abridge
import HuffTrace.Text.Hex
import HuffTrace.Word.Literal
import Mathlib.Data.List.SplitBy

namespace HuffTrace.Text

/-- A text without a line break. -/
def OneLine (text : String) : Prop :=
  '\n' ∉ text.toList

instance (text : String) : Decidable (OneLine text) :=
  inferInstanceAs (Decidable ('\n' ∉ text.toList))

theorem OneLine.append {a b : String} (ha : OneLine a) (hb : OneLine b) : OneLine (a ++ b) := by
  unfold OneLine at ha hb ⊢
  simp [ha, hb]

theorem oneLine_ofList {cs : List Char} (h : '\n' ∉ cs) : OneLine (.ofList cs) := by
  unfold OneLine
  rwa [String.toList_ofList]

theorem oneLine_intercalate {separator : String} (hseparator : OneLine separator)
    {parts : List String} (h : ∀ part ∈ parts, OneLine part) :
    OneLine (separator.intercalate parts) := by
  induction parts with
  | nil =>
    rw [String.intercalate_nil]
    decide
  | cons part parts ih =>
    have hfirst := h part (by simp)
    by_cases hne : parts = []
    · rw [hne, String.intercalate_singleton]
      exact hfirst
    · rw [String.intercalate_cons_of_ne_nil hne]
      exact (hfirst.append hseparator).append (ih fun rest hrest => h rest (by simp [hrest]))

/-! ## Numbers -/

theorem digitChar_ne_newline (n : Nat) : n.digitChar ≠ '\n' := by
  match n with
  | 0 | 1 | 2 | 3 | 4 | 5 | 6 | 7 | 8 | 9 | 10 | 11 | 12 | 13 | 14 | 15 => decide
  | _ + 16 => simp [Nat.digitChar]

theorem newline_not_mem_toDigitsCore {base fuel n : Nat} {digits : List Char}
    (h : '\n' ∉ digits) : '\n' ∉ Nat.toDigitsCore base fuel n digits := by
  induction fuel generalizing n digits with
  | zero => exact h
  | succ fuel ih =>
    have hcons : '\n' ∉ (n % base).digitChar :: digits := by
      intro hmem
      rcases List.mem_cons.1 hmem with heq | hmem
      · exact digitChar_ne_newline _ heq.symm
      · exact h hmem
    rw [Nat.toDigitsCore]
    split
    · exact hcons
    · exact ih hcons

theorem newline_not_mem_toDigits (base n : Nat) : '\n' ∉ Nat.toDigits base n :=
  newline_not_mem_toDigitsCore List.not_mem_nil

theorem oneLine_decimal (n : Nat) : OneLine (decimal n) :=
  oneLine_ofList (newline_not_mem_toDigits 10 n)

theorem oneLine_toHex (w : Word) : OneLine w.toHex := by
  apply oneLine_ofList
  simp [newline_not_mem_toDigits]

theorem newline_not_mem_hexBytes (bytes : List UInt8) : '\n' ∉ hexBytes bytes := by
  intro h
  obtain ⟨b, _, hb⟩ := List.mem_flatMap.1 h
  rcases List.mem_cons.1 hb with heq | hb
  · exact digitChar_ne_newline _ heq.symm
  · exact digitChar_ne_newline _ (List.mem_singleton.1 hb).symm

/-! ## Shortening -/

theorem OneLine.clip {text : String} (h : OneLine text) (limit : Nat) :
    OneLine (clip limit text) := by
  unfold Text.clip
  simp only
  split
  · exact h
  · apply oneLine_ofList
    intro hmem
    rcases List.mem_append.1 hmem with hmem | hmem
    · rcases List.mem_append.1 hmem with hmem | hmem
      · exact h (List.mem_of_mem_take hmem)
      · revert hmem
        decide
    · exact h (List.mem_of_mem_drop hmem)

theorem mem_of_mem_abridgeRun {c : Char} {run : List Char} (h : c ∈ abridgeRun run) :
    c ∈ run ∨ c = '.' := by
  unfold abridgeRun at h
  split at h
  · exact absurd h List.not_mem_nil
  · split at h
    · simp only [List.mem_cons, List.not_mem_nil, or_false] at h ⊢
      obtain h | h | h | h | h | h := h
      all_goals first | exact .inl (.inl h) | exact .inr h
    · exact .inl h

theorem OneLine.abridge {text : String} (h : OneLine text) : OneLine (abridge text) := by
  apply oneLine_ofList
  intro hmem
  obtain ⟨run, hrun, hmem⟩ := List.mem_flatMap.1 hmem
  rcases mem_of_mem_abridgeRun hmem with hmem | hdot
  · apply h
    rw [← List.flatten_splitBy (· == ·) text.toList]
    exact List.mem_flatten.2 ⟨run, hrun, hmem⟩
  · exact absurd hdot (by decide)

end HuffTrace.Text
