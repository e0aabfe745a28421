/-
  HuffTrace.Proofs.Text.Search

  Where a text is found in another one.  A text that lacks some character is
  searched for up to that character and behind it, one after the other.  An
  occurrence that is known bounds the first one from behind.
-/

import HuffTrace.Text.Search
import Mathlib.Data.List.Infix

namespace HuffTrace.Text

variable {needle w : List Char} {c : Char}

/-- A text that does not have a character goes no further than up to that character. -/
theorem isPrefix_append_cons_iff (hc : c ∉ needle) (rest : List Char) :
    needle <+: w ++ c :: rest ↔ needle <+: w := by
  constructor
  · intro h
    rcases List.prefix_or_prefix_of_prefix h (List.prefix_append w (c :: rest)) with h' | ⟨t, rfl⟩
    · exact h'
    · rw [List.prefix_append_right_inj] at h
      cases t with
      | nil => simp
      | cons d t =>
        obtain ⟨rfl, -⟩ := List.cons_prefix_cons.1 h
        simp at hc
  · intro h
    exact h.trans (List.prefix_append w _)

theorem startingAt?_of_isPrefix (hne : needle ≠ []) {cs : List Char} (h : needle <+: cs) :
    startingAt? needle cs = some cs := by
  cases cs with
  | nil => exact absurd (List.prefix_nil.1 h) hne
  | cons d cs => rw [startingAt?, if_pos (List.isPrefixOf_iff_prefix.2 h)]

theorem startingAt?_cons_of_not_isPrefix {cs : List Char} (h : ¬ needle <+: c :: cs) :
    startingAt? needle (c :: cs) = startingAt? needle cs := by
  rw [startingAt?, if_neg fun hpre => h (List.isPrefixOf_iff_prefix.1 hpre)]

/-- An occurrence in the text before a character is found there. -/
theorem startingAt?_of_isInfix (hne : needle ≠ []) (hc : c ∉ needle) (h : needle <:+: w)
    (rest : List Char) :
    ∃ u, u <:+ w ∧ startingAt? needle (w ++ c :: rest) = some (u ++ c :: rest) := by
  induction w with
  | nil => exact absurd (List.infix_nil.1 h) hne
  | cons x w ih =>
    by_cases hpre : needle <+: x :: w
    · refine ⟨x :: w, List.suffix_rfl, ?_⟩
      exact startingAt?_of_isPrefix hne ((isPrefix_append_cons_iff hc rest).2 hpre)
    · have hpast : ¬ needle <+: x :: (w ++ c :: rest) := fun h' =>
        hpre ((isPrefix_append_cons_iff hc rest).1 h')
      obtain ⟨u, hsuffix, hfound⟩ := ih ((List.infix_cons_iff.1 h).resolve_left hpre)
      exact ⟨u, hsuffix.trans (List.suffix_cons x w),
        (startingAt?_cons_of_not_isPrefix hpast).trans hfound⟩

/-- Without an occurrence in the text before a character, the search goes on behind it. -/
theorem startingAt?_of_not_isInfix (hne : needle ≠ []) (hc : c ∉ needle) (h : ¬ needle <:+: w)
    (rest : List Char) : startingAt? needle (w ++ c :: rest) = startingAt? needle rest := by
  induction w with
  | nil =>
    apply startingAt?_cons_of_not_isPrefix
    intro hpre
    exact hne (List.prefix_nil.1 ((isPrefix_append_cons_iff hc rest).1 hpre))
  | cons x w ih =>
    rw [List.infix_cons_iff, not_or] at h
    rw [List.cons_append, startingAt?_cons_of_not_isPrefix, ih h.2]
    intro hpre
    exact h.1 ((isPrefix_append_cons_iff hc rest).1 hpre)

theorem isPrefix_of_startingAt? {cs r : List Char} (h : startingAt? needle cs = some r) :
    needle <+: r := by
  induction cs with
  | nil =>
    rw [startingAt?] at h
    split at h
    · next hempty =>
      rw [List.isEmpty_iff.1 hempty]
      exact List.nil_prefix
    · cases h
  | cons d cs ih =>
    by_cases hpre : needle <+: d :: cs
    · rw [startingAt?, if_pos (List.isPrefixOf_iff_prefix.2 hpre)] at h
      rwa [← Option.some.inj h]
    · rw [startingAt?_cons_of_not_isPrefix hpre] at h
      exact ih h

/-- The first occurrence of a text comes no later than any other, and so what follows it ends with
    what follows the other one. -/
theorem after?_append (hne : needle ≠ []) (front rest : List Char) :
    ∃ between, between ⊆ front ++ needle
      ∧ after? needle (front ++ (needle ++ rest)) = some (between ++ rest) := by
  induction front with
  | nil =>
    refine ⟨[], List.nil_subset _, ?_⟩
    rw [after?, List.nil_append, startingAt?_of_isPrefix hne (List.prefix_append _ _),
      Option.map_some, List.drop_left, List.nil_append]
  | cons x front ih =>
    by_cases hpre : needle <+: x :: (front ++ (needle ++ rest))
    · -- The text is found here, and ends no later than the occurrence that is given.
      have hlength : needle.length ≤ (x :: front ++ needle).length := by
        rw [List.length_append]
        omega
      refine ⟨(x :: front ++ needle).drop needle.length, List.drop_subset _ _, ?_⟩
      rw [after?, List.cons_append, startingAt?_of_isPrefix hne hpre, Option.map_some,
        ← List.drop_append_of_le_length hlength]
      simp
    · obtain ⟨between, hsubset, hfound⟩ := ih
      refine ⟨between, fun y hy => List.mem_cons_of_mem x (hsubset hy), ?_⟩
      rw [after?, List.cons_append, startingAt?_cons_of_not_isPrefix hpre]
      exact hfound

/-- An occurrence is the first one if its first character does not occur before it. -/
theorem after?_append_of_not_mem {front : List Char} (hc : c ∉ front) (needle rest : List Char) :
    after? (c :: needle) (front ++ (c :: needle ++ rest)) = some rest := by
  induction front with
  | nil =>
    rw [after?, List.nil_append,
      startingAt?_of_isPrefix (List.cons_ne_nil c needle) (List.prefix_append _ _),
      Option.map_some, List.drop_left]
  | cons x front ih =>
    rw [List.mem_cons, not_or] at hc
    have hpre : ¬ c :: needle <+: x :: (front ++ (c :: needle ++ rest)) := fun h =>
      hc.1 (List.cons_prefix_cons.1 h).1
    rw [after?, List.cons_append, startingAt?_cons_of_not_isPrefix hpre]
    exact ih hc.2

theorem dropStart?_eq_some_iff {start cs rest : List Char} :
    dropStart? start cs = some rest ↔ cs = start ++ rest := by
  simp only [dropStart?, Option.ite_none_right_eq_some, List.isPrefixOf_iff_prefix,
    Option.some.injEq]
  constructor
  · rintro ⟨⟨t, rfl⟩, rfl⟩
    rw [List.drop_left]
  · rintro rfl
    exact ⟨List.prefix_append _ _, List.drop_left⟩

end HuffTrace.Text
