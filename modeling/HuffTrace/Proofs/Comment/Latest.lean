/-
  HuffTrace.Proofs.Comment.Latest

  The last comment of each line.  Of the comments for a line, the one that is
  kept is the one after which none is recorded for it (`mem_latest_iff`), and
  they are kept in line order (`pairwise_latest`).
-/

import HuffTrace.Comment
import Mathlib.Data.List.Basic
import Mathlib.Data.List.Induction

namespace HuffTrace.Comment

/-! ## Last comments -/

/-- A comment after which none is recorded for its line. -/
def LastForLine (comments : List Comment) (c : Comment) : Prop :=
  ∃ before after, comments = before ++ c :: after ∧ ∀ d ∈ after, d.line ≠ c.line

theorem lastForLine_concat {comments : List Comment} {c d : Comment} :
    LastForLine (comments ++ [c]) d ↔ d = c ∨ LastForLine comments d ∧ d.line ≠ c.line := by
  constructor
  · rintro ⟨before, after, hsplit, hafter⟩
    -- Either `d` is the comment that comes last, or that one is among those after `d`.
    rcases List.eq_nil_or_concat after with rfl | ⟨after, e, rfl⟩
    · obtain ⟨-, hlast⟩ := List.append_inj' hsplit rfl
      exact .inl (List.singleton_inj.1 hlast).symm
    · rw [List.concat_eq_append, ← List.cons_append, ← List.append_assoc] at hsplit
      obtain ⟨rfl, hlast⟩ := List.append_inj' hsplit rfl
      obtain rfl := List.singleton_inj.1 hlast
      exact .inr ⟨⟨before, after, rfl, fun x hx => hafter x (by simp [hx])⟩,
        (hafter c (by simp)).symm⟩
  · rintro (rfl | ⟨⟨before, after, rfl, hafter⟩, hne⟩)
    · exact ⟨comments, [], rfl, nofun⟩
    · refine ⟨before, after ++ [c], by simp, fun x hx => ?_⟩
      rcases List.mem_append.1 hx with hx | hx
      · exact hafter x hx
      · rw [List.mem_singleton.1 hx]
        exact hne.symm

/-- Of the comments for a line, one is the last. -/
theorem exists_lastForLine {comments : List Comment} {c : Comment} (h : c ∈ comments) :
    ∃ d, LastForLine comments d ∧ d.line = c.line := by
  induction comments using List.reverseRecOn with
  | nil => cases h
  | append_singleton comments e ih =>
    by_cases hline : c.line = e.line
    · exact ⟨e, lastForLine_concat.2 (.inl rfl), hline.symm⟩
    · have hmem : c ∈ comments := by
        rcases List.mem_append.1 h with hmem | hmem
        · exact hmem
        · exact absurd (congrArg Comment.line (List.mem_singleton.1 hmem)) hline
      obtain ⟨d, hlast, hd⟩ := ih hmem
      exact ⟨d, lastForLine_concat.2 (.inr ⟨hlast, hd ▸ hline⟩), hd⟩

/-- Which comment is the last for a line does not depend on those for other lines. -/
theorem lastForLine_filter {comments : List Comment} {keep : Comment → Bool} {c : Comment}
    (h : ∀ d : Comment, d.line = c.line → keep d = true) :
    LastForLine (comments.filter keep) c ↔ LastForLine comments c := by
  induction comments using List.reverseRecOn with
  | nil => rfl
  | append_singleton comments d ih =>
    rw [List.filter_append, lastForLine_concat, ← ih]
    by_cases hd : keep d = true
    · rw [List.filter_cons_of_pos hd, List.filter_nil, lastForLine_concat]
    · -- What is left out is for another line.
      have hline : d.line ≠ c.line := fun heq => hd (h d heq)
      have hne : c ≠ d := fun heq => hline (congrArg Comment.line heq).symm
      rw [List.filter_cons_of_neg hd, List.filter_nil, List.append_nil]
      simp [hne, Ne.symm hline]

/-! ## One comment for each line -/

/-- One comment for each line, from the last line to the first. -/
def Descending (kept : List Comment) : Prop :=
  kept.Pairwise fun a b => b.line < a.line

theorem mem_supersede {c d : Comment} {kept : List Comment} (h : Descending kept) :
    d ∈ supersede c kept ↔ d = c ∨ d ∈ kept ∧ d.line ≠ c.line := by
  induction kept with
  | nil => simp [supersede]
  | cons e kept ih =>
    obtain ⟨hbelow, hkept⟩ := List.pairwise_cons.1 h
    rw [supersede]
    split
    · next hlt =>
      rw [List.mem_cons, ih hkept, List.mem_cons]
      constructor
      · rintro (rfl | rfl | hd)
        · exact .inr ⟨.inl rfl, by omega⟩
        · exact .inl rfl
        · exact .inr ⟨.inr hd.1, hd.2⟩
      · rintro (rfl | ⟨rfl | hd, hne⟩)
        · exact .inr (.inl rfl)
        · exact .inl rfl
        · exact .inr (.inr ⟨hd, hne⟩)
    · split
      · next heq =>
        rw [List.mem_cons, List.mem_cons]
        constructor
        · rintro (rfl | hd)
          · exact .inl rfl
          · -- The comment that is replaced was the only one for the line.
            have hlt := hbelow d hd
            exact .inr ⟨.inr hd, by omega⟩
        · rintro (rfl | ⟨rfl | hd, hne⟩)
          · exact .inl rfl
          · exact absurd heq.symm hne
          · exact .inr hd
      · rw [List.mem_cons]
        refine or_congr_right ⟨fun hd => ⟨hd, ?_⟩, And.left⟩
        -- All that is kept stands on earlier lines.
        rcases List.mem_cons.1 hd with rfl | hd
        · omega
        · have hlt := hbelow d hd
          omega

theorem descending_supersede (c : Comment) {kept : List Comment} (h : Descending kept) :
    Descending (supersede c kept) := by
  induction kept with
  | nil => exact List.pairwise_singleton _ _
  | cons e kept ih =>
    obtain ⟨hbelow, hkept⟩ := List.pairwise_cons.1 h
    rw [supersede]
    split
    · next hlt =>
      refine List.pairwise_cons.2 ⟨fun d hd => ?_, ih hkept⟩
      rcases (mem_supersede hkept).1 hd with rfl | ⟨hd, -⟩
      · exact hlt
      · exact hbelow d hd
    · split
      · next heq => exact List.pairwise_cons.2 ⟨fun d hd => heq ▸ hbelow d hd, hkept⟩
      · refine List.pairwise_cons.2 ⟨fun d hd => ?_, h⟩
        rcases List.mem_cons.1 hd with rfl | hd
        · omega
        · have hlt := hbelow d hd
          omega

theorem descending_foldl (comments : List Comment) :
    Descending (comments.foldl (fun kept c => supersede c kept) []) := by
  induction comments using List.reverseRecOn with
  | nil => exact .nil
  | append_singleton comments c ih =>
    rw [List.foldl_concat]
    exact descending_supersede c ih

theorem pairwise_latest (comments : List Comment) : (latest comments).Pairwise (·.line < ·.line) :=
  List.pairwise_reverse.2 (descending_foldl comments)

theorem mem_latest_iff {comments : List Comment} {c : Comment} :
    c ∈ latest comments ↔ LastForLine comments c := by
  rw [latest, List.mem_reverse]
  induction comments using List.reverseRecOn with
  | nil => simp [LastForLine]
  | append_singleton comments d ih =>
    rw [List.foldl_concat, mem_supersede (descending_foldl comments), ih, lastForLine_concat]

/-- The comments that count are among those recorded. -/
theorem mem_of_mem_latest {comments : List Comment} {c : Comment} (h : c ∈ latest comments) :
    c ∈ comments := by
  obtain ⟨before, after, rfl, -⟩ := mem_latest_iff.1 h
  simp

/-- The comment that counts for a line is the last one for it. -/
theorem find?_latest_eq_some_iff {comments : List Comment} {number : Nat} {c : Comment} :
    (latest comments).find? (·.line = number) = some c
      ↔ LastForLine comments c ∧ c.line = number := by
  rw [← mem_latest_iff]
  constructor
  · intro hfind
    exact ⟨List.mem_of_find?_eq_some hfind, by simpa using List.find?_some hfind⟩
  · rintro ⟨hmem, hline⟩
    -- All that comes before it in line order stands on earlier lines.
    obtain ⟨before, after, hsplit⟩ := List.append_of_mem hmem
    have hordered := pairwise_latest comments
    rw [hsplit, List.pairwise_append] at hordered
    refine List.find?_eq_some_iff_append.2 ⟨decide_eq_true hline, before, after, hsplit, ?_⟩
    intro d hd
    have hlt := hordered.2.2 d hd c List.mem_cons_self
    have hne : d.line ≠ number := by omega
    simpa using hne

/-- No comment counts for a line if and only if none is for it. -/
theorem find?_latest_eq_none_iff {comments : List Comment} {number : Nat} :
    (latest comments).find? (·.line = number) = none ↔ ∀ c ∈ comments, c.line ≠ number := by
  constructor
  · rintro hnone c hc rfl
    obtain ⟨d, hlast, hd⟩ := exists_lastForLine hc
    cases hnone.symm.trans (find?_latest_eq_some_iff.2 ⟨hlast, hd⟩)
  · intro h
    rw [List.find?_eq_none]
    intro c hc
    simpa using h c (mem_of_mem_latest hc)

theorem find?_latest_filter {comments : List Comment} {keep : Comment → Bool} {number : Nat}
    (h : ∀ d : Comment, d.line = number → keep d = true) :
    (latest (comments.filter keep)).find? (·.line = number)
      = (latest comments).find? (·.line = number) := by
  ext c
  rw [find?_latest_eq_some_iff, find?_latest_eq_some_iff, and_congr_left_iff]
  rintro rfl
  exact lastForLine_filter h

end HuffTrace.Comment
