/-
  HuffTrace.Proofs.Report

  What is reported points into the analysed source.  Comments and faults stand
  at tokens of the source itself, problems of included files at its own include
  directives, and all of these at lines that the source has.  A report gives the
  last comment of each line, in line order, and the problems in line order
  (`report_points_into_source`).
-/

import HuffTrace.Proofs.Comment.Latest
import HuffTrace.Proofs.Comment.Lines
import HuffTrace.Proofs.Document.Failures
import HuffTrace.Proofs.Machine.Lines
import HuffTrace.Report

namespace HuffTrace

/-! ## Lines of a source -/

/-- A source has a line with this number. -/
def IsLineOf (source : String) (line : Nat) : Prop :=
  1 ≤ line ∧ line ≤ (Comment.lines source.toList).length

theorem isLineOf_iff {source : String} {line : Nat} :
    IsLineOf source line ↔ 1 ≤ line ∧ line ≤ Span.breaks source.toList + 1 := by
  rw [IsLineOf, Comment.length_lines]

namespace Program

theorem mem_tokens_ofSource {source : String} {t : Token} :
    t ∈ (ofSource source).1.tokens ↔ t ∈ Span.tokens 1 source.toList := by
  show t ∈ (Token.scan source).1 ↔ _
  rw [Span.scan_fst, List.mem_toArray]

theorem isLineOf_line {source : String} {t : Token} (h : t ∈ (ofSource source).1.tokens) :
    IsLineOf source t.line := by
  have hlines := Span.lines_of_mem_tokens (mem_tokens_ofSource.1 h)
  exact isLineOf_iff.2 (by omega)

theorem isLineOf_endLine {source : String} {t : Token} (h : t ∈ (ofSource source).1.tokens) :
    IsLineOf source t.endLine := by
  have hlines := Span.lines_of_mem_tokens (mem_tokens_ofSource.1 h)
  exact isLineOf_iff.2 (by omega)

theorem token?_ofSource (source : String) (position : Nat) :
    (ofSource source).1.token? position = (Span.tokens 1 source.toList)[position]? := by
  show (Token.scan source).1[position]? = _
  rw [Span.scan_fst, List.getElem?_toArray]

/-- A token ends no later than any further one begins. -/
theorem endLine_le_line {source : String} {position later : Nat} {t next : Token}
    (ht : (ofSource source).1.token? position = some t)
    (hnext : (ofSource source).1.token? later = some next) (h : position < later) :
    t.endLine ≤ next.line := by
  rw [token?_ofSource] at ht hnext
  obtain ⟨hposition, rfl⟩ := List.getElem?_eq_some_iff.1 ht
  obtain ⟨hlater, rfl⟩ := List.getElem?_eq_some_iff.1 hnext
  exact List.pairwise_iff_getElem.1 (Span.pairwise_tokens source.toList) _ _ hposition hlater h

/-- All tokens after the last one of a line begin on later lines. -/
theorem endLine_lt_of_isLastOnLine {source : String} {position later : Nat} {t next : Token}
    (ht : (ofSource source).1.token? position = some t)
    (hlast : (ofSource source).1.isLastOnLine position = true)
    (hnext : (ofSource source).1.token? later = some next) (h : position < later) :
    t.endLine < next.line := by
  unfold isLastOnLine at hlast
  rw [ht] at hlast
  cases hfollow : (ofSource source).1.token? (position + 1) with
  | none =>
    have hend : (ofSource source).1.tokens.size ≤ position + 1 :=
      Array.getElem?_eq_none_iff.1 hfollow
    have hlater : later < (ofSource source).1.tokens.size := (Array.getElem?_eq_some_iff.1 hnext).1
    omega
  | some follow =>
    rw [hfollow] at hlast
    have hfirst : t.endLine < follow.line := by simpa using hlast
    by_cases heq : later = position + 1
    · subst heq
      rw [hfollow] at hnext
      cases hnext
      exact hfirst
    · -- Beyond the next token, lines do not go back.
      have hfar := endLine_le_line hfollow hnext (by omega)
      have hlines :=
        Span.lines_of_mem_tokens (mem_tokens_ofSource.1 (Array.mem_of_getElem? hfollow))
      omega

end Program

/-! ## Problems -/

namespace Document

/-- What is wrong with a document and its includes is located in its own text. -/
theorem isLineOf_of_mem_problems {library : Library} {chain : List Path} {path : Path}
    {source : String} {found : Located Problem}
    (h : found ∈ (build library chain path source).problems.toList) :
    IsLineOf source found.line := by
  rw [build_eq, recordOutcomes] at h
  rcases List.mem_append.1 ((Diagnostics.perm_addAll _ _).mem_iff.1 h) with hown | hled
  · have hscan : found ∈ (Token.scan source).2.toList := hown
    rw [Span.toList_scan_snd] at hscan
    obtain ⟨stretch, -, rfl⟩ := List.mem_map.1 hscan
    have hle := Span.breaks_take_le_breaks source.toList stretch.1
    exact isLineOf_iff.2 ⟨by dsimp only; omega, by dsimp only; omega⟩
  · obtain ⟨outcome, houtcome, hfound⟩ := List.mem_flatMap.1 hled
    obtain ⟨error, -, rfl⟩ := List.mem_map.1 hfound
    obtain ⟨directive, hdirective, rfl⟩ := List.mem_map.1 houtcome
    obtain ⟨t, ht, hwrites⟩ := exists_writes_of_mem hdirective
    show IsLineOf source directive.line
    rw [hwrites.1]
    exact Program.isLineOf_line ht

end Document

/-! ## Analyses -/

namespace Analysis

variable {library : Library} {path source : String} {limits : Limits}

theorem program_ofText (library : Library) (path source : String) :
    (Document.ofText library path source).program = (Program.ofSource source).1 := by
  rw [Document.ofText, Document.program_build]

/-- A comment belongs to the last token of a line. -/
theorem anchored_of_mem {c : Comment}
    (h : c ∈ (run (Document.ofText library path source) limits).comments) :
    Machine.Anchored (Program.ofSource source).1 c := by
  have hplaced := Machine.placed_execute (Document.ofText library path source).program
    (Document.ofText library path source) limits
  have hanchored := hplaced.comments c (Array.mem_toList_iff.1 h)
  rwa [Machine.program_execute, program_ofText] at hanchored

/-- A fault stands at a token, however deep in other programs it was met. -/
theorem token_of_mem_faults {found : Located Fault}
    (h : found ∈ (run (Document.ofText library path source) limits).faults.toList) :
    ∃ t ∈ (Program.ofSource source).1.tokens, found.line = t.line := by
  have hplaced := Machine.placed_execute (Document.ofText library path source).program
    (Document.ofText library path source) limits
  have htoken := hplaced.faults found h
  rwa [Machine.program_execute, program_ofText] at htoken

theorem isLineOf_of_mem_problems {found : Located Problem}
    (h : found ∈ (run (Document.ofText library path source) limits).problems.toList) :
    IsLineOf source found.line := by
  rcases List.mem_append.1 ((Diagnostics.perm_addAll _ _).mem_iff.1 h) with hdocument | hfault
  · exact Document.isLineOf_of_mem_problems hdocument
  · rw [Diagnostics.toList, Diagnostics.map, List.mem_reverse] at hfault
    obtain ⟨fault, hmem, rfl⟩ := List.mem_map.1 hfault
    obtain ⟨t, ht, hline⟩ := token_of_mem_faults (List.mem_reverse.2 hmem)
    show IsLineOf source fault.line
    rw [hline]
    exact Program.isLineOf_line ht

end Analysis

/-- Everything reported points into the source, whatever it includes and however the execution
    goes.  Each comment stands at the end of a token that is no closing brace and after which
    every token begins on a later line.  All comments and problems stand on lines of the
    source.  The report gives exactly the last comment recorded for each line, in the order of
    the lines, and the problems in the order of theirs. -/
theorem report_points_into_source (library : Library) (path source : String) (limits : Limits) :
    let analysis := Analysis.run (Document.ofText library path source) limits
    let report := Report.ofAnalysis analysis
    (∀ c ∈ analysis.comments, ∃ position token,
        (Program.ofSource source).1.token? position = some token ∧ token.kind ≠ .blockEnd
        ∧ c.line = token.endLine
        ∧ ∀ later next, position < later → (Program.ofSource source).1.token? later = some next →
          token.endLine < next.line)
    ∧ (∀ c ∈ analysis.comments, IsLineOf source c.line)
    ∧ (∀ found ∈ analysis.problems.toList, IsLineOf source found.line)
    ∧ report.comments.Pairwise (·.line < ·.line)
    ∧ (∀ c, c ∈ report.comments ↔ Comment.LastForLine analysis.comments c)
    ∧ report.diagnostics
      = analysis.problems.toList.map (fun found => ⟨found.line, found.item.message⟩)
    ∧ report.diagnostics.Pairwise (·.line ≤ ·.line) := by
  intro analysis report
  refine ⟨fun c hc => ?_, fun c hc => ?_, fun found hfound => ?_, Comment.pairwise_latest _,
    fun c => Comment.mem_latest_iff, rfl, ?_⟩
  · obtain ⟨position, token, htoken, hlast, hkind, hline⟩ := Analysis.anchored_of_mem hc
    refine ⟨position, token, htoken, hkind, hline, ?_⟩
    intro later next hlater hnext
    exact Program.endLine_lt_of_isLastOnLine htoken hlast hnext hlater
  · obtain ⟨position, token, htoken, -, -, hline⟩ := Analysis.anchored_of_mem hc
    rw [hline]
    exact Program.isLineOf_endLine (Array.mem_of_getElem? htoken)
  · exact Analysis.isLineOf_of_mem_problems hfound
  · have hsorted : analysis.problems.Sorted := (Document.sorted_problems_build ..).addAll _
    exact List.pairwise_map.2 hsorted

end HuffTrace
