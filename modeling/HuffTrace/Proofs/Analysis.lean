/-
  HuffTrace.Proofs.Analysis

  The annotated source of an analysis.  Annotation gives a text with the same
  code exactly if the comments fit and can follow the code where they are
  written (`annotated_keepsCode_iff`).  If no double slash of a commented line
  stands outside of comments and the comments fit, the annotated source is
  analysed as the source is, and annotated it stays as it is
  (`annotated_isFixed`).
-/

import HuffTrace.Proofs.Comment.Column
import HuffTrace.Proofs.Document

namespace HuffTrace.Analysis

/-- The comments of an analysis belong to the program of its document. -/
theorem recorded_of_mem {library : Library} {path source : String} {limits : Limits} {c : Comment}
    (hc : c ∈ (run (Document.ofText library path source) limits).comments) :
    Machine.Recorded (Program.ofSource source).1 c := by
  have hplain : Document.Plain (Document.ofText library path source) :=
    Document.plain_build _ _ _ _
  have hprogram : (Document.ofText library path source).program = (Program.ofSource source).1 := by
    rw [Document.ofText, Document.build]
  rw [← hprogram]
  exact Machine.recorded_execute Document.sheltered_plain hplain.program hplain limits
    (Array.mem_toList_iff.1 hc)

theorem text_ofText (library : Library) (path source : String) :
    (Document.ofText library path source).text = source := by
  rw [Document.ofText, Document.build]

theorem annotated_ofText (library : Library) (path source : String) (limits : Limits) :
    (run (Document.ofText library path source) limits).annotated
      = Comment.annotate source (run (Document.ofText library path source) limits).comments := by
  rw [annotated]
  exact congrArg (Comment.annotate · _) (text_ofText library path source)

theorem oneLine_of_mem {library : Library} {path source : String} {limits : Limits} {c : Comment}
    (hc : c ∈ (run (Document.ofText library path source) limits).comments) :
    Text.OneLine c.stack := by
  obtain ⟨s, hs, hstack⟩ := (recorded_of_mem hc).shown
  rw [hstack]
  exact hs.render

/-! ## The code of the source -/

/-- Annotation gives a text with the code of the source if and only if the comments fit and, at
    each place where one is written, the text up to the first double slash of the line is code
    that a comment can follow: no token, attribute or comment is open there, and the space before
    the comment disturbs no token. -/
theorem annotated_keepsCode_iff (library : Library) (path source : String) (limits : Limits) :
    (∃ annotated,
      (run (Document.ofText library path source) limits).annotated = .ok annotated
      ∧ Comment.KeepsCode source annotated
        (run (Document.ofText library path source) limits).comments)
      ↔ Comment.Fits source (run (Document.ofText library path source) limits).comments
        ∧ ∀ p : Comment.Place source (run (Document.ofText library path source) limits).comments,
          p.Open := by
  rw [annotated_ofText, Comment.annotate_eq, ← Comment.keepsCode_iff fun c hc => oneLine_of_mem hc]
  constructor
  · rintro ⟨annotated, hannotated, hkeeps⟩
    split at hannotated
    · next hfits =>
      cases hannotated
      exact ⟨hfits, hkeeps⟩
    · cases hannotated
  · rintro ⟨hfits, hkeeps⟩
    exact ⟨_, if_pos hfits, hkeeps⟩

/-- A double slash in the argument of a call is no comment, and yet all of the call from there on
    is replaced. -/
theorem scan_annotated_ne_of_slashes_in_call :
    ∃ annotated,
      (run (Document.ofText {} "src/main.huff" "FOO(\"//\")\n") {}).annotated = .ok annotated
      ∧ (Token.scan annotated).1 ≠ (Token.scan "FOO(\"//\")\n").1 :=
  ⟨"FOO(\" // []\n", by decide +kernel, by decide +kernel⟩

/-! ## Annotating again -/

/-- Sources that are scanned alike are analysed alike. -/
theorem run_of_scan (library : Library) (path : String) (limits : Limits) {a b : String}
    (h : Token.scan b = Token.scan a) :
    run (Document.ofText library path b) limits
      = { run (Document.ofText library path a) limits with
          document := Document.ofText library path b } := by
  have hdocument := Document.ofText_of_scan library path h
  have hprogram : (Document.ofText library path b).program
      = (Document.ofText library path a).program := by rw [hdocument]
  have hanswers : SameAnswers (Document.ofText library path a) (Document.ofText library path b) :=
    Document.sameAnswers_of_includes (by rw [hdocument])
  -- The two machines start alike but for their scopes.
  have hexecute := Machine.execute_rescope
    (m := .start (Document.ofText library path a).program (Document.ofText library path a) limits)
    hanswers
  have hstart : Machine.start (Document.ofText library path b).program
        (Document.ofText library path b) limits
      = (Machine.start (Document.ofText library path a).program
          (Document.ofText library path a) limits).rescope (Document.ofText library path b) := by
    rw [hprogram]
    rfl
  rw [run, hstart, hexecute]
  rfl

/-- A comment ends with the bracket of its stack. -/
theorem getLast?_of_mem {library : Library} {path source : String} {limits : Limits} {c : Comment}
    (hc : c ∈ (run (Document.ofText library path source) limits).comments) :
    c.stack.toList.getLast? ≠ some '\r' := by
  obtain ⟨s, -, hstack⟩ := (recorded_of_mem hc).shown
  have hbracket : "]".toList = [']'] := by decide
  rw [hstack, Stack.render, String.toList_append, hbracket, List.getLast?_concat]
  decide

theorem scan_rewritten {library : Library} {path source : String} {limits : Limits}
    (hscan : (Token.scan source).2 = .empty)
    (hslashes : ∀ c ∈ (run (Document.ofText library path source) limits).comments,
      Comment.SlashesCommented source.toList c.line) :
    Token.scan (Comment.rewritten source
      (run (Document.ofText library path source) limits).comments) = Token.scan source := by
  have hknown := (Span.scan_snd_eq_empty_iff source).1 hscan
  refine Comment.scan_rewritten (fun c hc => oneLine_of_mem hc) hknown fun p => ?_
  have hmem := Comment.mem_of_mem_latest (List.mem_of_find?_eq_some p.chosen)
  exact p.solid hknown (p.line_comment ▸ hslashes p.comment hmem) (recorded_of_mem hmem)

/-- Sources that are scanned alike have the same problems. -/
theorem problems_of_scan (library : Library) (path : String) (limits : Limits) {a b : String}
    (h : Token.scan b = Token.scan a) :
    (run (Document.ofText library path b) limits).problems
      = (run (Document.ofText library path a) limits).problems := by
  have hdocument : (Document.ofText library path b).problems
      = (Document.ofText library path a).problems := by
    rw [Document.ofText_of_scan library path h]
  rw [problems, problems, run_of_scan library path limits h]
  exact congrArg (Diagnostics.merge · _) hdocument

/-- A source that is recognised throughout, in which every double slash on a commented line stands
    in a line comment, and whose comments fit, is annotated to a text with the same tokens that is
    recognised throughout.  The analysis of that text records the same comments, meets the same
    problems, and annotates it to itself.  A source whose comments do not fit is not annotated. -/
theorem annotated_isFixed (library : Library) (path source : String) (limits : Limits)
    (hscan : (Token.scan source).2 = .empty)
    (hslashes : ∀ c ∈ (run (Document.ofText library path source) limits).comments,
      Comment.SlashesCommented source.toList c.line) :
    let a := run (Document.ofText library path source) limits
    (Comment.Fits source a.comments → ∃ annotated,
      a.annotated = .ok annotated
      ∧ (Token.scan annotated).1 = (Token.scan source).1
      ∧ (Token.scan annotated).2 = .empty
      ∧ let again := run (Document.ofText library path annotated) limits
        again.comments = a.comments
        ∧ again.problems = a.problems
        ∧ again.halted = a.halted
        ∧ again.annotated = .ok annotated)
    ∧ (¬Comment.Fits source a.comments → a.annotated = .error .argumentOutOfRange) := by
  intro a
  have hannotated : a.annotated = Comment.annotate source a.comments :=
    annotated_ofText library path source limits
  refine ⟨fun hfits => ⟨Comment.rewritten source a.comments, ?_, ?_⟩, fun hwide => ?_⟩
  · rw [hannotated, Comment.annotate_eq, if_pos hfits]
  · -- The annotated text is scanned as the source is, and everything else follows from that.
    have hsame : Token.scan (Comment.rewritten source a.comments) = Token.scan source :=
      scan_rewritten hscan hslashes
    have hrun := run_of_scan library path limits hsame
    have hcomments := (congrArg comments hrun).trans rfl
    refine ⟨by rw [hsame], by rw [hsame, hscan], hcomments,
      problems_of_scan library path limits hsame, (congrArg halted hrun).trans rfl, ?_⟩
    rw [annotated_ofText, hcomments]
    exact Comment.annotate_rewritten (fun c hc => oneLine_of_mem hc)
      (fun c hc => getLast?_of_mem hc) hfits
  · rw [hannotated, Comment.annotate_eq, if_neg hwide]

/-- A source with a header over two lines, an attribute, carriage returns, and comments to be
    replaced. -/
def noted : String :=
  "#define macro M() =\n takes(1) \x7b // in\r\n 0x2 #[b] // c // d\r\n\x7d"

/-- What `noted` is annotated to. -/
def notedAgain : String :=
  "#define macro M() =\n takes(1) \x7b         // [takes[0]]\r\n"
    ++ " 0x2 #[b]           // [0x2, takes[0]]\r\n\x7d"

theorem annotated_isFixed_noted :
    (Token.scan noted).2 = .empty
      ∧ (∀ c ∈ (run (Document.ofText {} "a.huff" noted) {}).comments,
        Comment.SlashesCommented noted.toList c.line)
      ∧ Comment.Fits noted (run (Document.ofText {} "a.huff" noted) {}).comments
      ∧ (run (Document.ofText {} "a.huff" noted) {}).annotated = .ok notedAgain
      ∧ (run (Document.ofText {} "a.huff" notedAgain) {}).annotated = .ok notedAgain := by
  have hscan : (Token.scan noted).2 = .empty := by decide +kernel
  have hslashes : ∀ c ∈ (run (Document.ofText {} "a.huff" noted) {}).comments,
      Comment.SlashesCommented noted.toList c.line := by decide +kernel
  have hfits : Comment.Fits noted (run (Document.ofText {} "a.huff" noted) {}).comments := by
    decide +kernel
  have hannotated : (run (Document.ofText {} "a.huff" noted) {}).annotated = .ok notedAgain := by
    decide +kernel
  obtain ⟨_, hok, -, -, -, -, -, hagain⟩ :=
    (annotated_isFixed {} "a.huff" noted {} hscan hslashes).1 hfits
  cases hannotated.symm.trans hok
  exact ⟨hscan, hslashes, hfits, hannotated, hagain⟩

/-! ## Wide code -/

/-- Spaces before a literal make no difference to what is recognised. -/
theorem scan_indented (spaces : Nat) :
    Token.scan (Comment.indented spaces) = Token.scan "0x01" := by
  have hspaces : ∀ x ∈ List.replicate spaces ' ', Span.isLayout x = true :=
    List.forall_mem_replicate.2 (.inr rfl)
  have hbreaks : Span.breaks (List.replicate spaces ' ') = 0 := Span.breaks_eq_zero (by simp)
  have hscan : (Token.scan "0x01").2 = .empty := by decide +kernel
  refine Prod.ext (Span.scan_eq_iff.2 ?_) ?_
  · rw [Comment.indented, String.toList_ofList, Span.tokens, Span.notable_layout_append hspaces,
      hbreaks]
    rfl
  · rw [hscan, Span.scan_snd_eq_empty_iff, Comment.indented, String.toList_ofList,
      Span.known_layout_append hspaces]
    exact (Span.scan_snd_eq_empty_iff _).1 hscan

theorem slash_not_mem_indented (spaces : Nat) : '/' ∉ (Comment.indented spaces).toList := by
  rw [Comment.indented, String.toList_ofList]
  simp

/-- With one space more than there may be, a source without any slash is not annotated. -/
theorem annotated_eq_error_of_indented :
    (Token.scan (Comment.indented 65531)).2 = .empty
      ∧ (∀ c ∈ (run (Document.ofText {} "main.huff" (Comment.indented 65531)) {}).comments,
        Comment.SlashesCommented (Comment.indented 65531).toList c.line)
      ∧ (run (Document.ofText {} "main.huff" (Comment.indented 65531)) {}).annotated
        = .error .argumentOutOfRange := by
  -- What is recorded is known from the literal alone, without a look at the spaces.
  have hsame := scan_indented 65531
  have hcomments : (run (Document.ofText {} "main.huff" (Comment.indented 65531)) {}).comments
      = [⟨1, "[0x01]"⟩] := by
    have hliteral : (run (Document.ofText {} "main.huff" "0x01") {}).comments
        = [⟨1, "[0x01]"⟩] := by decide +kernel
    rw [run_of_scan {} "main.huff" {} hsame]
    exact hliteral
  refine ⟨?_, fun c _ => Comment.slashesCommented_of_not_mem (slash_not_mem_indented _) _, ?_⟩
  · rw [hsame]
    decide +kernel
  · rw [annotated_ofText, hcomments, Comment.annotate_eq,
      if_neg (Comment.not_fits_indented (by decide) List.mem_cons_self rfl)]

end HuffTrace.Analysis
