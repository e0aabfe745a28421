/-
  HuffTrace.Proofs.Comment.Annotate

  What writing comments does to the code of a source.  The writer finds the end
  of the code of a line by the first double slash, the cutter by its own
  grammar.  The two agree at a place if a comment can be put after the code
  there and the space before it disturbs no token (`Place.Open`), and comments
  leave the code of a source alone exactly if this is so at all their places
  (`keepsCode_iff`).

  The proof goes through the lines from the first to the last.  After each line
  with a comment the cutter starts afresh, so that the text before may be the
  original one for all lines that follow.
-/

import HuffTrace.Proofs.Comment.Width
import HuffTrace.Proofs.Source.Scan
import HuffTrace.Proofs.Text.OneLine

namespace HuffTrace.Comment

open HuffTrace.Span

/-! ## One line -/

theorem calm_of_endsLine {rest : List Char} (h : EndsLine rest) : Calm rest := by
  intro x t hx
  rw [h x t hx]
  exact .inl (by decide)

theorem head?_of_endsLine {rest : List Char} (h : EndsLine rest) {x : Char} (hx : x ≠ '\n') :
    rest.head? ≠ some x := by
  intro hhead
  obtain ⟨t, rfl⟩ := List.head?_eq_some_iff.1 hhead
  exact hx (h x t rfl)

theorem head?_of_isBlank {blanks : List Char} (h : ∀ x ∈ blanks, Text.isBlank x = true) :
    blanks.head? ≠ some '/' := by
  intro hhead
  exact absurd (h '/' (List.mem_of_head? hhead)) (by decide)

section Line

variable {before line rest : List Char}

/-- What a line has after its code can follow the code, whatever the lines that follow. -/
theorem calm_fromSlashes (line : List Char) (hrest : EndsLine rest) :
    Calm (fromSlashes line ++ rest) ∧ (fromSlashes line ++ rest).head?.any isGap = false := by
  rcases fromSlashes_cases line with hnil | ⟨t, ht⟩
  · rw [hnil, List.nil_append]
    refine ⟨calm_of_endsLine hrest, ?_⟩
    cases rest with
    | nil => rfl
    | cons x t =>
      rw [hrest x t rfl]
      rfl
  · rw [ht]
    exact ⟨calm_cons (.inr rfl), rfl⟩

/-- The code of a line does not end with a slash that a double slash follows. -/
theorem getLast?_code (hbefore : before.getLast? ≠ some '/') (hfrom : fromSlashes line ≠ [])
    (hcode : beforeSlashes line = code line) : (before ++ code line).getLast? ≠ some '/' := by
  have hlast := getLast?_beforeSlashes hfrom
  rw [hcode] at hlast
  rw [List.getLast?_append]
  cases hc : (code line).getLast? with
  | none => simpa using hbefore
  | some x =>
    rw [hc] at hlast
    simpa using hlast

/-- The notable spans of a text up to a line with a clear code, and those after the code. -/
theorem notable_line (hclear : Clear (before ++ code line)) (hbefore : before.getLast? ≠ some '/')
    (hline : '\n' ∉ line) (hrest : EndsLine rest) (start : Nat) :
    notable start (before ++ line ++ rest)
      = notable start (before ++ beforeSlashes line)
        ++ notable (start + breaks before) (fromSlashes line ++ rest) := by
  obtain ⟨blanks, hcode, hsplit, hblanks⟩ := exists_blanks line
  obtain ⟨hcalm, hgap⟩ := calm_fromSlashes line hrest
  have hbreaks : breaks blanks = 0 := by
    have hzero := breaks_eq_zero hline
    rw [hsplit, breaks_append, breaks_append] at hzero
    omega
  -- No double slash is made of the end of the code and of what follows it.
  have hslash : (before ++ code line).getLast? = some '/' →
      (blanks ++ (fromSlashes line ++ rest)).head? ≠ some '/' := by
    intro hlast
    cases blanks with
    | cons x blanks =>
      show (x :: blanks).head? ≠ some '/'
      exact head?_of_isBlank hblanks
    | nil =>
      rcases fromSlashes_cases line with hnil | ⟨t, ht⟩
      · rw [hnil]
        exact head?_of_endsLine hrest (by decide)
      · exact absurd hlast (getLast?_code hbefore (by simp [ht]) (by simpa using hcode))
  -- The gap that the text goes on with is among the blanks.
  have hlead : lead (blanks ++ (fromSlashes line ++ rest)) = lead blanks := by
    cases blanks with
    | nil =>
      rw [lead, List.nil_append, hgap]
      rfl
    | cons x blanks => rfl
  have htrailing : Trailing blanks := by
    have := trailing_of_isBlank hblanks calm_nil rfl
    rwa [List.append_nil] at this
  have hcodes : notable start (before ++ beforeSlashes line)
      = notable start (before ++ code line ++ lead blanks) := by
    have hspans := notable_blanks hblanks [] (start + breaks (before ++ code line))
    rw [List.append_nil, notable_nil] at hspans
    rw [hcode, ← List.append_assoc,
      notable_append hclear htrailing fun _ => head?_of_isBlank hblanks, hspans, List.append_nil]
  have htext : before ++ line ++ rest
      = before ++ code line ++ (blanks ++ (fromSlashes line ++ rest)) := by
    conv_lhs => rw [hsplit]
    simp only [List.append_assoc]
  rw [htext, notable_append hclear (trailing_of_isBlank hblanks hcalm hgap) hslash, hlead, hcodes,
    notable_blanks hblanks, breaks_append, breaks_code hline, hbreaks]
  rfl

/-- The notable spans of a text up to a line with a comment after a clear code. -/
theorem notable_withComment (hclear : Clear (before ++ code line)) (hline : '\n' ∉ line)
    (hrest : EndsLine rest) {column : Nat} (hcolumn : (code line).length < column) {stack : String}
    (hstack : Text.OneLine stack) (start : Nat) :
    notable start (before ++ withComment column line stack ++ rest)
      = notable start (before ++ code line ++ [' '])
        ++ ⟨start + breaks before, ⟨.skipped, '/' :: '/' :: written line stack⟩⟩
          :: notable (start + breaks before) rest := by
  obtain ⟨m, htext⟩ := append_withComment hcolumn stack before rest
  have hspaces : ∀ x ∈ List.replicate (m + 1) ' ', isGap x = true :=
    List.forall_mem_replicate.2 (.inr rfl)
  have hwritten : '\n' ∉ written line stack := newline_not_mem_written hstack
  have htrailing :
      Trailing (List.replicate (m + 1) ' ' ++ ('/' :: '/' :: written line stack ++ rest)) :=
    ⟨_, _, rfl, hspaces, calm_cons (.inr rfl), rfl⟩
  rw [htext, notable_append hclear htrailing (fun _ => by simp [List.replicate_succ]),
    notable_layout_append fun x hx => isLayout_of_isGap (hspaces x hx),
    notable_comment hwritten hrest, breaks_append, breaks_code hline,
    breaks_eq_zero (newline_not_mem_of_isGap hspaces)]
  rfl

end Line

/-! ## All lines -/

/-- The number of a line, counted from one of the lines before it or from the next one. -/
theorem number_cons (number : Nat) (line : List Char) (before : List (List Char)) :
    number + (line :: before).length = number + 1 + before.length := by
  rw [List.length_cons]
  omega

/-- A property holds of every line that gets a comment, the first line having the given
    number. -/
def AtComments (comments : List Comment) (number : Nat) (source : List (List Char))
    (p : List (List Char) → List Char → Comment → Prop) : Prop :=
  ∀ before line after c, source = before ++ line :: after →
    comments.find? (·.line = number + before.length) = some c → p before line c

theorem atComments_nil {comments : List Comment} {number : Nat}
    {p : List (List Char) → List Char → Comment → Prop} : AtComments comments number [] p := by
  intro before line after c h
  simp at h

theorem atComments_cons {comments : List Comment} {number : Nat} {line : List Char}
    {rest : List (List Char)} {p : List (List Char) → List Char → Comment → Prop} :
    AtComments comments number (line :: rest) p
      ↔ (∀ c, comments.find? (·.line = number) = some c → p [] line c)
        ∧ AtComments comments (number + 1) rest fun before => p (line :: before) := by
  constructor
  · intro h
    refine ⟨fun c hc => h [] line rest c rfl hc, fun before next after c hrest hc => ?_⟩
    refine h (line :: before) next after c (by rw [hrest, List.cons_append]) ?_
    rw [number_cons]
    exact hc
  · rintro ⟨hfirst, hall⟩ before next after c hrest hc
    cases before with
    | nil =>
      obtain ⟨rfl, -⟩ := List.cons.inj hrest
      exact hfirst c hc
    | cons first before =>
      obtain ⟨rfl, htail⟩ := List.cons.inj hrest
      rw [number_cons] at hc
      exact hall before next after c htail hc

/-- A text with comments on some lines of a source has the tokens of the original text, the
    comments are found in it, and what they replace are comments of the original. -/
structure Keeps (comments : List Comment) (number : Nat) (source : List (List Char))
    (annotated original : List Char) : Prop where
  tokens : Span.tokens 1 annotated = Span.tokens 1 original
  found : AtComments comments number source fun before line c =>
    ⟨number + before.length, ⟨.skipped, '/' :: '/' :: written line c.stack⟩⟩ ∈ notable 1 annotated
  replaced : AtComments comments number source fun before line _ => fromSlashes line ≠ [] →
    ⟨number + before.length, ⟨.skipped, fromSlashes line⟩⟩ ∈ notable 1 original

/-- The code of a line can be followed by a comment: the comment would be found, and the space
    before it leaves the tokens as they are without the comment that the line has. -/
structure Open (before line : List Char) : Prop where
  clear : Clear (before ++ code line)
  tokens : (Token.scan (.ofList (before ++ code line ++ [' ']))).1
    = (Token.scan (.ofList (before ++ beforeSlashes line))).1

/-- The comment that a line has, and what follows the line. -/
theorem notable_fromSlashes {line rest : List Char} (hline : '\n' ∉ line) (hrest : EndsLine rest)
    (number : Nat) :
    notable number (fromSlashes line ++ rest)
      = (if fromSlashes line = [] then [] else [⟨number, ⟨.skipped, fromSlashes line⟩⟩])
        ++ notable number rest := by
  rcases fromSlashes_cases line with hnil | ⟨t, ht⟩
  · simp [hnil]
  · rw [ht, notable_comment (newline_not_mem_fromSlashes hline ht) hrest, if_neg (by simp)]
    rfl

section Step

variable {before line : List Char} {number column : Nat} {c : Comment} {rest : List Char}

theorem tokens_line (hclear : Clear (before ++ code line)) (hbefore : before.getLast? ≠ some '/')
    (hline : '\n' ∉ line) (hrest : EndsLine rest) (hnumber : number = 1 + breaks before) :
    Span.tokens 1 (before ++ line ++ rest)
      = Span.tokens 1 (before ++ beforeSlashes line) ++ Span.tokens number rest := by
  rw [Span.tokens, notable_line hclear hbefore hline hrest, notable_fromSlashes hline hrest,
    ← hnumber, List.filterMap_append, List.filterMap_append]
  split
  · rfl
  · rfl

theorem tokens_withComment (hclear : Clear (before ++ code line)) (hline : '\n' ∉ line)
    (hrest : EndsLine rest) (hcolumn : (code line).length < column) (hstack : Text.OneLine c.stack)
    (hnumber : number = 1 + breaks before) :
    Span.tokens 1 (before ++ withComment column line c.stack ++ rest)
      = Span.tokens 1 (before ++ code line ++ [' ']) ++ Span.tokens number rest := by
  rw [Span.tokens, notable_withComment hclear hline hrest hcolumn hstack, ← hnumber,
    List.filterMap_append]
  rfl

/-- The spans of later lines, with the original line before them. -/
theorem mem_notable_line_iff (hclear : Clear (before ++ code line))
    (hbefore : before.getLast? ≠ some '/') (hline : '\n' ∉ line) (hrest : EndsLine rest)
    (hnumber : number = 1 + breaks before) {x : Located Span} (hx : number < x.line) :
    x ∈ notable 1 (before ++ line ++ rest) ↔ x ∈ notable number rest := by
  rw [notable_line hclear hbefore hline hrest, notable_fromSlashes hline hrest, ← hnumber,
    List.mem_append, List.mem_append]
  refine ⟨?_, fun h => .inr (.inr h)⟩
  rintro (h | h | h)
  · exfalso
    have := (line_of_mem_notable h).2
    rw [breaks_append, breaks_beforeSlashes hline] at this
    omega
  · exfalso
    split at h
    · cases h
    · rw [List.mem_singleton.1 h] at hx
      exact Nat.lt_irrefl _ hx
  · exact h

/-- The spans of later lines, with the commented line before them. -/
theorem mem_notable_withComment_iff (hclear : Clear (before ++ code line)) (hline : '\n' ∉ line)
    (hrest : EndsLine rest) (hcolumn : (code line).length < column) (hstack : Text.OneLine c.stack)
    (hnumber : number = 1 + breaks before) {x : Located Span} (hx : number < x.line) :
    x ∈ notable 1 (before ++ withComment column line c.stack ++ rest)
      ↔ x ∈ notable number rest := by
  rw [notable_withComment hclear hline hrest hcolumn hstack, ← hnumber, List.mem_append,
    List.mem_cons]
  refine ⟨?_, fun h => .inr (.inr h)⟩
  rintro (h | rfl | h)
  · exfalso
    have hspace : breaks [' '] = 0 := rfl
    have := (line_of_mem_notable h).2
    rw [breaks_append, breaks_append, breaks_code hline, hspace] at this
    omega
  · exact absurd hx (Nat.lt_irrefl _)
  · exact h

/-- A comment that is found on its line shows that the code of the line is clear. -/
theorem clear_of_mem_notable (hline : '\n' ∉ line) (hrest : EndsLine rest)
    (hcolumn : (code line).length < column) (hnumber : number = 1 + breaks before)
    (h : ⟨number, ⟨.skipped, '/' :: '/' :: written line c.stack⟩⟩
      ∈ notable 1 (before ++ withComment column line c.stack ++ rest)) :
    Clear (before ++ code line) := by
  obtain ⟨m, htext⟩ := append_withComment hcolumn c.stack before rest
  have hend : number = 1 + breaks (before ++ code line) := by
    rw [breaks_append, breaks_code hline, Nat.add_zero, hnumber]
  have hmem := (List.mem_filter.1 h).1
  rw [htext, hend] at hmem
  exact clear_of_mem_numbered hrest hmem

/-- A comment on a line keeps all tokens if it keeps those of the line and of the lines before,
    and the comments of the lines that follow keep theirs. -/
theorem tokens_withComment_eq_iff {annotated original : List Char}
    (hclear : Clear (before ++ code line)) (hbefore : before.getLast? ≠ some '/')
    (hnumber : number = 1 + breaks before) (hline : '\n' ∉ line)
    (hcolumn : (code line).length < column) (hstack : Text.OneLine c.stack)
    (hannotated : EndsLine annotated) (horiginal : EndsLine original) :
    Span.tokens 1 (before ++ withComment column line c.stack ++ annotated)
        = Span.tokens 1 (before ++ line ++ original)
      ↔ Span.tokens 1 (before ++ code line ++ [' ']) = Span.tokens 1 (before ++ beforeSlashes line)
        ∧ Span.tokens 1 (before ++ line ++ annotated)
          = Span.tokens 1 (before ++ line ++ original) := by
  rw [tokens_withComment hclear hline hannotated hcolumn hstack hnumber,
    tokens_line hclear hbefore hline horiginal hnumber,
    tokens_line hclear hbefore hline hannotated hnumber]
  constructor
  · intro h
    have hcode : ∀ t ∈ Span.tokens 1 (before ++ code line ++ [' ']), t.line ≤ number := by
      intro t ht
      have hspace : breaks [' '] = 0 := rfl
      have := (line_of_mem_tokens ht).2
      rw [breaks_append, breaks_append, breaks_code hline, hspace] at this
      omega
    have hslashes : ∀ t ∈ Span.tokens 1 (before ++ beforeSlashes line), t.line ≤ number := by
      intro t ht
      have := (line_of_mem_tokens ht).2
      rw [breaks_append, breaks_beforeSlashes hline] at this
      omega
    -- The tokens up to the line and those after it are told apart by their lines.
    obtain ⟨hfirst, hrest⟩ := append_inj_of_line h hcode hslashes
      (fun t => line_of_mem_tokens_of_endsLine hannotated)
      (fun t => line_of_mem_tokens_of_endsLine horiginal)
    exact ⟨hfirst, by rw [hrest]⟩
  · rintro ⟨hfirst, hrest⟩
    rw [hfirst, hrest]

/-- Writing the comment of one line keeps the code if and only if the code of the line is open
    to it and the comments of the lines that follow keep the code. -/
theorem keeps_cons {comments : List Comment} {lines : List (List Char)}
    {annotated original : List Char} (hbefore : before.getLast? ≠ some '/')
    (hnumber : number = 1 + breaks before) (hline : '\n' ∉ line)
    (hcolumn : (code line).length < column) (hstack : Text.OneLine c.stack)
    (hc : comments.find? (·.line = number) = some c) (hannotated : EndsLine annotated)
    (horiginal : EndsLine original) :
    Keeps comments number (line :: lines) (before ++ withComment column line c.stack ++ annotated)
        (before ++ line ++ original)
      ↔ Open before line
        ∧ Keeps comments (number + 1) lines (before ++ line ++ annotated)
            (before ++ line ++ original) := by
  constructor
  · rintro ⟨htokens, hfound, hreplaced⟩
    rw [atComments_cons] at hfound hreplaced
    -- That the comment is found makes the code clear, and the lines can be taken apart.
    have hclear := clear_of_mem_notable hline hannotated hcolumn hnumber (hfound.1 c hc)
    obtain ⟨hopen, hrest⟩ := (tokens_withComment_eq_iff hclear hbefore hnumber hline hcolumn hstack
      hannotated horiginal).1 htokens
    refine ⟨⟨hclear, scan_ofList_eq_iff.2 hopen⟩, hrest, ?_, ?_⟩
    · intro first next last d hsplit hd
      have hlater : number < number + 1 + first.length := by omega
      have hmem := hfound.2 first next last d hsplit hd
      simp only [number_cons] at hmem
      refine (mem_notable_line_iff hclear hbefore hline hannotated hnumber hlater).2 ?_
      exact (mem_notable_withComment_iff hclear hline hannotated hcolumn hstack hnumber
        hlater).1 hmem
    · intro first next last d hsplit hd hne
      have hmem := hreplaced.2 first next last d hsplit hd hne
      rwa [number_cons] at hmem
  · rintro ⟨⟨hclear, hopen⟩, hrest, hfound, hreplaced⟩
    -- With a clear code, spans of later lines do not depend on how this line is written.
    refine ⟨(tokens_withComment_eq_iff hclear hbefore hnumber hline hcolumn hstack hannotated
      horiginal).2 ⟨scan_ofList_eq_iff.1 hopen, hrest⟩, ?_, ?_⟩
    · rw [atComments_cons]
      constructor
      · intro d hd
        obtain rfl : c = d := Option.some.inj (hc.symm.trans hd)
        rw [notable_withComment hclear hline hannotated hcolumn hstack, ← hnumber]
        simp
      · intro first next last d hsplit hd
        have hlater : number < number + 1 + first.length := by omega
        have hmem := hfound first next last d hsplit hd
        rw [number_cons]
        refine (mem_notable_withComment_iff hclear hline hannotated hcolumn hstack hnumber
          hlater).2 ?_
        exact (mem_notable_line_iff hclear hbefore hline hannotated hnumber hlater).1 hmem
    · rw [atComments_cons]
      constructor
      · intro d hd hne
        rw [notable_line hclear hbefore hline horiginal, notable_fromSlashes hline horiginal,
          ← hnumber, if_neg hne]
        simp
      · intro first next last d hsplit hd hne
        rw [number_cons]
        exact hreplaced first next last d hsplit hd hne

end Step

theorem keeps_refl {comments : List Comment} {number : Nat} (text : List Char) :
    Keeps comments number [] text text :=
  ⟨rfl, atComments_nil, atComments_nil⟩

/-- A line without a comment. -/
theorem keeps_of_find?_eq_none {comments : List Comment} {number : Nat} {line : List Char}
    {rest : List (List Char)} {annotated original : List Char}
    (hc : comments.find? (·.line = number) = none) :
    Keeps comments number (line :: rest) annotated original
      ↔ Keeps comments (number + 1) rest annotated original := by
  constructor
  · rintro ⟨htokens, hfound, hreplaced⟩
    rw [atComments_cons] at hfound hreplaced
    simp only [number_cons] at hfound hreplaced
    exact ⟨htokens, hfound.2, hreplaced.2⟩
  · rintro ⟨htokens, hfound, hreplaced⟩
    refine ⟨htokens, ?_, ?_⟩
    · rw [atComments_cons]
      simp only [number_cons]
      exact ⟨fun c h => absurd (hc.symm.trans h) (by simp), hfound⟩
    · rw [atComments_cons]
      simp only [number_cons]
      exact ⟨fun c h => absurd (hc.symm.trans h) (by simp), hreplaced⟩

/-- Comments keep the code of a source if and only if it is open to them on all their lines. -/
theorem keeps_iff {comments : List Comment} (hstacks : ∀ c ∈ comments, Text.OneLine c.stack)
    {column : Nat} {source : List (List Char)} (hlines : ∀ line ∈ source, '\n' ∉ line)
    (hcolumn : ∀ line ∈ source, (code line).length < column) {before : List Char}
    (hbefore : before.getLast? ≠ some '/') {number : Nat} (hnumber : number = 1 + breaks before) :
    Keeps comments number source
        (before ++ ['\n'].intercalate (withComments column comments number source))
        (before ++ ['\n'].intercalate source)
      ↔ AtComments comments number source fun first line _ =>
          Open (before ++ preceding first) line := by
  induction source generalizing before number with
  | nil => exact iff_of_true (keeps_refl _) atComments_nil
  | cons line rest ih =>
    have hline := hlines line (by simp)
    have hlines' : ∀ l ∈ rest, '\n' ∉ l := fun l hl => hlines l (by simp [hl])
    have hcolumn' : ∀ l ∈ rest, (code l).length < column := fun l hl => hcolumn l (by simp [hl])
    -- The lines that follow, with this line as it was.
    have htail : Keeps comments (number + 1) rest
          (before ++ line ++ following (withComments column comments (number + 1) rest))
          (before ++ line ++ following rest)
        ↔ AtComments comments (number + 1) rest fun first l _ =>
            Open (before ++ preceding (line :: first)) l := by
      by_cases hrest : rest = []
      · subst hrest
        exact iff_of_true (keeps_refl _) atComments_nil
      · have hlast : (before ++ (line ++ ['\n'])).getLast? ≠ some '/' := by simp
        have hnext : number + 1 = 1 + breaks (before ++ (line ++ ['\n'])) := by
          rw [breaks_append, breaks_append, breaks_eq_zero hline, hnumber]
          show 1 + breaks before + 1 = 1 + (breaks before + (0 + 1))
          omega
        have hih := ih hlines' hcolumn' hlast hnext
        rw [following_of_ne_nil hrest, following_of_ne_nil (withComments_ne_nil hrest)]
        simp only [preceding, List.flatMap_cons, List.append_assoc, List.singleton_append] at hih ⊢
        exact hih
    rw [withComments_cons, intercalate_cons, intercalate_cons, atComments_cons, ← htail]
    cases hc : comments.find? (·.line = number) with
    | none =>
      simp only [← List.append_assoc]
      rw [keeps_of_find?_eq_none hc]
      exact ⟨fun h => ⟨fun c hc => absurd hc.symm (Option.some_ne_none c), h⟩, (·.2)⟩
    | some c =>
      have hstack := hstacks c (List.mem_of_find?_eq_some hc)
      simp only [← List.append_assoc]
      rw [keeps_cons hbefore hnumber hline (hcolumn line (by simp)) hstack hc
        (endsLine_following _) (endsLine_following _)]
      refine and_congr_left fun _ => ⟨?_, fun h => ?_⟩
      · rintro hopen _ ⟨⟩
        simpa [preceding] using hopen
      · simpa [preceding] using h c rfl

/-! ## Sources -/

/-- A place of a source where a comment is written. -/
structure Place (source : String) (comments : List Comment) where
  /-- The lines before. -/
  before : List (List Char)
  line : List Char
  /-- The lines that follow. -/
  after : List (List Char)
  comment : Comment
  split : lines source.toList = before ++ line :: after
  chosen : (latest comments).find? (·.line = 1 + before.length) = some comment

namespace Place

variable {source : String} {comments : List Comment}

/-- The number of the line. -/
def number (p : Place source comments) : Nat :=
  1 + p.before.length

/-- The code of the line can be followed by a comment. -/
def Open (p : Place source comments) : Prop :=
  Comment.Open (preceding p.before) p.line

end Place

/-- An annotated source has the tokens of the source, its comments are read as comments, and
    what they have taken the place of are blanks and comments. -/
structure KeepsCode (source annotated : String) (comments : List Comment) : Prop where
  tokens : (Token.scan annotated).1 = (Token.scan source).1
  found : ∀ p : Place source comments,
    ⟨p.number, ⟨.skipped, '/' :: '/' :: written p.line p.comment.stack⟩⟩
      ∈ numbered 1 (cut annotated.toList)
  replaced : ∀ p : Place source comments, fromSlashes p.line ≠ [] →
    ⟨p.number, ⟨.skipped, fromSlashes p.line⟩⟩ ∈ numbered 1 (cut source.toList)

/-- What holds at all places of a source, line by line. -/
theorem forall_place_iff {source : String} {comments : List Comment}
    {p : List (List Char) → List Char → Comment → Prop} :
    (∀ place : Place source comments, p place.before place.line place.comment)
      ↔ AtComments (latest comments) 1 (lines source.toList) p :=
  ⟨fun h before line after c hsplit hc => h ⟨before, line, after, c, hsplit, hc⟩,
    fun h place => h place.before place.line place.after place.comment place.split place.chosen⟩

theorem mem_notable_iff {line start : Nat} {text cs : List Char}
    (h : isNotable ⟨.skipped, text⟩ = true) :
    ⟨line, ⟨.skipped, text⟩⟩ ∈ notable start cs
      ↔ ⟨line, ⟨.skipped, text⟩⟩ ∈ numbered start (cut cs) := by
  rw [notable, List.mem_filter]
  exact ⟨(·.1), fun hmem => ⟨hmem, h⟩⟩

theorem isNotable_fromSlashes {line : List Char} (h : fromSlashes line ≠ []) :
    isNotable ⟨.skipped, fromSlashes line⟩ = true := by
  rcases fromSlashes_cases line with hnil | ⟨t, ht⟩
  · exact absurd hnil h
  · rw [ht]
    rfl

theorem keepsCode_iff_keeps {source annotated : String} {comments : List Comment} :
    KeepsCode source annotated comments
      ↔ Keeps (latest comments) 1 (lines source.toList) annotated.toList source.toList := by
  constructor
  · rintro ⟨htokens, hfound, hreplaced⟩
    refine ⟨scan_eq_iff.1 htokens, forall_place_iff.1 fun p => ?_,
      forall_place_iff.1 fun p hne => ?_⟩
    · exact (mem_notable_iff rfl).2 (hfound p)
    · exact (mem_notable_iff (isNotable_fromSlashes hne)).2 (hreplaced p hne)
  · rintro ⟨htokens, hfound, hreplaced⟩
    refine ⟨scan_eq_iff.2 htokens, fun p => ?_, fun p hne => ?_⟩
    · exact (mem_notable_iff rfl).1 (forall_place_iff.2 hfound p)
    · exact (mem_notable_iff (isNotable_fromSlashes hne)).1 (forall_place_iff.2 hreplaced p hne)

/-- Comments leave the code of a source alone if and only if it is open to them at all their
    places. -/
theorem keepsCode_iff {source : String} {comments : List Comment}
    (hstacks : ∀ c ∈ comments, Text.OneLine c.stack) :
    KeepsCode source (rewritten source comments) comments
      ↔ ∀ p : Place source comments, p.Open := by
  have hlines : Keeps (latest comments) 1 (lines source.toList)
        ([] ++ ['\n'].intercalate
          (withComments (column (lines source.toList)) (latest comments) 1 (lines source.toList)))
        ([] ++ ['\n'].intercalate (lines source.toList))
      ↔ AtComments (latest comments) 1 (lines source.toList) fun first line _ =>
          Open ([] ++ preceding first) line :=
    keeps_iff (fun c hc => hstacks c (mem_of_mem_latest hc))
      (fun _ => newline_not_mem_of_mem_lines) (fun _ => length_code_lt_column) (by simp) rfl
  rw [intercalate_lines, List.nil_append, List.nil_append] at hlines
  rw [keepsCode_iff_keeps, rewritten, String.toList_ofList, hlines, ← forall_place_iff]
  rfl

end HuffTrace.Comment
