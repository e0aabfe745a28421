/-
  HuffTrace.Proofs.Comment.Again

  Writing the same comments a second time.  A commented line has the code that
  it had before, and so the comments find their lines and their column as they
  left them (`rewritten_rewritten`).  Where the text up to the code is solid, the
  commented text is recognised as the original is, with the same tokens
  (`scan_rewritten`).
-/

import HuffTrace.Proofs.Comment.Anchor

namespace HuffTrace.Comment

open HuffTrace.Span

/-! ## The code of a commented line -/

theorem beforeSlashes_isPrefix (line : List Char) : beforeSlashes line <+: line :=
  ⟨fromSlashes line, beforeSlashes_append_fromSlashes line⟩

/-- A text that starts another one up to its first double slash has none itself. -/
theorem beforeSlashes_eq_self {line x : List Char} (h : x <+: beforeSlashes line) :
    beforeSlashes x = x := by
  induction line generalizing x with
  | nil =>
    rw [List.prefix_nil.1 h]
    rfl
  | cons c cs ih =>
    cases x with
    | nil => rfl
    | cons d x =>
      rw [beforeSlashes] at h
      split at h
      · cases List.prefix_nil.1 h
      · next hslashes =>
        obtain ⟨rfl, hx⟩ := List.cons_prefix_cons.1 h
        rw [beforeSlashes, if_neg, ih hx]
        rintro ⟨rfl, hhead⟩
        refine hslashes ⟨rfl, ?_⟩
        obtain ⟨t, rfl⟩ := List.head?_eq_some_iff.1 hhead
        obtain ⟨t', ht'⟩ := hx.trans (beforeSlashes_isPrefix cs)
        rw [← ht']
        rfl

theorem beforeSlashes_append_space {x : List Char} (h : beforeSlashes x = x) (y : List Char) :
    beforeSlashes (x ++ ' ' :: y) = x ++ ' ' :: beforeSlashes y := by
  induction x with
  | nil =>
    rw [List.nil_append, beforeSlashes, if_neg (by simp)]
    rfl
  | cons c x ih =>
    rw [beforeSlashes] at h
    split at h
    · cases h
    · next hslashes =>
      rw [List.cons_append, beforeSlashes, if_neg, ih (List.cons.inj h).2]
      · rfl
      · rintro ⟨rfl, hhead⟩
        cases x with
        | nil => simp at hhead
        | cons d x => exact hslashes ⟨rfl, hhead⟩

theorem beforeSlashes_spaces (m : Nat) (t : List Char) :
    beforeSlashes (List.replicate m ' ' ++ t) = List.replicate m ' ' ++ beforeSlashes t := by
  induction m with
  | zero => rfl
  | succ m ih =>
    rw [List.replicate_succ, List.cons_append, beforeSlashes, if_neg (by simp), ih]
    rfl

theorem beforeSlashes_append_spaces {x : List Char} (h : beforeSlashes x = x) (m : Nat)
    (t : List Char) :
    beforeSlashes (x ++ (List.replicate (m + 1) ' ' ++ '/' :: '/' :: t))
      = x ++ List.replicate (m + 1) ' ' := by
  have hslashes : beforeSlashes ('/' :: '/' :: t) = [] := if_pos ⟨rfl, rfl⟩
  rw [List.replicate_succ, List.cons_append, beforeSlashes_append_space h, beforeSlashes_spaces,
    hslashes, List.append_nil]

theorem trimEnd_code_append (line : List Char) (m : Nat) :
    Text.trimEnd (code line ++ List.replicate m ' ') = code line := by
  have hspaces : ∀ x ∈ (List.replicate m ' ').reverse, Text.isBlank x = true := by
    rw [List.reverse_replicate]
    exact List.forall_mem_replicate.2 (.inr rfl)
  rw [Text.trimEnd, Text.dropEndWhile, List.reverse_append, List.dropWhile_append_of_pos hspaces]
  exact List.rdropWhile_idempotent Text.isBlank (beforeSlashes line)

/-- The first double slash of a commented line starts the comment. -/
theorem beforeSlashes_withComment {column : Nat} {line : List Char}
    (h : (code line).length < column) (stack : String) :
    beforeSlashes (withComment column line stack) = (code line).rightpad column ' ' := by
  -- At least one space keeps a slash at the end of the code apart from the two of the comment.
  have hcode := beforeSlashes_eq_self (code_isPrefix_beforeSlashes line)
  obtain ⟨m, hm⟩ := Nat.exists_eq_succ_of_ne_zero (Nat.sub_ne_zero_of_lt h)
  rw [withComment_eq, List.rightpad, hm, Nat.succ_eq_add_one, beforeSlashes_append_spaces hcode]

/-- A comment leaves the code of its line. -/
theorem code_withComment {column : Nat} {line : List Char} (h : (code line).length < column)
    (stack : String) : code (withComment column line stack) = code line := by
  rw [code, beforeSlashes_withComment h]
  exact trimEnd_code_append line _

/-- A comment leaves a carriage return at the end of its line, and makes none. -/
theorem getLast?_withComment {column : Nat} {line : List Char} {stack : String}
    (hstack : stack.toList.getLast? ≠ some '\r') :
    (withComment column line stack).getLast? = some '\r' ↔ line.getLast? = some '\r' := by
  simp only [withComment]
  by_cases hline : line.getLast? = some '\r'
  · rw [if_pos hline, List.getLast?_concat]
    exact iff_of_true rfl hline
  · rw [if_neg hline, List.append_nil, List.getLast?_append]
    refine iff_of_false ?_ hline
    cases hlast : stack.toList.getLast? with
    | none => simp
    | some x =>
      rw [hlast] at hstack
      simpa using hstack

theorem withComment_withComment {column : Nat} {line : List Char} (h : (code line).length < column)
    {stack : String} (hstack : stack.toList.getLast? ≠ some '\r') :
    withComment column (withComment column line stack) stack = withComment column line stack := by
  have hending : (if (withComment column line stack).getLast? = some '\r' then ['\r'] else [])
      = if line.getLast? = some '\r' then ['\r'] else [] :=
    if_congr (getLast?_withComment hstack) rfl rfl
  rw [withComment, code_withComment h, hending]
  rfl

theorem newline_not_mem_withComment {column : Nat} {line : List Char} (hline : '\n' ∉ line)
    {stack : String} (hstack : Text.OneLine stack) : '\n' ∉ withComment column line stack := by
  have hcode : '\n' ∉ code line := fun hmem => hline ((code_isPrefix line).subset hmem)
  rw [withComment_eq]
  simp [hcode, newline_not_mem_written hstack]

/-! ## Annotating twice -/

section Twice

variable {comments : List Comment} {column : Nat}

theorem withComments_withComments (hends : ∀ c ∈ comments, c.stack.toList.getLast? ≠ some '\r')
    {source : List (List Char)} (hcolumn : ∀ line ∈ source, (code line).length < column)
    (number : Nat) :
    withComments column comments number (withComments column comments number source)
      = withComments column comments number source := by
  induction source generalizing number with
  | nil => rfl
  | cons line rest ih =>
    rw [withComments_cons, withComments_cons, ih fun l hl => hcolumn l (by simp [hl])]
    cases hc : comments.find? (·.line = number) with
    | none => rfl
    | some c =>
      simp only
      rw [withComment_withComment (hcolumn line (by simp)) (hends c (List.mem_of_find?_eq_some hc))]

theorem map_code_withComments {source : List (List Char)}
    (hcolumn : ∀ line ∈ source, (code line).length < column) (number : Nat) :
    (withComments column comments number source).map code = source.map code := by
  induction source generalizing number with
  | nil => rfl
  | cons line rest ih =>
    rw [withComments_cons, List.map_cons, List.map_cons, ih fun l hl => hcolumn l (by simp [hl])]
    cases hc : comments.find? (·.line = number) with
    | none => rfl
    | some c => rw [code_withComment (hcolumn line (by simp))]

theorem column_eq_of_code {a b : List (List Char)} (h : a.map code = b.map code) :
    Comment.column a = Comment.column b := by
  have hlengths : ∀ source : List (List Char),
      source.map (fun line => (code line).length) = (source.map code).map List.length := by
    intro source
    rw [List.map_map]
    rfl
  rw [Comment.column, Comment.column, hlengths, hlengths, h]

theorem newline_not_mem_withComments (hstacks : ∀ c ∈ comments, Text.OneLine c.stack)
    {source : List (List Char)} (hlines : ∀ line ∈ source, '\n' ∉ line) (number : Nat) :
    ∀ line ∈ withComments column comments number source, '\n' ∉ line := by
  induction source generalizing number with
  | nil => nofun
  | cons first rest ih =>
    intro line hmem
    rw [withComments_cons, List.mem_cons] at hmem
    rcases hmem with rfl | hmem
    · cases hc : comments.find? (·.line = number) with
      | none => exact hlines first (by simp)
      | some c =>
        exact newline_not_mem_withComment (hlines first (by simp))
          (hstacks c (List.mem_of_find?_eq_some hc))
    · exact ih (fun l hl => hlines l (by simp [hl])) (number + 1) line hmem

end Twice

/-- The lines of an annotated source are those of the source, with their comments. -/
theorem lines_rewritten {source : String} {comments : List Comment}
    (hstacks : ∀ c ∈ comments, Text.OneLine c.stack) :
    lines (rewritten source comments).toList
      = withComments (column (lines source.toList)) (latest comments) 1 (lines source.toList) := by
  have hlines : ∀ line ∈ withComments (column (lines source.toList)) (latest comments) 1
      (lines source.toList), '\n' ∉ line :=
    newline_not_mem_withComments (fun c hc => hstacks c (mem_of_mem_latest hc))
      (fun _ => newline_not_mem_of_mem_lines) 1
  rw [rewritten, String.toList_ofList,
    lines_intercalate (withComments_ne_nil (lines_ne_nil _)) hlines]

/-- Annotating an annotated source with the same comments changes nothing. -/
theorem rewritten_rewritten {source : String} {comments : List Comment}
    (hstacks : ∀ c ∈ comments, Text.OneLine c.stack)
    (hends : ∀ c ∈ comments, c.stack.toList.getLast? ≠ some '\r') :
    rewritten (rewritten source comments) comments = rewritten source comments := by
  have hcolumn : ∀ line ∈ lines source.toList,
      (code line).length < column (lines source.toList) := fun _ => length_code_lt_column
  conv_lhs => rw [rewritten]
  rw [lines_rewritten hstacks, column_eq_of_code (map_code_withComments hcolumn 1),
    withComments_withComments (fun c hc => hends c (mem_of_mem_latest hc)) hcolumn]
  rfl

/-! ## Recognised texts -/

theorem known_fromSlashes {line rest : List Char} (hline : '\n' ∉ line) (hrest : EndsLine rest) :
    Known (fromSlashes line ++ rest) ↔ Known rest := by
  rcases fromSlashes_cases line with hnil | ⟨t, ht⟩
  · rw [hnil, List.nil_append]
  · rw [ht]
    exact known_comment (newline_not_mem_fromSlashes hline ht) hrest

/-- A comment after a solid text leaves a recognised text so. -/
theorem known_withComment {before line rest : List Char} (hsolid : Solid (before ++ code line))
    (hline : '\n' ∉ line) (hrest : EndsLine rest) {column : Nat}
    (hcolumn : (code line).length < column) {stack : String} (hstack : Text.OneLine stack)
    (h : Known (before ++ line ++ rest)) :
    Known (before ++ withComment column line stack ++ rest) := by
  obtain ⟨blanks, -, hsplit, hblanks⟩ := exists_blanks line
  obtain ⟨hcalm, hgap⟩ := calm_fromSlashes line hrest
  obtain ⟨m, hcommented⟩ := append_withComment hcolumn stack before rest
  have horiginal : before ++ line ++ rest
      = before ++ code line ++ (blanks ++ (fromSlashes line ++ rest)) := by
    conv_lhs => rw [hsplit]
    simp only [List.append_assoc]
  have hspaces : ∀ x ∈ List.replicate (m + 1) ' ', isLayout x = true :=
    List.forall_mem_replicate.2 (.inr rfl)
  rw [horiginal, hsolid.known_append_iff (trailing_of_isBlank hblanks hcalm hgap).calm] at h
  -- Both texts are recognised if and only if the code and the lines that follow are.
  have hknown : Known rest := (known_fromSlashes hline hrest).1 (h.2.of_blanks hblanks)
  rw [hcommented, hsolid.known_append_iff (by rw [List.replicate_succ]; exact calm_cons (.inl rfl))]
  refine ⟨h.1, ?_⟩
  rw [known_layout_append hspaces, known_comment (newline_not_mem_written hstack) hrest]
  exact hknown

/-- Comments after solid texts leave a recognised text so. -/
theorem known_withComments {comments : List Comment}
    (hstacks : ∀ c ∈ comments, Text.OneLine c.stack) {column : Nat} {source : List (List Char)}
    (hlines : ∀ line ∈ source, '\n' ∉ line)
    (hcolumn : ∀ line ∈ source, (code line).length < column) (before : List Char) {number : Nat}
    (hsolid : AtComments comments number source fun first line _ =>
      Solid (before ++ preceding first ++ code line))
    (h : Known (before ++ ['\n'].intercalate source)) :
    Known (before ++ ['\n'].intercalate (withComments column comments number source)) := by
  induction source generalizing before number with
  | nil => exact h
  | cons line rest ih =>
    rw [atComments_cons] at hsolid
    -- The lines that follow, with this line as it was.
    have htail : Known
        (before ++ line ++ following (withComments column comments (number + 1) rest)) := by
      rw [intercalate_cons, ← List.append_assoc] at h
      by_cases hrest : rest = []
      · subst hrest
        exact h
      · rw [following_of_ne_nil hrest] at h
        rw [following_of_ne_nil (withComments_ne_nil hrest), List.append_cons]
        refine ih (fun l hl => hlines l (by simp [hl])) (fun l hl => hcolumn l (by simp [hl])) _
          ?_ ?_
        · have hnext := hsolid.2
          simp only [preceding, List.flatMap_cons, List.append_assoc] at hnext ⊢
          exact hnext
        · rwa [List.append_cons] at h
    rw [withComments_cons, intercalate_cons, ← List.append_assoc]
    cases hc : comments.find? (·.line = number) with
    | none => exact htail
    | some c =>
      have hfirst := hsolid.1 c hc
      simp only [preceding, List.flatMap_nil, List.append_nil] at hfirst
      exact known_withComment hfirst (hlines line (by simp)) (endsLine_following _)
        (hcolumn line (by simp)) (hstacks c (List.mem_of_find?_eq_some hc)) htail

/-! ## Scanning an annotated source -/

theorem Place.open_of_solid {source : String} {comments : List Comment} (p : Place source comments)
    (h : Solid p.row.coded) : p.Open := by
  obtain ⟨blanks, hcode, -, hblanks⟩ := exists_blanks p.line
  have hspace : ∀ x ∈ [' '], Text.isBlank x = true := by
    intro x hx
    rw [List.mem_singleton.1 hx]
    rfl
  refine ⟨h.clear, scan_ofList_eq_iff.2 ?_⟩
  rw [hcode, ← List.append_assoc]
  exact (h.tokens_append_blanks hspace 1).trans (h.tokens_append_blanks hblanks 1).symm

/-- A recognised source that is annotated at solid places is scanned to the same tokens, and to no
    problems. -/
theorem scan_rewritten {source : String} {comments : List Comment}
    (hstacks : ∀ c ∈ comments, Text.OneLine c.stack) (hknown : Known source.toList)
    (hsolid : ∀ p : Place source comments, Solid p.row.coded) :
    Token.scan (rewritten source comments) = Token.scan source := by
  have htokens := ((keepsCode_iff hstacks).2 fun p => p.open_of_solid (hsolid p)).tokens
  have hknown' : Known (rewritten source comments).toList := by
    have hall : AtComments (latest comments) 1 (lines source.toList) fun first line _ =>
        Solid ([] ++ preceding first ++ code line) := forall_place_iff.1 hsolid
    rw [rewritten, String.toList_ofList]
    refine known_withComments (fun c hc => hstacks c (mem_of_mem_latest hc))
      (fun line hline => newline_not_mem_of_mem_lines hline) (fun _ => length_code_lt_column) []
      hall ?_
    rwa [List.nil_append, intercalate_lines]
  refine Prod.ext htokens ?_
  rw [(scan_snd_eq_empty_iff source).2 hknown, (scan_snd_eq_empty_iff _).2 hknown']

end HuffTrace.Comment
