/-
  HuffTrace.Proofs.Comment.Anchor

  Where comments are written in a text without stray double slashes.  A comment
  belongs to the last token that ends on its line, its anchor.  After the anchor
  the line has only attributes, blanks and a line comment, so that the code of
  the line, up to its first double slash, ends with the anchor or an attribute:
  with a span that closes.  The text up to there is solid (`Row.solid`), and the
  comment disturbs nothing before it.
-/

import HuffTrace.Proofs.Comment.Annotate
import HuffTrace.Proofs.Machine.Comments
import HuffTrace.Proofs.Source.Boundary

namespace HuffTrace.Comment

open HuffTrace.Span

/-! ## Rows -/

/-- A line of a text with what stands before and after it. -/
structure Row (cs : List Char) where
  head : List Char
  line : List Char
  rest : List Char
  split : cs = head ++ (line ++ rest)
  starts : head = [] ∨ ∃ h, head = h ++ ['\n']
  oneLine : '\n' ∉ line
  ends : EndsLine rest

namespace Row

variable {cs : List Char} (row : Row cs)

/-- The text up to the end of the code of the line. -/
def coded : List Char :=
  row.head ++ code row.line

/-- The position of the first double slash of the line, or that of its end. -/
def stop : Nat :=
  (row.head ++ beforeSlashes row.line).length

theorem not_endsDark_head : ¬ EndsDark row.head := by
  rintro ⟨x, hx, hdark⟩
  rcases row.starts with hnil | ⟨h, hh⟩
  · rw [hnil] at hx
    cases hx
  · rw [hh, List.getLast?_concat] at hx
    cases hx
    cases hdark

/-- What ends on a line without a blank ends after its start. -/
theorem exists_of_endsDark {a b : List Char} (h : cs = a ++ b)
    (hbreaks : breaks a = breaks row.head) (hdark : EndsDark a) :
    ∃ e l, a = row.head ++ e ∧ row.line = e ++ l ∧ EndsDark e := by
  rcases List.append_eq_append_iff.1 (h.symm.trans row.split) with ⟨v, hhead, -⟩ | ⟨e, ha, he⟩
  · -- The text `a` would end with the line break before the line.
    exfalso
    rcases List.eq_nil_or_concat v with rfl | ⟨v, x, rfl⟩
    · rw [List.append_nil] at hhead
      exact row.not_endsDark_head (hhead ▸ hdark)
    · rcases row.starts with hnil | ⟨h, hh⟩
      · rw [hnil, List.concat_eq_append] at hhead
        simp at hhead
      · rw [List.concat_eq_append, hh, ← List.append_assoc] at hhead
        obtain ⟨rfl, hx⟩ := List.append_inj' hhead rfl
        rw [hh, breaks_append, breaks_append] at hbreaks
        have hone : breaks ['\n'] = 1 := rfl
        omega
  -- Otherwise `a` ends on the line, of which it has `e`.
  · have hzero : breaks e = 0 := by
      rw [ha, breaks_append] at hbreaks
      omega
    have hedark : EndsDark e := by
      obtain ⟨x, hx, hblank⟩ := hdark
      cases e with
      | nil =>
        rw [List.append_nil] at ha
        exact absurd ⟨x, ha ▸ hx, hblank⟩ row.not_endsDark_head
      | cons y e =>
        refine ⟨x, ?_, hblank⟩
        rw [ha, List.getLast?_append] at hx
        simpa using hx
    rcases List.append_eq_append_iff.1 he with ⟨l, hl, hrest⟩ | ⟨l, hl, -⟩
    · cases l with
      | nil => exact ⟨e, [], ha, by rw [hl]; simp, hedark⟩
      | cons x l =>
        exfalso
        obtain rfl := row.ends x (l ++ b) hrest
        have hpos : 0 < breaks ('\n' :: l) := by simp [breaks]
        rw [hl, breaks_append] at hzero
        omega
    · exact ⟨e, l, ha, hl, hedark⟩

/-- Every double slash of the line stands in a line comment. -/
def Tidy : Prop :=
  fromSlashes row.line ≠ [] → ∃ a body b, cut cs = a ++ ⟨.skipped, '/' :: body⟩ :: b
    ∧ (texts a).length ≤ row.stop ∧ row.stop < (texts a).length + (body.length + 1)

variable {row} {a b : List Span} {s : Span}

/-- A span that ends on the line without a blank, and starts before its first double slash, belongs
    to its code, unless it is a comment. -/
theorem exists_of_span (htidy : row.Tidy) (hcut : cut cs = a ++ s :: b) (hdark : EndsDark s.text)
    (hkind : ∀ body, s ≠ ⟨.skipped, '/' :: body⟩)
    (hbreaks : breaks (texts a ++ s.text) = breaks row.head)
    (hstart : fromSlashes row.line ≠ [] → (texts a).length ≤ row.stop) :
    ∃ e l, texts a ++ s.text = row.head ++ e ∧ code row.line = e ++ l := by
  have htext : cs = texts a ++ s.text ++ texts b := by
    rw [← texts_cut cs, hcut]
    simp
  obtain ⟨e, l, hspan, hline, hedark⟩ :=
    row.exists_of_endsDark htext hbreaks (hdark.append_left (texts a))
  refine ⟨e, ?_⟩
  have hlen := congrArg List.length hspan
  rw [List.length_append, List.length_append] at hlen
  -- The first double slash would be in the span otherwise.
  have hbefore : e <+: beforeSlashes row.line := by
    by_cases hfrom : fromSlashes row.line = []
    · have hwhole := beforeSlashes_append_fromSlashes row.line
      rw [hfrom, List.append_nil] at hwhole
      exact ⟨l, by rw [hwhole, hline]⟩
    · refine List.prefix_of_prefix_length_le ⟨l, hline.symm⟩
        ⟨fromSlashes row.line, beforeSlashes_append_fromSlashes row.line⟩ ?_
      by_contra hlong
      obtain ⟨a', body, b', hcut', hle, hlt⟩ := htidy hfrom
      have hstop : row.stop = row.head.length + (beforeSlashes row.line).length :=
        List.length_append
      obtain ⟨-, rfl⟩ := span_at_unique (i := row.stop) (hcut.symm.trans hcut') (hstart hfrom)
        (by omega) hle (by simpa using hlt)
      exact hkind body rfl
  obtain ⟨l', hl'⟩ := hbefore
  obtain ⟨blanks, hcode, -, hblanks⟩ := exists_blanks row.line
  -- A text without a blank at its end does not end among the blanks after the code.
  rcases List.append_eq_append_iff.1 (hl'.trans hcode) with ⟨v, hv, -⟩ | ⟨v, rfl, hv⟩
  · exact ⟨v, hspan, hv⟩
  · refine ⟨[], hspan, ?_⟩
    rcases List.eq_nil_or_concat v with rfl | ⟨v, x, rfl⟩
    · simp
    · exfalso
      obtain ⟨y, hy, hdark⟩ := hedark
      rw [List.concat_eq_append, ← List.append_assoc, List.getLast?_concat] at hy
      cases hy
      rw [hblanks x (by rw [hv]; simp)] at hdark
      cases hdark

/-- A span that ends on the line, and is no layout, starts before the first double slash of the
    line. -/
theorem start_le_stop (htidy : row.Tidy) (hcut : cut cs = a ++ s :: b) (hne : s.text ≠ [])
    (hbreaks : breaks (texts a ++ s.text) = breaks row.head) (hfrom : fromSlashes row.line ≠ []) :
    (texts a).length ≤ row.stop := by
  by_contra hlate
  obtain ⟨a', body, b', hcut', hle, hlt⟩ := htidy hfrom
  have hpos : 0 < s.text.length := List.length_pos_iff.2 hne
  -- The comment ends before the span starts.
  have hend : (texts a').length + (body.length + 1) ≤ (texts a).length := by
    by_contra hlong
    obtain ⟨rfl, -⟩ := span_at_unique (i := (texts a).length) (hcut'.symm.trans hcut) (by omega)
      (by simpa using hlong) (Nat.le_refl _) (by omega)
    omega
  obtain ⟨v, rfl, rfl⟩ := exists_of_span_later (i := (texts a).length) (hcut'.symm.trans hcut)
    (by simpa using hend) (by omega)
  have hends := endsLine_of_comment hcut'
  -- What comes after the comment is on a later line.
  have hnewline : 0 < breaks (texts v ++ s.text) := by
    cases hv : texts v ++ s.text with
    | nil => exact absurd (List.append_eq_nil_iff.1 hv).2 hne
    | cons x t =>
      have hx : x = '\n' := hends x (t ++ texts b) (by
        rw [texts_append, texts_cons, ← List.append_assoc, hv, List.cons_append])
      rw [hx]
      simp [breaks]
  have hhead : breaks row.head ≤ breaks (texts a' ++ '/' :: body) := by
    have hwhole : texts a' ++ '/' :: body <+: cs := by
      rw [← texts_cut cs, hcut']
      exact ⟨texts (v ++ s :: b), by simp⟩
    have hstop : row.head.length ≤ row.stop := by
      rw [stop, List.length_append]
      omega
    have hsub : row.head <+: texts a' ++ '/' :: body := by
      refine List.prefix_of_prefix_length_le ⟨_, row.split.symm⟩ hwhole ?_
      rw [List.length_append, List.length_cons]
      omega
    exact hsub.sublist.count_le _
  rw [texts_append, texts_cons, List.append_assoc, List.append_assoc, breaks_append] at hbreaks
  rw [breaks_append] at hhead
  simp only [breaks_append] at hbreaks hnewline
  omega

/-- A double slash that starts on the line does not come before the first one. -/
theorem length_beforeSlashes_le_of_slashes {x t : List Char}
    (h : cs = row.head ++ (x ++ '/' :: '/' :: t)) (hx : x.length < row.line.length) :
    (beforeSlashes row.line).length ≤ x.length := by
  have hline : row.line ++ row.rest = x ++ '/' :: '/' :: t :=
    List.append_cancel_left (row.split.symm.trans h)
  obtain ⟨y, hy, hrest⟩ : ∃ y, row.line = x ++ y ∧ '/' :: '/' :: t = y ++ row.rest := by
    rcases List.append_eq_append_iff.1 hline with ⟨y, hy, -⟩ | hy
    · rw [hy, List.length_append] at hx
      omega
    · exact hy
  -- Both slashes are on the line, for what follows it starts with a line break.
  rcases y with - | ⟨c, - | ⟨d, y⟩⟩
  · rw [hy, List.append_nil] at hx
    omega
  · have hslash := row.ends '/' t (List.cons.inj hrest).2.symm
    exact absurd hslash (by decide)
  · obtain ⟨hc, hrest⟩ := List.cons.inj hrest
    obtain ⟨hd, -⟩ := List.cons.inj hrest
    rw [hy, ← hc, ← hd]
    exact length_beforeSlashes_le x y

/-- No comment starts in the code of a line. -/
theorem length_code_le_of_slashes {x t : List Char} (h : cs = row.head ++ (x ++ '/' :: '/' :: t)) :
    (code row.line).length ≤ x.length := by
  by_contra hshort
  have hline := (code_isPrefix row.line).length_le
  have hbefore : (code row.line).length ≤ (beforeSlashes row.line).length :=
    (List.rdropWhile_prefix Text.isBlank (l := beforeSlashes row.line)).length_le
  have hslashes := row.length_beforeSlashes_le_of_slashes h (by omega)
  omega

theorem length_coded_le_stop : row.coded.length ≤ row.stop := by
  obtain ⟨blanks, hcode, -, -⟩ := exists_blanks row.line
  rw [coded, stop, hcode]
  simp

theorem coded_isPrefix : row.coded <+: cs := by
  obtain ⟨l, hl⟩ := code_isPrefix row.line
  have hwhole : row.coded ++ (l ++ row.rest) = row.head ++ (row.line ++ row.rest) := by
    rw [coded, List.append_assoc, ← List.append_assoc (code row.line), hl]
  exact ⟨l ++ row.rest, hwhole.trans row.split.symm⟩

theorem breaks_coded : breaks row.coded = breaks row.head := by
  rw [coded, breaks_append, breaks_code row.oneLine, Nat.add_zero]

/-- What ends between the start of a line and the end of its code ends on the line. -/
theorem breaks_of_le_coded {x y z : List Char} (h : cs = x ++ y) (hx : x = row.head ++ z)
    (hle : x.length ≤ row.coded.length) : breaks x = breaks row.head := by
  have hstart : x <+: row.coded :=
    List.prefix_of_prefix_length_le ⟨y, h.symm⟩ row.coded_isPrefix hle
  have hmost : breaks x ≤ breaks row.coded := hstart.sublist.count_le _
  rw [breaks_coded] at hmost
  rw [hx, breaks_append] at hmost ⊢
  omega

/-- What follows the code of a line is calm. -/
theorem calm_of_coded {w : List Char} (h : cs = row.coded ++ w) : Calm w := by
  obtain ⟨blanks, -, hline, hblanks⟩ := exists_blanks row.line
  have hw : w = blanks ++ (fromSlashes row.line ++ row.rest) := by
    have hcs := h.symm.trans row.split
    rw [hline, coded] at hcs
    simpa using hcs
  obtain ⟨hcalm, hgap⟩ := calm_fromSlashes row.line row.ends
  rw [hw]
  exact (trailing_of_isBlank hblanks hcalm hgap).calm

/-- The text up to the code of a line is solid if it ends with a span that closes. -/
theorem solid_of_span (hknown : Known cs) (hcut : cut cs = a ++ s :: b)
    (hcloses : ∀ c u, s.text = c :: u → Closes c s.kind) (hcoded : row.coded = texts a ++ s.text) :
    Solid row.coded := by
  have hspans : texts (a ++ [s]) = row.coded := by rw [hcoded]; simp
  have hsplit : cut cs = a ++ [s] ++ b := by rw [hcut]; simp
  have hcalm : Calm (texts b) := by
    have htexts := texts_cut cs
    rw [hcut, texts_append, texts_cons, ← List.append_assoc, ← hcoded] at htexts
    exact row.calm_of_coded htexts.symm
  rw [← hspans]
  refine solid_of_closes hsplit hknown ?_ hcalm
  intro a' s' c u heq htext
  obtain ⟨-, hs⟩ := List.append_inj' heq rfl
  cases hs
  exact hcloses c u htext

end Row

/-! ## Anchors -/

/-- A lexeme that closes and is the last one to end on a line. -/
structure Anchor (cs : List Char) (number : Nat) where
  before : List Span
  span : Span
  after : List Span
  lexeme : Lexeme
  split : cut cs = before ++ span :: after
  kind : span.kind = .lexeme lexeme
  closes : endsWithLine span.kind = false
  ends : number = 1 + breaks (texts before ++ span.text)
  last : ∀ v u b, after = v ++ u :: b → ∀ lexeme, u.kind = .lexeme lexeme →
    number < 1 + breaks (texts (before ++ span :: v))

namespace Anchor

variable {cs : List Char} {number : Nat} (anchor : Anchor cs number)

theorem mem_cut : anchor.span ∈ cut cs := by
  rw [anchor.split]
  simp

theorem closes_text (c : Char) (u : List Char) (_ : anchor.span.text = c :: u) :
    Closes c anchor.span.kind :=
  closes_of_lexeme anchor.kind anchor.closes

theorem endsDark : EndsDark anchor.span.text :=
  endsDark_of_lexeme anchor.mem_cut anchor.kind anchor.closes

end Anchor

namespace Row

variable {cs : List Char} {row : Row cs} {a b : List Span} {s : Span}

theorem getLast?_coded {x : Char} (hne : code row.line ≠ []) (h : row.coded.getLast? = some x) :
    Text.isBlank x = false := by
  obtain ⟨y, hy⟩ : ∃ y, (code row.line).getLast? = some y :=
    ⟨_, List.getLast?_eq_some_getLast hne⟩
  rw [coded, List.getLast?_append, hy] at h
  cases h
  exact isBlank_of_getLast?_code hy

/-- The last character of the code lies in the span that it lies in. -/
theorem exists_mem_of_coded (hne : code row.line ≠ []) (hcut : cut cs = a ++ s :: b)
    (hle : (texts a).length ≤ row.coded.length - 1)
    (hlt : row.coded.length - 1 < (texts a).length + s.text.length) :
    ∃ x ∈ s.text, Text.isBlank x = false := by
  obtain ⟨w, hw⟩ := row.coded_isPrefix
  have hcoded : row.coded ≠ [] := fun hnil => hne (List.append_eq_nil_iff.1 hnil).2
  have hpos : 0 < row.coded.length := List.length_pos_iff.2 hcoded
  have hlast := List.getLast?_eq_some_getLast hcoded
  refine ⟨_, ?_, getLast?_coded hne hlast⟩
  have htexts := texts_cut cs
  rw [hcut, texts_append, texts_cons] at htexts
  -- The character is at the same position of the text, of the code and of the span.
  have hat : (texts a ++ (s.text ++ texts b))[row.coded.length - 1]? = row.coded.getLast? := by
    rw [htexts.trans hw.symm, List.getElem?_append_left (by omega), List.getLast?_eq_getElem?]
  rw [List.getElem?_append_right hle, List.getElem?_append_left (by omega), hlast] at hat
  exact List.mem_of_getElem? hat

/-- Code that goes on after the anchor of the line ends in an attribute. -/
theorem exists_attribute (hknown : Known cs) (anchor : Anchor cs (1 + breaks row.head))
    {e l : List Char} (hspan : texts anchor.before ++ anchor.span.text = row.head ++ e)
    (hcode : code row.line = e ++ l) (hl : l ≠ []) :
    ∃ a u b tail n, cut cs = a ++ u :: b ∧ after '#' tail = (.skipped, n)
      ∧ u = ⟨.skipped, '#' :: tail.take n⟩ ∧ breaks (texts a) = breaks row.head
      ∧ (texts a).length < row.coded.length
      ∧ row.coded.length ≤ (texts a).length + u.text.length := by
  have hne : code row.line ≠ [] := by
    rw [hcode]
    exact fun hnil => hl (List.append_eq_nil_iff.1 hnil).2
  have hlong : row.coded.length
      = (texts anchor.before).length + anchor.span.text.length + l.length := by
    rw [coded, hcode, ← List.append_assoc, ← hspan, List.length_append, List.length_append]
  have hpos : 0 < l.length := List.length_pos_iff.2 hl
  obtain ⟨a, u, b, hcut, hle, hlt⟩ := exists_span_at cs (i := row.coded.length - 1) (by
    have := row.coded_isPrefix.length_le
    omega)
  -- The span of the last character of the code comes after the anchor, on the same line.
  obtain ⟨v, hav, hafter⟩ := exists_of_span_later (anchor.split.symm.trans hcut) (by omega) hlt
  have htexts : texts a = row.head ++ (e ++ texts v) := by
    rw [hav, texts_append, texts_cons, ← List.append_assoc, hspan, List.append_assoc]
  have hwhole : cs = texts a ++ (u.text ++ texts b) := by
    have := texts_cut cs
    rwa [hcut, texts_append, texts_cons, eq_comm] at this
  have hbreaks : breaks (texts a) = breaks row.head :=
    row.breaks_of_le_coded hwhole htexts (by omega)
  have hu : u ∈ cut cs := by
    rw [hcut]
    simp
  have hkind : u.kind = .skipped := by
    cases hk : u.kind with
    | skipped => rfl
    | unrecognized => exact absurd hk (hknown u hu)
    | lexeme lexeme =>
      have hlater := anchor.last v u b hafter lexeme hk
      rw [← hav] at hlater
      omega
  obtain ⟨c, tail, n, hstarts, htext⟩ := exists_after_of_mem_cut hu
  rw [hkind] at hstarts
  obtain rfl : c = '#' := by
    rcases skipped_cases hstarts with ⟨hc, rfl⟩ | ⟨rfl, hhead⟩ | hc
    · obtain ⟨x, hx, hdark⟩ := exists_mem_of_coded hne hcut hle hlt
      rw [htext] at hx
      rw [isBlank_of_isLayout (mem_run hc hx)] at hdark
      cases hdark
    · -- A comment would start before the first double slash.
      exfalso
      obtain ⟨t, rfl⟩ := List.head?_eq_some_iff.1 hhead
      obtain ⟨-, rfl⟩ := Prod.mk.inj (show afterSlash ('/' :: t) = (.skipped, n) from hstarts)
      rw [htext, htexts, List.take_succ_cons, List.append_assoc] at hwhole
      have hcode := row.length_code_le_of_slashes hwhole
      have hlen := congrArg List.length htexts
      have hcoded : row.coded.length = row.head.length + (code row.line).length :=
        List.length_append
      rw [List.length_append] at hlen
      omega
    · exact hc
  refine ⟨a, u, b, tail, n, hcut, hstarts, ?_, hbreaks, by omega, by omega⟩
  rw [← hkind, ← htext]

/-- The text up to the code of a line with an anchor is solid: the span of the last character of
    the code is the anchor or an attribute. -/
theorem solid (htidy : row.Tidy) (hknown : Known cs) (anchor : Anchor cs (1 + breaks row.head)) :
    Solid row.coded := by
  have hends : breaks (texts anchor.before ++ anchor.span.text) = breaks row.head := by
    have := anchor.ends
    omega
  have hkind : ∀ body, anchor.span ≠ ⟨.skipped, '/' :: body⟩ := by
    intro body heq
    have := anchor.kind
    rw [heq] at this
    cases this
  obtain ⟨e, l, hspan, hcode⟩ := exists_of_span htidy anchor.split anchor.endsDark hkind hends
    (start_le_stop htidy anchor.split (text_ne_nil_of_mem_cut anchor.mem_cut) hends)
  by_cases hl : l = []
  · refine solid_of_span hknown anchor.split anchor.closes_text ?_
    rw [hspan, coded, hcode, hl, List.append_nil]
  · obtain ⟨a, u, b, tail, n, hcut, hafter, rfl, hbreaks, hlt, hle⟩ :=
      exists_attribute hknown anchor hspan hcode hl
    have hshape := after_text hafter (by simp) (by decide)
    have hcloses : Closes '#' .skipped := ⟨rfl, fun _ => rfl⟩
    have hline : breaks (texts a ++ '#' :: tail.take n) = breaks row.head := by
      rw [breaks_append, breaks_eq_zero (hshape.line (by simp) (by simp)), hbreaks, Nat.add_zero]
    obtain ⟨e', l', hspan', hcode'⟩ := exists_of_span htidy hcut (hshape.last hcloses) (by simp)
      hline fun _ => Nat.le_trans (Nat.le_of_lt hlt) row.length_coded_le_stop
    have hcoded : row.coded = texts a ++ '#' :: tail.take n ++ l' := by
      rw [coded, hcode', ← List.append_assoc, ← hspan']
    -- The attribute has the last character of the code.
    have hnil : l' = [] := by
      have hlen := congrArg List.length hcoded
      rw [List.length_append, List.length_append] at hlen
      exact List.length_eq_zero_iff.1 (by simp only at hle; omega)
    rw [hnil, List.append_nil] at hcoded
    refine solid_of_span hknown hcut ?_ hcoded
    rintro c u' ⟨⟩
    exact hcloses

end Row

/-! ## Recorded comments -/

theorem endsWithLine_of_isAnchor {t : Token} {text : List Char} {lexeme : Lexeme}
    (h : Machine.IsAnchor t) (hkind : t.kind = Token.classify text lexeme) :
    endsWithLine (.lexeme lexeme) = false := by
  cases lexeme with
  | interface kind => exact absurd hkind (h.2 kind)
  | constantDefinition => exact absurd hkind h.1
  | _ => rfl

/-- What the last token of a line says of the tokens that follow. -/
theorem line_lt_of_isLastOnLine {source : String} {position : Nat} {t : Token}
    (htoken : (Program.ofSource source).1.token? position = some t)
    (hlast : (Program.ofSource source).1.isLastOnLine position = true) (next : Token)
    (hnext : ((Span.tokens 1 source.toList).drop (position + 1)).head? = some next) :
    t.endLine < next.line := by
  have hat : (Program.ofSource source).1.token? (position + 1) = some next := by
    rw [List.head?_drop] at hnext
    rw [← hnext]
    show (Token.scan source).1[position + 1]? = _
    rw [scan_fst, List.getElem?_toArray]
  unfold Program.isLastOnLine at hlast
  rw [htoken, hat] at hlast
  simpa using hlast

/-- A recorded comment has an anchor on its line. -/
theorem exists_anchor {source : String} {c : Comment}
    (h : Machine.Recorded (Program.ofSource source).1 c) :
    Nonempty (Anchor source.toList c.line) := by
  obtain ⟨position, t, htoken, hanchor, hlast, hline⟩ := h.anchored
  have hat : (Span.tokens 1 source.toList)[position]? = some t := by
    rw [← htoken]
    show _ = (Token.scan source).1[position]?
    rw [scan_fst, List.getElem?_toArray]
  have hnext := line_lt_of_isLastOnLine htoken hlast
  rw [tokens_eq] at hat
  obtain ⟨a, s, b, hcut, hs, hdrop⟩ := exists_span_of_token hat
  rw [tokens_eq, hdrop] at hnext
  obtain ⟨lexeme, hkind, hclass, hend⟩ := exists_lexeme_of_ofSpan? hs
  have hcloses : endsWithLine s.kind = false := by
    rw [hkind]
    exact endsWithLine_of_isAnchor hanchor hclass
  have hmem : s ∈ cut source.toList := by
    rw [hcut]
    simp
  rw [breaks_dropLast (endsDark_of_lexeme hmem hkind hcloses)] at hend
  refine ⟨⟨a, s, b, lexeme, hcut, hkind, hcloses, ?_, ?_⟩⟩
  · rw [hline, hend, breaks_append]
    omega
  · rintro v u b' rfl lexeme' hkind'
    -- The lexeme is one of the tokens that follow, and those are on later lines.
    obtain ⟨t', ht'⟩ : ∃ t', Token.ofSpan? ⟨1 + breaks (texts (a ++ s :: v)), u⟩ = some t' := by
      unfold Token.ofSpan?
      rw [hkind']
      exact ⟨_, rfl⟩
    have hlater : t' ∈ (numbered (1 + breaks (texts a ++ s.text)) (v ++ u :: b')).filterMap
        Token.ofSpan? := by
      refine List.mem_filterMap.2 ⟨_, mem_numbered.2 ⟨v, b', rfl, ?_⟩, ht'⟩
      rw [texts_append, texts_cons, ← List.append_assoc, breaks_append _ (texts v), Nat.add_assoc]
    have hlt := line_lt_of_mem hnext hlater
    rw [line_of_ofSpan? ht'] at hlt
    rwa [hline]

/-! ## Comments of a source -/

/-- Whether a span is a line comment. -/
def isLineComment (s : Span) : Bool :=
  s.kind = .skipped ∧ s.text.head? = some '/'

/-- For each character of a text, whether it stands in a line comment. -/
def commented (cs : List Char) : List Bool :=
  (cut cs).flatMap fun s => s.text.map fun _ => isLineComment s

/-- Each double slash on a line stands in a line comment. -/
def SlashesCommented (cs : List Char) (number : Nat) : Prop :=
  ∀ i < cs.length, (cs.drop i).take 2 = ['/', '/'] → 1 + breaks (cs.take i) = number →
    (commented cs)[i]? = some true

instance (cs : List Char) (number : Nat) : Decidable (SlashesCommented cs number) :=
  inferInstanceAs (Decidable (∀ i < cs.length, _ → _ → _))

theorem slashesCommented_of_not_mem {cs : List Char} (h : '/' ∉ cs) (number : Nat) :
    SlashesCommented cs number := by
  intro i _ htwo
  have hslash : '/' ∈ (cs.drop i).take 2 := by
    rw [htwo]
    exact List.mem_cons_self
  exact absurd (List.mem_of_mem_drop (List.mem_of_mem_take hslash)) h

theorem exists_of_commented {cs : List Char} {i : Nat} (h : (commented cs)[i]? = some true) :
    ∃ a body b, cut cs = a ++ ⟨.skipped, '/' :: body⟩ :: b ∧ (texts a).length ≤ i
      ∧ i < (texts a).length + (body.length + 1) := by
  rw [commented] at h
  generalize cut cs = spans at h ⊢
  induction spans generalizing i with
  | nil => cases h
  | cons s spans ih =>
    rw [List.flatMap_cons] at h
    by_cases hfirst : i < s.text.length
    · rw [List.getElem?_append_left (by simpa using hfirst), List.getElem?_map,
        List.getElem?_eq_getElem hfirst] at h
      obtain ⟨hkind, hhead⟩ : s.kind = .skipped ∧ s.text.head? = some '/' := by
        simpa [isLineComment] using h
      obtain ⟨body, htext⟩ := List.head?_eq_some_iff.1 hhead
      refine ⟨[], body, spans, ?_, Nat.zero_le _, ?_⟩
      · rw [List.nil_append, ← hkind, ← htext]
      · rw [htext] at hfirst
        simpa using hfirst
    · rw [List.getElem?_append_right (by simpa using hfirst), List.length_map] at h
      obtain ⟨a, body, b, rfl, hle, hlt⟩ := ih h
      refine ⟨s :: a, body, b, rfl, ?_, ?_⟩
      · rw [texts_cons, List.length_append]
        omega
      · rw [texts_cons, List.length_append]
        omega

theorem SlashesCommented.exists_of_append {cs x t : List Char} {number : Nat}
    (h : SlashesCommented cs number) (hcs : cs = x ++ '/' :: '/' :: t)
    (hnumber : 1 + breaks x = number) :
    ∃ a body b, cut cs = a ++ ⟨.skipped, '/' :: body⟩ :: b ∧ (texts a).length ≤ x.length
      ∧ x.length < (texts a).length + (body.length + 1) := by
  refine exists_of_commented (h x.length ?_ ?_ ?_)
  · rw [hcs, List.length_append, List.length_cons]
    omega
  · rw [hcs, List.drop_left]
    rfl
  · rw [hcs, List.take_left, hnumber]

namespace Place

variable {source : String} {comments : List Comment}

theorem oneLine_of_mem (p : Place source comments) {line : List Char}
    (h : line ∈ p.before ++ p.line :: p.after) : '\n' ∉ line := by
  rw [← p.split] at h
  exact newline_not_mem_of_mem_lines h

/-- The line of a place. -/
def row (p : Place source comments) : Row source.toList where
  head := preceding p.before
  line := p.line
  rest := following p.after
  split := by
    rw [← intercalate_lines source.toList, p.split, intercalate_split, List.append_assoc]
  starts := by
    rcases List.eq_nil_or_concat p.before with hnil | ⟨before, last, hlast⟩
    · rw [hnil]
      exact .inl rfl
    · rw [hlast, List.concat_eq_append, preceding, List.flatMap_append, List.flatMap_singleton,
        ← List.append_assoc]
      exact .inr ⟨_, rfl⟩
  oneLine := p.oneLine_of_mem (by simp)
  ends := endsLine_following p.after

theorem line_comment (p : Place source comments) : p.comment.line = p.number := by
  have hchosen := List.find?_some p.chosen
  rw [number]
  simpa using hchosen

theorem number_eq (p : Place source comments) : p.number = 1 + breaks p.row.head := by
  have hlines : ∀ l ∈ p.before, '\n' ∉ l := fun l hl => p.oneLine_of_mem (by simp [hl])
  rw [number, row, breaks_preceding hlines]

theorem tidy (p : Place source comments) (h : SlashesCommented source.toList p.number) :
    p.row.Tidy := by
  intro hfrom
  obtain ⟨t, ht⟩ := (fromSlashes_cases p.row.line).resolve_left hfrom
  have hsplit : source.toList
      = (p.row.head ++ beforeSlashes p.row.line) ++ ('/' :: '/' :: (t ++ p.row.rest)) := by
    have hline := beforeSlashes_append_fromSlashes p.row.line
    rw [ht] at hline
    have hwhole := p.row.split
    rw [← hline] at hwhole
    simpa using hwhole
  refine h.exists_of_append hsplit ?_
  rw [breaks_append, breaks_beforeSlashes p.row.oneLine, p.number_eq, Nat.add_zero]

/-- The text up to the code at a place of a recorded comment is solid. -/
theorem solid (p : Place source comments) (hknown : Known source.toList)
    (hslashes : SlashesCommented source.toList p.number)
    (hrecorded : Machine.Recorded (Program.ofSource source).1 p.comment) : Solid p.row.coded := by
  obtain ⟨anchor⟩ := exists_anchor hrecorded
  rw [p.line_comment, p.number_eq] at anchor
  exact Row.solid (p.tidy hslashes) hknown anchor

end Place

end HuffTrace.Comment
