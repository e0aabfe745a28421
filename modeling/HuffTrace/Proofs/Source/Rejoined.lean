/-
  HuffTrace.Proofs.Source.Rejoined

  The tokens of a source on lines of their own.  A lexeme that came to its end
  before one continuation comes to it before a line break as well, whatever the
  first continuation was (`after_of_endsLine`); so the texts of the tokens,
  joined by line breaks, are scanned into the same tokens again
  (`scan_intercalate_texts`).
-/

import HuffTrace.Proofs.Source.Boundary

namespace HuffTrace.Span

/-! ## Runs up to the end of a line -/

theorem runLength_endsLine {p : Char → Bool} (hp : p '\n' = false) {r : List Char}
    (hr : EndsLine r) :
    runLength p r = 0 := by
  cases r with
  | nil => rfl
  | cons x t =>
    obtain rfl := hr x t rfl
    rw [runLength_cons, if_neg (by simp [hp])]

/-- A run that does not go past a text is the same if the line ends after the text. -/
theorem runLength_append_endsLine {p : Char → Bool} (hp : p '\n' = false) {u w r : List Char}
    (h : runLength p (u ++ w) ≤ u.length) (hr : EndsLine r) :
    runLength p (u ++ r) = runLength p (u ++ w) := by
  rcases runLength_append p u w with ⟨-, hall⟩ | hall
  · exact hall r
  · have hw := hall w
    rw [hall r, runLength_endsLine hp hr]
    omega

/-- A run over all of a text goes over it without its continuation. -/
theorem runLength_full {p : Char → Bool} {u w : List Char} (h : runLength p (u ++ w) = u.length) :
    runLength p u = u.length := by
  rcases runLength_append p u w with ⟨hlt, -⟩ | hall
  · omega
  · rw [← List.append_nil u, hall [], List.append_nil]
    rfl

/-- The character that stops a run within a text. -/
theorem exists_stop {p : Char → Bool} {u w : List Char} (h : runLength p (u ++ w) < u.length) :
    ∃ x rest, (∀ r, runLength p (u ++ r) = runLength p (u ++ w))
      ∧ ∀ r, (u ++ r).drop (runLength p (u ++ w)) = x :: (rest ++ r) := by
  rcases drop_append_cases (Nat.le_of_lt h) with ⟨-, x, rest, -, hall⟩ | ⟨heq, -⟩
  · refine ⟨x, rest, ?_, hall⟩
    rcases runLength_append p u w with ⟨-, hsame⟩ | hmore
    · exact hsame
    · have hw := hmore w
      omega
  · omega

theorem runLength_mono {p q : Char → Bool} (h : ∀ x, p x = true → q x = true) (cs : List Char) :
    runLength p cs ≤ runLength q cs := by
  induction cs with
  | nil => exact Nat.le_refl _
  | cons c cs ih =>
    rw [runLength_cons, runLength_cons]
    by_cases hc : p c = true
    · rw [if_pos hc, if_pos (h c hc)]
      omega
    · rw [if_neg hc]
      exact Nat.zero_le _

/-! ## Keywords -/

theorem startsWith_append_of_le {keyword : String} {u : List Char} (h : keyword.length ≤ u.length)
    (w : List Char) : startsWith keyword (u ++ w) = startsWith keyword u := by
  rw [Bool.eq_iff_iff, startsWith, startsWith, List.isPrefixOf_iff_prefix,
    List.isPrefixOf_iff_prefix]
  constructor
  · intro hpre
    exact List.prefix_of_prefix_length_le hpre (List.prefix_append u w) h
  · intro hpre
    exact hpre.trans (List.prefix_append u w)

theorem startsWithWord_append_of_lt {keyword : String} {u : List Char}
    (h : keyword.length < u.length) (w : List Char) :
    startsWithWord keyword (u ++ w) = startsWithWord keyword u := by
  rw [startsWithWord, startsWithWord, startsWith_append_of_le (Nat.le_of_lt h)]
  rcases drop_append_cases (Nat.le_of_lt h) with ⟨-, x, rest, hdrop, hall⟩ | ⟨heq, -⟩
  · rw [hall w, hdrop]
    rfl
  · omega

/-- Whether a character is one of a keyword or of the gap after it. -/
def isHeading (c : Char) : Bool :=
  isWordChar c || isGap c

/-- No keyword at the start of a text goes on into what follows the text. -/
def Covers (u w : List Char) : Prop :=
  runLength isHeading (u ++ w) ≤ u.length

theorem covers_of_endsLine (u : List Char) {r : List Char} (hr : EndsLine r) : Covers u r := by
  rcases runLength_append isHeading u r with ⟨hlt, -⟩ | hall
  · exact Nat.le_of_lt hlt
  · rw [Covers, hall r, runLength_endsLine (by decide) hr]
    exact Nat.le_refl _

/-- Whether the characters of a keyword are those of a name. -/
def isWord (keyword : String) : Bool :=
  keyword.toList.all isWordChar

theorem isHeading_of_isWord {keyword : String} (hk : isWord keyword = true) :
    ∀ x ∈ keyword.toList, isHeading x = true := by
  intro x hx
  rw [isHeading, List.all_eq_true.1 hk x hx, Bool.true_or]

theorem le_runLength_of_startsWith {keyword : String} (hk : isWord keyword = true) {cs : List Char}
    (h : startsWith keyword cs = true) : keyword.length ≤ runLength isHeading cs := by
  obtain ⟨t, rfl⟩ := List.isPrefixOf_iff_prefix.1 h
  rw [runLength, List.takeWhile_append_of_pos (isHeading_of_isWord hk), List.length_append,
    String.length_toList]
  omega

/-- A keyword with its gap is a run of its own. -/
theorem lt_runLength_of_startsWithWord {keyword : String} (hk : isWord keyword = true)
    {cs : List Char} (h : startsWithWord keyword cs = true) :
    keyword.length < runLength isHeading cs := by
  rw [startsWithWord, Bool.and_eq_true] at h
  obtain ⟨hstart, hgap⟩ := h
  obtain ⟨t, rfl⟩ := List.isPrefixOf_iff_prefix.1 hstart
  rw [← String.length_toList, List.drop_left] at hgap
  cases t with
  | nil => simp at hgap
  | cons g t =>
    have hg : isGap g = true := by simpa using hgap
    rw [runLength, List.takeWhile_append_of_pos (isHeading_of_isWord hk), List.length_append,
      ← runLength, runLength_cons, isHeading, hg, Bool.or_true, if_pos rfl, String.length_toList]
    omega

theorem Covers.startsWith {keyword : String} (hk : isWord keyword = true) {u w : List Char}
    (h : Covers u w) : startsWith keyword (u ++ w) = Span.startsWith keyword u := by
  by_cases hle : keyword.length ≤ u.length
  · exact startsWith_append_of_le hle w
  · -- A longer keyword would go past the text, with or without what follows.
    have hmore : Span.startsWith keyword (u ++ w) ≠ true := fun hstart =>
      hle (Nat.le_trans (le_runLength_of_startsWith hk hstart) h)
    have hless : Span.startsWith keyword u ≠ true := fun hstart =>
      hle (Nat.le_trans (le_runLength_of_startsWith hk hstart) (runLength_le _ _))
    rw [Bool.eq_false_iff.2 hmore, Bool.eq_false_iff.2 hless]

theorem Covers.startsWithWord {keyword : String} (hk : isWord keyword = true) {u w : List Char}
    (h : Covers u w) : startsWithWord keyword (u ++ w) = Span.startsWithWord keyword u := by
  by_cases hlt : keyword.length < u.length
  · exact startsWithWord_append_of_lt hlt w
  · have hmore : Span.startsWithWord keyword (u ++ w) ≠ true := fun hstart =>
      hlt (Nat.lt_of_lt_of_le (lt_runLength_of_startsWithWord hk hstart) h)
    have hless : Span.startsWithWord keyword u ≠ true := fun hstart =>
      hlt (Nat.lt_of_lt_of_le (lt_runLength_of_startsWithWord hk hstart) (runLength_le _ _))
    rw [Bool.eq_false_iff.2 hmore, Bool.eq_false_iff.2 hless]

/-- A definition goes on for as long as its keyword does. -/
theorem DefinitionKind.le_span {kind : DefinitionKind} {cs : List Char}
    (h : (kind.span cs).1 ≠ .unrecognized) : runLength isHeading cs ≤ (kind.span cs).2 := by
  have hbrace := runLength_mono (p := isHeading) (q := (· != '\x7b')) (fun x hx => by
    rw [bne_iff_ne]
    rintro rfl
    exact absurd hx (by decide)) cs
  have hline := runLength_mono (p := isHeading) (q := (· != '\n')) (fun x hx => by
    rw [bne_iff_ne]
    rintro rfl
    exact absurd hx (by decide)) cs
  have hthrough : ∀ {n : Nat}, through? '\x7b' cs = some n → runLength isHeading cs ≤ n := by
    intro n hn
    simp only [through?] at hn
    split at hn
    · cases hn
      omega
    · cases hn
  cases kind with
  | body =>
    rw [span] at h ⊢
    split
    · next hn => exact hthrough hn
    · next hn => simp [hn] at h
  | interface kind => exact hline
  | constant => exact hline
  | table =>
    rw [span] at h ⊢
    split
    · next n hn =>
      have := hthrough hn
      split
      · exact Nat.le_add_right_of_le this
      · next hm => simp [hn, hm] at h
    · next hn => simp [hn] at h

theorem runLength_isHeading_le_definition (cs : List Char)
    (h : (definition cs).1 ≠ .unrecognized) : runLength isHeading cs ≤ (definition cs).2 := by
  rw [definition_eq] at h ⊢
  cases hkind : definitionKind? cs with
  | none => simp [hkind] at h
  | some kind =>
    rw [hkind] at h
    exact DefinitionKind.le_span h

theorem Covers.startsBody {u w : List Char} (h : Covers u w) :
    startsBody (u ++ w) = Span.startsBody u := by
  unfold Span.startsBody
  rw [h.startsWithWord (by decide), h.startsWithWord (by decide), h.startsWithWord (by decide)]

theorem Covers.interfaceKind? {u w : List Char} (h : Covers u w) :
    interfaceKind? (u ++ w) = Span.interfaceKind? u := by
  unfold Span.interfaceKind?
  rw [h.startsWith (by decide), h.startsWith (by decide), h.startsWith (by decide)]

theorem Covers.definitionKind? {u w : List Char} (h : Covers u w) :
    definitionKind? (u ++ w) = Span.definitionKind? u := by
  unfold Span.definitionKind?
  rw [h.startsBody, h.interfaceKind?, h.startsWith (by decide), h.startsWith (by decide),
    h.startsWith (by decide)]

/-! ## Lexemes by their first character

In each lemma `w` is what follows the lexeme with the text `u` in its source, and `r` starts a
new line or is empty. -/

section

variable {u w r : List Char} {lexeme : Lexeme}

theorem EndsLine.calm (hr : EndsLine r) : Calm r := by
  intro x t hrt
  rw [hr x t hrt]
  exact .inl (by decide)

theorem afterDigit_of_endsLine {c : Char} (h : afterDigit c (u ++ w) = (.lexeme lexeme, u.length))
    (hr : EndsLine r) : afterDigit c (u ++ r) = (.lexeme lexeme, u.length) := by
  rw [afterDigit_append c u hr.calm]
  match u with
  | [] =>
    have hkind : (afterDigit c w).1 = .lexeme .number := by
      unfold afterDigit
      split
      · split <;> rfl
      · rfl
    rw [List.nil_append] at h
    rw [h] at hkind
    exact Prod.ext hkind.symm rfl
  | [x] =>
    match w with
    | [] => exact h
    | d :: t =>
      -- With a digit of a hexadecimal number after it, the lexeme would be longer.
      simp only [List.singleton_append, afterDigit, List.length_singleton] at h ⊢
      split at h
      · next hhex =>
        rw [Bool.and_eq_true] at hhex
        rw [List.drop_succ_cons, List.drop_zero, runLength_cons, if_pos hhex.2] at h
        simp at h
      · obtain ⟨hkind, hn⟩ := Prod.mk.inj h
        rw [hkind, runLength_full (u := [x]) (by simpa using hn)]
        rfl
  | x :: d :: u =>
    simp only [List.cons_append, afterDigit, List.drop_succ_cons, List.drop_zero] at h ⊢
    split
    · next hhex =>
      rw [if_pos hhex] at h
      obtain ⟨hkind, hn⟩ := Prod.mk.inj h
      rw [hkind, runLength_full (u := d :: u) (w := w) (by simpa using hn)]
      rfl
    · next hhex =>
      rw [if_neg hhex] at h
      obtain ⟨hkind, hn⟩ := Prod.mk.inj h
      rw [hkind, runLength_full (u := x :: d :: u) (w := w) (by simpa using hn)]

theorem afterBracket_of_append {close : Char} {kind : Lexeme}
    (h : afterBracket close kind (u ++ w) = (.lexeme lexeme, u.length)) (r : List Char) :
    afterBracket close kind (u ++ r) = (.lexeme lexeme, u.length) := by
  unfold afterBracket at h ⊢
  simp only at h ⊢
  split at h
  · cases h
  split at h
  · next hne hhead =>
    obtain ⟨hkind, hn⟩ := Prod.mk.inj h
    -- The bracket is the last character of the lexeme.
    obtain ⟨x, rest, hrun, hall⟩ := exists_stop (p := isWordChar) (u := u) (w := w) (by omega)
    rw [hall w] at hhead
    rw [hrun r, if_neg hne, hall r, if_pos (by simpa using hhead), h]
  · cases h

theorem afterWordStart_of_endsLine (h : afterWordStart (u ++ w) = (.lexeme lexeme, u.length))
    (hr : EndsLine r) : afterWordStart (u ++ r) = (.lexeme lexeme, u.length) := by
  simp only [afterWordStart] at h
  split at h
  · next t hdrop =>
    obtain ⟨hkind, hn⟩ := Prod.mk.inj h
    obtain ⟨x, rest, hrun, hall⟩ := exists_stop (p := isWordChar) (u := u) (w := w) (by omega)
    obtain ⟨rfl, -⟩ := List.cons.inj ((hall w).symm.trans hdrop)
    simp only [afterWordStart, hrun r, hall r]
    exact h
  · next t hdrop =>
    obtain ⟨hkind, hn⟩ := Prod.mk.inj h
    obtain ⟨x, rest, hrun, hall⟩ := exists_stop (p := isWordChar) (u := u) (w := w) (by omega)
    obtain ⟨rfl, rfl⟩ := List.cons.inj ((hall w).symm.trans hdrop)
    have hclosed : (argumentsLength false (rest ++ w)).1 = true := by
      by_contra hopen
      rw [if_neg hopen] at hkind
      cases hkind
    have hlen : u.length = runLength isWordChar (u ++ w) + 1 + rest.length := by
      have := congrArg List.length (hall [])
      simp only [List.append_nil, List.length_drop, List.length_cons] at this
      omega
    simp only [afterWordStart, hrun r, hall r]
    rw [argumentsLength_append (by omega) (.inr hclosed) r]
    exact h
  · obtain ⟨hkind, hn⟩ := Prod.mk.inj h
    have hrun : runLength isWordChar (u ++ r) = u.length := by
      rw [runLength_append_endsLine (by decide) (Nat.le_of_eq hn) hr, hn]
    rw [afterWordStart_of_head?, hrun, hkind]
    · rw [hrun, List.drop_left]
      exact hr.calm.head?_ne (by decide) (by decide)
    · rw [hrun, List.drop_left]
      exact hr.calm.head?_ne (by decide) (by decide)

theorem DefinitionKind.span_of_endsLine {kind : DefinitionKind}
    (h : kind.span (u ++ w) = (.lexeme lexeme, u.length)) (hr : EndsLine r) :
    kind.span (u ++ r) = (.lexeme lexeme, u.length) := by
  have hline : ∀ {k : SpanKind}, (k, runLength (· != '\n') (u ++ w)) = (.lexeme lexeme, u.length) →
      (k, runLength (· != '\n') (u ++ r)) = (.lexeme lexeme, u.length) := by
    intro k hk
    obtain ⟨-, hn⟩ := Prod.mk.inj hk
    rw [runLength_append_endsLine (by decide) (Nat.le_of_eq hn) hr, hk]
  cases kind with
  | body =>
    rw [span] at h ⊢
    split at h
    · next n hthrough =>
      obtain ⟨-, rfl⟩ := Prod.mk.inj h
      rw [through?_append hthrough (Nat.le_refl _) r]
      exact h
    · cases h
  | interface kind => exact hline h
  | constant => exact hline h
  | table =>
    rw [span] at h ⊢
    split at h
    · next n hopen =>
      split at h
      · next m hclose =>
        obtain ⟨-, hn⟩ := Prod.mk.inj h
        have hle : n ≤ u.length := by omega
        have hm : m ≤ (u.drop n).length := by
          rw [List.length_drop]
          omega
        rw [List.drop_append_of_le_length hle] at hclose
        rw [through?_append hopen hle r]
        simp only
        rw [List.drop_append_of_le_length hle, through?_append hclose hm r]
        exact h
      · cases h
    · cases h

theorem definition_of_endsLine (h : definition (u ++ w) = (.lexeme lexeme, u.length))
    (hr : EndsLine r) : definition (u ++ r) = (.lexeme lexeme, u.length) := by
  -- A recognised definition covers its keyword, so that both texts start with the same one.
  have hw : Covers u w := by
    have hle := runLength_isHeading_le_definition (u ++ w)
    rw [h] at hle
    exact hle (by simp)
  rw [definition_eq, hw.definitionKind?] at h
  rw [definition_eq, (covers_of_endsLine u hr).definitionKind?]
  cases hkind : definitionKind? u with
  | none =>
    rw [hkind] at h
    cases h
  | some kind =>
    rw [hkind] at h
    exact DefinitionKind.span_of_endsLine h hr

/-- A lexeme after a hash is an include directive or a definition. -/
theorem afterHash_eq_lexeme {cs : List Char} {n : Nat} (h : afterHash cs = (.lexeme lexeme, n)) :
    startsWith "[" cs = false
      ∧ ((startsWith "include" cs = true
          ∧ ∃ m, inclusion (cs.drop 7) = (.lexeme lexeme, m) ∧ n = m + 7)
        ∨ startsWith "include" cs = false ∧ startsWithWord "define" cs = true
          ∧ ∃ m, definition (cs.drop (6 + runLength isGap (cs.drop 6))) = (.lexeme lexeme, m)
            ∧ n = m + runLength isGap (cs.drop 6) + 6) := by
  unfold afterHash at h
  split at h
  · have hkind : (attributeBody (cs.drop 1)).1 ≠ .lexeme lexeme := by
      unfold attributeBody
      simp only
      split <;> simp
    exact absurd (congrArg Prod.fst h) hkind
  next hattribute =>
  refine ⟨Bool.eq_false_iff.2 hattribute, ?_⟩
  split at h
  · next hinclude =>
    obtain ⟨hkind, hn⟩ := Prod.mk.inj h
    exact .inl ⟨hinclude, _, Prod.ext hkind rfl, hn.symm⟩
  next hinclude =>
  split at h
  · next hdefine =>
    obtain ⟨hkind, hn⟩ := Prod.mk.inj h
    exact .inr ⟨Bool.eq_false_iff.2 hinclude, hdefine, _, Prod.ext hkind rfl, hn.symm⟩
  · cases h

theorem runLength_isGap_of_define {cs : List Char} (h : startsWithWord "define" cs = true) :
    0 < runLength isGap (cs.drop 6) := by
  rw [startsWithWord, Bool.and_eq_true] at h
  have hgap : ((cs.drop 6).head?.map isGap).getD false = true := h.2
  cases hdrop : cs.drop 6 with
  | nil =>
    rw [hdrop] at hgap
    cases hgap
  | cons x t =>
    have hx : isGap x = true := by
      rw [hdrop] at hgap
      simpa using hgap
    rw [runLength_cons, if_pos hx]
    omega

theorem afterHash_of_endsLine (h : afterHash (u ++ w) = (.lexeme lexeme, u.length))
    (hr : EndsLine r) : afterHash (u ++ r) = (.lexeme lexeme, u.length) := by
  obtain ⟨hattribute, hcases⟩ := afterHash_eq_lexeme h
  -- Either directive takes up the longer keyword or the shorter one with its gap.
  have hlen : 7 ≤ u.length := by
    rcases hcases with ⟨-, m, -, hn⟩ | ⟨-, hdefine, m, -, hn⟩
    · omega
    · have := runLength_isGap_of_define hdefine
      omega
  have hbracket : "[".length ≤ u.length := Nat.le_trans (by decide) hlen
  have hinclusion : "include".length ≤ u.length := hlen
  have hdefinition : "define".length < u.length := hlen
  rw [startsWith_append_of_le hbracket] at hattribute
  rw [startsWith_append_of_le hinclusion, startsWithWord_append_of_lt hdefinition] at hcases
  rw [afterHash, startsWith_append_of_le hbracket, startsWith_append_of_le hinclusion,
    startsWithWord_append_of_lt hdefinition, hattribute]
  rcases hcases with ⟨hinclude, m, hbody, hn⟩ | ⟨hinclude, hdefine, m, hbody, hn⟩
  · rw [List.drop_append_of_le_length hlen] at hbody
    rw [hinclude, List.drop_append_of_le_length hlen,
      inclusion_append hbody (by rw [List.length_drop]; omega) (.inr (by simp)) r, hn]
    rfl
  · have hsix : 6 ≤ u.length := by omega
    have hle : 6 + runLength isGap ((u ++ w).drop 6) ≤ u.length := by omega
    have hrun : runLength isGap ((u ++ r).drop 6) = runLength isGap ((u ++ w).drop 6) := by
      rw [List.drop_append_of_le_length hsix, List.drop_append_of_le_length hsix]
      refine runLength_append_endsLine (by decide) ?_ hr
      rw [← List.drop_append_of_le_length hsix, List.length_drop]
      omega
    have hm : m = (u.drop (6 + runLength isGap ((u ++ w).drop 6))).length := by
      rw [List.length_drop]
      omega
    rw [List.drop_append_of_le_length hle, hm] at hbody
    rw [hinclude, hdefine]
    simp only [hrun]
    rw [List.drop_append_of_le_length hle, definition_of_endsLine hbody hr, ← hm, hn]
    rfl

/-- A lexeme is there as well if its line ends after it. -/
theorem after_of_endsLine {c : Char} (h : after c (u ++ w) = (.lexeme lexeme, u.length))
    (hr : EndsLine r) : after c (u ++ r) = (.lexeme lexeme, u.length) := by
  have hreads := reads c
  generalize after c = read at hreads h ⊢
  cases hreads with
  | layout hc => cases h
  | blockStart hc => exact h
  | blockEnd hc => exact h
  | slash hc =>
    have hkind := afterSlash_kind (u ++ w)
    rw [h] at hkind
    simp at hkind
  | digit hc => exact afterDigit_of_endsLine h hr
  | square hc => exact afterBracket_of_append h r
  | angle hc => exact afterBracket_of_append h r
  | word hc => exact afterWordStart_of_endsLine h hr
  | hash hc => exact afterHash_of_endsLine h hr
  | unknown => cases h

end

/-! ## Lexemes on lines of their own -/

/-- Whether a span is a lexeme. -/
def isLexeme (s : Span) : Bool :=
  match s.kind with
  | .lexeme _ => true
  | _ => false

/-- The lexemes of a text. -/
def lexemes (cs : List Char) : List Span :=
  (cut cs).filter isLexeme

theorem lexemes_layout {c : Char} (hc : isLayout c = true) (cs : List Char) :
    lexemes (c :: cs) = lexemes cs := by
  have hafter : ∀ {d : Char} (cs : List Char), isLayout d = true →
      after d cs = (.skipped, runLength isLayout cs) := by
    intro d cs hd
    rw [after, if_pos hd]
  rw [lexemes, cut_cons (hafter cs hc), List.filter_cons_of_neg (by simp [isLexeme]), lexemes]
  cases cs with
  | nil => rfl
  | cons d cs =>
    by_cases hd : isLayout d = true
    · rw [cut_cons (hafter cs hd), List.filter_cons_of_neg (by simp [isLexeme]), runLength_cons,
        if_pos hd, List.drop_succ_cons]
    · rw [runLength_cons, if_neg hd, List.drop_zero]

/-- A lexeme of a text comes first in what starts with it and ends its line there. -/
theorem cut_lexeme_append {cs r : List Char} {s : Span} (hs : s ∈ lexemes cs) (hr : EndsLine r) :
    cut (s.text ++ r) = s :: cut r := by
  obtain ⟨hmem, hlexeme⟩ := List.mem_filter.1 hs
  obtain ⟨c, tail, n, hafter, htext⟩ := exists_after_of_mem_cut hmem
  obtain ⟨kind, text⟩ := s
  cases kind with
  | skipped => cases hlexeme
  | unrecognized => cases hlexeme
  | lexeme lexeme =>
    obtain rfl : text = c :: tail.take n := htext
    have hn : n = (tail.take n).length := by
      have hle := after_le c tail
      rw [hafter] at hle
      rw [List.length_take]
      omega
    have hhere : after c (tail.take n ++ tail.drop n) = (.lexeme lexeme, (tail.take n).length) := by
      rw [List.take_append_drop, ← hn]
      exact hafter
    exact cut_cons_append_iff.2 ⟨after_of_endsLine hhere hr, rfl⟩

/-- Lexemes joined by line breaks are the lexemes of what they make up, all of it recognised. -/
theorem lexemes_intercalate {cs : List Char} {spans : List Span} (h : ∀ s ∈ spans, s ∈ lexemes cs) :
    lexemes (['\n'].intercalate (spans.map Span.text)) = spans
      ∧ Known (['\n'].intercalate (spans.map Span.text)) := by
  induction spans with
  | nil => exact ⟨by simp [lexemes, cut], by simp [Known, cut]⟩
  | cons s spans ih =>
    obtain ⟨hs, hspans⟩ := List.forall_mem_cons.1 h
    obtain ⟨hlexemes, hknown⟩ := ih hspans
    have hlexeme : isLexeme s = true := (List.mem_filter.1 hs).2
    have hkind : s.kind ≠ .unrecognized := by
      intro hkind
      simp [isLexeme, hkind] at hlexeme
    -- What follows is nothing, or the other lexemes on the lines below.
    obtain ⟨r, hr, htext, hrest⟩ : ∃ r, EndsLine r
        ∧ ['\n'].intercalate ((s :: spans).map Span.text) = s.text ++ r
        ∧ lexemes r = spans ∧ Known r := by
      cases spans with
      | nil => exact ⟨[], by simp [EndsLine], by simp [List.intercalate], hlexemes, hknown⟩
      | cons t spans =>
        refine ⟨'\n' :: ['\n'].intercalate ((t :: spans).map Span.text), ?_, ?_, ?_, ?_⟩
        · rintro x v ⟨⟩
          rfl
        · simp [List.intercalate_cons_cons]
        · rw [lexemes_layout (by decide), hlexemes]
        · rwa [known_layout (by decide)]
    have hcut := cut_lexeme_append hs hr
    rw [htext]
    refine ⟨?_, ?_⟩
    · rw [lexemes, hcut, List.filter_cons_of_pos hlexeme, ← lexemes, hrest.1]
    · rw [Known, hcut, List.forall_mem_cons]
      exact ⟨hkind, hrest.2⟩

/-! ## Tokens on lines of their own -/

/-- What the token of a lexeme is, wherever the lexeme stands. -/
def meaning? (s : Span) : Option (TokenKind × String) :=
  match s.kind with
  | .lexeme lexeme => some (Token.classify s.text lexeme, .ofList s.text)
  | _ => none

theorem map_tokens (line : Nat) (cs : List Char) :
    (tokens line cs).map (fun t => (t.kind, t.text)) = (lexemes cs).filterMap meaning? := by
  rw [tokens_eq, lexemes]
  induction cut cs generalizing line with
  | nil => rfl
  | cons s spans ih =>
    obtain ⟨kind, text⟩ := s
    cases kind with
    | lexeme lexeme => simp [numbered, List.filter_cons, Token.ofSpan?, meaning?, isLexeme, ih]
    | skipped => simp [numbered, List.filterMap_cons, Token.ofSpan?, isLexeme, ih]
    | unrecognized => simp [numbered, List.filterMap_cons, Token.ofSpan?, isLexeme, ih]

theorem map_text_tokens (line : Nat) (cs : List Char) :
    (tokens line cs).map (·.text.toList) = (lexemes cs).map Span.text := by
  have hpairs := congrArg (List.map fun p : TokenKind × String => p.2.toList) (map_tokens line cs)
  rw [List.map_map] at hpairs
  refine hpairs.trans ?_
  rw [lexemes]
  induction cut cs with
  | nil => rfl
  | cons s spans ih =>
    obtain ⟨kind, text⟩ := s
    cases kind with
    | lexeme lexeme => simp [List.filter_cons, meaning?, isLexeme, ih]
    | skipped => simpa [List.filter_cons, isLexeme] using ih
    | unrecognized => simpa [List.filter_cons, isLexeme] using ih

/-- The tokens of a source, each on a line of its own, make a source with tokens of the same
    kinds and texts in which everything is recognised. -/
theorem scan_intercalate_texts (source : String) :
    let tokens := (Token.scan source).1.toList
    let again := Token.scan ("\n".intercalate (tokens.map Token.text))
    again.1.toList.map (fun t => (t.kind, t.text)) = tokens.map (fun t => (t.kind, t.text))
      ∧ again.2 = .empty := by
  intro tokens again
  have htokens : tokens = Span.tokens 1 source.toList := by
    rw [show tokens = (Token.scan source).1.toList from rfl, scan_fst, List.toList_toArray]
  have htext : ("\n".intercalate (tokens.map Token.text)).toList
      = ['\n'].intercalate ((lexemes source.toList).map Span.text) := by
    rw [String.toList_intercalate, List.map_map, ← map_text_tokens 1, htokens]
    rfl
  have hall : ∀ s ∈ lexemes source.toList, s ∈ lexemes source.toList := fun s hs => hs
  obtain ⟨hlexemes, hknown⟩ := lexemes_intercalate hall
  rw [← htext] at hlexemes hknown
  refine ⟨?_, (scan_snd_eq_empty_iff _).2 hknown⟩
  rw [show again = Token.scan ("\n".intercalate (tokens.map Token.text)) from rfl, scan_fst,
    List.toList_toArray, map_tokens, hlexemes, htokens, map_tokens]

end HuffTrace.Span
