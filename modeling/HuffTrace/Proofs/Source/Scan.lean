/-
  HuffTrace.Proofs.Source.Scan

  The tokens of a text by way of its notable spans.  Joining the stretches that
  are not recognised affects no token, so scanning can be reasoned about span by
  span; the lines of the spans tell the parts of a text apart.
-/

import HuffTrace.Proofs.Source.Clear
import HuffTrace.Proofs.Source.Lexeme
import HuffTrace.Proofs.Text.OneLine
import HuffTrace.Source.Program

namespace HuffTrace.Span

/-- The tokens of a text that starts at `line`. -/
def tokens (line : Nat) (cs : List Char) : List Token :=
  (notable line cs).filterMap Token.ofSpan?

theorem ofSpan?_of_not_notable {x : Located Span} (h : isNotable x.item = false) :
    Token.ofSpan? x = none := by
  obtain ⟨line, kind, text⟩ := x
  cases kind with
  | lexeme lexeme => simp [isNotable] at h
  | skipped => rfl
  | unrecognized => rfl

theorem filterMap_filter_notable (spans : List (Located Span)) :
    (spans.filter (isNotable ·.item)).filterMap Token.ofSpan? = spans.filterMap Token.ofSpan? := by
  induction spans with
  | nil => rfl
  | cons x spans ih =>
    by_cases hx : isNotable x.item = true
    · rw [List.filter_cons_of_pos (by simpa using hx), List.filterMap_cons, List.filterMap_cons, ih]
    · rw [List.filter_cons_of_neg (by simpa using hx), List.filterMap_cons,
        ofSpan?_of_not_notable (by simpa using hx), ih]

theorem filterMap_numbered_consJoin (line : Nat) (s : Span) (spans : List Span) :
    (numbered line (consJoin s spans)).filterMap Token.ofSpan?
      = (numbered line (s :: spans)).filterMap Token.ofSpan? := by
  cases spans with
  | nil => rfl
  | cons t spans =>
    by_cases hkind : s.kind = .unrecognized ∧ t.kind = .unrecognized
    · have hnone : ∀ {line : Nat} {s : Span}, s.kind = .unrecognized →
          Token.ofSpan? ⟨line, s⟩ = none := by
        rintro _ ⟨kind, text⟩ rfl
        rfl
      rw [consJoin, if_pos hkind, numbered, numbered, numbered, List.filterMap_cons,
        List.filterMap_cons, List.filterMap_cons, hnone rfl, hnone hkind.1, hnone hkind.2,
        breaks_append, Nat.add_assoc]
    · rw [consJoin, if_neg hkind]

theorem filterMap_numbered_cutJoined (line : Nat) (cs : List Char) :
    (numbered line (cutJoined cs)).filterMap Token.ofSpan? = tokens line cs := by
  have hjoin : ∀ (spans : List Span) (line : Nat),
      (numbered line (spans.foldr consJoin [])).filterMap Token.ofSpan?
        = (numbered line spans).filterMap Token.ofSpan? := by
    intro spans
    induction spans with
    | nil => exact fun _ => rfl
    | cons s spans ih =>
      intro line
      rw [List.foldr_cons, filterMap_numbered_consJoin, numbered, numbered, List.filterMap_cons,
        List.filterMap_cons, ih]
  rw [cutJoined, hjoin, tokens, notable, filterMap_filter_notable]

theorem scan_fst (source : String) :
    (Token.scan source).1 = (tokens 1 source.toList).toArray := by
  rw [← filterMap_numbered_cutJoined]
  rfl

theorem scan_eq_iff {a b : String} :
    (Token.scan a).1 = (Token.scan b).1 ↔ tokens 1 a.toList = tokens 1 b.toList := by
  rw [scan_fst, scan_fst]
  exact ⟨List.toArray_inj, congrArg _⟩

theorem scan_ofList_eq_iff {a b : List Char} :
    (Token.scan (.ofList a)).1 = (Token.scan (.ofList b)).1 ↔ tokens 1 a = tokens 1 b := by
  rw [scan_eq_iff, String.toList_ofList, String.toList_ofList]

/-! ## Lines of spans and tokens -/

theorem line_of_mem_notable {line : Nat} {cs : List Char} {x : Located Span}
    (h : x ∈ notable line cs) : line ≤ x.line ∧ x.line ≤ line + breaks cs := by
  obtain ⟨a, b, hcut, hline⟩ := mem_numbered.1 (List.mem_filter.1 h).1
  have htext := congrArg breaks (texts_cut cs)
  rw [hcut, texts_append, breaks_append] at htext
  omega

theorem line_of_ofSpan? {x : Located Span} {t : Token} (h : Token.ofSpan? x = some t) :
    t.line = x.line := by
  unfold Token.ofSpan? at h
  split at h
  · cases h
    rfl
  · cases h

theorem exists_lexeme_of_ofSpan? {line : Nat} {s : Span} {t : Token}
    (h : Token.ofSpan? ⟨line, s⟩ = some t) :
    ∃ lexeme, s.kind = .lexeme lexeme ∧ t.kind = Token.classify s.text lexeme
      ∧ t.endLine = line + breaks s.text.dropLast := by
  unfold Token.ofSpan? at h
  split at h
  · next lexeme hkind =>
    cases h
    exact ⟨lexeme, hkind, rfl, rfl⟩
  · cases h

theorem line_of_mem_tokens {line : Nat} {cs : List Char} {t : Token} (h : t ∈ tokens line cs) :
    line ≤ t.line ∧ t.line ≤ line + breaks cs := by
  obtain ⟨x, hx, ht⟩ := List.mem_filterMap.1 h
  rw [line_of_ofSpan? ht]
  exact line_of_mem_notable hx

/-- What follows a line starts on a later one. -/
theorem line_of_mem_tokens_of_endsLine {line : Nat} {rest : List Char} (hrest : EndsLine rest)
    {t : Token} (h : t ∈ tokens line rest) : line < t.line := by
  cases rest with
  | nil => simp [tokens] at h
  | cons x rest =>
    obtain rfl : x = '\n' := hrest x rest rfl
    rw [tokens, notable_layout (by decide)] at h
    exact (line_of_mem_tokens h).1

/-- Tokens of a line and those of later lines do not mix. -/
theorem append_inj_of_line {n : Nat} {a a' b b' : List Token} (h : a ++ b = a' ++ b')
    (ha : ∀ t ∈ a, t.line ≤ n) (ha' : ∀ t ∈ a', t.line ≤ n)
    (hb : ∀ t ∈ b, n < t.line) (hb' : ∀ t ∈ b', n < t.line) : a = a' ∧ b = b' := by
  have hfilter : ∀ {a b : List Token}, (∀ t ∈ a, t.line ≤ n) → (∀ t ∈ b, n < t.line) →
      (a ++ b).filter (·.line ≤ n) = a := by
    intro a b ha hb
    rw [List.filter_append, List.filter_eq_self.2 (by simpa using ha),
      List.filter_eq_nil_iff.2 (by simpa using hb), List.append_nil]
  have hfirst : a = a' := by rw [← hfilter ha hb, h, hfilter ha' hb']
  subst hfirst
  exact ⟨rfl, List.append_cancel_left h⟩

/-! ## The spans of tokens -/

theorem tokens_eq (line : Nat) (cs : List Char) :
    tokens line cs = (numbered line (cut cs)).filterMap Token.ofSpan? := by
  rw [tokens, notable, filterMap_filter_notable]

/-- The span that a token comes from, and the tokens that follow it. -/
theorem exists_span_of_token {line i : Nat} {spans : List Span} {t : Token}
    (h : ((numbered line spans).filterMap Token.ofSpan?)[i]? = some t) :
    ∃ a s b, spans = a ++ s :: b ∧ Token.ofSpan? ⟨line + breaks (texts a), s⟩ = some t
      ∧ ((numbered line spans).filterMap Token.ofSpan?).drop (i + 1)
        = (numbered (line + breaks (texts a ++ s.text)) b).filterMap Token.ofSpan? := by
  induction spans generalizing line i with
  | nil => simp [numbered] at h
  | cons s spans ih =>
    have hnext : ∀ {i : Nat},
        ((numbered (line + breaks s.text) spans).filterMap Token.ofSpan?)[i]? = some t →
        ∃ a x b, s :: spans = s :: a ++ x :: b
          ∧ Token.ofSpan? ⟨line + breaks (texts (s :: a)), x⟩ = some t
          ∧ ((numbered (line + breaks s.text) spans).filterMap Token.ofSpan?).drop (i + 1)
            = (numbered (line + breaks (texts (s :: a) ++ x.text)) b).filterMap Token.ofSpan? := by
      intro i hi
      obtain ⟨a, x, b, rfl, hx, hdrop⟩ := ih hi
      refine ⟨a, x, b, rfl, ?_, ?_⟩
      · rw [texts_cons, breaks_append, ← Nat.add_assoc, hx]
      · rw [hdrop, texts_cons, List.append_assoc, breaks_append s.text, ← Nat.add_assoc]
    -- The first span counts only if it is a lexeme.
    rw [numbered, List.filterMap_cons] at h ⊢
    cases hs : Token.ofSpan? ⟨line, s⟩ with
    | none =>
      rw [hs] at h
      obtain ⟨a, x, b, hspans, hx, hdrop⟩ := hnext h
      exact ⟨s :: a, x, b, hspans, hx, hdrop⟩
    | some first =>
      rw [hs] at h
      cases i with
      | zero =>
        cases h
        exact ⟨[], s, spans, rfl, by simpa using hs, by simp⟩
      | succ i =>
        obtain ⟨a, x, b, hspans, hx, hdrop⟩ := hnext (by simpa using h)
        exact ⟨s :: a, x, b, hspans, hx, by simpa using hdrop⟩

/-- Tokens come in the order of their lines. -/
theorem line_lt_of_mem {n line : Nat} {spans : List Span}
    (h : ∀ t, ((numbered line spans).filterMap Token.ofSpan?).head? = some t → n < t.line)
    {t : Token} (ht : t ∈ (numbered line spans).filterMap Token.ofSpan?) : n < t.line := by
  induction spans generalizing line with
  | nil => simp [numbered] at ht
  | cons s spans ih =>
    rw [numbered, List.filterMap_cons] at h ht
    cases hs : Token.ofSpan? ⟨line, s⟩ with
    | none =>
      rw [hs] at h ht
      exact ih h ht
    | some first =>
      rw [hs] at h ht
      have hfirst : n < first.line := h first rfl
      rw [line_of_ofSpan? hs] at hfirst
      rcases List.mem_cons.1 ht with rfl | ht
      · rwa [line_of_ofSpan? hs]
      · obtain ⟨x, hx, hxt⟩ := List.mem_filterMap.1 ht
        obtain ⟨a, b, -, hline⟩ := mem_numbered.1 hx
        rw [line_of_ofSpan? hxt, hline]
        simp only at hfirst
        omega

end HuffTrace.Span

namespace HuffTrace

/-! ## Line breaks in tokens -/

/-- Every token stays on its line but for macro headers and tables. -/
def Program.Plain (p : Program) : Prop :=
  ∀ token ∈ p.tokens, token.kind ≠ .macroDefinition → token.kind ≠ .tableDefinition →
    Text.OneLine token.text

theorem Program.Plain.token? {p : Program} (h : p.Plain) {position : Nat} {token : Token}
    (htoken : p.token? position = some token) (hmacros : token.kind ≠ .macroDefinition)
    (htables : token.kind ≠ .tableDefinition) : Text.OneLine token.text :=
  h token (Array.mem_of_getElem? htoken) hmacros htables

theorem oneLine_of_mem_tokens {line : Nat} {cs : List Char} {token : Token}
    (h : token ∈ Span.tokens line cs) (hmacros : token.kind ≠ .macroDefinition)
    (htables : token.kind ≠ .tableDefinition) : Text.OneLine token.text := by
  obtain ⟨x, hx, htoken⟩ := List.mem_filterMap.1 h
  obtain ⟨a, b, hcut, -⟩ := Span.mem_numbered.1 (List.mem_filter.1 hx).1
  have hmem : x.item ∈ Span.cut cs := by
    rw [hcut]
    simp
  unfold Token.ofSpan? at htoken
  split at htoken
  · next lexeme hkind =>
    cases htoken
    refine Text.oneLine_ofList (Span.newline_not_mem_lexeme hmem hkind ?_ ?_)
    · rintro rfl
      exact hmacros rfl
    · rintro rfl
      exact htables rfl
  · cases htoken

theorem Program.plain_ofSource (source : String) : (Program.ofSource source).1.Plain := by
  intro token htoken
  have hmem : token ∈ (Token.scan source).1 := htoken
  rw [Span.scan_fst, List.mem_toArray] at hmem
  exact oneLine_of_mem_tokens hmem

end HuffTrace
