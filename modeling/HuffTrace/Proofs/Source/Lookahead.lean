/-
  HuffTrace.Proofs.Source.Lookahead

  How far the cutter looks ahead.  Which span a character starts is decided by
  the text of the span and by little more, so a text can be continued in
  another way without changing the spans before: by anything if the span has
  been brought to its end, and otherwise by a calm continuation, one that
  starts with a blank or a slash and so ends every name and number.

  The helpers say so for each of the loops of the cutter, `after_append`
  collects them.
-/

import HuffTrace.Proofs.Source.Reader
import HuffTrace.Text.Blank
import Mathlib.Data.List.TakeWhile

namespace HuffTrace.Span

/-- A continuation that starts with a blank or a slash, or with nothing. -/
def Calm (r : List Char) : Prop :=
  ∀ x t, r = x :: t → Text.isBlank x = true ∨ x = '/'

/-- No character of a class starts a calm continuation. -/
def Foreign (p : Char → Bool) : Prop :=
  ∀ x, Text.isBlank x = true ∨ x = '/' → p x = false

theorem calm_nil : Calm [] := fun _ _ h => nomatch h

theorem calm_cons {x : Char} {t : List Char} (h : Text.isBlank x = true ∨ x = '/') :
    Calm (x :: t) := by
  rintro _ _ ⟨⟩
  exact h

/-! ## Character classes -/

theorem toNat_of_calm {x : Char} (h : Text.isBlank x = true ∨ x = '/') :
    x.toNat < 48 ∨ 128 ≤ x.toNat := by
  rcases h with h | rfl
  · simp only [Text.isBlank, Bool.or_eq_true, Bool.and_eq_true, decide_eq_true_eq, beq_iff_eq] at h
    omega
  · decide

theorem foreign_isWordChar : Foreign isWordChar := by
  intro x hx
  have hx := toNat_of_calm hx
  have hval : x.val.toNat = x.toNat := rfl
  rw [Bool.eq_false_iff]
  intro h
  unfold isWordChar Char.isAlphanum Char.isAlpha Char.isUpper Char.isLower Char.isDigit at h
  simp only [Bool.or_eq_true, Bool.and_eq_true, decide_eq_true_eq, beq_iff_eq, ge_iff_le,
    UInt32.le_iff_toNat_le] at h
  rcases h with h | rfl
  · simp at h
    omega
  · revert hx
    decide

theorem digit?_of_calm {base : Nat} {x : Char} (hx : Text.isBlank x = true ∨ x = '/') :
    Text.digit? base x = none := by
  have hx := toNat_of_calm hx
  have hle : ∀ c d : Char, c ≤ d ↔ c.toNat ≤ d.toNat := fun c d => Iff.rfl
  have h0 : ¬ ('0' ≤ x ∧ x ≤ '9') := by
    rw [hle, hle]
    show ¬ (48 ≤ x.toNat ∧ x.toNat ≤ 57)
    omega
  have ha : ¬ ('a' ≤ x ∧ x ≤ 'f') := by
    rw [hle, hle]
    show ¬ (97 ≤ x.toNat ∧ x.toNat ≤ 102)
    omega
  have hA : ¬ ('A' ≤ x ∧ x ≤ 'F') := by
    rw [hle, hle]
    show ¬ (65 ≤ x.toNat ∧ x.toNat ≤ 70)
    omega
  simp [Text.digit?, h0, ha, hA]

theorem foreign_isHexDigit : Foreign Text.isHexDigit := by
  intro x hx
  rw [Text.isHexDigit, digit?_of_calm hx]
  rfl

theorem foreign_isDigit : Foreign Text.isDigit := by
  intro x hx
  rw [Text.isDigit, digit?_of_calm hx]
  rfl

theorem Calm.head?_ne {r : List Char} (hr : Calm r) {x : Char} (hx : Text.isBlank x = false)
    (hslash : x ≠ '/') : r.head? ≠ some x := by
  cases r with
  | nil => simp
  | cons y t =>
    rintro ⟨⟩
    rcases hr _ _ rfl with h | h
    · simp [hx] at h
    · exact hslash h

/-! ## Runs -/

theorem runLength_le (p : Char → Bool) (cs : List Char) : runLength p cs ≤ cs.length :=
  (List.takeWhile_prefix p).length_le

theorem runLength_cons (p : Char → Bool) (c : Char) (cs : List Char) :
    runLength p (c :: cs) = if p c then runLength p cs + 1 else 0 := by
  rw [runLength, List.takeWhile_cons]
  split <;> rfl

/-- A run either stops within a text, or goes on into what follows. -/
theorem runLength_append (p : Char → Bool) (u w : List Char) :
    (runLength p (u ++ w) < u.length ∧ ∀ r, runLength p (u ++ r) = runLength p (u ++ w))
      ∨ ∀ r, runLength p (u ++ r) = u.length + runLength p r := by
  induction u with
  | nil => exact .inr fun r => by simp
  | cons c u ih =>
    simp only [List.cons_append, runLength_cons, List.length_cons]
    by_cases hc : p c = true
    · simp only [hc, if_true]
      rcases ih with ⟨hlt, hall⟩ | hall
      · exact .inl ⟨by omega, fun r => by rw [hall r]⟩
      · exact .inr fun r => by rw [hall r]; omega
    · simp only [hc]
      exact .inl ⟨by simp, fun _ => by simp⟩

/-- A run over a whole text. -/
theorem forall_of_runLength {p : Char → Bool} {u : List Char} (h : runLength p u = u.length) :
    ∀ x ∈ u, p x = true :=
  List.takeWhile_eq_self_iff.1 ((List.takeWhile_prefix p).eq_of_length h)

theorem runLength_of_calm {p : Char → Bool} (hp : Foreign p) {r : List Char} (hr : Calm r) :
    runLength p r = 0 := by
  cases r with
  | nil => rfl
  | cons x t => simp [runLength_cons, hp x (hr x t rfl)]

theorem runLength_append_of_calm {p : Char → Bool} (hp : Foreign p) (u : List Char)
    {r : List Char} (hr : Calm r) : runLength p (u ++ r) = runLength p u := by
  rcases runLength_append p u [] with ⟨-, hall⟩ | hall
  · rw [hall r, List.append_nil]
  · have hu := hall []
    rw [List.append_nil] at hu
    rw [hall r, hu, runLength_of_calm hp hr]
    rfl

/-- What follows a run of a class inside a text. -/
theorem drop_append_cases {u : List Char} {n : Nat} (h : n ≤ u.length) :
    (n < u.length ∧ ∃ x rest, u.drop n = x :: rest ∧ ∀ r, (u ++ r).drop n = x :: (rest ++ r))
      ∨ (n = u.length ∧ ∀ r, (u ++ r).drop n = r) := by
  rcases Nat.lt_or_eq_of_le h with hlt | rfl
  · left
    refine ⟨hlt, u[n], u.drop (n + 1), List.drop_eq_getElem_cons hlt, fun r => ?_⟩
    rw [List.drop_append_of_le_length h, List.drop_eq_getElem_cons hlt, List.cons_append]
  · exact .inr ⟨rfl, fun r => List.drop_left⟩

/-- A run of a class with the space that stops within a text, whatever follows it. -/
theorem runLength_append_of_open {p : Char → Bool} (hp : p ' ' = true) {u w : List Char}
    (h : runLength p (u ++ w) ≤ u.length)
    (hw : w.head? = some ' ' ∨ runLength p (u ++ w) ≠ u.length) :
    runLength p (u ++ w) < u.length ∧ ∀ r, runLength p (u ++ r) = runLength p (u ++ w) := by
  rcases runLength_append p u w with hstop | hall
  · exact hstop
  · exfalso
    have hlen := hall w
    rcases hw with hw | hw
    · cases w with
      | nil => simp at hw
      | cons x t =>
        obtain rfl : x = ' ' := by simpa using hw
        rw [runLength_cons, if_pos hp] at hlen
        omega
    · omega

/-! ## Spans stay within their text -/

theorem commentLength_le (starred : Bool) (cs : List Char) :
    commentLength starred cs ≤ cs.length := by
  induction cs generalizing starred with
  | nil => exact Nat.le_refl _
  | cons c cs ih =>
    rw [commentLength]
    split
    · exact Nat.zero_le _
    · exact Nat.succ_le_succ (ih _)

theorem argumentsLength_le (nested : Bool) (cs : List Char) :
    (argumentsLength nested cs).2 ≤ cs.length := by
  induction cs generalizing nested with
  | nil => exact Nat.le_refl _
  | cons c cs ih =>
    rw [argumentsLength]
    split
    · exact Nat.zero_le _
    split
    · exact Nat.succ_le_succ (Nat.zero_le _)
    split
    · exact Nat.zero_le _
    · exact Nat.succ_le_succ (ih _)

theorem through?_le {close : Char} {cs : List Char} {n : Nat} (h : through? close cs = some n) :
    n ≤ cs.length := by
  simp only [through?] at h
  split at h
  · next hlt =>
    cases h
    exact hlt
  · cases h

theorem lt_length_of_head?_drop {cs : List Char} {n : Nat} {x : Char}
    (h : (cs.drop n).head? = some x) : n < cs.length := by
  by_contra hlen
  rw [List.drop_eq_nil_of_le (Nat.le_of_not_lt hlen)] at h
  cases h

theorem afterSlash_le (cs : List Char) : (afterSlash cs).2 ≤ cs.length := by
  unfold afterSlash
  split
  · exact Nat.succ_le_succ (runLength_le _ _)
  · exact Nat.succ_le_succ (commentLength_le _ _)
  · exact Nat.zero_le _

theorem afterDigit_le (c : Char) (u : List Char) : (afterDigit c u).2 ≤ u.length := by
  unfold afterDigit
  split
  · split
    · next x d v _ =>
      have := runLength_le Text.isHexDigit (d :: v)
      simp only [List.drop_succ_cons, List.drop_zero, List.length_cons] at this ⊢
      omega
    · exact runLength_le _ _
  · exact runLength_le _ _

theorem afterBracket_le (close : Char) (lexeme : Lexeme) (u : List Char) :
    (afterBracket close lexeme u).2 ≤ u.length := by
  unfold afterBracket
  simp only
  split
  · exact Nat.zero_le _
  split
  · next hhead => exact lt_length_of_head?_drop hhead
  · exact runLength_le _ _

theorem afterWordStart_le (cs : List Char) : (afterWordStart cs).2 ≤ cs.length := by
  simp only [afterWordStart]
  split
  · next rest hdrop =>
    have := congrArg List.length hdrop
    simp only [List.length_drop, List.length_cons] at this
    simp only
    omega
  · next rest hdrop =>
    have := congrArg List.length hdrop
    simp only [List.length_drop, List.length_cons] at this
    have := argumentsLength_le false rest
    simp only
    omega
  · exact runLength_le _ _

theorem attributeBody_le (cs : List Char) : (attributeBody cs).2 ≤ cs.length := by
  simp only [attributeBody]
  split
  · next hhead => exact lt_length_of_head?_drop hhead
  · exact runLength_le _ _

theorem inclusion_le (cs : List Char) : (inclusion cs).2 ≤ cs.length := by
  simp only [inclusion]
  split
  · next quote rest hdrop =>
    have hlen := congrArg List.length hdrop
    simp only [List.length_drop, List.length_cons] at hlen
    split
    · have := runLength_le (fun c => c != quote && c != '\n') rest
      split
      · next hhead =>
        have := lt_length_of_head?_drop hhead
        simp only
        omega
      · simp only
        omega
    · exact runLength_le _ _
  · exact runLength_le _ _

theorem DefinitionKind.span_le (kind : DefinitionKind) (cs : List Char) :
    (kind.span cs).2 ≤ cs.length := by
  cases kind with
  | body =>
    rw [span]
    split
    · next hm => exact through?_le hm
    · exact Nat.le_refl _
  | interface kind => exact runLength_le _ _
  | constant => exact runLength_le _ _
  | table =>
    rw [span]
    split
    · next m hm =>
      split
      · next m' hm' =>
        have hm := through?_le hm
        have hm' := through?_le hm'
        rw [List.length_drop] at hm'
        simp only
        omega
      · exact Nat.le_refl _
    · exact Nat.le_refl _

theorem definition_le (cs : List Char) : (definition cs).2 ≤ cs.length := by
  rw [definition_eq]
  cases definitionKind? cs with
  | none => exact Nat.zero_le _
  | some kind => exact kind.span_le cs

theorem afterHash_le (cs : List Char) : (afterHash cs).2 ≤ cs.length := by
  unfold afterHash
  split
  · next hattribute =>
    have hlen : 1 ≤ cs.length := (List.isPrefixOf_iff_prefix.1 hattribute).length_le
    have := attributeBody_le (cs.drop 1)
    rw [List.length_drop] at this
    simp only
    omega
  split
  · next hinclude =>
    have hlen : 7 ≤ cs.length := (List.isPrefixOf_iff_prefix.1 hinclude).length_le
    have := inclusion_le (cs.drop 7)
    rw [List.length_drop] at this
    simp only
    omega
  split
  · next hdefine =>
    rw [startsWithWord, Bool.and_eq_true] at hdefine
    have hlen : 6 ≤ cs.length := (List.isPrefixOf_iff_prefix.1 hdefine.1).length_le
    have hgap := runLength_le isGap (cs.drop 6)
    have := definition_le (cs.drop (6 + runLength isGap (cs.drop 6)))
    rw [List.length_drop] at this hgap
    simp only
    omega
  · exact Nat.zero_le _

theorem after_le (c : Char) (cs : List Char) : (after c cs).2 ≤ cs.length := by
  have hreads := reads c
  generalize after c = read at hreads ⊢
  cases hreads with
  | layout hc => exact runLength_le _ _
  | blockStart hc => exact Nat.zero_le _
  | blockEnd hc => exact Nat.zero_le _
  | slash hc => exact afterSlash_le cs
  | digit hc => exact afterDigit_le c cs
  | square hc => exact afterBracket_le _ _ cs
  | angle hc => exact afterBracket_le _ _ cs
  | word hc => exact afterWordStart_le cs
  | hash hc => exact afterHash_le cs
  | unknown => exact Nat.zero_le _

/-! ## The loops of the cutter -/

theorem commentLength_append {starred : Bool} {u w : List Char} (hw : w.head? = some ' ')
    (h : commentLength starred (u ++ w) ≤ u.length) (r : List Char) :
    commentLength starred (u ++ r) = commentLength starred (u ++ w) := by
  induction u generalizing starred with
  | nil =>
    -- An open comment would go over the space, past the end of `u`.
    cases w with
    | nil => simp at hw
    | cons x t =>
      obtain rfl : x = ' ' := by simpa using hw
      simp [commentLength] at h
  | cons c u ih =>
    simp only [List.cons_append, commentLength, List.length_cons] at h ⊢
    split
    · rfl
    · next hc =>
      rw [if_neg hc] at h
      rw [ih (by omega)]

theorem argumentsLength_append {nested : Bool} {u w : List Char}
    (h : (argumentsLength nested (u ++ w)).2 ≤ u.length)
    (hw : w.head? = some ' ' ∨ (argumentsLength nested (u ++ w)).1 = true) (r : List Char) :
    argumentsLength nested (u ++ r) = argumentsLength nested (u ++ w) := by
  induction u generalizing nested with
  | nil =>
    -- Nothing is left of the arguments here, so that they are still open.
    exfalso
    cases w with
    | nil => simp [argumentsLength] at hw
    | cons x t =>
      simp only [List.nil_append, argumentsLength, List.length_nil, List.head?_cons,
        Option.some.injEq] at h hw
      split at h
      · next hx =>
        obtain rfl : x = '\n' := by simpa using hx
        simp at hw
      · split at h
        · simp at h
        · split at h
          · next hx =>
            obtain ⟨rfl, -⟩ : x = '(' ∧ nested = true := by simpa using hx
            simp_all
          · simp at h
  | cons c u ih =>
    simp only [List.cons_append, argumentsLength, List.length_cons] at h hw ⊢
    split
    · rfl
    · next h1 =>
      rw [if_neg h1] at h hw
      split
      · rfl
      · next h2 =>
        rw [if_neg h2] at h hw
        split
        · rfl
        · next h3 =>
          rw [if_neg h3] at h hw
          rw [ih (by simpa using h) hw]

theorem through?_append {close : Char} {u w : List Char} {n : Nat}
    (h : through? close (u ++ w) = some n) (hn : n ≤ u.length) (r : List Char) :
    through? close (u ++ r) = some n := by
  have hrun : ∀ v, through? close v
      = if runLength (· != close) v < v.length then some (runLength (· != close) v + 1) else none :=
    fun _ => rfl
  rw [hrun] at h ⊢
  split at h
  · have hlt : runLength (· != close) (u ++ w) < u.length := by
      have := Option.some.inj h
      omega
    rcases runLength_append (· != close) u w with ⟨-, hall⟩ | hall
    · rw [hall r, if_pos, h]
      rw [List.length_append]
      omega
    · rw [hall w] at hlt
      omega
  · cases h

theorem isPrefixOf_append {keyword r : List Char} (hr : Calm r)
    (hk : ∀ x ∈ keyword, Text.isBlank x = false ∧ x ≠ '/') (u : List Char) :
    keyword.isPrefixOf (u ++ r) = keyword.isPrefixOf u := by
  induction keyword generalizing u with
  | nil => simp
  | cons k keyword ih =>
    have hhead := hr.head?_ne (hk k (by simp)).1 (hk k (by simp)).2
    cases u with
    | nil =>
      cases r with
      | nil => rfl
      | cons x t =>
        have hne : (k == x) = false := by
          rw [beq_eq_false_iff_ne]
          rintro rfl
          exact hhead rfl
        rw [List.nil_append, List.isPrefixOf_cons_cons, hne]
        rfl
    | cons c u =>
      rw [List.cons_append, List.isPrefixOf_cons_cons, List.isPrefixOf_cons_cons,
        ih fun x hx => hk x (by simp [hx])]

/-- Whether a keyword has no blanks and slashes. -/
def isUnbroken (keyword : String) : Bool :=
  keyword.toList.all fun x => !Text.isBlank x && x != '/'

theorem startsWith_append {keyword : String} {r : List Char} (hr : Calm r)
    (hk : isUnbroken keyword = true) (u : List Char) :
    startsWith keyword (u ++ r) = startsWith keyword u := by
  refine isPrefixOf_append hr (fun x hx => ?_) u
  have hx := List.all_eq_true.1 hk x hx
  rw [Bool.and_eq_true, Bool.not_eq_true', bne_iff_ne] at hx
  exact hx

theorem startsWithWord_append {keyword : String} {r : List Char} (hr : Calm r)
    (hk : isUnbroken keyword = true) {u : List Char}
    (hu : u ≠ keyword.toList) : startsWithWord keyword (u ++ r) = startsWithWord keyword u := by
  unfold startsWithWord
  rw [startsWith_append hr hk]
  by_cases hstart : startsWith keyword u = true
  -- The character after the keyword is one of `u`, which is not the keyword alone.
  · have hpre : keyword.toList <+: u := List.isPrefixOf_iff_prefix.1 hstart
    have hlt : keyword.length < u.length := by
      rw [← String.length_toList]
      rcases Nat.lt_or_eq_of_le hpre.length_le with hlt | heq
      · exact hlt
      · exact absurd (hpre.eq_of_length heq).symm hu
    rcases drop_append_cases (Nat.le_of_lt hlt) with ⟨-, x, rest, hdrop, hall⟩ | ⟨heq, -⟩
    · rw [hall r, hdrop]
      rfl
    · omega
  · simp [hstart]

/-! ## Spans by their first character

In each lemma `w` is the old continuation of the text `u` and `r` the new one.  A span
that is not recognised may be so because of what follows, so for such a span the old
continuation is to start with a space. -/

theorem afterSlash_of_head? {v : List Char} (hslash : v.head? ≠ some '/')
    (hstar : v.head? ≠ some '*') : afterSlash v = (.unrecognized, 0) := by
  unfold afterSlash
  split
  · simp at hslash
  · simp at hstar
  · rfl

theorem afterSlash_kind (v : List Char) :
    (afterSlash v).1 = .skipped ∨ (afterSlash v).1 = .unrecognized := by
  unfold afterSlash
  split
  · exact .inl rfl
  · exact .inr rfl
  · exact .inr rfl

theorem afterSlash_append {u w r : List Char} {k : SpanKind} {n : Nat}
    (h : afterSlash (u ++ w) = (k, n)) (hn : n ≤ u.length)
    (hw : w.head? = some ' ' ∨ k ≠ .unrecognized ∧ n ≠ u.length) (hr : Calm r)
    (hslash : u = [] → r.head? ≠ some '/') : afterSlash (u ++ r) = (k, n) := by
  cases u with
  | nil =>
    -- A slash that ends the text is followed by a space, or else its span goes past the end.
    have hold : w.head? = some ' ' := by
      rcases hw with hw | ⟨-, hw⟩
      · exact hw
      · simp only [List.length_nil] at hn hw
        omega
    rw [List.nil_append, afterSlash_of_head? (by simp [hold]) (by simp [hold])] at h
    rw [List.nil_append, afterSlash_of_head? (hslash rfl) (hr.head?_ne (by decide) (by decide)), h]
  | cons c u =>
    by_cases hline : c = '/'
    · subst hline
      simp only [List.cons_append, afterSlash, Prod.mk.injEq, List.length_cons] at h hn hw ⊢
      obtain ⟨rfl, rfl⟩ := h
      have hrun : w.head? = some ' ' ∨ runLength (· != '\n') (u ++ w) ≠ u.length :=
        hw.imp id fun hw => by omega
      exact ⟨rfl, by rw [(runLength_append_of_open (by decide) (by omega) hrun).2 r]⟩
    by_cases hblock : c = '*'
    · subst hblock
      simp only [List.cons_append, afterSlash, Prod.mk.injEq, List.length_cons] at h hn hw ⊢
      obtain ⟨rfl, rfl⟩ := h
      have hold : w.head? = some ' ' := hw.resolve_right fun hw => hw.1 rfl
      exact ⟨rfl, by rw [commentLength_append hold (by omega) r]⟩
    · have hother : ∀ v, afterSlash (c :: v) = (.unrecognized, 0) := fun v =>
        afterSlash_of_head? (by simpa using hline) (by simpa using hblock)
      rw [List.cons_append, hother] at h ⊢
      exact h

theorem afterDigit_append (c : Char) (u : List Char) {r : List Char} (hr : Calm r) :
    afterDigit c (u ++ r) = afterDigit c u := by
  have hdigits := runLength_append_of_calm foreign_isDigit u hr
  match u with
  | [] =>
    rw [List.nil_append] at hdigits ⊢
    match r, hr with
    | [], _ => rfl
    | [x], _ => simpa [afterDigit] using hdigits
    | x :: d :: t, hr =>
      -- A calm text does not start with the mark of a hexadecimal number.
      have hx : (x == 'x' || x == 'X') = false := by
        rw [Bool.or_eq_false_iff, beq_eq_false_iff_ne, beq_eq_false_iff_ne]
        constructor
        · rintro rfl
          exact hr.head?_ne (x := 'x') (by decide) (by decide) rfl
        · rintro rfl
          exact hr.head?_ne (x := 'X') (by decide) (by decide) rfl
      simpa [afterDigit, hx] using hdigits
  | [x] =>
    -- If `x` is the mark of a hexadecimal number, no digit of one follows it.
    match r, hr with
    | [], _ => rfl
    | d :: t, hr =>
      have hd : Text.isHexDigit d = false := foreign_isHexDigit d (hr d t rfl)
      simpa [afterDigit, hd] using hdigits
  | x :: d :: u =>
    have hhex := runLength_append_of_calm foreign_isHexDigit (d :: u) hr
    simp only [List.cons_append] at hdigits hhex
    simp only [afterDigit, List.cons_append, List.drop_succ_cons, List.drop_zero, hdigits, hhex]

theorem afterBracket_append {close : Char} {lexeme : Lexeme} (hclose : Text.isBlank close = false)
    (hslash : close ≠ '/') (u : List Char) {r : List Char} (hr : Calm r) :
    afterBracket close lexeme (u ++ r) = afterBracket close lexeme u := by
  unfold afterBracket
  rw [runLength_append_of_calm foreign_isWordChar u hr]
  have hhead : ((u ++ r).drop (runLength isWordChar u)).head? = some close
      ↔ (u.drop (runLength isWordChar u)).head? = some close := by
    rcases drop_append_cases (runLength_le isWordChar u) with
      ⟨-, x, rest, hdrop, hall⟩ | ⟨heq, hall⟩
    · rw [hall r, hdrop]
      rfl
    · have hnil := hall []
      rw [List.append_nil] at hnil
      rw [hall r, hnil]
      simp [hr.head?_ne hclose hslash]
  simp only [hhead]

theorem afterWordStart_of_head? {v : List Char}
    (hcolon : (v.drop (runLength isWordChar v)).head? ≠ some ':')
    (hparen : (v.drop (runLength isWordChar v)).head? ≠ some '(') :
    afterWordStart v = (.lexeme .identifier, runLength isWordChar v) := by
  simp only [afterWordStart]
  split
  · next heq => simp [heq] at hcolon
  · next heq => simp [heq] at hparen
  · rfl

theorem afterWordStart_append {u w r : List Char} {k : SpanKind} {n : Nat}
    (h : afterWordStart (u ++ w) = (k, n)) (hn : n ≤ u.length)
    (hw : w.head? = some ' ' ∨ k ≠ .unrecognized) (hwc : Calm w) (hr : Calm r) :
    afterWordStart (u ++ r) = (k, n) := by
  have hname : ∀ {v : List Char}, Calm v → runLength isWordChar (u ++ v) = runLength isWordChar u :=
    runLength_append_of_calm foreign_isWordChar u
  rcases drop_append_cases (runLength_le isWordChar u) with ⟨hlt, x, rest, hdrop, hall⟩ | ⟨-, hall⟩
  · have hrest : u.length = runLength isWordChar u + 1 + rest.length := by
      have := congrArg List.length hdrop
      simp only [List.length_drop, List.length_cons] at this
      omega
    -- The character after the name is one of `u` and decides what the name is part of.
    by_cases hcolon : x = ':'
    · simp only [afterWordStart, hname hwc, hname hr, hall, hcolon] at h ⊢
      exact h
    by_cases hparen : x = '('
    · simp only [afterWordStart, hname hwc, hname hr, hall, hparen, Prod.mk.injEq] at h ⊢
      obtain ⟨rfl, rfl⟩ := h
      have hclosed : w.head? = some ' ' ∨ (argumentsLength false (rest ++ w)).1 = true := by
        refine hw.imp id fun hw => ?_
        by_contra hopen
        exact hw (if_neg hopen)
      rw [argumentsLength_append (by omega) hclosed r]
      exact ⟨rfl, rfl⟩
    · have hother : ∀ {v : List Char}, Calm v →
          afterWordStart (u ++ v) = (.lexeme .identifier, runLength isWordChar u) := by
        intro v hv
        rw [afterWordStart_of_head?, hname hv]
        · simpa [hname hv, hall] using hcolon
        · simpa [hname hv, hall] using hparen
      rw [hother hr, ← h, hother hwc]
  · -- The name reaches up to the continuation, which neither closes nor extends it.
    have hother : ∀ {v : List Char}, Calm v →
        afterWordStart (u ++ v) = (.lexeme .identifier, runLength isWordChar u) := by
      intro v hv
      rw [afterWordStart_of_head?, hname hv]
      · rw [hname hv, hall]
        exact hv.head?_ne (by decide) (by decide)
      · rw [hname hv, hall]
        exact hv.head?_ne (by decide) (by decide)
    rw [hother hr, ← h, hother hwc]

theorem attributeBody_append {u w : List Char} {k : SpanKind} {n : Nat}
    (h : attributeBody (u ++ w) = (k, n)) (hn : n ≤ u.length)
    (hw : w.head? = some ' ' ∨ k ≠ .unrecognized) (r : List Char) :
    attributeBody (u ++ r) = (k, n) := by
  unfold attributeBody at h ⊢
  -- Recognised or not, the attribute stops at a character of `u`.
  have hstop : runLength (fun c => c != ']' && c != '\n') (u ++ w) < u.length
      ∧ ∀ r, runLength (fun c => c != ']' && c != '\n') (u ++ r)
        = runLength (fun c => c != ']' && c != '\n') (u ++ w) := by
    simp only at h
    split at h
    · obtain ⟨-, rfl⟩ := Prod.mk.inj h
      exact runLength_append_of_open (by decide) (by omega) (.inr (by omega))
    · obtain ⟨rfl, rfl⟩ := Prod.mk.inj h
      exact runLength_append_of_open (by decide) hn (hw.imp id fun hw => absurd rfl hw)
  rcases drop_append_cases (Nat.le_of_lt hstop.1) with ⟨-, x, rest, -, hall⟩ | ⟨heq, -⟩
  · simp only [hstop.2 r, hall] at h ⊢
    exact h
  · omega

/-- An include directive goes at least over the gap after its keyword, and further if it is
    recognised. -/
theorem runLength_isGap_le_inclusion (cs : List Char) :
    runLength isGap cs ≤ (inclusion cs).2
      ∧ ((inclusion cs).1 ≠ .unrecognized → runLength isGap cs < (inclusion cs).2) := by
  unfold inclusion
  simp only
  split
  · split
    · split
      · exact ⟨by simp only; omega, fun _ => by simp only; omega⟩
      · exact ⟨by simp only; omega, fun hne => absurd rfl hne⟩
    · exact ⟨Nat.le_refl _, fun hne => absurd rfl hne⟩
  · exact ⟨Nat.le_refl _, fun hne => absurd rfl hne⟩

theorem inclusion_append {u w : List Char} {k : SpanKind} {n : Nat}
    (h : inclusion (u ++ w) = (k, n)) (hn : n ≤ u.length)
    (hw : w.head? = some ' ' ∨ k ≠ .unrecognized) (r : List Char) :
    inclusion (u ++ r) = (k, n) := by
  have hgap := runLength_isGap_le_inclusion (u ++ w)
  rw [h] at hgap
  have hrun : w.head? = some ' ' ∨ runLength isGap (u ++ w) ≠ u.length := by
    refine hw.imp id fun hw => ?_
    have := hgap.2 hw
    simp only at this
    omega
  -- So the gap ends within `u`, at what should be a quote.
  obtain ⟨hlt, hall⟩ := runLength_append_of_open (by decide) (Nat.le_trans hgap.1 hn) hrun
  rcases drop_append_cases (Nat.le_of_lt hlt) with ⟨-, quote, rest, hdrop, hrest⟩ | ⟨heq, -⟩
  · have hlen : u.length = runLength isGap (u ++ w) + 1 + rest.length := by
      have := congrArg List.length hdrop
      simp only [List.length_drop, List.length_cons] at this
      omega
    simp only [inclusion, hall r, hrest] at h ⊢
    by_cases hquote : (quote == '"' || quote == '\'') = true
    · rw [if_pos hquote] at h ⊢
      have hopen : (fun c => c != quote && c != '\n') ' ' = true := by
        rw [Bool.or_eq_true, beq_iff_eq, beq_iff_eq] at hquote
        rcases hquote with rfl | rfl <;> decide
      -- The path stops at a character of `u` as well.
      have hstop : runLength (fun c => c != quote && c != '\n') (rest ++ w) < rest.length
          ∧ ∀ r, runLength (fun c => c != quote && c != '\n') (rest ++ r)
            = runLength (fun c => c != quote && c != '\n') (rest ++ w) := by
        split at h
        · obtain ⟨-, rfl⟩ := Prod.mk.inj h
          exact runLength_append_of_open hopen (by omega) (.inr (by omega))
        · obtain ⟨rfl, rfl⟩ := Prod.mk.inj h
          exact runLength_append_of_open hopen (by omega) (hw.imp id fun hw => absurd rfl hw)
      rcases drop_append_cases (Nat.le_of_lt hstop.1) with ⟨-, x, rest', -, hall'⟩ | ⟨heq, -⟩
      · simp only [hstop.2 r, hall'] at h ⊢
        exact h
      · omega
    · rw [if_neg hquote] at h ⊢
      exact h
  · omega

theorem startsWithWord_self (keyword : String) (w : List Char) :
    startsWithWord keyword (keyword.toList ++ w) = (w.head?.map isGap).getD false := by
  have hstart : startsWith keyword (keyword.toList ++ w) = true :=
    List.isPrefixOf_iff_prefix.2 (List.prefix_append _ _)
  have hdrop : (keyword.toList ++ w).drop keyword.length = w := by
    rw [← String.length_toList]
    exact List.drop_left
  rw [startsWithWord, hstart, hdrop]
  rfl

/-- A text with nothing but a keyword that needs a gap after it. -/
def IsBareKeyword (u : List Char) : Prop :=
  u = "macro".toList ∨ u = "fn".toList ∨ u = "test".toList

theorem startsBody_append {u r : List Char} (hu : ¬ IsBareKeyword u) (hr : Calm r) :
    startsBody (u ++ r) = startsBody u := by
  simp only [IsBareKeyword, not_or] at hu
  unfold startsBody
  rw [startsWithWord_append hr (by decide) hu.1, startsWithWord_append hr (by decide) hu.2.1,
    startsWithWord_append hr (by decide) hu.2.2]

theorem startsBody_of_isBareKeyword {u w : List Char} (hu : IsBareKeyword u) (hw : Calm w) :
    startsBody (u ++ w) = (w.head?.map isGap).getD false := by
  unfold startsBody
  rcases hu with rfl | rfl | rfl
  · have hfn : startsWithWord "fn" "macro".toList = false := by decide
    have htest : startsWithWord "test" "macro".toList = false := by decide
    rw [startsWithWord_self, startsWithWord_append hw (by decide) (by decide),
      startsWithWord_append hw (by decide) (by decide), hfn, htest, Bool.or_false, Bool.or_false]
  · have hmacros : startsWithWord "macro" "fn".toList = false := by decide
    have htest : startsWithWord "test" "fn".toList = false := by decide
    rw [startsWithWord_self, startsWithWord_append hw (by decide) (by decide),
      startsWithWord_append hw (by decide) (by decide), hmacros, htest, Bool.or_false,
      Bool.false_or]
  · have hmacros : startsWithWord "macro" "test".toList = false := by decide
    have hfn : startsWithWord "fn" "test".toList = false := by decide
    rw [startsWithWord_self, startsWithWord_append hw (by decide) (by decide),
      startsWithWord_append hw (by decide) (by decide), hmacros, hfn, Bool.or_false,
      Bool.false_or]

theorem interfaceKind?_append (u : List Char) {r : List Char} (hr : Calm r) :
    interfaceKind? (u ++ r) = interfaceKind? u := by
  unfold interfaceKind?
  rw [startsWith_append hr (by decide), startsWith_append hr (by decide),
    startsWith_append hr (by decide)]

theorem definitionKind?_append {u r : List Char} (hu : ¬ IsBareKeyword u) (hr : Calm r) :
    definitionKind? (u ++ r) = definitionKind? u := by
  unfold definitionKind?
  rw [startsBody_append hu hr, interfaceKind?_append u hr, startsWith_append hr (by decide),
    startsWith_append hr (by decide), startsWith_append hr (by decide)]

/-- A bare keyword is extended by a gap and starts nothing without one. -/
theorem definition_of_isBareKeyword {u w : List Char} (hu : IsBareKeyword u) (hw : Calm w) :
    u.length < (definition (u ++ w)).2
      ∨ (definition (u ++ w)).1 = .unrecognized ∧ w.head? ≠ some ' ' := by
  have hbody := startsBody_of_isBareKeyword hu hw
  by_cases hgap : (w.head?.map isGap).getD false = true
  · left
    -- With the gap a header has begun, and no brace comes before the end of the keyword.
    have hrun : u.length ≤ runLength (· != '\x7b') (u ++ w) := by
      rcases hu with rfl | rfl | rfl <;> simp [runLength_cons]
    have hw : 0 < w.length := by
      cases w with
      | nil => simp at hgap
      | cons x t => simp
    rw [definition_eq, definitionKind?, if_pos (hbody.trans hgap)]
    simp only [DefinitionKind.span, through?]
    split
    · next heq =>
      split at heq
      · cases heq
        simp only
        omega
      · cases heq
    · simp only [List.length_append]
      omega
  · right
    refine ⟨?_, ?_⟩
    · rw [← hbody] at hgap
      rw [definition_eq, definitionKind?, if_neg hgap, interfaceKind?_append u hw,
        startsWith_append hw (by decide), startsWith_append hw (by decide),
        startsWith_append hw (by decide)]
      rcases hu with rfl | rfl | rfl <;> rfl
    · intro hhead
      simp [hhead, isGap] at hgap

/-- A definition that stays within a text is more than a bare keyword, whose span goes past it
    or is not recognised. -/
theorem not_isBareKeyword_of_definition {u w : List Char} {k : SpanKind} {n : Nat}
    (h : definition (u ++ w) = (k, n)) (hn : n ≤ u.length)
    (hw : w.head? = some ' ' ∨ k ≠ .unrecognized) (hwc : Calm w) : ¬ IsBareKeyword u := by
  intro hbare
  rcases definition_of_isBareKeyword hbare hwc with hlt | ⟨hk, hhead⟩
  · rw [h] at hlt
    exact absurd hn (Nat.not_le_of_lt hlt)
  · rw [h] at hk
    rcases hw with hw | hw
    · exact hhead hw
    · exact hw hk

/-- A span that its line ends, and that would go on if the line did. -/
def endsWithLine : SpanKind → Bool
  | .lexeme (.interface _) | .lexeme .constantDefinition => true
  | _ => false

/-- A definition that stays within a text is the same under every continuation.  The old one
    starts with a space, or the definition is recognised and, if it reaches up to the end of the
    text, not one that its line ends. -/
theorem DefinitionKind.span_append {kind : DefinitionKind} {u w : List Char} {k : SpanKind}
    {n : Nat} (h : kind.span (u ++ w) = (k, n)) (hn : n ≤ u.length)
    (hw : w.head? = some ' '
      ∨ k ≠ .unrecognized ∧ (n = u.length → endsWithLine k = false)) (r : List Char) :
    kind.span (u ++ r) = (k, n) := by
  -- A text without the character that is looked for belongs to the span as a whole.
  have hopen : ¬ (SpanKind.unrecognized, (u ++ w).length) = (k, n) := by
    rintro ⟨⟩
    have hnil : w = [] := by
      cases w with
      | nil => rfl
      | cons x t =>
        simp only [List.length_append, List.length_cons] at hn
        omega
    simp [hnil] at hw
  -- A definition that its line ends is to end within `u`, or before a space.
  have hline : ∀ {k' : SpanKind}, endsWithLine k' = true →
      (k', runLength (· != '\n') (u ++ w)) = (k, n) →
      (k', runLength (· != '\n') (u ++ r)) = (k, n) := by
    rintro k' hk' ⟨⟩
    have hrun : w.head? = some ' ' ∨ runLength (· != '\n') (u ++ w) ≠ u.length := by
      refine hw.imp id fun hw heq => ?_
      simp [hw.2 heq] at hk'
    rw [(runLength_append_of_open (by decide) hn hrun).2 r]
  cases kind with
  | body =>
    rw [span] at h ⊢
    split at h
    · next m hm =>
      obtain ⟨rfl, rfl⟩ := Prod.mk.inj h
      rw [through?_append hm hn r]
    · exact absurd h hopen
  | interface kind => exact hline rfl h
  | constant => exact hline rfl h
  | table =>
    rw [span] at h ⊢
    split at h
    · next m hm =>
      split at h
      · next m' hm' =>
        obtain ⟨rfl, rfl⟩ := Prod.mk.inj h
        rw [through?_append hm (by omega) r]
        simp only
        rw [List.drop_append_of_le_length (by omega)] at hm' ⊢
        rw [through?_append hm' (by rw [List.length_drop]; omega) r]
      · exact absurd h hopen
    · exact absurd h hopen

theorem definition_append {u w r : List Char} {k : SpanKind} {n : Nat}
    (h : definition (u ++ w) = (k, n)) (hn : n ≤ u.length)
    (hw : w.head? = some ' '
      ∨ k ≠ .unrecognized ∧ (n = u.length → endsWithLine k = false))
    (hwc : Calm w) (hr : Calm r) : definition (u ++ r) = (k, n) := by
  have hbare := not_isBareKeyword_of_definition h hn (hw.imp id (·.1)) hwc
  rw [definition_eq, definitionKind?_append hbare hwc] at h
  rw [definition_eq, definitionKind?_append hbare hr]
  cases hkind : definitionKind? u with
  | none =>
    rw [hkind] at h
    exact h
  | some kind =>
    rw [hkind] at h
    exact kind.span_append h hn hw r

theorem definition_of_calm {w : List Char} (hw : Calm w) : definition w = (.unrecognized, 0) := by
  have hbare : ¬ IsBareKeyword [] := by
    rintro (h | h | h) <;> revert h <;> decide
  rw [← List.nil_append w, definition_eq, definitionKind?_append hbare hw]
  rfl

/-- A bare `#define` is extended by a gap and starts nothing without one. -/
theorem afterHash_define {w : List Char} (hw : Calm w) :
    afterHash ("define".toList ++ w)
      = if (w.head?.map isGap).getD false then
          (fun answer => (answer.1, answer.2 + runLength isGap w + 6))
            (definition (w.drop (runLength isGap w)))
        else (.unrecognized, 0) := by
  have hdrop : ∀ gap, ("define".toList ++ w).drop (6 + gap) = w.drop gap := by
    intro gap
    rw [← List.drop_drop]
    rfl
  have hattribute : startsWith "[" ("define".toList ++ w) = false :=
    (startsWith_append hw (by decide) _).trans rfl
  have hinclude : startsWith "include" ("define".toList ++ w) = false :=
    (startsWith_append hw (by decide) _).trans rfl
  simp only [afterHash, hattribute, hinclude, startsWithWord_self, hdrop]
  rfl

/-- A span that stays within a text is more than a bare `#define`, which goes on over a gap and
    without one is not recognised. -/
theorem ne_define_of_afterHash {u w : List Char} {k : SpanKind} {n : Nat}
    (h : afterHash (u ++ w) = (k, n)) (hn : n ≤ u.length)
    (hw : w.head? = some ' ' ∨ k ≠ .unrecognized) (hwc : Calm w) : u ≠ "define".toList := by
  rintro rfl
  rw [afterHash_define hwc] at h
  split at h
  · next hgap =>
    obtain ⟨-, rfl⟩ := Prod.mk.inj h
    cases w with
    | nil => simp at hgap
    | cons x t =>
      have hx : isGap x = true := hgap
      have hlen : "define".toList.length = 6 := rfl
      rw [runLength_cons, if_pos hx, hlen] at hn
      omega
  · next hgap =>
    obtain ⟨rfl, -⟩ := Prod.mk.inj h
    rw [hw.resolve_right fun hw => hw rfl] at hgap
    exact hgap rfl

theorem afterHash_append {u w r : List Char} {k : SpanKind} {n : Nat}
    (h : afterHash (u ++ w) = (k, n)) (hn : n ≤ u.length)
    (hw : w.head? = some ' '
      ∨ k ≠ .unrecognized ∧ (n = u.length → endsWithLine k = false))
    (hwc : Calm w) (hr : Calm r) : afterHash (u ++ r) = (k, n) := by
  have hsealed : w.head? = some ' ' ∨ k ≠ .unrecognized := hw.imp id (·.1)
  have hbare := ne_define_of_afterHash h hn hsealed hwc
  unfold afterHash at h ⊢
  rw [startsWith_append hwc (by decide), startsWith_append hwc (by decide),
    startsWithWord_append hwc (by decide) hbare] at h
  rw [startsWith_append hr (by decide), startsWith_append hr (by decide),
    startsWithWord_append hr (by decide) hbare]
  by_cases hattribute : startsWith "[" u = true
  · have hlen : 1 ≤ u.length := (List.isPrefixOf_iff_prefix.1 hattribute).length_le
    rw [if_pos hattribute, List.drop_append_of_le_length hlen] at h ⊢
    cases hbody : attributeBody (u.drop 1 ++ w) with
    | mk k' m =>
      rw [hbody] at h
      obtain ⟨rfl, rfl⟩ := Prod.mk.inj h
      rw [attributeBody_append hbody (by rw [List.length_drop]; omega) hsealed r]
  rw [if_neg hattribute] at h ⊢
  by_cases hinclude : startsWith "include" u = true
  · have hlen : 7 ≤ u.length := (List.isPrefixOf_iff_prefix.1 hinclude).length_le
    rw [if_pos hinclude, List.drop_append_of_le_length hlen] at h ⊢
    cases hbody : inclusion (u.drop 7 ++ w) with
    | mk k' m =>
      rw [hbody] at h
      obtain ⟨rfl, rfl⟩ := Prod.mk.inj h
      rw [inclusion_append hbody (by rw [List.length_drop]; omega) hsealed r]
  rw [if_neg hinclude] at h ⊢
  by_cases hdefine : startsWithWord "define" u = true
  · have hlen : 6 ≤ u.length := by
      rw [startsWithWord, Bool.and_eq_true] at hdefine
      exact (List.isPrefixOf_iff_prefix.1 hdefine.1).length_le
    rw [if_pos hdefine, List.drop_append_of_le_length hlen] at h ⊢
    cases hbody : definition ((u ++ w).drop (6 + runLength isGap (u.drop 6 ++ w))) with
    | mk k' m =>
      simp only [hbody] at h
      obtain ⟨rfl, rfl⟩ := Prod.mk.inj h
      have hrest : (u.drop 6).length = u.length - 6 := List.length_drop
      have hrun : w.head? = some ' '
          ∨ runLength isGap (u.drop 6 ++ w) ≠ (u.drop 6).length := by
        refine hsealed.imp id fun hk heq => ?_
        -- With no text left of its own a definition is not recognised.
        rw [heq, hrest, Nat.add_sub_cancel' hlen, List.drop_left, definition_of_calm hwc] at hbody
        exact hk (Prod.mk.inj hbody).1.symm
      obtain ⟨hlt, hall⟩ := runLength_append_of_open (by decide) (by omega) hrun
      rw [List.drop_append_of_le_length (by omega)] at hbody
      simp only [hall r]
      rw [List.drop_append_of_le_length (by omega),
        definition_append hbody (by rw [List.length_drop]; omega) _ hwc hr]
      refine hw.imp id fun hw => ⟨hw.1, fun heq => hw.2 ?_⟩
      rw [List.length_drop] at heq
      omega
  · rw [if_neg hdefine] at h ⊢
    exact h

/-- A span with a first character that comes to an end of its own, which nothing that follows
    can move.  Layout and line comments do not, nor do definitions that take up a line. -/
def Closes (c : Char) (k : SpanKind) : Prop :=
  endsWithLine k = false ∧ (k = .skipped → c = '#')

/-- A span within a text stays the same under another continuation.  The old one starts with
    a space, or the span is recognised and, if it reaches up to the end of the text, closes. -/
theorem after_append {c : Char} {u w r : List Char} {k : SpanKind} {n : Nat}
    (h : after c (u ++ w) = (k, n)) (hn : n ≤ u.length)
    (hw : w.head? = some ' ' ∨ k ≠ .unrecognized ∧ (n = u.length → Closes c k))
    (hwc : Calm w) (hr : Calm r) (hslash : c = '/' → u = [] → r.head? ≠ some '/') :
    after c (u ++ r) = (k, n) := by
  have hsealed : w.head? = some ' ' ∨ k ≠ .unrecognized := hw.imp id (·.1)
  have hreads := reads c
  generalize after c = read at hreads h ⊢
  cases hreads with
  | layout hc =>
    obtain ⟨rfl, rfl⟩ := Prod.mk.inj h
    have hrun : w.head? = some ' ' ∨ runLength isLayout (u ++ w) ≠ u.length := by
      refine hw.imp id fun hw heq => ?_
      rw [(hw.2 heq).2 rfl] at hc
      simp [isLayout] at hc
    show (SpanKind.skipped, runLength isLayout (u ++ r)) = _
    rw [(runLength_append_of_open (by decide) hn hrun).2 r]
  | blockStart hc => exact h
  | blockEnd hc => exact h
  | slash hc =>
    refine afterSlash_append h hn (hw.imp id fun hw => ⟨hw.1, fun heq => ?_⟩) hr (hslash hc)
    -- A recognised span after a slash is a line comment, and those do not close.
    have hkind := afterSlash_kind (u ++ w)
    rw [h] at hkind
    have hhash : c = '#' := (hw.2 heq).2 (hkind.resolve_right hw.1)
    rw [hc] at hhash
    exact absurd hhash (by decide)
  | digit hc => rw [afterDigit_append c u hr, ← h, afterDigit_append c u hwc]
  | square hc =>
    rw [afterBracket_append (by decide) (by decide) u hr, ← h,
      afterBracket_append (by decide) (by decide) u hwc]
  | angle hc =>
    rw [afterBracket_append (by decide) (by decide) u hr, ← h,
      afterBracket_append (by decide) (by decide) u hwc]
  | word hc => exact afterWordStart_append h hn hsealed hwc hr
  | hash hc =>
    exact afterHash_append h hn (hw.imp id fun hw => ⟨hw.1, fun heq => (hw.2 heq).1⟩) hwc hr
  | unknown => exact h

end HuffTrace.Span
