/-
  HuffTrace.Proofs.Source.Cut

  The spans of a text.  They are the text again when put together, and each end
  of a list of spans is the cutting of the text that remains there, so that a
  span of a text is known by what stands before it.  `notable` leaves out what
  no token and no comment comes from.
-/

import HuffTrace.Proofs.Source.Lookahead

namespace HuffTrace.Span

/-! ## Cutting -/

theorem cut_cons {c : Char} {cs : List Char} {k : SpanKind} {n : Nat} (h : after c cs = (k, n)) :
    cut (c :: cs) = ⟨k, c :: cs.take n⟩ :: cut (cs.drop n) := by
  rw [cut, h]

/-- The first span of a text, by where it ends. -/
theorem cut_cons_append_iff {c : Char} {u v : List Char} {k : SpanKind} {spans : List Span} :
    cut (c :: (u ++ v)) = ⟨k, c :: u⟩ :: spans
      ↔ after c (u ++ v) = (k, u.length) ∧ cut v = spans := by
  obtain ⟨k', n, hafter⟩ : ∃ k' n, after c (u ++ v) = (k', n) := ⟨_, _, rfl⟩
  have hle := after_le c (u ++ v)
  rw [hafter] at hle
  rw [cut_cons hafter, hafter]
  constructor
  · intro h
    obtain ⟨hspan, hrest⟩ := List.cons.inj h
    have hkind : k' = k := congrArg Span.kind hspan
    have htake : (u ++ v).take n = u := (List.cons.inj (congrArg Span.text hspan)).2
    have hn : n = u.length := by
      have hlen := congrArg List.length htake
      rw [List.length_take] at hlen
      omega
    subst hkind hn
    rw [List.drop_left] at hrest
    exact ⟨rfl, hrest⟩
  · rintro ⟨hspan, hrest⟩
    obtain ⟨rfl, rfl⟩ := Prod.mk.inj hspan
    rw [List.take_left, List.drop_left, hrest]

theorem cut_ne_nil {cs : List Char} (h : cs ≠ []) : cut cs ≠ [] := by
  cases cs with
  | nil => exact absurd rfl h
  | cons c cs =>
    rw [cut]
    exact List.cons_ne_nil _ _

/-- The text that spans make up. -/
def texts (spans : List Span) : List Char :=
  spans.flatMap (·.text)

@[simp] theorem texts_nil : texts [] = [] := rfl

@[simp] theorem texts_cons (s : Span) (spans : List Span) :
    texts (s :: spans) = s.text ++ texts spans :=
  List.flatMap_cons

@[simp] theorem texts_append (a b : List Span) : texts (a ++ b) = texts a ++ texts b :=
  List.flatMap_append

/-- Cutting loses nothing. -/
theorem texts_cut (cs : List Char) : texts (cut cs) = cs := by
  induction hlen : cs.length using Nat.strongRecOn generalizing cs with
  | _ len ih =>
  cases cs with
  | nil => rw [cut, texts_nil]
  | cons c cs =>
    obtain ⟨k, n, hafter⟩ : ∃ k n, after c cs = (k, n) := ⟨_, _, rfl⟩
    have hshorter : (cs.drop n).length < len := by
      rw [← hlen, List.length_drop, List.length_cons]
      omega
    rw [cut_cons hafter, texts_cons, ih _ hshorter _ rfl, List.cons_append,
      List.take_append_drop]

/-- The end of a list of spans is what its own text is cut into. -/
theorem cut_texts {cs : List Char} {a b : List Span} (h : cut cs = a ++ b) : cut (texts b) = b := by
  induction a generalizing cs with
  | nil =>
    rw [List.nil_append] at h
    rw [← h, texts_cut]
  | cons s a ih =>
    cases cs with
    | nil => simp [cut] at h
    | cons c cs =>
      obtain ⟨k, n, hafter⟩ : ∃ k n, after c cs = (k, n) := ⟨_, _, rfl⟩
      rw [cut_cons hafter, List.cons_append] at h
      exact ih (List.cons.inj h).2

theorem take_runLength (p : Char → Bool) (cs : List Char) :
    cs.take (runLength p cs) = cs.takeWhile p :=
  (List.prefix_iff_eq_take.1 (List.takeWhile_prefix p)).symm

theorem drop_runLength (p : Char → Bool) (cs : List Char) :
    cs.drop (runLength p cs) = cs.dropWhile p := calc
  cs.drop (runLength p cs) = (cs.takeWhile p ++ cs.dropWhile p).drop (runLength p cs) := by
    rw [List.takeWhile_append_dropWhile]
  _ = cs.dropWhile p := List.drop_left

/-- A line comment goes up to the end of its line. -/
theorem cut_comment (cs : List Char) :
    cut ('/' :: '/' :: cs)
      = ⟨.skipped, '/' :: '/' :: cs.takeWhile (· != '\n')⟩ :: cut (cs.dropWhile (· != '\n')) := by
  have hafter : after '/' ('/' :: cs) = (.skipped, runLength (· != '\n') cs + 1) := rfl
  rw [cut_cons hafter, List.take_succ_cons, List.drop_succ_cons, take_runLength, drop_runLength]

/-! ## Lines -/

@[simp] theorem breaks_nil : breaks [] = 0 := rfl

@[simp] theorem breaks_append (a b : List Char) : breaks (a ++ b) = breaks a + breaks b :=
  List.count_append

theorem breaks_eq_zero {u : List Char} (h : '\n' ∉ u) : breaks u = 0 :=
  List.count_eq_zero.2 h

theorem numbered_append (line : Nat) (a b : List Span) :
    numbered line (a ++ b) = numbered line a ++ numbered (line + breaks (texts a)) b := by
  induction a generalizing line with
  | nil => simp [numbered]
  | cons s a ih => simp [numbered, ih, Nat.add_assoc]

theorem mem_numbered {line : Nat} {spans : List Span} {x : Located Span} :
    x ∈ numbered line spans
      ↔ ∃ a b, spans = a ++ x.item :: b ∧ x.line = line + breaks (texts a) := by
  constructor
  · intro h
    induction spans generalizing line with
    | nil => simp [numbered] at h
    | cons s spans ih =>
      rw [numbered, List.mem_cons] at h
      rcases h with rfl | h
      · exact ⟨[], spans, rfl, rfl⟩
      · obtain ⟨a, b, rfl, hline⟩ := ih h
        refine ⟨s :: a, b, rfl, ?_⟩
        rw [hline, texts_cons, breaks_append, Nat.add_assoc]
  · rintro ⟨a, b, rfl, hline⟩
    rw [numbered_append, numbered, ← hline]
    simp

/-- A text that starts with a line break or with nothing. -/
def EndsLine (r : List Char) : Prop :=
  ∀ x t, r = x :: t → x = '\n'

theorem endsLine_dropWhile (cs : List Char) : EndsLine (cs.dropWhile (· != '\n')) := by
  intro x t h
  have := List.head?_dropWhile_not (· != '\n') cs
  rw [h] at this
  simpa using this

/-- What stands after a comment starts a new line. -/
theorem endsLine_of_comment {cs body : List Char} {a b : List Span}
    (hcut : cut cs = a ++ ⟨.skipped, '/' :: body⟩ :: b) :
    EndsLine (texts b) := by
  have htail : cut ('/' :: (body ++ texts b)) = ⟨.skipped, '/' :: body⟩ :: b := by
    have := cut_texts hcut
    rwa [texts_cons] at this
  obtain ⟨k, n, hafter⟩ : ∃ k n, afterSlash (body ++ texts b) = (k, n) := ⟨_, _, rfl⟩
  have hkind : k = .skipped := by
    have hafter' : after '/' (body ++ texts b) = (k, n) := hafter
    rw [cut_cons hafter'] at htail
    exact congrArg Span.kind (List.cons.inj htail).1
  subst hkind
  unfold afterSlash at hafter
  split at hafter
  · next v heq =>
    rw [heq, cut_comment] at htail
    rw [← (List.cons.inj htail).2, texts_cut]
    exact endsLine_dropWhile v
  · cases hafter
  · cases hafter

/-- A line comment is cut off with the rest of its line. -/
theorem cut_comment_append {body rest : List Char} (hbody : '\n' ∉ body) (hrest : EndsLine rest) :
    cut ('/' :: '/' :: body ++ rest) = ⟨.skipped, '/' :: '/' :: body⟩ :: cut rest := by
  have hall : ∀ x ∈ body, (x != '\n') = true := by
    intro x hx
    rw [bne_iff_ne]
    rintro rfl
    exact hbody hx
  have hstop : rest.takeWhile (· != '\n') = [] ∧ rest.dropWhile (· != '\n') = rest := by
    cases rest with
    | nil => exact ⟨rfl, rfl⟩
    | cons x t =>
      rw [hrest x t rfl]
      exact ⟨rfl, rfl⟩
  rw [List.cons_append, List.cons_append, cut_comment, List.takeWhile_append_of_pos hall,
    List.dropWhile_append_of_pos hall, hstop.1, hstop.2, List.append_nil]

/-- The end of a line of a text is determined by the number of the line. -/
theorem append_cancel_of_endsLine {a b a' b' : List Char} (h : a ++ b = a' ++ b')
    (hb : EndsLine b) (hb' : EndsLine b') (hbreaks : breaks a = breaks a') : a = a' := by
  -- What one of the two has more than the other would start with a line break.
  have hkey : ∀ {a b b' v : List Char}, EndsLine b → b = v ++ b' → breaks (a ++ v) = breaks a →
      v = [] := by
    intro a b b' v hb hv hbreaks
    cases v with
    | nil => rfl
    | cons x v =>
      obtain rfl : x = '\n' := hb x (v ++ b') hv
      have hpos : 0 < breaks ('\n' :: v) := by simp [breaks]
      rw [breaks_append] at hbreaks
      omega
  rcases List.append_eq_append_iff.1 h with ⟨v, ha', hv⟩ | ⟨v, ha, hv⟩
  · obtain rfl := hkey hb hv (by rw [← ha', hbreaks])
    simp [ha']
  · obtain rfl := hkey hb' hv (by rw [← ha, hbreaks])
    simp [ha]

/-! ## Notable spans -/

/-- Whether a span is a lexeme, a comment or an attribute. -/
def isNotable : Span → Bool
  | ⟨.lexeme _, _⟩ => true
  | ⟨.skipped, text⟩ => !text.head?.any isLayout
  | ⟨.unrecognized, _⟩ => false

/-- The notable spans of a text with their lines, the text starting at `line`. -/
def notable (line : Nat) (cs : List Char) : List (Located Span) :=
  (numbered line (cut cs)).filter (isNotable ·.item)

@[simp] theorem notable_nil (line : Nat) : notable line [] = [] := by
  simp [notable, cut, numbered]

/-- The first span of a text and the notable spans of the rest. -/
theorem notable_cons {c : Char} {cs : List Char} {k : SpanKind} {n : Nat}
    (h : after c cs = (k, n)) (line : Nat) :
    notable line (c :: cs)
      = [⟨line, ⟨k, c :: cs.take n⟩⟩].filter (isNotable ·.item)
        ++ notable (line + breaks (c :: cs.take n)) (cs.drop n) := by
  rw [notable, notable, cut_cons h, numbered, ← List.filter_append, List.singleton_append]

theorem notable_cons_of_not {c : Char} {cs : List Char} {k : SpanKind} {n : Nat}
    (h : after c cs = (k, n)) (hnot : isNotable ⟨k, c :: cs.take n⟩ = false) (line : Nat) :
    notable line (c :: cs) = notable (line + breaks (c :: cs.take n)) (cs.drop n) := by
  rw [notable_cons h, List.filter_cons_of_neg (by simp [hnot]), List.filter_nil, List.nil_append]

/-- Layout before a text hides no span of it. -/
theorem notable_layout {c : Char} (hc : isLayout c = true) (cs : List Char) (line : Nat) :
    notable line (c :: cs) = notable (line + breaks [c]) cs := by
  have hafter : after c cs = (.skipped, runLength isLayout cs) := by rw [after, if_pos hc]
  rw [notable_cons_of_not hafter (by simp [isNotable, hc])]
  cases cs with
  | nil => simp [runLength]
  | cons d cs =>
    by_cases hd : isLayout d = true
    · have hd' : after d cs = (.skipped, runLength isLayout cs) := by rw [after, if_pos hd]
      rw [notable_cons_of_not hd' (by simp [isNotable, hd]), runLength_cons, if_pos hd,
        List.take_succ_cons, List.drop_succ_cons]
      -- Both sides count the line breaks of the whole run.
      congr 1
      simp only [breaks, List.count_cons]
      simp only [List.count_nil]
      omega
    · rw [runLength_cons, if_neg hd]
      simp

theorem notable_layout_append {u : List Char} (hu : ∀ x ∈ u, isLayout x = true) (v : List Char)
    (line : Nat) : notable line (u ++ v) = notable (line + breaks u) v := by
  induction u generalizing line with
  | nil => simp
  | cons c u ih =>
    rw [List.cons_append, notable_layout (hu c (by simp)), ih fun x hx => hu x (by simp [hx]),
      Nat.add_assoc, ← breaks_append, List.singleton_append]

/-- A comment is followed by what comes after its line. -/
theorem notable_comment {body rest : List Char} (hbody : '\n' ∉ body) (hrest : EndsLine rest)
    (line : Nat) :
    notable line ('/' :: '/' :: body ++ rest)
      = ⟨line, ⟨.skipped, '/' :: '/' :: body⟩⟩ :: notable line rest := by
  have hbreaks : breaks ('/' :: '/' :: body) = 0 := breaks_eq_zero (by simpa using hbody)
  rw [notable, notable, cut_comment_append hbody hrest, numbered, List.filter_cons_of_pos rfl,
    hbreaks, Nat.add_zero]

theorem isWordChar_of_isWordStart {c : Char} (h : isWordStart c = true) : isWordChar c = true := by
  simp only [isWordStart, isWordChar, Char.isAlphanum, Bool.or_eq_true] at h ⊢
  exact h.imp .inl id

theorem isBlank_of_isWordStart {c : Char} (h : isWordStart c = true) : Text.isBlank c = false := by
  rw [Bool.eq_false_iff]
  intro hblank
  have := foreign_isWordChar c (.inl hblank)
  rw [isWordChar_of_isWordStart h] at this
  cases this

/-- A blank that is no layout is not recognised. -/
theorem after_of_isBlank {c : Char} (hc : Text.isBlank c = true) (hlayout : isLayout c = false)
    (cs : List Char) : after c cs = (.unrecognized, 0) := by
  have hne : ∀ {x : Char}, Text.isBlank x = false → (c == x) = false := by
    intro x hx
    rw [beq_eq_false_iff_ne]
    rintro rfl
    rw [hc] at hx
    cases hx
  have hdigit := foreign_isDigit c (.inl hc)
  have hword : isWordStart c = false := by
    rw [Bool.eq_false_iff]
    intro h
    rw [isBlank_of_isWordStart h] at hc
    cases hc
  simp [after, hlayout, hdigit, hword, hne (x := '\x7b') (by decide),
    hne (x := '\x7d') (by decide), hne (x := '/') (by decide), hne (x := '[') (by decide),
    hne (x := '<') (by decide), hne (x := '#') (by decide)]

/-- Blanks before a text hide no span of it. -/
theorem notable_blanks {u : List Char} (hu : ∀ x ∈ u, Text.isBlank x = true) (v : List Char)
    (line : Nat) : notable line (u ++ v) = notable (line + breaks u) v := by
  induction u generalizing line with
  | nil => simp
  | cons c u ih =>
    have hfirst : notable line (c :: (u ++ v)) = notable (line + breaks [c]) (u ++ v) := by
      by_cases hc : isLayout c = true
      · exact notable_layout hc (u ++ v) line
      · have hafter := after_of_isBlank (hu c (by simp)) (by simpa using hc) (u ++ v)
        rw [notable_cons_of_not hafter rfl]
        rfl
    rw [List.cons_append, hfirst, ih fun x hx => hu x (by simp [hx]), Nat.add_assoc,
      ← breaks_append, List.singleton_append]

end HuffTrace.Span
