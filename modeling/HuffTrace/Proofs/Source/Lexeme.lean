/-
  HuffTrace.Proofs.Source.Lexeme

  The texts of recognised spans.  Only layout, macro headers and tables go over
  the end of a line, and a span that comes to an end of its own does not end
  with a blank (`after_text`).
-/

import HuffTrace.Proofs.Source.Cut

namespace HuffTrace.Span

/-- A text with a last character that is no blank. -/
def EndsDark (text : List Char) : Prop :=
  ∃ x, text.getLast? = some x ∧ Text.isBlank x = false

theorem endsDark_singleton {x : Char} (h : Text.isBlank x = false) : EndsDark [x] :=
  ⟨x, rfl, h⟩

theorem EndsDark.append_left {b : List Char} (h : EndsDark b) (a : List Char) :
    EndsDark (a ++ b) := by
  obtain ⟨x, hx, hdark⟩ := h
  exact ⟨x, by rw [List.getLast?_append, hx]; rfl, hdark⟩

theorem EndsDark.cons {b : List Char} (h : EndsDark b) (c : Char) : EndsDark (c :: b) :=
  h.append_left [c]

theorem breaks_dropLast {text : List Char} (h : EndsDark text) :
    breaks text.dropLast = breaks text := by
  obtain ⟨x, hx, hdark⟩ := h
  obtain ⟨u, rfl⟩ := List.getLast?_eq_some_iff.1 hx
  have hlast : breaks [x] = 0 := by
    refine breaks_eq_zero ?_
    rw [List.mem_singleton]
    rintro rfl
    cases hdark
  rw [List.dropLast_concat, breaks_append, hlast, Nat.add_zero]

/-! ## Runs -/

theorem newline_not_mem_run {p : Char → Bool} (hp : p '\n' = false) (cs : List Char) :
    '\n' ∉ cs.take (runLength p cs) := by
  rw [take_runLength]
  intro hmem
  rw [List.mem_takeWhile_imp hmem] at hp
  cases hp

/-- A character and a run of a class without blanks. -/
theorem endsDark_run {p : Char → Bool} (hp : Foreign p) {c : Char} (hc : Text.isBlank c = false)
    (cs : List Char) : EndsDark (c :: cs.take (runLength p cs)) := by
  rw [take_runLength]
  rcases List.eq_nil_or_concat (cs.takeWhile p) with hnil | ⟨run, x, hrun⟩
  · rw [hnil]
    exact endsDark_singleton hc
  · have hx : p x = true := by
      apply List.mem_takeWhile_imp (l := cs)
      rw [hrun]
      simp
    rw [hrun, List.concat_eq_append]
    refine (EndsDark.append_left (endsDark_singleton ?_) run).cons c
    rw [Bool.eq_false_iff]
    intro hblank
    rw [hp x (.inl hblank)] at hx
    cases hx

/-- A run with the character that stops it. -/
theorem take_succ_of_head? {cs : List Char} {n : Nat} {x : Char}
    (h : (cs.drop n).head? = some x) : cs.take (n + 1) = cs.take n ++ [x] := by
  rw [List.take_add_one, ← List.head?_drop, h]
  rfl

/-- A text on one line that does not end with a blank. -/
structure Closed (text : List Char) : Prop where
  line : '\n' ∉ text
  last : EndsDark text

theorem closed_run {p : Char → Bool} (hp : p '\n' = false) {cs : List Char} {x : Char}
    (hx : Text.isBlank x = false) (h : (cs.drop (runLength p cs)).head? = some x) :
    Closed (cs.take (runLength p cs + 1)) := by
  have hne : '\n' ≠ x := by
    rintro rfl
    cases hx
  rw [take_succ_of_head? h]
  exact ⟨by simp [newline_not_mem_run hp cs, hne], (endsDark_singleton hx).append_left _⟩

theorem closed_arguments {nested : Bool} {cs : List Char} {n : Nat}
    (h : argumentsLength nested cs = (true, n)) : Closed (cs.take n) := by
  induction cs generalizing nested n with
  | nil => cases h
  | cons c cs ih =>
    rw [argumentsLength] at h
    split at h
    · cases h
    next hc =>
    have hne : '\n' ≠ c := by
      rintro rfl
      exact hc rfl
    split at h
    · next hclose =>
      obtain ⟨rfl, -⟩ : c = ')' ∧ nested = false := by simpa using hclose
      cases h
      exact ⟨by simp, endsDark_singleton (by decide)⟩
    split at h
    · cases h
    · cases hrest : argumentsLength (if c == '(' then true else c != ')' && nested) cs with
      | mk closed m =>
      simp only [hrest, Prod.mk.injEq] at h
      obtain ⟨rfl, rfl⟩ := h
      have hclosed := ih hrest
      exact ⟨by simp [hne, hclosed.line], hclosed.last.cons c⟩

theorem endsDark_through {close : Char} (hclose : Text.isBlank close = false) {cs : List Char}
    {n : Nat} (h : through? close cs = some n) : EndsDark (cs.take n) := by
  simp only [through?] at h
  split at h
  · next hlt =>
    cases h
    have hhead : (cs.drop (runLength (· != close) cs)).head? = some close := by
      have hstop := List.head?_dropWhile_not (· != close) cs
      rw [← drop_runLength] at hstop
      cases hdrop : cs.drop (runLength (· != close) cs) with
      | nil => exact absurd (List.drop_eq_nil_iff.1 hdrop) (Nat.not_le.2 hlt)
      | cons x t =>
        rw [hdrop] at hstop
        simpa using hstop
    rw [take_succ_of_head? hhead]
    exact (endsDark_singleton hclose).append_left _
  · cases h

/-! ## Spans by their first character -/

/-- What is known of the text of a recognised span: it stays on its line unless it is layout,
    a macro header or a table, and if it closes it does not end with a blank. -/
structure WellShaped (c : Char) (k : SpanKind) (text : List Char) : Prop where
  line : k ≠ .lexeme .macroDefinition → k ≠ .lexeme .tableDefinition → '\n' ∉ text
  last : Closes c k → EndsDark text

theorem Closed.wellShaped {text : List Char} (h : Closed text) (c : Char) (k : SpanKind) :
    WellShaped c k text :=
  ⟨fun _ _ => h.line, fun _ => h.last⟩

theorem Closed.cons {text : List Char} (h : Closed text) {c : Char} (hc : c ≠ '\n') :
    Closed (c :: text) :=
  ⟨by simp [h.line, Ne.symm hc], h.last.cons c⟩

theorem Closed.append_left {a b : List Char} (h : Closed b) (ha : '\n' ∉ a) : Closed (a ++ b) :=
  ⟨by simp [h.line, ha], h.last.append_left a⟩

theorem closed_cons_run {p : Char → Bool} (hp : Foreign p) {c : Char} (hc : Text.isBlank c = false)
    (cs : List Char) : Closed (c :: cs.take (runLength p cs)) := by
  refine ⟨?_, endsDark_run hp hc cs⟩
  have hne : '\n' ≠ c := by
    rintro rfl
    cases hc
  simp [hne, newline_not_mem_run (hp '\n' (.inl (by decide))) cs]

theorem afterSlash_text {cs : List Char} {k : SpanKind} {n : Nat} (h : afterSlash cs = (k, n))
    (hk : k ≠ .unrecognized) : WellShaped '/' k ('/' :: cs.take n) := by
  unfold afterSlash at h
  split at h
  · next cs =>
    obtain ⟨rfl, rfl⟩ := Prod.mk.inj h
    refine ⟨fun _ _ => ?_, fun hcloses => absurd (hcloses.2 rfl) (by decide)⟩
    simp [List.take_succ_cons, newline_not_mem_run (p := (· != '\n')) (by decide) cs]
  · obtain ⟨rfl, -⟩ := Prod.mk.inj h
    exact absurd rfl hk
  · obtain ⟨rfl, -⟩ := Prod.mk.inj h
    exact absurd rfl hk

theorem afterDigit_text {c : Char} (hc : Text.isDigit c = true) {cs : List Char} {k : SpanKind}
    {n : Nat} (h : afterDigit c cs = (k, n)) : Closed (c :: cs.take n) := by
  have hdark : Text.isBlank c = false := by
    rw [Bool.eq_false_iff]
    intro hblank
    rw [foreign_isDigit c (.inl hblank)] at hc
    cases hc
  unfold afterDigit at h
  split at h
  · next x d v =>
    split at h
    · next hhex =>
      obtain ⟨-, rfl⟩ := Prod.mk.inj h
      simp only [Bool.and_eq_true, Bool.or_eq_true, beq_iff_eq] at hhex
      have hx : Text.isBlank x = false ∧ x ≠ '\n' ∧ c ≠ '\n' := by
        rcases hhex with ⟨⟨rfl, rfl | rfl⟩, -⟩ <;> decide
      rw [List.drop_succ_cons, List.drop_zero, List.take_succ_cons]
      exact (closed_cons_run foreign_isHexDigit hx.1 (d :: v)).cons hx.2.2
    · obtain ⟨-, rfl⟩ := Prod.mk.inj h
      exact closed_cons_run foreign_isDigit hdark _
  · obtain ⟨-, rfl⟩ := Prod.mk.inj h
    exact closed_cons_run foreign_isDigit hdark _

theorem afterBracket_text {close : Char} (hclose : Text.isBlank close = false) {lexeme : Lexeme}
    {cs : List Char} {k : SpanKind} {n : Nat} (h : afterBracket close lexeme cs = (k, n))
    (hk : k ≠ .unrecognized) : Closed (cs.take n) := by
  simp only [afterBracket] at h
  split at h
  · obtain ⟨rfl, -⟩ := Prod.mk.inj h
    exact absurd rfl hk
  split at h
  · next hhead =>
    obtain ⟨-, rfl⟩ := Prod.mk.inj h
    exact closed_run (foreign_isWordChar '\n' (.inl (by decide))) hclose hhead
  · obtain ⟨rfl, -⟩ := Prod.mk.inj h
    exact absurd rfl hk

theorem afterWordStart_text {c : Char} (hc : Text.isBlank c = false) {cs : List Char} {k : SpanKind}
    {n : Nat} (h : afterWordStart cs = (k, n)) (hk : k ≠ .unrecognized) :
    Closed (c :: cs.take n) := by
  have hne : c ≠ '\n' := by
    rintro rfl
    cases hc
  have hword : isWordChar '\n' = false := foreign_isWordChar '\n' (.inl (by decide))
  simp only [afterWordStart] at h
  split at h
  · next rest hdrop =>
    obtain ⟨-, rfl⟩ := Prod.mk.inj h
    have hhead : (cs.drop (runLength isWordChar cs)).head? = some ':' := by rw [hdrop]; rfl
    exact (closed_run hword (by decide) hhead).cons hne
  · next rest hdrop =>
    cases hargs : argumentsLength false rest with
    | mk closed m =>
    simp only [hargs, Prod.mk.injEq] at h
    obtain ⟨rfl, rfl⟩ := h
    -- Arguments that are not closed are not recognised.
    have hclosed : closed = true := by
      by_contra hopen
      exact hk (if_neg hopen)
    subst hclosed
    have hhead : (cs.drop (runLength isWordChar cs)).head? = some '(' := by rw [hdrop]; rfl
    have hrest : cs.drop (runLength isWordChar cs + 1) = rest := by
      rw [← List.drop_drop, hdrop]
      rfl
    rw [List.take_add, hrest]
    exact ((closed_arguments hargs).append_left (closed_run hword (by decide) hhead).line).cons hne
  · obtain ⟨-, rfl⟩ := Prod.mk.inj h
    exact closed_cons_run foreign_isWordChar hc _

theorem attributeBody_text {cs : List Char} {k : SpanKind} {n : Nat} (h : attributeBody cs = (k, n))
    (hk : k ≠ .unrecognized) : Closed (cs.take n) := by
  simp only [attributeBody] at h
  split at h
  · next hhead =>
    obtain ⟨-, rfl⟩ := Prod.mk.inj h
    exact closed_run (by decide) (by decide) hhead
  · obtain ⟨rfl, -⟩ := Prod.mk.inj h
    exact absurd rfl hk

theorem inclusion_text {cs : List Char} {k : SpanKind} {n : Nat} (h : inclusion cs = (k, n))
    (hk : k ≠ .unrecognized) : Closed (cs.take n) := by
  simp only [inclusion] at h
  split at h
  · next quote rest hdrop =>
    split at h
    · next hquote =>
      have hdark : Text.isBlank quote = false ∧ quote ≠ '\n' := by
        rw [Bool.or_eq_true, beq_iff_eq, beq_iff_eq] at hquote
        rcases hquote with rfl | rfl <;> decide
      split at h
      · next hhead =>
        obtain ⟨-, rfl⟩ := Prod.mk.inj h
        have hclosed := closed_run (p := fun c => c != quote && c != '\n') (by simp) hdark.1 hhead
        rw [Nat.add_assoc, Nat.add_assoc, List.take_add, hdrop, Nat.add_comm 1, List.take_succ_cons]
        exact (hclosed.cons hdark.2).append_left (newline_not_mem_run (by decide) cs)
      · obtain ⟨rfl, -⟩ := Prod.mk.inj h
        exact absurd rfl hk
    · obtain ⟨rfl, -⟩ := Prod.mk.inj h
      exact absurd rfl hk
  · obtain ⟨rfl, -⟩ := Prod.mk.inj h
    exact absurd rfl hk

theorem DefinitionKind.span_text {kind : DefinitionKind} {cs : List Char} {k : SpanKind} {n : Nat}
    (h : kind.span cs = (k, n)) (hk : k ≠ .unrecognized) : WellShaped '#' k (cs.take n) := by
  -- A definition that is never closed is not recognised.
  have hopen : (SpanKind.unrecognized, cs.length) = (k, n) → WellShaped '#' k (cs.take n) := by
    rintro ⟨⟩
    exact absurd rfl hk
  have hline : ∀ {k' : SpanKind}, endsWithLine k' = true →
      (k', runLength (· != '\n') cs) = (k, n) → WellShaped '#' k (cs.take n) := by
    rintro k' hk' ⟨⟩
    refine ⟨fun _ _ => newline_not_mem_run (by decide) cs, fun hcloses => ?_⟩
    rw [hcloses.1] at hk'
    cases hk'
  cases kind with
  | body =>
    rw [span] at h
    split at h
    · next m hm =>
      obtain ⟨rfl, rfl⟩ := Prod.mk.inj h
      exact ⟨fun hne => absurd rfl hne, fun _ => endsDark_through (by decide) hm⟩
    · exact hopen h
  | interface kind => exact hline rfl h
  | constant => exact hline rfl h
  | table =>
    rw [span] at h
    split at h
    · next m hm =>
      split at h
      · next m' hm' =>
        obtain ⟨rfl, rfl⟩ := Prod.mk.inj h
        refine ⟨fun _ hne => absurd rfl hne, fun _ => ?_⟩
        rw [List.take_add]
        exact (endsDark_through (by decide) hm').append_left _
      · exact hopen h
    · exact hopen h

theorem definition_text {cs : List Char} {k : SpanKind} {n : Nat} (h : definition cs = (k, n))
    (hk : k ≠ .unrecognized) : WellShaped '#' k (cs.take n) := by
  rw [definition_eq] at h
  split at h
  · exact DefinitionKind.span_text h hk
  · obtain ⟨rfl, -⟩ := Prod.mk.inj h
    exact absurd rfl hk

theorem WellShaped.append_left {c : Char} {k : SpanKind} {a b : List Char} (h : WellShaped c k b)
    (ha : '\n' ∉ a) : WellShaped c k (a ++ b) :=
  ⟨fun h1 h2 => by simp [ha, h.line h1 h2], fun hcloses => (h.last hcloses).append_left a⟩

theorem newline_not_mem_take_keyword {keyword : String} {cs : List Char} {n : Nat}
    (h : startsWith keyword cs = true) (hn : n = keyword.toList.length)
    (hkeyword : '\n' ∉ keyword.toList) : '\n' ∉ cs.take n := by
  rw [hn, (List.prefix_iff_eq_take.1 (List.isPrefixOf_iff_prefix.1 h)).symm]
  exact hkeyword

theorem afterHash_text {cs : List Char} {k : SpanKind} {n : Nat} (h : afterHash cs = (k, n))
    (hk : k ≠ .unrecognized) : WellShaped '#' k ('#' :: cs.take n) := by
  suffices hrest : WellShaped '#' k (cs.take n) from hrest.append_left (a := ['#']) (by decide)
  unfold afterHash at h
  split at h
  · next hattribute =>
    cases hbody : attributeBody (cs.drop 1) with
    | mk k' m =>
    rw [hbody] at h
    obtain ⟨rfl, rfl⟩ := Prod.mk.inj h
    rw [Nat.add_comm, List.take_add]
    exact ((attributeBody_text hbody hk).append_left
      (newline_not_mem_take_keyword hattribute rfl (by decide))).wellShaped '#' _
  split at h
  · next hinclude =>
    cases hbody : inclusion (cs.drop 7) with
    | mk k' m =>
    rw [hbody] at h
    obtain ⟨rfl, rfl⟩ := Prod.mk.inj h
    rw [Nat.add_comm, List.take_add]
    exact ((inclusion_text hbody hk).append_left
      (newline_not_mem_take_keyword hinclude rfl (by decide))).wellShaped '#' _
  split at h
  · next hdefine =>
    rw [startsWithWord, Bool.and_eq_true] at hdefine
    cases hbody : definition (cs.drop (6 + runLength isGap (cs.drop 6))) with
    | mk k' m =>
    simp only [hbody] at h
    obtain ⟨rfl, rfl⟩ := Prod.mk.inj h
    have hlen : m + runLength isGap (cs.drop 6) + 6 = 6 + runLength isGap (cs.drop 6) + m := by
      omega
    rw [hlen, List.take_add, List.take_add]
    refine (definition_text hbody hk).append_left ?_
    have hkeyword : '\n' ∉ cs.take 6 := newline_not_mem_take_keyword hdefine.1 rfl (by decide)
    simp [hkeyword, newline_not_mem_run (p := isGap) (by decide) (cs.drop 6)]
  · obtain ⟨rfl, -⟩ := Prod.mk.inj h
    exact absurd rfl hk

/-- The text of a recognised span that is no layout. -/
theorem after_text {c : Char} {cs : List Char} {k : SpanKind} {n : Nat} (h : after c cs = (k, n))
    (hk : k ≠ .unrecognized) (hc : isLayout c = false) : WellShaped c k (c :: cs.take n) := by
  have hne : c ≠ '\n' := by
    rintro rfl
    cases hc
  have hbrace : ∀ {k' : SpanKind}, Text.isBlank c = false → (k', 0) = (k, n) →
      WellShaped c k (c :: cs.take n) := by
    rintro k' hdark ⟨⟩
    exact Closed.wellShaped ⟨by simpa using Ne.symm hne, endsDark_singleton hdark⟩ c k
  have hreads := reads c
  generalize after c = read at hreads h
  cases hreads with
  | layout hlayout =>
    rw [hc] at hlayout
    cases hlayout
  | blockStart hopen => exact hbrace (by rw [hopen]; decide) h
  | blockEnd hclose => exact hbrace (by rw [hclose]; decide) h
  | slash hslash =>
    subst hslash
    exact afterSlash_text h hk
  | digit hdigit => exact (afterDigit_text hdigit h).wellShaped c k
  | square hsquare => exact ((afterBracket_text (by decide) h hk).cons hne).wellShaped c k
  | angle hangle => exact ((afterBracket_text (by decide) h hk).cons hne).wellShaped c k
  | word hword =>
    exact (afterWordStart_text (isBlank_of_isWordStart hword) h hk).wellShaped c k
  | hash hhash =>
    subst hhash
    exact afterHash_text h hk
  | unknown =>
    obtain ⟨rfl, -⟩ := Prod.mk.inj h
    exact absurd rfl hk

theorem afterBracket_ne_skipped (close : Char) (lexeme : Lexeme) (cs : List Char) :
    (afterBracket close lexeme cs).1 ≠ .skipped := by
  simp only [afterBracket]
  split
  · nofun
  · split <;> nofun

/-- What is skipped is layout, a line comment or an attribute. -/
theorem skipped_cases {c : Char} {cs : List Char} {n : Nat} (h : after c cs = (.skipped, n)) :
    (isLayout c = true ∧ n = runLength isLayout cs) ∨ (c = '/' ∧ cs.head? = some '/')
      ∨ c = '#' := by
  have hreads := reads c
  generalize after c = read at hreads h
  cases hreads with
  | layout hc => exact .inl ⟨hc, (Prod.mk.inj h).2.symm⟩
  | blockStart hc => cases h
  | blockEnd hc => cases h
  | slash hc =>
    refine .inr (.inl ⟨hc, ?_⟩)
    unfold afterSlash at h
    split at h
    · rfl
    · cases h
    · cases h
  | digit hc =>
    exfalso
    unfold afterDigit at h
    split at h
    · split at h <;> cases h
    · cases h
  | square hc => exact absurd (congrArg Prod.fst h) (afterBracket_ne_skipped _ _ cs)
  | angle hc => exact absurd (congrArg Prod.fst h) (afterBracket_ne_skipped _ _ cs)
  | word hc =>
    exfalso
    simp only [afterWordStart] at h
    split at h
    · cases h
    · have hkind := (Prod.mk.inj h).1
      split at hkind <;> cases hkind
    · cases h
  | hash hc => exact .inr (.inr hc)
  | unknown => cases h

/-- Every span of a text is what its first character starts. -/
theorem exists_after_of_mem_cut {cs : List Char} {s : Span} (h : s ∈ cut cs) :
    ∃ c tail n, after c tail = (s.kind, n) ∧ s.text = c :: tail.take n := by
  induction hlen : cs.length using Nat.strongRecOn generalizing cs with
  | _ len ih =>
  cases cs with
  | nil =>
    rw [cut] at h
    cases h
  | cons c cs =>
    obtain ⟨k, n, hafter⟩ : ∃ k n, after c cs = (k, n) := ⟨_, _, rfl⟩
    rw [cut_cons hafter, List.mem_cons] at h
    rcases h with rfl | h
    · exact ⟨c, cs, n, hafter, rfl⟩
    · refine ih _ ?_ h rfl
      rw [← hlen, List.length_drop, List.length_cons]
      omega

/-- No lexeme starts with layout. -/
theorem isLayout_of_lexeme {c : Char} {cs : List Char} {lexeme : Lexeme} {n : Nat}
    (h : after c cs = (.lexeme lexeme, n)) : isLayout c = false := by
  rw [Bool.eq_false_iff]
  intro hc
  rw [after, if_pos hc] at h
  cases h

theorem closes_of_lexeme {s : Span} {lexeme : Lexeme} (hkind : s.kind = .lexeme lexeme)
    (hcloses : endsWithLine s.kind = false) {c : Char} : Closes c s.kind := by
  refine ⟨hcloses, fun hskipped => ?_⟩
  rw [hkind] at hskipped
  cases hskipped

theorem endsDark_of_lexeme {cs : List Char} {s : Span} (hs : s ∈ cut cs) {lexeme : Lexeme}
    (hkind : s.kind = .lexeme lexeme) (hcloses : endsWithLine s.kind = false) :
    EndsDark s.text := by
  obtain ⟨c, tail, n, hafter, htext⟩ := exists_after_of_mem_cut hs
  have hlayout : isLayout c = false := by
    rw [hkind] at hafter
    exact isLayout_of_lexeme hafter
  rw [htext]
  exact (after_text hafter (by simp [hkind]) hlayout).last (closes_of_lexeme hkind hcloses)

theorem isBlank_of_isLayout {x : Char} (h : isLayout x = true) : Text.isBlank x = true := by
  simp only [isLayout, Bool.or_eq_true, beq_iff_eq] at h
  rcases h with (((rfl | rfl) | rfl) | rfl) | rfl <;> decide

theorem mem_run {p : Char → Bool} {c : Char} {tail : List Char} (hc : p c = true) {x : Char}
    (hx : x ∈ c :: tail.take (runLength p tail)) : p x = true := by
  rcases List.mem_cons.1 hx with rfl | hx
  · exact hc
  · rw [take_runLength] at hx
    exact List.mem_takeWhile_imp hx

theorem newline_not_mem_lexeme {cs : List Char} {s : Span} (h : s ∈ cut cs) {lexeme : Lexeme}
    (hkind : s.kind = .lexeme lexeme) (hmacros : lexeme ≠ .macroDefinition)
    (htables : lexeme ≠ .tableDefinition) : '\n' ∉ s.text := by
  obtain ⟨c, tail, n, hafter, htext⟩ := exists_after_of_mem_cut h
  rw [hkind] at hafter
  rw [htext]
  exact (after_text hafter (by simp) (isLayout_of_lexeme hafter)).line (by simpa using hmacros)
    (by simpa using htables)

end HuffTrace.Span
