/-
  HuffTrace.Proofs.Source.Probe

  What a line comment meets.  A probe is the beginning of a line comment, set
  off by a space.  The span before it ends within its own text or swallows the
  probe whole (`after_probe`); only layout, and a directive that has nothing
  after its keyword, take up the space and leave the slashes.
-/

import HuffTrace.Proofs.Source.Lookahead

namespace HuffTrace.Span

/-- A line comment without text, set off by a space. -/
def probe : List Char :=
  [' ', '/', '/']

theorem calm_probe : Calm probe :=
  calm_cons (.inl (by decide))

/-! ## What takes up the probe

Every loop of the cutter stops before the probe or swallows it whole, but for the runs of
layout and of gaps, which stop between its space and its slashes.  Here `t` is the text of
the comment and all that follows. -/

/-- The first `n` characters of a text `u` and a probe after it end within the text, or not
    before the probe does. -/
def Spares (u : List Char) (n : Nat) : Prop :=
  n ≤ u.length ∨ u.length + 3 ≤ n

/-- What spares the end of a text spares the text. -/
theorem Spares.of_rest {u rest : List Char} {n : Nat} (h : Spares rest n) {k : Nat}
    (hu : u.length = k + rest.length) : Spares u (k + n) := by
  rcases h with h | h
  · exact .inl (by omega)
  · exact .inr (by omega)

theorem Spares.succ {u : List Char} {n : Nat} (h : Spares u n) (c : Char) :
    Spares (c :: u) (n + 1) := by
  rw [Nat.add_comm]
  exact h.of_rest (by rw [List.length_cons, Nat.add_comm])

section Probe

variable (t : List Char)

theorem calm_probe_append : Calm (probe ++ t) :=
  calm_cons (.inl (by decide))

theorem length_append_probe_append (u : List Char) :
    u.length + 3 ≤ (u ++ (probe ++ t)).length := by
  simp only [probe, List.length_append, List.length_cons, List.length_nil]
  omega

theorem runLength_probe {p : Char → Bool} (hspace : p ' ' = true) (hslash : p '/' = true)
    (u : List Char) :
    runLength p (u ++ (probe ++ t)) < u.length
      ∨ u.length + 3 ≤ runLength p (u ++ (probe ++ t)) := by
  rcases runLength_append p u (probe ++ t) with ⟨hlt, -⟩ | hall
  · exact .inl hlt
  · right
    have hprobe : runLength p (probe ++ t) = 3 + runLength p t := by
      simp only [probe, List.cons_append, List.nil_append, runLength_cons, hspace, hslash, if_true]
      omega
    rw [hall, hprobe]
    omega

theorem commentLength_probe (starred : Bool) (u : List Char) :
    Spares u (commentLength starred (u ++ (probe ++ t))) := by
  induction u generalizing starred with
  | nil =>
    right
    have hstep : commentLength starred (probe ++ t) = commentLength false t + 3 := by
      simp [probe, commentLength]
    rw [List.nil_append, hstep]
    exact Nat.le_add_left _ _
  | cons c u ih =>
    simp only [List.cons_append, commentLength]
    split
    · exact .inl (Nat.zero_le _)
    · exact (ih (c == '*')).succ c

theorem argumentsLength_probe (nested : Bool) (u : List Char) :
    Spares u (argumentsLength nested (u ++ (probe ++ t))).2 := by
  induction u generalizing nested with
  | nil =>
    right
    have hstep : (argumentsLength nested (probe ++ t)).2 = (argumentsLength nested t).2 + 3 := by
      simp [probe, argumentsLength]
    rw [List.nil_append, hstep]
    exact Nat.le_add_left _ _
  | cons c u ih =>
    simp only [List.cons_append, argumentsLength]
    split
    · exact .inl (Nat.zero_le _)
    split
    · exact .inl (Nat.succ_le_succ (Nat.zero_le _))
    split
    · exact .inl (Nat.zero_le _)
    · exact (ih (if c == '(' then true else c != ')' && nested)).succ c

theorem through?_probe {close : Char} (hclose : close ≠ ' ' ∧ close ≠ '/') {u : List Char} {n : Nat}
    (h : through? close (u ++ (probe ++ t)) = some n) : Spares u n := by
  have hspace : (' ' != close) = true := by simpa using hclose.1.symm
  have hslash : ('/' != close) = true := by simpa using hclose.2.symm
  simp only [through?] at h
  split at h
  · cases h
    rcases runLength_probe t (p := (· != close)) hspace hslash u with h | h
    · exact .inl h
    · exact .inr (Nat.le_succ_of_le h)
  · cases h

/-! ## Spans that take up the probe -/

theorem afterSlash_probe (u : List Char) : Spares u (afterSlash (u ++ (probe ++ t))).2 := by
  cases u with
  | nil => exact .inl (Nat.le_refl _)
  | cons c u =>
    rw [List.cons_append]
    unfold afterSlash
    split
    · next heq =>
      obtain ⟨-, rfl⟩ := List.cons.inj heq
      have hrun : Spares u (runLength (· != '\n') (u ++ (probe ++ t))) :=
        (runLength_probe t (by decide) (by decide) u).imp Nat.le_of_lt id
      exact hrun.succ c
    · next heq =>
      obtain ⟨-, rfl⟩ := List.cons.inj heq
      exact (commentLength_probe t false u).succ c
    · exact .inl (Nat.zero_le _)

theorem afterWordStart_probe (u : List Char) : Spares u (afterWordStart (u ++ (probe ++ t))).2 := by
  have hname := runLength_append_of_calm foreign_isWordChar u (calm_probe_append t)
  have hle := runLength_le isWordChar u
  simp only [afterWordStart, hname]
  rcases drop_append_cases hle with ⟨hlt, x, rest, hdrop, hall⟩ | ⟨heq, hall⟩
  · have hrest : u.length = runLength isWordChar u + 1 + rest.length := by
      have := congrArg List.length hdrop
      simp only [List.length_drop, List.length_cons] at this
      omega
    rw [hall]
    split
    · exact .inl hlt
    · next heq =>
      obtain ⟨-, rfl⟩ := List.cons.inj heq
      exact (argumentsLength_probe t false rest).of_rest hrest
    · exact .inl hle
  · rw [hall]
    exact .inl hle

theorem attributeBody_probe (u : List Char) : Spares u (attributeBody (u ++ (probe ++ t))).2 := by
  simp only [attributeBody]
  rcases runLength_probe t (p := fun c => c != ']' && c != '\n') (by decide) (by decide) u
    with h | h
  · split
    · exact .inl h
    · exact .inl (Nat.le_of_lt h)
  · split
    · exact .inr (Nat.le_succ_of_le h)
    · exact .inr h

theorem inclusion_probe (u : List Char) :
    Spares u (inclusion (u ++ (probe ++ t))).2 ∨ ∀ x ∈ u, isGap x = true := by
  rcases runLength_append isGap u (probe ++ t) with ⟨hlt, -⟩ | hall
  · left
    simp only [inclusion]
    rcases drop_append_cases (Nat.le_of_lt hlt) with ⟨-, quote, rest, hdrop, hall⟩ | ⟨heq, -⟩
    · have hrest : u.length = runLength isGap (u ++ (probe ++ t)) + 1 + rest.length := by
        have := congrArg List.length hdrop
        simp only [List.length_drop, List.length_cons] at this
        omega
      rw [hall]
      simp only
      split
      · next hquote =>
        have hopen : (' ' != quote && ' ' != '\n') = true
            ∧ ('/' != quote && '/' != '\n') = true := by
          rw [Bool.or_eq_true, beq_iff_eq, beq_iff_eq] at hquote
          rcases hquote with rfl | rfl <;> decide
        rcases runLength_probe t (p := fun c => c != quote && c != '\n') hopen.1 hopen.2 rest
          with h | h
        · split <;> exact .inl (by simp only; omega)
        · split <;> exact .inr (by simp only; omega)
      · exact .inl (Nat.le_of_lt hlt)
    · omega
  · right
    have hself := hall []
    rw [List.append_nil] at hself
    exact forall_of_runLength hself

theorem DefinitionKind.span_probe (kind : DefinitionKind) (u : List Char) :
    Spares u (kind.span (u ++ (probe ++ t))).2 := by
  have hwhole : Spares u (u ++ (probe ++ t)).length := .inr (length_append_probe_append t u)
  have hline : Spares u (runLength (· != '\n') (u ++ (probe ++ t))) :=
    (runLength_probe t (by decide) (by decide) u).imp Nat.le_of_lt id
  cases kind with
  | body =>
    rw [span]
    split
    · next hm => exact through?_probe t (by decide) hm
    · exact hwhole
  | interface kind => exact hline
  | constant => exact hline
  | table =>
    rw [span]
    split
    · next m hm =>
      rcases through?_probe t (by decide) hm with hmu | hmu
      · split
        · next m' hm' =>
          rw [List.drop_append_of_le_length hmu] at hm'
          exact (through?_probe t (by decide) hm').of_rest (by rw [List.length_drop]; omega)
        · exact hwhole
      · split
        · exact .inr (Nat.le_add_right_of_le hmu)
        · exact hwhole
    · exact hwhole

theorem definition_probe (u : List Char) : Spares u (definition (u ++ (probe ++ t))).2 := by
  rw [definition_eq]
  cases definitionKind? (u ++ (probe ++ t)) with
  | none => exact .inl (Nat.zero_le _)
  | some kind => exact kind.span_probe t u

/-- A directive with nothing but gaps after its keyword. -/
def IsBareDirective (u : List Char) : Prop :=
  ∃ keyword gaps, (keyword = "include" ∨ keyword = "define") ∧ u = keyword.toList ++ gaps
    ∧ ∀ x ∈ gaps, isGap x = true

theorem eq_append_of_startsWith {keyword : String} {u : List Char}
    (h : startsWith keyword u = true) :
    u = keyword.toList ++ u.drop keyword.length := by
  obtain ⟨rest, rfl⟩ := List.isPrefixOf_iff_prefix.1 h
  rw [← String.length_toList, List.drop_left]

theorem afterHash_probe (u : List Char) :
    Spares u (afterHash (u ++ (probe ++ t))).2 ∨ IsBareDirective u := by
  have hcalm := calm_probe_append t
  unfold afterHash
  rw [startsWith_append hcalm (by decide), startsWith_append hcalm (by decide)]
  split
  · next hattribute =>
    have hlen : 1 ≤ u.length := (List.isPrefixOf_iff_prefix.1 hattribute).length_le
    rw [List.drop_append_of_le_length hlen]
    left
    show Spares u ((attributeBody (u.drop 1 ++ (probe ++ t))).2 + 1)
    rw [Nat.add_comm]
    exact (attributeBody_probe t (u.drop 1)).of_rest (by rw [List.length_drop]; omega)
  split
  · next hinclude =>
    have hlen : 7 ≤ u.length := (List.isPrefixOf_iff_prefix.1 hinclude).length_le
    rw [List.drop_append_of_le_length hlen]
    rcases inclusion_probe t (u.drop 7) with h | hgaps
    · left
      show Spares u ((inclusion (u.drop 7 ++ (probe ++ t))).2 + 7)
      rw [Nat.add_comm]
      exact h.of_rest (by rw [List.length_drop]; omega)
    · exact .inr ⟨"include", u.drop 7, .inl rfl, eq_append_of_startsWith hinclude, hgaps⟩
  split
  · next hdefine =>
    rw [startsWithWord, startsWith_append hcalm (by decide), Bool.and_eq_true] at hdefine
    have hlen : 6 ≤ u.length := (List.isPrefixOf_iff_prefix.1 hdefine.1).length_le
    rw [List.drop_append_of_le_length hlen]
    rcases runLength_append isGap (u.drop 6) (probe ++ t) with ⟨hlt, -⟩ | hall
    · left
      rw [List.length_drop] at hlt
      show Spares u ((definition ((u ++ (probe ++ t)).drop
        (6 + runLength isGap (u.drop 6 ++ (probe ++ t))))).2
          + runLength isGap (u.drop 6 ++ (probe ++ t)) + 6)
      rw [List.drop_append_of_le_length (by omega), Nat.add_assoc, Nat.add_comm]
      exact (definition_probe t _).of_rest (by rw [List.length_drop]; omega)
    · -- The gap after the keyword takes up all of the text and the space of the probe.
      have hself := hall []
      rw [List.append_nil] at hself
      exact .inr ⟨"define", u.drop 6, .inr rfl, eq_append_of_startsWith hdefine.1,
        forall_of_runLength hself⟩
  · exact .inl (.inl (Nat.zero_le _))

/-- A span of a text that takes up the space of the probe and leaves its slashes. -/
def Absorbs (c : Char) (u : List Char) : Prop :=
  (∀ x ∈ c :: u, isLayout x = true) ∨ c = '#' ∧ IsBareDirective u

theorem after_probe (c : Char) (u : List Char) :
    Spares u (after c (u ++ (probe ++ t))).2 ∨ Absorbs c u := by
  have hcalm := calm_probe_append t
  have hreads := reads c
  generalize after c = read at hreads ⊢
  cases hreads with
  | layout hc =>
    rcases runLength_append isLayout u (probe ++ t) with ⟨hlt, -⟩ | hall
    · exact .inl (.inl (Nat.le_of_lt hlt))
    · have hself := hall []
      rw [List.append_nil] at hself
      refine .inr (.inl fun x hx => ?_)
      rcases List.mem_cons.1 hx with rfl | hx
      · exact hc
      · exact forall_of_runLength hself x hx
  | blockStart hc => exact .inl (.inl (Nat.zero_le _))
  | blockEnd hc => exact .inl (.inl (Nat.zero_le _))
  | slash hc => exact .inl (afterSlash_probe t u)
  | digit hc =>
    rw [afterDigit_append c u hcalm]
    exact .inl (.inl (afterDigit_le c u))
  | square hc =>
    rw [afterBracket_append (by decide) (by decide) u hcalm]
    exact .inl (.inl (afterBracket_le _ _ u))
  | angle hc =>
    rw [afterBracket_append (by decide) (by decide) u hcalm]
    exact .inl (.inl (afterBracket_le _ _ u))
  | word hc => exact .inl (afterWordStart_probe t u)
  | hash hc => exact (afterHash_probe t u).imp id fun h => .inr ⟨hc, h⟩
  | unknown => exact .inl (.inl (Nat.zero_le _))

end Probe

end HuffTrace.Span
