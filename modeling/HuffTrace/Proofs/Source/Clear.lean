/-
  HuffTrace.Proofs.Source.Clear

  Where a line comment can be put.  A text is clear if a space and a double
  slash after it are cut into layout and a line comment: no lexeme, attribute
  or block comment of the text is left open to swallow them.

  After a clear text the cutter starts afresh (`notable_append`): what it finds
  in a trailing text is what it finds in that text alone.  And a text is clear
  as soon as any comment put after it is found (`clear_of_mem_numbered`).
-/

import HuffTrace.Proofs.Source.Cut
import HuffTrace.Proofs.Source.Probe

namespace HuffTrace.Span

/-! ## Bare directives -/

/-- A continuation that is calm once the gap that it starts with is left out. -/
def Trailing (r : List Char) : Prop :=
  ∃ gaps rest, r = gaps ++ rest ∧ (∀ x ∈ gaps, isGap x = true) ∧ Calm rest
    ∧ rest.head?.any isGap = false

theorem isBlank_of_isGap {x : Char} (h : isGap x = true) : Text.isBlank x = true := by
  simp only [isGap, Bool.or_eq_true, beq_iff_eq] at h
  rcases h with rfl | rfl <;> decide

theorem isLayout_of_isGap {x : Char} (h : isGap x = true) : isLayout x = true := by
  simp only [isGap, Bool.or_eq_true, beq_iff_eq] at h
  rcases h with rfl | rfl <;> decide

theorem calm_append_of_isGap {gaps rest : List Char} (hgaps : ∀ x ∈ gaps, isGap x = true)
    (hrest : Calm rest) : Calm (gaps ++ rest) := by
  cases gaps with
  | nil => exact hrest
  | cons x gaps => exact calm_cons (.inl (isBlank_of_isGap (hgaps x (by simp))))

theorem Trailing.calm {r : List Char} (hr : Trailing r) : Calm r := by
  obtain ⟨gaps, rest, rfl, hgaps, hrest, -⟩ := hr
  exact calm_append_of_isGap hgaps hrest

/-- Blanks before a calm text without a gap make a trailing text. -/
theorem trailing_of_isBlank {ws t : List Char} (hws : ∀ x ∈ ws, Text.isBlank x = true)
    (ht : Calm t) (hhead : t.head?.any isGap = false) : Trailing (ws ++ t) := by
  induction ws with
  | nil => exact ⟨[], t, rfl, by simp, ht, hhead⟩
  | cons x ws ih =>
    by_cases hx : isGap x = true
    · obtain ⟨gaps, rest, heq, hgaps, hrest⟩ := ih fun y hy => hws y (by simp [hy])
      refine ⟨x :: gaps, rest, by rw [List.cons_append, heq, List.cons_append], ?_, hrest⟩
      intro y hy
      rcases List.mem_cons.1 hy with rfl | hy
      · exact hx
      · exact hgaps y hy
    · exact ⟨[], x :: ws ++ t, rfl, by simp, calm_cons (.inl (hws x (by simp))), by simpa using hx⟩

theorem after_hash (cs : List Char) : after '#' cs = afterHash cs := rfl

/-- A directive without an argument is not recognised, and its gap is part of it. -/
theorem afterHash_of_bare {keyword : String} (hk : keyword = "include" ∨ keyword = "define")
    {gaps r : List Char} (hgaps : ∀ x ∈ gaps, isGap x = true) (hr : Calm r)
    (hhead : r.head?.any isGap = false) (hne : keyword = "define" → gaps ≠ []) :
    afterHash (keyword.toList ++ (gaps ++ r))
      = (.unrecognized, (keyword.toList ++ gaps).length) := by
  have hrun : runLength isGap (gaps ++ r) = gaps.length := by
    have htake : r.takeWhile isGap = [] := by
      cases r with
      | nil => rfl
      | cons x t =>
        have hx : ¬ isGap x = true := by simpa using hhead
        exact List.takeWhile_cons_of_neg hx
    rw [runLength, List.takeWhile_append_of_pos hgaps, htake, List.append_nil]
  have hcalm : Calm (gaps ++ r) := calm_append_of_isGap hgaps hr
  rcases hk with rfl | rfl
  · have hattribute : startsWith "[" ("include".toList ++ (gaps ++ r)) = false := rfl
    have hinclude : startsWith "include" ("include".toList ++ (gaps ++ r)) = true :=
      List.isPrefixOf_iff_prefix.2 (List.prefix_append _ _)
    -- A path starts with a quote, and a calm rest does not.
    have hargument : inclusion (gaps ++ r) = (.unrecognized, gaps.length) := by
      simp only [inclusion, hrun, List.drop_left]
      cases r with
      | nil => rfl
      | cons x t =>
        have hquote : (x == '"' || x == '\'') = false := by
          rw [Bool.or_eq_false_iff, beq_eq_false_iff_ne, beq_eq_false_iff_ne]
          constructor
          · rintro rfl
            exact hr.head?_ne (by decide) (by decide) rfl
          · rintro rfl
            exact hr.head?_ne (by decide) (by decide) rfl
        simp [hquote]
    simp only [afterHash, hattribute, hinclude]
    show (fun answer : SpanKind × Nat => (answer.1, answer.2 + 7)) (inclusion (gaps ++ r)) = _
    rw [hargument]
    simp
  · cases gaps with
    | nil => exact absurd rfl (hne rfl)
    | cons x gaps =>
      have hx : (((x :: gaps) ++ r).head?.map isGap).getD false = true := hgaps x (by simp)
      rw [afterHash_define hcalm, if_pos hx, hrun, List.drop_left, definition_of_calm hr]
      simp

theorem newline_not_mem_of_isGap {gaps : List Char} (hgaps : ∀ x ∈ gaps, isGap x = true) :
    '\n' ∉ gaps := by
  intro hmem
  exact absurd (hgaps _ hmem) (by decide)

/-- A bare directive shows no span of its own, nor does its gap. -/
theorem notable_of_bare {keyword : String} (hk : keyword = "include" ∨ keyword = "define")
    {gaps r : List Char} (hgaps : ∀ x ∈ gaps, isGap x = true) (hr : Trailing r)
    (hne : keyword = "define" → gaps ≠ [] ∨ r.head?.any isGap = true) (line : Nat) :
    notable line ('#' :: (keyword.toList ++ gaps ++ r)) = notable line r := by
  -- The gap that `r` starts with belongs to the directive.
  obtain ⟨more, rest, rfl, hmore, hrest, hhead⟩ := hr
  have hall : ∀ x ∈ gaps ++ more, isGap x = true := by
    intro x hx
    rcases List.mem_append.1 hx with hx | hx
    · exact hgaps x hx
    · exact hmore x hx
  have hne' : keyword = "define" → gaps ++ more ≠ [] := by
    intro hdefine hnil
    obtain ⟨rfl, rfl⟩ := List.append_eq_nil_iff.1 hnil
    rcases hne hdefine with h | h
    · exact h rfl
    · rw [List.nil_append, hhead] at h
      cases h
  have hbare : after '#' (keyword.toList ++ (gaps ++ more ++ rest))
      = (.unrecognized, (keyword.toList ++ (gaps ++ more)).length) := by
    rw [after_hash, afterHash_of_bare hk hall hrest hhead hne']
  have htext : keyword.toList ++ gaps ++ (more ++ rest)
      = keyword.toList ++ (gaps ++ more) ++ rest := by
    simp only [List.append_assoc]
  have hline : breaks ('#' :: (keyword.toList ++ (gaps ++ more))) = 0 := by
    apply breaks_eq_zero
    have hmem := newline_not_mem_of_isGap hall
    rcases hk with rfl | rfl <;> simpa using hmem
  rw [← List.append_assoc keyword.toList] at hbare
  rw [htext, notable_cons_of_not hbare rfl, List.take_left, List.drop_left, hline,
    notable_layout_append fun x hx => isLayout_of_isGap (hmore x hx),
    breaks_eq_zero (newline_not_mem_of_isGap hmore)]

/-! ## Clear texts -/

/-- A text after which a line comment can be put. -/
def Clear (P : List Char) : Prop :=
  (cut (P ++ probe)).getLast? = some ⟨.skipped, ['/', '/']⟩

instance (P : List Char) : Decidable (Clear P) :=
  inferInstanceAs (Decidable (_ = _))

theorem append_probe_ne_nil (P : List Char) : P ++ probe ≠ [] := by
  simp [probe]

/-- Whether a text is clear depends only on what its first span leaves of it. -/
theorem clear_cons {c : Char} {u : List Char} {k : SpanKind} {n : Nat}
    (h : after c (u ++ probe) = (k, n)) (hn : n ≤ u.length) :
    Clear (c :: u) ↔ Clear (u.drop n) := by
  rw [Clear, List.cons_append, cut_cons h, List.drop_append_of_le_length hn,
    List.getLast?_cons_of_ne_nil (cut_ne_nil (append_probe_ne_nil _))]
  rfl

/-- The first span of a clear text either ends within it and leaves a clear text, or takes up
    the space of the probe. -/
theorem Clear.cases {c : Char} {u : List Char} (h : Clear (c :: u)) :
    (∃ k n, after c (u ++ probe) = (k, n) ∧ n ≤ u.length ∧ Clear (u.drop n)) ∨ Absorbs c u := by
  obtain ⟨k, n, hafter⟩ : ∃ k n, after c (u ++ probe) = (k, n) := ⟨_, _, rfl⟩
  have hprobe := after_probe [] c u
  rw [List.append_nil, hafter] at hprobe
  rcases hprobe with (hn | hn) | habsorbs
  · exact .inl ⟨k, n, hafter, hn, (clear_cons hafter hn).1 h⟩
  · -- The probe is swallowed whole, so that the last span is longer than a double slash.
    exfalso
    have hwhole : (u ++ probe).length ≤ n := by simpa [probe] using hn
    rw [Clear, List.cons_append, cut_cons hafter, List.drop_eq_nil_of_le hwhole,
      List.take_of_length_le hwhole, cut, List.getLast?_singleton] at h
    have hlen := congrArg (fun s => s.text.length) (Option.some.inj h)
    simp [probe] at hlen
  · exact .inr habsorbs

/-- The space that a continuation starts with, if it starts with a gap. -/
def lead (r : List Char) : List Char :=
  if r.head?.any isGap then [' '] else []

theorem trailing_lead (r : List Char) : Trailing (lead r) := by
  unfold lead
  split
  · exact ⟨[' '], [], rfl, by simp [isGap], calm_nil, rfl⟩
  · exact ⟨[], [], rfl, by simp, calm_nil, rfl⟩

theorem head?_lead_ne (r : List Char) : (lead r).head? ≠ some '/' := by
  unfold lead
  split <;> simp

theorem notable_lead (r : List Char) (line : Nat) : notable line (lead r) = [] := by
  unfold lead
  split
  · rw [notable_layout (by decide)]
    simp
  · simp

theorem head?_lead (r : List Char) : (lead r).head?.any isGap = r.head?.any isGap := by
  unfold lead
  split
  · next h => simp [h, isGap]
  · next h => simpa using h

/-- Without a gap the keyword of a definition is a name. -/
theorem notable_define {v : List Char} (hv : Calm v) (hhead : v.head?.any isGap = false)
    (line : Nat) :
    notable line ('#' :: ("define".toList ++ v))
      = ⟨line, ⟨.lexeme .identifier, "define".toList⟩⟩ :: notable line v := by
  have hgap : ¬ (v.head?.map isGap).getD false = true := by
    cases v with
    | nil => simp
    | cons x t => simpa using hhead
  have hhash : after '#' ("define".toList ++ v) = (.unrecognized, 0) := by
    rw [after_hash, afterHash_define hv, if_neg hgap]
  have hname : after 'd' ("efine".toList ++ v) = (.lexeme .identifier, 5) :=
    after_append (w := []) (by decide) (by decide) (.inr ⟨by decide, fun _ => ⟨rfl, nofun⟩⟩)
      calm_nil hv (fun h => absurd h (by decide))
  rw [notable_cons_of_not hhash rfl]
  exact notable_cons hname line

theorem notable_append_of_bare {keyword : String} (hk : keyword = "include" ∨ keyword = "define")
    {gaps r : List Char} (hgaps : ∀ x ∈ gaps, isGap x = true) (hr : Trailing r) (line : Nat) :
    notable line ('#' :: (keyword.toList ++ gaps ++ r))
      = notable line ('#' :: (keyword.toList ++ gaps ++ lead r)) ++ notable line r := by
  -- Only a `#define` without any gap leaves a token behind, the name `define`.
  by_cases hne : keyword = "define" → gaps ≠ [] ∨ r.head?.any isGap = true
  · rw [notable_of_bare hk hgaps hr hne,
      notable_of_bare hk hgaps (trailing_lead r) (by rwa [head?_lead]), notable_lead,
      List.nil_append]
  · obtain ⟨rfl, hne⟩ := Classical.not_imp.1 hne
    obtain ⟨rfl, hhead⟩ : gaps = [] ∧ r.head?.any isGap = false := by simpa using hne
    rw [List.append_nil, notable_define hr.calm hhead,
      notable_define (trailing_lead r).calm (by rw [head?_lead, hhead]), notable_lead]
    rfl

/-- After a clear text the cutter starts afresh. -/
theorem notable_append {P r : List Char} (hP : Clear P) (hr : Trailing r)
    (hslash : P.getLast? = some '/' → r.head? ≠ some '/') (line : Nat) :
    notable line (P ++ r) = notable line (P ++ lead r) ++ notable (line + breaks P) r := by
  induction hlen : P.length using Nat.strongRecOn generalizing P line with
  | _ len ih =>
  cases P with
  | nil => simp [notable_lead]
  | cons c u =>
    rcases hP.cases with ⟨k, n, hafter, hn, hclear⟩ | hlayout | ⟨rfl, keyword, gaps, hk, rfl, hgaps⟩
    · have hfirst : ∀ v, Calm v → (c = '/' → u = [] → v.head? ≠ some '/') →
          after c (u ++ v) = (k, n) := fun v hv hv' =>
        after_append hafter hn (.inl rfl) calm_probe hv hv'
      have hcont := hfirst r hr.calm fun hc hu => hslash (by rw [hc, hu]; rfl)
      have hbare := hfirst (lead r) (trailing_lead r).calm fun _ _ => head?_lead_ne r
      -- What the first span leaves ends as the text does.
      have hslash' : (u.drop n).getLast? = some '/' → r.head? ≠ some '/' := by
        intro hlast
        refine hslash ?_
        rw [List.getLast?_drop] at hlast
        split at hlast
        · cases hlast
        · rw [List.getLast?_cons, hlast]
          rfl
      have hbreaks : breaks (c :: u.take n) + breaks (u.drop n) = breaks (c :: u) := by
        rw [← breaks_append, List.cons_append, List.take_append_drop]
      rw [List.cons_append, List.cons_append, notable_cons hcont, notable_cons hbare,
        List.take_append_of_le_length hn, List.take_append_of_le_length hn,
        List.drop_append_of_le_length hn, List.drop_append_of_le_length hn,
        ih _ (by rw [List.length_drop, ← hlen, List.length_cons]; omega) hclear hslash' _ rfl,
        List.append_assoc, Nat.add_assoc, hbreaks]
    -- Layout runs on into the continuation, with no span of its own in between.
    · rw [notable_layout_append hlayout, notable_layout_append hlayout, notable_lead,
        List.nil_append]
    · have hline : breaks ('#' :: (keyword.toList ++ gaps)) = 0 := by
        apply breaks_eq_zero
        have hmem := newline_not_mem_of_isGap hgaps
        rcases hk with rfl | rfl <;> simpa using hmem
      rw [hline]
      exact notable_append_of_bare hk hgaps hr line

/-! ## Comments that are found -/

theorem clear_of_rest {c : Char} {u : List Char} {k : SpanKind}
    (h : after c (u ++ probe) = (k, u.length + 1)) : Clear (c :: u) := by
  have hdrop : (u ++ probe).drop (u.length + 1) = ['/', '/'] := by
    rw [← List.drop_drop, List.drop_left]
    rfl
  have hlast : cut ['/', '/'] = [⟨.skipped, ['/', '/']⟩] := by
    rw [cut_comment]
    simp [cut]
  rw [Clear, List.cons_append, cut_cons h, hdrop, hlast]
  rfl

theorem Absorbs.clear {c : Char} {u : List Char} (h : Absorbs c u) : Clear (c :: u) := by
  rcases h with hlayout | ⟨rfl, keyword, gaps, hk, rfl, hgaps⟩
  · have hrun : runLength isLayout (u ++ probe) = u.length + 1 := by
      rw [runLength, List.takeWhile_append_of_pos fun x hx => hlayout x (by simp [hx])]
      simp [probe, isLayout]
    refine clear_of_rest (k := .skipped) ?_
    rw [after, if_pos (hlayout c (by simp)), hrun]
  · have hall : ∀ x ∈ gaps ++ [' '], isGap x = true := by
      intro x hx
      rcases List.mem_append.1 hx with hx | hx
      · exact hgaps x hx
      · rw [List.mem_singleton.1 hx]
        rfl
    have hbare := afterHash_of_bare hk (r := ['/', '/']) hall (calm_cons (.inr rfl)) rfl (by simp)
    refine clear_of_rest (k := .unrecognized) ?_
    rw [after_hash]
    simpa [probe, Nat.add_assoc] using hbare

theorem clear_nil : Clear [] := by
  rw [Clear, probe, List.nil_append, cut_cons (k := .skipped) (n := 0) rfl, List.drop_zero,
    cut_comment]
  simp [cut]

/-- Layout and bare directives are so without the space after them. -/
theorem Absorbs.of_append_space {c : Char} {u : List Char} (h : Absorbs c (u ++ [' '])) :
    Absorbs c u := by
  rcases h with hlayout | ⟨rfl, keyword, gaps, hk, heq, hgaps⟩
  · refine .inl fun x hx => hlayout x ?_
    rw [← List.cons_append]
    exact List.mem_append_left _ hx
  · right
    refine ⟨rfl, ?_⟩
    rcases List.eq_nil_or_concat gaps with rfl | ⟨gaps, x, rfl⟩
    · exfalso
      have hlast := congrArg List.getLast? heq
      rcases hk with rfl | rfl <;> simp at hlast
    · rw [List.concat_eq_append, ← List.append_assoc] at heq
      exact ⟨keyword, gaps, hk, (List.append_inj' heq rfl).1, fun y hy => hgaps y (by simp [hy])⟩

/-- Spaces at the end of a clear text make no difference. -/
theorem clear_of_append_space {P : List Char} (h : Clear (P ++ [' '])) : Clear P := by
  induction hlen : P.length using Nat.strongRecOn generalizing P with
  | _ len ih =>
  cases P with
  | nil => exact clear_nil
  | cons c u =>
    rw [List.cons_append] at h
    rcases h.cases with ⟨k, n, hafter, hn, hclear⟩ | habsorbs
    · rw [List.length_append, List.length_singleton] at hn
      rcases Nat.lt_or_eq_of_le hn with hlt | rfl
      · have hle : n ≤ u.length := Nat.le_of_lt_succ hlt
        rw [List.append_assoc] at hafter
        have hprobe : after c (u ++ probe) = (k, n) :=
          after_append hafter hle (.inl rfl) (calm_cons (.inl (by decide))) calm_probe
            (fun _ _ => by simp [probe])
        rw [List.drop_append_of_le_length hle] at hclear
        refine (clear_cons hprobe hle).2 (ih _ ?_ hclear rfl)
        rw [← hlen, List.length_drop, List.length_cons]
        omega
      · -- The span ends with the space, which another double slash may follow as well.
        have hslashes : after c (u ++ [' '] ++ ['/', '/']) = (k, u.length + 1) :=
          after_append hafter (by simp) (.inl rfl) calm_probe (calm_cons (.inr rfl))
            (fun _ hnil => by simp at hnil)
        rw [List.append_assoc] at hslashes
        exact clear_of_rest hslashes
    · exact habsorbs.of_append_space.clear

theorem clear_of_append_spaces {P : List Char} {m : Nat} (h : Clear (P ++ List.replicate m ' ')) :
    Clear P := by
  induction m with
  | zero => simpa using h
  | succ m ih =>
    rw [List.replicate_succ', ← List.append_assoc] at h
    exact ih (clear_of_append_space h)

/-- A text is clear if the cutter starts afresh after a space behind it. -/
theorem clear_of_boundary {P t : List Char} {a : List Span}
    (h : cut (P ++ (probe ++ t)) = a ++ cut ('/' :: '/' :: t)) (ha : texts a = P ++ [' ']) :
    Clear P := by
  induction hlen : P.length using Nat.strongRecOn generalizing P a with
  | _ len ih =>
  cases P with
  | nil => exact clear_nil
  | cons c u =>
    obtain ⟨k, n, hafter⟩ : ∃ k n, after c (u ++ (probe ++ t)) = (k, n) := ⟨_, _, rfl⟩
    have hprobe := after_probe t c u
    rw [hafter] at hprobe
    rw [List.cons_append, cut_cons hafter] at h
    cases a with
    | nil => simp at ha
    | cons s a =>
      obtain ⟨rfl, hrest⟩ := List.cons.inj (h.trans (List.cons_append ..))
      rw [texts_cons, List.cons_append, List.cons_append] at ha
      replace ha := (List.cons.inj ha).2
      -- The first span does not go past the spans of the text and the space.
      have hend : n ≤ u.length + 1 := by
        have hlen := congrArg List.length ha
        have hlong := length_append_probe_append t u
        simp only [List.length_append, List.length_take, List.length_singleton] at hlen hlong
        omega
      rcases hprobe with (hn | hn) | habsorbs
      · have hcont : after c (u ++ probe) = (k, n) :=
          after_append hafter hn (.inl rfl) (calm_probe_append t) calm_probe
            (fun _ _ => by simp [probe])
        rw [List.drop_append_of_le_length hn] at hrest
        rw [List.take_append_of_le_length hn] at ha
        have hsplit : u.take n ++ texts a = u.take n ++ (u.drop n ++ [' ']) := by
          rw [ha, ← List.append_assoc, List.take_append_drop]
        refine (clear_cons hcont hn).2 (ih _ ?_ hrest (List.append_cancel_left hsplit) rfl)
        rw [← hlen, List.length_drop, List.length_cons]
        omega
      · simp only at hn
        omega
      · exact habsorbs.clear

/-- A text is clear if a comment put after it is found on its last line. -/
theorem clear_of_mem_numbered {P body rest : List Char} {line m : Nat} (hrest : EndsLine rest)
    (h : ⟨line + breaks P, ⟨.skipped, '/' :: '/' :: body⟩⟩ ∈ numbered line
      (cut (P ++ (List.replicate (m + 1) ' ' ++ ('/' :: '/' :: body ++ rest))))) :
    Clear P := by
  obtain ⟨a, b, hcut, hline⟩ := mem_numbered.1 h
  simp only at hcut hline
  have htext := texts_cut (P ++ (List.replicate (m + 1) ' ' ++ ('/' :: '/' :: body ++ rest)))
  rw [hcut, texts_append, texts_cons] at htext
  have htail : cut ('/' :: '/' :: (body ++ texts b)) = ⟨.skipped, '/' :: '/' :: body⟩ :: b :=
    cut_texts hcut
  -- The comment that is found ends a line, as the one that was put there does.
  have hends : EndsLine (texts b) := endsLine_of_comment hcut
  have hspaces : breaks (List.replicate (m + 1) ' ') = 0 := breaks_eq_zero (by simp)
  have hbefore : texts a ++ '/' :: '/' :: body
      = P ++ List.replicate (m + 1) ' ' ++ '/' :: '/' :: body := by
    refine append_cancel_of_endsLine ?_ hends hrest ?_
    · simpa using htext
    · simp only [breaks_append, hspaces]
      omega
  have ha : texts a = P ++ List.replicate (m + 1) ' ' := List.append_cancel_right hbefore
  have hafter : texts b = rest := by
    rw [ha] at htext
    simpa using htext
  rw [hafter] at htail
  refine clear_of_append_spaces (m := m) (clear_of_boundary (t := body ++ rest) (a := a) ?_ ?_)
  · rw [htail, ← hcut, List.replicate_succ']
    simp [probe]
  · rw [ha, List.replicate_succ', List.append_assoc]

end HuffTrace.Span
