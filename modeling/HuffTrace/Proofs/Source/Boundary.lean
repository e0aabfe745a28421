/-
  HuffTrace.Proofs.Source.Boundary

  Places of a text between two of its spans.  If all spans before such a place
  are recognised and the last of them closes, what follows may be replaced by
  any calm text without changing them (`cut_append_of_closes`).
-/

import HuffTrace.Proofs.Source.Scan

namespace HuffTrace.Span

/-! ## Spans at positions -/

theorem text_ne_nil_of_mem_cut {cs : List Char} {s : Span} (h : s ∈ cut cs) : s.text ≠ [] := by
  obtain ⟨c, tail, n, -, htext⟩ := exists_after_of_mem_cut h
  rw [htext]
  simp

/-- Every position of a text lies in one of its spans. -/
theorem exists_span_at (cs : List Char) {i : Nat} (h : i < cs.length) :
    ∃ a s b, cut cs = a ++ s :: b ∧ (texts a).length ≤ i
      ∧ i < (texts a).length + s.text.length := by
  have hspans : ∀ spans : List Span, i < (texts spans).length →
      ∃ a s b, spans = a ++ s :: b ∧ (texts a).length ≤ i
        ∧ i < (texts a).length + s.text.length := by
    intro spans
    induction spans generalizing i with
    | nil => simp
    | cons s spans ih =>
      intro hi
      by_cases hfirst : i < s.text.length
      · exact ⟨[], s, spans, rfl, Nat.zero_le _, by simpa using hfirst⟩
      -- Past the first span the position is counted from its end.
      · rw [texts_cons, List.length_append] at hi
        obtain ⟨a, t, b, rfl, hle, hlt⟩ := ih (i := i - s.text.length) (by omega) (by omega)
        refine ⟨s :: a, t, b, rfl, ?_, ?_⟩
        · rw [texts_cons, List.length_append]
          omega
        · rw [texts_cons, List.length_append]
          omega
  exact hspans (cut cs) (by rwa [texts_cut])

/-- A span that starts after a position follows every span that the position lies in. -/
theorem eq_nil_of_append {a v b b' : List Span} {s s' : Span} {i : Nat}
    (h : s :: b = v ++ s' :: b') (hlt : i < (texts a).length + s.text.length)
    (hle : (texts (a ++ v)).length ≤ i) : v = [] := by
  cases v with
  | nil => rfl
  | cons x v =>
    obtain ⟨rfl, -⟩ := List.cons.inj h
    rw [texts_append, texts_cons, List.length_append, List.length_append] at hle
    omega

/-- Two spans with a position in common are the same. -/
theorem span_at_unique {a a' b b' : List Span} {s s' : Span} {i : Nat}
    (h : a ++ s :: b = a' ++ s' :: b') (hle : (texts a).length ≤ i)
    (hlt : i < (texts a).length + s.text.length) (hle' : (texts a').length ≤ i)
    (hlt' : i < (texts a').length + s'.text.length) : a = a' ∧ s = s' := by
  rcases List.append_eq_append_iff.1 h with ⟨v, ha', hv⟩ | ⟨v, ha, hv⟩
  · obtain rfl := eq_nil_of_append hv hlt (ha' ▸ hle')
    rw [List.append_nil] at ha'
    exact ⟨ha'.symm, (List.cons.inj hv).1⟩
  · obtain rfl := eq_nil_of_append hv hlt' (ha ▸ hle)
    rw [List.append_nil] at ha
    exact ⟨ha, (List.cons.inj hv).1.symm⟩

/-- A span with a position past the end of another one comes after it. -/
theorem exists_of_span_later {a a' b b' : List Span} {s s' : Span} {i : Nat}
    (h : a ++ s :: b = a' ++ s' :: b') (hle : (texts a).length + s.text.length ≤ i)
    (hlt : i < (texts a').length + s'.text.length) : ∃ v, a' = a ++ s :: v ∧ b = v ++ s' :: b' := by
  rcases List.append_eq_append_iff.1 h with ⟨v, ha', hv⟩ | ⟨v, ha, hv⟩
  · cases v with
    | nil =>
      obtain ⟨rfl, -⟩ := List.cons.inj hv
      rw [List.append_nil] at ha'
      rw [ha'] at hlt
      omega
    | cons x v =>
      obtain ⟨rfl, hb⟩ := List.cons.inj hv
      exact ⟨v, ha', hb⟩
  · exfalso
    have hlen : (texts a').length + s'.text.length ≤ (texts a).length + s.text.length := by
      cases v with
      | nil =>
        obtain ⟨rfl, -⟩ := List.cons.inj hv
        rw [List.append_nil] at ha
        rw [ha]
      | cons x v =>
        obtain ⟨rfl, -⟩ := List.cons.inj hv
        rw [ha, texts_append, texts_cons, List.length_append, List.length_append]
        omega
    omega

/-! ## Replacing what follows -/

/-- The last of some spans comes to an end of its own. -/
def LastCloses (spans : List Span) : Prop :=
  ∀ a s c u, spans = a ++ [s] → s.text = c :: u → Closes c s.kind

theorem LastCloses.tail {s : Span} {spans : List Span} (h : LastCloses (s :: spans)) :
    LastCloses spans := by
  intro a t c u hspans htext
  exact h (s :: a) t c u (by rw [hspans, List.cons_append]) htext

theorem texts_eq_nil {spans : List Span} (hne : ∀ s ∈ spans, s.text ≠ []) (h : texts spans = []) :
    spans = [] := by
  cases spans with
  | nil => rfl
  | cons s spans =>
    rw [texts_cons, List.append_eq_nil_iff] at h
    exact absurd h.1 (hne s (by simp))

/-- A slash on its own is not recognised. -/
theorem unrecognized_of_after_slash {v : List Char} {k : SpanKind} (h : after '/' v = (k, 0)) :
    k = .unrecognized := by
  have hslash : afterSlash v = (k, 0) := h
  unfold afterSlash at hslash
  split at hslash
  · cases hslash
  · cases hslash
  · exact (Prod.mk.inj hslash).1.symm

/-- Recognised spans of which the last one closes are there whatever calm text follows. -/
theorem cut_append_of_closes {spans : List Span} {w r : List Char}
    (h : cut (texts spans ++ w) = spans ++ cut w) (hknown : ∀ s ∈ spans, s.kind ≠ .unrecognized)
    (hlast : LastCloses spans) (hw : Calm w) (hr : Calm r) :
    cut (texts spans ++ r) = spans ++ cut r := by
  induction spans with
  | nil => rfl
  | cons s spans ih =>
    obtain ⟨k, text⟩ := s
    have hne : ∀ t ∈ ⟨k, text⟩ :: spans, t.text ≠ [] := by
      intro t ht
      have hmem : t ∈ cut (texts (⟨k, text⟩ :: spans) ++ w) := by
        rw [h]
        exact List.mem_append_left _ ht
      exact text_ne_nil_of_mem_cut hmem
    obtain ⟨c, u, rfl⟩ := List.exists_cons_of_ne_nil (hne _ List.mem_cons_self)
    have hk : k ≠ .unrecognized := hknown _ List.mem_cons_self
    have hcons : ∀ v, texts (⟨k, c :: u⟩ :: spans) ++ v = c :: (u ++ (texts spans ++ v)) := by
      intro v
      simp
    rw [hcons, List.cons_append, cut_cons_append_iff] at h
    rw [hcons, List.cons_append, cut_cons_append_iff]
    obtain ⟨hafter, hrest⟩ := h
    refine ⟨?_, ih hrest (fun t ht => hknown t (by simp [ht])) hlast.tail⟩
    -- The first span closes if it is the last one too.
    have hcloses : u.length = (u ++ texts spans).length → Closes c k := by
      intro hlen
      have hnil : spans = [] := by
        refine texts_eq_nil (fun t ht => hne t (by simp [ht])) (List.length_eq_zero_iff.1 ?_)
        rw [List.length_append] at hlen
        omega
      exact hlast [] _ c u (by rw [hnil, List.nil_append]) rfl
    rw [← List.append_assoc] at hafter ⊢
    refine after_append hafter (by simp) (.inr ⟨hk, hcloses⟩) hw hr ?_
    rintro rfl hnil
    obtain ⟨rfl, -⟩ := List.append_eq_nil_iff.1 hnil
    exact absurd (unrecognized_of_after_slash hafter) hk

/-- A text that ends between two spans, whatever calm text follows it. -/
def Solid (P : List Char) : Prop :=
  ∀ r, Calm r → cut (P ++ r) = cut P ++ cut r

theorem solid_of_closes {cs : List Char} {spans rest : List Span} (h : cut cs = spans ++ rest)
    (hknown : ∀ s ∈ cut cs, s.kind ≠ .unrecognized) (hlast : LastCloses spans)
    (hcalm : Calm (texts rest)) : Solid (texts spans) := by
  have hcut : cut (texts spans ++ texts rest) = spans ++ cut (texts rest) := by
    rw [← texts_append, ← h, texts_cut, cut_texts h, h]
  have hspans : ∀ s ∈ spans, s.kind ≠ .unrecognized := fun s hs =>
    hknown s (by rw [h]; exact List.mem_append_left _ hs)
  have hself : cut (texts spans) = spans := by
    have := cut_append_of_closes hcut hspans hlast hcalm calm_nil
    rwa [List.append_nil, cut, List.append_nil] at this
  intro r hr
  rw [cut_append_of_closes hcut hspans hlast hcalm hr, hself]

theorem Solid.notable_append {P r : List Char} (hP : Solid P) (hr : Calm r) (line : Nat) :
    notable line (P ++ r) = notable line P ++ notable (line + breaks P) r := by
  rw [notable, hP r hr, numbered_append, List.filter_append, texts_cut]
  rfl

theorem Solid.clear {P : List Char} (hP : Solid P) : Clear P := by
  have hprobe : Clear [] := clear_nil
  rw [Clear, List.nil_append] at hprobe
  rw [Clear, hP probe calm_probe, List.getLast?_append, hprobe]
  rfl

/-- Blanks after a solid text make no token. -/
theorem Solid.tokens_append_blanks {P blanks : List Char} (hP : Solid P)
    (hblanks : ∀ x ∈ blanks, Text.isBlank x = true) (line : Nat) :
    tokens line (P ++ blanks) = tokens line P := by
  have hcalm : Calm blanks := by
    intro x t hx
    exact .inl (hblanks x (by simp [hx]))
  have hnone := notable_blanks hblanks [] (line + breaks P)
  rw [List.append_nil, notable_nil] at hnone
  rw [tokens, hP.notable_append hcalm, hnone, List.append_nil, tokens]

/-! ## Recognised texts -/

/-- A text all of which is recognised. -/
def Known (cs : List Char) : Prop :=
  ∀ s ∈ cut cs, s.kind ≠ .unrecognized

theorem known_cons {c : Char} {cs : List Char} {k : SpanKind} {n : Nat} (h : after c cs = (k, n)) :
    Known (c :: cs) ↔ k ≠ .unrecognized ∧ Known (cs.drop n) := by
  rw [Known, cut_cons h, List.forall_mem_cons]
  rfl

theorem known_layout {c : Char} (hc : isLayout c = true) (cs : List Char) :
    Known (c :: cs) ↔ Known cs := by
  have hafter : ∀ {d : Char} (cs : List Char), isLayout d = true →
      after d cs = (.skipped, runLength isLayout cs) := by
    intro d cs hd
    rw [after, if_pos hd]
  rw [known_cons (hafter cs hc), and_iff_right (by simp)]
  cases cs with
  | nil => simp [runLength]
  | cons d cs =>
    by_cases hd : isLayout d = true
    · rw [known_cons (hafter cs hd), and_iff_right (by simp), runLength_cons, if_pos hd,
        List.drop_succ_cons]
    · rw [runLength_cons, if_neg hd, List.drop_zero]

theorem known_layout_append {u : List Char} (hu : ∀ x ∈ u, isLayout x = true) (v : List Char) :
    Known (u ++ v) ↔ Known v := by
  induction u with
  | nil => rfl
  | cons c u ih =>
    rw [List.cons_append, known_layout (hu c (by simp)), ih fun x hx => hu x (by simp [hx])]

/-- The blanks of a recognised text are layout, where they do not belong to other spans. -/
theorem Known.of_blanks {u v : List Char} (hu : ∀ x ∈ u, Text.isBlank x = true)
    (h : Known (u ++ v)) : Known v := by
  induction u with
  | nil => exact h
  | cons c u ih =>
    refine ih (fun x hx => hu x (by simp [hx])) ?_
    by_cases hc : isLayout c = true
    · exact (known_layout hc (u ++ v)).1 h
    · have hafter := after_of_isBlank (hu c (by simp)) (by simpa using hc) (u ++ v)
      exact absurd rfl ((known_cons hafter).1 h).1

theorem known_comment {body rest : List Char} (hbody : '\n' ∉ body) (hrest : EndsLine rest) :
    Known ('/' :: '/' :: body ++ rest) ↔ Known rest := by
  rw [Known, cut_comment_append hbody hrest, List.forall_mem_cons]
  exact and_iff_right (by simp)

/-- What follows a solid text is recognised apart from it. -/
theorem Solid.known_append_iff {P r : List Char} (hP : Solid P) (hr : Calm r) :
    Known (P ++ r) ↔ Known P ∧ Known r := by
  rw [Known, hP r hr, List.forall_mem_append]
  rfl

theorem forall_mem_consJoin {s : Span} {spans : List Span} :
    (∀ t ∈ consJoin s spans, t.kind ≠ .unrecognized)
      ↔ ∀ t ∈ s :: spans, t.kind ≠ .unrecognized := by
  cases spans with
  | nil => rfl
  | cons t spans =>
    rw [consJoin]
    split
    · next hboth => simp [hboth.1]
    · rfl

theorem forall_mem_cutJoined {cs : List Char} :
    (∀ s ∈ cutJoined cs, s.kind ≠ .unrecognized) ↔ Known cs := by
  rw [Known, cutJoined]
  induction cut cs with
  | nil => rfl
  | cons s spans ih =>
    rw [List.foldr_cons, forall_mem_consJoin, List.forall_mem_cons, List.forall_mem_cons, ih]

theorem filterMap_problem?_eq_nil {spans : List Span} (line : Nat) :
    (numbered line spans).filterMap Token.problem? = []
      ↔ ∀ s ∈ spans, s.kind ≠ .unrecognized := by
  induction spans generalizing line with
  | nil => simp [numbered]
  | cons s spans ih =>
    rw [numbered, List.filterMap_cons, List.forall_mem_cons, ← ih (line + breaks s.text)]
    by_cases hs : s.kind = .unrecognized
    · simp [Token.problem?, hs]
    · simp [Token.problem?, hs]

end HuffTrace.Span

namespace HuffTrace

theorem Diagnostics.length_insertDescending {α : Type} (x : Located α) (ys : List (Located α)) :
    (insertDescending x ys).length = ys.length + 1 := by
  induction ys with
  | nil => rfl
  | cons y ys ih =>
    rw [insertDescending]
    split
    · rw [List.length_cons, ih, List.length_cons]
    · rfl

theorem Diagnostics.size_addAll {α : Type} (d : Diagnostics α) (found : List (Located α)) :
    (d.addAll found).size = d.size + found.length := by
  induction found generalizing d with
  | nil => rfl
  | cons x found ih =>
    have hadd : (d.add x.line x.item).size = d.size + 1 := length_insertDescending _ _
    rw [addAll, List.foldl_cons, ← addAll, ih, hadd, List.length_cons]
    omega

/-- Scanning meets no problem exactly in recognised texts. -/
theorem Span.scan_snd_eq_empty_iff (source : String) :
    (Token.scan source).2 = .empty ↔ Known source.toList := by
  rw [← forall_mem_cutJoined, ← filterMap_problem?_eq_nil 1, Token.scan]
  constructor
  · intro h
    have hsize := congrArg Diagnostics.size h
    rw [Diagnostics.size_addAll] at hsize
    exact List.length_eq_zero_iff.1 (by simpa [Diagnostics.size, Diagnostics.empty] using hsize)
  · intro h
    simp only [h]
    rfl

end HuffTrace
