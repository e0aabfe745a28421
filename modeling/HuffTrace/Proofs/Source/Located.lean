/-
  HuffTrace.Proofs.Source.Located

  Where the parts of a source stand.  The spans of a text tile it, a token has
  the text of its span and the lines of its first and its last character, and
  the longest stretches that are not recognised are reported once each, in order
  (`scan_located`).

  Offsets count characters.  No other character has a line break among its
  bytes, so counting the breaks before a byte comes to the same.
-/

import HuffTrace.Proofs.Diagnostics
import HuffTrace.Proofs.Source.Boundary

namespace HuffTrace.Span

/-! ## Spans at offsets -/

/-- Pairs each span with the offset of its first character, the first span being at `offset`. -/
def placed (offset : Nat) : List Span → List (Nat × Span)
  | [] => []
  | s :: rest => (offset, s) :: placed (offset + s.text.length) rest

theorem placed_append (offset : Nat) (a b : List Span) :
    placed offset (a ++ b) = placed offset a ++ placed (offset + (texts a).length) b := by
  induction a generalizing offset with
  | nil => rfl
  | cons s a ih => simp [placed, ih, Nat.add_assoc]

theorem mem_placed {offset : Nat} {spans : List Span} {p : Nat × Span} :
    p ∈ placed offset spans
      ↔ ∃ a b, spans = a ++ p.2 :: b ∧ p.1 = offset + (texts a).length := by
  constructor
  · intro h
    induction spans generalizing offset with
    | nil => simp [placed] at h
    | cons s spans ih =>
      rw [placed, List.mem_cons] at h
      rcases h with rfl | h
      · exact ⟨[], spans, rfl, rfl⟩
      · obtain ⟨a, b, rfl, hoffset⟩ := ih h
        refine ⟨s :: a, b, rfl, ?_⟩
        rw [hoffset, texts_cons, List.length_append, Nat.add_assoc]
  · rintro ⟨a, b, rfl, hoffset⟩
    rw [placed_append, placed, ← hoffset]
    simp

theorem pairwise_placed (offset : Nat) (spans : List Span) :
    (placed offset spans).Pairwise fun p q => p.1 + p.2.text.length ≤ q.1 := by
  induction spans generalizing offset with
  | nil => exact .nil
  | cons s spans ih =>
    refine List.pairwise_cons.2 ⟨?_, ih (offset + s.text.length)⟩
    intro q hq
    obtain ⟨a, b, -, hoffset⟩ := mem_placed.1 hq
    show offset + s.text.length ≤ q.1
    omega

/-- The line of a span counts the line breaks before its offset. -/
theorem numbered_eq_map_placed (line : Nat) (before : List Char) (spans : List Span) :
    numbered (line + breaks before) spans
      = (placed before.length spans).map fun p =>
        ⟨line + breaks ((before ++ texts spans).take p.1), p.2⟩ := by
  induction spans generalizing before with
  | nil => rfl
  | cons s spans ih =>
    have hrest := ih (before ++ s.text)
    rw [breaks_append, ← Nat.add_assoc, List.length_append, List.append_assoc] at hrest
    rw [numbered, placed, List.map_cons, texts_cons, ← hrest, List.take_left]

theorem numbered_one {cs : List Char} {spans : List Span} (h : texts spans = cs) :
    numbered 1 spans
      = (placed 0 spans).map fun p => ⟨1 + breaks (cs.take p.1), p.2⟩ := by
  subst h
  exact numbered_eq_map_placed 1 [] spans

/-! ## Tokens -/

/-- The token that a span gives at an offset of a text, read off the text. -/
def tokenAt? (cs : List Char) (p : Nat × Span) : Option Token :=
  match p.2.kind with
  | .lexeme lexeme =>
    some {
      kind := Token.classify p.2.text lexeme
      text := .ofList ((cs.drop p.1).take p.2.text.length)
      line := 1 + breaks (cs.take p.1)
      endLine := 1 + breaks (cs.take (p.1 + p.2.text.length - 1)) }
  | _ => none

/-- The text of a span is what stands at its offset. -/
theorem text_of_mem_placed {cs : List Char} {spans : List Span} (h : texts spans = cs)
    {p : Nat × Span} (hp : p ∈ placed 0 spans) : p.2.text = (cs.drop p.1).take p.2.text.length := by
  obtain ⟨a, b, rfl, hoffset⟩ := mem_placed.1 hp
  rw [← h, hoffset, texts_append, texts_cons, Nat.zero_add, List.drop_left, List.take_left]

theorem take_of_mem_placed {cs : List Char} {spans : List Span} (h : texts spans = cs)
    {p : Nat × Span} (hp : p ∈ placed 0 spans) (hne : p.2.text ≠ []) :
    cs.take (p.1 + p.2.text.length - 1) = cs.take p.1 ++ p.2.text.dropLast := by
  have hpos : 0 < p.2.text.length := List.length_pos_iff.2 hne
  have hsum : p.1 + p.2.text.length - 1 = p.1 + (p.2.text.length - 1) := by omega
  have hmin : min (p.2.text.length - 1) p.2.text.length = p.2.text.length - 1 := by omega
  rw [hsum, List.take_add, List.dropLast_eq_take, text_of_mem_placed h hp, List.take_take,
    ← text_of_mem_placed h hp, hmin]

theorem ofSpan?_eq_tokenAt? {cs : List Char} {spans : List Span} (h : texts spans = cs)
    {p : Nat × Span} (hp : p ∈ placed 0 spans) (hne : p.2.text ≠ []) :
    Token.ofSpan? ⟨1 + breaks (cs.take p.1), p.2⟩ = tokenAt? cs p := by
  have htext := text_of_mem_placed h hp
  have hline : 1 + breaks (cs.take (p.1 + p.2.text.length - 1))
      = 1 + breaks (cs.take p.1) + breaks p.2.text.dropLast := by
    rw [take_of_mem_placed h hp hne, breaks_append, Nat.add_assoc]
  cases hkind : p.2.kind with
  | lexeme lexeme => simp only [Token.ofSpan?, tokenAt?, hkind, hline, ← htext]
  | _ => simp only [Token.ofSpan?, tokenAt?, hkind]

theorem ne_nil_of_mem_placed_cut {cs : List Char} {p : Nat × Span} (h : p ∈ placed 0 (cut cs)) :
    p.2.text ≠ [] := by
  obtain ⟨a, b, hcut, -⟩ := mem_placed.1 h
  have hmem : p.2 ∈ cut cs := by
    rw [hcut]
    simp
  exact text_ne_nil_of_mem_cut hmem

theorem tokens_eq_filterMap_placed (cs : List Char) :
    tokens 1 cs = (placed 0 (cut cs)).filterMap (tokenAt? cs) := by
  rw [tokens_eq, numbered_one (texts_cut cs), List.filterMap_map]
  refine List.filterMap_congr fun p hp => ?_
  exact ofSpan?_eq_tokenAt? (texts_cut cs) hp (ne_nil_of_mem_placed_cut hp)

theorem breaks_take_le (cs : List Char) {i j : Nat} (h : i ≤ j) :
    breaks (cs.take i) ≤ breaks (cs.take j) :=
  (List.take_sublist_take_left h).count_le _

/-- A token ends no later than the next one begins. -/
theorem pairwise_tokens (cs : List Char) :
    (tokens 1 cs).Pairwise fun s t => s.endLine ≤ t.line := by
  rw [tokens_eq_filterMap_placed, List.pairwise_filterMap]
  refine (pairwise_placed 0 (cut cs)).imp ?_
  rintro p q hpq s hs t ht
  have hend : s.endLine = 1 + breaks (cs.take (p.1 + p.2.text.length - 1)) := by
    unfold tokenAt? at hs
    split at hs
    · exact (Option.some.inj hs) ▸ rfl
    · cases hs
  have hline : t.line = 1 + breaks (cs.take q.1) := by
    unfold tokenAt? at ht
    split at ht
    · exact (Option.some.inj ht) ▸ rfl
    · cases ht
  have hle := breaks_take_le cs (i := p.1 + p.2.text.length - 1) (j := q.1) (by omega)
  omega

theorem breaks_take_le_breaks (cs : List Char) (i : Nat) : breaks (cs.take i) ≤ breaks cs :=
  (List.take_sublist i cs).count_le _

/-- The lines of a token are lines of the text. -/
theorem lines_of_mem_tokens {cs : List Char} {t : Token} (h : t ∈ tokens 1 cs) :
    1 ≤ t.line ∧ t.line ≤ t.endLine ∧ t.endLine ≤ breaks cs + 1 := by
  rw [tokens_eq_filterMap_placed] at h
  obtain ⟨p, hp, htoken⟩ := List.mem_filterMap.1 h
  have hpos : 0 < p.2.text.length := List.length_pos_iff.2 (ne_nil_of_mem_placed_cut hp)
  unfold tokenAt? at htoken
  split at htoken
  · cases htoken
    have hwithin := breaks_take_le cs (i := p.1) (j := p.1 + p.2.text.length - 1) (by omega)
    have hend := breaks_take_le_breaks cs (p.1 + p.2.text.length - 1)
    dsimp only
    omega
  · cases htoken

/-! ## Stretches that are not recognised -/

/-- A longest stretch of touching spans that are not recognised, at an offset. -/
def IsStretch (spans : List Span) (offset : Nat) (text : List Char) : Prop :=
  ∃ a run b, spans = a ++ (run ++ b)
    ∧ run ≠ [] ∧ (∀ s ∈ run, s.kind = .unrecognized)
    ∧ (∀ s ∈ a.getLast?, s.kind ≠ .unrecognized) ∧ (∀ s ∈ b.head?, s.kind ≠ .unrecognized)
    ∧ offset = (texts a).length ∧ text = texts run

/-- Two lists of spans between which no stretch goes on. -/
def Apart (a b : List Span) : Prop :=
  (∀ s ∈ a.getLast?, s.kind ≠ .unrecognized) ∨ ∀ s ∈ b.head?, s.kind ≠ .unrecognized

theorem IsStretch.append_left {a b : List Span} {offset : Nat} {text : List Char}
    (h : IsStretch b offset text) (hapart : Apart a b) :
    IsStretch (a ++ b) ((texts a).length + offset) text := by
  obtain ⟨b', run, c, rfl, hne, hrun, hb', hc, rfl, rfl⟩ := h
  refine ⟨a ++ b', run, c, by rw [List.append_assoc], hne, hrun, ?_, hc, by simp, rfl⟩
  by_cases hnil : b' = []
  · subst hnil
    rw [List.append_nil]
    refine hapart.resolve_right fun hhead => ?_
    obtain ⟨s, run, rfl⟩ := List.exists_cons_of_ne_nil hne
    exact hhead s rfl (hrun s (by simp))
  · rwa [List.getLast?_append_of_ne_nil _ hnil]

/-! ## Joining -/

/-- Spans with touching stretches that are not recognised joined. -/
def join (spans : List Span) : List Span :=
  spans.foldr consJoin []

theorem join_cons (s : Span) (spans : List Span) :
    join (s :: spans) = consJoin s (join spans) := rfl

theorem texts_consJoin (s : Span) (spans : List Span) :
    texts (consJoin s spans) = s.text ++ texts spans := by
  cases spans with
  | nil => rfl
  | cons t spans =>
    rw [consJoin]
    split
    · simp
    · rfl

@[simp] theorem texts_join (spans : List Span) : texts (join spans) = texts spans := by
  induction spans with
  | nil => rfl
  | cons s spans ih => rw [join_cons, texts_consJoin, ih, texts_cons]

/-- Joining keeps the kind of the first span. -/
theorem head?_join (spans : List Span) :
    (join spans).head?.map Span.kind = spans.head?.map Span.kind := by
  cases spans with
  | nil => rfl
  | cons s spans =>
    rw [join_cons]
    cases join spans with
    | nil => rfl
    | cons t rest =>
      rw [consJoin]
      split
      · next h => simp [h.1]
      · rfl

theorem forall_head?_join {spans : List Span} (h : ∀ s ∈ spans.head?, s.kind ≠ .unrecognized) :
    ∀ s ∈ (join spans).head?, s.kind ≠ .unrecognized := by
  intro s hs hkind
  have hfirst := head?_join spans
  rw [Option.mem_def.1 hs, Option.map_some, hkind] at hfirst
  obtain ⟨t, ht, htkind⟩ := Option.map_eq_some_iff.1 hfirst.symm
  exact h t ht htkind

theorem consJoin_of_apart {s : Span} {spans : List Span} (h : Apart [s] spans) :
    consJoin s spans = s :: spans := by
  cases spans with
  | nil => rfl
  | cons t spans =>
    rw [consJoin, if_neg]
    rintro ⟨hs, ht⟩
    rcases h with h | h
    · exact h s rfl hs
    · exact h t rfl ht

/-- Lists between which no stretch goes on are joined apart. -/
theorem join_append {a b : List Span} (h : Apart a b) : join (a ++ b) = join a ++ join b := by
  induction a with
  | nil => rfl
  | cons s a ih =>
    rw [List.cons_append, join_cons, join_cons]
    cases a with
    | nil => exact consJoin_of_apart (h.imp_right forall_head?_join)
    | cons t a =>
      have hfirst : join (t :: a) ≠ [] := by
        intro hnil
        have hhead := head?_join (t :: a)
        rw [hnil] at hhead
        cases hhead
      rw [ih (h.imp_left fun h s hs => h s (by simpa using hs))]
      -- Whether the first two are joined does not depend on what follows.
      obtain ⟨x, xs, hjoin⟩ := List.exists_cons_of_ne_nil hfirst
      rw [hjoin, List.cons_append, consJoin, consJoin]
      split <;> rfl

theorem join_run {run : List Span} (hne : run ≠ []) (hrun : ∀ s ∈ run, s.kind = .unrecognized) :
    join run = [⟨.unrecognized, texts run⟩] := by
  induction run with
  | nil => exact absurd rfl hne
  | cons s run ih =>
    obtain ⟨kind, text⟩ := s
    obtain rfl : kind = .unrecognized := hrun ⟨kind, text⟩ (by simp)
    cases run with
    | nil => simp [join, consJoin]
    | cons t run =>
      rw [join_cons, ih (by simp) fun s hs => hrun s (by simp [hs]), consJoin, if_pos ⟨rfl, rfl⟩,
        texts_cons _ (t :: run)]

theorem join_of_isStretch {a run b : List Span} (hne : run ≠ [])
    (hrun : ∀ s ∈ run, s.kind = .unrecognized) (ha : ∀ s ∈ a.getLast?, s.kind ≠ .unrecognized)
    (hb : ∀ s ∈ b.head?, s.kind ≠ .unrecognized) :
    join (a ++ (run ++ b)) = join a ++ ⟨.unrecognized, texts run⟩ :: join b := by
  rw [join_append (.inl ha), join_append (.inr hb), join_run hne hrun, List.singleton_append]

/-- Some spans up to the end of the stretch that they start with. -/
theorem exists_run (spans : List Span) :
    ∃ run rest, spans = run ++ rest ∧ (∀ s ∈ run, s.kind = .unrecognized)
      ∧ ∀ s ∈ rest.head?, s.kind ≠ .unrecognized := by
  refine ⟨_, _, (List.takeWhile_append_dropWhile (p := (·.kind = .unrecognized))).symm, ?_, ?_⟩
  · intro s hs
    simpa using List.mem_takeWhile_imp hs
  · intro s hs
    have hstop := List.head?_dropWhile_not (fun s : Span => decide (s.kind = .unrecognized)) spans
    rw [Option.mem_def.1 hs] at hstop
    simpa using hstop

/-- What is not recognised after joining is a stretch of the spans. -/
theorem isStretch_of_join {spans a b : List Span} {text : List Char}
    (h : join spans = a ++ ⟨.unrecognized, text⟩ :: b) : IsStretch spans (texts a).length text := by
  induction hlen : spans.length using Nat.strongRecOn generalizing spans a with
  | _ len ih =>
  -- A stretch at the start comes off as a whole, any other span by itself.
  obtain ⟨run, rest, rfl, hrun, hrest⟩ := exists_run spans
  rw [List.length_append] at hlen
  by_cases hne : run = []
  · subst hne
    cases rest with
    | nil => simp [join] at h
    | cons s rest =>
      have hs : s.kind ≠ .unrecognized := hrest s rfl
      have hapart : Apart [s] rest := .inl (by simpa using hs)
      rw [List.nil_append, ← List.singleton_append, join_append hapart] at h
      cases a with
      | nil => exact absurd (congrArg Span.kind (List.cons.inj h).1) hs
      | cons x a =>
        obtain ⟨rfl, htail⟩ := List.cons.inj h
        have hlater := (ih rest.length (by simp at hlen; omega) htail rfl).append_left hapart
        simpa using hlater
  · have hapart : Apart run rest := .inr hrest
    rw [join_append hapart, join_run hne hrun] at h
    cases a with
    | nil =>
      obtain ⟨hfirst, -⟩ := List.cons.inj h
      exact ⟨[], run, rest, rfl, hne, hrun, by simp, hrest, rfl, (congrArg Span.text hfirst).symm⟩
    | cons x a =>
      obtain ⟨rfl, htail⟩ := List.cons.inj h
      have hpos : 0 < run.length := List.length_pos_iff.2 hne
      have hlater := (ih rest.length (by omega) htail rfl).append_left hapart
      simpa using hlater

/-! ## Problems -/

/-- The stretches of a text that are not recognised, with their offsets. -/
def stretches (cs : List Char) : List (Nat × List Char) :=
  ((placed 0 (cutJoined cs)).filter (·.2.kind = .unrecognized)).map fun p => (p.1, p.2.text)

theorem texts_cutJoined (cs : List Char) : texts (cutJoined cs) = cs :=
  (texts_join (cut cs)).trans (texts_cut cs)

theorem mem_stretches {cs : List Char} {offset : Nat} {text : List Char} :
    (offset, text) ∈ stretches cs ↔ IsStretch (cut cs) offset text := by
  constructor
  · intro h
    obtain ⟨⟨i, kind, u⟩, hp, heq⟩ := List.mem_map.1 h
    obtain ⟨rfl, rfl⟩ := Prod.mk.inj heq
    obtain ⟨hplaced, hkind⟩ := List.mem_filter.1 hp
    obtain rfl : kind = .unrecognized := by simpa using hkind
    obtain ⟨a, b, hjoin, hoffset⟩ := mem_placed.1 hplaced
    have hstretch := isStretch_of_join hjoin
    rwa [← Nat.zero_add (texts a).length, ← hoffset] at hstretch
  · rintro ⟨a, run, b, hcut, hne, hrun, ha, hb, rfl, rfl⟩
    refine List.mem_map.2 ⟨((texts a).length, ⟨.unrecognized, texts run⟩), ?_, rfl⟩
    refine List.mem_filter.2 ⟨mem_placed.2 ⟨join a, join b, ?_, ?_⟩, by simp⟩
    · rw [← join_of_isStretch hne hrun ha hb, ← hcut]
      rfl
    · rw [texts_join, Nat.zero_add]

theorem ne_nil_of_mem_stretches {cs : List Char} {r : Nat × List Char} (h : r ∈ stretches cs) :
    r.2 ≠ [] := by
  obtain ⟨a, run, b, hcut, hne, -, -, -, -, htext⟩ := mem_stretches.1 h
  have hmem : ∀ s ∈ run, s ∈ cut cs := by
    intro s hs
    rw [hcut]
    simp [hs]
  rw [htext]
  exact fun hnil => hne (texts_eq_nil (fun s hs => text_ne_nil_of_mem_cut (hmem s hs)) hnil)

/-- Stretches come in the order of their offsets. -/
theorem pairwise_stretches (cs : List Char) : (stretches cs).Pairwise (·.1 < ·.1) := by
  have hends : (stretches cs).Pairwise fun r q => r.1 + r.2.length ≤ q.1 :=
    List.pairwise_map.2 ((pairwise_placed 0 (cutJoined cs)).filter _)
  refine hends.imp_of_mem fun {r q} hr _ hle => ?_
  have hpos := List.length_pos_iff.2 (ne_nil_of_mem_stretches hr)
  omega

theorem filterMap_problem?_numbered (cs : List Char) :
    (numbered 1 (cutJoined cs)).filterMap Token.problem?
      = (stretches cs).map fun r =>
        ⟨1 + breaks (cs.take r.1), .unrecognized (.ofList r.2)⟩ := by
  rw [numbered_one (texts_cutJoined cs), stretches, List.filterMap_map, List.map_map]
  induction placed 0 (cutJoined cs) with
  | nil => rfl
  | cons p ps ih =>
    by_cases hp : p.2.kind = .unrecognized
    · simp [Token.problem?, hp, ih]
    · simp [Token.problem?, hp, ih]

theorem toList_scan_snd (source : String) :
    (Token.scan source).2.toList
      = (stretches source.toList).map fun r =>
        ⟨1 + breaks (source.toList.take r.1), .unrecognized (.ofList r.2)⟩ := by
  rw [← filterMap_problem?_numbered]
  refine Diagnostics.toList_addAll ?_
  rw [filterMap_problem?_numbered]
  refine List.pairwise_map.2 ((pairwise_stretches source.toList).imp fun hlt => ?_)
  exact Nat.add_le_add_left (breaks_take_le source.toList (Nat.le_of_lt hlt)) 1

/-- The spans of a source are not empty, follow on each other and make up the source.  Its
    tokens are those of the lexemes among them, with the text that stands there and the lines
    of the first and the last character, so none ends after the next one begins.  Its problems
    are the longest stretches that are not recognised, in their order, each at the line where
    it starts. -/
theorem scan_located (source : String) :
    (texts (cut source.toList) = source.toList
      ∧ ∀ p ∈ placed 0 (cut source.toList), p.2.text ≠ []
        ∧ p.2.text = (source.toList.drop p.1).take p.2.text.length)
    ∧ ((Token.scan source).1.toList
        = (placed 0 (cut source.toList)).filterMap (tokenAt? source.toList)
      ∧ (Token.scan source).1.toList.Pairwise fun s t => s.endLine ≤ t.line)
    ∧ ∃ found : List (Nat × List Char),
      found.Pairwise (·.1 < ·.1)
      ∧ (∀ offset text, (offset, text) ∈ found ↔ IsStretch (cut source.toList) offset text)
      ∧ (Token.scan source).2.toList
        = found.map fun r =>
          ⟨1 + breaks (source.toList.take r.1), .unrecognized (.ofList r.2)⟩ := by
  refine ⟨⟨texts_cut _, fun p hp => ?_⟩, ⟨?_, ?_⟩, stretches source.toList, ?_, ?_, ?_⟩
  · exact ⟨ne_nil_of_mem_placed_cut hp, text_of_mem_placed (texts_cut _) hp⟩
  · rw [scan_fst, List.toList_toArray, tokens_eq_filterMap_placed]
  · rw [scan_fst, List.toList_toArray]
    exact pairwise_tokens _
  · exact pairwise_stretches _
  · exact fun _ _ => mem_stretches
  · exact toList_scan_snd source

end HuffTrace.Span
