/-
  HuffTrace.Proofs.Source.Inclusion

  Include directives.  The text of an include directive that is recognised is
  its keyword, a gap, and a path between two quotes of the same kind, so every
  such token of a source names a path (`exists_includePath`).
-/

import HuffTrace.Proofs.Source.Probe
import HuffTrace.Proofs.Source.Scan

namespace HuffTrace

namespace Span

/-- A text that ends with a path between two quotes of one kind, and has no quote before. -/
def EndsQuoted (text : List Char) : Prop :=
  ∃ lead quote path, text = lead ++ quote :: (path ++ [quote])
    ∧ (∀ c ∈ lead, Text.isQuote c = false) ∧ Text.isQuote quote = true

theorem EndsQuoted.append_left {lead text : List Char} (h : EndsQuoted text)
    (hlead : ∀ c ∈ lead, Text.isQuote c = false) : EndsQuoted (lead ++ text) := by
  obtain ⟨before, quote, path, rfl, hbefore, hquote⟩ := h
  refine ⟨lead ++ before, quote, path, (List.append_assoc ..).symm, ?_, hquote⟩
  intro c hc
  rcases List.mem_append.1 hc with hc | hc
  · exact hlead c hc
  · exact hbefore c hc

theorem isQuote_of_isGap {c : Char} (h : isGap c = true) : Text.isQuote c = false := by
  rw [isGap, Bool.or_eq_true, beq_iff_eq, beq_iff_eq] at h
  rcases h with rfl | rfl <;> rfl

theorem endsQuoted_of_inclusion {cs : List Char} {n : Nat}
    (h : inclusion cs = (.lexeme .inclusion, n)) : EndsQuoted (cs.take n) := by
  simp only [inclusion] at h
  split at h
  · next quote rest hdrop =>
    split at h
    · next hquote =>
      split at h
      · next hhead =>
        obtain ⟨-, rfl⟩ := Prod.mk.inj h
        have hgap : ∀ c ∈ cs.take (runLength isGap cs), Text.isQuote c = false := by
          intro c hc
          rw [take_runLength] at hc
          exact isQuote_of_isGap (List.mem_takeWhile_imp hc)
        rw [Nat.add_assoc, Nat.add_assoc, List.take_add, hdrop, Nat.add_comm 1,
          List.take_succ_cons, take_succ_of_head? hhead]
        exact EndsQuoted.append_left ⟨[], quote, _, rfl, by simp, hquote⟩ hgap
      · cases h
    · cases h
  · cases h

theorem definition_ne_inclusion (cs : List Char) : (definition cs).1 ≠ .lexeme .inclusion := by
  rw [definition_eq]
  split
  · next kind hkind =>
    cases kind with
    | body => rw [DefinitionKind.span]; split <;> simp
    | interface kind => simp [DefinitionKind.span]
    | constant => simp [DefinitionKind.span]
    | table =>
      rw [DefinitionKind.span]
      split
      · split <;> simp
      · simp
  · simp

theorem endsQuoted_of_afterHash {cs : List Char} {n : Nat}
    (h : afterHash cs = (.lexeme .inclusion, n)) : EndsQuoted (cs.take n) := by
  unfold afterHash at h
  split at h
  · have hkind := congrArg Prod.fst h
    simp only [attributeBody] at hkind
    split at hkind <;> cases hkind
  split at h
  · next hinclude =>
    cases hbody : inclusion (cs.drop 7) with
    | mk kind m =>
    rw [hbody] at h
    obtain ⟨rfl, rfl⟩ := Prod.mk.inj h
    have hkeyword : cs.take 7 = "include".toList := by
      rw [eq_append_of_startsWith hinclude]
      rfl
    rw [Nat.add_comm, List.take_add, hkeyword]
    exact (endsQuoted_of_inclusion hbody).append_left (by simp [Text.isQuote])
  split at h
  · exact absurd (congrArg Prod.fst h) (definition_ne_inclusion _)
  · cases h

theorem afterDigit_ne_inclusion (c : Char) (cs : List Char) :
    (afterDigit c cs).1 ≠ .lexeme .inclusion := by
  unfold afterDigit
  split
  · split <;> simp
  · simp

theorem afterBracket_ne_inclusion {lexeme : Lexeme} (h : lexeme ≠ .inclusion) (close : Char)
    (cs : List Char) : (afterBracket close lexeme cs).1 ≠ .lexeme .inclusion := by
  simp only [afterBracket]
  split
  · simp
  · split
    · exact fun heq => h (SpanKind.lexeme.inj heq)
    · simp

theorem afterWordStart_ne_inclusion (cs : List Char) :
    (afterWordStart cs).1 ≠ .lexeme .inclusion := by
  simp only [afterWordStart]
  split
  · simp
  · split <;> simp
  · simp

/-- Only a hash begins an include directive. -/
theorem after_ne_inclusion {c : Char} (hc : c ≠ '#') (cs : List Char) :
    (after c cs).1 ≠ .lexeme .inclusion := by
  have hreads := reads c
  generalize after c = read at hreads ⊢
  cases hreads with
  | layout hlayout => simp
  | blockStart hopen => simp
  | blockEnd hclose => simp
  | slash hslash => rcases afterSlash_kind cs with hkind | hkind <;> rw [hkind] <;> simp
  | digit hdigit => exact afterDigit_ne_inclusion c cs
  | square hsquare => exact afterBracket_ne_inclusion (by decide) _ cs
  | angle hangle => exact afterBracket_ne_inclusion (by decide) _ cs
  | word hword => exact afterWordStart_ne_inclusion cs
  | hash hhash => exact absurd hhash hc
  | unknown => simp

theorem endsQuoted_of_after {c : Char} {cs : List Char} {n : Nat}
    (h : after c cs = (.lexeme .inclusion, n)) : EndsQuoted (c :: cs.take n) := by
  by_cases hc : c = '#'
  · subst hc
    have hhash : afterHash cs = (.lexeme .inclusion, n) := h
    show EndsQuoted (['#'] ++ cs.take n)
    exact (endsQuoted_of_afterHash hhash).append_left (by simp [Text.isQuote])
  · exact absurd (congrArg Prod.fst h) (after_ne_inclusion hc cs)

end Span

/-! ## Paths -/

theorem Token.exists_includePath {t : Token} (h : Span.EndsQuoted t.text.toList) :
    ∃ path, t.includePath? = some path := by
  obtain ⟨lead, quote, path, htext, hlead, hquote⟩ := h
  have hdrop : t.text.toList.dropWhile (!Text.isQuote ·) = quote :: (path ++ [quote]) := by
    rw [htext, List.dropWhile_append_of_pos (by simpa using hlead), List.dropWhile_cons_of_neg]
    simp [hquote]
  unfold Token.includePath?
  rw [hdrop]
  simp

theorem Token.lexeme_of_inclusion {text : List Char} {lexeme : Lexeme}
    (h : Token.classify text lexeme = .inclusion) : lexeme = .inclusion := by
  cases lexeme with
  | inclusion => rfl
  | invocation =>
    rw [Token.classify] at h
    split at h <;> cases h
  | identifier =>
    rw [Token.classify] at h
    split at h <;> cases h
  | _ => cases h

/-- Every include directive of a source names a path. -/
theorem Program.exists_includePath {source : String} {t : Token}
    (h : t ∈ (Program.ofSource source).1.tokens) (hkind : t.kind = .inclusion) :
    ∃ path, t.includePath? = some path := by
  have hmem : t ∈ (Token.scan source).1 := h
  rw [Span.scan_fst, List.mem_toArray] at hmem
  obtain ⟨x, hx, htoken⟩ := List.mem_filterMap.1 hmem
  obtain ⟨a, b, hcut, -⟩ := Span.mem_numbered.1 (List.mem_filter.1 hx).1
  have hspan : x.item ∈ Span.cut source.toList := by
    rw [hcut]
    simp
  obtain ⟨c, tail, n, hafter, htext⟩ := Span.exists_after_of_mem_cut hspan
  obtain ⟨lexeme, hlexeme, hclass, -⟩ := Span.exists_lexeme_of_ofSpan? htoken
  obtain rfl := Token.lexeme_of_inclusion (hclass.symm.trans hkind)
  rw [hlexeme] at hafter
  refine Token.exists_includePath ?_
  have hwritten : t.text.toList = c :: tail.take n := by
    rw [← htext]
    unfold Token.ofSpan? at htoken
    rw [hlexeme] at htoken
    cases htoken
    exact String.toList_ofList
  rw [hwritten]
  exact Span.endsQuoted_of_after hafter

end HuffTrace
