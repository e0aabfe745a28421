/-
  HuffTrace.Proofs.Source.Extent

  Where macros stand in a program.  The tables lead to macro definitions only,
  and between a definition and the end of its body there is no other one: a
  body that is never closed ends at the next definition.
-/

import HuffTrace.Source.Program

namespace HuffTrace.Program

/-! ## Bodies -/

/-- There is no definition among the tokens of a body. -/
theorem kind_ne_macroDefinition_of_lt_bodyEnd {tokens : Array Token} {depth left i : Nat}
    {token : Token} (hlow : tokens.size - left ≤ i) (hhigh : i < bodyEnd tokens depth left)
    (htoken : tokens[i]? = some token) : token.kind ≠ .macroDefinition := by
  induction left generalizing depth with
  | zero =>
    have hsize : i < tokens.size := (Array.getElem?_eq_some_iff.1 htoken).1
    omega
  | succ left ih =>
    unfold bodyEnd at hhigh
    simp only at hhigh
    by_cases hhere : i = tokens.size - (left + 1)
    · -- The first token of what is left: as a definition it would be the end itself.
      rw [← hhere, htoken] at hhigh
      intro hkind
      simp only [Option.map_some, hkind] at hhigh
      omega
    · have hnext : tokens.size - left ≤ i := by omega
      split at hhigh
      · exact ih hnext hhigh
      · split at hhigh
        · omega
        · exact ih hnext hhigh
      · omega
      · exact ih hnext hhigh

theorem kind_ne_macroDefinition_of_lt_blockEnd {p : Program} {definition i : Nat} {token : Token}
    (hlow : definition < i) (hhigh : i < blockEnd p.tokens definition)
    (htoken : p.token? i = some token) : token.kind ≠ .macroDefinition :=
  kind_ne_macroDefinition_of_lt_bodyEnd (by omega) hhigh htoken

/-- A body that ends before the tokens do ends at a closing brace or at a definition. -/
theorem kind_of_bodyEnd {tokens : Array Token} {depth left : Nat}
    (h : bodyEnd tokens depth left < tokens.size) :
    ∃ token, tokens[bodyEnd tokens depth left]? = some token
      ∧ (token.kind = .blockEnd ∨ token.kind = .macroDefinition) := by
  induction left generalizing depth with
  | zero =>
    rw [bodyEnd] at h
    omega
  | succ left ih =>
    rw [bodyEnd] at h ⊢
    split at h
    · exact ih h
    · next hkind =>
      by_cases hlast : depth ≤ 1
      · rw [if_pos hlast]
        obtain ⟨token, htoken, hkind⟩ := Option.map_eq_some_iff.1 hkind
        exact ⟨token, htoken, .inl hkind⟩
      · rw [if_neg hlast] at h ⊢
        exact ih h
    · next hkind =>
      obtain ⟨token, htoken, hkind⟩ := Option.map_eq_some_iff.1 hkind
      exact ⟨token, htoken, .inr hkind⟩
    · exact ih h

theorem kind_of_blockEnd {p : Program} {definition : Nat}
    (h : blockEnd p.tokens definition < p.size) :
    ∃ token, p.token? (blockEnd p.tokens definition) = some token
      ∧ (token.kind = .blockEnd ∨ token.kind = .macroDefinition) :=
  kind_of_bodyEnd h

theorem le_bodyEnd (tokens : Array Token) (depth left : Nat) :
    tokens.size - left ≤ bodyEnd tokens depth left := by
  induction left generalizing depth with
  | zero => exact Nat.le_refl _
  | succ left ih =>
    have hle : tokens.size - (left + 1) ≤ tokens.size - left := by omega
    rw [bodyEnd]
    split
    · exact Nat.le_trans hle (ih _)
    · split
      · exact Nat.le_refl _
      · exact Nat.le_trans hle (ih _)
    · exact Nat.le_refl _
    · exact Nat.le_trans hle (ih _)

/-- The body of a definition ends past it. -/
theorem lt_blockEnd {tokens : Array Token} {definition : Nat} (h : definition < tokens.size) :
    definition < blockEnd tokens definition := by
  have hle := le_bodyEnd tokens 1 (tokens.size - (definition + 1))
  unfold blockEnd
  omega

/-! ## Tables -/

/-- A macro that is found stands at a definition, and its extent ends with its body. -/
theorem extent_of_findMacro? {p : Program} {name : String} {extent : Extent}
    (h : p.findMacro? name = some extent) :
    extent.stop = blockEnd p.tokens extent.definition
      ∧ ∃ token, p.token? extent.definition = some token ∧ token.kind = .macroDefinition := by
  have hmem : (name, extent) ∈ macroTable p.tokens := by
    obtain ⟨before, after, hsplit, _⟩ := List.lookup_eq_some_iff.1 h
    rw [← p.macros_eq, hsplit]
    simp
  obtain ⟨position, _, hposition⟩ := List.mem_filterMap.1 hmem
  obtain ⟨token, htoken, hrest⟩ := Option.bind_eq_some_iff.1 hposition
  obtain ⟨header, hheader, hentry⟩ := Option.bind_eq_some_iff.1 hrest
  cases hentry
  refine ⟨rfl, token, htoken, ?_⟩
  unfold Token.header? at hheader
  split at hheader
  · next hkind => exact hkind
  · cases hheader

end HuffTrace.Program
