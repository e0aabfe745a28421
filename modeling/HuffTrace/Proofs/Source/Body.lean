/-
  HuffTrace.Proofs.Source.Body

  The bodies of macros.  The scan for the end of a body counts the braces that
  are open.  Wherever it is, the count is one more than the opening braces less
  the closing ones since the definition, and it is never zero (`exists_depth`).
  So the closing brace that ends a body is the first one too many.

  The macro that is found by a name is the one whose definition with that name
  comes first (`findMacro?_eq_some_iff`).
-/

import HuffTrace.Proofs.Source.Extent
import Mathlib.Data.Nat.Find

namespace HuffTrace.Program

/-! ## Tokens between two positions -/

/-- The tokens strictly between two positions. -/
def between (tokens : Array Token) (low high : Nat) : List Token :=
  (tokens.toList.take high).drop (low + 1)

/-- The number of opening braces among tokens. -/
def openings (ts : List Token) : Nat :=
  ts.countP (·.kind = .blockStart)

/-- The number of closing braces among tokens. -/
def closings (ts : List Token) : Nat :=
  ts.countP (·.kind = .blockEnd)

variable {tokens : Array Token} {low high definition position : Nat} {token : Token}

theorem between_next : between tokens low (low + 1) = [] :=
  List.drop_eq_nil_of_le (List.length_take_le _ _)

theorem between_succ (h : low < high) (htoken : tokens[high]? = some token) :
    between tokens low (high + 1) = between tokens low high ++ [token] := by
  have hget : tokens.toList[high]? = some token := by rwa [Array.getElem?_toList]
  have hhigh : high < tokens.toList.length := (List.getElem?_eq_some_iff.1 hget).1
  rw [between, between, List.take_add_one, hget, List.drop_append_of_le_length]
  · rfl
  · rw [List.length_take]
    omega

/-- Tokens that begin those between two positions are those up to a position in between. -/
theorem eq_between_of_prefix {front : List Token} (hlow : low < high)
    (h : front <+: between tokens low high) :
    ∃ middle, low < middle ∧ middle ≤ high ∧ front = between tokens low middle := by
  have hlength := h.length_le
  rw [between, List.length_drop, List.length_take] at hlength
  have hmin : min (low + 1 + front.length) high = low + 1 + front.length := by omega
  refine ⟨low + 1 + front.length, by omega, by omega, ?_⟩
  calc
    front = (between tokens low high).take front.length := List.prefix_iff_eq_take.1 h
    _ = between tokens low (low + 1 + front.length) := by
      rw [between, List.take_drop, List.take_take, hmin, between]

/-! ## The scan for the end of a body -/

/-- What the scan does at a token. -/
theorem bodyEnd_at (depth : Nat) (htoken : tokens[position]? = some token) :
    bodyEnd tokens depth (tokens.size - position)
      = match token.kind with
        | .blockStart => bodyEnd tokens (depth + 1) (tokens.size - (position + 1))
        | .blockEnd =>
          if depth ≤ 1 then position else bodyEnd tokens (depth - 1) (tokens.size - (position + 1))
        | .macroDefinition => position
        | _ => bodyEnd tokens depth (tokens.size - (position + 1)) := by
  have hlt : position < tokens.size := (Array.getElem?_eq_some_iff.1 htoken).1
  obtain ⟨left, hleft⟩ : ∃ left, tokens.size - position = left + 1 :=
    ⟨tokens.size - position - 1, by omega⟩
  have hposition : tokens.size - (left + 1) = position := by omega
  have hnext : tokens.size - (position + 1) = left := by omega
  rw [hleft, bodyEnd, hposition, htoken, hnext, Option.map_some]
  cases token.kind <;> rfl

theorem bodyEnd_le (tokens : Array Token) (depth left : Nat) :
    bodyEnd tokens depth left ≤ tokens.size := by
  induction left generalizing depth with
  | zero => exact Nat.le_refl _
  | succ left ih =>
    rw [bodyEnd]
    split
    · exact ih _
    · split
      · exact Nat.sub_le _ _
      · exact ih _
    · exact Nat.sub_le _ _
    · exact ih _

theorem lt_bodyEnd_next (depth : Nat) (h : position < tokens.size) :
    position < bodyEnd tokens depth (tokens.size - (position + 1)) := by
  have hle := le_bodyEnd tokens depth (tokens.size - (position + 1))
  omega

/-- Up to the end of a body, the scan goes on with a count of one more than the opening braces
    less the closing ones. -/
theorem exists_depth (hlow : definition < position)
    (hhigh : position ≤ blockEnd tokens definition) :
    ∃ depth, 1 ≤ depth
      ∧ depth + closings (between tokens definition position)
        = 1 + openings (between tokens definition position)
      ∧ bodyEnd tokens depth (tokens.size - position) = blockEnd tokens definition := by
  induction position, hlow using Nat.le_induction with
  | base => exact ⟨1, Nat.le_refl _, by rw [between_next]; rfl, rfl⟩
  | succ position hlow ih =>
    obtain ⟨depth, hdepth, hcount, hscan⟩ := ih (by omega)
    have hlt : position < tokens.size := Nat.lt_of_lt_of_le hhigh (bodyEnd_le _ _ _)
    have htoken : tokens[position]? = some tokens[position] := Array.getElem?_eq_getElem hlt
    rw [bodyEnd_at depth htoken] at hscan
    rw [between_succ hlow htoken]
    simp only [openings, closings, List.countP_append, List.countP_singleton] at hcount ⊢
    -- The body ends further on, so the scan goes past this token.
    split at hscan
    · next hkind => exact ⟨depth + 1, by omega, by simp [hkind]; omega, hscan⟩
    · next hkind =>
      split at hscan
      · omega
      · exact ⟨depth - 1, by omega, by simp [hkind]; omega, hscan⟩
    · omega
    · next hopening hclosing _ =>
      exact ⟨depth, hdepth, by simpa [Ne.intro hopening, Ne.intro hclosing] using hcount, hscan⟩

/-- A body ends with the tokens, at a definition, or at the closing brace that is one more than
    the braces opened in the body. -/
theorem blockEnd_cases (h : definition < tokens.size) :
    blockEnd tokens definition = tokens.size
    ∨ ∃ token, tokens[blockEnd tokens definition]? = some token
      ∧ (token.kind = .macroDefinition
        ∨ token.kind = .blockEnd
          ∧ closings (between tokens definition (blockEnd tokens definition))
            = openings (between tokens definition (blockEnd tokens definition))) := by
  obtain ⟨depth, hdepth, hcount, hscan⟩ := exists_depth (lt_blockEnd h) (Nat.le_refl _)
  by_cases hend : blockEnd tokens definition = tokens.size
  · exact .inl hend
  · have hle : blockEnd tokens definition ≤ tokens.size := bodyEnd_le _ _ _
    have hlt : blockEnd tokens definition < tokens.size := by omega
    have htoken := Array.getElem?_eq_getElem hlt
    -- No scan that goes past the end comes back to it.
    have hpast := fun depth => lt_bodyEnd_next depth hlt
    refine .inr ⟨_, htoken, ?_⟩
    rw [bodyEnd_at depth htoken] at hscan
    split at hscan
    · exact absurd hscan (Nat.ne_of_gt (hpast _))
    · next hkind =>
      split at hscan
      · exact .inr ⟨hkind, by omega⟩
      · exact absurd hscan (Nat.ne_of_gt (hpast _))
    · next hkind => exact .inl hkind
    · exact absurd hscan (Nat.ne_of_gt (hpast _))

/-! ## Macros by name -/

/-- The token at a position defines a macro with a name. -/
def Defines (tokens : Array Token) (name : String) (position : Nat) : Prop :=
  ∃ token header, tokens[position]? = some token ∧ token.kind = .macroDefinition
    ∧ Header.parse? token.text.toList = some header ∧ header.name = name

section Lookup

variable {p : Program} {name : String} {extent : Extent}

theorem macroAt?_eq_some_iff :
    macroAt? tokens position = some (name, extent)
      ↔ Defines tokens name position ∧ extent = ⟨position, blockEnd tokens position⟩ := by
  simp only [macroAt?, Token.header?, Option.bind_eq_bind, Option.bind_eq_some_iff,
    Option.ite_none_right_eq_some, Option.some.injEq, Prod.mk.injEq]
  constructor
  · rintro ⟨token, htoken, header, ⟨hkind, hheader⟩, hname, rfl⟩
    exact ⟨⟨token, header, htoken, hkind, hheader, hname⟩, rfl⟩
  · rintro ⟨⟨token, header, htoken, hkind, hheader, hname⟩, rfl⟩
    exact ⟨token, htoken, header, ⟨hkind, hheader⟩, hname, rfl⟩

/-- Nothing is found among positions that do not define the name. -/
theorem lookup_filterMap_eq_none {positions : List Nat}
    (h : ∀ position ∈ positions, ¬ Defines tokens name position) :
    (positions.filterMap (macroAt? tokens)).lookup name = none := by
  rw [List.lookup_eq_none_iff]
  rintro ⟨other, extent⟩ hmem
  obtain ⟨position, hposition, hmacro⟩ := List.mem_filterMap.1 hmem
  rw [bne_iff_ne]
  rintro rfl
  exact h position hposition (macroAt?_eq_some_iff.1 hmacro).1

/-- The first macro with a name is what is found by it. -/
theorem findMacro?_of_first (h : Defines p.tokens name position)
    (hfirst : ∀ earlier < position, ¬ Defines p.tokens name earlier) :
    p.findMacro? name = some ⟨position, blockEnd p.tokens position⟩ := by
  have hlt : position < p.tokens.size := by
    obtain ⟨token, _, htoken, _⟩ := h
    exact (Array.getElem?_eq_some_iff.1 htoken).1
  obtain ⟨rest, hrest⟩ : ∃ rest, p.tokens.size = position + (rest + 1) :=
    ⟨p.tokens.size - position - 1, by omega⟩
  have hmacro : macroAt? p.tokens (position + 0)
      = some (name, ⟨position, blockEnd p.tokens position⟩) :=
    macroAt?_eq_some_iff.2 ⟨h, rfl⟩
  rw [findMacro?, p.macros_eq, macroTable, hrest, List.range_add, List.filterMap_append,
    List.lookup_append, lookup_filterMap_eq_none fun earlier hearlier =>
      hfirst earlier (List.mem_range.1 hearlier),
    List.range_succ_eq_map, List.map_cons, List.filterMap_cons_some hmacro, List.lookup_cons_self,
    Option.none_or]

theorem exists_first (h : Defines p.tokens name position) :
    ∃ first, Defines p.tokens name first ∧ ∀ earlier < first, ¬ Defines p.tokens name earlier := by
  classical
  have hsome : ∃ position, Defines p.tokens name position := ⟨position, h⟩
  exact ⟨Nat.find hsome, Nat.find_spec hsome, fun _ => Nat.find_min hsome⟩

theorem exists_defines_of_findMacro? (h : p.findMacro? name = some extent) :
    ∃ position, Defines p.tokens name position := by
  by_contra hnone
  rw [findMacro?, p.macros_eq, macroTable,
    lookup_filterMap_eq_none fun position _ hdefines => hnone ⟨position, hdefines⟩] at h
  cases h

/-- What is found by a name is the first macro with it, up to the end of its body. -/
theorem findMacro?_eq_some_iff :
    p.findMacro? name = some extent
      ↔ Defines p.tokens name extent.definition
        ∧ (∀ earlier < extent.definition, ¬ Defines p.tokens name earlier)
        ∧ extent.stop = blockEnd p.tokens extent.definition := by
  constructor
  · intro hfound
    obtain ⟨position, hdefines⟩ := exists_defines_of_findMacro? hfound
    obtain ⟨first, hfirst, hearlier⟩ := exists_first hdefines
    obtain rfl := Option.some.inj ((findMacro?_of_first hfirst hearlier).symm.trans hfound)
    exact ⟨hfirst, hearlier, rfl⟩
  · rintro ⟨hdefines, hearlier, hstop⟩
    rw [findMacro?_of_first hdefines hearlier, ← hstop]

theorem isSome_findMacro?_iff :
    (p.findMacro? name).isSome ↔ ∃ position, Defines p.tokens name position := by
  constructor
  · intro hsome
    obtain ⟨extent, hfound⟩ := Option.isSome_iff_exists.1 hsome
    exact exists_defines_of_findMacro? hfound
  · rintro ⟨position, hdefines⟩
    obtain ⟨first, hfirst, hearlier⟩ := exists_first hdefines
    rw [findMacro?_of_first hfirst hearlier]
    rfl

end Lookup

end HuffTrace.Program
