/-
  HuffTrace.Proofs.Machine.Entry

  The extents of macros as the machine computes them.  It enters a definition
  with the extent that starts there, whether that macro is the one found by its
  name or a later one of the same name.  While a program runs, every open call
  that has been entered holds the extent that its name is found at
  (`Reaches.calls_of_mem`).  So the tables and the machine agree on where a body
  ends, and what they agree on is well formed (`extents_agree`).
-/

import HuffTrace.Proofs.Machine.Alike
import HuffTrace.Proofs.Machine.Bracket
import HuffTrace.Proofs.Source.Body

namespace HuffTrace.Machine

variable {σ : Type} [Scope σ]

/-! ## Entering a definition -/

section Enter

variable {m : Machine σ} {position : Nat} {token : Token} (run : Nat → Machine σ → Machine σ)

/-- Outside of any call, a definition starts the analysis of the macro that stands there. -/
theorem entry_step_of_definition (hkind : token.kind = .macroDefinition) (hframes : m.frames = []) :
    (m.step run position token).2.entry = some (m.definitionAt position) := by
  rw [step, hkind]
  obtain ⟨faults, hdefine⟩ := define_of_nil position token hframes
  exact congrArg entry hdefine

/-- A definition that a call has led to is entered as the macro that stands there. -/
theorem frames_step_of_definition {site : Nat} {outer : List Frame}
    (hkind : token.kind = .macroDefinition) (hframes : m.frames = ⟨site, none⟩ :: outer) :
    (m.step run position token).2.frames = ⟨site, some (m.definitionAt position)⟩ :: outer := by
  rw [step, hkind]
  obtain ⟨faults, hdefine⟩ := define_of_reaching position token hframes
  exact congrArg frames hdefine

end Enter

/-! ## Open calls of a run -/

/-- An entered call holds the extent that its name is found at. -/
theorem Bracketed.calls_of_mem {program : Program} {extents : List Extent} {frames : List Frame}
    {pointer site : Nat} {callee : Definition} (h : Bracketed program extents frames pointer)
    (hmem : ⟨site, some callee⟩ ∈ frames) : Calls program site callee.extent := by
  induction h with
  | outside => cases hmem
  | reaching call entered around ih =>
    rcases List.mem_cons.1 hmem with heq | hmem
    · cases heq
    · exact ih hmem
  | within call entered around low high ih =>
    rcases List.mem_cons.1 hmem with heq | hmem
    · cases heq
      exact call
    · exact ih hmem

theorem Reaches.bracketed {stop stop' : Nat} {m n : Machine σ} (h : Reaches stop m stop' n)
    (hempty : m.frames = []) : ∃ extents, Bracketed n.program extents n.frames n.pointer := by
  refine h.invariant (P := fun n => ∃ extents, Bracketed n.program extents n.frames n.pointer)
    ?_ ?_ ⟨[], hempty ▸ .outside _⟩
  · rintro stop a a' hturn ⟨extents, ha⟩
    obtain ⟨extents', ha', -⟩ := ha.turn hturn
    exact ⟨extents', ha'⟩
  · -- A machine that is started for another program has no open calls of its own.
    intro stop a a' token external hturn hcall ha
    exact ⟨[], .outside _⟩

/-- Where an execution comes through, each entered call holds the extent that its name is found
    at in the program of the machine. -/
theorem Reaches.calls_of_mem {stop stop' site : Nat} {m n : Machine σ} {callee : Definition}
    (h : Reaches stop m stop' n) (hempty : m.frames = []) (hmem : ⟨site, some callee⟩ ∈ n.frames) :
    Calls n.program site callee.extent := by
  obtain ⟨extents, hbracketed⟩ := h.bracketed hempty
  exact hbracketed.calls_of_mem hmem

end HuffTrace.Machine

namespace HuffTrace.Program

/-- The extents of macros.  The body of the token at any position ends past it, contains no
    definition, and nowhere in it have more braces been closed than opened.  It ends with the
    tokens, at a definition, or at the brace that closes one more than were opened; up to there
    the count of open braces is what the braces passed make it, and never zero.  What is found by
    a name is the first definition with it, up to the end of its body, and something is found if
    there is a definition.  A machine that enters a definition, the first of its name or not,
    finds the same end for it, and all entered calls of a run hold the extents that their names
    are found at. -/
theorem extents_agree {σ : Type} [Scope σ] (p : Program) (name : String) (scope : σ)
    (limits : Limits) :
    (∀ definition < p.size,
      let stop := blockEnd p.tokens definition
      definition < stop ∧ stop ≤ p.size
      ∧ (∀ i token, definition < i → i < stop → p.token? i = some token →
        token.kind ≠ .macroDefinition)
      ∧ (∀ front, front <+: between p.tokens definition stop → closings front ≤ openings front)
      ∧ (stop = p.size ∨ ∃ token, p.token? stop = some token
        ∧ (token.kind = .macroDefinition
          ∨ token.kind = .blockEnd
            ∧ closings (between p.tokens definition stop ++ [token])
              = openings (between p.tokens definition stop ++ [token]) + 1))
      ∧ ∀ i, definition < i → i ≤ stop → ∃ depth, 1 ≤ depth
        ∧ depth + closings (between p.tokens definition i)
          = 1 + openings (between p.tokens definition i)
        ∧ bodyEnd p.tokens depth (p.size - i) = stop)
    ∧ (∀ extent, p.findMacro? name = some extent
      ↔ Defines p.tokens name extent.definition
        ∧ (∀ earlier < extent.definition, ¬ Defines p.tokens name earlier)
        ∧ extent.stop = blockEnd p.tokens extent.definition)
    ∧ ((p.findMacro? name).isSome ↔ ∃ position, Defines p.tokens name position)
    ∧ (∀ (run : Nat → Machine σ → Machine σ) (m : Machine σ) position token, m.program = p →
      token.kind = .macroDefinition →
      (m.frames = [] → ∃ entry, (m.step run position token).2.entry = some entry
        ∧ entry.extent = ⟨position, blockEnd p.tokens position⟩)
      ∧ ∀ site outer, m.frames = ⟨site, none⟩ :: outer → ∃ callee,
        (m.step run position token).2.frames = ⟨site, some callee⟩ :: outer
        ∧ callee.extent = ⟨position, blockEnd p.tokens position⟩)
    ∧ ∀ (stop : Nat) (n : Machine σ), Machine.Reaches p.size (.start p scope limits) stop n →
      ∀ site callee, ⟨site, some callee⟩ ∈ n.frames →
        ∃ call, n.program.token? site = some call ∧ call.kind = .call
          ∧ n.program.findMacro? call.name = some callee.extent := by
  refine ⟨fun definition h => ⟨lt_blockEnd h, bodyEnd_le _ _ _, ?_, ?_, ?_, ?_⟩,
    fun extent => findMacro?_eq_some_iff, isSome_findMacro?_iff, ?_, ?_⟩
  · intro i token hlow hhigh htoken
    exact kind_ne_macroDefinition_of_lt_blockEnd hlow hhigh htoken
  · intro front hfront
    obtain ⟨middle, hlow, hhigh, rfl⟩ := eq_between_of_prefix (lt_blockEnd h) hfront
    obtain ⟨depth, hdepth, hcount, -⟩ := exists_depth hlow hhigh
    omega
  · rcases blockEnd_cases h with hend | ⟨token, htoken, hdefinition | ⟨hbrace, hcount⟩⟩
    · exact .inl hend
    · exact .inr ⟨token, htoken, .inl hdefinition⟩
    · refine .inr ⟨token, htoken, .inr ⟨hbrace, ?_⟩⟩
      simp only [openings, closings, List.countP_append, List.countP_singleton, hbrace] at hcount ⊢
      simp [hcount]
  · intro i hlow hhigh
    exact exists_depth hlow hhigh
  · rintro run m position token rfl hkind
    exact ⟨fun hframes =>
      ⟨_, Machine.entry_step_of_definition run hkind hframes, m.extent_definitionAt position⟩,
      fun site outer hframes =>
      ⟨_, Machine.frames_step_of_definition run hkind hframes, m.extent_definitionAt position⟩⟩
  · intro stop n hreaches site callee hmem
    exact hreaches.calls_of_mem rfl hmem

end HuffTrace.Program
