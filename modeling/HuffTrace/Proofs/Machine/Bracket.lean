/-
  HuffTrace.Proofs.Machine.Bracket

  Where the pointer can be while calls are open.  Each open call is a token
  that calls a macro of the program, the pointer is in the body of the
  innermost one, and each call lies in the body of the one around it
  (`Bracketed`).  A turn keeps this, and what it does to the list of open
  calls is to add the one it opens or to take off one whose body ends before
  the program does (`Bracketed.turn`): a body that ends only with the program
  is never left.
-/

import HuffTrace.Proofs.Machine.Heads

namespace HuffTrace.Machine

variable {σ : Type} [Scope σ]

/-! ## Single turns -/

/-- The token at a position calls the macro that stands at an extent of the program. -/
def Calls (program : Program) (site : Nat) (extent : Extent) : Prop :=
  ∃ token, program.token? site = some token ∧ token.kind = .call
    ∧ program.findMacro? token.name = some extent

/-- The next turn opens a call of the macro that stands at an extent of the program. -/
structure Opens (m : Machine σ) (extent : Extent) : Prop where
  call : Calls m.program m.pointer extent
  room : m.depth < m.limits.callDepth

/-- The call of a macro of the program is opened if there is room for it, and else skipped. -/
theorem Turn.frames_of_calls {stop : Nat} {m m' : Machine σ} {extent : Extent}
    (h : Turn stop m m') (hcalls : Calls m.program m.pointer extent) :
    m'.frames
      = if m.limits.callDepth ≤ m.depth then m.frames else ⟨m.pointer, none⟩ :: m.frames := by
  obtain ⟨token, htoken, hkind, hfound⟩ := hcalls
  rw [h.eq_turn htoken, turn_eq, step, hkind]
  show ((m.advance token).call _ m.pointer token.name).2.frames = _
  rw [call, show (m.advance token).program.findMacro? token.name = some extent from hfound]
  show (if m.limits.callDepth ≤ m.depth then _ else _ : Option Nat × Machine σ).2.frames = _
  split <;> rfl

/-- A brace ends the innermost call exactly at the end of its body. -/
theorem Turn.frames_of_brace {stop : Nat} {m m' : Machine σ} {token : Token} {site : Nat}
    {callee : Definition} {outer : List Frame} (h : Turn stop m m')
    (htoken : m.program.token? m.pointer = some token) (hkind : token.kind = .blockEnd)
    (hframes : m.frames = ⟨site, some callee⟩ :: outer) :
    m'.frames = if callee.extent.stop = m.pointer then outer else m.frames := by
  have hframes' : (m.advance token).frames = ⟨site, some callee⟩ :: outer := hframes
  rw [h.eq_turn htoken, turn_eq, step, hkind]
  show ((m.advance token).closeBlock m.pointer).2.frames = _
  rw [closeBlock, hframes']
  by_cases hstop : callee.extent.stop = m.pointer
  · simp only [if_pos hstop, leave, hframes']
  · simp only [if_neg hstop]
    rfl

/-! ## Open calls -/

/-- The open calls `frames` are of the macros at `extents`, and the pointer is in the body of
    the innermost one or at its definition. -/
inductive Bracketed (program : Program) : List Extent → List Frame → Nat → Prop where
  | outside (pointer : Nat) : Bracketed program [] [] pointer
  /-- The call is noted and its definition is next. -/
  | reaching {extent : Extent} {extents : List Extent} {site : Nat} {outer : List Frame}
      (call : Calls program site extent) (entered : ∀ f ∈ outer, f.callee ≠ none)
      (around : Bracketed program extents outer (site + 1)) :
    Bracketed program (extent :: extents) (⟨site, none⟩ :: outer) extent.definition
  | within {callee : Definition} {extents : List Extent} {site pointer : Nat} {outer : List Frame}
      (call : Calls program site callee.extent) (entered : ∀ f ∈ outer, f.callee ≠ none)
      (around : Bracketed program extents outer (site + 1))
      (low : callee.extent.definition < pointer) (high : pointer ≤ callee.extent.stop) :
    Bracketed program (callee.extent :: extents) (⟨site, some callee⟩ :: outer) pointer

theorem Calls.extent {program : Program} {site : Nat} {extent : Extent}
    (h : Calls program site extent) :
    extent.stop = Program.blockEnd program.tokens extent.definition
      ∧ ∃ token, program.token? extent.definition = some token
        ∧ token.kind = .macroDefinition := by
  obtain ⟨_, _, _, hfound⟩ := h
  exact Program.extent_of_findMacro? hfound

omit [Scope σ] in
theorem extent_definitionAt (m : Machine σ) (position : Nat) :
    (m.definitionAt position).extent
      = ⟨position, Program.blockEnd m.program.tokens position⟩ := by
  unfold definitionAt Definition.ofHeader
  split <;> rfl

omit [Scope σ] in
/-- The macro that a call leads to is entered as it stands in the program. -/
theorem Calls.extent_definitionAt {m : Machine σ} {site : Nat} {extent : Extent}
    (h : Calls m.program site extent) :
    (m.definitionAt extent.definition).extent = extent := by
  rw [m.extent_definitionAt, ← h.extent.1]

/-- A token calls one macro only. -/
theorem Calls.unique {program : Program} {site : Nat} {extent extent' : Extent}
    (h : Calls program site extent) (h' : Calls program site extent') : extent = extent' := by
  obtain ⟨token, htoken, _, hfound⟩ := h
  obtain ⟨token', htoken', _, hfound'⟩ := h'
  obtain rfl : token = token' := Option.some.inj (htoken.symm.trans htoken')
  exact Option.some.inj (hfound.symm.trans hfound')

theorem Bracketed.length_eq {program : Program} {extents : List Extent} {frames : List Frame}
    {pointer : Nat} (h : Bracketed program extents frames pointer) :
    extents.length = frames.length := by
  induction h with
  | outside pointer => rfl
  | reaching _ _ _ ih => rw [List.length_cons, ih, List.length_cons]
  | within _ _ _ _ _ ih => rw [List.length_cons, ih, List.length_cons]

theorem Calls.definition_lt_stop {program : Program} {site : Nat} {extent : Extent}
    (h : Calls program site extent) : extent.definition < extent.stop := by
  obtain ⟨hstop, token, htoken, _⟩ := h.extent
  rw [hstop]
  exact Program.lt_blockEnd (Array.getElem?_eq_some_iff.1 htoken).1

section Turn

variable {extents : List Extent} {m m' : Machine σ} {token : Token} {stop : Nat}

/-- At a token that neither defines a macro nor ends a body, the pointer can move on. -/
theorem Bracketed.forth {frames : List Frame} {pointer : Nat} {program : Program}
    (h : Bracketed program extents frames pointer)
    (htoken : program.token? pointer = some token) (hkind : token.kind ≠ .macroDefinition)
    (hbrace : token.kind = .blockEnd → ∀ site callee outer,
      frames = ⟨site, some callee⟩ :: outer → callee.extent.stop ≠ pointer) :
    Bracketed program extents frames (pointer + 1) ∧ ∀ f ∈ frames, f.callee ≠ none := by
  cases h with
  | outside pointer => exact ⟨.outside _, nofun⟩
  | reaching call entered around =>
    obtain ⟨_, definition, hdefinition, hdefines⟩ := call.extent
    rw [htoken] at hdefinition
    cases hdefinition
    exact absurd hdefines hkind
  | within call entered around low high =>
    rename_i callee extents site outer
    -- At the end of the body there is a brace or a definition.
    have hinside : pointer ≠ callee.extent.stop := by
      intro hend
      have hstop := call.extent.1
      have hsize : pointer < program.size := (Array.getElem?_eq_some_iff.1 htoken).1
      rw [hend, hstop] at hsize htoken
      obtain ⟨last, hlast, hlastKind⟩ := Program.kind_of_blockEnd hsize
      rw [htoken] at hlast
      cases hlast
      rcases hlastKind with hlastKind | hlastKind
      · exact hbrace hlastKind site callee outer rfl hend.symm
      · exact hkind hlastKind
    refine ⟨.within call entered around (by omega) (by omega), ?_⟩
    intro f hf
    rcases List.mem_cons.1 hf with rfl | hf
    · simp
    · exact entered f hf

/-- A call that is noted had room. -/
theorem Calls.opens {extent : Extent} (h : Calls m.program m.pointer extent)
    (hturn : Turn stop m m') (hframes : m'.frames = ⟨m.pointer, none⟩ :: m.frames) :
    Opens m extent := by
  refine ⟨h, ?_⟩
  by_contra hfull
  have hsame := hturn.frames_of_calls h
  rw [if_pos (Nat.not_lt.1 hfull), hframes] at hsame
  exact absurd (congrArg List.length hsame) (by simp)

omit [Scope σ] in
/-- Past the definition the pointer is in the body of the call. -/
theorem Bracketed.enter {site : Nat} {outer : List Frame}
    (h : Bracketed m.program extents (⟨site, none⟩ :: outer) m.pointer) :
    Bracketed m.program extents (⟨site, some (m.definitionAt m.pointer)⟩ :: outer)
      (m.pointer + 1) := by
  generalize hpointer : m.pointer = p at h
  cases h with
  | reaching call entered around =>
    rename_i extent extents
    have hcallee := call.extent_definitionAt
    have hwithin : Bracketed m.program
        ((m.definitionAt extent.definition).extent :: extents)
        (⟨site, some (m.definitionAt extent.definition)⟩ :: outer)
        (extent.definition + 1) :=
      .within (by rw [hcallee]; exact call) entered around (by rw [hcallee]; omega)
        (by rw [hcallee]; exact call.definition_lt_stop)
    rw [hcallee] at hwithin
    exact hwithin

/-- A body is left at its end only: before it there is no definition, and no brace counts. -/
theorem Bracketed.leave {site : Nat} {callee : Definition} {outer : List Frame}
    (h : Bracketed m.program extents (⟨site, some callee⟩ :: outer) m.pointer)
    (hturn : Turn stop m m') (htoken : m.program.token? m.pointer = some token)
    (hkind : token.kind = .macroDefinition ∨ token.kind = .blockEnd)
    (hbefore : m.frames = ⟨site, some callee⟩ :: outer) (hframes : m'.frames = outer) :
    callee.extent.stop = m.pointer ∧ ∃ extents', extents = callee.extent :: extents'
      ∧ Bracketed m.program extents' outer (site + 1) := by
  cases h with
  | within call entered around low high =>
    refine ⟨?_, _, rfl, around⟩
    by_contra hne
    rcases hkind with hkind | hkind
    · have hlt : m.pointer < Program.blockEnd m.program.tokens callee.extent.definition := by
        rw [← call.extent.1]
        omega
      exact Program.kind_ne_macroDefinition_of_lt_blockEnd low hlt htoken hkind
    · have hsame := hturn.frames_of_brace htoken hkind hbefore
      rw [if_neg hne, hframes, hbefore] at hsame
      exact absurd (congrArg List.length hsame) (by simp)

/-- What a turn does to the open calls: it keeps them, adds the call that it opens, or takes
    off one whose body ends before the program. -/
theorem Bracketed.turn (h : Bracketed m.program extents m.frames m.pointer)
    (hturn : Turn stop m m') :
    ∃ extents', Bracketed m'.program extents' m'.frames m'.pointer
      ∧ (extents' = extents ∨ (∃ extent, Opens m extent ∧ extents' = extent :: extents)
        ∨ ∃ extent, extents = extent :: extents' ∧ extent.stop < m.program.size) := by
  rw [hturn.sameSetting.program]
  obtain ⟨token, htoken, hmoves⟩ := hturn.moves
  have hsize : m.pointer < m.program.size := (Array.getElem?_eq_some_iff.1 htoken).1
  cases hmoves with
  | stay kind alone frames hidden pointer entry =>
    rw [frames, pointer]
    refine ⟨extents, (h.forth htoken kind ?_).1, .inl rfl⟩
    -- The brace at the end of the called body would have taken a frame off.
    intro hbrace site callee outer hframes hstop
    have hleft := hturn.frames_of_brace htoken hbrace hframes
    rw [if_pos hstop, frames, hframes] at hleft
    exact absurd (congrArg List.length hleft) (by simp)
  | analyse kind empty frames =>
    rw [empty] at h
    cases h
    rw [frames]
    exact ⟨[], .outside _, .inl rfl⟩
  | finish kind empty entry frames =>
    rw [empty] at h
    cases h
    rw [frames]
    exact ⟨[], .outside _, .inl rfl⟩
  | openCall extent kind found frames stack pointer entry =>
    have hcalls : Calls m.program m.pointer extent := ⟨token, htoken, kind, found⟩
    obtain ⟨haround, hentered⟩ := h.forth htoken (by simp [kind]) (by simp [kind])
    have hopens := hcalls.opens hturn frames
    rw [frames, pointer]
    exact ⟨extent :: extents, .reaching hcalls hentered haround, .inr (.inl ⟨extent, hopens, rfl⟩)⟩
  | enter callSite outer kind before frames stack pointer entry =>
    rw [before] at h
    rw [frames, pointer]
    exact ⟨extents, h.enter, .inl rfl⟩
  | leave callSite callee outer kind before frames stack pointer entry =>
    rw [before] at h
    obtain ⟨hend, extents', hextents, haround⟩ := h.leave hturn htoken kind before frames
    rw [frames, pointer]
    exact ⟨extents', haround, .inr (.inr ⟨callee.extent, hextents, hend ▸ hsize⟩)⟩
  | delegate external call frames stack halted pointer entry =>
    rw [frames, pointer]
    refine ⟨extents, (h.forth htoken ?_ ?_).1, .inl rfl⟩
    · simp [call.kind]
    · simp [call.kind]

end Turn

end HuffTrace.Machine
