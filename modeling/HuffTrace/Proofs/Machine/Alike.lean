/-
  HuffTrace.Proofs.Machine.Alike

  Machines that run alike.  What a machine does next depends on its program,
  scope, stack, memory, pointer and calls, and not on the steps it has used or
  on what it has recorded; nor does it depend on the calls around those that it
  has opened itself, as long as it does not return from them.  `Alike` relates
  two machines that differ in these respects only.  A turn of both keeps it
  (`Alike.turn`), so two runs of alike machines that both have steps enough end
  with the same stack (`Alike.stack_runTo`).
-/

import HuffTrace.Proofs.Machine.Invariant

namespace HuffTrace.Machine

variable {σ : Type} [Scope σ]

/-- The machines differ in what they have used up and recorded, and the first one has the
    calls `base` open around those of the second. -/
structure Alike (base : List Frame) (a n : Machine σ) : Prop where
  program : a.program = n.program
  scope : a.scope = n.scope
  limits : a.limits = n.limits
  stack : a.stack = n.stack
  memory : a.memory = n.memory
  pointer : a.pointer = n.pointer
  frames : a.frames = n.frames ++ base
  outerDepth : a.outerDepth + base.length = n.outerDepth
  entry : base = [] → a.entry = n.entry

section Steps

variable {base : List Frame} {a n : Machine σ}

omit [Scope σ] in
theorem Alike.depth (h : Alike base a n) : a.depth = n.depth := by
  have houter := h.outerDepth
  rw [Machine.depth, Machine.depth, h.frames, List.length_append]
  omega

omit [Scope σ] in
theorem Alike.definitionAt (h : Alike base a n) (position : Nat) :
    a.definitionAt position = n.definitionAt position := by
  rw [Machine.definitionAt, Machine.definitionAt, h.program]

omit [Scope σ] in
theorem Alike.token?_eq (h : Alike base a n) :
    a.program.token? a.pointer = n.program.token? n.pointer := by
  rw [h.program, h.pointer]

omit [Scope σ] in
theorem Alike.advance (h : Alike base a n) (token : Token) :
    Alike base (a.advance token) (n.advance token) :=
  ⟨h.program, h.scope, h.limits, h.stack, h.memory, congrArg (· + 1) h.pointer, h.frames,
    h.outerDepth, h.entry⟩

/-! ## Tokens that leave calls alone -/

omit [Scope σ] in
theorem Alike.record (h : Alike base a n) (fault fault' : Fault) :
    Alike base (a.record fault) (n.record fault') :=
  ⟨h.program, h.scope, h.limits, h.stack, h.memory, h.pointer, h.frames, h.outerDepth, h.entry⟩

omit [Scope σ] in
theorem Alike.work (h : Alike base a n) (operation : Workspace → Workspace) :
    Alike base (a.work operation) (n.work operation) := by
  have hwork : operation { stack := a.stack, memory := a.memory }
      = operation { stack := n.stack, memory := n.memory } := by
    rw [h.stack, h.memory]
  rw [work_eq, work_eq]
  exact ⟨h.program, h.scope, h.limits, congrArg (·.stack) hwork, congrArg (·.memory) hwork,
    h.pointer, h.frames, h.outerDepth, h.entry⟩

omit [Scope σ] in
theorem Alike.push (h : Alike base a n) (v : Value) : Alike base (a.push v) (n.push v) :=
  h.work _

omit [Scope σ] in
theorem Alike.runOpcode (h : Alike base a n) (opcode : Opcode) :
    Alike base (a.runOpcode opcode) (n.runOpcode opcode) := by
  rw [Machine.runOpcode, h.limits]
  exact h.work _

omit [Scope σ] in
theorem Alike.mark (h : Alike base a n) (label : String) :
    Alike base { a with stack := a.stack.mark label } { n with stack := n.stack.mark label } :=
  ⟨h.program, h.scope, h.limits, congrArg (·.mark label) h.stack, h.memory, h.pointer, h.frames,
    h.outerDepth, h.entry⟩

theorem Alike.selectorOf (h : Alike base a n) (kind : SignatureKind) (argument : List Char) :
    a.selectorOf kind argument = n.selectorOf kind argument := by
  rw [Machine.selectorOf, Machine.selectorOf, findSignature?, findSignature?, h.program, h.scope]

theorem Alike.runBuiltin (h : Alike base a n) (token : Token) (builtin : Builtin) :
    Alike base (a.runBuiltin token builtin) (n.runBuiltin token builtin) := by
  cases builtin with
  | selector kind =>
    rw [Machine.runBuiltin, Machine.runBuiltin, h.selectorOf]
    exact h.push _
  | verbatim => exact h
  | _ => exact h.push _

/-! ## Definitions and braces -/

omit [Scope σ] in
theorem define_of_nil {m : Machine σ} (position : Nat) (token : Token) (h : m.frames = []) :
    ∃ faults, (m.define position token).2 = { m with
      faults
      stack := (m.stack.reset (m.definitionAt position).inputs).clearLabels
      memory := .empty
      entry := some (m.definitionAt position) } := by
  simp only [define, foldl_record, h]
  exact ⟨_, rfl⟩

omit [Scope σ] in
theorem define_of_reaching {m : Machine σ} {site : Nat} {outer : List Frame} (position : Nat)
    (token : Token) (h : m.frames = ⟨site, none⟩ :: outer) :
    ∃ faults, (m.define position token).2 = { m with
      faults
      stack := m.stack.hide (m.definitionAt position).takes
      frames := ⟨site, some (m.definitionAt position)⟩ :: outer } := by
  obtain ⟨faults, hnoted⟩ := noted_eq m position token
  rw [define_reaching m position token h, hnoted]
  exact ⟨faults, rfl⟩

omit [Scope σ] in
theorem leave_of_cons {m : Machine σ} {frame : Frame} {outer : List Frame}
    (h : m.frames = frame :: outer) :
    ∃ line, m.leave.2 = { m with
      line
      frames := outer
      stack := m.stack.reveal ((frame.callee.map (·.returns)).getD 0)
      pointer := frame.callSite + 1 } :=
  ⟨_, congrArg (·.2) (leave_eq m h)⟩

omit [Scope σ] in
theorem define_of_within {m : Machine σ} {site : Nat} {callee : Definition} {outer : List Frame}
    (position : Nat) (token : Token) (h : m.frames = ⟨site, some callee⟩ :: outer) :
    ∃ faults, (m.define position token).2 = ({ m with faults } : Machine σ).leave.2 := by
  obtain ⟨faults, hnoted⟩ := noted_eq m position token
  exact ⟨faults, by rw [define_within m position token h, hnoted]⟩

omit [Scope σ] in
/-- Both return from the same call. -/
theorem Alike.leave (h : Alike base a n) (hopen : n.frames ≠ []) :
    Alike base a.leave.2 n.leave.2 := by
  obtain ⟨frame, outer, hn⟩ := List.exists_cons_of_ne_nil hopen
  have ha : a.frames = frame :: (outer ++ base) := by rw [h.frames, hn, List.cons_append]
  obtain ⟨line, hleave⟩ := leave_of_cons ha
  obtain ⟨line', hleave'⟩ := leave_of_cons hn
  rw [hleave, hleave']
  have hstack : a.stack.reveal ((frame.callee.map (·.returns)).getD 0)
      = n.stack.reveal ((frame.callee.map (·.returns)).getD 0) := by
    rw [h.stack]
  exact ⟨h.program, h.scope, h.limits, hstack, h.memory, rfl, rfl, h.outerDepth, h.entry⟩

omit [Scope σ] in
/-- A definition acts alike unless it ends the innermost call of `base`. -/
theorem Alike.define (h : Alike base a n) (position : Nat) (token : Token)
    (hbase : n.frames = [] → base = []) :
    Alike base (a.define position token).2 (n.define position token).2 := by
  cases hn : n.frames with
  | nil =>
    obtain rfl := hbase hn
    obtain ⟨faults, hdefine⟩ := define_of_nil position token (h.frames.trans (by rw [hn]; rfl))
    obtain ⟨faults', hdefine'⟩ := define_of_nil position token hn
    rw [hdefine, hdefine', h.definitionAt]
    have hstack : (a.stack.reset (n.definitionAt position).inputs).clearLabels
        = (n.stack.reset (n.definitionAt position).inputs).clearLabels := by
      rw [h.stack]
    exact ⟨h.program, h.scope, h.limits, hstack, rfl, h.pointer, h.frames, h.outerDepth,
      fun _ => rfl⟩
  | cons frame outer =>
    have ha : a.frames = frame :: (outer ++ base) := by rw [h.frames, hn, List.cons_append]
    obtain ⟨site, callee⟩ := frame
    cases callee with
    | none =>
      obtain ⟨faults, hdefine⟩ := define_of_reaching position token ha
      obtain ⟨faults', hdefine'⟩ := define_of_reaching position token hn
      rw [hdefine, hdefine', h.definitionAt]
      have hstack : a.stack.hide (n.definitionAt position).takes
          = n.stack.hide (n.definitionAt position).takes := by
        rw [h.stack]
      exact ⟨h.program, h.scope, h.limits, hstack, h.memory, h.pointer, rfl, h.outerDepth,
        h.entry⟩
    | some callee =>
      obtain ⟨faults, hdefine⟩ := define_of_within position token ha
      obtain ⟨faults', hdefine'⟩ := define_of_within position token hn
      rw [hdefine, hdefine']
      have hfaults : Alike base { a with faults } { n with faults := faults' } :=
        ⟨h.program, h.scope, h.limits, h.stack, h.memory, h.pointer, h.frames, h.outerDepth,
          h.entry⟩
      apply hfaults.leave
      show n.frames ≠ []
      rw [hn]
      exact List.cons_ne_nil _ _

omit [Scope σ] in
/-- A brace acts alike unless it ends the innermost call of `base`. -/
theorem Alike.closeBlock (h : Alike base a n) (position : Nat)
    (hbase : n.frames = [] → base = [] ∨ n.entry = none ∧ ∃ site callee outer,
      base = ⟨site, some callee⟩ :: outer ∧ callee.extent.stop ≠ position) :
    Alike base (a.closeBlock position).2 (n.closeBlock position).2 := by
  cases hn : n.frames with
  | nil =>
    rcases hbase hn with rfl | ⟨hentry, site, callee, outer, rfl, hstop⟩
    · have ha : a.frames = [] := by rw [h.frames, hn]; rfl
      cases hentry : n.entry with
      | none =>
        simp only [Machine.closeBlock, ha, hn, (h.entry rfl).trans hentry, hentry]
        exact h
      | some entry =>
        simp only [Machine.closeBlock, ha, hn, (h.entry rfl).trans hentry, hentry]
        have hstack : a.stack.reveal entry.returns = n.stack.reveal entry.returns := by
          rw [h.stack]
        split
        · exact ⟨h.program, h.scope, h.limits, hstack, h.memory, h.pointer, rfl, h.outerDepth,
            fun _ => rfl⟩
        · exact ⟨h.program, h.scope, h.limits, h.stack, h.memory, h.pointer, rfl, h.outerDepth,
            fun _ => rfl⟩
    · have ha : a.frames = ⟨site, some callee⟩ :: outer := by rw [h.frames, hn]; rfl
      simp only [Machine.closeBlock, ha, hn, hentry, if_neg hstop]
      exact h
  | cons frame outer =>
    have hopen : n.frames ≠ [] := by rw [hn]; exact List.cons_ne_nil _ _
    have ha : a.frames = frame :: (outer ++ base) := by rw [h.frames, hn, List.cons_append]
    obtain ⟨site, callee⟩ := frame
    cases callee with
    | none =>
      simp only [Machine.closeBlock, ha, hn]
      exact h
    | some callee =>
      simp only [Machine.closeBlock, ha, hn]
      split
      · exact h.leave hopen
      · exact h

/-! ## Calls -/

omit [Scope σ] in
/-- The machines that both start for the same macro are alike. -/
theorem Alike.callee (h : Alike base a n) (takes : Nat) (external : External σ) :
    Alike [] (a.callee takes external) (n.callee takes external) := by
  have hstack : a.stack.hide takes = n.stack.hide takes := by rw [h.stack]
  have hdepth : a.depth + 1 = n.depth + 1 := by rw [h.depth]
  exact ⟨rfl, rfl, h.limits, hstack, rfl, rfl, rfl, hdepth, fun _ => rfl⟩

/-- A call acts alike if the machines that it starts end with the same stack. -/
theorem Alike.call (h : Alike base a n) {run : Nat → Machine σ → Machine σ} (position : Nat)
    (name : String)
    (hrun : ∀ external, n.depth < n.limits.callDepth → n.program.findMacro? name = none →
      Scope.findMacro? n.scope name = some external →
      (run external.extent.stop (a.callee (takesOf external) external)).stack
        = (run external.extent.stop (n.callee (takesOf external) external)).stack) :
    Alike base (a.call run position name).2 (n.call run position name).2 := by
  by_cases hroom : n.limits.callDepth ≤ n.depth
  · have hroom' : a.limits.callDepth ≤ a.depth := by rw [h.limits, h.depth]; exact hroom
    rw [Machine.call, Machine.call, if_pos hroom, if_pos hroom']
    exact h.record _ _
  have hroom' : ¬a.limits.callDepth ≤ a.depth := by rw [h.limits, h.depth]; exact hroom
  rw [Machine.call, Machine.call, if_neg hroom, if_neg hroom']
  cases hown : n.program.findMacro? name with
  | some extent =>
    have hown' : a.program.findMacro? name = some extent := by rw [h.program, hown]
    have hframes : (⟨position, none⟩ :: a.frames : List Frame)
        = (⟨position, none⟩ :: n.frames) ++ base := by
      rw [h.frames, List.cons_append]
    simp only [hown']
    exact ⟨h.program, h.scope, h.limits, h.stack, h.memory, rfl, hframes, h.outerDepth, h.entry⟩
  | none =>
    have hown' : a.program.findMacro? name = none := by rw [h.program, hown]
    simp only [hown']
    cases hfound : Scope.findMacro? n.scope name with
    | none =>
      have hfound' : Scope.findMacro? a.scope name = none := by rw [h.scope, hfound]
      simp only [hfound']
      exact h.record _ _
    | some external =>
      have hfound' : Scope.findMacro? a.scope name = some external := by rw [h.scope, hfound]
      have hstack := congrArg (fun s : Stack => s.reveal (returnsOf external))
        (hrun external (Nat.lt_of_not_le hroom) hown hfound)
      simp only [hfound', callExternal, foldl_record]
      exact ⟨h.program, h.scope, h.limits, hstack, h.memory, h.pointer, h.frames, h.outerDepth,
        h.entry⟩

/-! ## Steps -/

/-- Outside of its own calls, the machine is at a token that does not end the innermost call
    of `base`. -/
def Screened (base : List Frame) (n : Machine σ) (position : Nat) (token : Token) : Prop :=
  n.frames = [] → base = [] ∨ token.kind ≠ .macroDefinition ∧ n.entry = none
    ∧ ∃ site callee outer, base = ⟨site, some callee⟩ :: outer ∧ callee.extent.stop ≠ position

theorem Alike.step (h : Alike base a n) {run : Nat → Machine σ → Machine σ} {position : Nat}
    {token : Token} (hscreened : Screened base n position token)
    (hrun : ∀ external, token.kind = .call → n.depth < n.limits.callDepth →
      n.program.findMacro? token.name = none →
      Scope.findMacro? n.scope token.name = some external →
      (run external.extent.stop (a.callee (takesOf external) external)).stack
        = (run external.extent.stop (n.callee (takesOf external) external)).stack) :
    Alike base (a.step run position token).2 (n.step run position token).2 := by
  cases hkind : token.kind with
  | macroDefinition =>
    simp only [Machine.step, hkind]
    apply h.define
    intro hempty
    exact (hscreened hempty).resolve_right fun hother => hother.1 hkind
  | call =>
    simp only [Machine.step, hkind]
    exact h.call position token.name fun external => hrun external hkind
  | blockEnd =>
    simp only [Machine.step, hkind]
    apply h.closeBlock
    intro hempty
    exact (hscreened hempty).imp_right (·.2)
  | label =>
    simp only [Machine.step, hkind]
    exact h.mark token.name
  | literal | constant | argument | reference =>
    simp only [Machine.step, hkind]
    exact h.push _
  | builtin builtin =>
    simp only [Machine.step, hkind]
    exact h.runBuiltin token builtin
  | opcode opcode =>
    simp only [Machine.step, hkind]
    exact h.runOpcode opcode
  | interface kind =>
    simp only [Machine.step, hkind]
    split
    · exact h
    · exact h.record _ _
  | constantDefinition | tableDefinition | inclusion | blockStart =>
    simp only [Machine.step, hkind]
    exact h

end Steps

/-! ## Turns -/

/-- A turn of both keeps machines alike, if neither halts and the machines that they start end
    with the same stack. -/
theorem Alike.turn {base : List Frame} {stop stop' : Nat} {a a' n n' : Machine σ}
    (h : Alike base a n) (ha : Turn stop a a') (hn : Turn stop' n n') (hgoing : a'.halted = false)
    (hgoing' : n'.halted = false)
    (hscreened : ∀ token, n.program.token? n.pointer = some token →
      Screened base n n.pointer token)
    (hruns : ∀ token external, Delegates a token external →
      ((a.nested token external).runTo external.extent.stop).halted = false →
      ((n.nested token external).runTo external.extent.stop).halted = false →
      ((a.nested token external).runTo external.extent.stop).stack
        = ((n.nested token external).runTo external.extent.stop).stack) :
    Alike base a' n' := by
  obtain ⟨token, htoken, rfl⟩ := hn.turned
  have htoken' : a.program.token? a.pointer = some token := h.token?_eq.trans htoken
  obtain rfl := ha.eq_turn htoken'
  have hstep : Alike base
      ((a.advance token).step (fun stop n => n.runTo stop) a.pointer token).2
      ((n.advance token).step (fun stop n => n.runTo stop) n.pointer token).2 := by
    rw [h.pointer]
    refine (h.advance token).step (hscreened token htoken) ?_
    intro external hkind hroom hmissing hfound
    have call' : Delegates n token external := ⟨htoken, hkind, hroom, hmissing, hfound⟩
    have call : Delegates a token external := by
      refine ⟨htoken', hkind, ?_, ?_, ?_⟩
      · rw [h.limits, h.depth]
        exact hroom
      · rw [h.program]
        exact hmissing
      · rw [h.scope]
        exact hfound
    -- Had one of the started machines halted, the turn would have halted as well.
    rw [(call.turn_eq _).2.2, Bool.or_eq_false_iff] at hgoing
    rw [(call'.turn_eq _).2.2, Bool.or_eq_false_iff] at hgoing'
    exact hruns token external call hgoing.2 hgoing'.2
  rw [turn_eq, turn_eq (m := n)]
  exact ⟨hstep.program, hstep.scope, hstep.limits, hstep.stack, hstep.memory, hstep.pointer,
    hstep.frames, hstep.outerDepth, hstep.entry⟩

/-! ## Runs -/

omit [Scope σ] in
theorem Alike.rests_iff {stop : Nat} {a n : Machine σ} (h : Alike [] a n) :
    Rests stop a ↔ Rests stop n := by
  rw [Rests, Rests, h.token?_eq, h.frames, List.append_nil, h.pointer]

/-- Two alike runs that both have steps enough end with the same stack. -/
theorem Alike.stack_runTo {stop : Nat} {a n : Machine σ} (h : Alike [] a n)
    (ha : a.halted = false) (hn : n.halted = false) (hdone : (a.runTo stop).halted = false)
    (hdone' : (n.runTo stop).halted = false) : (a.runTo stop).stack = (n.runTo stop).stack := by
  -- The machines that a turn starts, and the machine after it, have fewer steps left.
  induction hleft : a.limits.steps - a.steps using Nat.strongRecOn generalizing a n stop with
  | ind left ih =>
    by_cases hrests : Rests stop a
    · rw [hrests.runTo_eq, (h.rests_iff.1 hrests).runTo_eq]
      exact h.stack
    obtain ⟨a', hturn, hgoing, hrun⟩ := exists_turn ha hrests hdone
    obtain ⟨n', hturn', hgoing', hrun'⟩ :=
      exists_turn hn (fun hrests' => hrests (h.rests_iff.2 hrests')) hdone'
    rw [hrun] at hdone ⊢
    rw [hrun'] at hdone' ⊢
    have hbudget := hturn.budget
    have hsteps := hturn.steps_lt
    have hnext : Alike [] a' n' := by
      refine h.turn hturn hturn' hgoing hgoing' (fun _ _ _ => .inl rfl) ?_
      intro token external call hended hended'
      refine ih (a.limits.steps - (a.steps + 1)) (by omega) ?_ rfl rfl hended hended' rfl
      exact (h.advance token).callee (takesOf external) external
    exact ih (a'.limits.steps - a'.steps) (by rw [hturn.sameSetting.limits]; omega) hnext hgoing
      hgoing' hdone hdone' rfl

end HuffTrace.Machine
