/-
  HuffTrace.Proofs.Machine.Callee

  Hidden values do not influence a callee.  Two machines are about to execute
  the same call of a macro of their program, and of their stacks they share the
  inputs of the macro and what is remembered for labels; what lies below may
  differ in values, in number and in the calls that have hidden it
  (`SameCallSite`).  Once the body is entered they have the same view, and they
  keep it until the call returns.  So both execute the same tokens up to the
  return and record the same on the way (`callee_noninterference`).
-/

import HuffTrace.Proofs.Machine.Bracket
import HuffTrace.Proofs.Machine.View

namespace HuffTrace.Machine

variable {σ : Type} [Scope σ]

/-! ## The course of a call -/

/-- The loop up to `stop` leads from the first machine to the second one, with more than `level`
    calls open after each of its turns, and executes a token at each of the heads, in order. -/
inductive Course (stop level : Nat) : Machine σ → List (Machine σ) → Machine σ → Prop where
  | here (m : Machine σ) : Course stop level m [] m
  | alone {m m' n : Machine σ} {rest : List (Machine σ)} (turn : Turn stop m m')
      (opened : level < m'.frames.length) (alone : ∀ token external, ¬Delegates m token external)
      (onwards : Course stop level m' rest n) : Course stop level m (m :: rest) n
  | delegate {m m' n : Machine σ} {token : Token} {external : External σ}
      {inner rest : List (Machine σ)} (turn : Turn stop m m') (opened : level < m'.frames.length)
      (call : Delegates m token external)
      (nested : Visits external.extent.stop (m.nested token external) inner)
      (onwards : Course stop level m' rest n) : Course stop level m (m :: (inner ++ rest)) n

/-- With other records before its own, a machine takes the same course. -/
theorem Course.following {stop level : Nat} {m n : Machine σ} {heads : List (Machine σ)}
    (h : Course stop level m heads n) (comments : Array Comment) (faults : Diagnostics Fault) :
    ∃ heads', Course stop level (m.following comments faults) heads' (n.following comments faults)
      ∧ heads'.map place = heads.map place := by
  induction h with
  | here m => exact ⟨[], .here _, rfl⟩
  | alone turn opened alone _ ih =>
    obtain ⟨rest, hrest, hplaces⟩ := ih
    refine ⟨_, .alone (turn.following comments faults) opened (fun token external call => ?_) hrest,
      ?_⟩
    · exact alone token external ⟨call.here, call.kind, call.room, call.missing, call.found⟩
    · rw [List.map_cons, List.map_cons, hplaces]
      rfl
  | delegate turn opened call nested _ ih =>
    obtain ⟨rest, hrest, hplaces⟩ := ih
    refine ⟨_, .delegate (turn.following comments faults) opened
      ⟨call.here, call.kind, call.room, call.missing, call.found⟩ nested hrest, ?_⟩
    rw [List.map_cons, List.map_cons, List.map_append, List.map_append, hplaces]
    rfl

/-- Two machines take the same course while more calls than `outer` and `outer'` are open, up to
    where neither goes on or both return to these calls with the same visible values and faults. -/
def SameCourse (stop stop' : Nat) (outer outer' : List Frame) (m n : Machine σ) : Prop :=
  ∃ heads heads' m' n', Course stop outer.length m heads m' ∧ Course stop' outer'.length n heads' n'
    ∧ heads'.map place = heads.map place ∧ n'.bare = m'.bare ∧ m'.frames ≠ [] ∧ n'.frames ≠ []
    ∧ ((∀ m'', ¬Turn stop m' m'') ∨ n'.stack.visible = m'.stack.visible
      ∧ ∃ m'' n'', Turn stop m' m'' ∧ Turn stop' n' n'' ∧ m''.frames = outer ∧ n''.frames = outer'
        ∧ n''.faults = m''.faults)

section Prepend

variable {stop stop' : Nat} {outer outer' : List Frame} {m m' n n' : Machine σ}

theorem SameCourse.alone (h : SameCourse stop stop' outer outer' m' n') (hturn : Turn stop m m')
    (hturn' : Turn stop' n n') (hopened : outer.length < m'.frames.length)
    (hopened' : outer'.length < n'.frames.length)
    (halone : ∀ token external, ¬Delegates m token external)
    (halone' : ∀ token external, ¬Delegates n token external) (hplace : n.place = m.place) :
    SameCourse stop stop' outer outer' m n := by
  obtain ⟨heads, heads', a, b, hcourse, hcourse', hplaces, hends⟩ := h
  refine ⟨m :: heads, n :: heads', a, b, .alone hturn hopened halone hcourse,
    .alone hturn' hopened' halone' hcourse', ?_, hends⟩
  rw [List.map_cons, List.map_cons, hplaces, hplace]

theorem SameCourse.delegate (h : SameCourse stop stop' outer outer' m' n') (hturn : Turn stop m m')
    (hturn' : Turn stop' n n') (hopened : outer.length < m'.frames.length)
    (hopened' : outer'.length < n'.frames.length) {token : Token} {external : External σ}
    {visited visited' : List (Machine σ)} (call : Delegates m token external)
    (call' : Delegates n token external)
    (hvisits : Visits external.extent.stop (m.nested token external) visited)
    (hvisits' : Visits external.extent.stop (n.nested token external) visited')
    (hvisited : visited'.map place = visited.map place) (hplace : n.place = m.place) :
    SameCourse stop stop' outer outer' m n := by
  obtain ⟨heads, heads', a, b, hcourse, hcourse', hplaces, hends⟩ := h
  refine ⟨m :: (visited ++ heads), n :: (visited' ++ heads'), a, b,
    .delegate hturn hopened call hvisits hcourse, .delegate hturn' hopened' call' hvisits' hcourse',
    ?_, hends⟩
  rw [List.map_cons, List.map_cons, List.map_append, List.map_append, hplaces, hvisited, hplace]

end Prepend

/-! ## Single turns -/

/-- The machine that has noted a call, before the definition that the call leads to. -/
def opening (m : Machine σ) (token : Token) (extent : Extent) : Machine σ :=
  { m.advance token with
    frames := ⟨m.pointer, none⟩ :: m.frames
    pointer := extent.definition }

section Turn

variable {m : Machine σ} {token : Token} {extent : Extent} {site : Nat} {callee : Definition}
  {rest : List Frame} (run : Nat → Machine σ → Machine σ)

theorem turn_of_opens (hkind : token.kind = .call)
    (hfound : m.program.findMacro? token.name = some extent)
    (hroom : m.depth < m.limits.callDepth) :
    m.turn run token = m.opening token extent := by
  have hroom' : ¬(m.advance token).limits.callDepth ≤ (m.advance token).depth :=
    Nat.not_le.2 hroom
  have hfound' : (m.advance token).program.findMacro? token.name = some extent := hfound
  simp only [turn, step, hkind, call, if_neg hroom', hfound']
  rfl

theorem turn_of_refused (hkind : token.kind = .call) (hdeep : m.limits.callDepth ≤ m.depth) :
    m.turn run token
      = ((m.advance token).record (.callDepthExceeded token.name m.limits.callDepth)).comment
          m.pointer := by
  have hdeep' : (m.advance token).limits.callDepth ≤ (m.advance token).depth := hdeep
  simp only [turn, step, hkind, call, if_pos hdeep']
  rfl

theorem turn_of_reaching (hkind : token.kind = .macroDefinition)
    (hframes : m.frames = ⟨site, none⟩ :: rest) :
    m.turn run token
      = ({ (m.advance token).noted m.pointer token with
            stack := m.stack.hide (m.definitionAt m.pointer).takes
            frames := ⟨site, some (m.definitionAt m.pointer)⟩ :: rest } : Machine σ).comment
          m.pointer := by
  have hframes' : (m.advance token).frames = ⟨site, none⟩ :: rest := hframes
  simp only [turn, step, hkind, define_reaching _ m.pointer token hframes']
  rfl

/-- A return records the flaws of the definition that it is at, if any, and nothing else. -/
theorem turn_of_returning (hframes : m.frames = ⟨site, some callee⟩ :: rest)
    (hkind : token.kind = .macroDefinition
      ∨ token.kind = .blockEnd ∧ callee.extent.stop = m.pointer) :
    (m.turn run token).frames = rest
      ∧ (m.turn run token).faults
        = if token.kind = .macroDefinition then ((m.advance token).noted m.pointer token).faults
          else m.faults := by
  have hframes' : (m.advance token).frames = ⟨site, some callee⟩ :: rest := hframes
  rcases hkind with hkind | ⟨hkind, hstop⟩
  · -- The definition ends a body that was never closed, after its own header has been checked.
    obtain ⟨faults, hnoted⟩ := noted_eq (m.advance token) m.pointer token
    have hframes'' : ((m.advance token).noted m.pointer token).frames
        = ⟨site, some callee⟩ :: rest := by rw [hnoted]; exact hframes'
    rw [turn_eq, step, hkind]
    simp only [define_within _ m.pointer token hframes', leave_eq _ hframes'', if_pos]
    exact ⟨trivial, trivial⟩
  · rw [turn_eq, step, hkind]
    simp only [closeBlock, hframes', if_pos hstop, leave_eq _ hframes']
    exact ⟨trivial, rfl⟩

end Turn

/-! ## The body of a called macro -/

section Body

variable {site : Nat} {callee : Definition} {rest rest' : List Frame}
  {base base' : List (List Value)} {m m' n n' : Machine σ} {stop stop' : Nat} {token : Token}

/-- Both return at the same token, with the same faults. -/
theorem SameView.returning
    (h : SameView (⟨site, some callee⟩ :: rest) (⟨site, some callee⟩ :: rest') base base' m n)
    (hm : Turn stop m m') (hn : Turn stop' n n')
    (htoken : m.program.token? m.pointer = some token)
    (hframes : m.frames = ⟨site, some callee⟩ :: rest)
    (hkind : token.kind = .macroDefinition
      ∨ token.kind = .blockEnd ∧ callee.extent.stop = m.pointer) :
    m'.frames = rest ∧ n'.frames = rest' ∧ n'.faults = m'.faults := by
  obtain ⟨hrest, hfaults⟩ := turn_of_returning (fun stop d => d.runTo stop) hframes hkind
  obtain ⟨hrest', hfaults'⟩ := turn_of_returning (fun stop d => d.runTo stop)
    (h.frames_of_outer hframes) (h.pointer ▸ hkind)
  rw [hm.eq_turn htoken, hn.eq_turn (h.token?_eq.trans htoken)]
  refine ⟨hrest, hrest', ?_⟩
  rw [hfaults, hfaults', h.pointer,
    show ((n.advance token).noted m.pointer token).faults = _ from
      congrArg (·.faults) ((h.advance token).noted m.pointer token).bare,
    show n.faults = m.faults from congrArg (·.faults) h.bare]
  rfl

omit [Scope σ] in
/-- Before the return, a machine is shielded from the calls around it. -/
theorem shielded_of_not_returning
    (h : ¬(m.frames = ⟨site, some callee⟩ :: rest ∧ (token.kind = .macroDefinition
      ∨ token.kind = .blockEnd ∧ callee.extent.stop = m.pointer))) :
    Shielded (⟨site, some callee⟩ :: rest) (⟨site, some callee⟩ :: rest') m m.pointer token := by
  intro hframes
  refine ⟨fun hkind => h ⟨hframes, .inl hkind⟩, .inr ⟨site, callee, rest, rest', rfl, rfl, ?_⟩⟩
  exact fun hkind hstop => h ⟨hframes, .inr ⟨hkind, hstop⟩⟩

omit [Scope σ] in
/-- The call is open in both. -/
theorem SameView.length_lt
    (h : SameView (⟨site, some callee⟩ :: rest) (⟨site, some callee⟩ :: rest') base base' m n) :
    rest.length < m.frames.length ∧ rest'.length < n.frames.length := by
  obtain ⟨inner, _, hm, hn, _, _⟩ := h.calls
  rw [hm, hn, List.length_append, List.length_append, List.length_cons, List.length_cons]
  omega

/-- From the same view of the body, both take the same course until the call returns. -/
theorem SameView.sameCourse (stop stop' : Nat)
    (h : SameView (⟨site, some callee⟩ :: rest) (⟨site, some callee⟩ :: rest') base base' m n) :
    SameCourse stop stop' rest rest' m n := by
  -- Every turn uses up a step, and the induction is on the steps left.
  induction hleft : m.limits.steps - m.steps using Nat.strongRecOn generalizing m n with
  | ind left ih =>
    have hopen : m.frames ≠ [] := List.ne_nil_of_length_pos (Nat.zero_lt_of_lt h.length_lt.1)
    have hopen' : n.frames ≠ [] := List.ne_nil_of_length_pos (Nat.zero_lt_of_lt h.length_lt.2)
    by_cases hturns : ∃ m₁, Turn stop m m₁
    swap
    · exact ⟨[], [], m, n, .here m, .here n, rfl, h.bare, hopen, hopen', .inl (not_exists.1 hturns)⟩
    obtain ⟨m₁, hturn⟩ := hturns
    obtain ⟨n₁, hturn'⟩ : ∃ n₁, Turn stop' n n₁ :=
      exists_turn_of_bare h.bare (fun hends => absurd hends.1 hopen') hturn
    obtain ⟨token, htoken, -⟩ := hturn.turned
    by_cases hreturns : m.frames = ⟨site, some callee⟩ :: rest ∧ (token.kind = .macroDefinition
        ∨ token.kind = .blockEnd ∧ callee.extent.stop = m.pointer)
    · exact ⟨[], [], m, n, .here m, .here n, rfl, h.bare, hopen, hopen', .inr ⟨h.visible, m₁, n₁,
        hturn, hturn', h.returning hturn hturn' htoken hreturns.1 hreturns.2⟩⟩
    -- The call stays open: the turn keeps the view, and the rest follows by induction.
    have hnext := h.next hturn hturn' fun token' htoken' => by
      obtain rfl : token = token' := Option.some.inj (htoken.symm.trans htoken')
      exact shielded_of_not_returning hreturns
    obtain ⟨hopened, hopened'⟩ := hnext.length_lt
    have hbudget := hturn.budget
    have hsteps := hturn.steps_lt
    have hcourse := ih _ (by rw [hturn.sameSetting.limits]; omega) hnext rfl
    by_cases hcall : ∃ token external, Delegates m token external
    · obtain ⟨token, external, call⟩ := hcall
      obtain ⟨visited, hvisits⟩ := exists_visits external.extent.stop (m.nested token external)
      obtain ⟨_, _, hnested⟩ := h.exists_nested token external
      obtain ⟨visited', hvisits', hvisited⟩ :=
        SameView.visits hvisits hnested (confined_nested m token external)
      exact hcourse.delegate hturn hturn' hopened hopened' call (h.delegates call) hvisits hvisits'
        hvisited (place_of_bare h.bare)
    · exact hcourse.alone hturn hturn' hopened hopened'
        (fun token external call => hcall ⟨token, external, call⟩)
        (fun token external call => hcall ⟨token, external, h.symm.delegates call⟩)
        (place_of_bare h.bare)

end Body

/-! ## The two calls side by side -/

/-- The machines are about to execute the same call of a macro of their program.  Their stacks
    agree on the inputs of the macro and on what is remembered for labels, and may differ below. -/
structure SameCallSite (a b : Machine σ) (extent : Extent) : Prop where
  call : Calls a.program a.pointer extent
  program : b.program = a.program
  scope : b.scope = a.scope
  limits : b.limits = a.limits
  pointer : b.pointer = a.pointer
  steps : b.steps = a.steps
  depth : b.depth = a.depth
  recording : b.recording = a.recording
  memory : b.memory = a.memory
  going : a.halted = false ∧ b.halted = false
  inputs : b.stack.visible.take (a.definitionAt extent.definition).takes
    = a.stack.visible.take (a.definitionAt extent.definition).takes
  labels : ∀ label, b.stack.labels.find? label = a.stack.labels.find? label
  pending : ∀ label, b.stack.pending.find? label = a.stack.pending.find? label

/-- The next turn ends the call of both machines, at the same token, with the same faults recorded
    since `a` and `b` and, unless the calls were too deep to be made, the same visible values. -/
structure ReturnsAlike (stop stop' : Nat) (a a' b b' : Machine σ) : Prop where
  next : ∃ a'' b'', Turn stop a' a'' ∧ Turn stop' b' b'' ∧ a''.frames = a.frames
    ∧ b''.frames = b.frames
    ∧ ∃ found, a''.faults = a.faults.addAll found ∧ b''.faults = b.faults.addAll found
  place : b'.place = a'.place
  visible : a.depth < a.limits.callDepth → b'.stack.visible = a'.stack.visible

/-- Neither loop takes another turn, and both end alike. -/
structure StopsAlike (stop stop' : Nat) (a a' b b' : Machine σ) : Prop where
  ends : (∀ a'', ¬Turn stop a' a'') ∧ ∀ b'', ¬Turn stop' b' b''
  halted : (ending stop' b').halted = (ending stop a').halted
  adds : AddsAlike a (ending stop a') b (ending stop' b')

section Call

variable {a b : Machine σ} {extent : Extent} {stop stop' : Nat} {token : Token}

omit [Scope σ] in
theorem bare_noted (m : Machine σ) (position : Nat) (token : Token) :
    (m.noted position token).bare = m.bare.noted position token := by
  rw [noted, noted, foldl_record, foldl_record]
  rfl

/-- At the definition that the calls lead to, both enter the body with the same view. -/
theorem sameView_entered {m n : Machine σ} {site : Nat} {rest rest' : List Frame}
    (run : Nat → Machine σ → Machine σ) (hkind : token.kind = .macroDefinition)
    (hbare : n.bare = m.bare) (hm : m.frames = ⟨site, none⟩ :: rest)
    (hn : n.frames = ⟨site, none⟩ :: rest')
    (hdepth : n.outerDepth + rest'.length = m.outerDepth + rest.length)
    (hinputs : n.stack.visible.take (m.definitionAt m.pointer).takes
      = m.stack.visible.take (m.definitionAt m.pointer).takes)
    (hlabels : ∀ label, n.stack.labels.find? label = m.stack.labels.find? label)
    (hpending : ∀ label, n.stack.pending.find? label = m.stack.pending.find? label) :
    ∃ base base', SameView (⟨site, some (m.definitionAt m.pointer)⟩ :: rest)
      (⟨site, some (m.definitionAt m.pointer)⟩ :: rest') base base' (m.turn run token)
      (n.turn run token) := by
  have hpointer : n.pointer = m.pointer := congrArg (·.pointer) hbare
  have hprogram : n.program = m.program := congrArg (·.program) hbare
  have hdefinition : n.definitionAt m.pointer = m.definitionAt m.pointer := by
    rw [definitionAt, definitionAt, hprogram]
  refine ⟨m.stack.visible.drop (m.definitionAt m.pointer).takes :: m.stack.hidden,
    n.stack.visible.drop (m.definitionAt m.pointer).takes :: n.stack.hidden, ?_⟩
  rw [turn_of_reaching run hkind hm, turn_of_reaching run hkind hn, hpointer, hdefinition]
  apply SameView.comment
  obtain ⟨faults, hnoted⟩ := noted_eq (m.advance token) m.pointer token
  obtain ⟨faults', hnoted'⟩ := noted_eq (n.advance token) m.pointer token
  -- No call of the callee's own is open yet: the inputs are all that is visible, and what the
  -- call hides is the bottom of each stack.
  refine ⟨?_, ⟨[], [], rfl, rfl, ⟨hinputs, ⟨rfl, rfl⟩, ?_, ?_⟩, Nat.zero_le _⟩, ?_,
    fun hnil => absurd hnil (List.cons_ne_nil _ _)⟩
  · show ((n.advance token).noted m.pointer token).bare
      = ((m.advance token).noted m.pointer token).bare
    rw [bare_noted, bare_noted, show (n.advance token).bare = (m.advance token).bare from
      congrArg (·.advance token) hbare]
  · exact hlabels
  · exact hpending
  · show ((n.advance token).noted m.pointer token).outerDepth + (rest'.length + 1)
      = ((m.advance token).noted m.pointer token).outerDepth + (rest.length + 1)
    rw [hnoted, hnoted']
    show n.outerDepth + (rest'.length + 1) = m.outerDepth + (rest.length + 1)
    omega

omit [Scope σ] in
theorem SameCallSite.bare_advance (h : SameCallSite a b extent) (token : Token) :
    (b.blank.advance token).bare = (a.blank.advance token).bare := by
  simp only [advance, blank, bare, h.program, h.scope, h.limits, h.pointer, h.steps, h.recording,
    h.memory, h.going.1, h.going.2]

/-- Both calls are skipped if they would be too deep. -/
theorem SameCallSite.returnsAlike_of_deep (h : SameCallSite a b extent)
    (hdeep : a.limits.callDepth ≤ a.depth) (hrests : ¬Rests stop a) (hrests' : ¬Rests stop' b)
    (hbudget : a.steps < a.limits.steps) : ReturnsAlike stop stop' a a b b := by
  obtain ⟨token, htoken, hkind, _⟩ := h.call
  have htoken' : b.program.token? b.pointer = some token := by rw [h.program, h.pointer, htoken]
  have hdeep' : b.limits.callDepth ≤ b.depth := by rw [h.limits, h.depth]; exact hdeep
  have hbudget' : b.steps < b.limits.steps := by rw [h.limits, h.steps]; exact hbudget
  refine ⟨⟨_, _, ⟨h.going.1, fun hends => hrests (.inr hends), hbudget, token, htoken, rfl⟩,
    ⟨h.going.2, fun hends => hrests' (.inr hends), hbudget', token, htoken', rfl⟩, ?_, ?_,
    [⟨token.line, .callDepthExceeded token.name a.limits.callDepth⟩], ?_, ?_⟩, ?_, ?_⟩
  · rw [turn_of_refused _ hkind hdeep, comment_eq]
    rfl
  · rw [turn_of_refused _ hkind hdeep', comment_eq]
    rfl
  · rw [turn_of_refused _ hkind hdeep, comment_eq]
    rfl
  · rw [turn_of_refused _ hkind hdeep', comment_eq, h.limits]
    rfl
  · rw [place, place, h.program, h.pointer]
  · exact fun hroom => absurd hdeep (Nat.not_le.2 hroom)

/-- Both machines halt at the call if no steps are left. -/
theorem SameCallSite.stopsAlike_of_out (h : SameCallSite a b extent) (hrests : ¬Rests stop a)
    (hrests' : ¬Rests stop' b) (hout : a.limits.steps ≤ a.steps) :
    StopsAlike stop stop' a a b b := by
  obtain ⟨token, htoken, _⟩ := h.call
  have htoken' : b.program.token? b.pointer = some token := by rw [h.program, h.pointer, htoken]
  have hout' : b.limits.steps ≤ b.steps := by rw [h.limits, h.steps]; exact hout
  have ha : ending stop a = a.halt token := by
    rw [ending, h.going.1]
    exact runTo_eq_halt htoken hrests hout
  have hb : ending stop' b = b.halt token := by
    rw [ending, h.going.2]
    exact runTo_eq_halt htoken' hrests' hout'
  refine ⟨⟨fun _ hturn => ?_, fun _ hturn => ?_⟩, ?_, ⟨?_, ?_⟩⟩
  · exact absurd hturn.budget (Nat.not_lt.2 hout)
  · exact absurd hturn.budget (Nat.not_lt.2 hout')
  · rw [ha, hb]
    rfl
  · rw [ha, hb]
    refine ⟨[⟨token.line, .stepLimitExceeded a.limits.steps⟩], rfl, ?_⟩
    rw [← h.limits]
    rfl
  · rw [ha, hb]
    exact ⟨#[], (Array.append_empty).symm, (Array.append_empty).symm⟩

/-- A call that is made leads to the definition of the macro. -/
theorem turn_opening {m : Machine σ} (hgoing : m.halted = false) (hrests : ¬Rests stop m)
    (hbudget : m.steps < m.limits.steps) (htoken : m.program.token? m.pointer = some token)
    (hkind : token.kind = .call) (hfound : m.program.findMacro? token.name = some extent)
    (hroom : m.depth < m.limits.callDepth) :
    Turn stop m (m.opening token extent) ∧ ∀ token' external, ¬Delegates m token' external := by
  refine ⟨⟨hgoing, fun hends => hrests (.inr hends), hbudget, token, htoken,
    (turn_of_opens _ hkind hfound hroom).symm⟩, not_delegates_of_here htoken ?_⟩
  intro external call
  have hmissing := call.missing
  rw [hfound] at hmissing
  cases hmissing

/-- From the definition on, both take the same course. -/
theorem SameCallSite.sameCourse_opening (h : SameCallSite a b extent) (token : Token)
    (stop stop' : Nat) :
    SameCourse stop stop' a.frames b.frames (a.blank.opening token extent)
      (b.blank.opening token extent) := by
  have hbare : (b.blank.opening token extent).bare = (a.blank.opening token extent).bare :=
    congrArg (fun d : Machine σ => { d with pointer := extent.definition }) (h.bare_advance token)
  have hopen : (a.blank.opening token extent).frames ≠ [] := List.cons_ne_nil _ _
  have hopen' : (b.blank.opening token extent).frames ≠ [] := List.cons_ne_nil _ _
  by_cases hturns : ∃ m, Turn stop (a.blank.opening token extent) m
  swap
  · exact ⟨[], [], _, _, .here _, .here _, rfl, hbare, hopen, hopen', .inl (not_exists.1 hturns)⟩
  obtain ⟨m, hturn⟩ := hturns
  obtain ⟨n, hturn'⟩ : ∃ n, Turn stop' (b.blank.opening token extent) n :=
    exists_turn_of_bare hbare (fun hends => absurd hends.1 hopen') hturn
  -- The turn enters the body, and from there on the views are the same.
  obtain ⟨_, definition, hdefinition, hkind⟩ := h.call.extent
  have hdefinition' : b.program.token? extent.definition = some definition := by
    rw [h.program, hdefinition]
  have hview : ∃ base base', SameView
      (⟨a.pointer, some (a.definitionAt extent.definition)⟩ :: a.frames)
      (⟨a.pointer, some (a.definitionAt extent.definition)⟩ :: b.frames) base base' m n := by
    rw [hturn.eq_turn hdefinition, hturn'.eq_turn hdefinition']
    exact sameView_entered _ hkind hbare rfl (h.pointer ▸ rfl) h.depth h.inputs h.labels h.pending
  obtain ⟨base, base', hview⟩ := hview
  obtain ⟨hopened, hopened'⟩ := hview.length_lt
  exact (hview.sameCourse stop stop').alone hturn hturn' hopened hopened'
    (not_delegates_of_here hdefinition (not_delegates_of_kind (by simp [hkind])))
    (not_delegates_of_here hdefinition' (not_delegates_of_kind (by simp [hkind])))
    (place_of_bare hbare)

/-- If the call is made, both machines take the same course, apart from earlier records. -/
theorem SameCallSite.sameCourse (h : SameCallSite a b extent) (hrests : ¬Rests stop a)
    (hrests' : ¬Rests stop' b) (hbudget : a.steps < a.limits.steps)
    (hroom : a.depth < a.limits.callDepth) :
    SameCourse stop stop' a.frames b.frames a.blank b.blank := by
  obtain ⟨token, htoken, hkind, hfound⟩ := h.call
  have htoken' : b.program.token? b.pointer = some token := by rw [h.program, h.pointer, htoken]
  have hfound' : b.program.findMacro? token.name = some extent := by rw [h.program, hfound]
  have hroom' : b.depth < b.limits.callDepth := by rw [h.limits, h.depth]; exact hroom
  have hbudget' : b.steps < b.limits.steps := by rw [h.limits, h.steps]; exact hbudget
  have hplace : b.blank.place = a.blank.place := by
    show (b.program, b.pointer) = (a.program, a.pointer)
    rw [h.program, h.pointer]
  obtain ⟨hturn, halone⟩ : Turn stop a.blank (a.blank.opening token extent) ∧ _ :=
    turn_opening h.going.1 hrests hbudget htoken hkind hfound hroom
  obtain ⟨hturn', halone'⟩ : Turn stop' b.blank (b.blank.opening token extent) ∧ _ :=
    turn_opening h.going.2 hrests' hbudget' htoken' hkind hfound' hroom'
  exact (h.sameCourse_opening token stop stop').alone hturn hturn' (Nat.lt_succ_self _)
    (Nat.lt_succ_self _) halone halone' hplace

end Call

/-- Hidden values do not influence a callee.  From the same call, whatever lies below the inputs of
    the macro, two machines execute the same tokens in the same order until the call returns or
    neither goes on, and record the same faults and comments on the way.  Just before the return
    they have the same visible values. -/
theorem callee_noninterference {a b : Machine σ} {extent : Extent} {stop stop' : Nat}
    (h : SameCallSite a b extent) (hrests : ¬Rests stop a) (hrests' : ¬Rests stop' b) :
    ∃ heads heads' a' b', Course stop a.frames.length a heads a'
      ∧ Course stop' b.frames.length b heads' b' ∧ heads'.map place = heads.map place
      ∧ AddsAlike a a' b b'
      ∧ (ReturnsAlike stop stop' a a' b b' ∨ StopsAlike stop stop' a a' b b') := by
  -- At the call itself the steps can have run out, or the call can be too deep.
  have hnothing : AddsAlike a a b b :=
    ⟨⟨[], rfl, rfl⟩, ⟨#[], Array.append_empty.symm, Array.append_empty.symm⟩⟩
  by_cases hout : a.limits.steps ≤ a.steps
  · exact ⟨[], [], a, b, .here a, .here b, rfl, hnothing,
      .inr (h.stopsAlike_of_out hrests hrests' hout)⟩
  have hbudget : a.steps < a.limits.steps := Nat.lt_of_not_le hout
  by_cases hdeep : a.limits.callDepth ≤ a.depth
  · exact ⟨[], [], a, b, .here a, .here b, rfl, hnothing,
      .inl (h.returnsAlike_of_deep hdeep hrests hrests' hbudget)⟩
  obtain ⟨heads, heads', m, n, hcourse, hcourse', hplaces, hbare, hopen, hopen', hends⟩ :=
    h.sameCourse hrests hrests' hbudget (Nat.lt_of_not_le hdeep)
  -- The records before the call are put back in front.
  obtain ⟨visited, hvisited, hplaces₁⟩ := hcourse.following a.comments a.faults
  obtain ⟨visited', hvisited', hplaces₂⟩ := hcourse'.following b.comments b.faults
  rw [following_blank] at hvisited hvisited'
  refine ⟨visited, visited', _, _, hvisited, hvisited', ?_, ?_, ?_⟩
  · rw [hplaces₁, hplaces₂, hplaces]
  · exact addsAlike_of_eq (congrArg (·.faults) hbare) (congrArg (·.comments) hbare)
  rcases hends with hstuck | ⟨hvisible, m', n', hturn, hturn', hframes, hframes', hfaults⟩
  · have hinside : n.frames = [] ∧ stop' ≤ n.pointer ↔ m.frames = [] ∧ stop ≤ m.pointer :=
      iff_of_false (fun hends => hopen' hends.1) fun hends => hopen hends.1
    obtain ⟨hstuck', hsame⟩ := bare_ending hbare hinside hstuck
    refine .inr ⟨⟨fun _ hturn => ?_, fun _ hturn => ?_⟩, ?_, ?_⟩
    · obtain ⟨m', hturn', -⟩ := hturn.of_following
      exact hstuck m' hturn'
    · obtain ⟨n', hturn', -⟩ := hturn.of_following
      exact hstuck' n' hturn'
    · rw [ending_following, ending_following]
      exact congrArg (·.halted) hsame
    · rw [ending_following, ending_following]
      exact addsAlike_of_eq (congrArg (·.faults) hsame) (congrArg (·.comments) hsame)
  · have hplace := place_of_bare hbare
    refine .inl ⟨⟨_, _, hturn.following a.comments a.faults, hturn'.following b.comments b.faults,
      hframes, hframes', m'.faults.toList, rfl, ?_⟩, hplace, fun _ => hvisible⟩
    rw [← hfaults]
    rfl

/-- A macro that calls another one, which makes a call and a jump ahead and takes more values than
    it is given. -/
def greedyCall : Program :=
  .ofTokens #[⟨.call, "M()", 1, 1⟩,
    ⟨.macroDefinition, "#define macro M() = takes(1) returns(1) \x7b", 2, 2⟩,
    ⟨.call, "G()", 3, 3⟩, ⟨.blockEnd, "\x7d", 4, 4⟩,
    ⟨.macroDefinition, "#define macro G() = takes(1) returns(2) \x7b", 5, 5⟩,
    ⟨.call, "N()", 6, 6⟩, ⟨.reference, "done", 7, 7⟩, ⟨.opcode .jump, "jump", 7, 7⟩,
    ⟨.label, "done:", 8, 8⟩, ⟨.opcode .add, "add", 9, 9⟩, ⟨.blockEnd, "\x7d", 10, 10⟩,
    ⟨.macroDefinition, "#define macro N() = takes(1) returns(1) \x7b", 11, 11⟩,
    ⟨.opcode .iszero, "iszero", 12, 12⟩, ⟨.blockEnd, "\x7d", 13, 13⟩]

/-- A machine started for the first macro, before its call, with another value below the input. -/
def calledAbove : Machine Isolated :=
  { program := greedyCall, scope := .isolated, limits := { steps := 32 }, outerDepth := 1,
    pointer := 2, stack := { visible := [.symbolic "x", .symbolic "y"] } }

/-- A machine that has called the first macro itself, before the same call, with nothing visible
    below the input. -/
def calledWithin : Machine Isolated :=
  { program := greedyCall, scope := .isolated, limits := { steps := 32 }, pointer := 2,
    frames := [⟨0, some ⟨"M", 1, 1, ⟨1, 3⟩⟩⟩],
    stack := { visible := [.symbolic "x"], hidden := [[.symbolic "z"]] } }

theorem callee_noninterference_greedy :
    (calledWithin.stack.visible ≠ calledAbove.stack.visible
        ∧ calledWithin.stack.hidden ≠ calledAbove.stack.hidden)
      ∧ ∃ heads heads' a' b', Course 3 0 calledAbove heads a' ∧ Course 14 1 calledWithin heads' b'
        ∧ heads'.map place = heads.map place ∧ AddsAlike calledAbove a' calledWithin b'
        ∧ (ReturnsAlike 3 14 calledAbove a' calledWithin b'
          ∨ StopsAlike 3 14 calledAbove a' calledWithin b') := by
  have hcall : Calls calledAbove.program calledAbove.pointer ⟨4, 10⟩ :=
    ⟨⟨.call, "G()", 3, 3⟩, by decide +kernel, rfl, by decide +kernel⟩
  have h : SameCallSite calledAbove calledWithin ⟨4, 10⟩ :=
    ⟨hcall, rfl, rfl, rfl, rfl, rfl, rfl, rfl, rfl, ⟨rfl, rfl⟩, by decide +kernel, fun _ => rfl,
      fun _ => rfl⟩
  have hrests : ¬Rests 3 calledAbove := by
    unfold Rests
    decide +kernel
  have hrests' : ¬Rests 14 calledWithin := by
    unfold Rests
    decide +kernel
  exact ⟨by decide +kernel, callee_noninterference h hrests hrests'⟩

end HuffTrace.Machine
