/-
  HuffTrace.Proofs.Machine.View

  Machines with the same view.  What a machine does next does not depend on the
  values hidden by the calls around those that it has opened itself, nor on
  these calls, as long as it does not return from them.  `SameView` relates two
  machines that differ in these respects only, and a turn of both keeps it
  (`SameView.next`).  The machines that they start for other programs end with
  the same view (`SameView.ending`) and execute the same tokens
  (`SameView.visits`).

  Unlike machines that are merely alike, such machines have used the same steps
  and recorded the same.
-/

import HuffTrace.Proofs.Machine.Records
import HuffTrace.Proofs.Opcode.Visible

namespace HuffTrace.Machine

variable {σ : Type}

/-! ## Machines with the same view -/

/-- The machine apart from its stack and its calls. -/
def bare (m : Machine σ) : Machine σ :=
  { m with stack := {}, frames := [], entry := none, outerDepth := 0 }

/-- The machines have the calls `outer` and `outer'` open around the same calls of their own and
    hide `base` and `base'` below the same parts, and agree in all else. -/
structure SameView (outer outer' : List Frame) (base base' : List (List Value))
    (m n : Machine σ) : Prop where
  bare : n.bare = m.bare
  /-- Every call that was entered has hidden a part. -/
  calls : ∃ inner parts, m.frames = inner ++ outer ∧ n.frames = inner ++ outer'
    ∧ Stack.AgreeAbove base base' parts m.stack n.stack ∧ entered inner ≤ parts.length
  outerDepth : n.outerDepth + outer'.length = m.outerDepth + outer.length
  entry : outer = [] → outer' = [] → m.entry = none ∧ n.entry = none

section Steps

variable {outer outer' : List Frame} {base base' : List (List Value)} {m n : Machine σ}

theorem SameView.program (h : SameView outer outer' base base' m n) : n.program = m.program :=
  congrArg (·.program) h.bare

theorem SameView.scope (h : SameView outer outer' base base' m n) : n.scope = m.scope :=
  congrArg (·.scope) h.bare

theorem SameView.limits (h : SameView outer outer' base base' m n) : n.limits = m.limits :=
  congrArg (·.limits) h.bare

theorem SameView.memory (h : SameView outer outer' base base' m n) : n.memory = m.memory :=
  congrArg (·.memory) h.bare

theorem SameView.pointer (h : SameView outer outer' base base' m n) : n.pointer = m.pointer :=
  congrArg (·.pointer) h.bare

theorem SameView.steps (h : SameView outer outer' base base' m n) : n.steps = m.steps :=
  congrArg (·.steps) h.bare

theorem SameView.halted (h : SameView outer outer' base base' m n) : n.halted = m.halted :=
  congrArg (·.halted) h.bare

theorem SameView.token?_eq (h : SameView outer outer' base base' m n) :
    n.program.token? n.pointer = m.program.token? m.pointer := by
  rw [h.program, h.pointer]

theorem SameView.visible (h : SameView outer outer' base base' m n) :
    n.stack.visible = m.stack.visible := by
  obtain ⟨_, _, _, _, hstack, _⟩ := h.calls
  exact hstack.visible

theorem SameView.depth (h : SameView outer outer' base base' m n) : n.depth = m.depth := by
  obtain ⟨inner, _, hm, hn, _, _⟩ := h.calls
  have houter := h.outerDepth
  rw [Machine.depth, Machine.depth, hm, hn, List.length_append, List.length_append]
  omega

theorem SameView.advance (h : SameView outer outer' base base' m n) (token : Token) :
    SameView outer outer' base base' (m.advance token) (n.advance token) :=
  ⟨congrArg (·.advance token) h.bare, h.calls, h.outerDepth, h.entry⟩

theorem SameView.record (h : SameView outer outer' base base' m n) (fault : Fault) :
    SameView outer outer' base base' (m.record fault) (n.record fault) :=
  ⟨congrArg (·.record fault) h.bare, h.calls, h.outerDepth, h.entry⟩

theorem SameView.foldl_record (h : SameView outer outer' base base' m n) (met : List Fault) :
    SameView outer outer' base base' (met.foldl Machine.record m) (met.foldl Machine.record n) := by
  induction met generalizing m n with
  | nil => exact h
  | cons fault met ih => exact ih (h.record fault)

theorem SameView.work (h : SameView outer outer' base base' m n)
    {operation : Workspace → Workspace}
    (hoperation : ∀ parts w w', Workspace.AgreeAbove base base' parts w w' →
      Workspace.AgreeAbove base base' parts (operation w) (operation w')) :
    SameView outer outer' base base' (m.work operation) (n.work operation) := by
  obtain ⟨inner, parts, hm, hn, hagree, hcount⟩ := h.calls
  obtain ⟨hstack, hmemory, hfaults⟩ := hoperation parts ⟨m.stack, m.memory, []⟩
    ⟨n.stack, n.memory, []⟩ ⟨hagree, h.memory, rfl⟩
  simp only [Machine.work, hfaults, hmemory]
  refine SameView.foldl_record ?_ _
  generalize (operation ⟨m.stack, m.memory, []⟩).memory = memory
  exact ⟨congrArg (fun d : Machine σ => { d with memory }) h.bare,
    ⟨inner, parts, hm, hn, hstack, hcount⟩, h.outerDepth, h.entry⟩

theorem SameView.push (h : SameView outer outer' base base' m n) (v : Value) :
    SameView outer outer' base base' (m.push v) (n.push v) :=
  h.work fun _ _ _ hagree => hagree.operation (Workspace.seesVisible_push v)

theorem SameView.runOpcode (h : SameView outer outer' base base' m n) (op : Opcode) :
    SameView outer outer' base base' (m.runOpcode op) (n.runOpcode op) := by
  rw [Machine.runOpcode, Machine.runOpcode, h.limits]
  exact h.work fun _ _ _ hagree => hagree.run m.limits.memory op

theorem SameView.mark (h : SameView outer outer' base base' m n) (label : String) :
    SameView outer outer' base base' { m with stack := m.stack.mark label }
      { n with stack := n.stack.mark label } := by
  obtain ⟨inner, parts, hm, hn, hagree, hcount⟩ := h.calls
  exact ⟨h.bare, ⟨inner, parts, hm, hn, hagree.mark label, hcount⟩, h.outerDepth, h.entry⟩

theorem SameView.selectorOf [Scope σ] (h : SameView outer outer' base base' m n)
    (kind : SignatureKind) (argument : List Char) :
    n.selectorOf kind argument = m.selectorOf kind argument := by
  rw [Machine.selectorOf, Machine.selectorOf, findSignature?, findSignature?, h.program, h.scope]

theorem SameView.runBuiltin [Scope σ] (h : SameView outer outer' base base' m n) (token : Token)
    (builtin : Builtin) :
    SameView outer outer' base base' (m.runBuiltin token builtin) (n.runBuiltin token builtin) := by
  cases builtin with
  | selector kind =>
    rw [Machine.runBuiltin, Machine.runBuiltin, h.selectorOf]
    exact h.push _
  | verbatim => exact h
  | _ => exact h.push _

/-- The stack is written out alike. -/
theorem SameView.comment (h : SameView outer outer' base base' m n) (position : Nat) :
    SameView outer outer' base base' (m.comment position) (n.comment position) := by
  -- A comment shows the visible values and nothing below them.
  have hrecording : n.recording = m.recording := congrArg (·.recording) h.bare
  have hrender : n.stack.render = m.stack.render := by
    rw [Stack.render, Stack.render, h.visible]
  cases htoken : m.program.token? position with
  | none =>
    have htoken' : n.program.token? position = none := by rw [h.program, htoken]
    simp only [Machine.comment, htoken, htoken']
    exact h
  | some token =>
    have htoken' : n.program.token? position = some token := by rw [h.program, htoken]
    simp only [Machine.comment, htoken, htoken']
    by_cases hshown : m.recording ∧ m.program.isLastOnLine position ∧ token.kind ≠ .blockEnd
    · have hshown' : n.recording ∧ n.program.isLastOnLine position ∧ token.kind ≠ .blockEnd := by
        rw [hrecording, h.program]
        exact hshown
      rw [if_pos hshown, if_pos hshown', hrender]
      exact ⟨congrArg (fun d : Machine σ =>
        { d with comments := d.comments.push ⟨token.endLine, m.stack.render⟩ }) h.bare, h.calls,
        h.outerDepth, h.entry⟩
    · have hshown' : ¬(n.recording ∧ n.program.isLastOnLine position ∧ token.kind ≠ .blockEnd) := by
        rw [hrecording, h.program]
        exact hshown
      rw [if_neg hshown, if_neg hshown']
      exact h

theorem SameView.halt (h : SameView outer outer' base base' m n) (token : Token) :
    SameView outer outer' base base' (m.halt token) (n.halt token) :=
  ⟨congrArg (·.halt token) h.bare, h.calls, h.outerDepth, h.entry⟩

/-! ## Definitions and braces -/

theorem SameView.noted (h : SameView outer outer' base base' m n) (position : Nat) (token : Token) :
    SameView outer outer' base base' (m.noted position token) (n.noted position token) := by
  rw [Machine.noted, Machine.noted, h.program]
  exact h.foldl_record _

/-- With calls of its own open, the innermost one is the same in both. -/
theorem SameView.innermost (h : SameView outer outer' base base' m n) (hopen : m.frames ≠ outer) :
    ∃ frame inner parts, m.frames = frame :: (inner ++ outer)
      ∧ n.frames = frame :: (inner ++ outer')
      ∧ Stack.AgreeAbove base base' parts m.stack n.stack
      ∧ entered (frame :: inner) ≤ parts.length := by
  obtain ⟨inner, parts, hm, hn, hagree, hcount⟩ := h.calls
  cases inner with
  | nil => exact absurd hm hopen
  | cons frame inner => exact ⟨frame, inner, parts, hm, hn, hagree, hcount⟩

/-- Without calls of its own, the other has none either. -/
theorem SameView.frames_of_outer (h : SameView outer outer' base base' m n)
    (hclosed : m.frames = outer) : n.frames = outer' := by
  obtain ⟨inner, _, hm, hn, _, _⟩ := h.calls
  obtain rfl : inner = [] := List.append_left_eq_self.1 (hm.symm.trans hclosed)
  exact hn

theorem entered_cons_some (site : Nat) (callee : Definition) (inner : List Frame) :
    entered (⟨site, some callee⟩ :: inner) = entered inner + 1 :=
  List.countP_cons_of_pos rfl

theorem entered_cons_none (site : Nat) (inner : List Frame) :
    entered (⟨site, none⟩ :: inner) = entered inner :=
  List.countP_cons_of_neg Bool.false_ne_true

/-- Both return from the same call of their own. -/
theorem SameView.leave (h : SameView outer outer' base base' m n) {site : Nat} {callee : Definition}
    {rest : List Frame} (hopen : m.frames ≠ outer)
    (hframes : m.frames = ⟨site, some callee⟩ :: rest) :
    n.leave.1 = m.leave.1 ∧ SameView outer outer' base base' m.leave.2 n.leave.2 := by
  obtain ⟨frame, inner, parts, hm, hn, hagree, hcount⟩ := h.innermost hopen
  obtain rfl : ⟨site, some callee⟩ = frame := (List.cons.inj (hframes.symm.trans hm)).1
  -- The call has hidden a part of its own, so that is what the return reveals.
  rw [entered_cons_some] at hcount
  cases parts with
  | nil => exact absurd hcount (Nat.not_succ_le_zero _)
  | cons part parts =>
    rw [leave_eq m hm, leave_eq n hn]
    refine ⟨rfl, ?_, ⟨inner, parts, rfl, rfl, hagree.reveal callee.returns, ?_⟩, h.outerDepth,
      h.entry⟩
    · exact congrArg (fun d : Machine σ =>
        { d with
          pointer := site + 1
          line := ((d.program.token? site).map fun t : Token => t.line).getD d.line }) h.bare
    · rw [List.length_cons] at hcount
      omega

theorem SameView.define (h : SameView outer outer' base base' m n) (position : Nat) (token : Token)
    (hopen : m.frames ≠ outer) :
    (n.define position token).1 = (m.define position token).1
      ∧ SameView outer outer' base base' (m.define position token).2
        (n.define position token).2 := by
  have hdefinition : n.definitionAt position = m.definitionAt position := by
    rw [definitionAt, definitionAt, h.program]
  have hnoted := h.noted position token
  obtain ⟨faults, hm'⟩ := noted_eq m position token
  -- The definition enters or ends a call of the machine's own.
  obtain ⟨⟨site, callee⟩, inner, parts, hm, hn, hagree, hcount⟩ := h.innermost hopen
  cases callee with
  | none =>
    rw [define_reaching m position token hm, define_reaching n position token hn, hdefinition]
    refine ⟨rfl, hnoted.bare, ⟨_ :: inner, _ :: parts, rfl, rfl, hagree.hide _, ?_⟩,
      ?_, ?_⟩
    · rw [entered_cons_none] at hcount
      rw [entered_cons_some, List.length_cons]
      omega
    · exact hnoted.outerDepth
    · exact hnoted.entry
  | some callee =>
    have hframes : (m.noted position token).frames = m.frames := by rw [hm']
    rw [define_within m position token hm, define_within n position token hn]
    exact hnoted.leave (hframes ▸ hopen) (hframes.trans hm)

/-- A brace acts alike unless it returns from the call around both or ends an analysis. -/
theorem SameView.closeBlock (h : SameView outer outer' base base' m n) (position : Nat)
    (hshielded : m.frames = outer → (outer = [] ∧ outer' = []) ∨ ∃ site callee rest rest',
      outer = ⟨site, some callee⟩ :: rest ∧ outer' = ⟨site, some callee⟩ :: rest'
        ∧ callee.extent.stop ≠ position) :
    (n.closeBlock position).1 = (m.closeBlock position).1
      ∧ SameView outer outer' base base' (m.closeBlock position).2 (n.closeBlock position).2 := by
  by_cases hopen : m.frames = outer
  · have hopen' := h.frames_of_outer hopen
    rcases hshielded hopen with ⟨rfl, rfl⟩ | ⟨site, callee, rest, rest', rfl, rfl, hstop⟩
    · obtain ⟨hentry, hentry'⟩ := h.entry rfl rfl
      simp only [Machine.closeBlock, hopen, hopen', hentry, hentry']
      exact ⟨trivial, h⟩
    · simp only [Machine.closeBlock, hopen, hopen', if_neg hstop]
      exact ⟨trivial, h⟩
  · obtain ⟨⟨site, callee⟩, inner, parts, hm, hn, hagree, hcount⟩ := h.innermost hopen
    cases callee with
    | none =>
      simp only [Machine.closeBlock, hm, hn]
      exact ⟨trivial, h⟩
    | some callee =>
      simp only [Machine.closeBlock, hm, hn]
      split
      · exact h.leave hopen hm
      · exact ⟨rfl, h⟩

/-! ## Calls -/

/-- The machines that both start for the same macro have the same view: what lies below its inputs
    is out of its reach. -/
theorem SameView.callee (h : SameView outer outer' base base' m n)
    {parts : List (List Value)} (hagree : Stack.AgreeAbove base base' parts m.stack n.stack)
    (takes : Nat) (external : External σ) :
    SameView [] [] (m.stack.visible.drop takes :: parts ++ base)
      (m.stack.visible.drop takes :: parts ++ base') (m.callee takes external)
      (n.callee takes external) := by
  -- What the call hides and what was hidden before are the bottom for the machine that it starts.
  refine ⟨?_, ⟨[], [], rfl, rfl, ?_, Nat.le_refl 0⟩, ?_, fun _ _ => ⟨rfl, rfl⟩⟩
  · simp only [Machine.callee, Machine.bare, h.limits, h.steps]
  · exact Stack.agreeAbove_append.1 (hagree.hide takes)
  · exact congrArg (· + 1) h.depth

theorem callExternal_eq (run : Nat → Machine σ → Machine σ) (m : Machine σ)
    (external : External σ) {done : Machine σ}
    (hdone : run external.extent.stop (m.callee (takesOf external) external) = done) :
    m.callExternal run external
      = (done.faults.toList.map (·.item)).foldl Machine.record
          { m with
            stack := done.stack.reveal (returnsOf external)
            steps := done.steps
            halted := m.halted || done.halted } := by
  rw [← hdone]
  rfl

/-- Whatever the machines for a macro of another program hide at the bottom, `run` keeps their
    views the same. -/
def RunsAlike (run : Nat → Machine σ → Machine σ) (m n : Machine σ) (external : External σ) :
    Prop :=
  ∀ ground ground',
    SameView [] [] ground ground' (m.callee (takesOf external) external)
      (n.callee (takesOf external) external) →
    SameView [] [] ground ground'
      (run external.extent.stop (m.callee (takesOf external) external))
      (run external.extent.stop (n.callee (takesOf external) external))

/-- A macro of another program is executed alike if the machines for it run alike. -/
theorem SameView.callExternal (h : SameView outer outer' base base' m n)
    {run : Nat → Machine σ → Machine σ} {external : External σ}
    (hrun : RunsAlike run m n external) :
    SameView outer outer' base base' (m.callExternal run external)
      (n.callExternal run external) := by
  obtain ⟨inner, parts, hm, hn, hagree, hcount⟩ := h.calls
  have hdone := hrun _ _ (h.callee hagree (takesOf external) external)
  rw [callExternal_eq run m external rfl, callExternal_eq run n external rfl]
  generalize run external.extent.stop (m.callee _ external) = done at *
  generalize run external.extent.stop (n.callee _ external) = done' at *
  -- Whatever it has left above, what the call itself has hidden is still there.
  obtain ⟨_, above, _, _, habove, _⟩ := hdone.calls
  obtain ⟨part, more, hmore, hlength⟩ : ∃ part more,
      above ++ m.stack.visible.drop (takesOf external) :: parts = part :: more
        ∧ parts.length ≤ more.length := by
    cases above with
    | nil => exact ⟨_, parts, rfl, Nat.le_refl _⟩
    | cons first above =>
      refine ⟨first, above ++ _ :: parts, rfl, ?_⟩
      rw [List.length_append, List.length_cons]
      omega
  have hleft : Stack.AgreeAbove base base' (part :: more) done.stack done'.stack :=
    hmore ▸ Stack.agreeAbove_append.2 habove
  rw [show done'.faults = done.faults from congrArg (·.faults) hdone.bare]
  refine SameView.foldl_record ?_ _
  refine ⟨?_, ⟨inner, more, hm, hn, hleft.reveal _, by omega⟩, h.outerDepth, h.entry⟩
  rw [hdone.steps, hdone.halted, h.halted]
  exact congrArg (fun d : Machine σ =>
    { d with steps := done.steps, halted := m.halted || done.halted }) h.bare

/-- A call acts alike if the machines that it starts run alike. -/
theorem SameView.call [Scope σ] (h : SameView outer outer' base base' m n)
    {run : Nat → Machine σ → Machine σ} (position : Nat) (name : String)
    (hrun : ∀ external, m.depth < m.limits.callDepth → m.program.findMacro? name = none →
      Scope.findMacro? m.scope name = some external → RunsAlike run m n external) :
    (n.call run position name).1 = (m.call run position name).1
      ∧ SameView outer outer' base base' (m.call run position name).2
        (n.call run position name).2 := by
  by_cases hdeep : m.limits.callDepth ≤ m.depth
  · have hdeep' : n.limits.callDepth ≤ n.depth := by rw [h.limits, h.depth]; exact hdeep
    rw [Machine.call, Machine.call, if_pos hdeep, if_pos hdeep', h.limits]
    exact ⟨rfl, h.record _⟩
  have hdeep' : ¬n.limits.callDepth ≤ n.depth := by rw [h.limits, h.depth]; exact hdeep
  have hscope : Scope.findMacro? n.scope name = Scope.findMacro? m.scope name := by rw [h.scope]
  have hprogram : n.program.findMacro? name = m.program.findMacro? name := by rw [h.program]
  -- Both look the name up in the same places.
  rw [Machine.call, Machine.call, if_neg hdeep, if_neg hdeep', hprogram, hscope]
  cases hown : m.program.findMacro? name with
  | some extent =>
    obtain ⟨inner, parts, hm, hn, hagree, hcount⟩ := h.calls
    have hcount' : entered (⟨position, none⟩ :: inner) ≤ parts.length := by
      rw [entered_cons_none]
      exact hcount
    exact ⟨rfl, congrArg (fun d : Machine σ => { d with pointer := extent.definition }) h.bare,
      ⟨⟨position, none⟩ :: inner, parts, congrArg _ hm, congrArg _ hn, hagree, hcount'⟩,
      h.outerDepth, h.entry⟩
  | none =>
    cases hfound : Scope.findMacro? m.scope name with
    | none => exact ⟨rfl, h.record _⟩
    | some external =>
      exact ⟨rfl, h.callExternal (hrun external (Nat.lt_of_not_le hdeep) hown hfound)⟩

/-! ## Steps -/

/-- Outside of its own calls, the machine is at a token that neither starts nor ends the analysis
    of a macro and does not return from the call around it, which is the same in both. -/
def Shielded (outer outer' : List Frame) (m : Machine σ) (position : Nat) (token : Token) : Prop :=
  m.frames = outer → token.kind ≠ .macroDefinition
    ∧ ((outer = [] ∧ outer' = []) ∨ ∃ site callee rest rest', outer = ⟨site, some callee⟩ :: rest
      ∧ outer' = ⟨site, some callee⟩ :: rest'
      ∧ (token.kind = .blockEnd → callee.extent.stop ≠ position))

theorem SameView.step [Scope σ] (h : SameView outer outer' base base' m n)
    (run : Nat → Machine σ → Machine σ) {position : Nat} {token : Token}
    (hshielded : Shielded outer outer' m position token)
    (hrun : ∀ external, token.kind = .call → m.depth < m.limits.callDepth →
      m.program.findMacro? token.name = none →
      Scope.findMacro? m.scope token.name = some external → RunsAlike run m n external) :
    (n.step run position token).1 = (m.step run position token).1
      ∧ SameView outer outer' base base' (m.step run position token).2
        (n.step run position token).2 := by
  cases hkind : token.kind with
  | macroDefinition =>
    simp only [Machine.step, hkind]
    exact h.define position token fun hclosed => (hshielded hclosed).1 hkind
  | call =>
    simp only [Machine.step, hkind]
    exact h.call position token.name fun external => hrun external hkind
  | blockEnd =>
    simp only [Machine.step, hkind]
    apply h.closeBlock
    intro hclosed
    rcases (hshielded hclosed).2 with hnil | ⟨site, callee, rest, rest', hcons, hcons', hstop⟩
    · exact .inl hnil
    · exact .inr ⟨site, callee, rest, rest', hcons, hcons', hstop hkind⟩
  | label =>
    simp only [Machine.step, hkind]
    exact ⟨trivial, h.mark token.name⟩
  | literal | constant | argument | reference =>
    simp only [Machine.step, hkind]
    exact ⟨trivial, h.push _⟩
  | builtin builtin =>
    simp only [Machine.step, hkind]
    exact ⟨trivial, h.runBuiltin token builtin⟩
  | opcode opcode =>
    simp only [Machine.step, hkind]
    exact ⟨trivial, h.runOpcode opcode⟩
  | interface kind =>
    simp only [Machine.step, hkind]
    split
    · exact ⟨rfl, h⟩
    · exact ⟨rfl, h.record _⟩
  | constantDefinition | tableDefinition | inclusion | blockStart =>
    simp only [Machine.step, hkind]
    exact ⟨trivial, h⟩

end Steps

/-! ## Turns -/

section Turns

variable [Scope σ] {outer outer' : List Frame} {base base' : List (List Value)}
  {m m' n n' : Machine σ} {stop stop' low : Nat}

/-- Both call the same macros of other programs. -/
theorem SameView.delegates (h : SameView outer outer' base base' m n) {token : Token}
    {external : External σ} (call : Delegates m token external) : Delegates n token external := by
  obtain ⟨hhere, hkind, hroom, hmissing, hfound⟩ := call
  refine ⟨?_, hkind, ?_, ?_, ?_⟩
  · rw [h.token?_eq, hhere]
  · rw [h.depth, h.limits]
    exact hroom
  · rw [h.program, hmissing]
  · rw [h.scope, hfound]

omit [Scope σ] in
theorem SameView.symm (h : SameView outer outer' base base' m n) :
    SameView outer' outer base' base n m := by
  obtain ⟨inner, parts, hm, hn, hagree, hcount⟩ := h.calls
  have hagree' : Stack.AgreeAbove base' base parts n.stack m.stack :=
    ⟨hagree.visible.symm, hagree.hidden.symm, fun label => (hagree.labels label).symm,
      fun label => (hagree.pending label).symm⟩
  exact ⟨h.bare.symm, ⟨inner, parts, hn, hm, hagree', hcount⟩, h.outerDepth.symm,
    fun hnil hnil' => (h.entry hnil' hnil).symm⟩

/-- A turn of both keeps the same view, if the machines that they start run alike. -/
theorem SameView.turn (h : SameView outer outer' base base' m n) (hm : Turn stop m m')
    (hn : Turn stop' n n')
    (hshielded : ∀ token, m.program.token? m.pointer = some token →
      Shielded outer outer' m m.pointer token)
    (hrun : ∀ token external, Delegates m token external →
      RunsAlike (fun stop d => d.runTo stop) (m.advance token) (n.advance token) external) :
    SameView outer outer' base base' m' n' := by
  obtain ⟨token, htoken, rfl⟩ := hm.turned
  obtain rfl := hn.eq_turn (h.token?_eq.trans htoken)
  have hstep := (h.advance token).step (fun stop d => d.runTo stop) (hshielded token htoken)
    fun external kind room missing found => hrun token external ⟨htoken, kind, room, missing, found⟩
  unfold Machine.turn
  rw [h.pointer]
  generalize (m.advance token).step _ m.pointer token = after at hstep
  generalize (n.advance token).step _ m.pointer token = after' at hstep
  obtain ⟨anchor, after⟩ := after
  obtain ⟨anchor', after'⟩ := after'
  obtain ⟨rfl, hafter⟩ := hstep
  cases anchor' with
  | none => exact hafter
  | some position => exact hafter.comment position

/-- Unless their loops end at different places, one takes a turn where the other does. -/
theorem exists_turn_of_bare (h : n.bare = m.bare)
    (hinside : n.frames = [] ∧ stop' ≤ n.pointer → m.frames = [] ∧ stop ≤ m.pointer)
    (hm : Turn stop m m') : ∃ n', Turn stop' n n' := by
  obtain ⟨token, htoken, -⟩ := hm.turned
  have hprogram : n.program = m.program := congrArg (·.program) h
  have hlimits : n.limits = m.limits := congrArg (·.limits) h
  have hpointer : n.pointer = m.pointer := congrArg (·.pointer) h
  have hsteps : n.steps = m.steps := congrArg (·.steps) h
  refine ⟨_, (congrArg (·.halted) h).trans hm.going, fun hends => hm.inside (hinside hends), ?_,
    token, ?_, rfl⟩
  · rw [hsteps, hlimits]
    exact hm.budget
  · rw [hprogram, hpointer, htoken]

/-- Where no turn is taken, a loop ends at once, or halts there. -/
theorem ending_of_not_turn (hm : ∀ m', ¬Turn stop m m') :
    (m.halted = true ∨ Rests stop m) ∧ ending stop m = m
      ∨ ¬(m.halted = true ∨ Rests stop m) ∧ ∃ token, m.program.token? m.pointer = some token
        ∧ ending stop m = m.halt token := by
  by_cases hhalted : m.halted = true
  · exact .inl ⟨.inl hhalted, by rw [ending, if_pos hhalted]⟩
  rw [ending, if_neg hhalted]
  by_cases hrests : Rests stop m
  · exact .inl ⟨.inr hrests, hrests.runTo_eq⟩
  obtain ⟨token, htoken⟩ := exists_token_of_not_rests hrests
  have hout : m.limits.steps ≤ m.steps := by
    apply Nat.le_of_not_lt
    intro hbudget
    exact hm _ ⟨Bool.eq_false_iff.2 hhalted, fun hends => hrests (.inr hends), hbudget, token,
      htoken, rfl⟩
  exact .inr ⟨not_or.2 ⟨hhalted, hrests⟩, token, htoken, runTo_eq_halt htoken hrests hout⟩

/-- Where neither takes a turn, both end at once or both halt. -/
theorem endings_of_not_turn (h : n.bare = m.bare)
    (hinside : n.frames = [] ∧ stop' ≤ n.pointer ↔ m.frames = [] ∧ stop ≤ m.pointer)
    (hm : ∀ m', ¬Turn stop m m') :
    (∀ n', ¬Turn stop' n n')
      ∧ (ending stop m = m ∧ ending stop' n = n
        ∨ ∃ token, ending stop m = m.halt token ∧ ending stop' n = n.halt token) := by
  have hn : ∀ n', ¬Turn stop' n n' := by
    intro n' hturn
    obtain ⟨m', hturn'⟩ := exists_turn_of_bare h.symm hinside.2 hturn
    exact hm m' hturn'
  have htoken : n.program.token? n.pointer = m.program.token? m.pointer := by
    rw [show n.program = m.program from congrArg (·.program) h,
      show n.pointer = m.pointer from congrArg (·.pointer) h]
  -- Whether a loop is at its end can be told from what both have in common.
  have hdone : (n.halted = true ∨ Rests stop' n) ↔ (m.halted = true ∨ Rests stop m) := by
    rw [show n.halted = m.halted from congrArg (·.halted) h, Rests, Rests, htoken, hinside]
  refine ⟨hn, ?_⟩
  rcases ending_of_not_turn hm with ⟨hends, hm'⟩ | ⟨hends, token, hhere, hm'⟩ <;>
    rcases ending_of_not_turn hn with ⟨hends', hn'⟩ | ⟨hends', token', hhere', hn'⟩
  · exact .inl ⟨hm', hn'⟩
  · exact absurd (hdone.2 hends) hends'
  · exact absurd (hdone.1 hends') hends
  · obtain rfl : token = token' := Option.some.inj (hhere.symm.trans (htoken.symm.trans hhere'))
    exact .inr ⟨token, hm', hn'⟩

theorem bare_ending (h : n.bare = m.bare)
    (hinside : n.frames = [] ∧ stop' ≤ n.pointer ↔ m.frames = [] ∧ stop ≤ m.pointer)
    (hm : ∀ m', ¬Turn stop m m') :
    (∀ n', ¬Turn stop' n n') ∧ (ending stop' n).bare = (ending stop m).bare := by
  obtain ⟨hn, hendings⟩ := endings_of_not_turn h hinside hm
  refine ⟨hn, ?_⟩
  rcases hendings with ⟨hm', hn'⟩ | ⟨token, hm', hn'⟩
  · rw [hm', hn', h]
  · rw [hm', hn']
    exact congrArg (·.halt token) h

/-! ## Machines for macros of other programs -/

omit [Scope σ] in
theorem SameView.inside_iff (h : SameView [] [] base base' m n) :
    n.frames = [] ∧ stop ≤ n.pointer ↔ m.frames = [] ∧ stop ≤ m.pointer := by
  obtain ⟨inner, _, hm, hn, _, _⟩ := h.calls
  rw [hm, hn, h.pointer]

/-- Such a machine never leaves the calls that it has opened. -/
theorem Confined.shielded (h : Confined low stop m) (hturn : Turn stop m m') {token : Token}
    (htoken : m.program.token? m.pointer = some token) : Shielded [] [] m m.pointer token :=
  fun hempty => ⟨(h.inside hturn hempty).2 token htoken, .inl ⟨rfl, rfl⟩⟩

/-- Machines with the same view that are started for a macro end alike. -/
theorem SameView.ending (h : SameView [] [] base base' m n) (hconfined : Confined low stop m) :
    SameView [] [] base base' (ending stop m) (ending stop n) := by
  -- The machines that a turn starts, and the machine after it, have fewer steps left.
  induction hleft : m.limits.steps - m.steps using Nat.strongRecOn
    generalizing m n stop low base base' with
  | ind left ih =>
    by_cases hturns : ∃ m', Turn stop m m'
    · obtain ⟨m', hturn⟩ := hturns
      obtain ⟨n', hturn'⟩ := exists_turn_of_bare h.bare h.inside_iff.1 hturn
      have hbudget := hturn.budget
      have hsteps := hturn.steps_lt
      rw [hturn.ending_eq, hturn'.ending_eq]
      refine ih _ ?_ ?_ (hconfined.turn hturn) rfl
      · rw [hturn.sameSetting.limits]
        omega
      · refine h.turn hturn hturn' (fun token => hconfined.shielded hturn) ?_
        intro token external _ ground ground' hnested
        exact ih (m.limits.steps - (m.steps + 1)) (by omega) hnested
          (confined_nested m token external) rfl
    · rcases (endings_of_not_turn h.bare h.inside_iff (not_exists.1 hturns)).2 with
        ⟨hm, hn⟩ | ⟨token, hm, hn⟩
      · rw [hm, hn]
        exact h
      · rw [hm, hn]
        exact h.halt token

/-- A turn of both keeps the same view. -/
theorem SameView.next (h : SameView outer outer' base base' m n) (hm : Turn stop m m')
    (hn : Turn stop' n n')
    (hshielded : ∀ token, m.program.token? m.pointer = some token →
      Shielded outer outer' m m.pointer token) :
    SameView outer outer' base base' m' n' :=
  h.turn hm hn hshielded fun token external _ _ _ hnested =>
    hnested.ending (confined_nested m token external)

omit [Scope σ] in
theorem SameView.exists_nested (h : SameView outer outer' base base' m n) (token : Token)
    (external : External σ) :
    ∃ ground ground', SameView [] [] ground ground' (m.nested token external)
      (n.nested token external) := by
  obtain ⟨_, _, _, _, hagree, _⟩ := h.calls
  exact ⟨_, _, (h.advance token).callee hagree (takesOf external) external⟩

omit [Scope σ] in
theorem place_of_bare (h : n.bare = m.bare) : n.place = m.place := by
  have hplace : n.bare.place = m.bare.place := congrArg place h
  exact hplace

/-- Machines with the same view that are started for a macro execute the same tokens in the same
    order. -/
theorem SameView.visits {heads : List (Machine σ)} (hvisits : Visits stop m heads)
    (h : SameView [] [] base base' m n) (hconfined : Confined low stop m) :
    ∃ heads', Visits stop n heads' ∧ heads'.map place = heads.map place := by
  -- The history of the first machine is followed, with the other one beside it.
  induction hvisits generalizing n base base' low with
  | ends ends =>
    refine ⟨[], .ends fun n' hturn => ?_, rfl⟩
    obtain ⟨m', hturn'⟩ := exists_turn_of_bare h.bare.symm h.inside_iff.2 hturn
    exact ends m' hturn'
  | alone turn alone _ ih =>
    obtain ⟨n', turn'⟩ := exists_turn_of_bare h.bare h.inside_iff.1 turn
    have hnext := h.next turn turn' fun token => hconfined.shielded turn
    obtain ⟨rest, hrest, hplaces⟩ := ih hnext (hconfined.turn turn)
    refine ⟨_, .alone turn' (fun token external call => ?_) hrest, ?_⟩
    · exact alone token external (h.symm.delegates call)
    · rw [List.map_cons, List.map_cons, hplaces, place_of_bare h.bare]
  | delegate turn call _ _ ihnested ihonwards =>
    obtain ⟨n', turn'⟩ := exists_turn_of_bare h.bare h.inside_iff.1 turn
    have hnext := h.next turn turn' fun token => hconfined.shielded turn
    obtain ⟨_, _, hnested⟩ := h.exists_nested _ _
    obtain ⟨inner, hinner, hplaces⟩ := ihnested hnested (confined_nested _ _ _)
    obtain ⟨rest, hrest, hplaces'⟩ := ihonwards hnext (hconfined.turn turn)
    refine ⟨_, .delegate turn' (h.delegates call) hinner hrest, ?_⟩
    rw [List.map_cons, List.map_cons, List.map_append, List.map_append, hplaces, hplaces',
      place_of_bare h.bare]

end Turns

end HuffTrace.Machine
