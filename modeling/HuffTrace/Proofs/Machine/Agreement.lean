/-
  HuffTrace.Proofs.Machine.Agreement

  Calls within a program and calls from another program agree.  A macro can be
  called in the program that defines it, by a frame on the same machine, or in
  another program, by a machine of its own.  The two are set side by side in
  `SameCall`: once the body is entered, the machine with the frame and the
  machine started for the macro are alike, and they stay so up to the end of
  the body, where one returns and the other comes to rest.
-/

import HuffTrace.Proofs.Machine.Alike
import HuffTrace.Proofs.Machine.Coverage
import HuffTrace.Proofs.Machine.FrameRule

namespace HuffTrace

/-- Every macro of the program ends before the program does. -/
def Program.Closed (p : Program) : Prop :=
  ∀ name extent, p.findMacro? name = some extent → extent.stop < p.size

theorem Program.closed_of_macros {p : Program} (h : ∀ entry ∈ p.macros, entry.2.stop < p.size) :
    p.Closed := by
  intro name extent hfound
  obtain ⟨before, after, hsplit, _⟩ := List.lookup_eq_some_iff.1 hfound
  exact h (name, extent) (by rw [hsplit]; simp)

namespace Machine

variable {σ : Type} [Scope σ]

/-! ## The two ends of a call -/

omit [Scope σ] in
/-- The numbers of inputs and outputs are the declared ones, limited to what the stack can
    hold. -/
theorem arity_definitionAt {m : Machine σ} {external : External σ}
    (h : external.program = m.program) :
    (m.definitionAt external.extent.definition).takes = min (takesOf external) Stack.maxDepth
      ∧ (m.definitionAt external.extent.definition).returns
        = min (returnsOf external) Stack.maxDepth := by
  rw [definitionAt, takesOf, returnsOf, h]
  cases m.program.header? external.extent.definition with
  | none => exact ⟨rfl, rfl⟩
  | some header => exact ⟨rfl, rfl⟩

section Turn

variable {stop site : Nat} {m m' : Machine σ} {extent : Extent} {callee : Definition}
  {outer : List Frame} {token : Token}

theorem Turn.of_opens (h : Turn stop m m') (hopens : Opens m extent) :
    m'.frames = ⟨m.pointer, none⟩ :: m.frames ∧ m'.stack = m.stack ∧ m'.memory = m.memory
      ∧ m'.pointer = extent.definition ∧ m'.halted = false := by
  obtain ⟨token, htoken, hkind, hfound⟩ := hopens.call
  have hroom : ¬(m.advance token).limits.callDepth ≤ (m.advance token).depth :=
    Nat.not_le.2 hopens.room
  have hfound' : (m.advance token).program.findMacro? token.name = some extent := hfound
  rw [h.eq_turn htoken, turn_eq, step, hkind]
  simp only [call, if_neg hroom, hfound']
  exact ⟨rfl, rfl, rfl, trivial, h.going⟩

theorem Turn.of_reaching (h : Turn stop m m') (hframes : m.frames = ⟨site, none⟩ :: outer)
    (htoken : m.program.token? m.pointer = some token) (hkind : token.kind = .macroDefinition) :
    m'.frames = ⟨site, some (m.definitionAt m.pointer)⟩ :: outer
      ∧ m'.stack = m.stack.hide (m.definitionAt m.pointer).takes ∧ m'.memory = m.memory
      ∧ m'.pointer = m.pointer + 1 ∧ m'.halted = false := by
  have hframes' : (m.advance token).frames = ⟨site, none⟩ :: outer := hframes
  obtain ⟨faults, hdefine⟩ := define_of_reaching m.pointer token hframes'
  rw [h.eq_turn htoken, turn_eq, step, hkind]
  simp only [hdefine]
  exact ⟨rfl, rfl, rfl, rfl, h.going⟩

/-- At the end of its body, a called macro returns. -/
theorem Turn.of_end (h : Turn stop m m') (hframes : m.frames = ⟨site, some callee⟩ :: outer)
    (htoken : m.program.token? m.pointer = some token)
    (hkind : token.kind = .blockEnd ∨ token.kind = .macroDefinition)
    (hend : callee.extent.stop = m.pointer) :
    m'.frames = outer ∧ m'.stack = m.stack.reveal callee.returns := by
  have hframes' : (m.advance token).frames = ⟨site, some callee⟩ :: outer := hframes
  rw [h.eq_turn htoken, turn_eq, step]
  rcases hkind with hkind | hkind
  · obtain ⟨line, hleave⟩ := leave_of_cons hframes'
    simp only [hkind, closeBlock, hframes', if_pos hend, hleave]
    exact ⟨trivial, rfl⟩
  · obtain ⟨faults, hdefine⟩ := define_of_within m.pointer token hframes'
    obtain ⟨line, hleave⟩ :=
      leave_of_cons (m := { m.advance token with faults := faults }) hframes'
    simp only [hkind, hdefine, hleave]
    exact ⟨trivial, rfl⟩

/-- Only a return takes a call away, and a return does not halt. -/
theorem Turn.going_of_shorter (h : Turn stop m m') (hshorter : m'.frames.length < m.frames.length) :
    m'.halted = false := by
  obtain ⟨token, htoken, hmoves⟩ := h.moves
  have halone : ∀ external, ¬Delegates m token external := by
    cases hmoves with
    | stay _ alone _ _ _ _ => exact alone
    | analyse kind _ _ => exact not_delegates_of_kind (by simp [kind])
    | finish kind _ _ _ => exact not_delegates_of_kind (by simp [kind])
    | enter _ _ kind _ _ _ _ _ => exact not_delegates_of_kind (by simp [kind])
    | leave _ _ _ kind _ _ _ _ _ =>
      exact not_delegates_of_kind (by rcases kind with kind | kind <;> simp [kind])
    | openCall _ _ _ frames _ _ _ =>
      rw [frames, List.length_cons] at hshorter
      omega
    | delegate _ _ frames _ _ _ _ =>
      rw [frames] at hshorter
      omega
  rw [h.eq_turn htoken, (turn_of_alone _ htoken halone).2.1]
  exact h.going

end Turn

/-! ## Alike up to the end of the body -/

section Body

variable {base : List Frame} {a n a' n' : Machine σ} {site low stop stop' i : Nat}
  {callee : Definition} {outer : List Frame}

/-- The machine for a macro of another program does not get to the end of its body by a
    turn outside of any call. -/
theorem Confined.screened (h : Confined low stop' n) (hturn : Turn stop' n n')
    (hbase : base = ⟨site, some callee⟩ :: outer) (hend : callee.extent.stop = stop')
    {token : Token} (htoken : n.program.token? n.pointer = some token) :
    Screened base n n.pointer token := by
  intro hempty
  obtain ⟨hentry, hclear⟩ := h.inside hturn hempty
  have hbefore : ¬stop' ≤ n.pointer := fun hstop => hturn.inside ⟨hempty, hstop⟩
  exact .inr ⟨hclear token htoken, hentry, site, callee, outer, hbase, by omega⟩

/-- As many turns of both machines keep them alike. -/
theorem Alike.turns (h : Alike base a n) (hn : Confined low stop' n)
    (hbase : base = ⟨site, some callee⟩ :: outer) (hend : callee.extent.stop = stop')
    (hturns : Turns stop i a a') (hturns' : Turns stop' i n n') (hgoing : a'.halted = false)
    (hgoing' : n'.halted = false) : Alike base a' n' ∧ Confined low stop' n' := by
  induction hturns' generalizing a' with
  | zero n =>
    cases hturns
    exact ⟨h, hn⟩
  | succ before' last' ih =>
    cases hturns with
    | succ before last =>
      obtain ⟨halike, hconfined⟩ := ih h hn before last.going last'.going
      refine ⟨halike.turn last last' hgoing hgoing'
        (fun _ => hconfined.screened last' hbase hend) ?_,
        hconfined.turn last'⟩
      intro token external call hdone hdone'
      exact ((halike.advance token).callee (takesOf external) external).stack_runTo rfl rfl hdone
        hdone'

omit [Scope σ] in
/-- With a call open, the loop goes on as long as there are tokens. -/
theorem not_rests_of_cons {m : Machine σ} {token : Token} {frame : Frame} {outer : List Frame}
    (htoken : m.program.token? m.pointer = some token) (hframes : m.frames = frame :: outer) :
    ¬Rests stop m := by
  rintro (hnone | ⟨hempty, _⟩)
  · rw [htoken] at hnone
    cases hnone
  · rw [hframes] at hempty
    cases hempty

/-- If its run does not halt, the first machine takes as many turns as the second one. -/
theorem Alike.exists_turns (h : Alike base a n) (hn : Confined low stop' n)
    (hbase : base = ⟨site, some callee⟩ :: outer) (hend : callee.extent.stop = stop')
    (hturns' : Turns stop' i n n') (hgoing' : n'.halted = false) (ha : a.halted = false)
    (hdone : (a.runTo stop).halted = false) :
    ∃ a', Turns stop i a a' ∧ a'.halted = false ∧ (a'.runTo stop).halted = false := by
  induction hturns' with
  | zero n => exact ⟨a, .zero a, ha, hdone⟩
  | succ before' last' ih =>
    obtain ⟨a', hturns, hgoing, hdone'⟩ := ih h hn last'.going
    obtain ⟨halike, _⟩ := h.turns hn hbase hend hturns before' hgoing last'.going
    obtain ⟨token, htoken, _⟩ := last'.turned
    obtain ⟨frame, rest, hframes⟩ : ∃ frame rest, a'.frames = frame :: rest := by
      apply List.exists_cons_of_ne_nil
      rw [halike.frames, hbase]
      exact List.append_ne_nil_of_right_ne_nil _ (List.cons_ne_nil _ _)
    obtain ⟨a'', hturn, hgoing'', hrun⟩ := exists_turn hgoing
      (not_rests_of_cons (halike.token?_eq.trans htoken) hframes) hdone'
    exact ⟨a'', .succ hturns hturn, hgoing'', hrun ▸ hdone'⟩

end Body

/-! ## The two calls side by side -/

/-- The machine `a` is about to call a macro of its program, and the machine `b` to call the
    same macro as one of another program, on an equal stack and at an equal depth. -/
structure SameCall (a b : Machine σ) (extent : Extent) (token : Token) (external : External σ) :
    Prop where
  calls : Calls a.program a.pointer extent
  delegates : Delegates b token external
  program : external.program = a.program
  place : external.extent = extent
  scope : external.scope = a.scope
  stack : b.stack = a.stack
  /-- A macro of another program always finds the memory empty. -/
  memory : a.memory = .empty
  depth : b.depth = a.depth
  limits : b.limits = a.limits

/-- The open calls while the body of a called macro is executed. -/
def callFrames (a : Machine σ) (extent : Extent) : List Frame :=
  ⟨a.pointer, some (a.definitionAt extent.definition)⟩ :: a.frames

namespace SameCall

variable {a b b' : Machine σ} {extent : Extent} {token : Token} {external : External σ}
  {stop stop' : Nat}

theorem opens (h : SameCall a b extent token external) : Opens a extent := by
  refine ⟨h.calls, ?_⟩
  rw [← h.depth, ← h.limits]
  exact h.delegates.room

theorem extent_callee (h : SameCall a b extent token external) :
    (a.definitionAt extent.definition).extent.stop = external.extent.stop := by
  rw [h.calls.extent_definitionAt, h.place]

/-- After the first turn the call is noted and the definition is next. -/
theorem reaching (h : SameCall a b extent token external) (hfirst : Turn stop a (a.later 1)) :
    (a.later 1).frames = ⟨a.pointer, none⟩ :: a.frames
      ∧ ∃ definition, (a.later 1).program.token? (a.later 1).pointer = some definition
        ∧ definition.kind = .macroDefinition := by
  obtain ⟨hframes, _, _, hpointer, _⟩ := hfirst.of_opens h.opens
  refine ⟨hframes, ?_⟩
  rw [hfirst.sameSetting.program, hpointer]
  exact h.calls.extent.2

/-- Once the body is entered, the machines are alike. -/
theorem alike (h : SameCall a b extent token external) (hbounded : a.stack.Bounded)
    (hfirst : Turn stop a (a.later 1)) (hsecond : Turn stop (a.later 1) (a.later 2)) :
    Alike (a.callFrames extent) (a.later 2) (b.nested token external)
      ∧ (a.later 2).halted = false := by
  obtain ⟨_, hstack₁, hmemory₁, hpointer₁, _⟩ := hfirst.of_opens h.opens
  obtain ⟨hframes₁, definition, htoken, hkind⟩ := h.reaching hfirst
  have hsetting := hfirst.sameSetting.trans hsecond.sameSetting
  have hcallee : (a.later 1).definitionAt (a.later 1).pointer
      = a.definitionAt extent.definition := by
    rw [definitionAt, definitionAt, hfirst.sameSetting.program, hpointer₁]
  obtain ⟨hframes₂, hstack₂, hmemory₂, hpointer₂, hgoing₂⟩ :=
    hsecond.of_reaching hframes₁ htoken hkind
  rw [hcallee] at hframes₂ hstack₂
  -- The inputs are counted up to the depth of the stack on one side only.
  have hstack : (a.later 2).stack = b.stack.hide (takesOf external) := by
    rw [hstack₂, hstack₁, ← h.place, (arity_definitionAt h.program).1, hbounded.hide_min, h.stack]
  have houter : (a.later 2).outerDepth + (a.callFrames extent).length
      = (b.nested token external).outerDepth := by
    show (a.later 2).outerDepth + (a.frames.length + 1) = b.depth + 1
    have hdepth : b.depth = a.outerDepth + a.frames.length := h.depth
    rw [hsetting.outerDepth]
    omega
  refine ⟨⟨?_, ?_, ?_, hstack, ?_, ?_, hframes₂, houter, ?_⟩, hgoing₂⟩
  · exact hsetting.program.trans h.program.symm
  · exact hsetting.scope.trans h.scope.symm
  · exact hsetting.limits.trans h.limits.symm
  · exact (hmemory₂.trans hmemory₁).trans h.memory
  · rw [hpointer₂, hpointer₁, ← h.place]
    rfl
  · intro hnil
    cases hnil

/-- The machine for the macro comes to rest at the end of the body with no call open. -/
theorem rests (h : SameCall a b extent token external) (hclosed : a.program.Closed)
    (hdone : ((b.nested token external).runTo external.extent.stop).halted = false) :
    ∃ n, Turns external.extent.stop n (b.nested token external)
        ((b.nested token external).runTo external.extent.stop)
      ∧ ((b.nested token external).runTo external.extent.stop).frames = []
      ∧ ((b.nested token external).runTo external.extent.stop).pointer
        = external.extent.stop := by
  obtain ⟨n, hturns, hrests⟩ := exists_turns_runTo rfl hdone
  have hprogram : ((b.nested token external).runTo external.extent.stop).program = a.program :=
    hturns.sameSetting.program.trans h.program
  obtain ⟨name, hname⟩ : ∃ name, a.program.findMacro? name = some external.extent :=
    h.program ▸ external.located
  have hsize : external.extent.stop < a.program.size := hclosed name _ hname
  have hstart : external.extent.definition + 1 ≤ external.extent.stop := by
    rw [h.place]
    exact h.calls.definition_lt_stop
  have hresumes := hturns.resumption_le rfl hstart
  -- Every call that was opened is of a macro that ends before the program.
  obtain ⟨extents, hbracketed, hall⟩ := hturns.bracketed (P := fun e => e.stop < a.program.size) rfl
    (by
      intro j hj e hopens
      obtain ⟨_, _, _, hfound⟩ := hopens.call
      rw [((hturns.upTo (Nat.le_of_lt hj)).sameSetting.program).trans h.program] at hfound
      exact hclosed _ e hfound)
  rw [hprogram] at hbracketed
  have hempty : ((b.nested token external).runTo external.extent.stop).frames = [] := by
    by_contra hopen
    obtain ⟨next, hnext⟩ := hbracketed.exists_token hopen hall
    rcases hrests with hnone | ⟨hempty, _⟩
    · rw [hprogram, hnext] at hnone
      cases hnone
    · exact hopen hempty
  rw [Machine.resumption_of_nil hempty] at hresumes
  refine ⟨n, hturns, hempty, Nat.le_antisymm hresumes ?_⟩
  rcases hrests with hnone | ⟨_, hstop⟩
  · rw [hprogram] at hnone
    have hpast : a.program.size ≤ _ := Array.getElem?_eq_none_iff.1 hnone
    omega
  · exact hstop

/-- From then on the machines are alike turn by turn. -/
theorem alike_later (h : SameCall a b extent token external) (hbounded : a.stack.Bounded)
    {i n : Nat} {d : Machine σ} (ha : Turns stop (2 + i) a (a.later (2 + i)))
    (hgoing : (a.later (2 + i)).halted = false)
    (hn : Turns external.extent.stop n (b.nested token external) d) (hd : d.halted = false)
    (hi : i ≤ n) :
    Alike (a.callFrames extent) (a.later (2 + i)) ((b.nested token external).later i) := by
  have hfirst : Turn stop a (a.later 1) := ha.turn_later (show 0 < 2 + i by omega)
  have hsecond : Turn stop (a.later 1) (a.later 2) := ha.turn_later (show 1 < 2 + i by omega)
  obtain ⟨halike, _⟩ := h.alike hbounded hfirst hsecond
  have hbody : Turns stop i (a.later 2) (a.later (2 + i)) := by
    have hsince := ha.since (show 2 ≤ 2 + i by omega)
    rwa [Nat.add_sub_cancel_left] at hsince
  exact (halike.turns (confined_nested b token external) rfl h.extent_callee hbody (hn.upTo hi)
    hgoing (hn.going_later hd hi)).1

/-- The end of the body, where `m` has the call open and `d` has come to rest. -/
theorem at_end (h : SameCall a b extent token external) (hclosed : a.program.Closed)
    {m d : Machine σ} (halike : Alike (a.callFrames extent) m d) (hempty : d.frames = [])
    (hpointer : d.pointer = external.extent.stop) (hprogram : m.program = a.program) :
    ¬Rests stop m ∧ ∀ m', Turn stop m m' → m'.frames = a.frames
      ∧ m'.stack = d.stack.reveal (returnsOf external) := by
  have hframes : m.frames = a.callFrames extent := by rw [halike.frames, hempty, List.nil_append]
  obtain ⟨_, _, _, hfound⟩ := h.calls
  have hend : m.pointer = Program.blockEnd a.program.tokens extent.definition := by
    rw [halike.pointer, hpointer, h.place, h.calls.extent.1]
  have hsize : Program.blockEnd a.program.tokens extent.definition < a.program.size := by
    rw [← h.calls.extent.1]
    exact hclosed _ _ hfound
  obtain ⟨next, hnext, hkind⟩ := Program.kind_of_blockEnd hsize
  rw [← hend, ← hprogram] at hnext
  refine ⟨not_rests_of_cons hnext hframes, ?_⟩
  intro m' hturn
  obtain ⟨hback, hstack⟩ := hturn.of_end hframes hnext hkind
    (by rw [h.extent_callee, halike.pointer, hpointer])
  refine ⟨hback, ?_⟩
  rw [hstack, halike.stack, ← h.place, (arity_definitionAt h.program).2, Stack.reveal_min]

/-- Once the call has returned, the stack is the one that the other machine has. -/
theorem stack_of_returns (h : SameCall a b extent token external) (hclosed : a.program.Closed)
    (hbounded : a.stack.Bounded)
    (hdone : ((b.nested token external).runTo external.extent.stop).halted = false) {k : Nat}
    (hreturns : Returns stop a.later k extent) :
    (a.later (k + 1)).stack
      = ((b.nested token external).runTo external.extent.stop).stack.reveal
        (returnsOf external) := by
  obtain ⟨n, hn, hempty, hpointer⟩ := h.rests hclosed hdone
  have hturns : ∀ {j : Nat}, j ≤ k + 1 → Turns stop j a (a.later j) := fun hj =>
    turns_later fun i hi => hreturns.turns i (by omega)
  have hback : (a.later (k + 1)).frames.length = a.frames.length := hreturns.back
  have hgoing : (a.later (k + 1)).halted = false := by
    apply (hreturns.turns k (Nat.le_refl k)).going_of_shorter
    rw [hback]
    exact hreturns.opened.2 k hreturns.opened.1 (Nat.le_refl k)
  -- The call does not return before the other machine has come to rest.
  have hlate : 2 + n ≤ k := by
    by_contra hearly
    have hk := hreturns.opened.1
    obtain ⟨i, hi⟩ : ∃ i, k + 1 = 2 + i := ⟨k - 1, by omega⟩
    rw [hi] at hgoing hback
    have halike := h.alike_later hbounded (hturns (by omega)) hgoing hn hdone (by omega)
    rw [halike.frames, callFrames, List.length_append, List.length_cons] at hback
    omega
  have halike := h.alike_later hbounded (hturns (by omega)) (hreturns.turns _ hlate).going hn hdone
    (Nat.le_refl n)
  rw [← hn.eq_later] at halike
  obtain ⟨hframes, hstack⟩ := (h.at_end hclosed halike hempty hpointer
    (hturns (by omega)).sameSetting.program).2 _ (hreturns.turns _ hlate)
  -- Nor does it stay open after that.
  obtain rfl : 2 + n = k := by
    by_contra hlater
    have hopen := hreturns.opened.2 (2 + n + 1) (by omega) (by omega)
    rw [hframes] at hopen
    exact absurd hopen (Nat.lt_irrefl _)
  exact hstack

/-- If its run does not halt, the machine enters the body. -/
theorem exists_entered (h : SameCall a b extent token external) (hgoing : a.halted = false)
    (hrests : ¬Rests stop a) (hrun : (a.runTo stop).halted = false) :
    Turn stop a (a.later 1) ∧ Turn stop (a.later 1) (a.later 2)
      ∧ ((a.later 2).runTo stop).halted = false := by
  obtain ⟨a₁, hfirst, hgoing₁, hrun₁⟩ := exists_turn hgoing hrests hrun
  obtain rfl : a₁ = a.later 1 := Turn.eq_later (j := 0) hfirst
  obtain ⟨hframes, definition, htoken, _⟩ := h.reaching hfirst
  rw [hrun₁] at hrun
  obtain ⟨a₂, hsecond, _, hrun₂⟩ := exists_turn hgoing₁ (not_rests_of_cons htoken hframes) hrun
  obtain rfl : a₂ = a.later 2 := hsecond.eq_later
  rw [hrun₂] at hrun
  exact ⟨hfirst, hsecond, hrun⟩

/-- If its run does not halt, the call returns. -/
theorem exists_returns (h : SameCall a b extent token external) (hclosed : a.program.Closed)
    (hbounded : a.stack.Bounded)
    (hdone : ((b.nested token external).runTo external.extent.stop).halted = false)
    (hgoing : a.halted = false) (hrests : ¬Rests stop a)
    (hrun : (a.runTo stop).halted = false) : ∃ k, Returns stop a.later k extent := by
  obtain ⟨n, hn, hempty, hpointer⟩ := h.rests hclosed hdone
  obtain ⟨hfirst, hsecond, hrun₂⟩ := h.exists_entered hgoing hrests hrun
  -- The body is executed.
  obtain ⟨halike, hgoing₂⟩ := h.alike hbounded hfirst hsecond
  obtain ⟨a₃, hbody, hgoing₃, hrun₃⟩ := halike.exists_turns (confined_nested b token external) rfl
    h.extent_callee hn hdone hgoing₂ hrun₂
  have hturns : Turns stop (2 + n) a a₃ :=
    (Turns.succ (.succ (.zero a) hfirst) hsecond).append hbody
  obtain rfl := hturns.eq_later
  have hend := h.alike_later hbounded hturns hgoing₃ hn hdone (Nat.le_refl n)
  rw [← hn.eq_later] at hend
  -- The call returns.
  obtain ⟨hgoes, hreturn⟩ := h.at_end hclosed hend hempty hpointer hturns.sameSetting.program
  obtain ⟨a₄, hlast, _, _⟩ := exists_turn hgoing₃ hgoes hrun₃
  obtain rfl := hlast.eq_later
  have hall : ∀ j ≤ 2 + n, Turn stop (a.later j) (a.later (j + 1)) := fun j hj =>
    (hturns.succ hlast).turn_later (by omega)
  refine ⟨2 + n, hall, h.calls, ⟨by omega, ?_⟩, ?_⟩
  · intro j hj hj'
    show a.frames.length < (a.later j).frames.length
    by_cases hone : j = 1
    · rw [hone, (h.reaching hfirst).1, List.length_cons]
      exact Nat.lt_succ_self _
    · obtain ⟨i, rfl⟩ : ∃ i, j = 2 + i := ⟨j - 2, by omega⟩
      have hopen := h.alike_later hbounded (hturns.upTo hj') (hall _ hj').going hn hdone (by omega)
      rw [hopen.frames, callFrames, List.length_append, List.length_cons]
      omega
  · exact congrArg List.length (hreturn _ hlast).1

end SameCall

/-- A macro called in a closed program that defines it and the same macro called from another
    program leave the same stack: once the call within the program has returned, the stack is
    the one after the other call, and the call does return unless the steps run out. -/
theorem calls_agree {program₀ : Program} {scope₀ : σ} {limits₀ : Limits} {stop stop' : Nat}
    {a a' b b' : Machine σ} {extent : Extent} {token : Token} {external : External σ}
    (hreached : Reaches program₀.size (start program₀ scope₀ limits₀) stop a)
    (hclosed : a.program.Closed) (hcalls : SameCall a b extent token external)
    (hnext : Turn stop a a') (hturn : Turn stop' b b') (hgoing : b'.halted = false) :
    (∀ k, Returns stop a.later k extent → (a.later (k + 1)).stack = b'.stack)
      ∧ ((a.runTo stop).halted = false → ∃ k, Returns stop a.later k extent) := by
  have hbounded := hreached.bounded Stack.bounded_empty
  have hturned := hturn.eq_turn hcalls.delegates.here
  have hdone : ((b.nested token external).runTo external.extent.stop).halted = false := by
    rw [hturned, (hcalls.delegates.turn_eq _).2.2, Bool.or_eq_false_iff] at hgoing
    exact hgoing.2
  constructor
  · intro k hreturns
    rw [hcalls.stack_of_returns hclosed hbounded hdone hreturns, hturned,
      (hcalls.delegates.turn_eq _).1]
  · exact hcalls.exists_returns hclosed hbounded hdone hnext.going fun hrests =>
      hrests.not_turn hnext

/-- A value, and the call of a macro that doubles it. -/
def doubled : List Token :=
  [⟨.literal, "0x05", 1, 1⟩, ⟨.call, "D()", 1, 1⟩]

/-- A document that calls the macro and defines it. -/
def doublingOwn : Document :=
  holding (doubled ++
    [⟨.macroDefinition, "#define macro D() = takes(1) returns(2) \x7b", 2, 2⟩,
      ⟨.opcode (.dup 0), "dup1", 3, 3⟩, ⟨.blockEnd, "\x7d", 4, 4⟩]) []

/-- A document that calls the macro and includes the other one. -/
def doublingIncluded : Document :=
  holding doubled [doublingOwn]

/-- The machine before the first token of a document. -/
def ahead (document : Document) : Machine Document :=
  start document.program document { steps := 16 }

theorem calls_agree_doubling :
    (((ahead doublingOwn).later 1).runTo 5).halted = false
      ∧ ∃ k, Returns 5 ((ahead doublingOwn).later 1).later k ⟨2, 4⟩
        ∧ (((ahead doublingOwn).later 1).later (k + 1)).stack
          = ((ahead doublingIncluded).later 2).stack := by
  have hgoes : (∀ j < 2, ((ahead doublingOwn).later j).Goes 5)
      ∧ ∀ j < 2, ((ahead doublingIncluded).later j).Goes 2 := by
    decide +kernel
  have hown : ∀ j < 2, Turn 5 ((ahead doublingOwn).later j) ((ahead doublingOwn).later (j + 1)) :=
    fun j hj => (hgoes.1 j hj).turn_later
  have hincluded : ∀ j < 2,
      Turn 2 ((ahead doublingIncluded).later j) ((ahead doublingIncluded).later (j + 1)) :=
    fun j hj => (hgoes.2 j hj).turn_later
  have hsetting := (hown 0 (by decide)).sameSetting
  have hscope := (hincluded 0 (by decide)).sameSetting.scope
  have hcalls : SameCall ((ahead doublingOwn).later 1) ((ahead doublingIncluded).later 1) ⟨2, 4⟩
      ⟨.call, "D()", 1, 1⟩ ⟨doublingOwn.program, ⟨2, 4⟩, doublingOwn, "D", by decide +kernel⟩ := by
    refine ⟨⟨⟨.call, "D()", 1, 1⟩, by decide +kernel, rfl, by decide +kernel⟩,
      ⟨by decide +kernel, rfl, by decide +kernel, by decide +kernel, ?_⟩,
      hsetting.program.symm, rfl,
      hsetting.scope.symm, by decide +kernel, by decide +kernel, by decide +kernel,
      by decide +kernel⟩
    rw [hscope]
    rfl
  have hclosed : ((ahead doublingOwn).later 1).program.Closed := by
    rw [hsetting.program]
    exact Program.closed_of_macros (by decide +kernel)
  have hreached : Reaches doublingOwn.program.size
      (start doublingOwn.program doublingOwn { steps := 16 }) 5 ((ahead doublingOwn).later 1) :=
    .next (hown 0 (by decide)) (.here _ _)
  obtain ⟨hstack, hreturns⟩ := calls_agree hreached hclosed hcalls (hown 1 (by decide))
    (hincluded 1 (by decide)) (by decide +kernel)
  have hdone : (((ahead doublingOwn).later 1).runTo 5).halted = false := by decide +kernel
  obtain ⟨k, hk⟩ := hreturns hdone
  exact ⟨hdone, k, hk, hstack k hk⟩

end Machine

end HuffTrace
