/-
  HuffTrace.Proofs.Machine.Labels

  Which shape a jump brings back.  All calls of an execution share the labels of
  one stack, also those into other programs, and only a macro that is begun
  outside of any call forgets them.  So what a label remembers is told by the
  history of the execution: the shape after the label was last passed since a
  macro was begun (`passed?`), or while it has not been passed, the shape after
  the first jump to it (`awaited?`).  In which call that was makes no difference:
  a second call of a macro goes on with what the first one left.
-/

import HuffTrace.Proofs.Machine.Coverage
import HuffTrace.Proofs.Machine.History
import HuffTrace.Proofs.Opcode.Workspace
import HuffTrace.Proofs.Stack
import Mathlib.Data.List.DropRight

namespace HuffTrace.Machine

variable {σ : Type}

/-! ## Labels and jumps -/

/-- The label that the next turn passes. -/
def mark? (m : Machine σ) : Option String :=
  match m.program.token? m.pointer with
  | some token => if token.kind = .label then some token.name else none
  | none => none

/-- The label that the next turn jumps to, and the values that are left without the operands
    of the jump. -/
def jump? (m : Machine σ) : Option (String × List Value) :=
  match (m.program.token? m.pointer).map Token.kind with
  | some (.opcode .jump) => some (m.pop.1.text, m.stack.visible.drop 1)
  | some (.opcode .jumpi) => some (m.pop.1.text, m.stack.visible.drop 2)
  | _ => none

/-- The label that the next turn jumps to. -/
def target? (m : Machine σ) : Option String :=
  m.jump?.map (·.1)

variable [Scope σ]

/-- The visible values after the next turn. -/
def after (m : Machine σ) : List Value :=
  (m.later 1).stack.visible

/-- What a turn within a program does to labels. -/
inductive Relabels (m : Machine σ) (s : Stack) : Prop where
  | begin (begins : m.Begins) (mark : m.mark? = none) (jump : m.jump? = none)
      (labels : s.labels = []) (pending : s.pending = [])
  | mark (label : String) (begins : ¬m.Begins) (mark : m.mark? = some label) (jump : m.jump? = none)
      (stack : s = m.stack.mark label)
  | jump (label : String) (rest : List Value) (begins : ¬m.Begins) (mark : m.mark? = none)
      (jump : m.jump? = some (label, rest))
      (stack : s = { m.stack with visible := rest }.jump label)
  | keep (begins : ¬m.Begins) (mark : m.mark? = none) (jump : m.jump? = none)
      (labels : s.labels = m.stack.labels) (pending : s.pending = m.stack.pending)

omit [Scope σ] in
theorem Relabels.stack_of_jump {m : Machine σ} {s : Stack} (h : Relabels m s) {label : String}
    {rest : List Value} (hjump : m.jump? = some (label, rest)) :
    s = { m.stack with visible := rest }.jump label := by
  cases h with
  | jump label' rest' _ _ jump stack =>
    obtain ⟨rfl, rfl⟩ := Prod.mk.inj (Option.some.inj (hjump.symm.trans jump))
    exact stack
  | begin _ _ jump | mark _ _ _ jump | keep _ _ jump => cases hjump.symm.trans jump

omit [Scope σ] in
theorem Relabels.stack_of_mark {m : Machine σ} {s : Stack} (h : Relabels m s) {label : String}
    (hmark : m.mark? = some label) : s = m.stack.mark label := by
  cases h with
  | mark label' _ mark _ stack =>
    obtain rfl := Option.some.inj (hmark.symm.trans mark)
    exact stack
  | begin _ mark | jump _ _ _ mark | keep _ mark => cases hmark.symm.trans mark

section Turn

variable {stop : Nat} {m m' : Machine σ} {token : Token}

omit [Scope σ] in
theorem not_begins_of_kind (htoken : m.program.token? m.pointer = some token)
    (hkind : token.kind ≠ .macroDefinition) : ¬m.Begins := by
  rintro ⟨-, hdefines⟩
  rw [htoken, Option.map_some] at hdefines
  exact hkind (Option.some.inj hdefines)

omit [Scope σ] in
theorem mark?_of_kind (htoken : m.program.token? m.pointer = some token)
    (hkind : token.kind ≠ .label) : m.mark? = none := by
  rw [mark?, htoken]
  exact if_neg hkind

omit [Scope σ] in
theorem jump?_of_kind (htoken : m.program.token? m.pointer = some token)
    (hjump : token.kind ≠ .opcode .jump) (hjumpi : token.kind ≠ .opcode .jumpi) :
    m.jump? = none := by
  rw [jump?, htoken, Option.map_some]
  split
  · next hkind => exact absurd (Option.some.inj hkind) hjump
  · next hkind => exact absurd (Option.some.inj hkind) hjumpi
  · rfl

theorem Turn.relabels_of_opcode {op : Opcode} (h : Turn stop m m')
    (htoken : m.program.token? m.pointer = some token) (hkind : token.kind = .opcode op) :
    Relabels m m'.stack := by
  have hbegins : ¬m.Begins := not_begins_of_kind htoken (by simp [hkind])
  have hmark : m.mark? = none := mark?_of_kind htoken (by simp [hkind])
  have hstack : m'.stack
      = (op.run m.limits.memory { stack := m.stack, memory := m.memory }).stack := by
    rw [h.eq_turn htoken, turn_eq, step, hkind]
    show ((m.advance token).runOpcode op).stack = _
    rw [runOpcode, work_eq]
    rfl
  by_cases hjump : op = .jump ∨ op = .jumpi
  · rcases hjump with rfl | rfl
    · apply Relabels.jump m.pop.1.text (m.stack.visible.drop 1) hbegins hmark
      · rw [jump?, htoken, Option.map_some, hkind]
      · rw [hstack]
        exact Workspace.stack_jumpTo 0 _
    · apply Relabels.jump m.pop.1.text (m.stack.visible.drop 2) hbegins hmark
      · rw [jump?, htoken, Option.map_some, hkind]
      · rw [hstack]
        exact Workspace.stack_jumpTo 1 _
  · -- No other opcode reaches the labels.
    have hkept : ∀ {α : Type} (f : Stack → α), (∀ s values, f { s with visible := values } = f s) →
        f m'.stack = f m.stack := by
      intro α f hf
      rw [hstack]
      exact Opcode.run_upholds (upheld_apart f hf (f m.stack)) _ op (fun h => absurd h hjump) rfl
    obtain ⟨hno, hnoi⟩ := not_or.1 hjump
    refine .keep hbegins hmark (jump?_of_kind htoken ?_ ?_) (hkept Stack.labels fun _ _ => rfl)
      (hkept Stack.pending fun _ _ => rfl)
    · simp [hkind, hno]
    · simp [hkind, hnoi]

theorem Turn.relabels_of_begins (h : Turn stop m m') (hbegins : m.Begins) :
    Relabels m m'.stack := by
  obtain ⟨token, htoken, hkind⟩ := Option.map_eq_some_iff.1 hbegins.2
  have hempty : (m.advance token).frames = [] := hbegins.1
  have hforgotten : m'.stack.labels = [] ∧ m'.stack.pending = [] := by
    rw [h.eq_turn htoken, turn_eq, step, hkind]
    show ((m.advance token).define m.pointer token).2.stack.labels = []
      ∧ ((m.advance token).define m.pointer token).2.stack.pending = []
    simp only [define, foldl_record, hempty]
    exact ⟨rfl, rfl⟩
  exact .begin hbegins (mark?_of_kind htoken (by simp [hkind]))
    (jump?_of_kind htoken (by simp [hkind]) (by simp [hkind])) hforgotten.1 hforgotten.2

/-- Every turn within a program does one of these. -/
theorem Turn.relabels (h : Turn stop m m')
    (halone : ∀ token external, ¬Delegates m token external) : Relabels m m'.stack := by
  by_cases hbegins : m.Begins
  · exact h.relabels_of_begins hbegins
  obtain ⟨token, htoken, hturned⟩ := h.turned
  by_cases hop : ∃ op, token.kind = .opcode op
  · obtain ⟨op, hkind⟩ := hop
    exact h.relabels_of_opcode htoken hkind
  have hjump : m.jump? = none :=
    jump?_of_kind htoken (fun hkind => hop ⟨_, hkind⟩) (fun hkind => hop ⟨_, hkind⟩)
  by_cases hlabel : token.kind = .label
  · have hmark : m.mark? = some token.name := by
      rw [mark?, htoken]
      exact if_pos hlabel
    refine .mark token.name hbegins hmark hjump ?_
    rw [hturned, turn_eq, step, hlabel]
    rfl
  have hmark : m.mark? = none := mark?_of_kind htoken hlabel
  obtain ⟨anchor, next, comments, hacts, hnext⟩ :=
    turn_acts (fun stop n => n.runTo stop) m token
  rw [hturned, hnext]
  cases hacts with
  | push v _ =>
    have hkept : ∀ {α : Type} (f : Stack → α), (∀ s values, f { s with visible := values } = f s) →
        f ((m.advance token).push v).stack = f m.stack := by
      intro α f hf
      rw [push_eq, work_eq]
      exact Workspace.push_upholds (upheld_apart f hf _) rfl trivial
    exact .keep hbegins hmark hjump (hkept Stack.labels fun _ _ => rfl)
      (hkept Stack.pending fun _ _ => rfl)
  | opcode op kind => exact absurd ⟨op, kind⟩ hop
  | mark kind => exact absurd kind hlabel
  | analyse _ kind hframes =>
    exact absurd ⟨hframes, by rw [htoken, Option.map_some, kind]⟩ hbegins
  | external _ external _ kind room missing found _ =>
    exact absurd ⟨htoken, kind, room, missing, found⟩ (halone token external)
  | _ => exact .keep hbegins hmark hjump rfl rfl

/-- A call into another program itself has nothing to do with labels. -/
theorem Delegates.silent {external : External σ} (call : Delegates m token external) :
    ¬m.Begins ∧ m.mark? = none ∧ m.jump? = none :=
  ⟨not_begins_of_kind call.here (by simp [call.kind]),
    mark?_of_kind call.here (by simp [call.kind]),
    jump?_of_kind call.here (by simp [call.kind]) (by simp [call.kind])⟩

end Turn

/-! ## What the history tells -/

/-- The heads since a macro was last begun outside of any call. -/
def since (past : List (Machine σ)) : List (Machine σ) :=
  past.rtakeWhile fun m => !decide m.Begins

/-- The head at which a label was last passed since a macro was begun. -/
def passed? (label : String) (past : List (Machine σ)) : Option (Machine σ) :=
  (since past).reverse.find? fun m => m.mark? == some label

/-- The head of the first jump to a label since a macro was begun, as long as the label has not
    been passed. -/
def awaited? (label : String) (past : List (Machine σ)) : Option (Machine σ) :=
  if (passed? label past).isSome then none
  else (since past).find? fun m => m.target? == some label

section Concat

variable (label : String) (past : List (Machine σ)) {m : Machine σ}

omit [Scope σ] in
theorem since_concat (m : Machine σ) :
    since (past ++ [m]) = if m.Begins then [] else since past ++ [m] := by
  rw [since, List.rtakeWhile_concat]
  by_cases hbegins : m.Begins <;> simp [hbegins, since]

omit [Scope σ] in
/-- A macro that is begun makes all labels forgotten. -/
theorem concat_of_begins (h : m.Begins) :
    passed? label (past ++ [m]) = none ∧ awaited? label (past ++ [m]) = none := by
  have hsince : since (past ++ [m]) = [] := by rw [since_concat, if_pos h]
  have hpassed : passed? label (past ++ [m]) = none := by
    rw [passed?, hsince]
    rfl
  refine ⟨hpassed, ?_⟩
  rw [awaited?, hpassed, hsince]
  rfl

omit [Scope σ] in
theorem passed?_concat (h : ¬m.Begins) :
    passed? label (past ++ [m])
      = if m.mark? = some label then some m else passed? label past := by
  rw [passed?, since_concat, if_neg h, List.reverse_append, List.reverse_singleton,
    List.singleton_append, List.find?_cons]
  by_cases hmark : m.mark? = some label
  · simp [hmark]
  · rw [beq_false_of_ne hmark, if_neg hmark]
    rfl

omit [Scope σ] in
theorem awaited?_concat_of_mark (h : ¬m.Begins) (hmark : m.mark? = some label) :
    awaited? label (past ++ [m]) = none := by
  rw [awaited?, passed?_concat label past h, if_pos hmark]
  rfl

omit [Scope σ] in
theorem awaited?_concat (h : ¬m.Begins) (hmark : m.mark? ≠ some label) :
    awaited? label (past ++ [m])
      = if passed? label past = none ∧ m.target? = some label then
          some ((awaited? label past).getD m)
        else awaited? label past := by
  rw [awaited?, awaited?, passed?_concat label past h, if_neg hmark, since_concat, if_neg h,
    List.find?_append]
  cases passed? label past with
  | some a => simp
  | none =>
    simp only [Option.isSome_none, Bool.false_eq_true, if_false, true_and]
    cases (since past).find? fun m => m.target? == some label with
    | some a => simp
    | none =>
      by_cases hjump : m.target? = some label
      · simp [hjump]
      · simp [hjump]

end Concat

/-! ## What the stack remembers -/

/-- A stack remembers for a label what the history tells. -/
structure Recalls (label : String) (past : List (Machine σ)) (s : Stack) : Prop where
  labels : s.labels.find? label = (passed? label past).map after
  pending : s.pending.find? label = (awaited? label past).map after

section Recalls

variable {label : String} {past : List (Machine σ)} {m : Machine σ} {s s' : Stack}

theorem Recalls.congr (h : Recalls label past s) (hlabels : s'.labels = s.labels)
    (hpending : s'.pending = s.pending) : Recalls label past s' := by
  refine ⟨?_, ?_⟩
  · rw [hlabels]
    exact h.labels
  · rw [hpending]
    exact h.pending

theorem Recalls.idle (h : Recalls label past s) (hbegins : ¬m.Begins) (hmark : m.mark? = none)
    (hjump : m.jump? = none) : Recalls label (past ++ [m]) s := by
  have hother : m.mark? ≠ some label := by simp [hmark]
  have htarget : m.target? ≠ some label := by simp [target?, hjump]
  refine ⟨?_, ?_⟩
  · rw [passed?_concat label past hbegins, if_neg hother]
    exact h.labels
  · rw [awaited?_concat label past hbegins hother, if_neg (fun hboth => htarget hboth.2)]
    exact h.pending

theorem Recalls.mark {other : String} (h : Recalls label past m.stack) (hbegins : ¬m.Begins)
    (hmark : m.mark? = some other) (hjump : m.jump? = none)
    (hstack : (m.later 1).stack = m.stack.mark other) :
    Recalls label (past ++ [m]) (m.later 1).stack := by
  have hafter : m.after = (m.stack.mark other).visible := congrArg Stack.visible hstack
  rw [hstack]
  by_cases hlabel : label = other
  · subst hlabel
    refine ⟨?_, ?_⟩
    · rw [Stack.labels_mark, if_pos rfl, passed?_concat label past hbegins, if_pos hmark,
        Option.map_some, hafter]
    · rw [Stack.pending_mark, if_pos rfl, awaited?_concat_of_mark label past hbegins hmark]
      rfl
  · have hother : m.mark? ≠ some label := by
      rw [hmark]
      exact fun heq => hlabel (Option.some.inj heq).symm
    have htarget : m.target? ≠ some label := by simp [target?, hjump]
    refine ⟨?_, ?_⟩
    · rw [Stack.labels_mark, if_neg hlabel, passed?_concat label past hbegins, if_neg hother]
      exact h.labels
    · rw [Stack.pending_mark, if_neg hlabel, awaited?_concat label past hbegins hother,
        if_neg (fun hboth => htarget hboth.2)]
      exact h.pending

theorem Recalls.jump {other : String} {rest : List Value} (h : Recalls label past m.stack)
    (hbegins : ¬m.Begins) (hmark : m.mark? = none) (hjump : m.jump? = some (other, rest))
    (hstack : (m.later 1).stack = { m.stack with visible := rest }.jump other) :
    Recalls label (past ++ [m]) (m.later 1).stack := by
  have hnone : m.mark? ≠ some label := by simp [hmark]
  have htarget : m.target? = some other := by rw [target?, hjump, Option.map_some]
  refine ⟨?_, ?_⟩
  · rw [hstack, Stack.labels_jump, passed?_concat label past hbegins, if_neg hnone]
    exact h.labels
  rw [hstack, Stack.pending_jump, awaited?_concat label past hbegins hnone, htarget]
  show (if label = other ∧ m.stack.labels.find? other = none then
      some ((m.stack.pending.find? other).getD rest) else m.stack.pending.find? label) = _
  by_cases hfirst : label = other ∧ passed? label past = none
  · obtain ⟨rfl, hpassed⟩ := hfirst
    have hmissing : m.stack.labels.find? label = none := by
      rw [h.labels, hpassed]
      rfl
    -- Nothing is brought back, so the values that are left are those that will wait.
    have hafter : m.after = rest := by
      rw [after, hstack, Stack.visible_jump]
      show (m.stack.labels.find? label).getD rest = rest
      rw [hmissing]
      rfl
    rw [if_pos ⟨rfl, hmissing⟩, if_pos ⟨hpassed, rfl⟩, h.pending, Option.map_some]
    cases awaited? label past with
    | none => rw [← hafter]; rfl
    | some a => rfl
  · have hfound : ¬(label = other ∧ m.stack.labels.find? other = none) := by
      rintro ⟨rfl, hmissing⟩
      rw [h.labels, Option.map_eq_none_iff] at hmissing
      exact hfirst ⟨rfl, hmissing⟩
    have hpassed : ¬(passed? label past = none ∧ some other = some label) := fun hboth =>
      hfirst ⟨(Option.some.inj hboth.2).symm, hboth.1⟩
    rw [if_neg hfound, if_neg hpassed]
    exact h.pending

/-- A turn within a program changes what the stack remembers as it adds to the history. -/
theorem Recalls.turn (h : Recalls label past m.stack) (hturn : Relabels m (m.later 1).stack) :
    Recalls label (past ++ [m]) (m.later 1).stack := by
  cases hturn with
  | begin begins _ _ labels pending =>
    obtain ⟨hpassed, hawaited⟩ := concat_of_begins label past begins
    refine ⟨?_, ?_⟩
    · rw [labels, hpassed]
      rfl
    · rw [pending, hawaited]
      rfl
  | mark other begins mark jump stack => exact h.mark begins mark jump stack
  | jump other rest begins mark jump stack => exact h.jump begins mark jump stack
  | keep begins mark jump labels pending => exact (h.congr labels pending).idle begins mark jump

end Recalls

/-- At each of the heads that follow a history the stack remembers what is told up to it. -/
def Recounts (label : String) : List (Machine σ) → List (Machine σ) → Prop
  | _, [] => True
  | past, m :: rest => Recalls label past m.stack ∧ Recounts label (past ++ [m]) rest

theorem recounts_append {label : String} {past heads rest : List (Machine σ)} :
    Recounts label past (heads ++ rest)
      ↔ Recounts label past heads ∧ Recounts label (past ++ heads) rest := by
  induction heads generalizing past with
  | nil => simp [Recounts]
  | cons m heads ih => simp only [List.cons_append, Recounts, ih, and_assoc, List.append_assoc,
      List.nil_append]

/-- Throughout a loop, the machines for other programs included, the stack remembers what the
    history tells. -/
theorem Visits.recounts {label : String} {stop : Nat} {m : Machine σ}
    {past heads : List (Machine σ)} (h : Visits stop m heads) (hm : Recalls label past m.stack) :
    Recounts label past heads ∧ Recalls label (past ++ heads) (ending stop m).stack := by
  induction h generalizing past with
  | ends ends =>
    refine ⟨trivial, ?_⟩
    rw [stack_ending ends, List.append_nil]
    exact hm
  | alone turn alone onwards ih =>
    rename_i stop m m' rest
    have hlater : m' = m.later 1 := turn.eq_later (j := 0)
    subst hlater
    obtain ⟨hrest, hend⟩ := ih (hm.turn (turn.relabels alone))
    rw [List.append_assoc] at hend
    rw [turn.ending_eq]
    exact ⟨⟨hm, hrest⟩, hend⟩
  | delegate turn call nested onwards ihnested ihonwards =>
    rename_i stop m m' token external inner rest
    -- The stack is handed on with all labels, and taken back with them.
    obtain ⟨hbegins, hmark, hjump⟩ := call.silent
    have hnested : Recalls label (past ++ [m]) (m.nested token external).stack :=
      (hm.idle hbegins hmark hjump).congr rfl rfl
    obtain ⟨hinner, hended⟩ := ihnested hnested
    have hback : Recalls label (past ++ [m] ++ inner) m'.stack := by
      rw [turn.eq_turn call.here, (call.turn_eq _).1]
      exact hended.congr rfl rfl
    obtain ⟨hrest, hend⟩ := ihonwards hback
    rw [turn.ending_eq]
    refine ⟨⟨hm, recounts_append.2 ⟨hinner, hrest⟩⟩, ?_⟩
    rw [List.append_assoc, List.append_assoc] at hend
    exact hend

/-! ## Executions -/

section Restored

variable {label : String} {past : List (Machine σ)} {stop : Nat} {b b' : Machine σ}

/-- A jump brings back what was there when its label was last passed, if it has been passed. -/
theorem Recalls.after_jump (h : Recalls label past b.stack) (hturn : Turn stop b b')
    {rest : List Value} (hjump : b.jump? = some (label, rest)) :
    b.after = ((passed? label past).map after).getD rest := by
  have hlater : b' = b.later 1 := hturn.eq_later (j := 0)
  subst hlater
  have halone : ∀ token external, ¬Delegates b token external := by
    intro token external call
    rw [call.silent.2.2] at hjump
    cases hjump
  rw [after, (hturn.relabels halone).stack_of_jump hjump, Stack.visible_jump]
  show (b.stack.labels.find? label).getD rest = _
  rw [h.labels]

/-- A label takes on what was there at the first jump to it, if that is still to be taken on. -/
theorem Recalls.after_mark (h : Recalls label past b.stack) (hturn : Turn stop b b')
    (hmark : b.mark? = some label) :
    b.after = ((awaited? label past).map after).getD b.stack.visible := by
  have hlater : b' = b.later 1 := hturn.eq_later (j := 0)
  subst hlater
  have halone : ∀ token external, ¬Delegates b token external := by
    intro token external call
    rw [call.silent.2.1] at hmark
    cases hmark
  rw [after, (hturn.relabels halone).stack_of_mark hmark, ← h.pending]
  rfl

end Restored

/-- An execution has a history of the heads at which a token is executed, its own and those of
    the machines that it starts.  A jump brings back the values that were visible after its label
    was last passed since a macro was begun outside of any call, and leaves the values under its
    operands if the label has not been passed since; a label that has not been passed since then
    takes on the values that were visible after the first jump to it since. -/
theorem execute_recalls_labels (program : Program) (scope : σ) (limits : Limits) :
    ∃ heads, Visits program.size (start program scope limits) heads
      ∧ (∀ b, b ∈ heads ↔ ∃ stop b', Reaches program.size (start program scope limits) stop b
        ∧ Turn stop b b')
      ∧ ∀ past b rest, heads = past ++ b :: rest → ∀ label,
        (∀ left, b.jump? = some (label, left) →
          b.after = ((passed? label past).map after).getD left)
        ∧ (b.mark? = some label →
          b.after = ((awaited? label past).map after).getD b.stack.visible) := by
  obtain ⟨heads, hvisits⟩ := exists_visits program.size (start program scope limits)
  refine ⟨heads, hvisits, fun b => hvisits.mem_iff, ?_⟩
  intro past b rest hheads label
  have hstart : Recalls label ([] : List (Machine σ)) (start program scope limits).stack :=
    ⟨rfl, rfl⟩
  obtain ⟨hrecounts, -⟩ := hvisits.recounts hstart
  rw [hheads, recounts_append] at hrecounts
  have hrecalls : Recalls label past b.stack := hrecounts.2.1
  obtain ⟨stop, b', -, hturn⟩ := hvisits.exists_reaches (show b ∈ heads by rw [hheads]; simp)
  exact ⟨fun left hjump => hrecalls.after_jump hturn hjump, hrecalls.after_mark hturn⟩

/-- The call that is innermost at a machine, or outside of any call the analysis of a macro, goes
    on until after a number of turns, where it is innermost again. -/
def Continues (m : Machine σ) (n : Nat) : Prop :=
  (m.later n).frames.length = m.frames.length
    ∧ ∀ j < n, m.frames.length ≤ (m.later j).frames.length
      ∧ (m.frames = [] → ¬(m.later j).Begins)

instance (m : Machine σ) (n : Nat) : Decidable (m.Continues n) :=
  inferInstanceAs (Decidable (_ ∧ ∀ j < n, _ ∧ (_ → _)))

/-- A program that calls a macro twice, with another value each time; the macro jumps to a label
    of its own and passes it. -/
def keepingTwice : Program :=
  .ofTokens #[⟨.macroDefinition, "#define macro MAIN() = takes(0) returns(0) \x7b", 1, 1⟩,
    ⟨.literal, "0x01", 2, 2⟩, ⟨.call, "KEEP()", 3, 3⟩, ⟨.literal, "0x02", 4, 4⟩,
    ⟨.call, "KEEP()", 5, 5⟩, ⟨.blockEnd, "\x7d", 6, 6⟩,
    ⟨.macroDefinition, "#define macro KEEP() = takes(1) returns(1) \x7b", 7, 7⟩,
    ⟨.reference, "done", 8, 8⟩, ⟨.opcode .jump, "jump", 8, 8⟩, ⟨.label, "done:", 9, 9⟩,
    ⟨.blockEnd, "\x7d", 10, 10⟩]

/-- The machine before its first token. -/
def beforeKeeping : Machine Isolated :=
  start keepingTwice .isolated { steps := 32 }

/-- In the second call the jump brings back the value of the first one, although the label has
    not been passed in the second call. -/
theorem jump_restores_earlier_call :
    Turns 11 13 beforeKeeping (beforeKeeping.later 13)
      ∧ (beforeKeeping.later 12).jump? = some ("done", [.known 2 "0x02"])
      ∧ (beforeKeeping.later 12).after = [.known 1 "0x01"]
      ∧ ∀ i < 12, (beforeKeeping.later i).mark? = some "done" →
        ¬(beforeKeeping.later i).Continues (12 - i) := by
  have hgoes : ∀ j < 13, (beforeKeeping.later j).Goes 11 := by decide +kernel
  refine ⟨turns_later fun j hj => (hgoes j hj).turn_later, ?_⟩
  decide +kernel

end HuffTrace.Machine
