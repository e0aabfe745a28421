/-
  HuffTrace.Proofs.Machine.Isolation

  Macros that are analysed on their own.  A macro definition met outside of any
  call starts over: whatever values, labels, memory and records a machine
  arrives with, the rest of its run is the same (`runTo_isolated`).
-/

import HuffTrace.Proofs.Machine.Records

namespace HuffTrace.Machine

variable {σ : Type} [Scope σ]

/-- Two machines are about to analyse the same macro, with the same steps left. -/
structure SameAnalysis (a b : Machine σ) (token : Token) : Prop where
  setting : SameSetting a b
  pointer : b.pointer = a.pointer
  steps : b.steps = a.steps
  here : a.program.token? a.pointer = some token
  kind : token.kind = .macroDefinition
  outside : a.frames = [] ∧ b.frames = []
  going : a.halted = false ∧ b.halted = false

/-- The definition leaves the same machine, up to earlier records. -/
theorem SameAnalysis.turn_blank {a b : Machine σ} {token : Token} (h : SameAnalysis a b token)
    (run : Nat → Machine σ → Machine σ) : b.blank.turn run token = a.blank.turn run token := by
  obtain ⟨⟨hprogram, hscope, hlimits, houterDepth, hrecording⟩, hpointer, hsteps, -, hkind,
    ⟨hframes, hframes'⟩, ⟨hgoing, hgoing'⟩⟩ := h
  have hstep : (b.blank.advance token).step run b.blank.pointer token
      = (a.blank.advance token).step run a.blank.pointer token := by
    simp only [step, hkind, define, foldl_record, advance, blank, hframes, hframes', hpointer,
      hprogram, hscope, hlimits, houterDepth, hrecording, hsteps, hgoing, hgoing', Stack.reset,
      Stack.clearLabels]
  unfold turn
  rw [hstep]

theorem SameAnalysis.turn {a b : Machine σ} {token : Token} (h : SameAnalysis a b token)
    {stop : Nat} (hbudget : a.steps < a.limits.steps) (hstop : a.pointer < stop) :
    ∃ m, Turn stop a.blank m ∧ Turn stop b.blank m := by
  have hinside : ∀ {n : Machine σ}, n.pointer = a.pointer →
      ¬(n.frames = [] ∧ stop ≤ n.pointer) := by
    rintro n hn ⟨-, hle⟩
    omega
  refine ⟨a.blank.turn (fun stop n => n.runTo stop) token,
    ⟨h.going.1, hinside rfl, hbudget, token, h.here, rfl⟩,
    ⟨h.going.2, hinside h.pointer, ?_, token, ?_, (h.turn_blank _).symm⟩⟩
  · show b.steps < b.limits.steps
    rw [h.steps, h.setting.limits]
    exact hbudget
  · show b.program.token? b.pointer = some token
    rw [h.setting.program, h.pointer]
    exact h.here

/-- From a macro definition outside of any call, two runs with the same steps left execute the
    same tokens, record the same, and end with the same stack and memory, halted or not.  Their
    stacks, tables of labels, memories, analysed macros and records before are arbitrary.

    The loop is to go past the definition, as the one over a whole program does. -/
theorem runTo_isolated {a b : Machine σ} {token : Token} {stop : Nat} (h : SameAnalysis a b token)
    (hbudget : a.steps < a.limits.steps) (hstop : a.pointer < stop) :
    (∃ heads heads', Visits stop a heads ∧ Visits stop b heads'
        ∧ heads'.map place = heads.map place)
      ∧ AddsAlike a (a.runTo stop) b (b.runTo stop)
      ∧ (b.runTo stop).halted = (a.runTo stop).halted
      ∧ (b.runTo stop).stack = (a.runTo stop).stack
      ∧ (b.runTo stop).memory = (a.runTo stop).memory := by
  obtain ⟨m, hturn, hturn'⟩ := h.turn hbudget hstop
  have halone : ∀ {n : Machine σ}, n.program.token? n.pointer = some token →
      ∀ token' external, ¬Delegates n token' external := fun hn =>
    not_delegates_of_here hn (not_delegates_of_kind (by simp [h.kind]))
  refine ⟨?_, ?_⟩
  · obtain ⟨rest, hrest⟩ := exists_visits stop m
    obtain ⟨heads, hvisits, hplaces⟩ :=
      (Visits.alone hturn (halone h.here) hrest).following a.comments a.faults
    have hhere : b.blank.program.token? b.blank.pointer = some token := by
      show b.program.token? b.pointer = some token
      rw [h.setting.program, h.pointer, h.here]
    obtain ⟨heads', hvisits', hplaces'⟩ :=
      (Visits.alone hturn' (halone hhere) hrest).following b.comments b.faults
    rw [following_blank] at hvisits hvisits'
    refine ⟨heads, heads', hvisits, hvisits', ?_⟩
    rw [hplaces, hplaces', List.map_cons, List.map_cons, place, place]
    show (b.program, b.pointer) :: _ = (a.program, a.pointer) :: _
    rw [h.setting.program, h.pointer]
  · -- Both runs are the same run after other records.
    have hrun : b.blank.runTo stop = a.blank.runTo stop := by
      have hending := hturn'.ending_eq.trans hturn.ending_eq.symm
      rwa [ending, ending, hturn.going, hturn'.going] at hending
    have ha := runTo_following a.comments a.faults a.blank stop
    have hb := runTo_following b.comments b.faults b.blank stop
    rw [following_blank] at ha hb
    rw [ha, hb, hrun]
    exact ⟨addsAlike_of_eq rfl rfl, rfl, rfl, rfl⟩

/-- A program with two macros; the second one jumps to a label that it has not passed. -/
def twoMacros : Program :=
  .ofTokens #[⟨.macroDefinition, "#define macro A() = takes(0) returns(1) \x7b", 1, 1⟩,
    ⟨.literal, "0x01", 2, 2⟩, ⟨.label, "done:", 3, 3⟩, ⟨.blockEnd, "\x7d", 4, 4⟩,
    ⟨.macroDefinition, "#define macro B() = takes(1) returns(1) \x7b", 5, 5⟩,
    ⟨.reference, "done", 6, 6⟩, ⟨.opcode .jump, "jump", 6, 6⟩, ⟨.opcode .pop, "pop", 7, 7⟩,
    ⟨.opcode .pop, "pop", 7, 7⟩, ⟨.blockEnd, "\x7d", 8, 8⟩]

/-- The machine before the first macro. -/
def beforeFirst : Machine Isolated :=
  start twoMacros .isolated { steps := 32 }

/-- A machine before the second macro, with nothing left from the first one. -/
def beforeSecond : Machine Isolated :=
  { beforeFirst with pointer := 4, steps := 4 }

/-- The machine that arrives there after the first macro. -/
def afterFirst : Machine Isolated :=
  beforeFirst.later 4

/-- After the first macro a label is known and comments are recorded, and the second macro still
    adds the same as without them. -/
theorem runTo_isolated_twoMacros :
    (afterFirst.stack ≠ beforeSecond.stack ∧ afterFirst.comments ≠ beforeSecond.comments)
      ∧ AddsAlike afterFirst (afterFirst.runTo 10) beforeSecond (beforeSecond.runTo 10)
      ∧ (beforeSecond.runTo 10).stack = (afterFirst.runTo 10).stack := by
  have hgoes : ∀ j < 4, (beforeFirst.later j).Goes 10 := by decide +kernel
  have hsetting := (turns_later fun j hj => (hgoes j hj).turn_later).sameSetting
  have h : SameAnalysis afterFirst beforeSecond
      ⟨.macroDefinition, "#define macro B() = takes(1) returns(1) \x7b", 5, 5⟩ :=
    ⟨⟨hsetting.program.symm, hsetting.scope.symm, hsetting.limits.symm, hsetting.outerDepth.symm,
        hsetting.recording.symm⟩,
      by decide +kernel, by decide +kernel, by decide +kernel, rfl, ⟨by decide +kernel, rfl⟩,
      ⟨by decide +kernel, rfl⟩⟩
  have hstop : afterFirst.pointer < 10 := by decide +kernel
  obtain ⟨-, hadds, -, hstack, -⟩ := runTo_isolated h (by decide +kernel) hstop
  exact ⟨by decide +kernel, hadds, hstack⟩

end HuffTrace.Machine
