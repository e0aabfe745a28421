/-
  HuffTrace.Proofs.Machine.Lines

  Where the records of a run stand.  Whatever a turn meets it records at the
  line of its token, faults of a machine for another program included, and the
  comment that follows belongs to the last token of a line (`Placed.turn`).  So
  all lines in the records of a run are lines of tokens of its own program,
  however deep the calls lead into others.
-/

import HuffTrace.Proofs.Machine.Budget
import HuffTrace.Proofs.Machine.Heads

namespace HuffTrace

namespace Machine

variable {σ : Type}

/-! ## Faults -/

/-- The faults that are added between two machines are recorded at one line. -/
def NotesAt (line : Nat) (m m' : Machine σ) : Prop :=
  ∃ met : List Fault, m'.faults = met.foldl (fun d fault => d.add line fault) m.faults

section Notes

variable {line : Nat} {m m' : Machine σ}

theorem notesAt_of_eq (h : m'.faults = m.faults) : NotesAt line m m' :=
  ⟨[], h⟩

theorem NotesAt.congr {m'' : Machine σ} (h : NotesAt line m m') (hsame : m''.faults = m'.faults) :
    NotesAt line m m'' := by
  obtain ⟨met, hfaults⟩ := h
  exact ⟨met, hsame.trans hfaults⟩

/-- An added fault is at that line. -/
theorem NotesAt.line_of_mem (h : NotesAt line m m') {found : Located Fault}
    (hfound : found ∈ m'.faults.toList) : found ∈ m.faults.toList ∨ found.line = line := by
  obtain ⟨met, hfaults⟩ := h
  rw [hfaults] at hfound
  clear hfaults
  generalize m.faults = d at hfound ⊢
  induction met generalizing d with
  | nil => exact .inl hfound
  | cons fault met ih =>
    -- The induction speaks of the collection after the first fault.
    rcases ih _ hfound with hbefore | hline
    · rcases List.mem_cons.1 ((Diagnostics.perm_add d line fault).mem_iff.1 hbefore) with rfl | h
      · exact .inr rfl
      · exact .inl h
    · exact .inr hline

theorem notesAt_foldl (m : Machine σ) (met : List Fault) :
    NotesAt m.line m (met.foldl record m) :=
  ⟨met, by rw [foldl_record]⟩

theorem notesAt_record (m : Machine σ) (fault : Fault) : NotesAt m.line m (m.record fault) :=
  notesAt_foldl m [fault]

theorem notesAt_work (m : Machine σ) (operation : Workspace → Workspace) :
    NotesAt m.line m (m.work operation) :=
  ⟨_, by rw [work_eq]⟩

theorem notesAt_push (m : Machine σ) (v : Value) : NotesAt m.line m (m.push v) :=
  notesAt_work m _

theorem faults_leave (m : Machine σ) : m.leave.2.faults = m.faults := by
  unfold leave
  split <;> rfl

theorem notesAt_define (m : Machine σ) (position : Nat) (token : Token) :
    NotesAt m.line m (m.define position token).2 := by
  have hnoted : NotesAt m.line m (m.noted position token) := notesAt_foldl m _
  unfold define
  simp only
  -- The flaws are recorded before a return changes the line.
  split
  · exact hnoted.congr (faults_leave _)
  · exact hnoted.congr rfl
  · exact hnoted.congr rfl

theorem faults_closeBlock (m : Machine σ) (position : Nat) :
    (m.closeBlock position).2.faults = m.faults := by
  unfold closeBlock
  split
  · split
    · exact faults_leave m
    · rfl
  · rfl
  · split
    · split <;> rfl
    · rfl

/-- The faults of another program are recorded again, at the line of the call. -/
theorem notesAt_callExternal (run : Nat → Machine σ → Machine σ) (m : Machine σ)
    (external : External σ) : NotesAt m.line m (m.callExternal run external) :=
  notesAt_foldl { m with stack := _, steps := _, halted := _ } _

variable [Scope σ]

theorem notesAt_call (run : Nat → Machine σ → Machine σ) (m : Machine σ) (position : Nat)
    (name : String) : NotesAt m.line m (m.call run position name).2 := by
  unfold call
  split
  · exact notesAt_record m _
  · split
    · exact notesAt_of_eq rfl
    · split
      · exact notesAt_callExternal run m _
      · exact notesAt_record m _

theorem notesAt_runBuiltin (m : Machine σ) (token : Token) (builtin : Builtin) :
    NotesAt m.line m (m.runBuiltin token builtin) := by
  cases builtin with
  | verbatim => exact notesAt_of_eq rfl
  | _ => exact notesAt_push m _

theorem notesAt_step (run : Nat → Machine σ → Machine σ) (m : Machine σ) (position : Nat)
    (token : Token) : NotesAt m.line m (m.step run position token).2 := by
  unfold step
  split
  · exact notesAt_define m position token
  · exact notesAt_call run m position token.name
  · exact notesAt_of_eq (faults_closeBlock m position)
  · exact notesAt_of_eq rfl
  · exact notesAt_push m _
  · exact notesAt_push m _
  · exact notesAt_push m _
  · exact notesAt_push m _
  · exact notesAt_runBuiltin m token _
  · exact notesAt_work m _
  · split
    · exact notesAt_of_eq rfl
    · exact notesAt_record m _
  all_goals exact notesAt_of_eq rfl

/-- A turn records faults at the line of its token only. -/
theorem notesAt_turn (run : Nat → Machine σ → Machine σ) (m : Machine σ) (token : Token) :
    NotesAt token.line m (m.turn run token) := by
  rw [turn_eq]
  exact notesAt_step run (m.advance token) m.pointer token

end Notes

/-! ## Comments -/

/-- A comment stands at the end of the last token of a line, which is no closing brace. -/
def Anchored (program : Program) (c : Comment) : Prop :=
  ∃ position token, program.token? position = some token
    ∧ program.isLastOnLine position = true ∧ token.kind ≠ .blockEnd ∧ c.line = token.endLine

theorem anchored_of_mem_comment {m : Machine σ} {position : Nat} {c : Comment}
    (h : c ∈ (m.comment position).comments) : c ∈ m.comments ∨ Anchored m.program c := by
  unfold comment at h
  split at h
  · next token htoken =>
    split at h
    · next hrecord =>
      rcases Array.mem_push.1 h with h | rfl
      · exact .inl h
      · exact .inr ⟨position, token, htoken, hrecord.2.1, hrecord.2.2, rfl⟩
    · exact .inl h
  · exact .inl h

/-! ## Runs -/

/-- All that a machine has recorded stands at tokens of its program. -/
structure Placed (m : Machine σ) : Prop where
  faults : ∀ found ∈ m.faults.toList, ∃ token ∈ m.program.tokens, found.line = token.line
  comments : ∀ c ∈ m.comments, Anchored m.program c

theorem placed_start (program : Program) (scope : σ) (limits : Limits) :
    Placed (start program scope limits) :=
  ⟨nofun, nofun⟩

theorem Placed.halt {m : Machine σ} {token : Token} (h : Placed m)
    (htoken : m.program.token? m.pointer = some token) : Placed (m.halt token) := by
  refine ⟨fun found hfound => ?_, h.comments⟩
  rcases (notesAt_record { m with line := token.line } _).line_of_mem hfound with hbefore | hline
  · exact h.faults found hbefore
  · exact ⟨token, Array.mem_of_getElem? htoken, hline⟩

section Run

variable [Scope σ]

theorem anchored_of_mem_turn {run : Nat → Machine σ → Machine σ} {m : Machine σ} {token : Token}
    {c : Comment} (h : c ∈ (m.turn run token).comments) :
    c ∈ m.comments ∨ Anchored m.program c := by
  have hacts := step_acts run (m.advance token) m.pointer token
  have hcomments := hacts.comments
  have hprogram := hacts.sameSetting.program
  unfold turn at h
  split at h
  · next position after hstep =>
    rw [hstep] at hcomments hprogram
    have hcase := anchored_of_mem_comment h
    rwa [show after.comments = m.comments from hcomments,
      show after.program = m.program from hprogram] at hcase
  · next after hstep =>
    rw [hstep] at hcomments
    rw [show after.comments = m.comments from hcomments] at h
    exact .inl h

/-- A turn keeps records at tokens, whatever a machine that it starts has recorded. -/
theorem Placed.turn {run : Nat → Machine σ → Machine σ} {m : Machine σ} {token : Token}
    (h : Placed m) (htoken : m.program.token? m.pointer = some token) :
    Placed (m.turn run token) := by
  have hprogram := (turn_sameSetting run m token).program
  constructor
  · intro found hfound
    rw [hprogram]
    rcases (notesAt_turn run m token).line_of_mem hfound with hbefore | hline
    · exact h.faults found hbefore
    · exact ⟨token, Array.mem_of_getElem? htoken, hline⟩
  · intro c hc
    rw [hprogram]
    exact (anchored_of_mem_turn hc).elim (h.comments c) id

theorem Executes.placed {stop k : Nat} {m d : Machine σ} (h : Executes stop k m d)
    (hm : Placed m) : Placed d := by
  induction h with
  | halted | rest => exact hm
  | exhaust going here inside exhausted => exact hm.halt here
  | turn going here inside budget nested alone onwards ihnested ihonwards =>
    -- Nothing is asked of the nested run: its faults are recorded again at the call.
    exact ihonwards (hm.turn here)

/-- The records of an execution stand at tokens of its program. -/
theorem placed_execute (program : Program) (scope : σ) (limits : Limits) :
    Placed (start program scope limits).execute := by
  rw [execute_start]
  obtain ⟨k, hexecutes⟩ :=
    exists_executes_runTo program.size (m := start program scope limits) rfl
  exact hexecutes.placed (placed_start program scope limits)

theorem program_execute (program : Program) (scope : σ) (limits : Limits) :
    (start program scope limits).execute.program = program :=
  (runFor_sameSetting limits.steps program.size (start program scope limits)).program

end Run

end Machine

end HuffTrace
