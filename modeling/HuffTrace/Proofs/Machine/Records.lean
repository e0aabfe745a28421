/-
  HuffTrace.Proofs.Machine.Records

  What a machine has recorded.  Nothing that a machine does depends on the
  comments and faults that it has recorded so far: with other records before
  its own it takes the same turns and records the same after them
  (`turn_following`, `runTo_following`).  So what a run adds is what the machine
  without records would record (`addsAlike_of_eq`).
-/

import HuffTrace.Proofs.Diagnostics
import HuffTrace.Proofs.Machine.History

namespace HuffTrace

namespace Machine

variable {σ : Type}

/-- The machine with other records before its own. -/
def following (m : Machine σ) (comments : Array Comment) (faults : Diagnostics Fault) : Machine σ :=
  { m with comments := comments ++ m.comments, faults := faults.merge m.faults }

/-- The machine without records. -/
def blank (m : Machine σ) : Machine σ :=
  { m with comments := #[], faults := {} }

theorem following_blank (m : Machine σ) : m.blank.following m.comments m.faults = m := by
  have hcomments : m.comments ++ (#[] : Array Comment) = m.comments := Array.append_empty
  simp only [following, blank, hcomments, Diagnostics.merge_empty]

section Steps

variable (m : Machine σ) (comments : Array Comment) (faults : Diagnostics Fault)

@[simp] theorem following_program : (m.following comments faults).program = m.program := rfl

@[simp] theorem following_scope : (m.following comments faults).scope = m.scope := rfl

@[simp] theorem following_limits : (m.following comments faults).limits = m.limits := rfl

@[simp] theorem following_frames : (m.following comments faults).frames = m.frames := rfl

@[simp] theorem following_entry : (m.following comments faults).entry = m.entry := rfl

@[simp] theorem following_depth : (m.following comments faults).depth = m.depth := rfl

@[simp] theorem following_recording : (m.following comments faults).recording = m.recording := rfl

@[simp] theorem following_halted : (m.following comments faults).halted = m.halted := rfl

theorem record_following (fault : Fault) :
    (m.following comments faults).record fault = (m.record fault).following comments faults := by
  show { m with comments := _, faults := (faults.merge m.faults).add m.line fault } = _
  rw [← Diagnostics.merge_add]
  rfl

theorem foldl_record_following (met : List Fault) :
    met.foldl record (m.following comments faults)
      = (met.foldl record m).following comments faults := by
  induction met generalizing m with
  | nil => rfl
  | cons fault met ih => rw [List.foldl_cons, List.foldl_cons, record_following, ih]

theorem work_following (operation : Workspace → Workspace) :
    (m.following comments faults).work operation
      = (m.work operation).following comments faults :=
  foldl_record_following { m with stack := _, memory := _ } comments faults _

theorem push_following (v : Value) :
    (m.following comments faults).push v = (m.push v).following comments faults :=
  work_following m comments faults _

theorem leave_following :
    (m.following comments faults).leave
      = (m.leave.1, m.leave.2.following comments faults) := by
  unfold leave
  rw [following_frames]
  cases m.frames with
  | nil => rfl
  | cons frame outer => rfl

theorem define_following (position : Nat) (token : Token) :
    (m.following comments faults).define position token
      = ((m.define position token).1, (m.define position token).2.following comments faults) := by
  simp only [define, following_program, foldl_record_following]
  rw [following_frames]
  split
  · exact leave_following _ comments faults
  · rfl
  · rfl

theorem closeBlock_following (position : Nat) :
    (m.following comments faults).closeBlock position
      = ((m.closeBlock position).1, (m.closeBlock position).2.following comments faults) := by
  unfold closeBlock
  rw [following_frames, following_entry]
  split
  · split
    · exact leave_following m comments faults
    · rfl
  · rfl
  · split
    · split <;> rfl
    · rfl

theorem comment_following (position : Nat) :
    (m.following comments faults).comment position
      = (m.comment position).following comments faults := by
  unfold comment
  rw [following_program, following_recording]
  split
  · split
    · show { m with comments := (comments ++ m.comments).push _, faults := _ } = _
      rw [← Array.append_push]
      rfl
    · rfl
  · rfl

/-- A machine started for another program has no records of its caller. -/
theorem callExternal_following (run : Nat → Machine σ → Machine σ) (external : External σ) :
    (m.following comments faults).callExternal run external
      = (m.callExternal run external).following comments faults :=
  foldl_record_following { m with stack := _, steps := _, halted := _ } comments faults _

end Steps

section Turns

variable [Scope σ] (m : Machine σ) (comments : Array Comment) (faults : Diagnostics Fault)

theorem runBuiltin_following (token : Token) (builtin : Builtin) :
    (m.following comments faults).runBuiltin token builtin
      = (m.runBuiltin token builtin).following comments faults := by
  unfold runBuiltin
  split
  · exact push_following m comments faults _
  · exact push_following m comments faults _
  · exact push_following m comments faults _
  · exact push_following m comments faults _
  · exact push_following m comments faults _
  · rfl

theorem call_following (run : Nat → Machine σ → Machine σ) (position : Nat) (name : String) :
    (m.following comments faults).call run position name
      = ((m.call run position name).1, (m.call run position name).2.following comments faults) := by
  unfold call
  rw [following_limits, following_depth, following_program, following_scope]
  split
  · rw [record_following]
  · split
    · rfl
    · split
      · rw [callExternal_following]
      · rw [record_following]

theorem step_following (run : Nat → Machine σ → Machine σ) (position : Nat) (token : Token) :
    (m.following comments faults).step run position token
      = ((m.step run position token).1,
          (m.step run position token).2.following comments faults) := by
  unfold step
  split
  · exact define_following m comments faults position token
  · exact call_following m comments faults run position token.name
  · exact closeBlock_following m comments faults position
  · rfl
  · rw [push_following]
  · rw [push_following]
  · rw [push_following]
  · rw [push_following]
  · rw [runBuiltin_following]
  · rw [runOpcode, work_following]
    rfl
  · split
    · rfl
    · rw [record_following]
  all_goals rfl

theorem turn_following (run : Nat → Machine σ → Machine σ) (token : Token) :
    (m.following comments faults).turn run token
      = (m.turn run token).following comments faults := by
  have hstep : ((m.following comments faults).advance token).step run
        (m.following comments faults).pointer token
      = (((m.advance token).step run m.pointer token).1,
          ((m.advance token).step run m.pointer token).2.following comments faults) :=
    step_following (m.advance token) comments faults run m.pointer token
  unfold turn
  rw [hstep]
  cases (m.advance token).step run m.pointer token with
  | mk anchor after =>
    cases anchor with
    | none => rfl
    | some position => exact comment_following after comments faults position

omit [Scope σ] in
theorem halt_following (token : Token) :
    (m.following comments faults).halt token = (m.halt token).following comments faults := by
  have hrecord := record_following { m with line := token.line } comments faults
    (.stepLimitExceeded m.limits.steps)
  exact congrArg (fun n : Machine σ => { n with halted := true }) hrecord

variable {m}

theorem Turn.following {stop : Nat} {m' : Machine σ} (h : Turn stop m m') :
    Turn stop (m.following comments faults) (m'.following comments faults) := by
  obtain ⟨token, htoken, rfl⟩ := h.turned
  exact ⟨h.going, h.inside, h.budget, token, htoken,
    (turn_following m comments faults _ token).symm⟩

/-- The turns of a machine with other records before its own are its own turns. -/
theorem Turn.of_following {stop : Nat} {n : Machine σ}
    (h : Turn stop (m.following comments faults) n) :
    ∃ m', Turn stop m m' ∧ n = m'.following comments faults := by
  obtain ⟨token, htoken, rfl⟩ := h.turned
  exact ⟨_, ⟨h.going, h.inside, h.budget, token, htoken, rfl⟩,
    turn_following m comments faults _ token⟩

theorem runTo_following (m : Machine σ) (stop : Nat) :
    (m.following comments faults).runTo stop = (m.runTo stop).following comments faults := by
  induction hleft : m.limits.steps - m.steps using Nat.strongRecOn generalizing m with
  | ind left ih =>
    by_cases hrests : Rests stop m
    · have hrests' : Rests stop (m.following comments faults) := hrests
      rw [hrests.runTo_eq, hrests'.runTo_eq]
    obtain ⟨token, htoken⟩ := exists_token_of_not_rests hrests
    by_cases hout : m.limits.steps ≤ m.steps
    · rw [runTo_eq_halt htoken hrests hout, ← halt_following]
      exact runTo_eq_halt htoken hrests hout
    have hinside : ¬(m.frames = [] ∧ stop ≤ m.pointer) := fun hstop => hrests (.inr hstop)
    have hbudget : m.steps < m.limits.steps := Nat.lt_of_not_le hout
    have hlt := lt_steps_turn (fun stop n => le_steps_runTo stop n) m token
    have hlimits := (turn_sameSetting (fun stop n => n.runTo stop) m token).limits
    rw [runTo_of_token htoken hinside hbudget,
      runTo_of_token (m := m.following comments faults) htoken hinside hbudget, turn_following]
    by_cases hhalted : (m.turn (fun stop n => n.runTo stop) token).halted = true
    · simp only [following_halted, hhalted, if_true]
    · simp only [following_halted, hhalted]
      exact ih _ (by rw [hlimits]; omega) _ rfl

theorem ending_following (m : Machine σ) (stop : Nat) :
    ending stop (m.following comments faults) = (ending stop m).following comments faults := by
  unfold ending
  rw [runTo_following, following_halted]
  split <;> rfl

end Turns

/-! ## Histories -/

/-- The program and the position of the token that is next. -/
def place (m : Machine σ) : Program × Nat :=
  (m.program, m.pointer)

theorem Visits.following [Scope σ] {stop : Nat} {m : Machine σ} {heads : List (Machine σ)}
    (h : Visits stop m heads) (comments : Array Comment) (faults : Diagnostics Fault) :
    ∃ heads', Visits stop (m.following comments faults) heads'
      ∧ heads'.map place = heads.map place := by
  induction h with
  | ends ends =>
    refine ⟨[], .ends fun n hturn => ?_, rfl⟩
    obtain ⟨m', hturn, -⟩ := hturn.of_following
    exact ends m' hturn
  | alone turn alone _ ih =>
    obtain ⟨rest, hrest, hplaces⟩ := ih
    refine ⟨_, .alone (turn.following comments faults) (fun token external call => ?_) hrest, ?_⟩
    · exact alone token external ⟨call.here, call.kind, call.room, call.missing, call.found⟩
    · rw [List.map_cons, List.map_cons, hplaces]
      rfl
  | delegate turn call nested _ _ ih =>
    obtain ⟨rest, hrest, hplaces⟩ := ih
    refine ⟨_, .delegate (turn.following comments faults)
      ⟨call.here, call.kind, call.room, call.missing, call.found⟩ nested hrest, ?_⟩
    rw [List.map_cons, List.map_cons, List.map_append, List.map_append, hplaces]
    rfl

/-! ## What is added -/

/-- What the first machine records on the way to the second, the third records on the way to the
    fourth, in the same order. -/
structure AddsAlike (a a' b b' : Machine σ) : Prop where
  faults : ∃ found : List (Located Fault),
    a'.faults = a.faults.addAll found ∧ b'.faults = b.faults.addAll found
  comments : ∃ added : Array Comment,
    a'.comments = a.comments ++ added ∧ b'.comments = b.comments ++ added

theorem addsAlike_of_eq {a b m n : Machine σ} (hfaults : n.faults = m.faults)
    (hcomments : n.comments = m.comments) :
    AddsAlike a (m.following a.comments a.faults) b (n.following b.comments b.faults) :=
  ⟨⟨m.faults.toList, rfl, by rw [← hfaults]; rfl⟩,
    ⟨m.comments, rfl, by rw [← hcomments]; rfl⟩⟩

end Machine

end HuffTrace
