/-
  HuffTrace.Proofs.Machine.Budget

  Executions with fewer and with more steps.  As long as the steps do not run
  out, the number of them makes no difference (`runTo_allowing`), so the heads
  of a run are those of the run with more steps, and what has been recorded at
  them is recorded there as well.

  Where the steps run out before a token, nothing is recorded any more.  But
  where they run out in a machine for another program, the call that started it
  still gets its comment, which shows what the stack was when that machine was
  interrupted.  So all comments but the last are the same with more steps, and
  the last one is if the interrupted call shows what it shows when it is done
  (`execute_comments_prefix_iff`).
-/

import HuffTrace.Proofs.Machine.FrameRule
import HuffTrace.Proofs.Machine.Limits
import HuffTrace.Proofs.Machine.Setting

namespace HuffTrace.Machine

variable {σ : Type} [Scope σ]

/-- A machine with another number of steps allowed. -/
def allowing (m : Machine σ) (steps : Nat) : Machine σ :=
  m.transfer m.scope { m.limits with steps }

/-! ## Runs that do not halt -/

section Allowing

variable {stop k : Nat} {m m' d : Machine σ} {token : Token}

theorem turn_allowing {run run' : Nat → Machine σ → Machine σ}
    (htoken : m.program.token? m.pointer = some token)
    (hrun : ∀ external, Delegates m token external →
      run' external.extent.stop ((m.nested token external).allowing k)
        = (run external.extent.stop (m.nested token external)).allowing k) :
    (m.allowing k).turn run' token = (m.turn run token).allowing k := by
  have hsetting := turn_sameSetting run m token
  have hbounds : SameBounds m.limits { m.limits with steps := k } := ⟨rfl, rfl⟩
  have hturn : (m.allowing k).turn run' token
      = (m.turn run token).transfer m.scope { m.limits with steps := k } := by
    apply turn_transfer (.refl m.scope) hbounds htoken
    intro external call
    have hresult := hrun external call
    unfold allowing at hresult
    show SameResult _ (run' external.extent.stop ((m.nested token external).transfer
      (m.nested token external).scope { (m.nested token external).limits with steps := k }))
    rw [hresult]
    exact ⟨rfl, rfl, rfl, rfl⟩
  rw [hturn, allowing, hsetting.scope, hsetting.limits]

/-- A run that does not halt is the same with more steps. -/
theorem Executes.runTo_allowing {used : Nat} (h : Executes stop used m d)
    (hgoing : d.halted = false) (hk : m.limits.steps ≤ k) :
    (m.allowing k).runTo stop = d.allowing k := by
  induction h with
  | halted halted =>
    rw [hgoing] at halted
    cases halted
  | rest going rests =>
    apply Rests.runTo_eq
    exact rests
  | exhaust => cases hgoing
  | turn going here inside budget nested alone onwards ihnested ihonwards =>
    rename_i stop inner left m d token run
    -- Had the turn halted, the run would have ended there.
    have hturned : (m.turn run token).halted = false := by
      apply Bool.eq_false_iff.2
      intro hhalted
      rw [onwards.eq_of_halted hhalted, hhalted] at hgoing
      cases hgoing
    have hturn : (m.allowing k).turn (fun stop n => n.runTo stop) token
        = (m.turn run token).allowing k := by
      apply turn_allowing here
      intro external call
      exact ihnested external call (call.going_nested hturned) hk
    have hbudget : (m.allowing k).steps < (m.allowing k).limits.steps :=
      Nat.lt_of_lt_of_le budget hk
    rw [runTo_of_token (m := m.allowing k) here (fun hstop => inside (.inr hstop)) hbudget, hturn]
    show (if (m.turn run token).halted then _ else _) = _
    rw [hturned, if_neg Bool.false_ne_true]
    exact ihonwards hgoing (by rw [(turn_sameSetting run m token).limits]; exact hk)

theorem runTo_allowing (hgoing : m.halted = false) (hdone : (m.runTo stop).halted = false)
    (hk : m.limits.steps ≤ k) : (m.allowing k).runTo stop = (m.runTo stop).allowing k := by
  obtain ⟨used, h⟩ := exists_executes_runTo stop hgoing
  exact h.runTo_allowing hdone hk

/-- A turn that does not halt is taken with more steps as well. -/
theorem Turn.allowing (h : Turn stop m m') (hgoing : m'.halted = false)
    (hk : m.limits.steps ≤ k) : Turn stop (m.allowing k) (m'.allowing k) := by
  obtain ⟨token, htoken, rfl⟩ := h.turned
  refine ⟨h.going, h.inside, Nat.lt_of_lt_of_le h.budget hk, token, htoken, ?_⟩
  symm
  apply turn_allowing htoken
  intro external call
  exact Machine.runTo_allowing (m := m.nested token external) rfl (call.going_nested hgoing) hk

theorem Turns.allowing {n : Nat} (h : Turns stop n m m') (hgoing : m'.halted = false)
    (hk : m.limits.steps ≤ k) : Turns stop n (m.allowing k) (m'.allowing k) := by
  induction h with
  | zero m => exact .zero _
  | succ before last ih =>
    apply Turns.succ (ih last.going hk)
    exact last.allowing hgoing (by rw [before.sameSetting.limits]; exact hk)

end Allowing

/-! ## Recorded comments -/

theorem Acts.comments {run : Nat → Machine σ → Machine σ} {m m' : Machine σ} {position : Nat}
    {token : Token} {anchor : Option Nat} (h : Acts run m position token anchor m') :
    m'.comments = m.comments := by
  cases h with
  | push v _ => rw [push_eq, work_eq]
  | opcode op _ => rw [runOpcode, work_eq]
  | _ => rfl

omit [Scope σ] in
theorem comments_comment (m : Machine σ) (position : Nat) :
    m.comments.toList <+: (m.comment position).comments.toList := by
  unfold comment
  split
  · split
    · rw [Array.toList_push]
      exact List.prefix_append _ _
    · exact List.prefix_refl _
  · exact List.prefix_refl _

/-- Comments are only ever added. -/
theorem comments_turn (run : Nat → Machine σ → Machine σ) (m : Machine σ) (token : Token) :
    m.comments.toList <+: (m.turn run token).comments.toList := by
  have hacts := (step_acts run (m.advance token) m.pointer token).comments
  have hadvance : (m.advance token).comments = m.comments := rfl
  unfold turn
  split
  · next position after hstep =>
    rw [hstep, hadvance] at hacts
    rw [← hacts]
    exact comments_comment after position
  · next after hstep =>
    rw [hstep, hadvance] at hacts
    have hsame : after.comments = m.comments := hacts
    exact ⟨[], by rw [hsame, List.append_nil]⟩

theorem comments_runTo (stop : Nat) {m : Machine σ} (hgoing : m.halted = false) :
    m.comments.toList <+: (m.runTo stop).comments.toList := by
  obtain ⟨used, h⟩ := exists_executes_runTo stop hgoing
  generalize m.runTo stop = d at h
  clear hgoing
  induction h with
  | halted | rest | exhaust => exact List.prefix_refl _
  | turn going here inside budget nested alone onwards ihnested ihonwards =>
    exact (comments_turn _ _ _).trans ihonwards

theorem Turn.comments_runTo {stop : Nat} {m m' : Machine σ} (h : Turn stop m m') :
    m'.comments.toList <+: (m.runTo stop).comments.toList := by
  cases hhalted : m'.halted with
  | false =>
    rw [h.runTo_eq hhalted]
    exact Machine.comments_runTo stop hhalted
  | true =>
    exact ⟨[], by rw [h.runTo_eq_of_halted hhalted, List.append_nil]⟩

/-- The comment of a call into another program shows the stack after it. -/
theorem Delegates.comments_turn {m : Machine σ} {token : Token} {external : External σ}
    (call : Delegates m token external) (run : Nat → Machine σ → Machine σ)
    (hrecording : m.recording = true) :
    (m.turn run token).comments.toList
      = m.comments.toList ++ (if m.program.isLastOnLine m.pointer then
          [⟨token.endLine, (m.turn run token).stack.render⟩] else []) := by
  have hcalled : (m.advance token).callExternal run external
      = { (m.advance token).callExternal run external with
          program := m.program, recording := true, comments := m.comments } := by
    rw [callExternal, foldl_record, ← hrecording]
    rfl
  have hkind : token.kind ≠ .blockEnd := by simp [call.kind]
  simp only [turn, call.step_eq]
  rw [hcalled, comment, show Program.token? _ m.pointer = some token from call.here]
  by_cases hlast : m.program.isLastOnLine m.pointer
  · simp [hlast, hkind]
  · simp [hlast]

/-! ## Where the steps run out -/

theorem Turn.exists_delegates {stop : Nat} {m m' : Machine σ} (h : Turn stop m m')
    (hhalted : m'.halted = true) : ∃ token external, Delegates m token external := by
  obtain ⟨token, htoken, rfl⟩ := h.turned
  refine ⟨token, ?_⟩
  by_contra halone
  rw [(turn_of_alone _ htoken (not_exists.1 halone)).2.1, h.going] at hhalted
  cases hhalted

/-- A loop ends at its last head, at rest or before a token for which there are no steps, or
    by a turn in which the steps of another program run out. -/
theorem exists_last_head (stop : Nat) {m : Machine σ} (hgoing : m.halted = false) :
    ∃ n a, Turns stop n m a ∧ a.halted = false
      ∧ ((m.runTo stop).comments = a.comments
        ∨ Turn stop a (m.runTo stop) ∧ (m.runTo stop).halted = true) := by
  induction hleft : m.limits.steps - m.steps using Nat.strongRecOn generalizing m with
  | ind left ih =>
    by_cases hturns : ∃ m', Turn stop m m'
    · obtain ⟨m', hturn⟩ := hturns
      cases hhalted : m'.halted with
      | true =>
        rw [hturn.runTo_eq_of_halted hhalted]
        exact ⟨0, m, .zero m, hgoing, .inr ⟨hturn, hhalted⟩⟩
      | false =>
        have hbudget := hturn.budget
        have hsteps := hturn.steps_lt
        obtain ⟨n, a, hturns, ha, hends⟩ :=
          ih _ (by rw [hturn.sameSetting.limits]; omega) hhalted rfl
        rw [hturn.runTo_eq hhalted]
        exact ⟨n + 1, a, hturns.cons hturn, ha, hends⟩
    · exact ⟨0, m, .zero m, hgoing, .inl (runTo_of_not_turn hgoing (not_exists.1 hturns)).2⟩

/-- What has been recorded at a head that has not halted is recorded with more steps. -/
theorem Turns.comments_allowing {stop n k : Nat} {m a : Machine σ} (h : Turns stop n m a)
    (hgoing : a.halted = false) (hk : m.limits.steps ≤ k) :
    a.comments.toList <+: ((m.allowing k).runTo stop).comments.toList := by
  rw [(h.allowing hgoing hk).runTo_eq hgoing]
  exact comments_runTo stop (m := a.allowing k) hgoing

section Interrupted

variable {stop n k : Nat} {m a d : Machine σ}

/-- What a call records in which the steps run out, and what it records with more steps. -/
theorem Turns.comments_of_halted (h : Turns stop n m a) (hturn : Turn stop a d)
    (hhalted : d.halted = true) (hrecording : m.recording = true) (hk : m.limits.steps ≤ k) :
    ∃ line, d.comments.toList = a.comments.toList
        ++ (if m.program.isLastOnLine a.pointer then [⟨line, d.stack.render⟩] else [])
      ∧ a.comments.toList ++ (if m.program.isLastOnLine a.pointer then
          [⟨line, ((a.allowing k).later 1).stack.render⟩] else [])
        <+: ((m.allowing k).runTo stop).comments.toList := by
  obtain ⟨hprogram, _, hlimits, _, hrecording'⟩ := h.sameSetting
  rw [hrecording] at hrecording'
  obtain ⟨token, external, call⟩ := hturn.exists_delegates hhalted
  have call' : Delegates (a.allowing k) token external :=
    ⟨call.here, call.kind, call.room, call.missing, call.found⟩
  have hlater : (a.allowing k).later 1
      = (a.allowing k).turn (fun stop n => n.runTo stop) token := by
    simp only [later, call'.here]
  have hbudget : a.steps < k := Nat.lt_of_lt_of_le hturn.budget (hlimits ▸ hk)
  have hturn' : Turn stop (a.allowing k) ((a.allowing k).later 1) :=
    ⟨hturn.going, hturn.inside, hbudget, token, call.here, hlater⟩
  rw [← hprogram]
  refine ⟨token.endLine, ?_, ?_⟩
  · rw [hturn.eq_turn call.here]
    exact call.comments_turn _ hrecording'
  · have hcomments := hturn'.comments_runTo
    rw [hlater, call'.comments_turn _ hrecording', ← hlater] at hcomments
    rw [(h.allowing hturn.going hk).runTo_eq hturn.going]
    exact hcomments

/-- All comments but the last are recorded with more steps. -/
theorem dropLast_comments_runTo (hgoing : m.halted = false) (hrecording : m.recording = true)
    (hk : m.limits.steps ≤ k) :
    (m.runTo stop).comments.toList.dropLast
      <+: ((m.allowing k).runTo stop).comments.toList := by
  obtain ⟨n, a, hturns, ha, hends⟩ := exists_last_head stop hgoing
  have hhead := hturns.comments_allowing ha hk
  rcases hends with hsame | ⟨hturn, hhalted⟩
  · rw [hsame]
    exact (List.dropLast_prefix _).trans hhead
  · obtain ⟨line, hcomments, -⟩ := hturns.comments_of_halted hturn hhalted hrecording hk
    rw [hcomments]
    split
    · rw [List.dropLast_concat]
      exact hhead
    · rw [List.append_nil]
      exact (List.dropLast_prefix _).trans hhead

/-- The last one is recorded with more steps exactly if it shows the same there. -/
theorem comments_runTo_prefix_iff (hgoing : m.halted = false) (hrecording : m.recording = true)
    (hk : m.limits.steps ≤ k) :
    (m.runTo stop).comments.toList <+: ((m.allowing k).runTo stop).comments.toList
      ↔ ∀ n a d, Turns stop n m a → Turn stop a d → d.halted = true →
        m.program.isLastOnLine a.pointer →
        d.stack.render = ((a.allowing k).later 1).stack.render := by
  constructor
  · intro hprefix n a d hturns hturn hhalted hlast
    obtain ⟨line, hcomments, hmore⟩ := hturns.comments_of_halted hturn hhalted hrecording hk
    rw [hturns.runTo_eq hturn.going, hturn.runTo_eq_of_halted hhalted, hcomments] at hprefix
    rw [if_pos hlast] at hprefix hmore
    -- Both are what is recorded first with more steps, and as long as each other.
    have hsame := (List.prefix_of_prefix_length_le hprefix hmore (by simp)).eq_of_length (by simp)
    have hcomment := List.singleton_inj.1 (List.append_cancel_left hsame)
    exact (Comment.mk.inj hcomment).2
  · intro hshown
    obtain ⟨n, a, hturns, ha, hends⟩ := exists_last_head stop hgoing
    rcases hends with hsame | ⟨hturn, hhalted⟩
    · rw [hsame]
      exact hturns.comments_allowing ha hk
    · obtain ⟨line, hcomments, hmore⟩ := hturns.comments_of_halted hturn hhalted hrecording hk
      by_cases hlast : m.program.isLastOnLine a.pointer
      · rw [hcomments, hshown n a _ hturns hturn hhalted hlast]
        exact hmore
      · rw [hcomments, if_neg hlast, List.append_nil]
        exact hturns.comments_allowing ha hk

end Interrupted

/-! ## Executions -/

/-- With fewer steps an execution records the same comments up to the last one, and that one as
    well exactly if the call in which the steps ran out, if there is one and it is the last on
    its line, leaves a stack that is shown as the stack after it with more steps. -/
theorem execute_comments_prefix_iff (program : Program) (scope : σ) (limits : Limits) {k : Nat}
    (hk : limits.steps ≤ k) :
    (start program scope limits).execute.comments.toList.dropLast
        <+: (start program scope { limits with steps := k }).execute.comments.toList
      ∧ ((start program scope limits).execute.comments.toList
          <+: (start program scope { limits with steps := k }).execute.comments.toList
        ↔ ∀ n a d, Turns program.size n (start program scope limits) a →
          Turn program.size a d → d.halted = true → program.isLastOnLine a.pointer →
          d.stack.render = ((a.allowing k).later 1).stack.render) := by
  have hstart : (start program scope limits).halted = false
      ∧ (start program scope limits).recording = true
      ∧ (start program scope limits).limits.steps ≤ k := ⟨rfl, rfl, hk⟩
  exact ⟨dropLast_comments_runTo hstart.1 hstart.2.1 hstart.2.2,
    comments_runTo_prefix_iff hstart.1 hstart.2.1 hstart.2.2⟩

/-- A document that calls a macro of another one, which pushes two values. -/
def callingPair : Document :=
  holding
    [⟨.inclusion, "#include \"b.huff\"", 1, 1⟩, ⟨.literal, "0x01", 2, 2⟩,
      ⟨.call, "PAIR()", 3, 3⟩]
    [holding
      [⟨.macroDefinition, "#define macro PAIR() = takes(0) returns(2) \x7b", 1, 1⟩,
        ⟨.literal, "0x02", 2, 2⟩, ⟨.literal, "0x03", 2, 2⟩, ⟨.blockEnd, "\x7d", 3, 3⟩] []]

/-- The comments of its execution with a number of steps. -/
def pairComments (steps : Nat) : List Comment :=
  (start callingPair.program callingPair { steps }).execute.comments.toList

theorem execute_comments_prefix_iff_pair :
    4 ≤ 5 ∧ (pairComments 4).dropLast <+: pairComments 5
      ∧ (pairComments 4 <+: pairComments 5
        ↔ ∀ n a d, Turns 3 n (start callingPair.program callingPair { steps := 4 }) a →
          Turn 3 a d → d.halted = true → callingPair.program.isLastOnLine a.pointer →
          d.stack.render = ((a.allowing 5).later 1).stack.render) :=
  ⟨by decide, execute_comments_prefix_iff callingPair.program callingPair { steps := 4 }
    (by decide)⟩

/-- With four steps the macro is interrupted between its two values, and the comment of the call
    shows the first of them only. -/
theorem execute_comments_not_prefix :
    pairComments 4 = [⟨2, "[0x01]"⟩, ⟨3, "[0x02, 0x01]"⟩]
      ∧ pairComments 5 = [⟨2, "[0x01]"⟩, ⟨3, "[0x03, 0x02, 0x01]"⟩]
      ∧ ¬pairComments 4 <+: pairComments 5 := by
  have hcomments : pairComments 4 = [⟨2, "[0x01]"⟩, ⟨3, "[0x02, 0x01]"⟩]
      ∧ pairComments 5 = [⟨2, "[0x01]"⟩, ⟨3, "[0x03, 0x02, 0x01]"⟩] := by
    decide +kernel
  refine ⟨hcomments.1, hcomments.2, ?_⟩
  rw [hcomments.1, hcomments.2]
  decide

end HuffTrace.Machine
