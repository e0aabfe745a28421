/-
  HuffTrace.Proofs.Machine.Limits

  Executions keep within their limits.  `Executes` is the loop without fuel: it
  goes on for as long as there are tokens and steps, runs machines for other
  programs in the same way, and counts the tokens executed by all of them.
  Every execution is of that kind, and of one only (`executes_iff`), so the
  loop always comes to an end.

  How it ends is told apart by complaints.  Steps that run out are complained
  about once, by the machine that meets the limit; all machines around it only
  pass the complaint on (`Executes.ends`).
-/

import HuffTrace.Proofs.Diagnostics
import HuffTrace.Proofs.Machine.Bracket
import HuffTrace.Proofs.Opcode.Faults

namespace HuffTrace

/-! ## Complaints -/

/-- The number of steps that ran out, if that is the fault. -/
def Fault.stepLimit? : Fault → Option Nat
  | .stepLimitExceeded limit => some limit
  | _ => none

theorem Fault.stepLimit?_of_ofOperation {fault : Fault} (h : fault.ofOperation) :
    fault.stepLimit? = none := by
  cases fault with
  | stepLimitExceeded limit => cases h
  | _ => rfl

namespace Diagnostics

/-- The complaints that the steps ran out, each by the number of steps that were allowed. -/
def exhaustions (d : Diagnostics Fault) : List Nat :=
  d.toList.filterMap (·.item.stepLimit?)

theorem exhaustions_add (d : Diagnostics Fault) (line : Nat) (fault : Fault) :
    (d.add line fault).exhaustions.Perm (fault.stepLimit?.toList ++ d.exhaustions) := by
  apply ((perm_add d line fault).filterMap (·.item.stepLimit?)).trans
  rw [exhaustions, List.filterMap_cons]
  cases fault.stepLimit? <;> exact .refl _

theorem exhaustions_foldl (line : Nat) (met : List Fault) (d : Diagnostics Fault) :
    (met.foldl (fun d fault => d.add line fault) d).exhaustions.Perm
      (met.filterMap Fault.stepLimit? ++ d.exhaustions) := by
  induction met generalizing d with
  | nil => exact .refl _
  | cons fault met ih =>
    apply (ih (d.add line fault)).trans
    apply ((exhaustions_add d line fault).append_left _).trans
    rw [← List.append_assoc, List.filterMap_cons]
    apply List.Perm.append_right
    cases fault.stepLimit? with
    | none => rw [Option.toList_none, List.append_nil]
    | some limit => exact List.perm_append_singleton limit _

end Diagnostics

namespace Machine

variable {σ : Type} [Scope σ]

/-! ## What a turn does to steps and complaints -/

/-- No step is used and the steps have not run out in between. -/
structure Quiet (m m' : Machine σ) : Prop where
  steps : m'.steps = m.steps
  halted : m'.halted = m.halted
  exhaustions : m'.faults.exhaustions.Perm m.faults.exhaustions

omit [Scope σ] in
theorem Quiet.refl (m : Machine σ) : Quiet m m := ⟨rfl, rfl, .refl _⟩

omit [Scope σ] in
theorem Quiet.trans {m₁ m₂ m₃ : Machine σ} (h : Quiet m₁ m₂) (h' : Quiet m₂ m₃) :
    Quiet m₁ m₃ where
  steps := h'.steps.trans h.steps
  halted := h'.halted.trans h.halted
  exhaustions := h'.exhaustions.trans h.exhaustions

omit [Scope σ] in
theorem quiet_foldl_record (m : Machine σ) (met : List Fault)
    (h : ∀ fault ∈ met, fault.stepLimit? = none) : Quiet m (met.foldl record m) := by
  rw [foldl_record]
  refine ⟨rfl, rfl, ?_⟩
  have hnone : met.filterMap Fault.stepLimit? = [] := List.filterMap_eq_nil_iff.2 h
  have hperm := Diagnostics.exhaustions_foldl m.line met m.faults
  rwa [hnone, List.nil_append] at hperm

omit [Scope σ] in
theorem quiet_record (m : Machine σ) {fault : Fault} (h : fault.stepLimit? = none) :
    Quiet m (m.record fault) :=
  quiet_foldl_record m [fault] fun _ hmem => List.mem_singleton.1 hmem ▸ h

omit [Scope σ] in
theorem quiet_work (m : Machine σ) {operation : Workspace → Workspace}
    (h : ∀ w, Workspace.Notes w (operation w)) : Quiet m (m.work operation) := by
  obtain ⟨met, hfaults, hmet⟩ := h { stack := m.stack, memory := m.memory }
  have hrecord := quiet_foldl_record
    { m with
      stack := (operation { stack := m.stack, memory := m.memory }).stack
      memory := (operation { stack := m.stack, memory := m.memory }).memory }
    met fun fault hmem => Fault.stepLimit?_of_ofOperation (hmet fault hmem)
  rw [work, hfaults]
  exact ⟨hrecord.steps, hrecord.halted, hrecord.exhaustions⟩

omit [Scope σ] in
theorem quiet_push (m : Machine σ) (v : Value) : Quiet m (m.push v) :=
  quiet_work m fun w => w.push_notes v

theorem quiet_runBuiltin (m : Machine σ) (token : Token) (builtin : Builtin) :
    Quiet m (m.runBuiltin token builtin) := by
  cases builtin with
  | verbatim => exact .refl m
  | _ => exact quiet_push m _

omit [Scope σ] in
theorem quiet_leave (m : Machine σ) : Quiet m m.leave.2 := by
  unfold leave
  split <;> exact ⟨rfl, rfl, .refl _⟩

omit [Scope σ] in
theorem quiet_define (m : Machine σ) (position : Nat) (token : Token) :
    Quiet m (m.define position token).2 := by
  have hflaws : ∀ flaws : List String,
      Quiet m ((flaws.map (Fault.malformedDefinition token.text)).foldl record m) := by
    intro flaws
    apply quiet_foldl_record
    intro fault hmem
    obtain ⟨flaw, _, rfl⟩ := List.mem_map.1 hmem
    rfl
  unfold define
  simp only
  split
  · exact (hflaws _).trans (quiet_leave _)
  · exact (hflaws _).trans ⟨rfl, rfl, .refl _⟩
  · exact (hflaws _).trans ⟨rfl, rfl, .refl _⟩

omit [Scope σ] in
theorem quiet_closeBlock (m : Machine σ) (position : Nat) :
    Quiet m (m.closeBlock position).2 := by
  unfold closeBlock
  split
  · split
    · exact quiet_leave m
    · exact .refl m
  · exact .refl m
  · split
    · split <;> exact ⟨rfl, rfl, .refl _⟩
    · exact .refl m

/-- A call is quiet unless it leads into another program. -/
theorem quiet_call (run : Nat → Machine σ → Machine σ) (m : Machine σ) (position : Nat)
    (name : String)
    (h : m.depth < m.limits.callDepth → m.program.findMacro? name = none →
      Scope.findMacro? m.scope name = none) : Quiet m (m.call run position name).2 := by
  unfold call
  split
  · exact quiet_record m rfl
  · next hroom =>
    split
    · exact ⟨rfl, rfl, .refl _⟩
    · next hmissing =>
      rw [h (Nat.lt_of_not_le hroom) hmissing]
      exact quiet_record m rfl

theorem quiet_step (run : Nat → Machine σ → Machine σ) (m : Machine σ) (position : Nat)
    (token : Token)
    (h : token.kind = .call → m.depth < m.limits.callDepth →
      m.program.findMacro? token.name = none → Scope.findMacro? m.scope token.name = none) :
    Quiet m (m.step run position token).2 := by
  unfold step
  split
  · exact quiet_define m position token
  · next kind => exact quiet_call run m position token.name (h kind)
  · exact quiet_closeBlock m position
  · exact ⟨rfl, rfl, .refl _⟩
  · exact quiet_push m _
  · exact quiet_push m _
  · exact quiet_push m _
  · exact quiet_push m _
  · exact quiet_runBuiltin m token _
  · next opcode _ => exact quiet_work m fun w => opcode.run_notes m.limits.memory w
  · split
    · exact .refl m
    · exact quiet_record m rfl
  all_goals exact .refl m

/-- A turn that does not lead into another program uses one step. -/
theorem turn_of_alone (run : Nat → Machine σ → Machine σ) {m : Machine σ} {token : Token}
    (htoken : m.program.token? m.pointer = some token)
    (halone : ∀ external, ¬Delegates m token external) :
    (m.turn run token).steps = m.steps + 1 ∧ (m.turn run token).halted = m.halted
      ∧ (m.turn run token).faults.exhaustions.Perm m.faults.exhaustions := by
  have hquiet : Quiet (m.advance token) ((m.advance token).step run m.pointer token).2 := by
    apply quiet_step
    intro hkind hroom hmissing
    cases hfound : Scope.findMacro? (m.advance token).scope token.name with
    | none => rfl
    | some external => exact absurd ⟨htoken, hkind, hroom, hmissing, hfound⟩ (halone external)
  rw [turn_eq]
  exact ⟨hquiet.steps, hquiet.halted, hquiet.exhaustions⟩

/-- A turn that leads into another program adds the complaints of the machine for it. -/
theorem Delegates.exhaustions_turn {m : Machine σ} {token : Token} {external : External σ}
    (call : Delegates m token external) (run : Nat → Machine σ → Machine σ) :
    (m.turn run token).faults.exhaustions.Perm
      ((run external.extent.stop (m.nested token external)).faults.exhaustions
        ++ m.faults.exhaustions) := by
  rw [Machine.turn_eq, call.step_eq, callExternal, foldl_record]
  have hperm := Diagnostics.exhaustions_foldl (m.advance token).line
    ((run external.extent.stop (m.nested token external)).faults.toList.map (·.item)) m.faults
  rw [List.filterMap_map] at hperm
  exact hperm

/-! ## The loop without fuel -/

/-- The loop up to `stop` from one machine ends at another one, after executing a number of
    tokens, those of other programs included. -/
inductive Executes : Nat → Nat → Machine σ → Machine σ → Prop where
  | halted {stop : Nat} {m : Machine σ} (halted : m.halted = true) : Executes stop 0 m m
  | rest {stop : Nat} {m : Machine σ} (going : m.halted = false) (rests : Rests stop m) :
    Executes stop 0 m m
  /-- There is another token but no step left. -/
  | exhaust {stop : Nat} {m : Machine σ} {token : Token} (going : m.halted = false)
      (here : m.program.token? m.pointer = some token) (inside : ¬Rests stop m)
      (exhausted : m.limits.steps ≤ m.steps) : Executes stop 0 m (m.halt token)
  /-- A token is executed; if it leads into another program, a loop of its own ends before
      this one goes on. -/
  | turn {stop inner left : Nat} {m d : Machine σ} {token : Token}
      {run : Nat → Machine σ → Machine σ} (going : m.halted = false)
      (here : m.program.token? m.pointer = some token) (inside : ¬Rests stop m)
      (budget : m.steps < m.limits.steps)
      (nested : ∀ external, Delegates m token external →
        Executes external.extent.stop inner (m.nested token external)
          (run external.extent.stop (m.nested token external)))
      (alone : (∀ external, ¬Delegates m token external) → inner = 0)
      (onwards : Executes stop left (m.turn run token) d) :
    Executes stop (inner + 1 + left) m d

/-- A turn asks its runner only about the machine for the macro that it calls. -/
theorem turn_congr_of_delegates {run run' : Nat → Machine σ → Machine σ} {m : Machine σ}
    {token : Token} (htoken : m.program.token? m.pointer = some token)
    (h : ∀ external, Delegates m token external →
      run external.extent.stop (m.nested token external)
        = run' external.extent.stop (m.nested token external)) :
    m.turn run token = m.turn run' token := by
  have hstep : (m.advance token).step run m.pointer token
      = (m.advance token).step run' m.pointer token := by
    cases hkind : token.kind with
    | call =>
      simp only [step, hkind, call]
      split
      · rfl
      · next hroom =>
        split
        · rfl
        · next hmissing =>
          split
          · next external hfound =>
            have hrun := h external ⟨htoken, hkind, Nat.lt_of_not_le hroom, hmissing, hfound⟩
            unfold nested takesOf at hrun
            simp only [callExternal, hrun]
          · rfl
    | _ => simp only [step, hkind]
  unfold turn
  rw [hstep]

/-- The loop without fuel ends where the run does. -/
theorem Executes.eq_runTo {stop k : Nat} {m d : Machine σ} (h : Executes stop k m d) :
    d = if m.halted then m else m.runTo stop := by
  induction h with
  | halted halted => rw [if_pos halted]
  | rest going rests => rw [going, if_neg Bool.false_ne_true, rests.runTo_eq]
  | exhaust going here inside exhausted =>
    rw [going, if_neg Bool.false_ne_true, runTo_eq_halt here inside exhausted]
  | turn going here inside budget nested alone onwards ihnested ihonwards =>
    rename_i stop inner left m d token run
    have hturn : m.turn run token = m.turn (fun stop n => n.runTo stop) token := by
      apply turn_congr_of_delegates here
      intro external call
      exact ihnested external call
    rw [going, if_neg Bool.false_ne_true,
      runTo_of_token here (fun hstop => inside (.inr hstop)) budget, ihonwards, hturn]

/-- Every run is the end of a loop without fuel. -/
theorem exists_executes (stop : Nat) (m : Machine σ) :
    ∃ k, Executes stop k m (if m.halted then m else m.runTo stop) := by
  -- Both the machine after a turn and those that a turn starts have fewer steps left.
  induction hleft : m.limits.steps - m.steps using Nat.strongRecOn generalizing m stop with
  | ind left ih =>
    by_cases hhalted : m.halted = true
    · rw [if_pos hhalted]
      exact ⟨0, .halted hhalted⟩
    have hgoing : m.halted = false := Bool.not_eq_true _ ▸ hhalted
    rw [if_neg hhalted]
    by_cases hrests : Rests stop m
    · rw [hrests.runTo_eq]
      exact ⟨0, .rest hgoing hrests⟩
    obtain ⟨token, htoken⟩ := exists_token_of_not_rests hrests
    by_cases hbudget : m.steps < m.limits.steps
    · have hlt := lt_steps_turn (fun stop n => le_steps_runTo stop n) m token
      have hlimits := (turn_sameSetting (fun stop n => n.runTo stop) m token).limits
      obtain ⟨onwards, honwards⟩ :=
        ih _ (by rw [hlimits]; omega) stop (m.turn (fun stop n => n.runTo stop) token) rfl
      rw [runTo_of_token htoken (fun hstop => hrests (.inr hstop)) hbudget]
      by_cases hcall : ∃ external, Delegates m token external
      · obtain ⟨external, call⟩ := hcall
        obtain ⟨inner, hinner⟩ := ih (m.limits.steps - (m.steps + 1)) (by omega)
          external.extent.stop (m.nested token external) rfl
        refine ⟨inner + 1 + onwards, .turn hgoing htoken hrests hbudget ?_ ?_ honwards⟩
        · intro external' call'
          obtain ⟨-, rfl⟩ := call.unique call'
          exact hinner
        · intro halone
          exact absurd call (halone external)
      · have halone : ∀ external, ¬Delegates m token external := not_exists.1 hcall
        refine ⟨0 + 1 + onwards, .turn hgoing htoken hrests hbudget ?_ (fun _ => rfl) honwards⟩
        intro external call
        exact absurd call (halone external)
    · rw [runTo_eq_halt htoken hrests (Nat.le_of_not_lt hbudget)]
      exact ⟨0, .exhaust hgoing htoken hrests (Nat.le_of_not_lt hbudget)⟩

theorem exists_executes_runTo (stop : Nat) {m : Machine σ} (hgoing : m.halted = false) :
    ∃ k, Executes stop k m (m.runTo stop) := by
  obtain ⟨k, h⟩ := exists_executes stop m
  rw [if_neg (by simp [hgoing])] at h
  exact ⟨k, h⟩

/-- The steps count the tokens that are executed. -/
theorem Executes.steps_eq {stop k : Nat} {m d : Machine σ} (h : Executes stop k m d) :
    d.steps = m.steps + k := by
  induction h with
  | halted | rest | exhaust => rfl
  | turn going here inside budget nested alone onwards ihnested ihonwards =>
    rename_i stop inner left m d token run
    have hturn : (m.turn run token).steps = m.steps + 1 + inner := by
      by_cases hcall : ∃ external, Delegates m token external
      · obtain ⟨external, call⟩ := hcall
        rw [(call.turn_eq _).2.1]
        exact ihnested external call
      · have halone : ∀ external, ¬Delegates m token external := not_exists.1 hcall
        rw [(turn_of_alone run here halone).1, alone halone]
    omega

/-- The loop without fuel always ends, in one way only. -/
theorem executes_iff {stop k : Nat} {m d : Machine σ} (hgoing : m.halted = false) :
    Executes stop k m d ↔ d = m.runTo stop ∧ d.steps = m.steps + k := by
  constructor
  · intro h
    refine ⟨?_, h.steps_eq⟩
    rw [h.eq_runTo, if_neg (by simp [hgoing])]
  · rintro ⟨rfl, hsteps⟩
    obtain ⟨k', h⟩ := exists_executes stop m
    rw [if_neg (by simp [hgoing])] at h
    obtain rfl : k = k' := by
      have hsteps' := h.steps_eq
      omega
    exact h

/-! ## How a run ends -/

/-- A run ends within its steps: either they ran out and there is one more complaint, or they
    did not and there is none. -/
structure Ends (m d : Machine σ) : Prop where
  within : d.steps ≤ m.limits.steps
  verdict : (d.halted = true ∧ d.steps = m.limits.steps
      ∧ d.faults.exhaustions.Perm (m.limits.steps :: m.faults.exhaustions))
    ∨ d.halted = false ∧ d.faults.exhaustions.Perm m.faults.exhaustions

theorem Executes.eq_of_halted {stop k : Nat} {m d : Machine σ} (h : Executes stop k m d)
    (hhalted : m.halted = true) : d = m := by
  rw [h.eq_runTo, if_pos hhalted]

omit [Scope σ] in
/-- What happens after a quiet stretch is what happens from its start. -/
theorem Ends.of_perm {m m' d : Machine σ} (h : Ends m' d) (hlimits : m'.limits = m.limits)
    (hperm : m'.faults.exhaustions.Perm m.faults.exhaustions) : Ends m d := by
  refine ⟨hlimits ▸ h.within, ?_⟩
  rcases h.verdict with ⟨hhalted, hsteps, hcomplaints⟩ | ⟨hgoing, hcomplaints⟩
  · rw [hlimits] at hsteps hcomplaints
    exact .inl ⟨hhalted, hsteps, hcomplaints.trans (hperm.cons _)⟩
  · exact .inr ⟨hgoing, hcomplaints.trans hperm⟩

theorem Executes.ends {stop k : Nat} {m d : Machine σ} (h : Executes stop k m d)
    (hgoing : m.halted = false) (hwithin : m.steps ≤ m.limits.steps) : Ends m d := by
  induction h with
  | halted halted =>
    rw [hgoing] at halted
    cases halted
  | rest going rests => exact ⟨hwithin, .inr ⟨hgoing, .refl _⟩⟩
  | exhaust going here inside exhausted =>
    refine ⟨hwithin, .inl ⟨rfl, Nat.le_antisymm hwithin exhausted, ?_⟩⟩
    exact Diagnostics.exhaustions_add _ _ _
  | turn going here inside budget nested alone onwards ihnested ihonwards =>
    rename_i stop inner left m d token run
    have hlimits := (turn_sameSetting run m token).limits
    by_cases hcall : ∃ external, Delegates m token external
    · obtain ⟨external, call⟩ := hcall
      obtain ⟨_, hsteps, hhalted⟩ := call.turn_eq run
      have hperm := call.exhaustions_turn run
      have hended := ihnested external call rfl budget
      have hbound := hended.within
      rw [hgoing, Bool.false_or] at hhalted
      rcases hended.verdict with ⟨hout, hexact, hcomplaints⟩ | ⟨hgoing', hcomplaints⟩
      · -- The limit was met in the other program: the loop stops here as well.
        rw [onwards.eq_of_halted (hhalted.trans hout)]
        refine ⟨hsteps ▸ hbound, .inl ⟨hhalted.trans hout, hsteps.trans hexact, ?_⟩⟩
        exact hperm.trans (hcomplaints.append_right _)
      · apply (ihonwards (hhalted.trans hgoing') ?_).of_perm hlimits
        · exact hperm.trans (hcomplaints.append_right _)
        · rw [hsteps, hlimits]
          exact hbound
    · obtain ⟨hsteps, hhalted, hperm⟩ := turn_of_alone run here (not_exists.1 hcall)
      apply (ihonwards (hhalted.trans hgoing) ?_).of_perm hlimits hperm
      rw [hsteps, hlimits]
      exact budget

theorem ends_runTo (stop : Nat) {m : Machine σ} (hgoing : m.halted = false)
    (hwithin : m.steps ≤ m.limits.steps) : Ends m (m.runTo stop) := by
  obtain ⟨k, h⟩ := exists_executes stop m
  rw [if_neg (by simp [hgoing])] at h
  exact h.ends hgoing hwithin

/-! ## The limits at every moment -/

/-- The states that a run goes through, its own and those of the machines that it starts. -/
inductive Passes (stop : Nat) (m : Machine σ) : Machine σ → Prop where
  /-- Before a token, after the last one, or where the steps of another program ran out. -/
  | head {stop' : Nat} {n : Machine σ} (reaches : Reaches stop m stop' n) : Passes stop m n
  /-- While a token is executed. -/
  | executing {stop' : Nat} {n n' : Machine σ} {token : Token} (reaches : Reaches stop m stop' n)
      (turn : Turn stop' n n') (here : n.program.token? n.pointer = some token) :
    Passes stop m (n.advance token)
  /-- Where the steps ran out. -/
  | exhausted {stop' : Nat} {n : Machine σ} {token : Token} (reaches : Reaches stop m stop' n)
      (inside : ¬Rests stop' n) (exhausted : n.limits.steps ≤ n.steps)
      (here : n.program.token? n.pointer = some token) : Passes stop m (n.halt token)

/-- The steps used and the calls open are within the limits. -/
structure Within (limits : Limits) (m : Machine σ) : Prop where
  setting : m.limits = limits
  steps : m.steps ≤ limits.steps
  depth : m.depth ≤ limits.callDepth

/-- A turn opens a call only if there is room for it. -/
theorem Turn.depth_le {stop : Nat} {m m' : Machine σ} (h : Turn stop m m')
    (hdepth : m.depth ≤ m.limits.callDepth) : m'.depth ≤ m.limits.callDepth := by
  have houter := h.sameSetting.outerDepth
  have hstay : m'.frames.length ≤ m.frames.length → m'.depth ≤ m.limits.callDepth := by
    intro hlength
    unfold depth at hdepth ⊢
    omega
  obtain ⟨token, htoken, hmoves⟩ := h.moves
  cases hmoves with
  | stay _ _ frames _ _ _ => exact hstay (by rw [frames])
  | analyse _ _ frames => exact hstay (by rw [frames]; exact Nat.zero_le _)
  | finish _ _ _ frames => exact hstay (by rw [frames]; exact Nat.zero_le _)
  | delegate _ _ frames _ _ _ _ => exact hstay (by rw [frames])
  | enter _ _ _ before frames _ _ _ => exact hstay (by rw [frames, before]; exact Nat.le_refl _)
  | leave _ _ _ _ before frames _ _ _ =>
    exact hstay (by rw [frames, before, List.length_cons]; exact Nat.le_succ _)
  | openCall extent kind found frames _ _ _ =>
    have hopened := h.frames_of_calls ⟨token, htoken, kind, found⟩
    by_cases hroom : m.limits.callDepth ≤ m.depth
    · rw [if_pos hroom] at hopened
      exact hstay (by rw [hopened])
    · unfold depth at hroom ⊢
      rw [frames, List.length_cons]
      omega

theorem Within.turn {limits : Limits} {stop : Nat} {m m' : Machine σ} (h : Within limits m)
    (hturn : Turn stop m m') : Within limits m' := by
  obtain ⟨rfl, hsteps, hdepth⟩ := h
  refine ⟨hturn.sameSetting.limits, ?_, hturn.depth_le hdepth⟩
  obtain ⟨token, htoken, rfl⟩ := hturn.turned
  by_cases hcall : ∃ external, Delegates m token external
  · obtain ⟨external, call⟩ := hcall
    -- The other program is started with the step of this turn used, which the budget covers.
    have hstart : (m.nested token external).steps ≤ (m.nested token external).limits.steps :=
      hturn.budget
    rw [(call.turn_eq _).2.1]
    exact (ends_runTo external.extent.stop rfl hstart).within
  · rw [(turn_of_alone _ htoken (not_exists.1 hcall)).1]
    exact hturn.budget

theorem Within.nested {limits : Limits} {stop : Nat} {m m' : Machine σ} {token : Token}
    {external : External σ} (h : Within limits m) (hturn : Turn stop m m')
    (call : Delegates m token external) : Within limits (m.nested token external) := by
  obtain ⟨rfl, _, _⟩ := h
  exact ⟨rfl, hturn.budget, call.room⟩

theorem Within.passes {limits : Limits} {stop : Nat} {m n : Machine σ} (h : Within limits m)
    (hpasses : Passes stop m n) : Within limits n := by
  have hreached : ∀ {stop' : Nat} {n : Machine σ}, Reaches stop m stop' n → Within limits n :=
    fun hreaches => hreaches.invariant (fun hturn hn => hn.turn hturn)
      (fun hturn call hn => hn.nested hturn call) h
  cases hpasses with
  | head reaches => exact hreached reaches
  | executing reaches turn here =>
    obtain ⟨rfl, _, hdepth⟩ := hreached reaches
    exact ⟨rfl, turn.budget, hdepth⟩
  | exhausted reaches inside exhausted here =>
    obtain ⟨hlimits, hsteps, hdepth⟩ := hreached reaches
    exact ⟨hlimits, hsteps, hdepth⟩

/-! ## Executions -/

/-- Every execution comes to an end, at every moment of it the tokens executed and the calls
    open are within the limits, and it has halted exactly if all steps are used and one
    complaint says so. -/
theorem execute_within_limits (program : Program) (scope : σ) (limits : Limits) :
    (∀ k d, Executes program.size k (start program scope limits) d
      ↔ d = (start program scope limits).execute
        ∧ k = (start program scope limits).execute.steps)
    ∧ (∀ n, Passes program.size (start program scope limits) n →
      n.steps ≤ limits.steps ∧ n.depth ≤ limits.callDepth)
    ∧ ((start program scope limits).execute.halted = true
        ∧ (start program scope limits).execute.steps = limits.steps
        ∧ (start program scope limits).execute.faults.exhaustions = [limits.steps]
      ∨ (start program scope limits).execute.halted = false
        ∧ (start program scope limits).execute.faults.exhaustions = []) := by
  rw [execute_start]
  refine ⟨?_, ?_, ?_⟩
  · intro k d
    rw [executes_iff rfl]
    constructor
    · rintro ⟨rfl, hsteps⟩
      exact ⟨rfl, by rw [hsteps]; exact (Nat.zero_add k).symm⟩
    · rintro ⟨rfl, rfl⟩
      exact ⟨rfl, (Nat.zero_add _).symm⟩
  · intro n hpasses
    have hwithin : Within limits (start program scope limits) :=
      ⟨rfl, Nat.zero_le _, Nat.zero_le _⟩
    obtain ⟨_, hsteps, hdepth⟩ := hwithin.passes hpasses
    exact ⟨hsteps, hdepth⟩
  · have hends : Ends (start program scope limits) _ :=
      ends_runTo program.size rfl (Nat.zero_le _)
    rcases hends.verdict with ⟨hhalted, hsteps, hperm⟩ | ⟨hgoing, hperm⟩
    · exact .inl ⟨hhalted, hsteps, List.perm_singleton.1 hperm⟩
    · exact .inr ⟨hgoing, List.perm_nil.1 hperm⟩

end Machine

end HuffTrace
