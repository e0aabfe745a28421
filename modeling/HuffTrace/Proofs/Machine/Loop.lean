/-
  HuffTrace.Proofs.Machine.Loop

  The loop that executes a program.  Its fuel is bookkeeping only: any fuel
  that covers the steps left gives the same run (`runFor_congr`), so a run is
  described by its heads, the machines at which the loop is about to take a
  turn.  `Turn` is one turn of the loop and `Turns` a number of them; a run
  goes on from each of its heads (`Turns.runTo_eq`).
-/

import HuffTrace.Proofs.Machine.Step

namespace HuffTrace.Machine

variable {σ : Type} [Scope σ]

/-! ## What a step leaves alone -/

/-- The parts of a machine that are fixed once it is started. -/
structure SameSetting (m m' : Machine σ) : Prop where
  program : m'.program = m.program
  scope : m'.scope = m.scope
  limits : m'.limits = m.limits
  outerDepth : m'.outerDepth = m.outerDepth
  recording : m'.recording = m.recording

omit [Scope σ] in
theorem SameSetting.refl (m : Machine σ) : SameSetting m m := ⟨rfl, rfl, rfl, rfl, rfl⟩

omit [Scope σ] in
theorem SameSetting.trans {m₁ m₂ m₃ : Machine σ} (h : SameSetting m₁ m₂)
    (h' : SameSetting m₂ m₃) : SameSetting m₁ m₃ where
  program := h'.program.trans h.program
  scope := h'.scope.trans h.scope
  limits := h'.limits.trans h.limits
  outerDepth := h'.outerDepth.trans h.outerDepth
  recording := h'.recording.trans h.recording

omit [Scope σ] in
theorem sameSetting_work (m : Machine σ) (operation : Workspace → Workspace) :
    SameSetting m (m.work operation) := by
  rw [work_eq]
  exact ⟨rfl, rfl, rfl, rfl, rfl⟩

theorem Acts.sameSetting {run : Nat → Machine σ → Machine σ} {m m' : Machine σ} {position : Nat}
    {token : Token} {anchor : Option Nat} (h : Acts run m position token anchor m') :
    SameSetting m m' := by
  cases h with
  | push v _ => exact sameSetting_work m _
  | opcode op _ => exact sameSetting_work m _
  | _ => exact ⟨rfl, rfl, rfl, rfl, rfl⟩

omit [Scope σ] in
theorem steps_work (m : Machine σ) (operation : Workspace → Workspace) :
    (m.work operation).steps = m.steps := by
  rw [work_eq]

theorem Acts.steps_le {run : Nat → Machine σ → Machine σ}
    (hrun : ∀ stop n, n.steps ≤ (run stop n).steps) {m m' : Machine σ} {position : Nat}
    {token : Token} {anchor : Option Nat} (h : Acts run m position token anchor m') :
    m.steps ≤ m'.steps := by
  cases h with
  | push v _ => exact Nat.le_of_eq (steps_work m _).symm
  | opcode op _ => exact Nat.le_of_eq (steps_work m _).symm
  | external _ external done _ _ _ _ hran =>
    subst hran
    exact hrun _ (m.callee (takesOf external) external)
  | _ => exact Nat.le_refl _

omit [Scope σ] in
/-- A comment changes nothing else. -/
theorem comment_eq (m : Machine σ) (position : Nat) :
    m.comment position = { m with comments := (m.comment position).comments } := by
  unfold comment
  split
  · split <;> rfl
  · rfl

/-! ## Turns -/

/-- A turn is the step of its token, up to the comment that follows it. -/
theorem turn_eq (run : Nat → Machine σ → Machine σ) (m : Machine σ) (token : Token) :
    m.turn run token
      = { ((m.advance token).step run m.pointer token).2 with
          comments := (m.turn run token).comments } := by
  unfold turn
  split
  · next position after hstep =>
    rw [hstep]
    exact comment_eq after position
  · next after hstep => rw [hstep]

/-- What a turn does is one of the things that a step can do, up to the comment. -/
theorem turn_acts (run : Nat → Machine σ → Machine σ) (m : Machine σ) (token : Token) :
    ∃ anchor after comments, Acts run (m.advance token) m.pointer token anchor after
      ∧ m.turn run token = { after with comments } :=
  ⟨_, _, _, step_acts run (m.advance token) m.pointer token, turn_eq run m token⟩

theorem turn_sameSetting (run : Nat → Machine σ → Machine σ) (m : Machine σ) (token : Token) :
    SameSetting m (m.turn run token) := by
  have h := (step_acts run (m.advance token) m.pointer token).sameSetting
  rw [turn_eq]
  exact ⟨h.program, h.scope, h.limits, h.outerDepth, h.recording⟩

theorem lt_steps_turn {run : Nat → Machine σ → Machine σ}
    (hrun : ∀ stop n, n.steps ≤ (run stop n).steps) (m : Machine σ) (token : Token) :
    m.steps < (m.turn run token).steps := by
  have h := (step_acts run (m.advance token) m.pointer token).steps_le hrun
  rw [turn_eq]
  exact h

theorem le_steps_runFor (fuel stop : Nat) (m : Machine σ) :
    m.steps ≤ (runFor fuel stop m).steps := by
  induction fuel generalizing stop m with
  | zero =>
    unfold runFor
    split
    · exact Nat.le_refl _
    · split <;> exact Nat.le_refl _
  | succ fuel ih =>
    unfold runFor
    split
    · exact Nat.le_refl _
    · next token _ =>
      split
      · exact Nat.le_refl _
      · simp only
        split
        · exact Nat.le_refl _
        · have hturn := lt_steps_turn (fun stop n => ih stop n) m token
          split
          · exact Nat.le_of_lt hturn
          · exact Nat.le_trans (Nat.le_of_lt hturn) (ih stop _)

theorem runFor_sameSetting (fuel stop : Nat) (m : Machine σ) :
    SameSetting m (runFor fuel stop m) := by
  induction fuel generalizing stop m with
  | zero =>
    unfold runFor
    split
    · exact .refl m
    · split
      · exact .refl m
      · exact ⟨rfl, rfl, rfl, rfl, rfl⟩
  | succ fuel ih =>
    unfold runFor
    split
    · exact .refl m
    · next token _ =>
      split
      · exact .refl m
      · simp only
        split
        · exact ⟨rfl, rfl, rfl, rfl, rfl⟩
        · have hturn := turn_sameSetting (fun stop m => runFor fuel stop m) m token
          split
          · exact hturn
          · exact hturn.trans (ih stop _)

/-- A step asks its runner only about machines with its own steps and limits. -/
theorem step_congr {run run' : Nat → Machine σ → Machine σ} (m : Machine σ)
    (h : ∀ stop n, n.steps = m.steps → n.limits = m.limits → run stop n = run' stop n)
    (position : Nat) (token : Token) :
    m.step run position token = m.step run' position token := by
  have hext : ∀ external, m.callExternal run external = m.callExternal run' external := by
    intro external
    have hrun := h external.extent.stop (m.callee (takesOf external) external) rfl rfl
    unfold takesOf at hrun
    simp only [callExternal, hrun]
  have hcall : m.call run position token.name = m.call run' position token.name := by
    unfold call
    simp only [hext]
  unfold step
  simp only [hcall]

theorem turn_congr {run run' : Nat → Machine σ → Machine σ} (m : Machine σ)
    (h : ∀ stop n, n.steps = m.steps + 1 → n.limits = m.limits → run stop n = run' stop n)
    (token : Token) : m.turn run token = m.turn run' token := by
  unfold turn
  rw [step_congr (m.advance token) h]

/-- Two fuels that both cover the steps left give the same run. -/
theorem runFor_congr (fuel fuel' stop : Nat) (m : Machine σ)
    (h : m.limits.steps - m.steps ≤ fuel) (h' : m.limits.steps - m.steps ≤ fuel') :
    runFor fuel stop m = runFor fuel' stop m := by
  induction fuel generalizing fuel' stop m with
  | zero =>
    have hout : m.limits.steps ≤ m.steps := by omega
    cases fuel' with
    | zero => rfl
    | succ fuel' =>
      unfold runFor
      simp only [if_pos hout]
  | succ fuel ih =>
    cases fuel' with
    | zero =>
      have hout : m.limits.steps ≤ m.steps := by omega
      unfold runFor
      simp only [if_pos hout]
    | succ fuel' =>
      unfold runFor
      split
      · rfl
      · next token _ =>
        split
        · rfl
        · simp only
          split
          · rfl
          · have hturn : m.turn (fun stop m => runFor fuel stop m) token
                = m.turn (fun stop m => runFor fuel' stop m) token := by
              apply turn_congr
              intro stop n hsteps hlimits
              exact ih fuel' stop n (by rw [hsteps, hlimits]; omega)
                (by rw [hsteps, hlimits]; omega)
            rw [hturn]
            split
            · rfl
            · -- The turn has used up a step, so both fuels cover what is left after it.
              have hlt := lt_steps_turn (fun stop n => le_steps_runFor fuel' stop n) m token
              have hlimits :=
                (turn_sameSetting (fun stop m => runFor fuel' stop m) m token).limits
              exact ih fuel' stop _ (by rw [hlimits]; omega) (by rw [hlimits]; omega)

theorem runFor_eq_runTo {fuel : Nat} (stop : Nat) (m : Machine σ)
    (h : m.limits.steps - m.steps ≤ fuel) : runFor fuel stop m = m.runTo stop :=
  runFor_congr fuel _ stop m h (Nat.le_refl _)

/-! ## Heads of the loop -/

/-- The loop up to `stop` takes a turn from `m` to `m'`. -/
structure Turn (stop : Nat) (m m' : Machine σ) : Prop where
  going : m.halted = false
  inside : ¬(m.frames = [] ∧ stop ≤ m.pointer)
  budget : m.steps < m.limits.steps
  turned : ∃ token, m.program.token? m.pointer = some token
    ∧ m' = m.turn (fun stop n => n.runTo stop) token

theorem Turn.eq_turn {stop : Nat} {m m' : Machine σ} (h : Turn stop m m') {token : Token}
    (htoken : m.program.token? m.pointer = some token) :
    m' = m.turn (fun stop n => n.runTo stop) token := by
  obtain ⟨token', htoken', rfl⟩ := h.turned
  rw [htoken] at htoken'
  cases htoken'
  rfl

/-- A turn leads to one machine only. -/
theorem Turn.unique {stop : Nat} {m m₁ m₂ : Machine σ} (h₁ : Turn stop m m₁)
    (h₂ : Turn stop m m₂) : m₁ = m₂ := by
  obtain ⟨token, htoken, rfl⟩ := h₁.turned
  exact (h₂.eq_turn htoken).symm

theorem Turn.sameSetting {stop : Nat} {m m' : Machine σ} (h : Turn stop m m') :
    SameSetting m m' := by
  obtain ⟨token, _, rfl⟩ := h.turned
  exact turn_sameSetting _ m token

theorem le_steps_runTo (stop : Nat) (m : Machine σ) : m.steps ≤ (m.runTo stop).steps :=
  le_steps_runFor _ stop m

theorem Turn.steps_lt {stop : Nat} {m m' : Machine σ} (h : Turn stop m m') :
    m.steps < m'.steps := by
  obtain ⟨token, _, rfl⟩ := h.turned
  exact lt_steps_turn (fun stop n => le_steps_runTo stop n) m token

/-- What the loop does at a head with a token, written without fuel. -/
theorem runTo_of_token {stop : Nat} {m : Machine σ} {token : Token}
    (htoken : m.program.token? m.pointer = some token)
    (hinside : ¬(m.frames = [] ∧ stop ≤ m.pointer)) (hbudget : m.steps < m.limits.steps) :
    m.runTo stop
      = let m' := m.turn (fun stop n => n.runTo stop) token
        if m'.halted then m' else m'.runTo stop := by
  obtain ⟨fuel, hfuel⟩ : ∃ fuel, m.limits.steps - m.steps = fuel + 1 :=
    ⟨m.limits.steps - m.steps - 1, by omega⟩
  have hturn : m.turn (fun stop n => runFor fuel stop n) token
      = m.turn (fun stop n => n.runTo stop) token := by
    apply turn_congr
    intro stop n hsteps hlimits
    exact runFor_eq_runTo stop n (by rw [hsteps, hlimits]; omega)
  have hlt := lt_steps_turn (fun stop n => le_steps_runTo stop n) m token
  have hlimits := (turn_sameSetting (fun stop n => n.runTo stop) m token).limits
  rw [runTo, hfuel]
  unfold runFor
  simp only [htoken, List.isEmpty_iff, if_neg hinside, if_neg (Nat.not_le.2 hbudget), hturn]
  split
  · rfl
  · exact runFor_eq_runTo stop _ (by rw [hlimits]; omega)

/-- Where a turn is possible, the run goes on from the next head. -/
theorem Turn.runTo_eq {stop : Nat} {m m' : Machine σ} (h : Turn stop m m')
    (hgoing : m'.halted = false) : m.runTo stop = m'.runTo stop := by
  obtain ⟨token, htoken, rfl⟩ := h.turned
  rw [runTo_of_token htoken h.inside h.budget]
  simp only [hgoing]
  rfl

/-- Where a turn halts, the run ends with it. -/
theorem Turn.runTo_eq_of_halted {stop : Nat} {m m' : Machine σ} (h : Turn stop m m')
    (hhalted : m'.halted = true) : m.runTo stop = m' := by
  obtain ⟨token, htoken, rfl⟩ := h.turned
  rw [runTo_of_token htoken h.inside h.budget]
  simp only [hhalted, if_true]

/-- The loop up to `stop` takes `n` turns from `m` to `m'`. -/
inductive Turns (stop : Nat) : Nat → Machine σ → Machine σ → Prop where
  | zero (m : Machine σ) : Turns stop 0 m m
  | succ {n : Nat} {m m' m'' : Machine σ} (before : Turns stop n m m')
      (last : Turn stop m' m'') : Turns stop (n + 1) m m''

/-- A number of turns leads to one machine only. -/
theorem Turns.unique {stop n : Nat} {m m₁ m₂ : Machine σ} (h₁ : Turns stop n m m₁)
    (h₂ : Turns stop n m m₂) : m₁ = m₂ := by
  induction h₁ generalizing m₂ with
  | zero m => cases h₂; rfl
  | succ _ last ih =>
    cases h₂ with
    | succ before' last' =>
      rw [← ih before'] at last'
      exact last.unique last'

theorem Turns.runTo_eq {stop n : Nat} {m m' : Machine σ} (h : Turns stop n m m')
    (hgoing : m'.halted = false) : m.runTo stop = m'.runTo stop := by
  induction h with
  | zero m => rfl
  | succ _ last ih => rw [ih last.going, last.runTo_eq hgoing]

theorem Turns.cons {stop n : Nat} {m m' m'' : Machine σ} (hturn : Turn stop m m')
    (h : Turns stop n m' m'') : Turns stop (n + 1) m m'' := by
  induction h with
  | zero m' => exact .succ (.zero m) hturn
  | succ _ last ih => exact .succ (ih hturn) last

theorem Turns.sameSetting {stop n : Nat} {m m' : Machine σ} (h : Turns stop n m m') :
    SameSetting m m' := by
  induction h with
  | zero m => exact .refl m
  | succ _ last ih => exact ih.trans last.sameSetting

theorem Turns.steps_le {stop n : Nat} {m m' : Machine σ} (h : Turns stop n m m') :
    m.steps ≤ m'.steps := by
  induction h with
  | zero m => exact Nat.le_refl _
  | succ _ last ih => exact Nat.le_trans ih (Nat.le_of_lt last.steps_lt)

/-- Before the last of its heads, a run takes a turn from every head. -/
theorem Turns.turn_of_lt {stop n : Nat} {m m' : Machine σ} (h : Turns stop n m m') {k : Nat}
    (hk : k < n) {a : Machine σ} (ha : Turns stop k m a) : ∃ b, Turn stop a b := by
  induction h with
  | zero m => omega
  | succ before last ih =>
    rename_i n _ _ _
    by_cases heq : k = n
    · subst heq
      rw [ha.unique before]
      exact ⟨_, last⟩
    · exact ih (by omega) ha

/-! ## Runs that come to an end -/

/-- The loop up to `stop` ends at a machine that has steps left. -/
def Rests (stop : Nat) (m : Machine σ) : Prop :=
  m.program.token? m.pointer = none ∨ m.frames = [] ∧ stop ≤ m.pointer

theorem Rests.not_turn {stop : Nat} {m m' : Machine σ} (h : Rests stop m) : ¬Turn stop m m' := by
  intro hturn
  rcases h with hnone | hstop
  · obtain ⟨token, htoken, _⟩ := hturn.turned
    rw [hnone] at htoken
    cases htoken
  · exact hturn.inside hstop

/-- A turn from a head comes before the rest. -/
theorem Rests.lt_of_turn {stop n : Nat} {m d : Machine σ} (h : Rests stop d)
    (hends : Turns stop n m d) {k : Nat} {a b : Machine σ} (ha : Turns stop k m a)
    (hturn : Turn stop a b) : k < n := by
  rcases Nat.lt_trichotomy k n with hlt | rfl | hgt
  · exact hlt
  · rw [ha.unique hends] at hturn
    exact absurd hturn h.not_turn
  · obtain ⟨c, hc⟩ := ha.turn_of_lt hgt hends
    exact absurd hc h.not_turn

theorem Rests.runTo_eq {stop : Nat} {m : Machine σ} (h : Rests stop m) : m.runTo stop = m := by
  unfold runTo runFor
  split
  · rfl
  · next token htoken =>
    rcases h with hnone | ⟨hframes, hstop⟩
    · rw [htoken] at hnone
      cases hnone
    · rw [if_pos ⟨by rw [hframes]; rfl, hstop⟩]

omit [Scope σ] in
theorem exists_token_of_not_rests {stop : Nat} {m : Machine σ} (h : ¬Rests stop m) :
    ∃ token, m.program.token? m.pointer = some token :=
  Option.ne_none_iff_exists'.1 fun hnone => h (.inl hnone)

/-- Where the steps have run out, the loop halts at the next token. -/
theorem runTo_eq_halt {stop : Nat} {m : Machine σ} {token : Token}
    (htoken : m.program.token? m.pointer = some token) (hinside : ¬Rests stop m)
    (hsteps : m.limits.steps ≤ m.steps) : m.runTo stop = m.halt token := by
  have hfuel : m.limits.steps - m.steps = 0 := by omega
  have hgoes : ¬(m.frames.isEmpty ∧ stop ≤ m.pointer) := by
    rintro ⟨hempty, hstop⟩
    exact hinside (.inr ⟨List.isEmpty_iff.1 hempty, hstop⟩)
  rw [runTo, hfuel]
  unfold runFor
  simp only [htoken, if_neg hgoes]

/-- Where no turn is taken the run ends, with the stack and the comments that it has. -/
theorem runTo_of_not_turn {stop : Nat} {m : Machine σ} (hgoing : m.halted = false)
    (h : ∀ m', ¬Turn stop m m') :
    (m.runTo stop).stack = m.stack ∧ (m.runTo stop).comments = m.comments := by
  by_cases hrests : Rests stop m
  · rw [hrests.runTo_eq]
    exact ⟨rfl, rfl⟩
  obtain ⟨token, htoken⟩ := exists_token_of_not_rests hrests
  have hsteps : m.limits.steps ≤ m.steps := by
    apply Nat.le_of_not_lt
    intro hbudget
    exact h _ ⟨hgoing, fun hstop => hrests (.inr hstop), hbudget, token, htoken, rfl⟩
  rw [runTo_eq_halt htoken hrests hsteps]
  exact ⟨rfl, rfl⟩

/-- Where a run that does not halt has not come to rest, it takes a turn. -/
theorem exists_turn {stop : Nat} {m : Machine σ} (hgoing : m.halted = false)
    (hrests : ¬Rests stop m) (hdone : (m.runTo stop).halted = false) :
    ∃ m', Turn stop m m' ∧ m'.halted = false ∧ m.runTo stop = m'.runTo stop := by
  obtain ⟨token, htoken⟩ := exists_token_of_not_rests hrests
  have hbudget : m.steps < m.limits.steps := by
    apply Nat.lt_of_not_le
    intro hout
    rw [runTo_eq_halt htoken hrests hout] at hdone
    cases hdone
  have hinside : ¬(m.frames = [] ∧ stop ≤ m.pointer) := fun hstop => hrests (.inr hstop)
  have hturn : Turn stop m (m.turn (fun stop n => n.runTo stop) token) :=
    ⟨hgoing, hinside, hbudget, token, htoken, rfl⟩
  have hnext : (m.turn (fun stop n => n.runTo stop) token).halted = false := by
    apply Bool.eq_false_iff.2
    intro hhalted
    rw [runTo_of_token htoken hinside hbudget] at hdone
    simp only [hhalted, if_true] at hdone
    cases hdone
  exact ⟨_, hturn, hnext, hturn.runTo_eq hnext⟩

/-- A run that does not halt is a number of turns up to where it rests. -/
theorem exists_turns_runTo {stop : Nat} {m : Machine σ} (hgoing : m.halted = false)
    (h : (m.runTo stop).halted = false) :
    ∃ n, Turns stop n m (m.runTo stop) ∧ Rests stop (m.runTo stop) := by
  induction hleft : m.limits.steps - m.steps using Nat.strongRecOn generalizing m with
  | ind left ih =>
    by_cases hrests : Rests stop m
    · rw [hrests.runTo_eq]
      exact ⟨0, .zero m, hrests⟩
    · obtain ⟨m', hturn, hgoing', hrun⟩ := exists_turn hgoing hrests h
      have hbudget := hturn.budget
      have hsteps := hturn.steps_lt
      rw [hrun] at h ⊢
      obtain ⟨n, hturns, hends⟩ :=
        ih _ (by rw [hturn.sameSetting.limits]; omega) hgoing' h rfl
      exact ⟨n + 1, hturns.cons hturn, hends⟩

end HuffTrace.Machine
