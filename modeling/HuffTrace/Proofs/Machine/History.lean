/-
  HuffTrace.Proofs.Machine.History

  The history of an execution.  `Visits` lists the heads at which a loop
  executes a token, in the order of execution; where a token leads into another
  program, the heads of the machine for it come before the loop goes on.  Every
  loop has a history, and its members are all the heads that it leads to and
  that take a turn (`Visits.mem_iff`).
-/

import HuffTrace.Proofs.Machine.Heads

namespace HuffTrace.Machine

variable {σ : Type} [Scope σ]

/-- The loop up to `stop` executes a token at each of the heads, in order. -/
inductive Visits : Nat → Machine σ → List (Machine σ) → Prop where
  | ends {stop : Nat} {m : Machine σ} (ends : ∀ m', ¬Turn stop m m') : Visits stop m []
  | alone {stop : Nat} {m m' : Machine σ} {rest : List (Machine σ)} (turn : Turn stop m m')
      (alone : ∀ token external, ¬Delegates m token external) (onwards : Visits stop m' rest) :
    Visits stop m (m :: rest)
  | delegate {stop : Nat} {m m' : Machine σ} {token : Token} {external : External σ}
      {inner rest : List (Machine σ)} (turn : Turn stop m m') (call : Delegates m token external)
      (nested : Visits external.extent.stop (m.nested token external) inner)
      (onwards : Visits stop m' rest) : Visits stop m (m :: (inner ++ rest))

/-- Every loop has a history. -/
theorem exists_visits (stop : Nat) (m : Machine σ) : ∃ heads, Visits stop m heads := by
  -- Both the machine after a turn and the one that it starts have fewer steps left.
  induction hleft : m.limits.steps - m.steps using Nat.strongRecOn generalizing m stop with
  | ind left ih =>
    by_cases hturns : ∃ m', Turn stop m m'
    · obtain ⟨m', hturn⟩ := hturns
      have hbudget := hturn.budget
      have hsteps := hturn.steps_lt
      obtain ⟨rest, honwards⟩ :=
        ih _ (by rw [hturn.sameSetting.limits]; omega) stop m' rfl
      by_cases hcall : ∃ token external, Delegates m token external
      · obtain ⟨token, external, call⟩ := hcall
        obtain ⟨inner, hnested⟩ := ih (m.limits.steps - (m.steps + 1)) (by omega)
          external.extent.stop (m.nested token external) rfl
        exact ⟨_, .delegate hturn call hnested honwards⟩
      · refine ⟨_, .alone hturn ?_ honwards⟩
        intro token external call
        exact hcall ⟨token, external, call⟩
    · exact ⟨[], .ends (not_exists.1 hturns)⟩

theorem Visits.exists_reaches {stop : Nat} {m b : Machine σ} {heads : List (Machine σ)}
    (h : Visits stop m heads) (hb : b ∈ heads) :
    ∃ stop' b', Reaches stop m stop' b ∧ Turn stop' b b' := by
  induction h with
  | ends _ => cases hb
  | alone turn _ _ ih =>
    rcases List.mem_cons.1 hb with rfl | hb
    · exact ⟨_, _, .here _ _, turn⟩
    · obtain ⟨stop', b', hreaches, hturn⟩ := ih hb
      exact ⟨stop', b', .next turn hreaches, hturn⟩
  | delegate turn call _ _ ihnested ihonwards =>
    rcases List.mem_cons.1 hb with rfl | hb
    · exact ⟨_, _, .here _ _, turn⟩
    · rcases List.mem_append.1 hb with hb | hb
      · obtain ⟨stop', b', hreaches, hturn⟩ := ihnested hb
        exact ⟨stop', b', .inner turn call hreaches, hturn⟩
      · obtain ⟨stop', b', hreaches, hturn⟩ := ihonwards hb
        exact ⟨stop', b', .next turn hreaches, hturn⟩

/-- A history starts with a head that takes a turn. -/
theorem Visits.mem_of_turn {stop : Nat} {m m' : Machine σ} {heads : List (Machine σ)}
    (h : Visits stop m heads) (hturn : Turn stop m m') : m ∈ heads := by
  cases h with
  | ends ends => exact absurd hturn (ends m')
  | alone _ _ _ => exact List.mem_cons_self
  | delegate _ _ _ _ => exact List.mem_cons_self

/-- A history leaves out no head that takes a turn. -/
theorem Visits.mem_of_reaches {stop stop' : Nat} {m b b' : Machine σ} {heads : List (Machine σ)}
    (h : Visits stop m heads) (hreaches : Reaches stop m stop' b) (hturn : Turn stop' b b') :
    b ∈ heads := by
  induction hreaches generalizing heads with
  | here stop m => exact h.mem_of_turn hturn
  | next turn _ ih =>
    cases h with
    | ends ends => exact absurd turn (ends _)
    | alone turn' _ onwards =>
      obtain rfl := turn.unique turn'
      exact List.mem_cons_of_mem _ (ih onwards hturn)
    | delegate turn' _ _ onwards =>
      obtain rfl := turn.unique turn'
      exact List.mem_cons_of_mem _ (List.mem_append_right _ (ih onwards hturn))
  | inner turn call _ ih =>
    cases h with
    | ends ends => exact absurd turn (ends _)
    | alone _ alone _ => exact absurd call (alone _ _)
    | delegate _ call' nested _ =>
      obtain ⟨rfl, rfl⟩ := call.unique call'
      exact List.mem_cons_of_mem _ (List.mem_append_left _ (ih nested hturn))

theorem Visits.mem_iff {stop : Nat} {m b : Machine σ} {heads : List (Machine σ)}
    (h : Visits stop m heads) :
    b ∈ heads ↔ ∃ stop' b', Reaches stop m stop' b ∧ Turn stop' b b' :=
  ⟨h.exists_reaches, fun ⟨_, _, hreaches, hturn⟩ => h.mem_of_reaches hreaches hturn⟩

/-! ## Where a loop ends -/

/-- The machine at which the loop up to `stop` ends. -/
def ending (stop : Nat) (m : Machine σ) : Machine σ :=
  if m.halted then m else m.runTo stop

theorem Turn.ending_eq {stop : Nat} {m m' : Machine σ} (h : Turn stop m m') :
    ending stop m = ending stop m' := by
  rw [ending, h.going, if_neg Bool.false_ne_true, ending]
  split
  · next hhalted => exact h.runTo_eq_of_halted hhalted
  · next hgoing => exact h.runTo_eq (Bool.eq_false_iff.2 hgoing)

/-- Where no turn is taken, the stack stays as it is. -/
theorem stack_ending {stop : Nat} {m : Machine σ} (h : ∀ m', ¬Turn stop m m') :
    (ending stop m).stack = m.stack := by
  unfold ending
  split
  · rfl
  · next hgoing => exact (runTo_of_not_turn (Bool.eq_false_iff.2 hgoing) h).1

end HuffTrace.Machine
