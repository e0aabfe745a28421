/-
  HuffTrace.Proofs.Machine.Heads

  The machines that an execution comes through.  `later` is the machine after
  a number of turns, so that the course of one loop is a sequence.  `Reaches`
  also follows the machines that are started for other programs, at any depth:
  what every turn keeps and every such start passes on holds at all of them
  (`Reaches.invariant`).
-/

import HuffTrace.Proofs.Machine.Nesting

namespace HuffTrace.Machine

variable {σ : Type} [Scope σ]

/-- The execution of a program on its own is one run of the loop. -/
theorem execute_start (program : Program) (scope : σ) (limits : Limits) :
    (start program scope limits).execute = (start program scope limits).runTo program.size := rfl

/-! ## The course of one loop -/

/-- The machine after a number of turns; at the end of its program it stays. -/
def later (m : Machine σ) : Nat → Machine σ
  | 0 => m
  | j + 1 =>
    match (m.later j).program.token? (m.later j).pointer with
    | some token => (m.later j).turn (fun stop n => n.runTo stop) token
    | none => m.later j

theorem Turn.eq_later {stop j : Nat} {m m' : Machine σ} (h : Turn stop (m.later j) m') :
    m' = m.later (j + 1) := by
  obtain ⟨token, htoken, rfl⟩ := h.turned
  simp only [later, htoken]

theorem Turns.eq_later {stop n : Nat} {m m' : Machine σ} (h : Turns stop n m m') :
    m' = m.later n := by
  induction h with
  | zero m => rfl
  | succ _ last ih =>
    rw [ih] at last
    exact last.eq_later

/-- The turns of a loop lead from each machine of the sequence to the next. -/
theorem Turns.turn_later {stop n : Nat} {m m' : Machine σ} (h : Turns stop n m m') {j : Nat}
    (hj : j < n) : Turn stop (m.later j) (m.later (j + 1)) := by
  induction h with
  | zero m => omega
  | succ before last ih =>
    rename_i n _ _ _
    by_cases hlast : j = n
    · subst hlast
      rw [before.eq_later] at last
      rw [← last.eq_later]
      exact last
    · exact ih (by omega)

/-- The loop up to `stop` takes a turn from the machine. -/
def Goes (stop : Nat) (m : Machine σ) : Prop :=
  m.halted = false ∧ ¬(m.frames = [] ∧ stop ≤ m.pointer) ∧ m.steps < m.limits.steps
    ∧ (m.program.token? m.pointer).isSome

instance (stop : Nat) (m : Machine σ) : Decidable (m.Goes stop) :=
  inferInstanceAs (Decidable (_ ∧ _ ∧ _ ∧ _))

theorem Goes.turn_later {stop j : Nat} {m : Machine σ} (h : (m.later j).Goes stop) :
    Turn stop (m.later j) (m.later (j + 1)) := by
  obtain ⟨hgoing, hinside, hbudget, hsome⟩ := h
  obtain ⟨token, htoken⟩ := Option.isSome_iff_exists.1 hsome
  refine ⟨hgoing, hinside, hbudget, token, htoken, ?_⟩
  simp only [later, htoken]

theorem turns_later {stop n : Nat} {m : Machine σ}
    (h : ∀ j < n, Turn stop (m.later j) (m.later (j + 1))) : Turns stop n m (m.later n) := by
  induction n with
  | zero => exact .zero m
  | succ n ih => exact .succ (ih fun j hj => h j (by omega)) (h n (by omega))

theorem Turns.upTo {stop n : Nat} {m m' : Machine σ} (h : Turns stop n m m') {j : Nat}
    (hj : j ≤ n) : Turns stop j m (m.later j) :=
  turns_later fun _ hi => h.turn_later (Nat.lt_of_lt_of_le hi hj)

theorem Turns.since {stop n : Nat} {m m' : Machine σ} (h : Turns stop n m m') {j : Nat}
    (hj : j ≤ n) : Turns stop (n - j) (m.later j) m' := by
  induction h with
  | zero m =>
    obtain rfl : j = 0 := by omega
    exact .zero m
  | succ before last ih =>
    rename_i n m _ m''
    by_cases hlast : j = n + 1
    · rw [hlast, ← (before.succ last).eq_later, Nat.sub_self]
      exact .zero m''
    · rw [Nat.succ_sub (by omega)]
      exact .succ (ih (by omega)) last

theorem Turns.append {stop i j : Nat} {m m' m'' : Machine σ} (h : Turns stop i m m')
    (h' : Turns stop j m' m'') : Turns stop (i + j) m m'' := by
  induction h' with
  | zero m' => exact h
  | succ _ last ih => exact .succ (ih h) last

/-- A loop that has not halted had not halted before. -/
theorem Turns.going_later {stop n : Nat} {m m' : Machine σ} (h : Turns stop n m m')
    (hgoing : m'.halted = false) {j : Nat} (hj : j ≤ n) : (m.later j).halted = false := by
  rcases Nat.lt_or_eq_of_le hj with hlt | rfl
  · exact (h.turn_later hlt).going
  · rw [← h.eq_later]
    exact hgoing

/-! ## The courses of all loops -/

/-- The loop up to `stop` that starts at `m` leads to the head `n` of a loop up to `stop'`: one
    of its own heads, or one of a machine started on the way, by this machine or another. -/
inductive Reaches : Nat → Machine σ → Nat → Machine σ → Prop where
  | here (stop : Nat) (m : Machine σ) : Reaches stop m stop m
  | next {stop stop' : Nat} {m m' n : Machine σ} (turn : Turn stop m m')
      (reaches : Reaches stop m' stop' n) : Reaches stop m stop' n
  | inner {stop stop' : Nat} {m m' n : Machine σ} {token : Token} {external : External σ}
      (turn : Turn stop m m') (call : Delegates m token external)
      (reaches : Reaches external.extent.stop (m.nested token external) stop' n) :
    Reaches stop m stop' n

theorem Reaches.trans {stop stop' stop'' : Nat} {m n d : Machine σ} (h : Reaches stop m stop' n)
    (h' : Reaches stop' n stop'' d) : Reaches stop m stop'' d := by
  induction h with
  | here stop m => exact h'
  | next turn _ ih => exact .next turn (ih h')
  | inner turn call _ ih => exact .inner turn call (ih h')

theorem Turns.reaches {stop n : Nat} {m m' : Machine σ} (h : Turns stop n m m') :
    Reaches stop m stop m' := by
  induction h with
  | zero m => exact .here stop m
  | succ _ last ih => exact ih.trans (.next last (.here stop _))

/-- What turns keep and what is passed on to the machines that they start holds at every
    head. -/
theorem Reaches.invariant {P : Machine σ → Prop}
    (hturn : ∀ {stop : Nat} {m m' : Machine σ}, Turn stop m m' → P m → P m')
    (hnested : ∀ {stop : Nat} {m m' : Machine σ} {token : Token} {external : External σ},
      Turn stop m m' → Delegates m token external → P m → P (m.nested token external))
    {stop stop' : Nat} {m n : Machine σ} (h : Reaches stop m stop' n) (hm : P m) : P n := by
  induction h with
  | here stop m => exact hm
  | next turn _ ih => exact ih (hturn turn hm)
  | inner turn call _ ih => exact ih (hnested turn call hm)

end HuffTrace.Machine
