/-
  HuffTrace.Proofs.Stack.InPlace

  Sequences of stack operations.  The operations of a stack answer with a new
  stack or with an error, so they cannot show a stack that an error left
  changed halfway.  Here they are written once more as programs that change one
  stack in place, effect by effect, and in which an error undoes nothing.  Both
  readings agree (`Operation.outcome_inPlace`): every check comes before the
  first effect, so an operation that is refused has changed nothing.

  After any operations, refused ones included, nothing that the stack shows,
  hides or remembers is deeper than `maxDepth` (`contained_after`).
-/

import HuffTrace.Proofs.Stack

namespace HuffTrace.Stack

/-! ## Programs on a stack -/

/-- A program that changes a stack in place. -/
abbrev InPlace (α : Type) : Type :=
  ExceptT StackError (StateM Stack) α

namespace InPlace

variable {α β : Type}

/-- The answer of a program on a stack, and the stack as the program leaves it, be the answer
    an error or not. -/
def outcome (program : InPlace α) (s : Stack) : Except StackError α × Stack :=
  program.run s

@[simp] theorem outcome_pure (a : α) (s : Stack) : (pure a : InPlace α).outcome s = (.ok a, s) :=
  rfl

@[simp] theorem outcome_throw (e : StackError) (s : Stack) :
    (throw e : InPlace α).outcome s = (.error e, s) := rfl

@[simp] theorem outcome_get (s : Stack) : (get : InPlace Stack).outcome s = (.ok s, s) := rfl

@[simp] theorem outcome_set (s s' : Stack) : (set s' : InPlace PUnit).outcome s = (.ok (), s') :=
  rfl

@[simp] theorem outcome_modify (f : Stack → Stack) (s : Stack) :
    (modify f : InPlace PUnit).outcome s = (.ok (), f s) := rfl

/-- A program goes on with the stack that its first part leaves, unless that part fails. -/
@[simp] theorem outcome_bind (program : InPlace α) (next : α → InPlace β) (s : Stack) :
    (program >>= next).outcome s
      = match program.outcome s with
        | (.ok a, s') => (next a).outcome s'
        | (.error e, s') => (.error e, s') := by
  show (match program.outcome s with | (result, s') => ExceptT.bindCont next result s') = _
  rcases program.outcome s with ⟨result, s'⟩
  cases result <;> rfl

def push (v : Value) : InPlace Unit := do
  let s ← get
  if s.visible.length < maxDepth then set { s with visible := v :: s.visible }
  else throw (.depthExceeded (s.visible.length + 1))

def pop : InPlace Value := do
  let s ← get
  match s.visible with
  | [] => throw .underflow
  | v :: rest =>
    set { s with visible := rest }
    pure v

def read (depth : Nat) : InPlace Value := do
  let s ← get
  match s.visible[depth]? with
  | none => throw (.noSuchDepth depth)
  | some v => pure v

def dup : Nat → InPlace Unit
  | 0 => throw (.noSuchDepth 0)
  | depth + 1 => do
    let v ← read depth
    push v

/-- Both values are read before either is written. -/
def swap (depth : Nat) : InPlace Unit := do
  let top ← read 0
  let other ← read depth
  modify fun s => { s with visible := s.visible.set 0 other }
  modify fun s => { s with visible := s.visible.set depth top }

end InPlace

/-! ## Operations -/

/-- An operation with its arguments. -/
inductive Operation where
  | push (v : Value)
  | pop
  | read (depth : Nat)
  | dup (n : Nat)
  | swap (depth : Nat)
  | hide (keep : Nat)
  | reveal (keep : Nat)
  | reset (values : List Value)
  | mark (label : String)
  | jump (label : String)
  | clearLabels
  deriving DecidableEq, Repr

namespace Operation

/-- The stack after an operation, or why the operation is refused. -/
def apply (s : Stack) : Operation → Except StackError Stack
  | .push v => s.push v
  | .pop => s.pop.map (·.2)
  | .read depth => (s.read depth).map fun _ => s
  | .dup n => s.dup n
  | .swap depth => s.swap depth
  | .hide keep => .ok (s.hide keep)
  | .reveal keep => .ok (s.reveal keep)
  | .reset values => .ok (s.reset values)
  | .mark label => .ok (s.mark label)
  | .jump label => .ok (s.jump label)
  | .clearLabels => .ok s.clearLabels

/-- An operation in place.  One that is never refused is a single effect. -/
def inPlace : Operation → InPlace Unit
  | .push v => InPlace.push v
  | .pop => do let _ ← InPlace.pop
  | .read depth => do let _ ← InPlace.read depth
  | .dup n => InPlace.dup n
  | .swap depth => InPlace.swap depth
  | .hide keep => modify (·.hide keep)
  | .reveal keep => modify (·.reveal keep)
  | .reset values => modify (·.reset values)
  | .mark label => modify (·.mark label)
  | .jump label => modify (·.jump label)
  | .clearLabels => modify (·.clearLabels)

/-- Why an operation is refused on a stack that shows `size` values. -/
def refusal? (size : Nat) : Operation → Option StackError
  | .push _ => if maxDepth ≤ size then some (.depthExceeded (size + 1)) else none
  | .pop => if size = 0 then some .underflow else none
  | .read depth => if size ≤ depth then some (.noSuchDepth depth) else none
  | .dup 0 => some (.noSuchDepth 0)
  | .dup (depth + 1) =>
    if size ≤ depth then some (.noSuchDepth depth)
    else if maxDepth ≤ size then some (.depthExceeded (size + 1))
    else none
  | .swap depth =>
    if size = 0 then some (.noSuchDepth 0)
    else if size ≤ depth then some (.noSuchDepth depth)
    else none
  | _ => none

end Operation

/-- The stack after operations in place, one after the other; a refused one does not keep those
    after it from being tried. -/
def after (operations : List Operation) : Stack :=
  operations.foldl (fun s operation => (operation.inPlace.outcome s).2) .empty

section Answers

variable {s s' : Stack}

theorem Operation.apply_pop_eq_ok (h : Operation.pop.apply s = .ok s') :
    ∃ v, s.pop = .ok (v, s') := by
  rw [Operation.apply] at h
  cases hpop : s.pop with
  | error e =>
    rw [hpop] at h
    cases h
  | ok popped =>
    rw [hpop] at h
    cases h
    exact ⟨popped.1, rfl⟩

theorem Operation.apply_read_eq_ok {depth : Nat} (h : (Operation.read depth).apply s = .ok s') :
    s' = s := by
  rw [Operation.apply] at h
  cases hread : s.read depth with
  | error e =>
    rw [hread] at h
    cases h
  | ok v =>
    rw [hread] at h
    cases h
    rfl

end Answers

/-! ## Both readings agree -/

/-- The answer and the stack of an operation that leaves the stack alone when it is refused. -/
def settled (s : Stack) : Except StackError Stack → Except StackError Unit × Stack
  | .ok s' => (.ok (), s')
  | .error e => (.error e, s)

section Agreement

variable (s : Stack)

theorem outcome_push (v : Value) : (InPlace.push v).outcome s = s.settled (s.push v) := by
  by_cases hroom : s.visible.length < maxDepth
  · have hpush : s.push v = .ok { s with visible := v :: s.visible } := if_pos hroom
    simp [InPlace.push, hroom, hpush, settled]
  · have hpush : s.push v = .error (.depthExceeded (s.visible.length + 1)) := if_neg hroom
    simp [InPlace.push, hroom, hpush, settled]

theorem outcome_pop :
    InPlace.pop.outcome s
      = match s.pop with
        | .ok (v, s') => (.ok v, s')
        | .error e => (.error e, s) := by
  obtain ⟨visible, hidden, labels, pending⟩ := s
  cases visible <;> rfl

/-- Reading changes nothing, whether it succeeds or not. -/
theorem outcome_read (depth : Nat) : (InPlace.read depth).outcome s = (s.read depth, s) := by
  cases hfound : s.visible[depth]? with
  | none => simp [InPlace.read, Stack.read, hfound]
  | some v => simp [InPlace.read, Stack.read, hfound]

theorem outcome_dup (n : Nat) : (InPlace.dup n).outcome s = s.settled (s.dup n) := by
  cases n with
  | zero => rfl
  | succ depth =>
    rw [InPlace.dup, InPlace.outcome_bind, outcome_read, Stack.dup]
    cases s.read depth with
    | error e => rfl
    | ok v => exact outcome_push s v

theorem outcome_swap (depth : Nat) : (InPlace.swap depth).outcome s = s.settled (s.swap depth) := by
  rw [InPlace.swap, InPlace.outcome_bind, outcome_read, Stack.swap]
  cases s.read 0 with
  | error e => rfl
  | ok top =>
    simp only [InPlace.outcome_bind, outcome_read]
    cases s.read depth with
    | error e => rfl
    | ok other => rfl

/-- An operation in place does what the operation says, and nothing if it is refused. -/
theorem Operation.outcome_inPlace (operation : Operation) :
    operation.inPlace.outcome s = s.settled (operation.apply s) := by
  cases operation with
  | push v => exact outcome_push s v
  | pop =>
    rw [Operation.inPlace, InPlace.outcome_bind, outcome_pop, Operation.apply]
    cases s.pop <;> rfl
  | read depth =>
    rw [Operation.inPlace, InPlace.outcome_bind, outcome_read, Operation.apply]
    cases s.read depth <;> rfl
  | dup n => exact outcome_dup s n
  | swap depth => exact outcome_swap s depth
  | hide | reveal | reset | mark | jump | clearLabels => rfl

end Agreement

/-! ## Refused operations -/

section Refusals

variable {s : Stack} {e : StackError}

theorem push_eq_error_iff {v : Value} :
    s.push v = .error e ↔ maxDepth ≤ s.size ∧ e = .depthExceeded (s.size + 1) := by
  unfold Stack.push
  by_cases hroom : s.size < maxDepth
  · simp [hroom, Nat.not_le.2 hroom]
  · simp [hroom, Nat.le_of_not_lt hroom, eq_comm]

theorem read_eq_error_iff {depth : Nat} :
    s.read depth = .error e ↔ s.size ≤ depth ∧ e = .noSuchDepth depth := by
  unfold Stack.read size
  by_cases hdeep : s.visible.length ≤ depth
  · simp [hdeep, eq_comm]
  · obtain ⟨v, hv⟩ : ∃ v, s.visible[depth]? = some v :=
      ⟨_, List.getElem?_eq_getElem (Nat.lt_of_not_le hdeep)⟩
    simp [hdeep, hv]

/-- A read that is not refused gives a value. -/
theorem exists_read {depth : Nat} (h : depth < s.size) : ∃ v, s.read depth = .ok v := by
  cases hread : s.read depth with
  | ok v => exact ⟨v, rfl⟩
  | error e =>
    have hdeep := (read_eq_error_iff.1 hread).1
    omega

theorem dup_eq_error_iff {n : Nat} :
    s.dup n = .error e ↔ (Operation.dup n).refusal? s.size = some e := by
  cases n with
  | zero => simp [Stack.dup, Operation.refusal?]
  | succ depth =>
    rw [Stack.dup, Operation.refusal?]
    by_cases hdeep : s.size ≤ depth
    · rw [read_eq_error_iff.2 ⟨hdeep, rfl⟩, if_pos hdeep]
      simp [Except.bind]
    · obtain ⟨v, hv⟩ := exists_read (Nat.lt_of_not_le hdeep)
      rw [hv, if_neg hdeep]
      show s.push v = .error e ↔ _
      rw [push_eq_error_iff]
      split <;> simp_all [eq_comm]

theorem swap_eq_error_iff {depth : Nat} :
    s.swap depth = .error e ↔ (Operation.swap depth).refusal? s.size = some e := by
  rw [Stack.swap, Operation.refusal?]
  by_cases hempty : s.size = 0
  · rw [read_eq_error_iff.2 ⟨Nat.le_of_eq hempty, rfl⟩, if_pos hempty]
    simp [bind, Except.bind]
  · obtain ⟨top, htop⟩ := exists_read (s := s) (Nat.pos_of_ne_zero hempty)
    rw [htop, if_neg hempty]
    by_cases hdeep : s.size ≤ depth
    · rw [read_eq_error_iff.2 ⟨hdeep, rfl⟩, if_pos hdeep]
      simp [bind, Except.bind]
    · obtain ⟨other, hother⟩ := exists_read (Nat.lt_of_not_le hdeep)
      rw [hother, if_neg hdeep]
      simp [bind, Except.bind, pure, Except.pure]

/-- An operation is refused exactly when the number of visible values says so. -/
theorem Operation.apply_eq_error_iff {operation : Operation} :
    operation.apply s = .error e ↔ operation.refusal? s.size = some e := by
  cases operation with
  | push v =>
    rw [Operation.apply, push_eq_error_iff, Operation.refusal?]
    split <;> simp_all [eq_comm]
  | pop =>
    obtain ⟨visible, hidden, labels, pending⟩ := s
    cases visible <;> simp [Operation.apply, Operation.refusal?, Stack.pop, size, Except.map]
  | read depth =>
    rw [Operation.apply, Operation.refusal?]
    by_cases hdeep : s.size ≤ depth
    · rw [read_eq_error_iff.2 ⟨hdeep, rfl⟩, if_pos hdeep]
      simp [Except.map]
    · obtain ⟨v, hv⟩ := exists_read (Nat.lt_of_not_le hdeep)
      rw [hv, if_neg hdeep]
      simp [Except.map]
  | dup n => exact dup_eq_error_iff
  | swap depth => exact swap_eq_error_iff
  | hide | reveal | reset | mark | jump | clearLabels =>
    simp [Operation.apply, Operation.refusal?]

end Refusals

/-! ## Depth -/

/-- Nothing that a stack shows, hides or remembers is too deep. -/
structure Contained (s : Stack) : Prop extends Bounded s where
  hidden : ∀ part ∈ s.hidden, Fits part

section Contained

variable {s s' : Stack}

theorem contained_empty : Contained .empty :=
  ⟨bounded_empty, nofun⟩

theorem Contained.hide (h : s.Contained) (keep : Nat) : (s.hide keep).Contained := by
  refine ⟨h.toBounded.hide keep, List.forall_mem_cons.2 ⟨?_, h.hidden⟩⟩
  have hvisible : s.visible.length ≤ maxDepth := h.visible
  show (s.visible.drop keep).length ≤ maxDepth
  rw [List.length_drop]
  omega

theorem Contained.reveal (h : s.Contained) (keep : Nat) : (s.reveal keep).Contained :=
  ⟨h.toBounded.reveal keep, fun part hpart => h.hidden part (List.mem_of_mem_tail hpart)⟩

theorem Contained.reset (h : s.Contained) (values : List Value) : (s.reset values).Contained :=
  ⟨⟨List.length_take_le _ _, h.labels, h.pending⟩, nofun⟩

theorem Contained.jump (h : s.Contained) (label : String) : (s.jump label).Contained :=
  ⟨h.toBounded.jump label, by rw [hidden_jump]; exact h.hidden⟩

/-- An operation that works on the visible values only keeps a stack contained if it keeps them
    from getting too deep. -/
theorem Contained.of_hidden (h : s.Contained) (hbounded : s'.Bounded)
    (hhidden : s'.hidden = s.hidden) :
    s'.Contained :=
  ⟨hbounded, by rw [hhidden]; exact h.hidden⟩

theorem Contained.apply (h : s.Contained) {operation : Operation}
    (happly : operation.apply s = .ok s') : s'.Contained := by
  cases operation with
  | push v =>
    have hbounded := h.toBounded.push happly
    obtain ⟨-, rfl⟩ := push_eq_ok happly
    exact h.of_hidden hbounded rfl
  | pop =>
    obtain ⟨v, hpop⟩ := Operation.apply_pop_eq_ok happly
    have hbounded := (upheld_bounded.pop h.toBounded hpop).2
    obtain ⟨rest, -, rfl⟩ := pop_eq_ok hpop
    exact h.of_hidden hbounded rfl
  | read depth =>
    obtain rfl := Operation.apply_read_eq_ok happly
    exact h
  | dup n =>
    have hbounded := upheld_bounded.dup h.toBounded happly
    obtain ⟨v, -, hpush⟩ := dup_eq_ok happly
    obtain ⟨-, rfl⟩ := push_eq_ok hpush
    exact h.of_hidden hbounded rfl
  | swap depth =>
    have hbounded := upheld_bounded.swap h.toBounded happly
    obtain ⟨top, -, other, -, rfl⟩ := swap_eq_ok happly
    exact h.of_hidden hbounded rfl
  | hide keep => cases happly; exact h.hide keep
  | reveal keep => cases happly; exact h.reveal keep
  | reset values => cases happly; exact h.reset values
  | mark label => cases happly; exact h.of_hidden (h.toBounded.mark label) rfl
  | jump label => cases happly; exact h.jump label
  | clearLabels => cases happly; exact ⟨⟨h.visible, nofun, nofun⟩, h.hidden⟩

/-- An operation in place keeps a stack contained, be it refused or not. -/
theorem Contained.outcome (h : s.Contained) (operation : Operation) :
    (operation.inPlace.outcome s).2.Contained := by
  rw [operation.outcome_inPlace]
  cases happly : operation.apply s with
  | error e => exact h
  | ok s' => exact h.apply happly

theorem Contained.foldl (h : s.Contained) (operations : List Operation) :
    (operations.foldl (fun s operation => (operation.inPlace.outcome s).2) s).Contained := by
  induction operations generalizing s with
  | nil => exact h
  | cons operation operations ih => exact ih (h.outcome operation)

end Contained

/-- After any sequence of operations the visible values, every hidden part and every remembered
    shape number at most `maxDepth`.  Whatever operation comes next, in place it does what it
    does to the stack as a value; it is refused exactly when the number of visible values says
    so, and then leaves the whole stack as it was. -/
theorem contained_after (operations : List Operation) :
    (after operations).Contained
    ∧ ∀ operation : Operation,
      (∀ s', operation.apply (after operations) = .ok s'
        → operation.inPlace.outcome (after operations) = (.ok (), s'))
      ∧ (∀ e, (operation.inPlace.outcome (after operations)).1 = .error e
        ↔ operation.refusal? (after operations).size = some e)
      ∧ ∀ e, (operation.inPlace.outcome (after operations)).1 = .error e
        → (operation.inPlace.outcome (after operations)).2 = after operations := by
  refine ⟨contained_empty.foldl operations, fun operation => ?_⟩
  rw [operation.outcome_inPlace]
  cases happly : operation.apply (after operations) with
  | ok s' =>
    refine ⟨fun s'' hs => by rw [Except.ok.inj hs]; rfl, fun e => ?_, nofun⟩
    rw [← Operation.apply_eq_error_iff, happly]
    simp [settled]
  | error e =>
    refine ⟨nofun, fun e' => ?_, fun _ _ => rfl⟩
    rw [← Operation.apply_eq_error_iff, happly]
    simp [settled]

end HuffTrace.Stack
