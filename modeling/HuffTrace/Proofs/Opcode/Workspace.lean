/-
  HuffTrace.Proofs.Opcode.Workspace

  Opcodes on a stack of known shape.  `withVisible` puts values in place of the
  visible ones, and each shape of opcode is then one equation: which values it
  takes and which it leaves, as long as there are enough of them and there is
  room for the result.
-/

import HuffTrace.Opcode.Semantics

namespace HuffTrace.Workspace

/-- The workspace with other visible values. -/
def withVisible (w : Workspace) (values : List Value) : Workspace :=
  { w with stack := { w.stack with visible := values } }

@[simp] theorem visible_withVisible (w : Workspace) (values : List Value) :
    (w.withVisible values).stack.visible = values := rfl

@[simp] theorem memory_withVisible (w : Workspace) (values : List Value) :
    (w.withVisible values).memory = w.memory := rfl

@[simp] theorem faults_withVisible (w : Workspace) (values : List Value) :
    (w.withVisible values).faults = w.faults := rfl

theorem withVisible_self {w : Workspace} {values : List Value} (h : w.stack.visible = values) :
    w = w.withVisible values := by
  rw [← h]
  rfl

/-! ## Taking and leaving values -/

theorem pop_withVisible (w : Workspace) (v : Value) (rest : List Value) :
    (w.withVisible (v :: rest)).pop = (v, w.withVisible rest) := rfl

theorem discard_withVisible (w : Workspace) (args rest : List Value) :
    (w.withVisible (args ++ rest)).discard args.length = w.withVisible rest := by
  induction args with
  | nil => rfl
  | cons v args ih =>
    rw [List.length_cons, discard, List.cons_append, pop_withVisible]
    exact ih

theorem push_withVisible (w : Workspace) (v : Value) {rest : List Value}
    (room : rest.length < Stack.maxDepth) :
    (w.withVisible rest).push v = w.withVisible (v :: rest) := by
  rw [push, Stack.push, if_pos (show (w.withVisible rest).stack.size < Stack.maxDepth from room)]
  rfl

/-- Taking a value off, or the placeholder for it, leaves the rest of the stack. -/
theorem stack_pop (w : Workspace) :
    w.pop.2.stack = { w.stack with visible := w.stack.visible.drop 1 } := by
  unfold pop Stack.pop
  cases hvisible : w.stack.visible with
  | nil =>
    show w.stack = { w.stack with visible := [] }
    rw [← hvisible]
  | cons v rest => rfl

theorem stack_discard (w : Workspace) (n : Nat) :
    (w.discard n).stack = { w.stack with visible := w.stack.visible.drop n } := by
  induction n generalizing w with
  | zero => rfl
  | succ n ih =>
    rw [discard, ih, stack_pop]
    simp only [List.drop_drop, Nat.add_comm]

/-- A jump takes its operands off and goes by the text of the first. -/
theorem stack_jumpTo (conditions : Nat) (w : Workspace) :
    (jumpTo conditions w).stack
      = { w.stack with visible := w.stack.visible.drop (conditions + 1) }.jump w.pop.1.text := by
  show ((w.discard (conditions + 1)).stack).jump w.pop.1.text = _
  rw [stack_discard]

/-! ## Operations that fold -/

/-- The result of an operation with one operand. -/
def folded₁ (fold : Word → Word) (render : String → String) (a : Value) : Value :=
  match a.word? with
  | some x => .folded (fold x)
  | none => .symbolic (render a.text)

/-- The result of an operation with two operands. -/
def folded₂ (fold : Word → Word → Word) (render : String → String → String) (a b : Value) :
    Value :=
  match a.word?, b.word? with
  | some x, some y => .folded (fold x y)
  | _, _ => .symbolic (render a.text b.text)

/-- The result of an operation with three operands. -/
def folded₃ (fold : Word → Word → Word → Word) (render : String → String → String → String)
    (a b c : Value) : Value :=
  match a.word?, b.word?, c.word? with
  | some x, some y, some z => .folded (fold x y z)
  | _, _, _ => .symbolic (render a.text b.text c.text)

theorem unary_withVisible (fold : Word → Word) (render : String → String) (w : Workspace)
    (a : Value) {rest : List Value} (room : rest.length < Stack.maxDepth) :
    unary fold render (w.withVisible (a :: rest))
      = w.withVisible (folded₁ fold render a :: rest) := by
  simp only [unary, folded₁, pop_withVisible]
  cases a.word? <;> exact push_withVisible w _ room

theorem binary_withVisible (fold : Word → Word → Word) (render : String → String → String)
    (w : Workspace) (a b : Value) {rest : List Value} (room : rest.length < Stack.maxDepth) :
    binary fold render (w.withVisible (a :: b :: rest))
      = w.withVisible (folded₂ fold render a b :: rest) := by
  simp only [binary, folded₂, pop_withVisible]
  cases a.word? <;> cases b.word? <;> exact push_withVisible w _ room

theorem ternary_withVisible (fold : Word → Word → Word → Word)
    (render : String → String → String → String) (w : Workspace) (a b c : Value)
    {rest : List Value} (room : rest.length < Stack.maxDepth) :
    ternary fold render (w.withVisible (a :: b :: c :: rest))
      = w.withVisible (folded₃ fold render a b c :: rest) := by
  simp only [ternary, folded₃, pop_withVisible]
  cases a.word? <;> cases b.word? <;> cases c.word? <;> exact push_withVisible w _ room

/-! ## Copies and exchanges -/

theorem dup_withVisible (w : Workspace) {values : List Value} {depth : Nat} {v : Value}
    (hv : values[depth]? = some v) (room : values.length < Stack.maxDepth) :
    (w.withVisible values).attempt ((w.withVisible values).stack.dup (depth + 1))
      = w.withVisible (v :: values) := by
  rw [Stack.dup, Stack.read, visible_withVisible, hv]
  exact push_withVisible w v room

theorem swap_withVisible (w : Workspace) (a b : Value) (between rest : List Value) :
    (w.withVisible (a :: (between ++ b :: rest))).attempt
        ((w.withVisible (a :: (between ++ b :: rest))).stack.swap (between.length + 1))
      = w.withVisible (b :: (between ++ a :: rest)) := by
  have hother : (a :: (between ++ b :: rest))[between.length + 1]? = some b := by simp
  have hset : ((a :: (between ++ b :: rest)).set 0 b).set (between.length + 1) a
      = b :: (between ++ a :: rest) := by simp
  simp only [Stack.swap, Stack.read, visible_withVisible, List.getElem?_cons_zero, hother]
  show w.withVisible _ = _
  rw [hset]

/-! ## Results that only the chain knows -/

theorem run_of_resultName? {op : Opcode} {name : String} (h : op.resultName? = some name)
    (limit : Nat) (w : Workspace) : op.run limit w = (w.discard op.arity).pushText name := by
  cases op <;> first | (cases h; rfl) | cases h

/-! ## Regions of memory -/

theorem eq_toNat_of_toIndex? {w : Word} {i : Nat} (h : w.toIndex? = some i) : i = w.toNat := by
  rw [Word.toIndex?] at h
  split at h
  · exact (Option.some.inj h).symm
  · cases h

/-- A region that is accepted has known ends within the limit, and nothing is noted. -/
theorem region?_of_isSome {limit : Nat} {offset size : Value} {w₀ : Workspace}
    (h : (region? limit offset size w₀).1.isSome = true) :
    ∃ o s, offset.word? = some o ∧ size.word? = some s ∧
      ∀ w : Workspace, w.region? limit offset size = (some (o.toNat, s.toNat), w) := by
  unfold region? at h
  cases ho : offset.word? with
  | none => simp [ho] at h
  | some o =>
    cases hs : size.word? with
    | none => simp [ho, hs] at h
    | some s =>
      refine ⟨o, s, rfl, rfl, ?_⟩
      intro w
      simp only [ho, hs] at h
      unfold region?
      simp only [ho, hs]
      cases hio : o.toIndex? with
      | none => simp [hio] at h
      | some i =>
        cases his : s.toIndex? with
        | none => simp [hio, his] at h
        | some j =>
          simp only [hio, his] at h ⊢
          rw [← eq_toNat_of_toIndex? hio, ← eq_toNat_of_toIndex? his]
          split
          · rfl
          · next hout =>
            rw [if_neg hout] at h
            cases h

theorem wordOffset?_of_isSome {limit : Nat} {offset : Value} {w₀ : Workspace}
    (h : (region? limit offset (.folded (BitVec.ofNat 256 Word.byteCount)) w₀).1.isSome = true) :
    ∃ o, offset.word? = some o ∧
      ∀ w : Workspace, w.wordOffset? limit offset = (some o.toNat, w) := by
  obtain ⟨o, s, ho, _, hregion⟩ := region?_of_isSome h
  refine ⟨o, ho, ?_⟩
  intro w
  rw [wordOffset?, hregion w]
  rfl

end HuffTrace.Workspace
