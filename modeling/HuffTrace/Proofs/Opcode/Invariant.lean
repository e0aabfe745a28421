/-
  HuffTrace.Proofs.Opcode.Invariant

  Invariants of the stack under opcodes.  An opcode reaches the stack only
  through pushes, pops, copies and exchanges, and two of them through jumps.
  What it pushes is a computed word, or a text joined from the texts it pops,
  from numbers and from a fixed vocabulary without line breaks.  `Upheld`
  collects what an invariant has to satisfy for that, and `Opcode.run_upholds`
  is the one pass over all opcodes.
-/

import HuffTrace.Opcode.Semantics
import HuffTrace.Proofs.Text.OneLine

namespace HuffTrace

/-- A property of values and a property of stacks that stack operations uphold together. -/
structure Upheld (good : Value → Prop) (holds : Stack → Prop) : Prop where
  oneLine : ∀ {text : String}, Text.OneLine text → good (.symbolic text)
  append : ∀ {a b : String}, good (.symbolic a) → good (.symbolic b) → good (.symbolic (a ++ b))
  clip : ∀ {text : String} (limit : Nat), good (.symbolic text) →
    good (.symbolic (Text.clip limit text))
  /-- An expression may show any value that it is about. -/
  text : ∀ {v : Value}, good v → good (.symbolic v.text)
  folded : ∀ word : Word, good (.folded word)
  push : ∀ {s s' : Stack} {v : Value}, holds s → good v → s.push v = .ok s' → holds s'
  pop : ∀ {s s' : Stack} {v : Value}, holds s → s.pop = .ok (v, s') → good v ∧ holds s'
  dup : ∀ {s s' : Stack} {n : Nat}, holds s → s.dup n = .ok s' → holds s'
  swap : ∀ {s s' : Stack} {depth : Nat}, holds s → s.swap depth = .ok s' → holds s'

namespace Workspace

variable {good : Value → Prop} {holds : Stack → Prop}

/-! ## Access to the stack -/

theorem attempt_upholds {w : Workspace} {result : Except StackError Stack}
    (hw : holds w.stack) (h : ∀ s, result = .ok s → holds s) : holds (w.attempt result).stack := by
  unfold attempt
  split
  · exact h _ rfl
  · exact hw

theorem pop_upholds (h : Upheld good holds) {w : Workspace} (hw : holds w.stack) :
    good w.pop.1 ∧ holds w.pop.2.stack := by
  unfold pop
  split
  · next v s hpop => exact h.pop hw hpop
  · exact ⟨h.oneLine (by decide), hw⟩

theorem discard_upholds (h : Upheld good holds) {w : Workspace} (hw : holds w.stack) (n : Nat) :
    holds (w.discard n).stack := by
  induction n generalizing w with
  | zero => exact hw
  | succ n ih => exact ih (pop_upholds h hw).2

theorem push_upholds (h : Upheld good holds) {w : Workspace} (hw : holds w.stack) {v : Value}
    (hv : good v) : holds (w.push v).stack :=
  attempt_upholds hw fun _ hpush => h.push hw hv hpush

theorem pushFolded_upholds (h : Upheld good holds) {w : Workspace} (hw : holds w.stack)
    (x : Word) : holds (w.push (.folded x)).stack :=
  push_upholds h hw (h.folded x)

/-! ## Operations that fold -/

theorem unary_upholds (h : Upheld good holds) {fold : Word → Word} {render : String → String}
    (hrender : ∀ {a}, good (.symbolic a) → good (.symbolic (render a))) {w : Workspace}
    (hw : holds w.stack) : holds (unary fold render w).stack := by
  obtain ⟨ha, hw⟩ := pop_upholds h hw
  unfold unary
  simp only
  split
  · exact pushFolded_upholds h hw _
  · exact push_upholds h hw (hrender (h.text ha))

theorem binary_upholds (h : Upheld good holds) {fold : Word → Word → Word}
    {render : String → String → String}
    (hrender : ∀ {a b}, good (.symbolic a) → good (.symbolic b) → good (.symbolic (render a b)))
    {w : Workspace} (hw : holds w.stack) : holds (binary fold render w).stack := by
  obtain ⟨ha, hw⟩ := pop_upholds h hw
  obtain ⟨hb, hw⟩ := pop_upholds h hw
  unfold binary
  simp only
  split
  · exact pushFolded_upholds h hw _
  · exact push_upholds h hw (hrender (h.text ha) (h.text hb))

theorem ternary_upholds (h : Upheld good holds) {fold : Word → Word → Word → Word}
    {render : String → String → String → String}
    (hrender : ∀ {a b c}, good (.symbolic a) → good (.symbolic b) → good (.symbolic c) →
      good (.symbolic (render a b c)))
    {w : Workspace} (hw : holds w.stack) : holds (ternary fold render w).stack := by
  obtain ⟨ha, hw⟩ := pop_upholds h hw
  obtain ⟨hb, hw⟩ := pop_upholds h hw
  obtain ⟨hc, hw⟩ := pop_upholds h hw
  unfold ternary
  simp only
  split
  · exact pushFolded_upholds h hw _
  · exact push_upholds h hw (hrender (h.text ha) (h.text hb) (h.text hc))

/-- Two operands joined by a sign. -/
theorem good_joined (h : Upheld good holds) {a b sign : String} (hsign : Text.OneLine sign)
    (ha : good (.symbolic a)) (hb : good (.symbolic b)) : good (.symbolic (a ++ sign ++ b)) :=
  h.append (h.append ha (h.oneLine hsign)) hb

/-- A rendering between brackets of some kind. -/
theorem good_between (h : Upheld good holds) {before a after : String}
    (hbefore : Text.OneLine before) (ha : good (.symbolic a)) (hafter : Text.OneLine after) :
    good (.symbolic (before ++ a ++ after)) :=
  h.append (h.append (h.oneLine hbefore) ha) (h.oneLine hafter)

theorem lookUp_upholds (h : Upheld good holds) {before after : String}
    (hbefore : Text.OneLine before) (hafter : Text.OneLine after) (limit : Nat) {w : Workspace}
    (hw : holds w.stack) : holds (lookUp before limit after w).stack := by
  obtain ⟨ha, hw⟩ := pop_upholds h hw
  exact push_upholds h hw (good_between h hbefore (h.clip limit (h.text ha)) hafter)

/-! ## Memory -/

theorem stack_region? (limit : Nat) (offset size : Value) (w : Workspace) :
    (region? limit offset size w).2.stack = w.stack := by
  unfold region?
  split
  · split
    · split <;> rfl
    · rfl
  · rfl

theorem stack_wordOffset? (limit : Nat) (offset : Value) (w : Workspace) :
    (wordOffset? limit offset w).2.stack = w.stack :=
  stack_region? limit offset _ w

theorem loadWord_upholds (h : Upheld good holds) (limit : Nat) {w : Workspace}
    (hw : holds w.stack) : holds (loadWord limit w).stack := by
  obtain ⟨ha, hw⟩ := pop_upholds h hw
  rw [← stack_wordOffset? limit w.pop.1 w.pop.2] at hw
  unfold loadWord
  simp only
  split
  · exact pushFolded_upholds h hw _
  · exact push_upholds h hw (good_between h (by decide) (h.clip 10 (h.text ha)) (by decide))

theorem storeWord_upholds (h : Upheld good holds) (limit : Nat) {w : Workspace}
    (hw : holds w.stack) : holds (storeWord limit w).stack := by
  obtain ⟨_, hw⟩ := pop_upholds h hw
  obtain ⟨_, hw⟩ := pop_upholds h hw
  rw [← stack_wordOffset? limit w.pop.1 w.pop.2.pop.2] at hw
  unfold storeWord
  simp only
  split <;> exact hw

theorem storeLowByte_upholds (h : Upheld good holds) (limit : Nat) {w : Workspace}
    (hw : holds w.stack) : holds (storeLowByte limit w).stack := by
  obtain ⟨_, hw⟩ := pop_upholds h hw
  obtain ⟨_, hw⟩ := pop_upholds h hw
  rw [← stack_wordOffset? limit w.pop.1 w.pop.2.pop.2] at hw
  unfold storeLowByte
  simp only
  split <;> exact hw

theorem holds_of_region? {limit : Nat} {offset size : Value} {w w' : Workspace}
    {region : Option (Nat × Nat)} (hw : holds w.stack)
    (hregion : region? limit offset size w = (region, w')) : holds w'.stack := by
  have hstack := stack_region? limit offset size w
  rw [hregion] at hstack
  rw [hstack]
  exact hw

theorem copyWithin_upholds (h : Upheld good holds) (limit : Nat) {w : Workspace}
    (hw : holds w.stack) : holds (copyWithin limit w).stack := by
  obtain ⟨_, hw⟩ := pop_upholds h hw
  obtain ⟨_, hw⟩ := pop_upholds h hw
  obtain ⟨_, hw⟩ := pop_upholds h hw
  unfold copyWithin
  simp only
  split
  · next hregion => exact holds_of_region? hw hregion
  · next hregion =>
    have hw' := holds_of_region? hw hregion
    split <;> next hregion' =>
      have hw'' := holds_of_region? hw' hregion'
      exact hw''

theorem copyIn_upholds (h : Upheld good holds) (leading limit : Nat) {w : Workspace}
    (hw : holds w.stack) : holds (copyIn leading limit w).stack := by
  have hw := discard_upholds h hw leading
  obtain ⟨_, hw⟩ := pop_upholds h hw
  obtain ⟨_, hw⟩ := pop_upholds h hw
  obtain ⟨_, hw⟩ := pop_upholds h hw
  unfold copyIn
  simp only
  split <;> next hregion =>
    have hw' := holds_of_region? hw hregion
    exact hw'

theorem hashRegion_upholds (h : Upheld good holds) (limit : Nat) {w : Workspace}
    (hw : holds w.stack) : holds (hashRegion limit w).stack := by
  obtain ⟨_, hw⟩ := pop_upholds h hw
  obtain ⟨_, hw⟩ := pop_upholds h hw
  rw [← stack_region? limit w.pop.1 w.pop.2.pop.1 w.pop.2.pop.2] at hw
  unfold hashRegion
  simp only
  split
  · exact pushFolded_upholds h hw _
  · exact push_upholds h hw (h.oneLine (by decide))

theorem jumpTo_upholds (h : Upheld good holds)
    (hjump : ∀ {s : Stack} (label : String), holds s → holds (s.jump label)) (conditions : Nat)
    {w : Workspace} (hw : holds w.stack) : holds (jumpTo conditions w).stack := by
  obtain ⟨_, hw⟩ := pop_upholds h hw
  exact hjump _ (discard_upholds h hw conditions)

end Workspace

/-! ## All opcodes -/

theorem Opcode.oneLine_resultName? {op : Opcode} {name : String} (h : op.resultName? = some name) :
    Text.OneLine name := by
  cases op <;> cases h <;> decide

open Workspace in
/-- Every opcode upholds what the operations of the stack uphold, if it jumps then what jumps
    uphold as well. -/
theorem Opcode.run_upholds {good : Value → Prop} {holds : Stack → Prop} (h : Upheld good holds)
    (limit : Nat) (op : Opcode)
    (hjump : op = .jump ∨ op = .jumpi →
      ∀ {s : Stack} (label : String), holds s → holds (s.jump label))
    {w : Workspace} (hw : holds w.stack) : holds (op.run limit w).stack := by
  -- Opcodes that only the chain can answer take their operands and leave a name.
  have hnamed : ∀ {name : String}, op.resultName? = some name →
      holds ((w.discard op.arity).pushText name).stack := by
    intro name hname
    exact push_upholds h (discard_upholds h hw _) (h.oneLine (oneLine_resultName? hname))
  cases op with
  | add | mul | sub | div | sdiv | mod | smod | exp | lt | gt | slt | sgt | eq | and | or | xor =>
    rw [Opcode.run]
    exact binary_upholds h (good_joined h (by decide)) hw
  | shl | shr | sar =>
    rw [Opcode.run]
    exact binary_upholds h (fun ha hb => good_joined h (by decide) hb ha) hw
  | signextend | byte =>
    rw [Opcode.run]
    refine binary_upholds h (fun ha hb => ?_) hw
    exact h.append (good_joined h (by decide) (h.append (h.oneLine (by decide)) ha) hb)
      (h.oneLine (by decide))
  | addmod | mulmod =>
    rw [Opcode.run]
    refine ternary_upholds h (fun ha hb hc => ?_) hw
    exact good_joined h (by decide)
      (good_joined h (by decide) (h.append (h.oneLine (by decide)) ha) hb) hc
  | iszero =>
    rw [Opcode.run]
    exact unary_upholds h (fun ha => h.append ha (h.oneLine (by decide))) hw
  | not =>
    rw [Opcode.run]
    exact unary_upholds h (fun ha => h.append (h.oneLine (by decide)) ha) hw
  | balance | sload | tload => exact lookUp_upholds h (by decide) (by decide) _ hw
  | calldataload =>
    obtain ⟨ha, hw⟩ := pop_upholds h hw
    exact push_upholds h hw (good_between h (by decide) (h.text ha) (by decide))
  | sha3 => exact hashRegion_upholds h limit hw
  | mload => exact loadWord_upholds h limit hw
  | mstore => exact storeWord_upholds h limit hw
  | mstore8 => exact storeLowByte_upholds h limit hw
  | mcopy => exact copyWithin_upholds h limit hw
  | calldatacopy | codecopy | returndatacopy => exact copyIn_upholds h 0 limit hw
  | extcodecopy => exact copyIn_upholds h 1 limit hw
  | push0 => exact pushFolded_upholds h hw 0
  | dup depth => exact attempt_upholds hw fun _ hdup => h.dup hw hdup
  | swap depth => exact attempt_upholds hw fun _ hswap => h.swap hw hswap
  | jump => exact jumpTo_upholds h (hjump (.inl rfl)) 0 hw
  | jumpi => exact jumpTo_upholds h (hjump (.inr rfl)) 1 hw
  | push width => exact hw
  | stop | jumpdest | invalid => exact hw
  | pop | sstore | tstore | ret | revert | selfdestruct => exact discard_upholds h hw _
  | log topics => exact discard_upholds h hw _
  | _ => exact hnamed rfl

end HuffTrace
