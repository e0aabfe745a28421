/-
  HuffTrace.Proofs.Machine.Faithful

  Known values show the word that they are.  A value becomes known as a literal
  of the source, as the result of an operation, as a selector or by padding, and
  in each case its text and its word are computed apart.  The text is always a
  literal of the word (`Value.Faithful`), and so it stays wherever the value is
  copied to (`execute_faithful`).
-/

import HuffTrace.Proofs.Machine.FrameRule
import HuffTrace.Proofs.Machine.Invariant
import HuffTrace.Proofs.Word.Literal

namespace HuffTrace

/-! ## Values -/

/-- The text of the value, if its word is known, is read as that word. -/
def Value.Faithful (v : Value) : Prop :=
  ∀ word, v.word? = some word → Word.parse v.text = .ok word

theorem faithful_symbolic (text : String) : (Value.symbolic text).Faithful := nofun

theorem faithful_known {word : Word} {text : String} (h : Word.parse text = .ok word) :
    (Value.known word text).Faithful := by
  intro word' hword
  obtain rfl : word = word' := Option.some.inj hword
  exact h

theorem faithful_folded (word : Word) : (Value.folded word).Faithful :=
  faithful_known (Word.parse_toHex word)

theorem faithful_literal (text : String) : (Value.literal text).Faithful := by
  unfold Value.literal
  split
  · next hparse => exact faithful_known hparse
  · exact faithful_symbolic text

/-- Four bytes of a hash are written in eight digits, leading zeros included. -/
theorem faithful_selector (signature : String) : (Signature.selector signature).Faithful := by
  apply faithful_known
  have hlength : ((Keccak.digest signature.toUTF8.toList).toList.take 4).length = 4 := by
    rw [List.length_take, Vector.length_toList]
    rfl
  apply Word.parse_hexBytes
  · intro hnil
    rw [hnil] at hlength
    cases hlength
  · rw [hlength]
    decide

/-- A text with the hexadecimal mark is read alike by the two readers of literals. -/
theorem Word.parse_eq_ofHex {text : String} (h : (hexDigits? text.toList).isSome) :
    parse text = ofHex text := by
  rw [parse, if_pos h]

theorem faithful_rightPad? {argument : List Char} {v : Value}
    (h : Machine.rightPad? argument = some v) : v.Faithful := by
  unfold Machine.rightPad? at h
  cases hdigits : Word.hexDigits? argument with
  | none =>
    rw [hdigits] at h
    cases h
  | some digits =>
    simp only [hdigits, Option.bind_eq_bind, Option.bind_some] at h
    split at h
    · cases h
    · split at h
      · next word hword =>
        obtain rfl := Option.some.inj h
        apply faithful_known
        rw [Word.parse_eq_ofHex, hword]
        rw [String.toList_ofList]
        rfl
      · cases h

namespace Machine

variable {σ : Type} [Scope σ]

/-- Whatever the argument of a token, the value that it pushes is faithful. -/
theorem faithful_pushed {m : Machine σ} {token : Token} {v : Value}
    (h : m.pushed? token = some v) : v.Faithful := by
  unfold pushed? at h
  split at h
  · cases h
    exact faithful_literal token.text
  · cases h
    exact faithful_symbolic _
  · cases h
    exact faithful_symbolic _
  · cases h
    exact faithful_symbolic _
  · cases h
    exact faithful_selector _
  · cases h
    cases hpad : rightPad? token.argument with
    | none => exact faithful_symbolic _
    | some w => exact faithful_rightPad? hpad
  · cases h
    exact faithful_symbolic _
  · cases h
    exact faithful_symbolic _
  · cases h
    exact faithful_symbolic _
  · cases h

/-! ## Executions -/

theorem carried_faithful : Carried σ Value.Faithful (Stack.Everywhere Value.Faithful) where
  toUpheld :=
    Stack.upheld_everywhere (fun _ => faithful_symbolic _) (fun _ _ => faithful_symbolic _)
    (fun _ _ => faithful_symbolic _) (fun _ => faithful_symbolic _) faithful_folded
  pushed := faithful_pushed
  jump label h := h.jump label
  mark label h := h.mark label
  hide keep h := h.hide keep
  reveal keep h := h.reveal keep
  fresh s _ h := Stack.everywhere_fresh s h

/-- At every moment of an execution, in the machines that it starts as well, each known value
    that the stack shows, hides or remembers for a label has a text that is read as its word. -/
theorem execute_faithful (program : Program) (scope : σ) (limits : Limits) {n : Machine σ}
    (h : Passes program.size (start program scope limits) n) :
    n.stack.Everywhere Value.Faithful :=
  carried_faithful.passes h (Stack.everywhere_empty _)

/-- Two literals that are added, and the call of a macro. -/
def sumAndCall : List Token :=
  [⟨.literal, "007", 1, 1⟩, ⟨.literal, "0X08", 1, 1⟩, ⟨.opcode .add, "add", 1, 1⟩,
    ⟨.call, "K()", 1, 1⟩]

/-- The machine before the sum, which finds the macro in another document. -/
def beforeSum : Machine Document :=
  start (Program.ofTokens sumAndCall.toArray) (holding [] [holding keeper []]) { steps := 16 }

theorem execute_faithful_sum :
    ∃ n, Passes 4 beforeSum n ∧ n.program.size = 2
      ∧ n.stack.visible = [.known 15 "0xf"] ∧ n.stack.Everywhere Value.Faithful := by
  have hgoes : ∀ j < 4, (beforeSum.later j).Goes 4 := by decide +kernel
  have hturns : Turns 4 3 beforeSum (beforeSum.later 3) :=
    turns_later fun j hj => (hgoes j (by omega)).turn_later
  obtain ⟨external, hfound, hsize, hshown⟩ : ∃ external,
      Scope.findMacro? beforeSum.scope "K" = some external ∧ external.program.size = 2
        ∧ ((beforeSum.later 3).nested ⟨.call, "K()", 1, 1⟩ external).stack.visible
          = [.known 15 "0xf"] := by
    refine ⟨⟨(holding keeper []).program, ⟨0, 1⟩, holding keeper [], "K", by decide +kernel⟩, rfl,
      by decide +kernel, by decide +kernel⟩
  have hcall : Delegates (beforeSum.later 3) ⟨.call, "K()", 1, 1⟩ external := by
    refine ⟨by decide +kernel, rfl, by decide +kernel, by decide +kernel, ?_⟩
    rw [hturns.sameSetting.scope]
    exact hfound
  have hpasses : Passes 4 beforeSum
      ((beforeSum.later 3).nested ⟨.call, "K()", 1, 1⟩ external) :=
    .head (hturns.reaches.trans (.inner (hgoes 3 (by omega)).turn_later hcall (.here _ _)))
  exact ⟨_, hpasses, hsize, hshown, execute_faithful (Program.ofTokens sumAndCall.toArray)
    (holding [] [holding keeper []]) { steps := 16 } hpasses⟩

end Machine

end HuffTrace
