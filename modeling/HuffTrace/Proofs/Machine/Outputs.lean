/-
  HuffTrace.Proofs.Machine.Outputs

  How the analysis of a macro on its own ends.  The machine knows the macro from
  its definition on, and at the brace that closes its body it drops all values
  but the outputs.  But any brace outside of a call makes it forget the macro,
  and so does one that closes a block within the body.  Until the end of the
  body is reached, the macro is known exactly if no block has ended
  (`Turns.inBody`).

  So the macro ends with its outputs alone if no block ends within its body and
  nothing is hidden; with a block in it, only if there was nothing to drop
  (`outputs_iff`).
-/

import HuffTrace.Proofs.Machine.Coverage
import Mathlib.Data.List.TakeDrop

namespace HuffTrace

/-- A block ends between two positions. -/
def Program.ClosesBetween (p : Program) (low high : Nat) : Prop :=
  ∃ i < high, low < i ∧ (p.token? i).map (·.kind) = some .blockEnd

instance (p : Program) (low high : Nat) : Decidable (p.ClosesBetween low high) :=
  inferInstanceAs (Decidable (∃ i < high, low < i ∧ _ = _))

theorem Program.closesBetween_succ {p : Program} {low high : Nat} (h : low < high) :
    p.ClosesBetween low (high + 1)
      ↔ p.ClosesBetween low high ∨ (p.token? high).map (·.kind) = some .blockEnd := by
  constructor
  · rintro ⟨i, hi, hlow, hkind⟩
    rcases Nat.lt_or_eq_of_le (Nat.le_of_lt_succ hi) with hlt | rfl
    · exact .inl ⟨i, hlt, hlow, hkind⟩
    · exact .inr hkind
  · rintro (⟨i, hi, hlow, hkind⟩ | hkind)
    · exact ⟨i, Nat.lt_succ_of_lt hi, hlow, hkind⟩
    · exact ⟨high, Nat.lt_succ_self high, h, hkind⟩

/-! ## Outputs on the stack -/

namespace Stack

/-- Revealing leaves the outputs alone if nothing is hidden or the outputs fill the stack. -/
theorem visible_reveal_eq_take_iff {s : Stack} {keep : Nat} (h : keep ≤ maxDepth) :
    (s.reveal keep).visible = s.visible.take keep
      ↔ s.hidden.headD [] = [] ∨ (s.visible.take keep).length = maxDepth := by
  have hlength : (s.visible.take keep).length ≤ maxDepth :=
    Nat.le_trans (List.length_take_le _ _) h
  show (s.visible.take keep ++ s.hidden.headD []).take maxDepth = _ ↔ _
  rw [List.take_append, List.take_of_length_le hlength, List.append_right_eq_self,
    List.take_eq_nil_iff, or_comm]
  exact or_congr_right (by omega)

end Stack

namespace Machine

variable {σ : Type} [Scope σ]

omit [Scope σ] in
theorem returns_definitionAt_le (m : Machine σ) (position : Nat) :
    (m.definitionAt position).returns ≤ Stack.maxDepth := by
  unfold definitionAt Definition.ofHeader
  split
  · exact Nat.min_le_right _ _
  · exact Nat.zero_le _

/-! ## The macro that is analysed -/

/-- Only definitions and braces outside of any call change which macro is analysed. -/
theorem Turn.entry_eq {stop : Nat} {m m' : Machine σ} {token : Token} (h : Turn stop m m')
    (htoken : m.program.token? m.pointer = some token)
    (hkind : m.frames = [] → token.kind ≠ .macroDefinition ∧ token.kind ≠ .blockEnd) :
    m'.entry = m.entry := by
  obtain ⟨anchor, after, comments, hacts, hafter⟩ :=
    turn_acts (fun stop n => n.runTo stop) m token
  rw [h.eq_turn htoken, hafter]
  cases hacts with
  | push v _ => rw [push_eq, work_eq]; rfl
  | opcode op _ => rw [runOpcode, work_eq]; rfl
  | analyse _ kind hframes => exact absurd kind (hkind hframes).1
  | finish _ kind hframes _ _ => exact absurd kind (hkind hframes).2
  | abandon _ kind hframes _ _ => exact absurd kind (hkind hframes).2
  | _ => rfl

/-- A macro that begins is the one that is analysed. -/
theorem Turn.entry_of_begins {stop : Nat} {m m' : Machine σ} (h : Turn stop m m')
    (hbegins : m.Begins) : m'.entry = some (m.definitionAt m.pointer) := by
  obtain ⟨hempty, hkind⟩ := hbegins
  obtain ⟨token, htoken, hkind⟩ := Option.map_eq_some_iff.1 hkind
  have hempty' : (m.advance token).frames = [] := hempty
  rw [h.eq_turn htoken, turn_eq, step, hkind]
  show ((m.advance token).define m.pointer token).2.entry = _
  simp only [define, foldl_record, hempty']
  rfl

/-- After a brace outside of any call no macro is analysed.  The values that are no outputs are
    dropped only if one was, and ends there. -/
theorem Turn.closes {stop : Nat} {m m' : Machine σ} {token : Token} (h : Turn stop m m')
    (htoken : m.program.token? m.pointer = some token) (hkind : token.kind = .blockEnd)
    (hempty : m.frames = []) :
    m'.entry = none ∧ m'.halted = m.halted
      ∧ m'.stack = match m.entry with
        | some entry =>
          if entry.extent.stop = m.pointer then m.stack.reveal entry.returns else m.stack
        | none => m.stack := by
  have hempty' : (m.advance token).frames = [] := hempty
  rw [h.eq_turn htoken, turn_eq, step, hkind]
  show ((m.advance token).closeBlock m.pointer).2.entry = none
    ∧ ((m.advance token).closeBlock m.pointer).2.halted = m.halted
    ∧ ((m.advance token).closeBlock m.pointer).2.stack = _
  rw [closeBlock, hempty']
  cases hentry : m.entry with
  | none =>
    have hentry' : (m.advance token).entry = none := hentry
    simp only [hentry']
    exact ⟨trivial, rfl, rfl⟩
  | some entry =>
    have hentry' : (m.advance token).entry = some entry := hentry
    simp only [hentry']
    split
    · exact ⟨rfl, rfl, rfl⟩
    · exact ⟨rfl, rfl, rfl⟩

/-! ## Bodies -/

/-- Outside of any call the machine goes forward only. -/
theorem Turn.resumption_le {stop : Nat} {m m' : Machine σ} (h : Turn stop m m') :
    m.resumption ≤ m'.resumption := by
  cases hlast : m.frames.getLast? with
  | none =>
    have hempty : m.frames = [] := List.getLast?_eq_none_iff.1 hlast
    rw [h.resumption_of_nil hempty, Machine.resumption_of_nil hempty]
    exact Nat.le_succ _
  | some frame => exact Nat.le_of_eq (h.resumption_of_getLast? hlast).symm

/-- The machine `a` is in the body of the macro that `m` begins, or in a call from there.  It
    knows the macro unless a block has ended. -/
structure InBody (m a : Machine σ) : Prop where
  program : a.program = m.program
  low : m.pointer < a.resumption
  entry : a.entry
    = if m.program.ClosesBetween m.pointer a.resumption then none
      else some (m.definitionAt m.pointer)

theorem inBody_of_begins {stop : Nat} {m m' : Machine σ} (hbegins : m.Begins)
    (h : Turn stop m m') : InBody m m' := by
  have hresumption : m'.resumption = m.pointer + 1 := h.resumption_of_nil hbegins.1
  refine ⟨h.sameSetting.program, by omega, ?_⟩
  rw [hresumption, if_neg, h.entry_of_begins hbegins]
  rintro ⟨i, hhigh, hlow, _⟩
  omega

/-- A turn that does not come past the end of the body stays in it. -/
theorem InBody.turn {stop : Nat} {m a b : Machine σ} (h : InBody m a) (hturn : Turn stop a b)
    (hhigh : b.resumption ≤ Program.blockEnd m.program.tokens m.pointer) : InBody m b := by
  have hprogram : b.program = m.program := hturn.sameSetting.program.trans h.program
  obtain ⟨token, htoken, _⟩ := hturn.turned
  cases hlast : a.frames.getLast? with
  | some frame =>
    -- Within a call nothing changes.
    have hne : a.frames ≠ [] := by
      intro hempty
      rw [hempty] at hlast
      cases hlast
    have hresumption := hturn.resumption_of_getLast? hlast
    have hentry := hturn.entry_eq htoken fun hempty => absurd hempty hne
    exact ⟨hprogram, by rw [hresumption]; exact h.low, by rw [hresumption, hentry, h.entry]⟩
  | none =>
    have hempty : a.frames = [] := List.getLast?_eq_none_iff.1 hlast
    have hresumption := hturn.resumption_of_nil hempty
    have hlow : m.pointer < a.pointer := resumption_of_nil hempty ▸ h.low
    have hentry := h.entry
    rw [hresumption] at hhigh
    rw [resumption_of_nil hempty] at hentry
    have htoken' : m.program.token? a.pointer = some token := h.program ▸ htoken
    refine ⟨hprogram, by omega, ?_⟩
    rw [hresumption]
    simp only [Program.closesBetween_succ hlow, htoken', Option.map_some, Option.some.injEq]
    -- The end of the body is not reached, so a brace here closes a block within it.
    by_cases hkind : token.kind = .blockEnd
    · rw [if_pos (.inr hkind), (hturn.closes htoken hkind hempty).1]
    · have hdefinition : token.kind ≠ .macroDefinition :=
        Program.kind_ne_macroDefinition_of_lt_blockEnd hlow hhigh htoken'
      rw [hturn.entry_eq htoken fun _ => ⟨hdefinition, hkind⟩, hentry]
      simp only [hkind, or_false]

/-- Up to the end of its body, the macro that is analysed is known until a block ends. -/
theorem Turns.inBody {stop n : Nat} {m m' a : Machine σ} (h : Turns stop n m' a)
    (hbegins : m.Begins) (hfirst : Turn stop m m')
    (hhigh : a.resumption ≤ Program.blockEnd m.program.tokens m.pointer) : InBody m a := by
  induction h with
  | zero m' => exact inBody_of_begins hbegins hfirst
  | succ before last ih =>
    exact (ih hfirst (Nat.le_trans last.resumption_le hhigh)).turn last hhigh

/-! ## Ends -/

omit [Scope σ] in
/-- A body does not end where its macro begins. -/
theorem Begins.pointer_lt {m : Machine σ} (h : m.Begins) :
    m.pointer < Program.blockEnd m.program.tokens m.pointer := by
  obtain ⟨token, htoken, _⟩ := Option.map_eq_some_iff.1 h.2
  exact Program.lt_blockEnd (Array.getElem?_eq_some_iff.1 htoken).1

/-- Since a macro began, all that is hidden outside of any call was left behind by machines for
    other programs. -/
theorem Turns.hidden_eq_nil {stop n : Nat} {m a : Machine σ} (h : Turns stop n m a)
    (hbegins : m.Begins) (hn : 0 < n) (hempty : a.frames = []) (hgoing : a.halted = false)
    (htidy : ∀ j < n, Tidy (m.later j)) : a.stack.hidden = [] := by
  -- What was hidden before is dropped by the first turn, so the count starts after it.
  obtain ⟨hframes, hhidden⟩ := (h.turn_later hn).hidden_of_begins hbegins
  have hrest : Turns stop (n - 1) (m.later 1) a := h.since hn
  have hdebt : (m.later 1).debt (n - 1) = 0 := by
    apply hrest.debt_of_tidy hgoing
    intro j hj
    have hlater := ((hrest.upTo (Nat.le_of_lt hj)).cons (h.turn_later hn)).eq_later
    rw [hlater]
    exact htidy (j + 1) (by omega)
  have hcount := hrest.frameCount_eq hgoing hframes hhidden
  rw [hempty, hdebt] at hcount
  exact List.length_eq_zero_iff.1 hcount

/-- At the end of the body of a macro that is analysed on its own, the outputs of the macro are
    all that stays exactly under a condition: if a block ends within the body, that there are no
    other values, and else that no hidden part is revealed below them.  Nothing is hidden if all
    turns since the macro began are tidy.  The run goes on after the brace from that stack. -/
theorem outputs_iff {stop n : Nat} {m a b : Machine σ} (hbegins : m.Begins)
    (hturns : Turns stop n m a) (hempty : a.frames = [])
    (hend : a.pointer = Program.blockEnd m.program.tokens m.pointer)
    (hbrace : (m.program.token? a.pointer).map (·.kind) = some .blockEnd)
    (hturn : Turn stop a b) :
    (b.stack.visible = a.stack.visible.take (m.definitionAt m.pointer).returns
        ↔ if m.program.ClosesBetween m.pointer a.pointer then
            a.stack.size ≤ (m.definitionAt m.pointer).returns
          else
            a.stack.hidden.headD [] = []
              ∨ (a.stack.visible.take (m.definitionAt m.pointer).returns).length = Stack.maxDepth)
      ∧ ((∀ j < n, Tidy (m.later j)) → a.stack.hidden = [])
      ∧ b.frames = [] ∧ b.pointer = a.pointer + 1 ∧ a.runTo stop = b.runTo stop := by
  have hlow := hbegins.pointer_lt
  have hn : 0 < n := by
    rcases Nat.eq_zero_or_pos n with rfl | hpos
    · cases hturns
      omega
    · exact hpos
  have hbody : InBody m a := (hturns.since hn).inBody hbegins (hturns.turn_later hn)
    (by rw [resumption_of_nil hempty, hend])
  obtain ⟨token, htoken, hkind⟩ := Option.map_eq_some_iff.1 hbrace
  rw [← hbody.program] at htoken
  obtain ⟨hframes, -⟩ := hturn.hidden_of_brace htoken hkind hempty
  obtain ⟨-, hhalted, hstack⟩ := hturn.closes htoken hkind hempty
  refine ⟨?_, hturns.hidden_eq_nil hbegins hn hempty hturn.going, hframes,
    hturn.pointer_eq (by rw [hframes, hempty]), hturn.runTo_eq (hhalted.trans hturn.going)⟩
  have hentry := hbody.entry
  rw [resumption_of_nil hempty] at hentry
  split
  · -- The macro is forgotten, and all values stay.
    next hcloses =>
    rw [if_pos hcloses] at hentry
    rw [hentry] at hstack
    rw [hstack]
    exact List.take_self_eq_iff a.stack.visible
  · next hcloses =>
    have hstop : (m.definitionAt m.pointer).extent.stop = a.pointer := by
      rw [extent_definitionAt, hend]
    rw [if_neg hcloses] at hentry
    rw [hentry] at hstack
    simp only [if_pos hstop] at hstack
    rw [hstack]
    exact Stack.visible_reveal_eq_take_iff (returns_definitionAt_le m m.pointer)

/-- A macro that calls another one for two values and returns one of them, with code after it.
    More may stand in its body. -/
def upperOfPair (more : List Token) : Program :=
  let head : List Token :=
    [⟨.macroDefinition, "#define macro MAIN() = takes(0) returns(1) \x7b", 1, 1⟩,
      ⟨.call, "PAIR()", 2, 2⟩]
  let rest : List Token :=
    [⟨.blockEnd, "\x7d", 6, 6⟩, ⟨.literal, "0x04", 7, 7⟩,
      ⟨.macroDefinition, "#define macro PAIR() = takes(0) returns(2) \x7b", 8, 8⟩,
      ⟨.literal, "0x01", 9, 9⟩, ⟨.literal, "0x02", 10, 10⟩, ⟨.blockEnd, "\x7d", 11, 11⟩]
  .ofTokens (head ++ more ++ rest).toArray

/-- The machine before that macro. -/
def beforePair (more : List Token) : Machine Isolated :=
  start (upperOfPair more) .isolated { steps := 16 }

theorem outputs_iff_pair :
    (beforePair []).Begins
      ∧ Turns 8 6 (beforePair []) ((beforePair []).later 6)
      ∧ ((beforePair []).later 7).stack.visible
        = ((beforePair []).later 6).stack.visible.take
            ((beforePair []).definitionAt (beforePair []).pointer).returns := by
  have hrun : (beforePair []).Begins
      ∧ (∀ j < 7, ((beforePair []).later j).Goes 8)
      ∧ ((beforePair []).later 6).frames = []
      ∧ ((beforePair []).later 6).pointer
        = Program.blockEnd (upperOfPair []).tokens (beforePair []).pointer
      ∧ ((upperOfPair []).token? ((beforePair []).later 6).pointer).map (·.kind) = some .blockEnd
      ∧ ¬(beforePair []).program.ClosesBetween (beforePair []).pointer
        ((beforePair []).later 6).pointer
      ∧ ((beforePair []).later 6).stack.hidden.headD [] = [] := by
    decide +kernel
  obtain ⟨hbegins, hgoes, hempty, hend, hbrace, hcloses, hhidden⟩ := hrun
  have hturns : Turns 8 6 (beforePair []) ((beforePair []).later 6) :=
    turns_later fun j hj => (hgoes j (by omega)).turn_later
  refine ⟨hbegins, hturns,
    (outputs_iff hbegins hturns hempty hend hbrace (hgoes 6 (by omega)).turn_later).1.2 ?_⟩
  rw [if_neg hcloses]
  exact .inl hhidden

/-- A block in the body of a macro. -/
def block : List Token :=
  [⟨.blockStart, "\x7b", 3, 3⟩, ⟨.literal, "0x03", 4, 4⟩, ⟨.blockEnd, "\x7d", 5, 5⟩]

/-- With a block in its body the macro keeps all its values, and the code after it finds them. -/
theorem block_keeps_all_values :
    (beforePair block).Begins
      ∧ Turns 11 9 (beforePair block) ((beforePair block).later 9)
      ∧ Turn 11 ((beforePair block).later 9) ((beforePair block).later 10)
      ∧ ((beforePair block).later 9).frames = []
      ∧ ((beforePair block).later 9).pointer
        = Program.blockEnd (upperOfPair block).tokens (beforePair block).pointer
      ∧ ((beforePair block).later 10).stack.visible
        ≠ ((beforePair block).later 9).stack.visible.take
            ((beforePair block).definitionAt (beforePair block).pointer).returns
      ∧ ((beforePair block).later 11).stack.visible.map (·.text)
        = ["0x04", "0x03", "0x02", "0x01"] := by
  have hrun : (∀ j < 10, ((beforePair block).later j).Goes 11)
      ∧ (beforePair block).Begins
      ∧ ((beforePair block).later 9).frames = []
      ∧ ((beforePair block).later 9).pointer
        = Program.blockEnd (upperOfPair block).tokens (beforePair block).pointer
      ∧ ((beforePair block).later 10).stack.visible
        ≠ ((beforePair block).later 9).stack.visible.take
            ((beforePair block).definitionAt (beforePair block).pointer).returns
      ∧ ((beforePair block).later 11).stack.visible.map (·.text)
        = ["0x04", "0x03", "0x02", "0x01"] := by
    decide +kernel
  obtain ⟨hgoes, hbegins, hends⟩ := hrun
  exact ⟨hbegins, turns_later fun j hj => (hgoes j (by omega)).turn_later,
    (hgoes 9 (by omega)).turn_later, hends⟩

end Machine

end HuffTrace
