/-
  HuffTrace.Proofs.Machine.FrameRule

  The frame rule of macro calls.  However long the body of a called macro runs
  and whatever it calls, its return puts the declared outputs onto what the
  call left of the caller's values, and gives the caller its hidden parts back.

  The rule holds exactly for calls whose turns are tidy.  A macro of another
  program that runs off the end of it with a call open leaves a hidden part
  behind, and from then on every return reveals the wrong part.
-/

import HuffTrace.Document
import HuffTrace.Proofs.Machine.Nesting

namespace HuffTrace.Machine

variable {σ : Type} [Scope σ]

/-- The stack after a call is that before it with the inputs replaced by the outputs: of the
    stack `inside` of the callee, the top `returns` values lie on the values below the top
    `takes` ones of `before`.  Should they be too many, the bottom is cut off. -/
structure Restores (before inside after : Stack) (takes returns : Nat) : Prop where
  visible : after.visible
    = (inside.visible.take returns ++ before.visible.drop takes).take Stack.maxDepth
  hidden : after.hidden = before.hidden

/-- The turns from the call of a macro of the program up to the return from it. -/
structure Returns (stop : Nat) (s : Nat → Machine σ) (k : Nat) (extent : Extent) : Prop where
  turns : ∀ j ≤ k, Turn stop (s j) (s (j + 1))
  call : ∃ token, (s 0).program.token? (s 0).pointer = some token ∧ token.kind = .call
    ∧ (s 0).program.findMacro? token.name = some extent
  /-- The call is opened and stays open. -/
  opened : 0 < k ∧ ∀ j, 0 < j → j ≤ k → (s 0).frames.length < (s j).frames.length
  back : (s (k + 1)).frames.length = (s 0).frames.length

/-- A return restores the stack exactly if nothing lies above the part that the call hid. -/
theorem restores_reveal_iff {before inside : Stack} {parts : List (List Value)}
    {takes returns : Nat}
    (hhidden : inside.hidden = parts ++ before.visible.drop takes :: before.hidden) :
    Restores before inside (inside.reveal returns) takes returns ↔ parts = [] := by
  constructor
  · intro hrestores
    -- A return reveals one part, so anything above shows in the number of parts left.
    have hcount := congrArg List.length hrestores.hidden
    rw [Stack.reveal] at hcount
    simp only [hhidden, List.length_tail, List.length_append, List.length_cons] at hcount
    exact List.length_eq_zero_iff.1 (by omega)
  · rintro rfl
    rw [List.nil_append] at hhidden
    constructor
    · rw [Stack.reveal, hhidden]
      rfl
    · rw [Stack.reveal, hhidden]
      rfl

/-! ## Calls within a program -/

/-- The first turn moves to the definition, with the call noted. -/
theorem Returns.first {stop k : Nat} {s : Nat → Machine σ} {extent : Extent}
    (h : Returns stop s k extent) :
    (s 1).frames = ⟨(s 0).pointer, none⟩ :: (s 0).frames ∧ (s 1).stack = (s 0).stack
      ∧ (s 1).pointer = extent.definition := by
  obtain ⟨token, htoken, hkind, hfound⟩ := h.call
  obtain ⟨token', htoken', hmoves⟩ := (h.turns 0 (Nat.zero_le _)).moves
  have hlonger := h.opened.2 1 Nat.zero_lt_one h.opened.1
  rw [htoken] at htoken'
  cases htoken'
  cases hmoves with
  | stay _ _ hframes _ _ _ => rw [hframes] at hlonger; omega
  | analyse _ hempty hframes => rw [hframes, hempty] at hlonger; exact absurd hlonger (by simp)
  | finish _ hempty _ hframes => rw [hframes, hempty] at hlonger; exact absurd hlonger (by simp)
  | enter _ _ kind _ _ _ _ _ => rw [hkind] at kind; cases kind
  | leave _ _ _ kind _ _ _ _ _ => rcases kind with kind | kind <;> rw [hkind] at kind <;> cases kind
  | delegate _ call _ _ _ _ _ =>
    have hmissing := call.missing
    rw [hfound] at hmissing
    cases hmissing
  | openCall extent' _ found hframes hstack hpointer _ =>
    rw [hfound] at found
    cases found
    exact ⟨hframes, hstack, hpointer⟩

/-- The second turn enters the macro and hides what it does not take. -/
theorem Returns.second {stop k : Nat} {s : Nat → Machine σ} {extent : Extent}
    (h : Returns stop s k extent) :
    (s 2).frames
        = ⟨(s 0).pointer, some ((s 0).definitionAt extent.definition)⟩ :: (s 0).frames
      ∧ (s 2).stack = (s 0).stack.hide ((s 0).definitionAt extent.definition).takes
      ∧ Tidy (s 1) := by
  obtain ⟨hframes₁, hstack₁, hpointer₁⟩ := h.first
  obtain ⟨_, _, _, hfound⟩ := h.call
  obtain ⟨_, definition, hdefinition, hkind⟩ := Program.extent_of_findMacro? hfound
  have hprogram := (h.turns 0 (Nat.zero_le _)).sameSetting.program
  obtain ⟨token, htoken, hmoves⟩ := (h.turns 1 h.opened.1).moves
  have heq : definition = token := by
    rw [hprogram, hpointer₁, hdefinition] at htoken
    exact Option.some.inj htoken
  subst heq
  have hcallee : (s 1).definitionAt (s 1).pointer = (s 0).definitionAt extent.definition := by
    rw [definitionAt, definitionAt, hprogram, hpointer₁]
  -- With the frame of the call on top, a definition can only enter the macro.
  cases hmoves with
  | stay kind _ _ _ _ _ => exact absurd hkind kind
  | analyse _ hempty _ => rw [hframes₁] at hempty; cases hempty
  | finish _ hempty _ _ => rw [hframes₁] at hempty; cases hempty
  | openCall _ kind _ _ _ _ _ => rw [hkind] at kind; cases kind
  | leave _ _ _ _ hbefore _ _ _ _ => rw [hframes₁] at hbefore; cases hbefore
  | delegate _ call _ _ _ _ _ =>
    have kind := call.kind
    rw [hkind] at kind
    cases kind
  | enter callSite outer _ hbefore hframes hstack _ _ =>
    rw [hframes₁] at hbefore
    cases hbefore
    rw [hcallee] at hframes hstack
    rw [hstack₁] at hstack
    exact ⟨hframes, hstack, tidy_of_token htoken (not_delegates_of_kind (by simp [hkind]))⟩

/-- From then on the balance above the call counts what other programs leave behind. -/
theorem Returns.balanced {stop k : Nat} {s : Nat → Machine σ} {extent : Extent}
    (h : Returns stop s k extent) {j : Nat} (hlow : 2 ≤ j) (hhigh : j ≤ k) :
    ∃ leaks, Balanced
        (⟨(s 0).pointer, some ((s 0).definitionAt extent.definition)⟩ :: (s 0).frames)
        ((s 0).stack.visible.drop ((s 0).definitionAt extent.definition).takes
          :: (s 0).stack.hidden) leaks (s j)
      ∧ (leaks = 0 ↔ ∀ i, 0 < i → i < j → Tidy (s i)) := by
  obtain ⟨hframes₂, hstack₂, htidy₁⟩ := h.second
  induction j, hlow using Nat.le_induction with
  | base =>
    refine ⟨0, ⟨[], [], hframes₂, ?_, rfl⟩, iff_of_true rfl ?_⟩
    · rw [hstack₂]
      rfl
    · intro i hi hi'
      obtain rfl : i = 1 := by omega
      exact htidy₁
  | succ j hlow ih =>
    obtain ⟨leaks, hbalanced, htidy⟩ := ih (by omega)
    have hlonger := h.opened.2 j (by omega) (by omega)
    have hlonger' := h.opened.2 (j + 1) (by omega) hhigh
    obtain ⟨more, hbalanced', hmore⟩ := hbalanced.turn (h.turns j (by omega))
      (by intro hempty; rw [hempty] at hlonger; exact absurd hlonger (by simp))
      (by intro f rest hcons; cases hcons; simp) (by rw [List.length_cons]; omega)
      (h.turns (j + 1) hhigh).going (accounts (s j))
    refine ⟨leaks + more, hbalanced', ?_⟩
    constructor
    · intro hzero i hi hi'
      rcases Nat.lt_or_eq_of_le (Nat.le_of_lt_succ hi') with hlt | rfl
      · exact htidy.1 (by omega) i hi hlt
      · exact hmore.1 (by omega)
    · intro hall
      have hleaks := htidy.2 fun i hi hi' => hall i hi (by omega)
      have hmore' := hmore.2 (hall j (by omega) (by omega))
      omega

/-- A call of a macro of the program restores the stack of the caller exactly if all turns
    within it are tidy. -/
theorem Returns.restores_iff {stop k : Nat} {s : Nat → Machine σ} {extent : Extent}
    (h : Returns stop s k extent) :
    Restores (s 0).stack (s k).stack (s (k + 1)).stack
        ((s 0).definitionAt extent.definition).takes ((s 0).definitionAt extent.definition).returns
      ↔ ∀ j, 0 < j → j ≤ k → Tidy (s j) := by
  have hk : 2 ≤ k := by
    rcases Nat.lt_or_ge k 2 with hlt | hge
    · obtain rfl : k = 1 := by have := h.opened.1; omega
      have hback := h.back
      rw [h.second.1] at hback
      exact absurd hback (by simp)
    · exact hge
  obtain ⟨leaks, ⟨inner, parts, hframes, hhidden, hlen⟩, htidy⟩ := h.balanced hk (Nat.le_refl k)
  obtain ⟨token, htoken, hmoves⟩ := (h.turns k (Nat.le_refl k)).moves
  have hlonger := h.opened.2 k h.opened.1 (Nat.le_refl k)
  have hback := h.back
  -- Only a return takes a call away.
  cases hmoves with
  | stay _ _ hsame _ _ _ => rw [hsame] at hback; omega
  | analyse _ hempty _ => rw [hempty] at hlonger; exact absurd hlonger (by simp)
  | finish _ hempty _ _ => rw [hempty] at hlonger; exact absurd hlonger (by simp)
  | openCall _ _ _ hmore _ _ _ => rw [hmore, List.length_cons] at hback; omega
  | enter _ _ _ hbefore hsame _ _ _ =>
    rw [hsame, List.length_cons] at hback
    rw [hbefore, List.length_cons] at hlonger
    omega
  | delegate _ _ hsame _ _ _ _ => rw [hsame] at hback; omega
  | leave callSite callee outer kind hbefore hafter hstack _ _ =>
    have htidyk : Tidy (s k) := tidy_of_token htoken
      (not_delegates_of_kind (by rcases kind with kind | kind <;> simp [kind]))
    have hall : (∀ j, 0 < j → j ≤ k → Tidy (s j)) ↔ leaks = 0 := by
      rw [htidy]
      constructor
      · intro hall i hi hi'
        exact hall i hi (by omega)
      · intro hall j hj hj'
        rcases Nat.lt_or_eq_of_le hj' with hlt | rfl
        · exact hall j hj hlt
        · exact htidyk
    obtain rfl : inner = [] := by
      rw [hframes] at hbefore
      have hcount := congrArg List.length hbefore
      rw [hafter] at hback
      simp only [List.length_append, List.length_cons] at hcount
      exact List.length_eq_zero_iff.1 (by omega)
    rw [hframes] at hbefore
    cases hbefore
    simp only [entered, List.countP_nil, Nat.zero_add] at hlen
    rw [hall, hstack, restores_reveal_iff hhidden, ← hlen, List.length_eq_zero_iff]

/-! ## Calls into other programs -/

/-- A call of a macro of another program restores the stack of the caller exactly if its
    turn is tidy. -/
theorem Delegates.restores_iff {stop : Nat} {m m' : Machine σ} {token : Token}
    {external : External σ} (call : Delegates m token external) (hturn : Turn stop m m')
    (hgoing : m'.halted = false) :
    Restores m.stack ((m.nested token external).runTo external.extent.stop).stack m'.stack
        (takesOf external) (returnsOf external) ↔ Tidy m := by
  obtain ⟨token', htoken, hmoves⟩ := hturn.moves
  have heq : token = token' := Option.some.inj (call.here.symm.trans htoken)
  subst heq
  cases hmoves with
  | stay _ alone _ _ _ _ => exact absurd call (alone external)
  | analyse kind _ _ => rw [call.kind] at kind; cases kind
  | finish kind _ _ _ => rw [call.kind] at kind; cases kind
  | openCall _ _ found _ _ _ _ => rw [call.missing] at found; cases found
  | enter _ _ kind _ _ _ _ _ => rw [call.kind] at kind; cases kind
  | leave _ _ _ kind _ _ _ _ _ =>
    rcases kind with kind | kind <;> rw [call.kind] at kind <;> cases kind
  | delegate external' call' _ hstack hhalted _ _ =>
    obtain ⟨-, rfl⟩ := call.unique call'
    obtain ⟨parts, hhidden, htidy⟩ := accounts m token external call (hhalted.symm.trans hgoing)
    rw [hidden_nested] at hhidden
    rw [← htidy, hstack, restores_reveal_iff hhidden]

/-! ## The rule -/

/-- The frame rule of macro calls: a call that returns restores the stack of its caller
    exactly if every machine started for another program on the way ends with no call
    open. -/
theorem frame_rule :
    (∀ (stop k : Nat) (s : Nat → Machine σ) (extent : Extent), Returns stop s k extent →
      (Restores (s 0).stack (s k).stack (s (k + 1)).stack
          ((s 0).definitionAt extent.definition).takes
          ((s 0).definitionAt extent.definition).returns
        ↔ ∀ j, 0 < j → j ≤ k → Tidy (s j)))
    ∧ ∀ (stop : Nat) (m m' : Machine σ) (token : Token) (external : External σ),
      Delegates m token external → Turn stop m m' → m'.halted = false →
      (Restores m.stack ((m.nested token external).runTo external.extent.stop).stack m'.stack
          (takesOf external) (returnsOf external)
        ↔ Tidy m) :=
  ⟨fun _ _ _ _ h => h.restores_iff, fun _ _ _ _ _ call hturn hgoing =>
    call.restores_iff hturn hgoing⟩

/-! ## A call that returns, and one that loses a value -/

/-- A document with tokens that includes other documents. -/
def holding (tokens : List Token) (includes : List Document) : Document :=
  ⟨{}, "", .ofTokens tokens.toArray, includes, {}⟩

/-- A macro that gives back the value it takes. -/
def keeper : List Token :=
  [⟨.macroDefinition, "#define macro K() = takes(1) returns(1) \x7b", 2, 2⟩,
    ⟨.blockEnd, "\x7d", 3, 3⟩]

/-- A document that calls the macro and defines it. -/
def callingOwn : Document :=
  holding (⟨.call, "K()", 1, 1⟩ :: keeper) []

/-- A document that calls the macro and includes it. -/
def callingIncluded : Document :=
  holding [⟨.call, "K()", 1, 1⟩] [holding keeper []]

/-- The machine after a number of turns from the call, which finds two values. -/
def callTrace (document : Document) : Nat → Machine Document
  | 0 =>
    { program := document.program
      scope := document
      limits := { steps := 16 }
      stack := { visible := [.symbolic "b", .symbolic "a"] } }
  | j + 1 =>
    match (callTrace document j).program.token? (callTrace document j).pointer with
    | some token => (callTrace document j).turn (fun stop n => n.runTo stop) token
    | none => callTrace document j

theorem turn_callTrace {document : Document} {stop j : Nat}
    (hgoing : (callTrace document j).halted = false)
    (hinside : ¬((callTrace document j).frames = [] ∧ stop ≤ (callTrace document j).pointer))
    (hbudget : (callTrace document j).steps < (callTrace document j).limits.steps)
    (htoken : ((callTrace document j).program.token? (callTrace document j).pointer).isSome) :
    Turn stop (callTrace document j) (callTrace document (j + 1)) := by
  obtain ⟨token, htoken⟩ := Option.isSome_iff_exists.1 htoken
  refine ⟨hgoing, hinside, hbudget, token, htoken, ?_⟩
  simp only [callTrace, htoken]

theorem returns_callingOwn : Returns 3 (callTrace callingOwn) 2 ⟨1, 2⟩ where
  turns j hj := by
    match j, hj with
    | 0, _ | 1, _ | 2, _ =>
      exact turn_callTrace (by decide +kernel) (by decide +kernel) (by decide +kernel)
        (by decide +kernel)
  call := ⟨⟨.call, "K()", 1, 1⟩, rfl, rfl, by decide +kernel⟩
  opened := by
    refine ⟨by decide, ?_⟩
    intro j hj hj'
    match j, hj, hj' with
    | 1, _, _ | 2, _, _ => decide +kernel
  back := by decide +kernel

theorem frame_rule_keeper :
    (Restores (callTrace callingOwn 0).stack (callTrace callingOwn 2).stack
        (callTrace callingOwn 3).stack ((callTrace callingOwn 0).definitionAt 1).takes
        ((callTrace callingOwn 0).definitionAt 1).returns
      ↔ ∀ j, 0 < j → j ≤ 2 → Tidy (callTrace callingOwn j))
    ∧ ∃ token external, Delegates (callTrace callingIncluded 0) token external
      ∧ (Restores (callTrace callingIncluded 0).stack
          (((callTrace callingIncluded 0).nested token external).runTo external.extent.stop).stack
          (callTrace callingIncluded 1).stack (takesOf external) (returnsOf external)
        ↔ Tidy (callTrace callingIncluded 0)) := by
  refine ⟨frame_rule.1 3 2 _ ⟨1, 2⟩ returns_callingOwn, ⟨.call, "K()", 1, 1⟩, ?_⟩
  obtain ⟨external, hfound⟩ := Option.isSome_iff_exists.1
    (show (Scope.findMacro? callingIncluded "K").isSome by decide +kernel)
  have hcall : Delegates (callTrace callingIncluded 0) ⟨.call, "K()", 1, 1⟩ external :=
    ⟨rfl, rfl, by decide +kernel, by decide +kernel, hfound⟩
  refine ⟨external, hcall, frame_rule.2 1 _ _ _ external hcall ?_ (by decide +kernel)⟩
  exact turn_callTrace (by decide +kernel) (by decide +kernel) (by decide +kernel)
    (by decide +kernel)

/-- A document that calls a macro which calls a macro of a third document, where the called
    macro ends the document with a call of one that is never closed. -/
def callingUnclosed : Document :=
  holding [⟨.call, "F()", 1, 1⟩]
    [holding
      [⟨.macroDefinition, "#define macro F() = takes(1) returns(1) \x7b", 1, 1⟩,
        ⟨.call, "G()", 2, 2⟩, ⟨.blockEnd, "\x7d", 3, 3⟩]
      [holding
        [⟨.macroDefinition, "#define macro G() = takes(1) returns(1) \x7b", 1, 1⟩,
          ⟨.call, "H()", 2, 2⟩, ⟨.blockEnd, "\x7d", 3, 3⟩,
          ⟨.macroDefinition, "#define macro H() = takes(1) returns(1) \x7b", 4, 4⟩] []]]

/-- The macro that is called there. -/
def unclosedBelow : External Document :=
  (Scope.findMacro? callingUnclosed "F").get (by decide +kernel)

/-- That the machine for the called macro itself ends with no call open is not enough. -/
theorem not_restores_unclosed :
    Delegates (callTrace callingUnclosed 0) ⟨.call, "F()", 1, 1⟩ unclosedBelow
      ∧ Turn 1 (callTrace callingUnclosed 0) (callTrace callingUnclosed 1)
      ∧ (callTrace callingUnclosed 1).halted = false
      ∧ (((callTrace callingUnclosed 0).nested ⟨.call, "F()", 1, 1⟩ unclosedBelow).runTo
          unclosedBelow.extent.stop).frames = []
      ∧ ¬Restores (callTrace callingUnclosed 0).stack
          (((callTrace callingUnclosed 0).nested ⟨.call, "F()", 1, 1⟩ unclosedBelow).runTo
            unclosedBelow.extent.stop).stack
          (callTrace callingUnclosed 1).stack (takesOf unclosedBelow)
          (returnsOf unclosedBelow) := by
  refine ⟨⟨rfl, rfl, by decide +kernel, by decide +kernel, ?_⟩, ?_, by decide +kernel,
    by decide +kernel, ?_⟩
  · exact (Option.some_get _).symm
  · exact turn_callTrace (by decide +kernel) (by decide +kernel) (by decide +kernel)
      (by decide +kernel)
  · intro hrestores
    have hhidden := hrestores.hidden
    revert hhidden
    decide +kernel

end HuffTrace.Machine
