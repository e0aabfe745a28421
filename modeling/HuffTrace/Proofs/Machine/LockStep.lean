/-
  HuffTrace.Proofs.Machine.LockStep

  Three records that a machine keeps of its calls stay in step: the open calls,
  the parts of the stack that they hide, and the range in which the pointer is
  (`InStep`).  The positions follow from how calls are bracketed.  The count of
  hidden parts needs more, that no machine for another program leaves a part
  behind, and here every program closes its macros: then every machine that is
  started comes to rest with no call open (`tidy_of_closed`).
-/

import HuffTrace.Proofs.Machine.Agreement

namespace HuffTrace.Machine

variable {σ : Type} [Scope σ]

/-! ## The positions of open calls -/

section Positions

variable {program : Program} {extents : List Extent} {frames : List Frame} {pointer : Nat}

/-- A call is never made from where a macro is defined. -/
theorem Calls.ne_definition {site : Nat} {extent extent' : Extent} {site' : Nat}
    (h : Calls program site extent) (h' : Calls program site' extent') :
    site ≠ extent'.definition := by
  rintro rfl
  obtain ⟨token, htoken, hkind, _⟩ := h
  obtain ⟨_, definition, hdefinition, hdefines⟩ := h'.extent
  obtain rfl : token = definition := Option.some.inj (htoken.symm.trans hdefinition)
  rw [hkind] at hdefines
  cases hdefines

/-- Where the pointer comes back to after a call that lies in the body of another one. -/
theorem Bracketed.encloses {site : Nat} {extent : Extent} {around : Frame} {outer : List Frame}
    (h : Bracketed program extents (around :: outer) (site + 1))
    (hcall : Calls program site extent) (hentered : around.callee ≠ none) :
    ∃ callee, around.callee = some callee ∧ callee.extent.definition < site
      ∧ site + 1 ≤ callee.extent.stop := by
  generalize hnext : site + 1 = next at h
  cases h with
  | reaching call _ _ => exact absurd rfl hentered
  | within call _ _ low high =>
    have hne := hcall.ne_definition call
    exact ⟨_, rfl, by omega, high⟩

/-- Each call lies in the body of the call around it. -/
theorem Bracketed.enclosed (h : Bracketed program extents frames pointer) {inner outer : List Frame}
    {frame around : Frame} (hsplit : frames = inner ++ frame :: around :: outer) :
    ∃ callee, around.callee = some callee ∧ callee.extent.definition < frame.callSite
      ∧ frame.callSite + 1 ≤ callee.extent.stop := by
  induction h generalizing inner with
  | outside pointer => exact absurd hsplit.symm (by simp)
  | reaching call entered enclosing ih =>
    cases inner with
    | nil =>
      cases hsplit
      exact enclosing.encloses call (entered around List.mem_cons_self)
    | cons first inner => exact ih (List.cons.inj hsplit).2
  | within call entered enclosing low high ih =>
    cases inner with
    | nil =>
      cases hsplit
      exact enclosing.encloses call (entered around List.mem_cons_self)
    | cons first inner => exact ih (List.cons.inj hsplit).2

/-- Only the innermost call may not have reached its definition, and then that is next. -/
theorem Bracketed.innermost (h : Bracketed program extents frames pointer)
    {inner outer : List Frame} {frame : Frame} (hsplit : frames = inner ++ frame :: outer)
    (hnone : frame.callee = none) :
    inner = [] ∧ ∃ extent, Calls program frame.callSite extent ∧ pointer = extent.definition := by
  have hinner : ∀ {outer' : List Frame}, (∀ f ∈ outer', f.callee ≠ none) →
      ∀ first inner', first :: outer' = inner' ++ frame :: outer → inner' = [] := by
    intro outer' hentered first inner' heq
    cases inner' with
    | nil => rfl
    | cons g inner' =>
      have hmem : frame ∈ outer' := by
        rw [(List.cons.inj heq).2]
        simp
      exact absurd hnone (hentered frame hmem)
  cases h with
  | outside pointer => exact absurd hsplit.symm (by simp)
  | reaching call entered enclosing =>
    obtain rfl := hinner entered _ _ hsplit
    cases hsplit
    exact ⟨rfl, _, call, rfl⟩
  | within call entered enclosing low high =>
    obtain rfl := hinner entered _ _ hsplit
    cases hsplit
    cases hnone

end Positions

/-! ## Machines started in closed programs -/

/-- The loop up to `stop` from `m` starts a machine, which runs up to a position: itself, or one
    for a macro of another program that it comes to call. -/
inductive Starts (stop : Nat) (m : Machine σ) : Nat → Machine σ → Prop where
  | self : Starts stop m stop m
  | nested {stop' : Nat} {a a' : Machine σ} {token : Token} {external : External σ}
      (reaches : Reaches stop m stop' a) (turn : Turn stop' a a')
      (call : Delegates a token external) :
    Starts stop m external.extent.stop (a.nested token external)

theorem Starts.reaches {stop stop' : Nat} {m n : Machine σ} (h : Starts stop m stop' n) :
    Reaches stop m stop' n := by
  cases h with
  | self => exact .here stop m
  | nested reaches turn call => exact reaches.trans (.inner turn call (.here _ _))

/-- What a turn starts is reached by it, and does not halt if the turn does not. -/
theorem Spawns.going {stop stop' : Nat} {m m' d : Machine σ} (h : Spawns m stop' d)
    (hturn : Turn stop m m') (hgoing : m'.halted = false) :
    Reaches stop m stop' d ∧ d.halted = false ∧ d.frames = []
      ∧ (d.runTo stop').halted = false := by
  have hdone : ∀ {m m' : Machine σ} {stop : Nat} {token : Token} {external : External σ},
      Turn stop m m' → m'.halted = false → Delegates m token external →
      ((m.nested token external).runTo external.extent.stop).halted = false := by
    intro m m' stop token external hturn hgoing call
    rw [hturn.eq_turn call.here] at hgoing
    exact call.going_nested hgoing
  induction h generalizing stop m' with
  | here call => exact ⟨.inner hturn call (.here _ _), rfl, rfl, hdone hturn hgoing call⟩
  | within call turns turn spawns ih =>
    rename_i m n n' d token external k stop'
    -- The machine in between takes this turn before it comes to rest, so it goes on after it.
    obtain ⟨K, hturns, hrests⟩ := exists_turns_runTo rfl (hdone hturn hgoing call)
    have hlater := (turns.succ turn).eq_later
    have hgoing' : n'.halted = false := by
      rw [hlater]
      exact hturns.going_later (hdone hturn hgoing call) (hrests.lt_of_turn hturns turns turn)
    obtain ⟨hreaches, hrest⟩ := ih turn hgoing'
    exact ⟨.inner hturn call (turns.reaches.trans hreaches), hrest⟩

/-- In a closed program every call returns before the loop comes to rest. -/
theorem Turns.frames_eq_nil_of_closed {stop n : Nat} {m m' : Machine σ} (h : Turns stop n m m')
    (hempty : m.frames = []) (hrests : Rests stop m') (hclosed : m.program.Closed) :
    m'.frames = [] := by
  apply h.frames_eq_nil_of_ends hempty hrests
  intro j hj extent hopens
  obtain ⟨token, _, _, hfound⟩ := hopens.call
  rw [(h.upTo (Nat.le_of_lt hj)).sameSetting.program] at hfound
  exact hclosed token.name extent hfound

/-- Where all programs are closed, no machine that a turn starts ends with a call open. -/
theorem tidy_of_closed {stop : Nat} {m m' : Machine σ} (hturn : Turn stop m m')
    (hgoing : m'.halted = false)
    (hclosed : ∀ stop' n, Reaches stop m stop' n → n.program.Closed) : Tidy m := by
  intro stop' d hspawns
  obtain ⟨hreaches, hstart, hempty, hdone⟩ := hspawns.going hturn hgoing
  obtain ⟨K, hturns, hrests⟩ := exists_turns_runTo hstart hdone
  exact hturns.frames_eq_nil_of_closed hempty hrests (hclosed stop' d hreaches)

theorem Turns.tidy_of_closed {stop n : Nat} {m m' : Machine σ} (h : Turns stop n m m')
    (hgoing : m'.halted = false)
    (hclosed : ∀ stop' n, Reaches stop m stop' n → n.program.Closed) {j : Nat} (hj : j < n) :
    Tidy (m.later j) := by
  apply Machine.tidy_of_closed (h.turn_later hj) (h.going_later hgoing hj)
  intro stop' d hreaches
  exact hclosed stop' d ((h.upTo (Nat.le_of_lt hj)).reaches.trans hreaches)

/-! ## Hidden parts -/

/-- A machine started in closed programs has one more part hidden for each call that it has
    entered. -/
theorem Starts.frameCount_eq {stop stop' k : Nat} {m a n : Machine σ} (h : Starts stop m stop' a)
    (hempty : m.frames = []) (hhidden : m.stack.hidden = [])
    (hclosed : ∀ stop' n, Reaches stop m stop' n → n.program.Closed) (hturns : Turns stop' k a n)
    (hgoing : n.halted = false) : n.stack.frameCount = a.stack.frameCount + entered n.frames := by
  have htidy : ∀ j < k, Tidy (a.later j) := fun j hj =>
    hturns.tidy_of_closed hgoing (fun stop'' d hd => hclosed stop'' d (h.reaches.trans hd)) hj
  cases h with
  | self =>
    rw [hturns.frameCount_eq hgoing hempty hhidden, hturns.debt_of_tidy hgoing htidy,
      Stack.frameCount, hhidden, List.length_nil, Nat.zero_add, Nat.add_zero]
  | nested reaches turn call =>
    obtain ⟨-, leaks, ⟨inner, parts, hinner, hparts, hcount⟩, hleaks⟩ :=
      (confined_nested _ _ _).turns hturns rfl hgoing fun _ _ b _ => accounts b
    have hnone : leaks = 0 := by
      apply hleaks.2
      intro j hj b hb
      rw [hb.eq_later]
      exact htidy j hj
    rw [List.append_nil] at hinner
    rw [Stack.frameCount, Stack.frameCount, hparts, List.length_append, hinner]
    omega

/-! ## Executions -/

/-- The open calls, the hidden parts above `base` of them and the pointer fit together. -/
structure InStep (base : Nat) (m : Machine σ) : Prop where
  /-- One part is hidden for each call whose definition has been reached. -/
  hidden : m.stack.frameCount = base + entered m.frames
  /-- Only the innermost call may not have reached its definition, and then the pointer is at
      the definition that the call leads to. -/
  reaching : ∀ inner frame outer, m.frames = inner ++ frame :: outer → frame.callee = none →
    inner = [] ∧ ∃ extent token, Calls m.program frame.callSite extent
      ∧ m.pointer = extent.definition ∧ m.program.token? m.pointer = some token
      ∧ token.kind = .macroDefinition
  /-- The pointer is in the body of the innermost call. -/
  within : ∀ site callee outer, m.frames = ⟨site, some callee⟩ :: outer →
    callee.extent.definition < m.pointer ∧ m.pointer ≤ callee.extent.stop
  /-- A call stands in the body of the call around it and returns to a position there. -/
  enclosed : ∀ inner frame around outer, m.frames = inner ++ frame :: around :: outer →
    ∃ callee, around.callee = some callee ∧ callee.extent.definition < frame.callSite
      ∧ frame.callSite + 1 ≤ callee.extent.stop

omit [Scope σ] in
theorem Bracketed.inStep {m : Machine σ} {extents : List Extent} {base : Nat}
    (h : Bracketed m.program extents m.frames m.pointer)
    (hhidden : m.stack.frameCount = base + entered m.frames) : InStep base m where
  hidden := hhidden
  reaching inner frame outer hsplit hnone := by
    obtain ⟨hinner, extent, hcall, hpointer⟩ := h.innermost hsplit hnone
    obtain ⟨_, token, htoken, hkind⟩ := hcall.extent
    exact ⟨hinner, extent, token, hcall, hpointer, hpointer ▸ htoken, hkind⟩
  within site callee outer hframes := by
    rw [hframes] at h
    cases h with
    | within _ _ _ low high => exact ⟨low, high⟩
  enclosed _ _ _ _ hsplit := h.enclosed hsplit

/-- If every program that an execution comes to is closed, then at each head of the loop that
    has not halted, of the machine itself and of every machine that it starts, the calls, the
    hidden parts and the pointer are in step. -/
theorem execute_inStep (program : Program) (scope : σ) (limits : Limits)
    (hclosed : ∀ stop n, Reaches program.size (start program scope limits) stop n →
      n.program.Closed)
    {stop k : Nat} {a n : Machine σ}
    (hstarts : Starts program.size (start program scope limits) stop a)
    (hturns : Turns stop k a n) (hgoing : n.halted = false) :
    InStep a.stack.frameCount n := by
  have hempty : a.frames = [] := by
    cases hstarts with
    | self => rfl
    | nested _ _ _ => rfl
  obtain ⟨extents, hbracketed, -⟩ := hturns.bracketed hempty (P := fun _ => True)
    fun _ _ _ _ => trivial
  exact hbracketed.inStep (hstarts.frameCount_eq rfl rfl hclosed hturns hgoing)

/-- A document with a macro that calls another one of its own. -/
def relaying : Document :=
  holding
    [⟨.macroDefinition, "#define macro R() = takes(1) returns(1) \x7b", 1, 1⟩,
      ⟨.call, "S()", 2, 2⟩, ⟨.blockEnd, "\x7d", 3, 3⟩,
      ⟨.macroDefinition, "#define macro S() = takes(1) returns(1) \x7b", 4, 4⟩,
      ⟨.blockEnd, "\x7d", 5, 5⟩] []

/-- A document that includes it and calls the macro. -/
def callingRelay : Document :=
  holding [⟨.literal, "0x05", 1, 1⟩, ⟨.call, "R()", 1, 1⟩] [relaying]

/-- The macro that is called there. -/
def relay : External Document :=
  ⟨relaying.program, ⟨0, 2⟩, relaying, "R", by decide +kernel⟩

/-- The machines of that execution are for these two documents. -/
theorem document_of_reaches {stop : Nat} {n : Machine Document}
    (h : Reaches 2 (ahead callingRelay) stop n) :
    (n.program = callingRelay.program ∧ n.scope = callingRelay)
      ∨ n.program = relaying.program ∧ n.scope = relaying := by
  refine h.invariant (P := fun n : Machine Document =>
    (n.program = callingRelay.program ∧ n.scope = callingRelay)
      ∨ n.program = relaying.program ∧ n.scope = relaying) ?_ ?_ (.inl ⟨rfl, rfl⟩)
  · intro _ m m' hturn hm
    rw [hturn.sameSetting.program, hturn.sameSetting.scope]
    exact hm
  · intro _ m m' token external _ call hm
    have hfound := call.found
    have hmissing := call.missing
    have hmem :=
      Array.mem_of_getElem? (show m.program.tokens[m.pointer]? = some token from call.here)
    rcases hm with ⟨hprogram, hscope⟩ | ⟨hprogram, hscope⟩
    · have hname : ∀ t ∈ callingRelay.program.tokens, t.kind = .call → t.name = "R" := by
        decide +kernel
      rw [hscope, hname token (hprogram ▸ hmem) call.kind] at hfound
      obtain rfl : relay = external := Option.some.inj hfound
      exact .inr ⟨rfl, rfl⟩
    · have hname : ∀ t ∈ relaying.program.tokens, t.kind = .call →
          (relaying.program.findMacro? t.name).isSome := by
        decide +kernel
      have hsome := hname token (hprogram ▸ hmem) call.kind
      rw [← hprogram, hmissing] at hsome
      cases hsome

/-- In the body of the second macro, the machine for the first one has a part hidden for the
    call that it has open, above the part that was hidden when it was started. -/
theorem execute_inStep_relayed :
    ∃ a n, Starts 2 (ahead callingRelay) 2 a ∧ Turns 2 2 a n ∧ n.halted = false
      ∧ n.frames.length = 1 ∧ a.stack.frameCount = 1 ∧ n.stack.frameCount = 2
      ∧ InStep a.stack.frameCount n := by
  have hgoes : (∀ j < 2, ((ahead callingRelay).later j).Goes 2)
      ∧ ∀ j < 2, ((((ahead callingRelay).later 1).nested ⟨.call, "R()", 1, 1⟩ relay).later j).Goes
        2 := by
    decide +kernel
  have hfirst := (hgoes.1 0 (by decide)).turn_later
  have hcall : Delegates ((ahead callingRelay).later 1) ⟨.call, "R()", 1, 1⟩ relay := by
    refine ⟨by decide +kernel, rfl, by decide +kernel, by decide +kernel, ?_⟩
    rw [hfirst.sameSetting.scope]
    rfl
  have hstarts : Starts 2 (ahead callingRelay) 2
      (((ahead callingRelay).later 1).nested ⟨.call, "R()", 1, 1⟩ relay) :=
    .nested (.next hfirst (.here _ _)) (hgoes.1 1 (by decide)).turn_later hcall
  have hturns := turns_later fun j hj => (hgoes.2 j hj).turn_later
  have hclosed : ∀ stop n, Reaches callingRelay.program.size
      (start callingRelay.program callingRelay { steps := 16 }) stop n → n.program.Closed := by
    intro stop n hreaches
    rcases document_of_reaches hreaches with ⟨hprogram, _⟩ | ⟨hprogram, _⟩
    · rw [hprogram]
      exact Program.closed_of_macros (by decide +kernel)
    · rw [hprogram]
      exact Program.closed_of_macros (by decide +kernel)
  have hgoing : ((((ahead callingRelay).later 1).nested ⟨.call, "R()", 1, 1⟩ relay).later
      2).halted = false := by
    decide +kernel
  exact ⟨_, _, hstarts, hturns, hgoing, by decide +kernel, by decide +kernel, by decide +kernel,
    execute_inStep callingRelay.program callingRelay { steps := 16 } hclosed hstarts hturns hgoing⟩

end HuffTrace.Machine
