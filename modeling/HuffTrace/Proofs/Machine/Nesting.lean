/-
  HuffTrace.Proofs.Machine.Nesting

  How calls and hidden parts of the stack nest.  A call that is entered hides
  one part and its return reveals one, so within a call the parts above those
  of the caller count the calls entered in it (`Balanced`).  The count is off
  by what other programs leave behind: a macro of another program whose body
  runs off the end of that program never returns, and the part that it hid
  stays.  `Tidy` says that no program started by a turn, directly or by
  another one, ends like that, and `Balanced.turn` that nothing is left behind
  exactly then.
-/

import HuffTrace.Proofs.Machine.Moves

namespace HuffTrace.Machine

variable {σ : Type} [Scope σ]

/-! ## Machines started by a turn -/

/-- A turn from a machine starts another one, which runs up to a position: the one for the
    macro that is called, or one that this in its turn starts. -/
inductive Spawns : Machine σ → Nat → Machine σ → Prop where
  | here {m : Machine σ} {token : Token} {external : External σ}
      (call : Delegates m token external) :
    Spawns m external.extent.stop (m.nested token external)
  | within {m n n' d : Machine σ} {token : Token} {external : External σ} {k stop : Nat}
      (call : Delegates m token external)
      (turns : Turns external.extent.stop k (m.nested token external) n)
      (turn : Turn external.extent.stop n n') (spawns : Spawns n stop d) : Spawns m stop d

/-- Every machine that a turn starts ends with no call open. -/
def Tidy (m : Machine σ) : Prop :=
  ∀ stop d, Spawns m stop d → (d.runTo stop).frames = []

theorem tidy_of_alone {m : Machine σ} (h : ∀ token external, ¬Delegates m token external) :
    Tidy m := by
  intro stop d hspawns
  cases hspawns with
  | here call => exact absurd call (h _ _)
  | within call _ _ _ => exact absurd call (h _ _)

theorem tidy_of_token {m : Machine σ} {token : Token}
    (htoken : m.program.token? m.pointer = some token)
    (h : ∀ external, ¬Delegates m token external) : Tidy m :=
  tidy_of_alone (not_delegates_of_here htoken h)

/-- A turn that calls a macro of another program is tidy if the machine for it ends with no
    call open and all of its turns are tidy. -/
theorem Delegates.tidy_iff {m : Machine σ} {token : Token} {external : External σ}
    (call : Delegates m token external) :
    Tidy m ↔ ((m.nested token external).runTo external.extent.stop).frames = []
      ∧ ∀ k n n', Turns external.extent.stop k (m.nested token external) n →
        Turn external.extent.stop n n' → Tidy n := by
  constructor
  · intro htidy
    refine ⟨htidy _ _ (.here call), ?_⟩
    intro k n n' hturns hturn stop d hspawns
    exact htidy stop d (.within call hturns hturn hspawns)
  · rintro ⟨hends, hinner⟩ stop d hspawns
    cases hspawns with
    | here call' =>
      obtain ⟨rfl, rfl⟩ := call.unique call'
      exact hends
    | within call' hturns hturn hspawns =>
      obtain ⟨rfl, rfl⟩ := call.unique call'
      exact hinner _ _ _ hturns hturn stop d hspawns

/-! ## The balance of calls and hidden parts -/

/-- The number of calls whose definition has been reached. -/
def entered (frames : List Frame) : Nat :=
  frames.countP (·.callee.isSome)

/-- Above the calls `outer` and the hidden parts `base`, the machine has one part for each
    call that is entered, and `leaks` more. -/
def Balanced (outer : List Frame) (base : List (List Value)) (leaks : Nat) (m : Machine σ) :
    Prop :=
  ∃ inner parts, m.frames = inner ++ outer ∧ m.stack.hidden = parts ++ base
    ∧ parts.length = entered inner + leaks

/-- Outside of any call, the machine is not at the start or the end of the analysis of a
    macro. -/
def Inside (m : Machine σ) : Prop :=
  m.frames = [] → m.entry = none
    ∧ ∀ token, m.program.token? m.pointer = some token → token.kind ≠ .macroDefinition

/-- Revealing one part uncovers what lay below it, up to as many parts as lay above. -/
theorem exists_tail_append {α : Type} (above : List α) (x : α) (below : List α) :
    ∃ more, (above ++ x :: below).tail = more ++ below ∧ more.length = above.length := by
  cases above with
  | nil => exact ⟨[], rfl, rfl⟩
  | cons y above => exact ⟨above ++ [x], by simp, by simp⟩

section Balance

variable {outer : List Frame} {base : List (List Value)} {leaks site : Nat} {rest : List Frame}
  {callee : Definition} {m m' : Machine σ}

omit [Scope σ] in
theorem Balanced.of_stay (h : Balanced outer base leaks m) (hframes : m'.frames = m.frames)
    (hhidden : m'.stack.hidden = m.stack.hidden) : Balanced outer base leaks m' := by
  obtain ⟨inner, parts, hinner, hparts, hlen⟩ := h
  exact ⟨inner, parts, hframes.trans hinner, hhidden.trans hparts, hlen⟩

omit [Scope σ] in
/-- A call that is noted hides nothing until its definition is reached. -/
theorem Balanced.of_open (h : Balanced outer base leaks m)
    (hframes : m'.frames = ⟨site, none⟩ :: m.frames)
    (hhidden : m'.stack.hidden = m.stack.hidden) : Balanced outer base leaks m' := by
  obtain ⟨inner, parts, hinner, hparts, hlen⟩ := h
  refine ⟨⟨site, none⟩ :: inner, parts, ?_, hhidden.trans hparts, hlen⟩
  rw [hframes, hinner]
  rfl

omit [Scope σ] in
/-- Reaching the definition of a call counts the call and hides a part. -/
theorem Balanced.of_enter {part : List Value} (h : Balanced outer base leaks m)
    (houter : ∀ f rest, outer = f :: rest → f.callee ≠ none)
    (hbefore : m.frames = ⟨site, none⟩ :: rest)
    (hframes : m'.frames = ⟨site, some callee⟩ :: rest)
    (hhidden : m'.stack.hidden = part :: m.stack.hidden) : Balanced outer base leaks m' := by
  obtain ⟨inner, parts, hinner, hparts, hlen⟩ := h
  rw [hinner] at hbefore
  cases inner with
  | nil => exact absurd rfl (houter _ _ hbefore)
  | cons f inner =>
    cases hbefore
    refine ⟨⟨site, some callee⟩ :: inner, part :: parts, hframes, ?_, ?_⟩
    · rw [hhidden, hparts]
      rfl
    · simp only [entered, List.length_cons, List.countP_cons, Option.isSome_none,
        Option.isSome_some, Bool.false_eq_true, if_false, if_true] at hlen ⊢
      omega

omit [Scope σ] in
/-- A return takes a call off together with the innermost part. -/
theorem Balanced.of_leave (h : Balanced outer base leaks m)
    (hbefore : m.frames = ⟨site, some callee⟩ :: rest) (hkept : outer.length ≤ rest.length)
    (hframes : m'.frames = rest) (hhidden : m'.stack.hidden = m.stack.hidden.tail) :
    Balanced outer base leaks m' := by
  obtain ⟨inner, parts, hinner, hparts, hlen⟩ := h
  rw [hinner] at hbefore
  cases inner with
  | nil =>
    have hlength := congrArg List.length (show outer = _ from hbefore)
    simp only [List.length_cons] at hlength
    omega
  | cons f inner =>
    cases hbefore
    simp only [entered, List.countP_cons, Option.isSome_some, if_true] at hlen
    cases parts with
    | nil =>
      simp only [List.length_nil] at hlen
      omega
    | cons part parts =>
      refine ⟨inner, parts, hframes, ?_, ?_⟩
      · rw [hhidden, hparts]
        rfl
      · simp only [List.length_cons] at hlen
        rw [entered]
        omega

omit [Scope σ] in
/-- What another machine leaves above the part that was hidden for it stays, and the return from
    it reveals one part only. -/
theorem Balanced.of_delegate {left : List (List Value)} {part : List Value}
    (h : Balanced outer base leaks m) (hframes : m'.frames = m.frames)
    (hhidden : m'.stack.hidden = (left ++ part :: m.stack.hidden).tail) :
    Balanced outer base (leaks + left.length) m' := by
  obtain ⟨inner, parts, hinner, hparts, hlen⟩ := h
  obtain ⟨more, hmore, hcount⟩ := exists_tail_append left part m.stack.hidden
  refine ⟨inner, more ++ parts, hframes.trans hinner, ?_, ?_⟩
  · rw [hhidden, hmore, hparts, List.append_assoc]
  · rw [List.length_append]
    omega

end Balance

/-- What the machine for a macro of another program leaves behind when it ends: nothing
    exactly if the turn is tidy. -/
def Accounts (m : Machine σ) : Prop :=
  ∀ token external, Delegates m token external →
    ((m.nested token external).runTo external.extent.stop).halted = false →
    ∃ parts, ((m.nested token external).runTo external.extent.stop).stack.hidden
        = parts ++ (m.nested token external).stack.hidden ∧ (parts = [] ↔ Tidy m)

/-- A turn within a call keeps the balance up to what the machines that it starts leave
    behind. -/
theorem Balanced.turn {outer : List Frame} {base : List (List Value)} {leaks stop : Nat}
    {m m' : Machine σ} (h : Balanced outer base leaks m) (hturn : Turn stop m m')
    (hinside : Inside m) (houter : ∀ f rest, outer = f :: rest → f.callee ≠ none)
    (hkept : outer.length ≤ m'.frames.length) (hgoing : m'.halted = false)
    (haccounts : Accounts m) :
    ∃ more, Balanced outer base (leaks + more) m' ∧ (more = 0 ↔ Tidy m) := by
  obtain ⟨token, htoken, hmoves⟩ := hturn.moves
  -- Only a call of a macro of another program starts a machine that could leave a part behind.
  have hquiet : token.kind ≠ .call → (0 = 0 ↔ Tidy m) := fun hkind =>
    iff_of_true rfl (tidy_of_token htoken (not_delegates_of_kind hkind))
  cases hmoves with
  | stay kind alone hframes hhidden hpointer hentry =>
    exact ⟨0, h.of_stay hframes hhidden, iff_of_true rfl (tidy_of_token htoken alone)⟩
  | analyse kind hempty hframes => exact absurd kind ((hinside hempty).2 token htoken)
  | finish kind hempty hentry hframes => exact absurd (hinside hempty).1 hentry
  | openCall extent kind found hframes hstack hpointer hentry =>
    refine ⟨0, h.of_open hframes (congrArg _ hstack), iff_of_true rfl (tidy_of_token htoken ?_)⟩
    intro external call
    have hmissing := call.missing
    rw [found] at hmissing
    cases hmissing
  | enter callSite rest kind hbefore hframes hstack hpointer hentry =>
    exact ⟨0, h.of_enter houter hbefore hframes (congrArg _ hstack), hquiet (by simp [kind])⟩
  | leave callSite callee rest kind hbefore hframes hstack hpointer hentry =>
    rw [hframes] at hkept
    exact ⟨0, h.of_leave hbefore hkept hframes (congrArg _ hstack),
      hquiet (by rcases kind with kind | kind <;> simp [kind])⟩
  | delegate external call hframes hstack hhalted hpointer hentry =>
    obtain ⟨left, hleft, htidy⟩ := haccounts token external call (hhalted.symm.trans hgoing)
    have hhidden : m'.stack.hidden
        = (left ++ m.stack.visible.drop (takesOf external) :: m.stack.hidden).tail := by
      rw [hstack, ← hidden_nested m token external, ← hleft]
      rfl
    exact ⟨left.length, h.of_delegate hframes hhidden,
      by rw [List.length_eq_zero_iff]; exact htidy⟩

/-! ## Machines for macros of other programs -/

/-- The machine executes the tokens between two positions, among which there is no
    definition, and the calls that these lead to. -/
structure Confined (low high : Nat) (m : Machine σ) : Prop where
  entry : m.entry = none
  /-- Outside of any call the pointer is past the lower position. -/
  pointer : m.frames = [] → low ≤ m.pointer
  /-- The outermost call is a token past the lower position. -/
  outermost : ∀ site, (m.frames.map (·.callSite)).getLast? = some site → low ≤ site
  clear : ∀ i token, low ≤ i → i < high → m.program.token? i = some token →
    token.kind ≠ .macroDefinition
  /-- Only the innermost call may not have reached its definition, and then it is about to. -/
  reaching : ∀ f outer, m.frames = f :: outer → (∀ g ∈ outer, g.callee ≠ none)
    ∧ (f.callee = none → ∃ token, m.program.token? m.pointer = some token
      ∧ token.kind = .macroDefinition)

theorem Confined.inside {low high : Nat} {m m' : Machine σ} (h : Confined low high m)
    (hturn : Turn high m m') : Inside m := by
  intro hframes
  have hhigh : ¬high ≤ m.pointer := fun hstop => hturn.inside ⟨hframes, hstop⟩
  exact ⟨h.entry, fun token => h.clear m.pointer token (h.pointer hframes) (by omega)⟩

omit [Scope σ] in
/-- The innermost call has reached its definition unless a definition is next. -/
theorem Confined.callee_ne_none {low high : Nat} {m : Machine σ} (h : Confined low high m)
    (hnext : ∀ token, m.program.token? m.pointer = some token → token.kind ≠ .macroDefinition)
    {f : Frame} (hf : f ∈ m.frames) : f.callee ≠ none := by
  cases hframes : m.frames with
  | nil =>
    rw [hframes] at hf
    cases hf
  | cons g outer =>
    obtain ⟨houter, hg⟩ := h.reaching g outer hframes
    rw [hframes] at hf
    rcases List.mem_cons.1 hf with rfl | hf
    · intro hnone
      obtain ⟨token, htoken, hkind⟩ := hg hnone
      exact hnext token htoken hkind
    · exact houter f hf

section Confinement

variable {low high site : Nat} {rest : List Frame} {m m' : Machine σ}

omit [Scope σ] in
/-- A machine that leaves its calls alone stays confined if all of them have been entered. -/
theorem Confined.of_stay (h : Confined low high m) (hprogram : m'.program = m.program)
    (hentered : ∀ f ∈ m.frames, f.callee ≠ none) (hentry : m'.entry = none)
    (hframes : m'.frames = m.frames) (hpointer : m'.pointer = m.pointer + 1) :
    Confined low high m' := by
  refine ⟨hentry, ?_, ?_, by rw [hprogram]; exact h.clear, ?_⟩
  · intro hempty
    have hlow := h.pointer (hframes ▸ hempty)
    omega
  · rw [hframes]
    exact h.outermost
  · intro f outer hcons
    rw [hframes] at hcons
    rw [hcons] at hentered
    exact ⟨fun g hg => hentered g (List.mem_cons_of_mem f hg),
      fun hnone => absurd hnone (hentered f List.mem_cons_self)⟩

omit [Scope σ] in
/-- So it does when it notes a call and goes to the definition of the called macro. -/
theorem Confined.of_open {definition : Token} (h : Confined low high m)
    (hprogram : m'.program = m.program) (hentered : ∀ f ∈ m.frames, f.callee ≠ none)
    (hentry : m'.entry = m.entry) (hframes : m'.frames = ⟨m.pointer, none⟩ :: m.frames)
    (hdefinition : m.program.token? m'.pointer = some definition)
    (hkind : definition.kind = .macroDefinition) : Confined low high m' := by
  refine ⟨hentry.trans h.entry, ?_, ?_, by rw [hprogram]; exact h.clear, ?_⟩
  · intro hempty
    rw [hframes] at hempty
    cases hempty
  · intro site hlast
    rw [hframes, List.map_cons] at hlast
    cases hbefore : m.frames with
    | nil =>
      -- The call is itself the outermost one, and the pointer was on it.
      rw [hbefore] at hlast
      cases hlast
      exact h.pointer hbefore
    | cons g outer =>
      rw [hbefore, List.map_cons, List.getLast?_cons_cons, ← List.map_cons, ← hbefore] at hlast
      exact h.outermost site hlast
  · intro f outer hcons
    rw [hframes] at hcons
    cases hcons
    refine ⟨hentered, fun _ => ⟨definition, ?_, hkind⟩⟩
    rw [hprogram]
    exact hdefinition

omit [Scope σ] in
/-- So it does when it reaches that definition. -/
theorem Confined.of_enter {callee : Definition} (h : Confined low high m)
    (hprogram : m'.program = m.program) (hbefore : m.frames = ⟨site, none⟩ :: rest)
    (hentry : m'.entry = m.entry) (hframes : m'.frames = ⟨site, some callee⟩ :: rest) :
    Confined low high m' := by
  obtain ⟨hrest, _⟩ := h.reaching _ _ hbefore
  refine ⟨hentry.trans h.entry, ?_, ?_, by rw [hprogram]; exact h.clear, ?_⟩
  · intro hempty
    rw [hframes] at hempty
    cases hempty
  · intro site' hlast
    apply h.outermost site'
    rw [hbefore]
    rw [hframes] at hlast
    exact hlast
  · intro f outer hcons
    rw [hframes] at hcons
    cases hcons
    exact ⟨hrest, fun hnone => by cases hnone⟩

omit [Scope σ] in
/-- So it does when it returns, to the token after a call that it has made itself. -/
theorem Confined.of_leave {callee : Option Definition} (h : Confined low high m)
    (hprogram : m'.program = m.program) (hbefore : m.frames = ⟨site, callee⟩ :: rest)
    (hentry : m'.entry = m.entry) (hframes : m'.frames = rest) (hpointer : m'.pointer = site + 1) :
    Confined low high m' := by
  obtain ⟨hrest, _⟩ := h.reaching _ _ hbefore
  refine ⟨hentry.trans h.entry, ?_, ?_, by rw [hprogram]; exact h.clear, ?_⟩
  · intro hempty
    rw [hframes] at hempty
    subst hempty
    have hlow : low ≤ site := h.outermost _ (by rw [hbefore]; rfl)
    omega
  · intro site' hlast
    rw [hframes] at hlast
    apply h.outermost site'
    rw [hbefore]
    cases rest with
    | nil => cases hlast
    | cons g outer =>
      rw [List.map_cons, List.map_cons, List.getLast?_cons_cons]
      exact hlast
  · intro f outer hcons
    rw [hframes] at hcons
    rw [hcons] at hrest
    exact ⟨fun g hg => hrest g (List.mem_cons_of_mem f hg),
      fun hnone => absurd hnone (hrest f List.mem_cons_self)⟩

/-- A turn keeps a machine confined. -/
theorem Confined.turn (h : Confined low high m) (hturn : Turn high m m') :
    Confined low high m' := by
  have hinside := h.inside hturn
  have hprogram := hturn.sameSetting.program
  obtain ⟨token, htoken, hmoves⟩ := hturn.moves
  -- Unless the token is a definition, all calls have been entered before it.
  have hentered : token.kind ≠ .macroDefinition → ∀ f ∈ m.frames, f.callee ≠ none := by
    intro hkind f hf
    refine h.callee_ne_none ?_ hf
    intro token' htoken'
    rw [htoken] at htoken'
    cases htoken'
    exact hkind
  cases hmoves with
  | stay kind alone hframes hhidden hpointer hentry =>
    exact h.of_stay hprogram (hentered kind) (hentry h.entry) hframes hpointer
  | analyse kind hempty hframes => exact absurd kind ((hinside hempty).2 token htoken)
  | finish kind hempty hentry hframes => exact absurd h.entry hentry
  | delegate external call hframes hstack hhalted hpointer hentry =>
    exact h.of_stay hprogram (hentered (by simp [call.kind])) (hentry.trans h.entry) hframes
      hpointer
  | openCall extent kind found hframes hstack hpointer hentry =>
    obtain ⟨_, definition, hdefinition, hkind⟩ := Program.extent_of_findMacro? found
    exact h.of_open hprogram (hentered (by simp [kind])) hentry hframes
      (by rw [hpointer]; exact hdefinition) hkind
  | enter callSite rest kind hbefore hframes hstack hpointer hentry =>
    exact h.of_enter hprogram hbefore hentry hframes
  | leave callSite callee rest kind hbefore hframes hstack hpointer hentry =>
    exact h.of_leave hprogram hbefore hentry hframes hpointer

end Confinement

omit [Scope σ] in
/-- The machine for a macro of another program is confined to the body of the macro. -/
theorem confined_nested (m : Machine σ) (token : Token) (external : External σ) :
    Confined (external.extent.definition + 1) external.extent.stop (m.nested token external) where
  entry := rfl
  pointer _ := Nat.le_refl _
  outermost f hlast := by cases hlast
  clear i token hlow hhigh htoken := by
    obtain ⟨name, hfound⟩ := external.located
    rw [(Program.extent_of_findMacro? hfound).1] at hhigh
    exact Program.kind_ne_macroDefinition_of_lt_blockEnd hlow hhigh htoken
  reaching f outer hcons := by cases hcons

/-- Along the run of such a machine the balance counts what has been left behind. -/
theorem Confined.turns {low high k : Nat} {n a : Machine σ} (hturns : Turns high k n a)
    (hn : Confined low high n) (hempty : n.frames = []) (hgoing : a.halted = false)
    (haccounts : ∀ j < k, ∀ b, Turns high j n b → Accounts b) :
    Confined low high a ∧ ∃ leaks, Balanced [] n.stack.hidden leaks a
      ∧ (leaks = 0 ↔ ∀ j < k, ∀ b, Turns high j n b → Tidy b) := by
  induction hturns with
  | zero n =>
    refine ⟨hn, 0, ⟨[], [], hempty, rfl, rfl⟩, iff_of_true rfl ?_⟩
    intro j hj
    omega
  | succ before last ih =>
    rename_i k n a' a
    obtain ⟨ha', leaks, hbalanced, htidy⟩ := ih hn hempty last.going fun j hj =>
      haccounts j (by omega)
    obtain ⟨more, hbalanced', hmore⟩ := hbalanced.turn last (ha'.inside last)
      (by intro f rest hcons; cases hcons) (Nat.zero_le _) hgoing
      (haccounts k (by omega) a' before)
    refine ⟨ha'.turn last, leaks + more, hbalanced', ?_⟩
    constructor
    · intro hzero j hj b hb
      rcases Nat.lt_or_eq_of_le (Nat.le_of_lt_succ hj) with hlt | rfl
      · exact htidy.1 (by omega) j hlt b hb
      · rw [hb.unique before]
        exact hmore.1 (by omega)
    · intro hall
      have hleaks := htidy.2 fun j hj b hb => hall j (by omega) b hb
      have hmore' := hmore.2 (hall k (by omega) a' before)
      omega

omit [Scope σ] in
theorem entered_eq_length {frames : List Frame} (h : ∀ f ∈ frames, f.callee ≠ none) :
    entered frames = frames.length := by
  rw [entered, List.countP_eq_length]
  intro f hf
  exact Option.isSome_iff_ne_none.2 (h f hf)

/-- Whatever the machines that a turn starts leave behind is accounted for. -/
theorem accounts (m : Machine σ) : Accounts m := by
  -- Every turn of a nested machine has fewer steps left than the turn that started it.
  induction hleft : m.limits.steps - m.steps using Nat.strongRecOn generalizing m with
  | ind left ih =>
    intro token external call hdone
    obtain ⟨K, hturns, hrests⟩ := exists_turns_runTo rfl hdone
    have hinner : ∀ j < K, ∀ b, Turns external.extent.stop j (m.nested token external) b →
        Accounts b := by
      intro j hj b hb
      obtain ⟨c, hturn⟩ := hturns.turn_of_lt hj hb
      have hbudget := hturn.budget
      have hsteps : m.steps + 1 ≤ b.steps := hb.steps_le
      have hlimits : b.limits = m.limits := hb.sameSetting.limits
      exact ih _ (by rw [hlimits] at hbudget ⊢; omega) b rfl
    obtain ⟨hconfined, leaks, ⟨inner, parts, hframes, hhidden, hlen⟩, htidy⟩ :=
      (confined_nested m token external).turns hturns rfl hdone hinner
    refine ⟨parts, hhidden, ?_⟩
    have hentered : entered inner = inner.length := by
      apply entered_eq_length
      rw [List.append_nil] at hframes
      rw [← hframes]
      rcases hrests with hnone | ⟨hempty, _⟩
      · intro f hf
        refine hconfined.callee_ne_none ?_ hf
        intro token' htoken'
        rw [hnone] at htoken'
        cases htoken'
      · intro f hf
        rw [hempty] at hf
        cases hf
    have hparts : parts = [] ↔ inner = [] ∧ leaks = 0 := by
      rw [← List.length_eq_zero_iff, ← List.length_eq_zero_iff (l := inner)]
      omega
    have hall : (∀ j < K, ∀ b, Turns external.extent.stop j (m.nested token external) b → Tidy b)
        ↔ ∀ k n n', Turns external.extent.stop k (m.nested token external) n →
          Turn external.extent.stop n n' → Tidy n := by
      constructor
      · intro h k n n' hk hturn
        exact h k (hrests.lt_of_turn hturns hk hturn) n hk
      · intro h j hj b hb
        obtain ⟨c, hturn⟩ := hturns.turn_of_lt hj hb
        exact h j b c hb hturn
    rw [hparts, htidy, hall, call.tidy_iff, hframes, List.append_nil]

end HuffTrace.Machine
