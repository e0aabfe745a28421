/-
  HuffTrace.Proofs.Machine.Coverage

  What an execution covers.  Outside of any call the machine goes through its
  program position by position, and a call leads back to the position after it
  (`outside_eq_range`).  So all of the program is executed if every call
  returns, and that is so exactly if no call leads to a macro whose body ends
  only with the program: nothing there leads back.

  The parts of the stack that calls have hidden are counted as well.  With no
  call open there are as many as the machines for other programs have left
  behind since the last macro was begun (`debt`).
-/

import HuffTrace.Proofs.Machine.Bracket

namespace HuffTrace.Machine

variable {σ : Type} [Scope σ]

/-! ## Positions outside of calls -/

/-- Where the machine goes on outside of any call. -/
def resumption (m : Machine σ) : Nat :=
  match m.frames.getLast? with
  | some frame => frame.callSite + 1
  | none => m.pointer

/-- The positions executed outside of any call in a number of turns, in order. -/
def outside (m : Machine σ) (n : Nat) : List Nat :=
  ((List.range n).filter fun j => (m.later j).frames.isEmpty).map fun j => (m.later j).pointer

omit [Scope σ] in
theorem resumption_of_nil {m : Machine σ} (h : m.frames = []) : m.resumption = m.pointer := by
  rw [resumption, h]
  rfl

omit [Scope σ] in
theorem resumption_of_getLast? {m : Machine σ} {frame : Frame}
    (h : m.frames.getLast? = some frame) : m.resumption = frame.callSite + 1 := by
  rw [resumption, h]

/-- A turn that neither opens nor ends a call moves to the next token. -/
theorem Turn.pointer_eq {stop : Nat} {m m' : Machine σ} (h : Turn stop m m')
    (hlength : m'.frames.length = m.frames.length) : m'.pointer = m.pointer + 1 := by
  obtain ⟨token, _, hturned⟩ := h.turned
  obtain ⟨anchor, after, comments, hacts, hafter⟩ :=
    turn_acts (fun stop n => n.runTo stop) m token
  rw [hturned, hafter] at hlength ⊢
  cases hacts with
  | push v _ => rw [push_eq, work_eq]; rfl
  | opcode op _ => rw [runOpcode, work_eq]; rfl
  | leave _ _ _ _ outer hframes _ =>
    have hlength' : outer.length = (m.advance token).frames.length := hlength
    rw [hframes, List.length_cons] at hlength'
    omega
  | openCall _ _ _ _ =>
    have hlength' : m.frames.length + 1 = m.frames.length := hlength
    omega
  | _ => rfl

/-- A turn outside of any call moves the resumption on by one. -/
theorem Turn.resumption_of_nil {stop : Nat} {m m' : Machine σ} (h : Turn stop m m')
    (hempty : m.frames = []) : m'.resumption = m.pointer + 1 := by
  have hstay : m'.frames = [] → m'.resumption = m.pointer + 1 := by
    intro hempty'
    rw [Machine.resumption_of_nil hempty']
    exact h.pointer_eq (by rw [hempty, hempty'])
  obtain ⟨token, htoken, hmoves⟩ := h.moves
  cases hmoves with
  | stay kind alone frames hidden pointer entry => exact hstay (frames.trans hempty)
  | analyse kind empty frames => exact hstay frames
  | finish kind empty entry frames => exact hstay frames
  | delegate external call frames stack halted pointer entry => exact hstay (frames.trans hempty)
  | openCall extent kind found frames stack pointer entry =>
    exact resumption_of_getLast? (by rw [frames, hempty]; rfl)
  | enter callSite outer kind before frames stack pointer entry =>
    rw [hempty] at before
    cases before
  | leave callSite callee outer kind before frames stack pointer entry =>
    rw [hempty] at before
    cases before

/-- A turn within a call leaves the resumption as it is. -/
theorem Turn.resumption_of_getLast? {stop : Nat} {m m' : Machine σ} {frame : Frame}
    (h : Turn stop m m') (hlast : m.frames.getLast? = some frame) :
    m'.resumption = m.resumption := by
  have hne : m.frames ≠ [] := by
    intro hempty
    rw [hempty] at hlast
    cases hlast
  rw [Machine.resumption_of_getLast? hlast]
  obtain ⟨token, htoken, hmoves⟩ := h.moves
  cases hmoves with
  | stay kind alone frames hidden pointer entry =>
    exact Machine.resumption_of_getLast? (by rw [frames]; exact hlast)
  | analyse kind empty frames => exact absurd empty hne
  | finish kind empty entry frames => exact absurd empty hne
  | delegate external call frames stack halted pointer entry =>
    exact Machine.resumption_of_getLast? (by rw [frames]; exact hlast)
  | openCall extent kind found frames stack pointer entry =>
    apply Machine.resumption_of_getLast?
    obtain ⟨f, outer, hcons⟩ := List.exists_cons_of_ne_nil hne
    rw [frames, hcons, List.getLast?_cons_cons, ← hcons]
    exact hlast
  | enter callSite outer kind before frames stack pointer entry =>
    rw [before] at hlast
    cases outer with
    | nil =>
      obtain rfl : ⟨callSite, none⟩ = frame := by simpa using hlast
      have hlast' : m'.frames.getLast? = some ⟨callSite, some (m.definitionAt m.pointer)⟩ := by
        rw [frames]
        rfl
      rw [Machine.resumption_of_getLast? hlast']
    | cons g outer =>
      apply Machine.resumption_of_getLast?
      rw [frames, List.getLast?_cons_cons]
      rwa [List.getLast?_cons_cons] at hlast
  | leave callSite callee outer kind before frames stack pointer entry =>
    rw [before] at hlast
    cases outer with
    | nil =>
      obtain rfl : ⟨callSite, some callee⟩ = frame := by simpa using hlast
      rw [Machine.resumption_of_nil frames, pointer]
    | cons g outer =>
      apply Machine.resumption_of_getLast?
      rw [frames]
      rwa [List.getLast?_cons_cons] at hlast

/-- Outside of any call the positions up to the resumption have been executed, each once and
    in order. -/
theorem Turns.outside_eq_range {stop n : Nat} {m m' : Machine σ} (h : Turns stop n m m')
    (hempty : m.frames = []) (hstart : m.pointer = 0) :
    m.outside n = List.range m'.resumption ∧ m'.resumption ≤ m.program.size := by
  induction h with
  | zero m =>
    rw [resumption_of_nil hempty, hstart]
    exact ⟨rfl, Nat.zero_le _⟩
  | succ before last ih =>
    rename_i n m a b
    obtain ⟨hrange, hle⟩ := ih hempty hstart
    have hprogram := before.sameSetting.program
    have hsplit : m.outside (n + 1)
        = m.outside n ++ (if a.frames.isEmpty then [a.pointer] else []) := by
      rw [outside, List.range_succ, List.filter_append, List.map_append, before.eq_later]
      congr 1
      by_cases hhere : (m.later n).frames.isEmpty <;> simp [hhere]
    cases hframes : a.frames.getLast? with
    | none =>
      have hnil : a.frames = [] := List.getLast?_eq_none_iff.1 hframes
      obtain ⟨token, htoken, _⟩ := last.turned
      have hsize : a.pointer < a.program.size := (Array.getElem?_eq_some_iff.1 htoken).1
      rw [last.resumption_of_nil hnil, hsplit, hrange, hnil, resumption_of_nil hnil]
      exact ⟨List.range_succ.symm, hprogram ▸ hsize⟩
    | some frame =>
      have hne : a.frames.isEmpty = false := by
        cases hlist : a.frames with
        | nil => rw [hlist] at hframes; cases hframes
        | cons => rfl
      rw [last.resumption_of_getLast? hframes, hsplit, hrange, hne]
      exact ⟨by simp, hle⟩

/-- Up to a position, the loop does not go past it outside of any call. -/
theorem Turns.resumption_le {stop n : Nat} {m m' : Machine σ} (h : Turns stop n m m')
    (hempty : m.frames = []) (hstart : m.pointer ≤ stop) : m'.resumption ≤ stop := by
  induction h with
  | zero m =>
    rw [resumption_of_nil hempty]
    exact hstart
  | succ before last ih =>
    rename_i n m a b
    cases hframes : a.frames.getLast? with
    | none =>
      have hnil : a.frames = [] := List.getLast?_eq_none_iff.1 hframes
      have hinside : ¬stop ≤ a.pointer := fun hstop => last.inside ⟨hnil, hstop⟩
      rw [last.resumption_of_nil hnil]
      omega
    | some frame =>
      rw [last.resumption_of_getLast? hframes]
      exact ih hempty hstart

/-! ## Calls that return -/

/-- The calls that are open are among those that were opened. -/
theorem Turns.bracketed {stop n : Nat} {m m' : Machine σ} (h : Turns stop n m m')
    (hempty : m.frames = []) {P : Extent → Prop}
    (hopens : ∀ j < n, ∀ extent, Opens (m.later j) extent → P extent) :
    ∃ extents, Bracketed m'.program extents m'.frames m'.pointer ∧ ∀ e ∈ extents, P e := by
  induction h with
  | zero m =>
    rw [hempty]
    exact ⟨[], .outside _, nofun⟩
  | succ before last ih =>
    rename_i n m a b
    obtain ⟨extents, hbracketed, hall⟩ := ih hempty fun j hj => hopens j (by omega)
    obtain ⟨extents', hbracketed', hchange⟩ := hbracketed.turn last
    refine ⟨extents', hbracketed', ?_⟩
    rcases hchange with rfl | ⟨extent, hnew, rfl⟩ | ⟨extent, rfl, _⟩
    · exact hall
    · rw [before.eq_later] at hnew
      intro e he
      rcases List.mem_cons.1 he with rfl | he
      · exact hopens n (by omega) e hnew
      · exact hall e he
    · exact fun e he => hall e (List.mem_cons_of_mem _ he)

/-- A call of a macro that ends only with the program stays open. -/
theorem Turns.mem_extents {stop n : Nat} {m m' : Machine σ} {extent : Extent}
    {extents : List Extent} (h : Turns stop n m m')
    (hbracketed : Bracketed m.program extents m.frames m.pointer)
    (hmem : extent ∈ extents) (hlast : ¬extent.stop < m.program.size) :
    ∃ extents', Bracketed m'.program extents' m'.frames m'.pointer ∧ extent ∈ extents' := by
  induction h with
  | zero m => exact ⟨extents, hbracketed, hmem⟩
  | succ before last ih =>
    obtain ⟨extents', hbracketed', hmem'⟩ := ih hbracketed hlast
    obtain ⟨extents'', hbracketed'', hchange⟩ := hbracketed'.turn last
    refine ⟨extents'', hbracketed'', ?_⟩
    rcases hchange with rfl | ⟨other, _, rfl⟩ | ⟨other, rfl, hends⟩
    · exact hmem'
    · exact List.mem_cons_of_mem _ hmem'
    · rcases List.mem_cons.1 hmem' with rfl | hmem'
      · rw [before.sameSetting.program] at hends
        exact absurd hends hlast
      · exact hmem'

/-- With a call open whose macro ends before the program does, there is a next token. -/
theorem Bracketed.exists_token {program : Program} {extents : List Extent} {frames : List Frame}
    {pointer : Nat} (h : Bracketed program extents frames pointer) (hopen : frames ≠ [])
    (hends : ∀ e ∈ extents, e.stop < program.size) :
    ∃ token, program.token? pointer = some token := by
  cases h with
  | outside pointer => exact absurd rfl hopen
  | reaching call entered around =>
    obtain ⟨_, token, htoken, _⟩ := call.extent
    exact ⟨token, htoken⟩
  | within call entered around low high =>
    have hstop := hends _ List.mem_cons_self
    exact ⟨_, Array.getElem?_eq_getElem (show pointer < program.tokens.size from by
      exact Nat.lt_of_le_of_lt high hstop)⟩

/-- A turn that opens a call has it open afterwards. -/
theorem Bracketed.mem_of_opens {stop : Nat} {m m' : Machine σ} {extent : Extent}
    {extents : List Extent} (h : Bracketed m.program extents m.frames m.pointer)
    (hopens : Opens m extent) (hturn : Turn stop m m') :
    ∃ extents', Bracketed m'.program extents' m'.frames m'.pointer ∧ extent ∈ extents' := by
  obtain ⟨extents', hbracketed, hchange⟩ := h.turn hturn
  have hframes := hturn.frames_of_calls hopens.call
  rw [if_neg (Nat.not_le.2 hopens.room)] at hframes
  have hlength := hbracketed.length_eq
  rw [hframes, List.length_cons, ← h.length_eq] at hlength
  refine ⟨extents', hbracketed, ?_⟩
  rcases hchange with rfl | ⟨other, hother, rfl⟩ | ⟨other, rfl, _⟩
  · omega
  · rw [hopens.call.unique hother.call]
    exact List.mem_cons_self
  · rw [List.length_cons] at hlength
    omega

/-- A run that comes to rest has no call open if every call that it opened is of a macro that
    ends before the program. -/
theorem Turns.frames_eq_nil_of_ends {stop n : Nat} {m m' : Machine σ} (h : Turns stop n m m')
    (hempty : m.frames = []) (hrests : Rests stop m')
    (hends : ∀ j < n, ∀ extent, Opens (m.later j) extent → extent.stop < m.program.size) :
    m'.frames = [] := by
  obtain ⟨extents, hbracketed, hall⟩ := h.bracketed hempty hends
  rcases hrests with hnone | ⟨hdone, _⟩
  · by_contra hopen
    rw [h.sameSetting.program] at hbracketed hnone
    obtain ⟨token, htoken⟩ := hbracketed.exists_token hopen hall
    rw [hnone] at htoken
    cases htoken
  · exact hdone

/-- A run that comes to rest has no call open exactly if no call that it opened is of a macro
    that ends only with the program. -/
theorem Turns.frames_eq_nil_iff {n : Nat} {m m' : Machine σ} (h : Turns m.program.size n m m')
    (hempty : m.frames = []) (hrests : Rests m.program.size m') :
    m'.frames = []
      ↔ ∀ j < n, ∀ extent, Opens (m.later j) extent → extent.stop < m.program.size := by
  constructor
  · intro hdone j hj extent hopens
    by_contra hlast
    -- The call is open after its own turn, and then until the end.
    obtain ⟨extents, hbracketed, -⟩ := (h.upTo (Nat.le_of_lt hj)).bracketed hempty
      (P := fun _ => True) fun _ _ _ _ => trivial
    obtain ⟨opened, hopened, hmem⟩ := hbracketed.mem_of_opens hopens (h.turn_later hj)
    have hsame := (h.upTo hj).sameSetting.program
    obtain ⟨extents', hbracketed', hmem'⟩ :=
      (h.since hj).mem_extents hopened hmem (by rw [hsame]; exact hlast)
    rw [hdone] at hbracketed'
    cases hbracketed'
    cases hmem'
  · exact h.frames_eq_nil_of_ends hempty hrests

/-- A run that comes to rest with no call open has executed every position outside of any
    call. -/
theorem Turns.outside_of_rests {n : Nat} {m m' : Machine σ} (h : Turns m.program.size n m m')
    (hempty : m.frames = []) (hstart : m.pointer = 0) (hrests : Rests m.program.size m')
    (hdone : m'.frames = []) : m.outside n = List.range m.program.size := by
  obtain ⟨hrange, hle⟩ := h.outside_eq_range hempty hstart
  rw [resumption_of_nil hdone] at hrange hle
  have hsize : m.program.size ≤ m'.pointer := by
    rcases hrests with hnone | ⟨_, hstop⟩
    · rw [h.sameSetting.program] at hnone
      exact Array.getElem?_eq_none_iff.1 hnone
    · exact hstop
  rw [hrange, Nat.le_antisymm hle hsize]

/-! ## Hidden parts -/

/-- The analysis of a macro on its own is about to start. -/
def Begins (m : Machine σ) : Prop :=
  m.frames = [] ∧ (m.program.token? m.pointer).map (·.kind) = some .macroDefinition

/-- The analysis of a macro on its own is about to end at the end of its body. -/
def Finishes (m : Machine σ) : Prop :=
  m.frames = [] ∧ (m.program.token? m.pointer).map (·.kind) = some .blockEnd
    ∧ m.entry.map (·.extent.stop) = some m.pointer

instance (m : Machine σ) : Decidable m.Begins := inferInstanceAs (Decidable (_ ∧ _))

instance (m : Machine σ) : Decidable m.Finishes := inferInstanceAs (Decidable (_ ∧ _ ∧ _))

/-- The hidden parts that the next turn adds by a machine for another program, which ends with
    more of them than it started with. -/
def strays (m : Machine σ) : Nat :=
  match m.program.token? m.pointer with
  | none => 0
  | some token =>
    if token.kind = .call ∧ m.depth < m.limits.callDepth
        ∧ m.program.findMacro? token.name = none then
      match Scope.findMacro? m.scope token.name with
      | none => 0
      | some external =>
        ((m.nested token external).runTo external.extent.stop).stack.frameCount
          - (m.nested token external).stack.frameCount
    else 0

/-- The hidden parts after a number of turns that belong to no call: a macro that begins drops
    them, a macro that finishes takes one for its own, and machines for other programs add to
    them. -/
def debt (m : Machine σ) : Nat → Nat
  | 0 => 0
  | j + 1 =>
    if (m.later j).Begins then 0
    else if (m.later j).Finishes then m.debt j - 1
    else m.debt j + (m.later j).strays

theorem Delegates.strays_eq {m : Machine σ} {token : Token} {external : External σ}
    (call : Delegates m token external) :
    m.strays = ((m.nested token external).runTo external.extent.stop).stack.frameCount
      - (m.nested token external).stack.frameCount := by
  rw [strays, call.here]
  simp only [call.found]
  exact if_pos ⟨call.kind, call.room, call.missing⟩

theorem strays_of_alone {m : Machine σ} {token : Token}
    (htoken : m.program.token? m.pointer = some token)
    (halone : ∀ external, ¬Delegates m token external) : m.strays = 0 := by
  rw [strays, htoken]
  simp only
  split
  · next hcall =>
    split
    · rfl
    · next external hfound =>
      exact absurd ⟨htoken, hcall.1, hcall.2.1, hcall.2.2, hfound⟩ (halone external)
  · rfl

/-- A turn adds no such parts exactly if it is tidy. -/
theorem Turn.strays_eq_zero_iff {stop : Nat} {m m' : Machine σ} (h : Turn stop m m')
    (hgoing : m'.halted = false) : m.strays = 0 ↔ Tidy m := by
  obtain ⟨token, htoken, _⟩ := h.turned
  by_cases hcall : ∃ external, Delegates m token external
  · obtain ⟨external, call⟩ := hcall
    have hdone : ((m.nested token external).runTo external.extent.stop).halted = false := by
      rw [h.eq_turn htoken, (call.turn_eq _).2.2, h.going, Bool.false_or] at hgoing
      exact hgoing
    obtain ⟨parts, hparts, htidy⟩ := accounts m token external call hdone
    rw [call.strays_eq, ← htidy, Stack.frameCount, Stack.frameCount, hparts, List.length_append,
      Nat.add_sub_cancel, List.length_eq_zero_iff]
  · have halone : ∀ external, ¬Delegates m token external := not_exists.1 hcall
    exact iff_of_true (strays_of_alone htoken halone) (tidy_of_token htoken halone)

/-- A macro that begins finds nothing hidden. -/
theorem Turn.hidden_of_begins {stop : Nat} {m m' : Machine σ} (h : Turn stop m m')
    (hbegins : m.Begins) : m'.frames = [] ∧ m'.stack.hidden = [] := by
  obtain ⟨hempty, hkind⟩ := hbegins
  obtain ⟨token, htoken, hkind⟩ := Option.map_eq_some_iff.1 hkind
  have hempty' : (m.advance token).frames = [] := hempty
  rw [h.eq_turn htoken, turn_eq, step, hkind]
  show ((m.advance token).define m.pointer token).2.frames = []
    ∧ ((m.advance token).define m.pointer token).2.stack.hidden = []
  simp only [define, foldl_record, hempty']
  exact ⟨trivial, rfl⟩

/-- A brace outside of any call takes a hidden part exactly if it ends the analysis of a macro
    at the end of its body. -/
theorem Turn.hidden_of_brace {stop : Nat} {m m' : Machine σ} {token : Token} (h : Turn stop m m')
    (htoken : m.program.token? m.pointer = some token) (hkind : token.kind = .blockEnd)
    (hempty : m.frames = []) :
    m'.frames = []
      ∧ m'.stack.hidden = if m.Finishes then m.stack.hidden.tail else m.stack.hidden := by
  have hempty' : (m.advance token).frames = [] := hempty
  have hfinishes : m.Finishes ↔ m.entry.map (·.extent.stop) = some m.pointer := by
    simp only [Finishes, hempty, htoken, Option.map_some, hkind, true_and]
  rw [h.eq_turn htoken, turn_eq, step, hkind]
  show ((m.advance token).closeBlock m.pointer).2.frames = []
    ∧ ((m.advance token).closeBlock m.pointer).2.stack.hidden = _
  rw [closeBlock, hempty']
  simp only [hfinishes]
  cases hentry : m.entry with
  | none =>
    have hentry' : (m.advance token).entry = none := hentry
    simp only [hentry', Option.map_none, reduceCtorEq, if_false]
    exact ⟨hempty, rfl⟩
  | some entry =>
    have hentry' : (m.advance token).entry = some entry := hentry
    simp only [hentry', Option.map_some, Option.some.injEq]
    split
    · exact ⟨rfl, rfl⟩
    · exact ⟨rfl, rfl⟩

/-- What a turn does to the number of hidden parts that belong to no call. -/
theorem Turn.frameCount_eq {stop extra : Nat} {m m' : Machine σ} (h : Turn stop m m')
    (hgoing : m'.halted = false) (hcount : m.stack.frameCount = entered m.frames + extra) :
    m'.stack.frameCount = entered m'.frames
      + (if m.Begins then 0 else if m.Finishes then extra - 1 else extra + m.strays) := by
  unfold Stack.frameCount at hcount ⊢
  by_cases hbegins : m.Begins
  · obtain ⟨hframes, hhidden⟩ := h.hidden_of_begins hbegins
    rw [if_pos hbegins, hframes, hhidden]
    rfl
  rw [if_neg hbegins]
  obtain ⟨token, htoken, hmoves⟩ := h.moves
  by_cases hbrace : m.frames = [] ∧ token.kind = .blockEnd
  · obtain ⟨hempty, hkind⟩ := hbrace
    obtain ⟨hframes, hhidden⟩ := h.hidden_of_brace htoken hkind hempty
    rw [hempty] at hcount
    rw [hframes, hhidden, strays_of_alone htoken (not_delegates_of_kind (by simp [hkind]))]
    simp only [entered, List.countP_nil, Nat.zero_add, Nat.add_zero] at hcount ⊢
    split
    · rw [List.length_tail, hcount]
    · exact hcount
  have hfinishes : ¬m.Finishes := by
    rintro ⟨hempty, hkind, _⟩
    rw [htoken] at hkind
    exact hbrace ⟨hempty, Option.some.inj hkind⟩
  rw [if_neg hfinishes]
  -- From here on a part is hidden or revealed only together with a frame, unless a machine for
  -- another program runs.
  cases hmoves with
  | stay kind alone frames hidden pointer entry =>
    rw [frames, hidden, strays_of_alone htoken alone]
    exact hcount
  | analyse kind empty frames => exact absurd ⟨empty, by rw [htoken, Option.map_some, kind]⟩ hbegins
  | finish kind empty entry frames => exact absurd ⟨empty, kind⟩ hbrace
  | openCall extent kind found frames stack pointer entry =>
    have halone : ∀ external, ¬Delegates m token external := by
      intro external call
      have hmissing := call.missing
      rw [found] at hmissing
      cases hmissing
    rw [frames, stack, strays_of_alone htoken halone]
    exact hcount
  | enter callSite outer kind before frames stack pointer entry =>
    rw [before] at hcount
    rw [frames, stack, strays_of_alone htoken (not_delegates_of_kind (by simp [kind]))]
    simp only [entered, Stack.hide, List.length_cons, List.countP_cons, Option.isSome_none,
      Option.isSome_some, Bool.false_eq_true, if_false, if_true] at hcount ⊢
    omega
  | leave callSite callee outer kind before frames stack pointer entry =>
    have hkind : token.kind ≠ .call := by rcases kind with kind | kind <;> simp [kind]
    rw [before] at hcount
    rw [frames, stack, strays_of_alone htoken (not_delegates_of_kind hkind)]
    simp only [entered, Stack.reveal, List.length_tail, List.countP_cons, Option.isSome_some,
      if_true] at hcount ⊢
    omega
  | delegate external call frames stack halted pointer entry =>
    obtain ⟨parts, hparts, -⟩ := accounts m token external call (halted.symm.trans hgoing)
    rw [frames, stack, call.strays_eq]
    simp only [Stack.reveal, Stack.frameCount, hparts, hidden_nested, List.length_tail,
      List.length_append, List.length_cons]
    omega

/-- Throughout a run there is one hidden part for each call that is entered, and those that
    belong to no call. -/
theorem Turns.frameCount_eq {stop n : Nat} {m m' : Machine σ} (h : Turns stop n m m')
    (hgoing : m'.halted = false) (hempty : m.frames = []) (hhidden : m.stack.hidden = []) :
    m'.stack.frameCount = entered m'.frames + m.debt n := by
  induction h with
  | zero m =>
    rw [hempty, Stack.frameCount, hhidden]
    rfl
  | succ before last ih =>
    rename_i n m a b
    rw [last.frameCount_eq hgoing (ih last.going hempty hhidden), before.eq_later, debt]

/-- Where every turn is tidy, all hidden parts belong to calls. -/
theorem Turns.debt_of_tidy {stop n : Nat} {m m' : Machine σ} (h : Turns stop n m m')
    (hgoing : m'.halted = false) (htidy : ∀ j < n, Tidy (m.later j)) : m.debt n = 0 := by
  induction h with
  | zero m => rfl
  | succ before last ih =>
    rename_i n m a b
    have hbefore := ih last.going fun j hj => htidy j (by omega)
    have hstrays : (m.later n).strays = 0 := by
      rw [before.eq_later] at last
      exact (last.strays_eq_zero_iff hgoing).2 (htidy n (by omega))
    rw [debt, hbefore, hstrays]
    split
    · rfl
    · split <;> rfl

/-! ## Executions -/

/-- An execution with steps enough ends with no call open and nothing hidden and has executed
    every position of the program once outside of any call, in order, exactly if no call was
    opened of a macro that ends only with the program and machines for other programs left
    nothing hidden behind; they leave nothing behind if all turns are tidy. -/
theorem execute_covers_iff (program : Program) (scope : σ) (limits : Limits)
    (h : (start program scope limits).execute.halted = false) :
    ∃ n, Turns program.size n (start program scope limits) (start program scope limits).execute
      ∧ ((start program scope limits).execute.frames = []
          ∧ (start program scope limits).execute.stack.frameCount = 0
          ∧ (start program scope limits).outside n = List.range program.size
        ↔ (∀ j < n, ∀ extent, Opens ((start program scope limits).later j) extent →
            extent.stop < program.size)
          ∧ (start program scope limits).debt n = 0)
      ∧ ((∀ j < n, Tidy ((start program scope limits).later j)) →
        (start program scope limits).debt n = 0) := by
  rw [execute_start] at h ⊢
  obtain ⟨n, hturns, hrests⟩ := exists_turns_runTo rfl h
  refine ⟨n, hturns, ?_, hturns.debt_of_tidy h⟩
  have hframes := Turns.frames_eq_nil_iff (m := start program scope limits) hturns rfl hrests
  have hcount := hturns.frameCount_eq h rfl rfl
  constructor
  · rintro ⟨hdone, hzero, _⟩
    refine ⟨hframes.1 hdone, ?_⟩
    rw [hzero] at hcount
    omega
  · rintro ⟨hends, hdebt⟩
    have hdone := hframes.2 hends
    refine ⟨hdone, ?_, Turns.outside_of_rests (m := start program scope limits) hturns rfl rfl
      hrests hdone⟩
    rw [hdone, hdebt] at hcount
    exact hcount

/-- A program that calls its last macro, whose body is closed or not. -/
def callingLast (closed : Bool) : Program :=
  let tokens : List Token :=
    [⟨.macroDefinition, "#define macro MAIN() = takes(0) returns(0) \x7b", 1, 1⟩,
      ⟨.call, "LAST()", 2, 2⟩, ⟨.literal, "0x02", 3, 3⟩, ⟨.blockEnd, "\x7d", 4, 4⟩,
      ⟨.macroDefinition, "#define macro LAST() = takes(0) returns(0) \x7b", 5, 5⟩,
      ⟨.literal, "0x01", 6, 6⟩]
  let brace : Token := ⟨.blockEnd, "\x7d", 7, 7⟩
  .ofTokens (if closed then tokens ++ [brace] else tokens).toArray

/-- The machine before the first token of such a program. -/
def beforeLast (closed : Bool) : Machine Isolated :=
  start (callingLast closed) .isolated { steps := 16 }

theorem execute_covers_iff_closed :
    (beforeLast true).execute.halted = false
      ∧ ∃ n, Turns 7 n (beforeLast true) (beforeLast true).execute
        ∧ ((beforeLast true).execute.frames = [] ∧ (beforeLast true).execute.stack.frameCount = 0
            ∧ (beforeLast true).outside n = List.range 7
          ↔ (∀ j < n, ∀ extent, Opens ((beforeLast true).later j) extent → extent.stop < 7)
            ∧ (beforeLast true).debt n = 0)
        ∧ ((∀ j < n, Tidy ((beforeLast true).later j)) → (beforeLast true).debt n = 0) :=
  ⟨by decide +kernel,
    execute_covers_iff (callingLast true) Isolated.isolated { steps := 16 } (by decide +kernel)⟩

/-- With the last macro never closed, its call is open at the end, and of the macro that makes
    the call the rest is not executed. -/
theorem execute_stops_in_unclosed_macro :
    (beforeLast false).execute.halted = false
      ∧ ∃ n, Turns 6 n (beforeLast false) (beforeLast false).execute
        ∧ (beforeLast false).execute.frames ≠ []
        ∧ (beforeLast false).execute.stack.frameCount ≠ 0
        ∧ (beforeLast false).outside n = [0, 1] := by
  have hgoes : ∀ j < 4, ((beforeLast false).later j).Goes 6 := by decide +kernel
  have hlast : ((beforeLast false).later 4).halted = false
      ∧ ((beforeLast false).later 4).program.token? ((beforeLast false).later 4).pointer = none
      ∧ ((beforeLast false).later 4).frames ≠ []
      ∧ ((beforeLast false).later 4).stack.frameCount ≠ 0
      ∧ (beforeLast false).outside 4 = [0, 1] := by
    decide +kernel
  obtain ⟨hgoing, hnone, hframes, hcount, houtside⟩ := hlast
  have hturns : Turns 6 4 (beforeLast false) ((beforeLast false).later 4) :=
    turns_later fun j hj => (hgoes j hj).turn_later
  have hends : (beforeLast false).execute = (beforeLast false).later 4 :=
    (hturns.runTo_eq hgoing).trans (Rests.runTo_eq (.inl hnone))
  rw [hends]
  exact ⟨hgoing, 4, hturns, hframes, hcount, houtside⟩

end HuffTrace.Machine
