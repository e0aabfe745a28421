/-
  HuffTrace.Proofs.Evm.StraightLine

  Running straight-line code from an empty machine.  A token of such code is
  one operation on the workspace (`Step.works`), so a turn of the loop moves
  the machine along with the concrete one (`OnTrack.turn`), and
  `straightLine_agrees` follows by induction on the number of turns: after
  every token the two have equally deep stacks, and whatever the symbolic
  machine claims to know is so.
-/

import HuffTrace.Proofs.Evm.Simulation

namespace HuffTrace.Evm

variable {σ : Type} [Scope σ]

/-- A token names regions of memory only if they are known and within the limit. -/
def TokenAccepted (limit : Nat) (token : Token) (values : List Value) : Prop :=
  ∀ op, token.kind = .opcode op → Accepted limit op values

/-! ## Tokens -/

/-- A literal shows the word that it stands for. -/
theorem shows_literal {text : String} {x : Word}
    (hx : ∀ n, Word.numeral? text = some n → n < 2 ^ 256 → x = BitVec.ofNat 256 n) :
    Shows (.literal text) x := by
  unfold Value.literal
  split
  · next word hparse =>
    have hword : x = word := by
      rw [hx word.toNat (Word.numeral?_of_parse hparse) word.isLt, BitVec.ofNat_toNat,
        BitVec.setWidth_eq]
    rw [hword]
    intro w hw
    exact (Option.some.inj hw).symm
  · exact shows_symbolic _ _

theorem tracks_pushed {w : Workspace} {stack : List Word} {memory : Nat → UInt8}
    (h : Tracks w ⟨stack, memory⟩) {v : Value} {x : Word} (hv : Shows v x)
    (room : stack.length < Stack.maxDepth) : Follows w (w.push v) ⟨x :: stack, memory⟩ := by
  have hroom : w.stack.visible.length < Stack.maxDepth := by
    rw [h.stack.length_eq]
    exact room
  have hpush : w.push v = w.withVisible (v :: w.stack.visible) :=
    Workspace.push_withVisible w v hroom
  rw [hpush]
  exact follows_withVisible h (.cons hv h.stack)

/-- A token of straight-line code is one operation on the workspace, and the operation
    follows the concrete machine. -/
theorem Step.works {token : Token} {c c' : State} (hstep : Step token c c') {limits : Limits}
    {w : Workspace} (h : Tracks w c) (haccepted : TokenAccepted limits.memory token w.stack.visible)
    (room : c'.stack.length ≤ Stack.maxDepth) :
    ∃ operation : Workspace → Workspace, Follows w (operation w) c'
      ∧ ∀ (run : Nat → Machine σ → Machine σ) (m : Machine σ) (position : Nat),
        m.limits = limits → m.step run position token = (some position, m.work operation) := by
  cases hstep with
  | literal kind x stack memory hx =>
    refine ⟨(·.push (.literal token.text)), tracks_pushed h (shows_literal hx) room, ?_⟩
    intro run m position _
    rw [Machine.step, kind]
    rfl
  | symbol kind x stack memory =>
    obtain ⟨text, htext⟩ : ∃ text, ∀ (run : Nat → Machine σ → Machine σ) (m : Machine σ) position,
        m.step run position token = (some position, m.push (.symbolic text)) := by
      obtain kind | kind | kind := kind
      · exact ⟨token.name, fun run m position => by rw [Machine.step, kind]⟩
      · exact ⟨token.text, fun run m position => by rw [Machine.step, kind]⟩
      · exact ⟨token.text, fun run m position => by rw [Machine.step, kind]⟩
    refine ⟨(·.push (.symbolic text)), tracks_pushed h (shows_symbolic text x) room, ?_⟩
    intro run m position _
    exact htext run m position
  | opcode kind heffect =>
    refine ⟨_, heffect.tracks h (haccepted _ kind) room, ?_⟩
    intro run m position hlimits
    rw [Machine.step, kind, ← hlimits]
    rfl

/-! ## Runs -/

/-- The machine has executed the first `k` tokens of a program and tracks a state. -/
structure OnTrack (program : Program) (limits : Limits) (k : Nat) (m : Machine σ) (c : State) :
    Prop where
  program : m.program = program
  limits : m.limits = limits
  pointer : m.pointer = k
  steps : m.steps = k
  frames : m.frames = []
  going : m.halted = false
  faults : m.faults = {}
  tracks : Tracks { stack := m.stack, memory := m.memory } c

/-- A turn moves the machine along with the concrete one. -/
theorem OnTrack.turn {program : Program} {limits : Limits} {k : Nat} {m : Machine σ}
    {c c' : State} (h : OnTrack program limits k m c) {token : Token}
    (htoken : program.token? k = some token) (hstep : Step token c c')
    (haccepted : TokenAccepted limits.memory token m.stack.visible)
    (room : c'.stack.length ≤ Stack.maxDepth) (hbudget : k < limits.steps) :
    ∃ m', Machine.Turn program.size m m' ∧ OnTrack program limits (k + 1) m' c' := by
  obtain ⟨operation, hfollows, hworks⟩ := hstep.works (σ := σ) h.tracks haccepted room
  have hm : m.program.token? m.pointer = some token := by
    rw [h.program, h.pointer]
    exact htoken
  have hinside : k < program.size := (Array.getElem?_eq_some_iff.1 htoken).1
  refine ⟨m.turn (fun stop n => n.runTo stop) token, ⟨h.going, ?_, ?_, token, hm, rfl⟩, ?_⟩
  · rintro ⟨_, hstop⟩
    rw [h.pointer] at hstop
    omega
  · rw [h.steps, h.limits]
    exact hbudget
  · rw [Machine.turn_eq, hworks _ (m.advance token) m.pointer h.limits, Machine.work_eq]
    exact
      { program := h.program
        limits := h.limits
        pointer := congrArg (· + 1) h.pointer
        steps := congrArg (· + 1) h.steps
        frames := h.frames
        going := h.going
        faults := by
          -- The operation meets no fault, so there is none to record.
          have hnone := hfollows.faults
          show List.foldl _ m.faults (operation { stack := m.stack, memory := m.memory }).faults = _
          rw [hnone]
          exact h.faults
        tracks := ⟨hfollows.tracks.stack, hfollows.tracks.memory⟩ }

/-- What the machine shows is so: its stack is as deep as the concrete one, each known value
    is the word at its depth, each known byte of memory is the byte there, what lies beyond
    its memory is zero, and it complains about nothing. -/
structure Agrees (m : Machine σ) (c : State) : Prop where
  size : m.stack.size = c.stack.length
  known : ∀ (depth : Nat) (v : Value) (w : Word), m.stack.visible[depth]? = some v →
    v.word? = some w → c.stack[depth]? = some w
  bytes : ∀ (i : Nat) (b : UInt8), m.memory.cells[i]? = some (some b) → c.memory i = b
  fresh : ∀ i, m.memory.size ≤ i → c.memory i = 0
  faults : m.faults = {}

omit [Scope σ] in
theorem OnTrack.agrees {program : Program} {limits : Limits} {k : Nat} {m : Machine σ}
    {c : State} (h : OnTrack program limits k m c) : Agrees m c where
  size := h.tracks.stack.length_eq
  known depth v w hv hw := by
    obtain ⟨hdepth, rfl⟩ := List.getElem?_eq_some_iff.1 hv
    have hlen : m.stack.visible.length = c.stack.length := h.tracks.stack.length_eq
    rw [List.getElem?_eq_getElem (by omega)]
    exact congrArg some (h.tracks.stack.get hdepth (by omega) w hw).symm
  bytes := h.tracks.memory.known
  fresh := h.tracks.memory.fresh
  faults := h.faults

/-- On straight-line code, the machine agrees with every concrete execution of the code
    after every token. -/
theorem straightLine_agrees (program : Program) (scope : σ) (limits : Limits) (n : Nat)
    (hbudget : n ≤ limits.steps) (c : Nat → State) (hempty : c 0 = {})
    (hsteps : ∀ k < n, ∃ token, program.token? k = some token ∧ Step token (c k) (c (k + 1)))
    (hdepth : ∀ k ≤ n, (c k).stack.length ≤ Stack.maxDepth)
    (haccepted : ∀ k < n, ∀ token m, program.token? k = some token →
      Machine.Turns program.size k (Machine.start program scope limits) m →
      TokenAccepted limits.memory token m.stack.visible) :
    ∀ k ≤ n, ∃ m, Machine.Turns program.size k (Machine.start program scope limits) m
      ∧ (Machine.start program scope limits).execute = m.runTo program.size ∧ Agrees m (c k) := by
  have hrun : ∀ k ≤ n, ∃ m, Machine.Turns program.size k (Machine.start program scope limits) m
      ∧ OnTrack program limits k m (c k) := by
    intro k
    induction k with
    | zero =>
      intro _
      refine ⟨_, .zero _, rfl, rfl, rfl, rfl, rfl, rfl, rfl, ?_⟩
      rw [hempty]
      exact ⟨.nil, memoryTracks_empty⟩
    | succ k ih =>
      intro hk
      obtain ⟨m, hturns, htrack⟩ := ih (by omega)
      obtain ⟨token, htoken, hstep⟩ := hsteps k (by omega)
      obtain ⟨m', hturn, htrack'⟩ := htrack.turn htoken hstep
        (haccepted k (by omega) token m htoken hturns) (hdepth (k + 1) hk) (by omega)
      exact ⟨m', hturns.succ hturn, htrack'⟩
  intro k hk
  obtain ⟨m, hturns, htrack⟩ := hrun k hk
  exact ⟨m, hturns, hturns.runTo_eq htrack.going, htrack.agrees⟩

/-! ## A run through memory -/

/-- A word is stored and then loaded again. -/
def storeAndLoad : Program :=
  .ofTokens #[⟨.literal, "0x2a", 1, 1⟩, ⟨.literal, "0x00", 1, 1⟩,
    ⟨.opcode .mstore, "mstore", 1, 1⟩, ⟨.literal, "0x00", 2, 2⟩, ⟨.opcode .mload, "mload", 2, 2⟩]

/-- The memory after the store. -/
def storedMemory : Nat → UInt8 :=
  patch (fun _ => 0) 0 (bytesOf 42)

/-- The concrete states of the run. -/
def storeAndLoadStates : Nat → State
  | 0 => {}
  | 1 => ⟨[42], fun _ => 0⟩
  | 2 => ⟨[0, 42], fun _ => 0⟩
  | 3 => ⟨[], storedMemory⟩
  | 4 => ⟨[0], storedMemory⟩
  | _ => ⟨[wordOf (slice storedMemory 0 32)], storedMemory⟩

theorem storeAndLoad_steps (k : Nat) (hk : k < 5) :
    ∃ token, storeAndLoad.token? k = some token
      ∧ Step token (storeAndLoadStates k) (storeAndLoadStates (k + 1)) := by
  have hzero : ∀ n, Word.numeral? "0x00" = some n → n < 2 ^ 256 →
      (0 : Word) = BitVec.ofNat 256 n := by
    intro n hn _
    cases hn
    rfl
  have hfortyTwo : ∀ n, Word.numeral? "0x2a" = some n → n < 2 ^ 256 →
      (42 : Word) = BitVec.ofNat 256 n := by
    intro n hn _
    cases hn
    rfl
  match k, hk with
  | 0, _ => exact ⟨_, rfl, .literal rfl _ _ _ hfortyTwo⟩
  | 1, _ => exact ⟨_, rfl, .literal rfl _ _ _ hzero⟩
  | 2, _ => exact ⟨_, rfl, .opcode rfl (.mstore _ _ _ _)⟩
  | 3, _ => exact ⟨_, rfl, .literal rfl _ _ _ hzero⟩
  | 4, _ => exact ⟨_, rfl, .opcode rfl (.mload _ _ _)⟩

theorem storeAndLoad_accepted (k : Nat) (hk : k < 5) (token : Token) (m : Machine Isolated)
    (htoken : storeAndLoad.token? k = some token)
    (hturns : Machine.Turns storeAndLoad.size k (.start storeAndLoad .isolated) m) :
    TokenAccepted ({} : Limits).memory token m.stack.visible := by
  intro op hop
  match k, hk with
  | 0, _ | 1, _ | 3, _ => cases htoken; cases hop
  | 2, _ =>
    cases htoken
    cases hop
    obtain _ | ⟨before, last₁⟩ := hturns
    obtain _ | ⟨before, last₀⟩ := before
    cases before
    obtain rfl := last₀.eq_turn rfl
    obtain rfl := last₁.eq_turn rfl
    decide
  | 4, _ =>
    cases htoken
    cases hop
    obtain _ | ⟨before, last₃⟩ := hturns
    obtain _ | ⟨before, last₂⟩ := before
    obtain _ | ⟨before, last₁⟩ := before
    obtain _ | ⟨before, last₀⟩ := before
    cases before
    obtain rfl := last₀.eq_turn rfl
    obtain rfl := last₁.eq_turn rfl
    obtain rfl := last₂.eq_turn rfl
    obtain rfl := last₃.eq_turn rfl
    decide

/-- The machine ends in agreement with the word loaded again. -/
theorem straightLine_agrees_storeAndLoad :
    ∃ m, Machine.Turns storeAndLoad.size 5 (.start storeAndLoad Isolated.isolated) m
      ∧ (Machine.start storeAndLoad Isolated.isolated).execute = m.runTo storeAndLoad.size
      ∧ Agrees m (storeAndLoadStates 5) :=
  straightLine_agrees storeAndLoad Isolated.isolated {} 5 (by decide) storeAndLoadStates rfl
    storeAndLoad_steps
    (by
      intro k hk
      match k, hk with
      | 0, _ | 1, _ | 2, _ | 3, _ | 4, _ | 5, _ => decide)
    storeAndLoad_accepted 5 (Nat.le_refl 5)

end HuffTrace.Evm
