/-
  HuffTrace.Proofs.Evm.Simulation

  The symbolic machine follows the concrete one on straight-line code.  One
  opcode at a time, `Effect.tracks` shows that a workspace which tracks a state
  still does so after both have executed the opcode; the run is an induction on
  the number of tokens.

  The two can part in one way only: a memory operation whose region is not
  known is skipped by the symbolic machine.  `Accepted` excludes that.
-/

import HuffTrace.Proofs.Evm.Tracking
import HuffTrace.Proofs.Machine.Loop

namespace HuffTrace.Evm

open Workspace (missing region? withVisible)

/-! ## Memory operands -/

/-- The regions that an opcode names in memory: the depths of the operands that hold the
    offset and the size of each.  Without an operand for it, the size is that of a word. -/
def regions : Opcode → List (Nat × Option Nat)
  | .mload | .mstore => [(0, none)]
  | .sha3 => [(0, some 1)]
  | .mcopy => [(0, some 2), (1, some 2)]
  | .calldatacopy | .codecopy | .returndatacopy => [(0, some 2)]
  | .extcodecopy => [(1, some 3)]
  | _ => []

/-- The size that a region has on a stack. -/
def regionSize (values : List Value) : Option Nat → Value
  | some depth => values.getD depth missing
  | none => .folded (BitVec.ofNat 256 Word.byteCount)

/-- Every region that an opcode names is known and within the limit. -/
def Accepted (limit : Nat) (op : Opcode) (values : List Value) : Prop :=
  ∀ r ∈ regions op,
    (region? limit (values.getD r.1 missing) (regionSize values r.2) {}).1.isSome = true

instance (limit : Nat) (op : Opcode) (values : List Value) :
    Decidable (Accepted limit op values) :=
  inferInstanceAs (Decidable (∀ r ∈ regions op, _))

/-! ## Workspaces -/

/-- A workspace tracks a state: every value shows the word at its depth, and the memory
    tracks the bytes. -/
structure Tracks (w : Workspace) (c : State) : Prop where
  stack : List.Forall₂ Shows w.stack.visible c.stack
  memory : MemoryTracks w.memory c.memory

/-- A workspace goes over into one that tracks a state, and no fault is met. -/
structure Follows (w w' : Workspace) (c : State) : Prop where
  tracks : Tracks w' c
  faults : w'.faults = w.faults

theorem follows_withVisible {w : Workspace} {c : State} (h : Tracks w c) {values : List Value}
    {stack : List Word} (hvalues : List.Forall₂ Shows values stack) :
    Follows w (w.withVisible values) { c with stack } where
  tracks := ⟨hvalues, h.memory⟩
  faults := rfl

/-- The operands of a stack and what lies below them. -/
theorem split_of_append {values : List Value} {args rest : List Word}
    (h : List.Forall₂ Shows values (args ++ rest)) :
    ∃ shown below, values = shown ++ below ∧ List.Forall₂ Shows shown args
      ∧ List.Forall₂ Shows below rest :=
  ⟨values.take args.length, values.drop args.length, (List.take_append_drop _ values).symm,
    List.forall₂_take_append values args rest h, List.forall₂_drop_append values args rest h⟩

/-! ## Opcodes on the stack -/

section Operands

variable {w : Workspace} {memory : Nat → UInt8} {limit : Nat} {op : Opcode}

theorem tracks_push0 {stack : List Word} (h : Tracks w ⟨stack, memory⟩)
    (room : stack.length < Stack.maxDepth) :
    Follows w (Opcode.push0.run limit w) ⟨0 :: stack, memory⟩ := by
  have hroom : w.stack.visible.length < Stack.maxDepth := by
    rw [h.stack.length_eq]
    exact room
  have hrun : Opcode.push0.run limit w = w.withVisible (.folded 0 :: w.stack.visible) := by
    rw [Opcode.run]
    exact Workspace.push_withVisible w _ hroom
  rw [hrun]
  exact follows_withVisible h (.cons (shows_folded 0) h.stack)

theorem tracks_unary {f : Word → Word} (hf : unary? op = some f) {a : Word} {rest : List Word}
    (h : Tracks w ⟨a :: rest, memory⟩) (room : rest.length < Stack.maxDepth) :
    Follows w (op.run limit w) ⟨f a :: rest, memory⟩ := by
  obtain ⟨render, hrun⟩ := run_of_unary? hf limit
  obtain ⟨v, below, hv, hbelow, hvisible⟩ := List.forall₂_cons_right_iff.1 h.stack
  have hroom : below.length < Stack.maxDepth := by
    rw [hbelow.length_eq]
    exact room
  have hresult : op.run limit w = w.withVisible (Workspace.folded₁ f render v :: below) := by
    rw [hrun]
    nth_rewrite 1 [Workspace.withVisible_self hvisible]
    exact Workspace.unary_withVisible f render w v hroom
  rw [hresult]
  exact follows_withVisible h (.cons (shows_folded₁ render hv) hbelow)

theorem tracks_binary {f : Word → Word → Word} (hf : binary? op = some f) {a b : Word}
    {rest : List Word} (h : Tracks w ⟨a :: b :: rest, memory⟩)
    (room : rest.length < Stack.maxDepth) :
    Follows w (op.run limit w) ⟨f a b :: rest, memory⟩ := by
  obtain ⟨render, hrun⟩ := run_of_binary? hf limit
  obtain ⟨v, _, hv, hrest, hvisible⟩ := List.forall₂_cons_right_iff.1 h.stack
  obtain ⟨u, below, hu, hbelow, rfl⟩ := List.forall₂_cons_right_iff.1 hrest
  have hroom : below.length < Stack.maxDepth := by
    rw [hbelow.length_eq]
    exact room
  have hresult : op.run limit w = w.withVisible (Workspace.folded₂ f render v u :: below) := by
    rw [hrun]
    nth_rewrite 1 [Workspace.withVisible_self hvisible]
    exact Workspace.binary_withVisible f render w v u hroom
  rw [hresult]
  exact follows_withVisible h (.cons (shows_folded₂ render hv hu) hbelow)

theorem tracks_ternary {f : Word → Word → Word → Word} (hf : ternary? op = some f)
    {a b d : Word} {rest : List Word} (h : Tracks w ⟨a :: b :: d :: rest, memory⟩)
    (room : rest.length < Stack.maxDepth) :
    Follows w (op.run limit w) ⟨f a b d :: rest, memory⟩ := by
  obtain ⟨render, hrun⟩ := run_of_ternary? hf limit
  obtain ⟨v, _, hv, htail, hvisible⟩ := List.forall₂_cons_right_iff.1 h.stack
  obtain ⟨u, _, hu, hrest, rfl⟩ := List.forall₂_cons_right_iff.1 htail
  obtain ⟨t, below, ht, hbelow, rfl⟩ := List.forall₂_cons_right_iff.1 hrest
  have hroom : below.length < Stack.maxDepth := by
    rw [hbelow.length_eq]
    exact room
  have hresult : op.run limit w = w.withVisible (Workspace.folded₃ f render v u t :: below) := by
    rw [hrun]
    nth_rewrite 1 [Workspace.withVisible_self hvisible]
    exact Workspace.ternary_withVisible f render w v u t hroom
  rw [hresult]
  exact follows_withVisible h (.cons (shows_folded₃ render hv hu ht) hbelow)

/-- An opcode whose result only the environment knows leaves a text in place of its
    operands. -/
theorem run_of_queryInputs? {shown below : List Value} (hop : queryInputs? op = some shown.length)
    (room : below.length < Stack.maxDepth) (limit : Nat) (w : Workspace) :
    ∃ text, op.run limit (w.withVisible (shown ++ below))
      = w.withVisible (.symbolic text :: below) := by
  by_cases hname : op.resultName? = none
  · -- The look-ups, which show their operand.
    have hone : shown.length = 1
        ∧ (op = .balance ∨ op = .calldataload ∨ op = .sload ∨ op = .tload) := by
      revert hop hname
      cases op <;> simp [queryInputs?, Opcode.resultName?] <;> intro h <;> exact h.symm
    obtain ⟨v, rfl⟩ := List.length_eq_one_iff.1 hone.1
    obtain rfl | rfl | rfl | rfl := hone.2
    all_goals
      rw [Opcode.run]
      exact ⟨_, Workspace.push_withVisible w _ room⟩
  · obtain ⟨name, hname⟩ := Option.ne_none_iff_exists'.1 hname
    have harity : op.arity = shown.length := by
      revert hop hname
      cases op <;> simp [queryInputs?, Opcode.resultName?, Opcode.arity] <;> intro h _ <;> exact h
    refine ⟨name, ?_⟩
    rw [Workspace.run_of_resultName? hname, harity, Workspace.discard_withVisible]
    exact Workspace.push_withVisible w _ room

theorem tracks_query {args : List Word} (hop : queryInputs? op = some args.length) {answer : Word}
    {rest : List Word} (h : Tracks w ⟨args ++ rest, memory⟩)
    (room : rest.length < Stack.maxDepth) :
    Follows w (op.run limit w) ⟨answer :: rest, memory⟩ := by
  obtain ⟨shown, below, hvisible, hshown, hbelow⟩ := split_of_append h.stack
  have hroom : below.length < Stack.maxDepth := by
    rw [hbelow.length_eq]
    exact room
  rw [← hshown.length_eq] at hop
  obtain ⟨text, hrun⟩ := run_of_queryInputs? hop hroom limit w
  rw [← Workspace.withVisible_self hvisible] at hrun
  rw [hrun]
  exact follows_withVisible h (.cons (shows_symbolic text answer) hbelow)

theorem run_of_sinkInputs? {n : Nat} (hop : sinkInputs? op = some n) (limit : Nat)
    (w : Workspace) : op.run limit w = w.discard n := by
  unfold sinkInputs? at hop
  split at hop <;> cases hop <;> rfl

theorem tracks_sink {args : List Word} (hop : sinkInputs? op = some args.length)
    {rest : List Word} (h : Tracks w ⟨args ++ rest, memory⟩) :
    Follows w (op.run limit w) ⟨rest, memory⟩ := by
  obtain ⟨shown, below, hvisible, hshown, hbelow⟩ := split_of_append h.stack
  have hresult : op.run limit w = w.withVisible below := by
    rw [run_of_sinkInputs? hop, ← hshown.length_eq]
    nth_rewrite 1 [Workspace.withVisible_self hvisible]
    exact Workspace.discard_withVisible w shown below
  rw [hresult]
  exact follows_withVisible h hbelow

theorem tracks_dup {depth : Fin 16} {stack : List Word} {x : Word}
    (hx : stack[depth.val]? = some x) (h : Tracks w ⟨stack, memory⟩)
    (room : stack.length < Stack.maxDepth) :
    Follows w ((Opcode.dup depth).run limit w) ⟨x :: stack, memory⟩ := by
  have hlen : w.stack.visible.length = stack.length := h.stack.length_eq
  have hdepth : depth.val < stack.length := (List.getElem?_eq_some_iff.1 hx).1
  have hv : w.stack.visible[depth.val]? = some (w.stack.visible.get ⟨depth, by omega⟩) :=
    List.getElem?_eq_getElem _
  have hshows : Shows (w.stack.visible.get ⟨depth, by omega⟩) x := by
    rw [← (List.getElem?_eq_some_iff.1 hx).2]
    exact h.stack.get (by omega) hdepth
  have hroom : w.stack.visible.length < Stack.maxDepth := by
    rw [hlen]
    exact room
  have hrun : (Opcode.dup depth).run limit w
      = w.withVisible (w.stack.visible.get ⟨depth, by omega⟩ :: w.stack.visible) := by
    rw [Opcode.run]
    exact Workspace.dup_withVisible w hv hroom
  rw [hrun]
  exact follows_withVisible h (.cons hshows h.stack)

theorem tracks_swap {depth : Fin 16} {between rest : List Word} (hdepth : between.length = depth)
    {a b : Word} (h : Tracks w ⟨a :: (between ++ b :: rest), memory⟩) :
    Follows w ((Opcode.swap depth).run limit w) ⟨b :: (between ++ a :: rest), memory⟩ := by
  obtain ⟨v, _, hv, hrest, hvisible⟩ := List.forall₂_cons_right_iff.1 h.stack
  obtain ⟨shown, _, rfl, hshown, hrest⟩ := split_of_append hrest
  obtain ⟨u, below, hu, hbelow, rfl⟩ := List.forall₂_cons_right_iff.1 hrest
  have hrun : (Opcode.swap depth).run limit w = w.withVisible (u :: (shown ++ v :: below)) := by
    rw [Opcode.run, ← hdepth, ← hshown.length_eq]
    nth_rewrite 1 [Workspace.withVisible_self hvisible]
    exact Workspace.swap_withVisible w v u shown below
  rw [hrun]
  exact follows_withVisible h (.cons hu (List.rel_append hshown (.cons hv hbelow)))

/-! ## Opcodes on memory -/

theorem tracks_mload {offset : Word} {rest : List Word} (h : Tracks w ⟨offset :: rest, memory⟩)
    (haccepted : Accepted limit .mload w.stack.visible)
    (room : rest.length < Stack.maxDepth) :
    Follows w (Opcode.mload.run limit w)
      ⟨wordOf (slice memory offset.toNat 32) :: rest, memory⟩ := by
  obtain ⟨v, below, hv, hbelow, hvisible⟩ := List.forall₂_cons_right_iff.1 h.stack
  have hroom : below.length < Stack.maxDepth := by
    rw [hbelow.length_eq]
    exact room
  rw [hvisible] at haccepted
  obtain ⟨o, ho, hregion⟩ :=
    Workspace.wordOffset?_of_isSome (haccepted (0, none) (by simp [regions]))
  simp only [List.getD_cons_zero] at hregion
  obtain rfl : o = offset := hv o ho
  have hrun : ∃ u, Opcode.mload.run limit w = w.withVisible (u :: below)
      ∧ Shows u (wordOf (slice memory o.toNat 32)) := by
    rw [Opcode.run]
    nth_rewrite 1 [Workspace.withVisible_self hvisible]
    simp only [Workspace.loadWord, Workspace.pop_withVisible, hregion, Option.bind_some,
      Workspace.memory_withVisible]
    cases hload : w.memory.load o.toNat with
    | none => exact ⟨_, Workspace.push_withVisible w _ hroom, shows_symbolic _ _⟩
    | some word =>
      refine ⟨_, Workspace.push_withVisible w _ hroom, ?_⟩
      rw [h.memory.load hload]
      exact shows_folded _
  obtain ⟨u, hresult, hu⟩ := hrun
  rw [hresult]
  exact follows_withVisible h (.cons hu hbelow)

/-- The cells that a store writes. -/
theorem covers_stored {v : Value} {x : Word} (h : Shows v x) :
    List.Forall₂ Covers
      (match v.word? with
        | some word => word.toBytes.map some
        | none => List.replicate Word.byteCount none) (bytesOf x) := by
  cases hv : v.word? with
  | none =>
    have hlen : (bytesOf x).length = Word.byteCount := by simp [bytesOf, Word.byteCount]
    simp only [← hlen]
    exact covers_replicate_none (bytesOf x)
  | some word =>
    simp only [h word hv, ← bytesOf_eq]
    exact covers_map_some (bytesOf x)

theorem tracks_mstore {offset value : Word} {rest : List Word}
    (h : Tracks w ⟨offset :: value :: rest, memory⟩)
    (haccepted : Accepted limit .mstore w.stack.visible) :
    Follows w (Opcode.mstore.run limit w)
      ⟨rest, patch memory offset.toNat (bytesOf value)⟩ := by
  obtain ⟨v, _, hv, hrest, hvisible⟩ := List.forall₂_cons_right_iff.1 h.stack
  obtain ⟨u, below, hu, hbelow, rfl⟩ := List.forall₂_cons_right_iff.1 hrest
  rw [hvisible] at haccepted
  obtain ⟨o, ho, hregion⟩ :=
    Workspace.wordOffset?_of_isSome (haccepted (0, none) (by simp [regions]))
  simp only [List.getD_cons_zero] at hregion
  obtain rfl : o = offset := hv o ho
  have hwrite := h.memory.write o.toNat (covers_stored hu)
  have hrun : Opcode.mstore.run limit w
      = { w.withVisible below with
          memory := w.memory.write o.toNat
            (match u.word? with
              | some word => word.toBytes.map some
              | none => List.replicate Word.byteCount none) } := by
    rw [Opcode.run]
    nth_rewrite 1 [Workspace.withVisible_self hvisible]
    simp only [Workspace.storeWord, Workspace.pop_withVisible, hregion]
    cases u.word? <;> rfl
  rw [hrun]
  exact ⟨⟨hbelow, hwrite⟩, rfl⟩

theorem tracks_mcopy {target source size : Word} {rest : List Word}
    (h : Tracks w ⟨target :: source :: size :: rest, memory⟩)
    (haccepted : Accepted limit .mcopy w.stack.visible) :
    Follows w (Opcode.mcopy.run limit w)
      ⟨rest, patch memory target.toNat (slice memory source.toNat size.toNat)⟩ := by
  obtain ⟨v, _, hv, htail, hvisible⟩ := List.forall₂_cons_right_iff.1 h.stack
  obtain ⟨u, _, hu, hrest, rfl⟩ := List.forall₂_cons_right_iff.1 htail
  obtain ⟨t, below, ht, hbelow, rfl⟩ := List.forall₂_cons_right_iff.1 hrest
  rw [hvisible] at haccepted
  obtain ⟨o, s, ho, hs, hregion⟩ :=
    Workspace.region?_of_isSome (haccepted (0, some 2) (by simp [regions]))
  obtain ⟨o', s', ho', hs', hregion'⟩ :=
    Workspace.region?_of_isSome (haccepted (1, some 2) (by simp [regions]))
  obtain rfl : o = target := hv o ho
  obtain rfl : o' = source := hu o' ho'
  obtain rfl : s = size := ht s hs
  have hrun : Opcode.mcopy.run limit w
      = { w.withVisible below with memory := w.memory.copy o.toNat o'.toNat s.toNat } := by
    rw [Opcode.run]
    nth_rewrite 1 [Workspace.withVisible_self hvisible]
    simp only [Workspace.copyWithin, Workspace.pop_withVisible]
    simp only [List.getD_cons_zero, List.getD_cons_succ, regionSize] at hregion hregion'
    simp only [hregion, hregion']
    rfl
  rw [hrun]
  exact ⟨⟨hbelow, h.memory.write o.toNat (h.memory.covers_window o'.toNat s.toNat)⟩, rfl⟩

theorem tracks_sha3 {offset size : Word} {rest : List Word}
    (h : Tracks w ⟨offset :: size :: rest, memory⟩)
    (haccepted : Accepted limit .sha3 w.stack.visible)
    (room : rest.length < Stack.maxDepth) :
    Follows w (Opcode.sha3.run limit w)
      ⟨wordOf (Keccak.digest (slice memory offset.toNat size.toNat)).toList :: rest, memory⟩ := by
  obtain ⟨v, _, hv, hrest, hvisible⟩ := List.forall₂_cons_right_iff.1 h.stack
  obtain ⟨u, below, hu, hbelow, rfl⟩ := List.forall₂_cons_right_iff.1 hrest
  have hroom : below.length < Stack.maxDepth := by
    rw [hbelow.length_eq]
    exact room
  rw [hvisible] at haccepted
  obtain ⟨o, s, ho, hs, hregion⟩ :=
    Workspace.region?_of_isSome (haccepted (0, some 1) (by simp [regions]))
  obtain rfl : o = offset := hv o ho
  obtain rfl : s = size := hu s hs
  have hrun : ∃ t, Opcode.sha3.run limit w = w.withVisible (t :: below)
      ∧ Shows t (wordOf (Keccak.digest (slice memory o.toNat s.toNat)).toList) := by
    rw [Opcode.run]
    nth_rewrite 1 [Workspace.withVisible_self hvisible]
    simp only [List.getD_cons_zero, List.getD_cons_succ, regionSize] at hregion
    simp only [Workspace.hashRegion, Workspace.pop_withVisible, hregion, Option.bind_some,
      Workspace.memory_withVisible]
    cases hread : w.memory.read o.toNat s.toNat with
    | none => exact ⟨_, Workspace.push_withVisible w _ hroom, shows_symbolic _ _⟩
    | some bytes =>
      refine ⟨_, Workspace.push_withVisible w _ hroom, ?_⟩
      rw [h.memory.read hread, ← wordOf_eq]
      exact shows_folded _
  obtain ⟨t, hresult, ht⟩ := hrun
  rw [hresult]
  exact follows_withVisible h (.cons ht hbelow)

theorem run_of_copyInputs? {leading : Nat} (hop : copyInputs? op = some leading) (limit : Nat)
    (w : Workspace) : op.run limit w = w.copyIn leading limit ∧
      regions op = [(leading, some (leading + 2))] := by
  unfold copyInputs? at hop
  split at hop <;> cases hop <;> exact ⟨rfl, rfl⟩

theorem tracks_copyIn {args : List Word} (hop : copyInputs? op = some args.length)
    {target source size : Word} {rest : List Word}
    (h : Tracks w ⟨args ++ target :: source :: size :: rest, memory⟩)
    (haccepted : Accepted limit op w.stack.visible) {bytes : List UInt8}
    (hbytes : bytes.length = size.toNat) :
    Follows w (op.run limit w) ⟨rest, patch memory target.toNat bytes⟩ := by
  obtain ⟨shown, _, hvisible, hshown, hoperands⟩ := split_of_append h.stack
  obtain ⟨v, _, hv, htail, rfl⟩ := List.forall₂_cons_right_iff.1 hoperands
  obtain ⟨u, _, _, hrest, rfl⟩ := List.forall₂_cons_right_iff.1 htail
  obtain ⟨t, below, ht, hbelow, rfl⟩ := List.forall₂_cons_right_iff.1 hrest
  rw [← hshown.length_eq] at hop
  obtain ⟨hcopy, hregions⟩ := run_of_copyInputs? hop limit w
  rw [Accepted, hregions, hvisible] at haccepted
  obtain ⟨o, s, ho, hs, hregion⟩ :=
    Workspace.region?_of_isSome (haccepted _ (List.mem_singleton_self _))
  have hoffset : (shown ++ v :: u :: t :: below).getD shown.length missing = v := by simp
  have hsize : regionSize (shown ++ v :: u :: t :: below) (some (shown.length + 2)) = t := by
    simp [regionSize]
  simp only [hoffset, hsize] at ho hs hregion
  obtain rfl : o = target := hv o ho
  obtain rfl : s = size := ht s hs
  have hrun : op.run limit w
      = { w.withVisible below with memory := w.memory.forget o.toNat s.toNat } := by
    rw [hcopy]
    nth_rewrite 1 [Workspace.withVisible_self hvisible]
    simp only [Workspace.copyIn, Workspace.discard_withVisible, Workspace.pop_withVisible, hregion]
    rfl
  rw [hrun]
  refine ⟨⟨hbelow, ?_⟩, rfl⟩
  rw [Memory.forget, ← hbytes]
  exact h.memory.write o.toNat (covers_replicate_none bytes)

end Operands

/-- A workspace that tracks a state still does so after both have executed an opcode. -/
theorem Effect.tracks {op : Opcode} {c c' : State} (heffect : Effect op c c') {w : Workspace}
    (h : Tracks w c) {limit : Nat} (haccepted : Accepted limit op w.stack.visible)
    (room : c'.stack.length ≤ Stack.maxDepth) : Follows w (op.run limit w) c' := by
  have hroom : ∀ {x : Word} {rest : List Word}, (x :: rest).length ≤ Stack.maxDepth →
      rest.length < Stack.maxDepth := by
    intro x rest hlen
    rwa [List.length_cons] at hlen
  cases heffect with
  | push0 _ _ => exact tracks_push0 h (hroom room)
  | unary hf _ _ _ => exact tracks_unary hf h (hroom room)
  | binary hf _ _ _ _ => exact tracks_binary hf h (hroom room)
  | ternary hf _ _ _ _ _ => exact tracks_ternary hf h (hroom room)
  | query hop _ _ _ => exact tracks_query hop h (hroom room)
  | sink hop _ _ => exact tracks_sink hop h
  | push _ _ => exact ⟨h, rfl⟩
  | jumpdest _ => exact ⟨h, rfl⟩
  | dup depth hx _ => exact tracks_dup hx h (hroom room)
  | swap depth hdepth _ _ _ _ => exact tracks_swap hdepth h
  | mload _ _ _ => exact tracks_mload h haccepted (hroom room)
  | mstore _ _ _ _ => exact tracks_mstore h haccepted
  | mcopy _ _ _ _ _ => exact tracks_mcopy h haccepted
  | sha3 _ _ _ _ => exact tracks_sha3 h haccepted (hroom room)
  | copyIn hop _ _ _ _ _ bytes hbytes => exact tracks_copyIn hop h haccepted hbytes

end HuffTrace.Evm
