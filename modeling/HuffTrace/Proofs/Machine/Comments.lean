/-
  HuffTrace.Proofs.Machine.Comments

  The comments of a run.  Each of them shows a stack without line breaks and
  belongs to the last token of a line, one that is no definition taking up its
  line as a whole (`Recorded`).  The first needs the texts of all values that a
  run can bring to the stack again, so the invariant is about the stack with its
  hidden parts and labels, and about the programs that calls can lead to.
-/

import HuffTrace.Proofs.Machine.Loop
import HuffTrace.Proofs.Source.Scan
import HuffTrace.Proofs.Stack

namespace HuffTrace

/-! ## Stacks without line breaks -/

/-- The texts of values have no line breaks. -/
def OneLineAll (values : List Value) : Prop :=
  ∀ v ∈ values, Text.OneLine v.text

/-- No text that a stack holds or remembers has a line break. -/
structure Stack.OneLine (s : Stack) : Prop where
  visible : OneLineAll s.visible
  hidden : ∀ part ∈ s.hidden, OneLineAll part
  labels : ∀ entry ∈ s.labels, OneLineAll entry.2
  pending : ∀ entry ∈ s.pending, OneLineAll entry.2

theorem Stack.oneLine_iff {s : Stack} :
    s.OneLine ↔ s.Everywhere fun v => Text.OneLine v.text :=
  ⟨fun h => ⟨h.visible, h.hidden, h.labels, h.pending⟩,
    fun h => ⟨h.visible, h.hidden, h.labels, h.pending⟩⟩

namespace Stack.OneLine

variable {s : Stack}

theorem jump (h : s.OneLine) (label : String) : (s.jump label).OneLine :=
  oneLine_iff.2 ((oneLine_iff.1 h).jump label)

theorem mark (h : s.OneLine) (label : String) : (s.mark label).OneLine :=
  oneLine_iff.2 ((oneLine_iff.1 h).mark label)

theorem hide (h : s.OneLine) (keep : Nat) : (s.hide keep).OneLine :=
  oneLine_iff.2 ((oneLine_iff.1 h).hide keep)

theorem reveal (h : s.OneLine) (keep : Nat) : (s.reveal keep).OneLine :=
  oneLine_iff.2 ((oneLine_iff.1 h).reveal keep)

end Stack.OneLine

theorem Stack.oneLine_fresh {values : List Value} (h : OneLineAll values) (s : Stack) :
    (s.reset values).clearLabels.OneLine :=
  oneLine_iff.2 (everywhere_fresh s h)

theorem upheld_oneLine : Upheld (fun v => Text.OneLine v.text) Stack.OneLine := by
  have h : Upheld (fun v => Text.OneLine v.text)
      (Stack.Everywhere fun v => Text.OneLine v.text) :=
    Stack.upheld_everywhere id Text.OneLine.append (fun limit h => h.clip limit) id
      Text.oneLine_toHex
  have hsame : Stack.OneLine = Stack.Everywhere fun v => Text.OneLine v.text :=
    funext fun s => propext Stack.oneLine_iff
  rw [hsame]
  exact h

/-- What a comment shows of such a stack is one line. -/
theorem Stack.OneLine.render {s : Stack} (h : s.OneLine) : Text.OneLine s.render := by
  have hvalues : Text.OneLine (", ".intercalate (s.visible.map fun v => Text.abridge v.text)) := by
    refine Text.oneLine_intercalate (by decide) fun part hpart => ?_
    obtain ⟨v, hv, rfl⟩ := List.mem_map.1 hpart
    exact (h.visible v hv).abridge
  have hopen : Text.OneLine "[" := by decide
  exact (hopen.append hvalues).append (by decide)

/-! ## Values that tokens push -/

theorem oneLine_literal {text : String} (h : Text.OneLine text) :
    Text.OneLine (Value.literal text).text := by
  unfold Value.literal
  split <;> exact h

theorem oneLine_selector (signature : String) :
    Text.OneLine (Signature.selector signature).text := by
  apply Text.oneLine_ofList
  simp [Text.newline_not_mem_hexBytes]

theorem subset_hexDigits? {cs digits : List Char} (h : Word.hexDigits? cs = some digits) :
    digits ⊆ cs := by
  have hdrop : ∀ {start : List Char}, Text.dropStart? start cs = some digits → digits ⊆ cs := by
    intro start h
    unfold Text.dropStart? at h
    split at h
    · cases h
      exact fun x hx => List.mem_of_mem_drop hx
    · cases h
  unfold Word.hexDigits? at h
  cases hlower : Text.dropStart? ['0', 'x'] cs with
  | none =>
    rw [hlower] at h
    exact hdrop h
  | some rest =>
    rw [hlower] at h
    exact hdrop (hlower.trans h)

theorem subset_dropEndWhile (p : Char → Bool) (cs : List Char) : Text.dropEndWhile p cs ⊆ cs := by
  intro x hx
  rw [Text.dropEndWhile, List.mem_reverse] at hx
  exact List.mem_reverse.1 ((List.dropWhile_sublist p).subset hx)

theorem subset_trim (cs : List Char) : Text.trim cs ⊆ cs := by
  intro x hx
  exact (List.dropWhile_sublist _).subset (subset_dropEndWhile _ _ hx)

theorem Token.subset_argument (t : Token) : t.argument ⊆ t.text.toList := by
  intro x hx
  have hinside := subset_dropEndWhile _ _ ((List.dropLast_sublist _).subset (subset_trim _ hx))
  exact (List.dropWhile_sublist _).subset (List.mem_of_mem_tail hinside)

theorem Token.oneLine_name {t : Token} (h : Text.OneLine t.text) : Text.OneLine t.name := by
  unfold Token.name
  have hcalled : '\n' ∉ calledName t.text.toList :=
    fun hmem => h ((List.takeWhile_sublist _).subset (subset_trim _ hmem))
  split
  · exact Text.oneLine_ofList hcalled
  · exact Text.oneLine_ofList hcalled
  · exact Text.oneLine_ofList fun hmem => h (subset_dropEndWhile _ _ hmem)
  · exact Text.oneLine_ofList fun hmem =>
      h ((List.dropWhile_sublist _).subset (subset_dropEndWhile _ _ hmem))
  · exact h

namespace Machine

variable {σ : Type} [Scope σ]

omit [Scope σ] in
theorem oneLine_rightPad? {argument : List Char} (h : '\n' ∉ argument) {v : Value}
    (hv : rightPad? argument = some v) : Text.OneLine v.text := by
  unfold rightPad? at hv
  cases hdigits : Word.hexDigits? argument with
  | none => simp [hdigits] at hv
  | some digits =>
    have hline : '\n' ∉ digits := fun hmem => h (subset_hexDigits? hdigits hmem)
    simp only [hdigits, Option.bind_eq_bind, Option.bind_some] at hv
    split at hv
    · cases hv
    · split at hv
      · cases hv
        apply Text.oneLine_ofList
        simp [List.rightpad, hline]
      · cases hv

theorem oneLine_pushed {m : Machine σ} {token : Token} {v : Value} (h : m.pushed? token = some v)
    (htext : Text.OneLine token.text) : Text.OneLine v.text := by
  unfold pushed? at h
  split at h
  · cases h
    exact oneLine_literal htext
  · cases h
    exact Token.oneLine_name htext
  · cases h
    exact htext
  · cases h
    exact htext
  · cases h
    exact oneLine_selector _
  · cases h
    cases hpad : rightPad? token.argument with
    | none => exact htext
    | some w => exact oneLine_rightPad? (fun hmem => htext (token.subset_argument hmem)) hpad
  · cases h
    exact htext
  · cases h
    exact htext
  · cases h
    exact htext
  · cases h

/-! ## Recorded comments -/

/-- A token after which a comment may be recorded: a definition that takes up its line as a
    whole is none. -/
def IsAnchor (token : Token) : Prop :=
  token.kind ≠ .constantDefinition ∧ ∀ kind, token.kind ≠ .interface kind

/-- A comment belongs to a program: it shows a stack on one line, at the end of the last token
    of a line. -/
structure Recorded (program : Program) (c : Comment) : Prop where
  shown : ∃ s : Stack, s.OneLine ∧ c.stack = s.render
  anchored : ∃ position token, program.token? position = some token ∧ IsAnchor token
    ∧ program.isLastOnLine position = true ∧ c.line = token.endLine

/-- What holds throughout a run; `safe` is a property of scopes that is to lead only to plain
    programs. -/
structure Tame (safe : σ → Prop) (m : Machine σ) : Prop where
  program : m.program.Plain
  scope : safe m.scope
  stack : m.stack.OneLine
  frames : ∀ frame ∈ m.frames, ∃ token, m.program.token? frame.callSite = some token
    ∧ IsAnchor token
  comments : ∀ c ∈ m.comments, Recorded m.program c

/-- A property of scopes that every macro found in them passes on, its program being plain. -/
def Sheltered (safe : σ → Prop) : Prop :=
  ∀ scope name external, safe scope → Scope.findMacro? scope name = some external →
    external.program.Plain ∧ safe external.scope

theorem isAnchor_of_pushed? {m : Machine σ} {token : Token} {v : Value}
    (h : m.pushed? token = some v) : IsAnchor token := by
  constructor
  · intro hkind
    rw [pushed?, hkind] at h
    cases h
  · intro kind hkind
    rw [pushed?, hkind] at h
    cases h

theorem isShort_of_pushed? {m : Machine σ} {token : Token} {v : Value}
    (h : m.pushed? token = some v) :
    token.kind ≠ .macroDefinition ∧ token.kind ≠ .tableDefinition := by
  constructor <;>
  · intro hkind
    rw [pushed?, hkind] at h
    cases h

theorem oneLineAll_inputs (d : Definition) : OneLineAll d.inputs := by
  intro v hv
  obtain ⟨i, -, rfl⟩ := List.mem_map.1 hv
  have htakes : Text.OneLine "takes[" := by decide
  exact (htakes.append (Text.oneLine_decimal i)).append (by decide)

section Turn

variable {safe : σ → Prop} {run : Nat → Machine σ → Machine σ} {m m' : Machine σ} {token : Token}
  {anchor : Option Nat}

/-- The token that a step gives its comment to. -/
theorem Acts.anchored (h : Acts run (m.advance token) m.pointer token anchor m')
    (hm : Tame safe m) (htoken : m.program.token? m.pointer = some token) {position : Nat}
    (hanchor : anchor = some position) :
    ∃ token, m.program.token? position = some token ∧ IsAnchor token := by
  cases h with
  | push v hpushed =>
    cases hanchor
    exact ⟨token, htoken, isAnchor_of_pushed? hpushed⟩
  | opcode op kind =>
    cases hanchor
    exact ⟨token, htoken, by simp [IsAnchor, kind]⟩
  | verbatim kind =>
    cases hanchor
    exact ⟨token, htoken, by simp [IsAnchor, kind]⟩
  | mark kind =>
    cases hanchor
    exact ⟨token, htoken, by simp [IsAnchor, kind]⟩
  | refuse faults kind reason =>
    cases hanchor
    exact ⟨token, htoken, by simp [IsAnchor, kind]⟩
  | enter faults callSite outer kind hframes =>
    cases hanchor
    exact ⟨token, htoken, by simp [IsAnchor, kind]⟩
  | analyse faults kind hframes =>
    cases hanchor
    exact ⟨token, htoken, by simp [IsAnchor, kind]⟩
  | leave faults line callSite callee outer hframes kind =>
    -- The comment goes to the call, which is among the open ones.
    cases hanchor
    exact hm.frames ⟨position, some callee⟩ (by rw [show m.frames = _ from hframes]; simp)
  | external faults external done kind room missing found ran =>
    cases hanchor
    exact ⟨token, htoken, by simp [IsAnchor, kind]⟩
  | idle | finish | abandon | openCall => cases hanchor

omit [Scope σ] in
theorem Tame.callee (hm : Tame safe m) {external : External σ} (takes : Nat)
    (hprogram : external.program.Plain) (hscope : safe external.scope) :
    Tame safe (m.callee takes external) :=
  ⟨hprogram, hscope, hm.stack.hide takes, by simp [Machine.callee], by simp [Machine.callee]⟩

/-- A step keeps a machine tame. -/
theorem Acts.tame (h : Acts run (m.advance token) m.pointer token anchor m') (hm : Tame safe m)
    (hsafe : Sheltered safe) (hrun : ∀ stop n, Tame safe n → Tame safe (run stop n))
    (htoken : m.program.token? m.pointer = some token) : Tame safe m' := by
  have hadvance : Tame safe (m.advance token) :=
    ⟨hm.program, hm.scope, hm.stack, hm.frames, hm.comments⟩
  cases h with
  | push v hpushed =>
    have htext : Text.OneLine token.text :=
      hm.program.token? htoken (isShort_of_pushed? hpushed).1 (isShort_of_pushed? hpushed).2
    rw [push_eq, work_eq]
    exact ⟨hm.program, hm.scope,
      Workspace.push_upholds upheld_oneLine hm.stack (oneLine_pushed hpushed htext), hm.frames,
      hm.comments⟩
  | opcode op kind =>
    rw [runOpcode, work_eq]
    exact ⟨hm.program, hm.scope,
      Opcode.run_upholds upheld_oneLine _ op (fun _ _ label h => h.jump label) hm.stack, hm.frames,
      hm.comments⟩
  | verbatim kind => exact hadvance
  | mark kind => exact ⟨hm.program, hm.scope, hm.stack.mark _, hm.frames, hm.comments⟩
  | idle faults kind => exact ⟨hm.program, hm.scope, hm.stack, hm.frames, hm.comments⟩
  | refuse faults kind reason => exact ⟨hm.program, hm.scope, hm.stack, hm.frames, hm.comments⟩
  | enter faults callSite outer kind hframes =>
    have hframes : m.frames = ⟨callSite, none⟩ :: outer := hframes
    refine ⟨hm.program, hm.scope, hm.stack.hide _, fun frame hframe => ?_, hm.comments⟩
    rcases List.mem_cons.1 hframe with rfl | hframe
    · exact hm.frames ⟨callSite, none⟩ (by rw [hframes]; simp)
    · exact hm.frames frame (by rw [hframes]; simp [hframe])
  | analyse faults kind hframes =>
    exact ⟨hm.program, hm.scope, Stack.oneLine_fresh (oneLineAll_inputs _) _, hm.frames,
      hm.comments⟩
  | leave faults line callSite callee outer hframes kind =>
    have hframes : m.frames = ⟨callSite, some callee⟩ :: outer := hframes
    refine ⟨hm.program, hm.scope, hm.stack.reveal _, fun frame hframe => ?_, hm.comments⟩
    exact hm.frames frame (by rw [hframes]; simp [show frame ∈ outer from hframe])
  | finish entry kind hframes hentry hstop =>
    exact ⟨hm.program, hm.scope, hm.stack.reveal _, hm.frames, hm.comments⟩
  | abandon entry kind hframes hentry hstop =>
    exact ⟨hm.program, hm.scope, hm.stack, hm.frames, hm.comments⟩
  | openCall extent kind room found =>
    refine ⟨hm.program, hm.scope, hm.stack, fun frame hframe => ?_, hm.comments⟩
    rcases List.mem_cons.1 hframe with rfl | hframe
    · exact ⟨token, htoken, by simp [IsAnchor, kind]⟩
    · exact hm.frames frame hframe
  | external faults external done kind room missing found ran =>
    obtain ⟨hprogram, hscope⟩ := hsafe _ _ _ hm.scope found
    -- Of the nested run only the stack comes back.
    have hdone : Tame safe done := by
      rw [ran]
      exact hrun _ _ (hadvance.callee _ hprogram hscope)
    exact ⟨hm.program, hm.scope, hdone.stack.reveal _, hm.frames, hm.comments⟩

omit [Scope σ] in
/-- A comment at an anchor keeps a machine tame. -/
theorem Tame.comment (hm : Tame safe m) {position : Nat}
    (hanchor : ∃ token, m.program.token? position = some token ∧ IsAnchor token) :
    Tame safe (m.comment position) := by
  obtain ⟨token, htoken, hkind⟩ := hanchor
  unfold Machine.comment
  rw [htoken]
  simp only
  split
  · next hrecord =>
    refine ⟨hm.program, hm.scope, hm.stack, hm.frames, fun c hc => ?_⟩
    rcases Array.mem_push.1 hc with hc | rfl
    · exact hm.comments c hc
    · exact ⟨⟨m.stack, hm.stack, rfl⟩, position, token, htoken, hkind, hrecord.2.1, rfl⟩
  · exact hm

theorem Tame.turn (hm : Tame safe m) (hsafe : Sheltered safe)
    (hrun : ∀ stop n, Tame safe n → Tame safe (run stop n))
    (htoken : m.program.token? m.pointer = some token) : Tame safe (m.turn run token) := by
  have hacts := step_acts run (m.advance token) m.pointer token
  have hafter := hacts.tame hm hsafe hrun htoken
  have hprogram : ((m.advance token).step run m.pointer token).2.program = m.program :=
    hacts.sameSetting.program
  unfold Machine.turn
  split
  · next position after hstep =>
    rw [hstep] at hafter hprogram
    refine hafter.comment ?_
    rw [show after.program = m.program from hprogram]
    exact hacts.anchored hm htoken (by rw [hstep])
  · next after hstep =>
    rw [hstep] at hafter
    exact hafter

end Turn

omit [Scope σ] in
theorem Tame.halt {safe : σ → Prop} {m : Machine σ} (hm : Tame safe m) (token : Token) :
    Tame safe (m.halt token) :=
  ⟨hm.program, hm.scope, hm.stack, hm.frames, hm.comments⟩

theorem Tame.runFor {safe : σ → Prop} (hsafe : Sheltered safe) (fuel stop : Nat) {m : Machine σ}
    (hm : Tame safe m) : Tame safe (Machine.runFor fuel stop m) := by
  induction fuel generalizing stop m with
  | zero =>
    unfold Machine.runFor
    split
    · exact hm
    · split
      · exact hm
      · exact hm.halt _
  | succ fuel ih =>
    unfold Machine.runFor
    split
    · exact hm
    · next token htoken =>
      split
      · exact hm
      · simp only
        split
        · exact hm.halt _
        · have hturn := hm.turn hsafe (fun stop n hn => ih stop hn) htoken
          split
          · exact hturn
          · exact ih stop hturn

/-- The comments of an execution belong to its program. -/
theorem recorded_execute {safe : σ → Prop} (hsafe : Sheltered safe) {program : Program} {scope : σ}
    (hprogram : program.Plain) (hscope : safe scope) (limits : Limits) {c : Comment}
    (hc : c ∈ (start program scope limits).execute.comments) : Recorded program c := by
  have hstart : Tame safe { start program scope limits with pointer := 0, halted := false } :=
    ⟨hprogram, hscope, ⟨nofun, nofun, nofun, nofun⟩, nofun, nofun⟩
  have hdone := hstart.runFor hsafe limits.steps program.size
  have hprogram := (runFor_sameSetting limits.steps program.size
    { start program scope limits with pointer := 0, halted := false }).program
  have hrecorded := hdone.comments c hc
  rwa [hprogram] at hrecorded

end Machine

end HuffTrace
