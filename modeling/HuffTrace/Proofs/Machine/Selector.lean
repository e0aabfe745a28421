/-
  HuffTrace.Proofs.Machine.Selector

  Selectors by name and by signature.  A builtin pushes the selector of the
  signature in its argument, or that of the first definition with the name in
  its argument.  For a definition the two are the same as long as its signature
  is found where it is written (`selectors_agree_iff`).
-/

import HuffTrace.Machine.Step
import HuffTrace.Proofs.Source.Declaration

namespace HuffTrace

/-! ## Invocations -/

/-- The name of the builtin for the selectors of a kind. -/
def SignatureKind.builtinName : SignatureKind → List Char
  | function => "__FUNC_SIG".toList
  | event => "__EVENT_HASH".toList
  | error => "__ERROR".toList

/-- The builtin of a kind with an argument. -/
def SignatureKind.invocation (kind : SignatureKind) (argument : List Char) : List Char :=
  kind.builtinName ++ '(' :: (argument ++ [')'])

theorem SignatureKind.classify_invocation (kind : SignatureKind) (argument : List Char) :
    Token.classify (kind.invocation argument) .invocation = .builtin (.selector kind) := by
  have hopen : '(' ∉ kind.builtinName := by cases kind <;> decide
  have hword : ∀ c ∈ kind.builtinName, Signature.isNameChar c = true :=
    List.all_eq_true.1 (by cases kind <;> decide)
  have hname : Token.calledName (kind.invocation argument) = kind.builtinName := by
    rw [Token.calledName, invocation, Parens.takeWhile_ne_append hopen,
      Text.trim_of_forall_dark fun c hc => Signature.isBlank_of_isNameChar (hword c hc)]
  have hbuiltin : Builtin.ofName? (.ofList kind.builtinName) = some (.selector kind) := by
    cases kind <;> decide
  rw [Token.classify, hname, hbuiltin]

theorem Token.argument_of_invocation {t : Token} {kind : SignatureKind} {argument : List Char}
    (h : t.text = .ofList (kind.invocation argument)) : t.argument = Text.trim argument := by
  have hopen : '(' ∉ kind.builtinName := by cases kind <;> decide
  rw [Token.argument, h, String.toList_ofList, SignatureKind.invocation,
    Parens.dropWhile_ne_append hopen, List.tail_cons, Text.dropEndWhile_append_cons (by decide)]
  simp [Text.dropEndWhile]

/-! ## Selectors -/

namespace Machine

variable {σ : Type} [Scope σ]

theorem step_invocation (run : Nat → Machine σ → Machine σ) (m : Machine σ) (position : Nat)
    {t : Token} {kind : SignatureKind} {argument : List Char}
    (h : t.Spells .invocation (kind.invocation argument)) :
    m.step run position t
      = (some position, m.push (m.selectorOf kind (Text.trim argument))) := by
  rw [step, h.kind, kind.classify_invocation]
  simp only [runBuiltin, Token.argument_of_invocation h.text]

/-- A text that starts and ends with characters of a signature is taken as it is. -/
theorem selectorOf_trim (m : Machine σ) (kind : SignatureKind) {argument : List Char}
    (hfirst : ∀ c ∈ argument.head?, Text.isBlank c = false ∧ Text.isQuote c = false)
    (hlast : ∀ c ∈ argument.getLast?, Text.isBlank c = false ∧ Text.isQuote c = false) :
    m.selectorOf kind (Text.trim argument)
      = Signature.selector
        ((if argument.contains '(' then (Signature.canonical? argument).map String.ofList
          else m.findSignature? kind (.ofList argument)).getD (.ofList argument)) := by
  have hblanks : Text.trim argument = argument :=
    Text.dropEndWhile_dropWhile (fun c hc => (hfirst c hc).1) (fun c hc => (hlast c hc).1)
  have hquotes : Text.trimQuotes argument = argument :=
    Text.dropEndWhile_dropWhile (fun c hc => (hfirst c hc).2) (fun c hc => (hlast c hc).2)
  simp only [selectorOf, hblanks, hquotes]

theorem selectorOf_name {m : Machine σ} {d : Declaration} (h : d.IsFirst m.program)
    {signature : List Char} (hsignature : Signature.ofDefinition? d.text = some signature) :
    m.selectorOf d.kind (Text.trim d.name) = Signature.selector (.ofList signature) := by
  have hends : ∀ c ∈ d.name, Text.isBlank c = false ∧ Text.isQuote c = false := fun c hc =>
    ⟨Signature.isBlank_of_isNameChar (d.isNameChar_of_mem hc),
      Signature.isQuote_of_isNameChar (d.isNameChar_of_mem hc)⟩
  have hopen : d.name.contains '(' = false := by
    simpa using d.not_mem_name (show Span.isWordChar '(' = false by decide)
  -- Without a parenthesis the argument is looked up.
  rw [selectorOf_trim m d.kind (fun c hc => hends c (List.mem_of_mem_head? hc))
      (fun c hc => hends c (List.mem_of_mem_getLast? hc)), hopen, findSignature?,
    h.findSignature? hsignature]
  rfl

theorem selectorOf_signature (m : Machine σ) (d : Declaration) :
    m.selectorOf d.kind (Text.trim d.signature) = Signature.selector (.ofList d.canonical) := by
  have hfirst : ∀ c ∈ d.signature.head?, Text.isBlank c = false ∧ Text.isQuote c = false := by
    intro c hc
    rw [Declaration.signature, Declaration.followedBy,
      List.head?_append_of_ne_nil _ d.nonempty] at hc
    have hname := d.isNameChar_of_mem (List.mem_of_mem_head? hc)
    exact ⟨Signature.isBlank_of_isNameChar hname, Signature.isQuote_of_isNameChar hname⟩
  have hlast : ∀ c ∈ d.signature.getLast?,
      Text.isBlank c = false ∧ Text.isQuote c = false := by
    intro c hc
    have hclose : d.signature = (d.name ++ '(' :: d.parameters) ++ [')'] := by
      simp [Declaration.signature, Declaration.followedBy]
    rw [hclose, List.getLast?_concat] at hc
    obtain rfl := Option.some.inj hc
    decide
  have hopen : d.signature.contains '(' = true := by
    simp [Declaration.signature, Declaration.followedBy]
  rw [selectorOf_trim m d.kind hfirst hlast, hopen, if_pos rfl, d.canonical?_signature]
  rfl

end Machine

/-- The selector of a name is that of the signature which its definition declares, and the
    selector of a signature that of its canonical form.  The declared signature is the canonical
    form exactly if the name occurs in no word before it. -/
theorem Declaration.selectors_agree_iff (d : Declaration) :
    ∃ declared written, Signature.ofDefinition? d.text = some declared
      ∧ Signature.canonical? d.signature = some written
      ∧ (declared = written ↔ ¬ d.name <:+: "define".toList ∧ ¬ d.name <:+: d.kind.keyword)
      ∧ ∀ {σ : Type} [Scope σ] (m : Machine σ) (run : Nat → Machine σ → Machine σ)
          (position : Nat) (byName bySignature : Token), d.IsFirst m.program →
          byName.Spells .invocation (d.kind.invocation d.name) →
          bySignature.Spells .invocation (d.kind.invocation d.signature) →
          m.step run position byName
              = (some position, m.push (Signature.selector (.ofList declared)))
            ∧ m.step run position bySignature
              = (some position, m.push (Signature.selector (.ofList written))) := by
  obtain ⟨front, hdeclared, hfront⟩ := d.ofDefinition?_text
  refine ⟨front ++ d.canonical, d.canonical, hdeclared, d.canonical?_signature, ?_, ?_⟩
  · -- Both have the same parameters, so they differ by the front of the declared one.
    rw [← hfront, List.append_left_eq_self]
  · intro σ _ m run position byName bySignature hfirst hname hsignature
    rw [Machine.step_invocation run m position hname,
      Machine.step_invocation run m position hsignature,
      Machine.selectorOf_name hfirst hdeclared, m.selectorOf_signature d]
    exact ⟨rfl, rfl⟩

/-- A function with a named parameter. -/
def balanceOf : Declaration where
  kind := .function
  name := "balanceOf".toList
  parameters := "address owner".toList
  trailing := " view returns (uint256)".toList
  nonempty := by decide
  word := List.all_eq_true.1 (by decide)
  balanced := by decide

/-- A program that defines an event, and then two functions, the second one with the name of
    the event. -/
def interfaces : Program :=
  .ofTokens #[⟨.interface .event, "#define event balanceOf(uint256)", 1, 1⟩,
    ⟨.interface .function, "#define function transfer(address,uint256)", 2, 2⟩,
    ⟨.interface .function, .ofList balanceOf.text, 3, 3⟩]

/-- The machine before the first token of that program. -/
def beforeInterfaces : Machine Isolated :=
  .start interfaces .isolated

/-- A selector asked for by name and by signature is the same value. -/
theorem Declaration.selectors_agree_iff_balanceOf :
    (balanceOf.IsFirst interfaces ∧ ¬ balanceOf.name <:+: "define".toList
        ∧ ¬ balanceOf.name <:+: balanceOf.kind.keyword)
      ∧ Signature.ofDefinition? balanceOf.text = some "balanceOf(address)".toList
      ∧ beforeInterfaces.step (fun _ m => m) 3
          ⟨.builtin (.selector .function), "__FUNC_SIG(balanceOf)", 4, 4⟩
        = beforeInterfaces.step (fun _ m => m) 3
          ⟨.builtin (.selector .function), "__FUNC_SIG(balanceOf(address owner))", 4, 4⟩ := by
  have hfirst : balanceOf.IsFirst interfaces := by
    refine ⟨_, _, [], (List.append_assoc [_] [_] [_]).symm, ⟨rfl, rfl⟩, ?_⟩
    decide +kernel
  have hword : ¬ balanceOf.name <:+: "define".toList
      ∧ ¬ balanceOf.name <:+: balanceOf.kind.keyword := by decide +kernel
  obtain ⟨declared, written, -, -, hiff, hsteps⟩ := balanceOf.selectors_agree_iff
  obtain ⟨hname, hsignature⟩ := hsteps beforeInterfaces (fun _ m => m) 3
    ⟨.builtin (.selector .function), "__FUNC_SIG(balanceOf)", 4, 4⟩
    ⟨.builtin (.selector .function), "__FUNC_SIG(balanceOf(address owner))", 4, 4⟩
    hfirst ⟨by decide +kernel, by decide +kernel⟩ ⟨by decide +kernel, by decide +kernel⟩
  refine ⟨⟨hfirst, hword⟩, by decide +kernel, ?_⟩
  rw [hname, hsignature, hiff.2 hword]

/-- A function whose name is a letter of `define`. -/
def oneLetter : Declaration where
  kind := .function
  name := ['f']
  parameters := "uint256".toList
  trailing := " view returns (uint256)".toList
  nonempty := by decide
  word := List.all_eq_true.1 (by decide)
  balanced := by decide

/-- The words between become part of the signature. -/
theorem Declaration.ofDefinition?_takes_keyword_in :
    oneLetter.text = "#define function f(uint256) view returns (uint256)".toList
      ∧ Signature.ofDefinition? oneLetter.text = some "fine function f(uint256)".toList
      ∧ Signature.canonical? oneLetter.signature = some "f(uint256)".toList
      ∧ Signature.ofDefinition? oneLetter.text ≠ Signature.canonical? oneLetter.signature := by
  decide +kernel

end HuffTrace
