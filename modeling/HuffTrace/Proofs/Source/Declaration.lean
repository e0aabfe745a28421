/-
  HuffTrace.Proofs.Source.Declaration

  Definitions of signatures.  The signature of a definition is read from the
  first occurrence of its name on.  That is the name itself, unless it occurs in
  one of the two words before it: what stands from there on then becomes part
  of the signature (`ofDefinition?_text`).
-/

import HuffTrace.Proofs.Source.Header
import HuffTrace.Source.Program

namespace HuffTrace

/-! ## Definitions of signatures -/

/-- The word for a kind in a definition. -/
def SignatureKind.keyword : SignatureKind → List Char
  | function => "function".toList
  | event => "event".toList
  | error => "error".toList

/-- A definition of a signature. -/
structure Declaration where
  kind : SignatureKind
  name : List Char
  /-- What stands in the parentheses. -/
  parameters : List Char
  /-- What follows the parentheses. -/
  trailing : List Char
  nonempty : name ≠ []
  word : ∀ c ∈ name, Span.isWordChar c = true
  balanced : Parens.Balanced parameters

theorem isNameChar_of_isWordChar {c : Char} (h : Span.isWordChar c = true) :
    Signature.isNameChar c = true := by
  by_contra hname
  simp only [Signature.isNameChar, Bool.not_eq_true', Bool.not_eq_false, Bool.or_eq_true,
    Text.isQuote, List.contains_eq_mem, decide_eq_true_eq, List.mem_cons, beq_iff_eq,
    List.not_mem_nil, or_false] at hname
  rcases hname with (hblank | hquote) | hmark
  · rw [Span.foreign_isWordChar c (.inl hblank)] at h
    cases h
  · rcases hquote with rfl | rfl
    all_goals exact absurd h (by decide)
  · rcases hmark with rfl | rfl | rfl | rfl | rfl
    all_goals exact absurd h (by decide)

namespace Declaration

/-- The declared signature with a text after it. -/
def followedBy (d : Declaration) (rest : List Char) : List Char :=
  d.name ++ '(' :: (d.parameters ++ ')' :: rest)

/-- The declared signature. -/
def signature (d : Declaration) : List Char :=
  d.followedBy []

/-- The line of a definition. -/
def text (d : Declaration) : List Char :=
  "#define".toList ++ ' ' :: (d.kind.keyword ++ ' ' :: d.followedBy d.trailing)

/-- The declared signature in canonical form. -/
def canonical (d : Declaration) : List Char :=
  d.name ++ '(' :: ([','].intercalate (Signature.parameterTypes d.parameters) ++ [')'])

theorem text_eq (d : Declaration) :
    d.text
      = '#' :: ("define".toList ++ ' ' :: (d.kind.keyword ++ ' ' :: d.followedBy d.trailing)) := by
  have hdefine : "#define".toList = '#' :: "define".toList := by simp
  exact congrArg (· ++ ' ' :: (d.kind.keyword ++ ' ' :: d.followedBy d.trailing)) hdefine

theorem isNameChar_of_mem (d : Declaration) {c : Char} (hc : c ∈ d.name) :
    Signature.isNameChar c = true :=
  isNameChar_of_isWordChar (d.word c hc)

theorem not_mem_name (d : Declaration) {c : Char} (hc : Span.isWordChar c = false) :
    c ∉ d.name := by
  intro hmem
  rw [d.word c hmem] at hc
  cases hc

/-! ### The name -/

theorem keyword?_text (d : Declaration) :
    Header.keyword? d.text = some (d.kind.keyword, ' ' :: d.followedBy d.trailing) := by
  have hne : d.kind.keyword ≠ [] := by cases d.kind <;> decide
  have hdark : (d.kind.keyword.all fun c => !Text.isBlank c) = true := by cases d.kind <;> rfl
  have hspace : ∀ c ∈ [' '], Text.isBlank c = true := List.forall_mem_singleton.2 rfl
  exact Header.keyword?_append hspace hne (by simpa using hdark) (by decide)

theorem name?_text (d : Declaration) : Header.name? d.text = some d.name := by
  have hspace : ∀ c ∈ [' '], Text.isBlank c = true := List.forall_mem_singleton.2 rfl
  exact Header.name?_of_keyword? d.keyword?_text hspace d.nonempty d.word (by decide)

/-- Where the name of a definition is found.  Something stands between that place and the name
    only if the name occurs in one of the words before it. -/
theorem startingAt?_text (d : Declaration) :
    ∃ front, '(' ∉ front
      ∧ Text.startingAt? d.name d.text = some (front ++ d.followedBy d.trailing)
      ∧ (front = [] ↔ ¬ d.name <:+: "define".toList ∧ ¬ d.name <:+: d.kind.keyword) := by
  have hspace : ' ' ∉ d.name := d.not_mem_name (by decide)
  have hkeyword : '(' ∉ d.kind.keyword := by cases d.kind <;> decide
  -- A name has neither a hash nor a blank in it, so the words are searched one by one.
  have hhash : Text.startingAt? d.name d.text
      = Text.startingAt? d.name
        ("define".toList ++ ' ' :: (d.kind.keyword ++ ' ' :: d.followedBy d.trailing)) := by
    have hnone : ¬ d.name <:+: [] := fun h => d.nonempty (List.infix_nil.1 h)
    rw [text_eq]
    exact Text.startingAt?_of_not_isInfix d.nonempty (d.not_mem_name (by decide)) hnone _
  rw [hhash]
  by_cases hdefine : d.name <:+: "define".toList
  · obtain ⟨u, hsuffix, hfound⟩ := Text.startingAt?_of_isInfix d.nonempty hspace hdefine
      (d.kind.keyword ++ ' ' :: d.followedBy d.trailing)
    have hopen : '(' ∉ u := fun hmem => absurd (hsuffix.subset hmem) (by decide)
    refine ⟨u ++ ' ' :: (d.kind.keyword ++ [' ']), by simp [hopen, hkeyword], ?_,
      iff_of_false (by simp) fun h => h.1 hdefine⟩
    simpa using hfound
  rw [Text.startingAt?_of_not_isInfix d.nonempty hspace hdefine]
  by_cases hword : d.name <:+: d.kind.keyword
  · obtain ⟨u, hsuffix, hfound⟩ := Text.startingAt?_of_isInfix d.nonempty hspace hword
      (d.followedBy d.trailing)
    have hopen : '(' ∉ u := fun hmem => hkeyword (hsuffix.subset hmem)
    refine ⟨u ++ [' '], by simp [hopen], ?_, iff_of_false (by simp) fun h => h.2 hword⟩
    simpa using hfound
  rw [Text.startingAt?_of_not_isInfix d.nonempty hspace hword]
  refine ⟨[], by simp, ?_, iff_of_true rfl ⟨hdefine, hword⟩⟩
  exact Text.startingAt?_of_isPrefix d.nonempty (List.prefix_append _ _)

/-! ### The signature -/

/-- A text that ends with a name and starts as one is trimmed to itself. -/
theorem trim_append_name (d : Declaration) {front cs : List Char} {c : Char}
    (hc : Text.isBlank c = false) (h : front ++ d.name = c :: cs) :
    Text.trim (front ++ d.name) = front ++ d.name := by
  apply Text.dropEndWhile_dropWhile
  · rw [h]
    rintro x ⟨⟩
    exact hc
  · intro x hx
    rw [List.getLast?_append_of_ne_nil _ d.nonempty] at hx
    exact Signature.isBlank_of_isNameChar (d.isNameChar_of_mem (List.mem_of_mem_getLast? hx))

/-- What stands between an occurrence of the name and the signature stays in its canonical
    form. -/
theorem canonical?_append_followedBy (d : Declaration) {front rest : List Char}
    (hopen : '(' ∉ front) (hname : d.name <+: front ++ d.followedBy rest) :
    Signature.canonical? (front ++ d.followedBy rest) = some (front ++ d.canonical) := by
  obtain ⟨c, cs, hfirst⟩ := List.exists_cons_of_ne_nil d.nonempty
  have hc := d.isNameChar_of_mem (show c ∈ d.name by simp [hfirst])
  -- The front starts with an occurrence of the name, if it is not empty.
  have hhead : ∃ cs', front ++ d.name = c :: cs' := by
    cases front with
    | nil => exact ⟨cs, hfirst⟩
    | cons x front =>
      rw [hfirst] at hname
      obtain ⟨rfl, -⟩ := List.cons_prefix_cons.1 hname
      exact ⟨front ++ d.name, rfl⟩
  obtain ⟨cs', hhead⟩ := hhead
  have hopen' : '(' ∉ front ++ d.name := by
    simp [hopen, d.not_mem_name (show Span.isWordChar '(' = false by decide)]
  have hcanonical := @Signature.canonical?_enclosed [] [] [] _ _ _ _ (by simp) (by simp) (by simp)
    hhead hc hopen' d.balanced rest
  rw [d.trim_append_name (Signature.isBlank_of_isNameChar hc) hhead] at hcanonical
  simpa [followedBy, canonical] using hcanonical

theorem canonical?_signature (d : Declaration) :
    Signature.canonical? d.signature = some d.canonical :=
  @d.canonical?_append_followedBy [] [] (by simp) (List.prefix_append _ _)

/-- The signature of a definition is the declared one exactly if the name of the definition
    occurs in no word before it. -/
theorem ofDefinition?_text (d : Declaration) :
    ∃ front, Signature.ofDefinition? d.text = some (front ++ d.canonical)
      ∧ (front = [] ↔ ¬ d.name <:+: "define".toList ∧ ¬ d.name <:+: d.kind.keyword) := by
  obtain ⟨front, hopen, hfound, hfront⟩ := d.startingAt?_text
  refine ⟨front, ?_, hfront⟩
  simp only [Signature.ofDefinition?, d.name?_text, hfound, Option.bind_eq_bind, Option.bind_some]
  exact d.canonical?_append_followedBy hopen (Text.isPrefix_of_startingAt? hfound)

end Declaration

/-! ## Lookup -/

/-- A token is that of a lexeme with a text. -/
structure Token.Spells (t : Token) (lexeme : Lexeme) (text : List Char) : Prop where
  kind : t.kind = classify text lexeme
  text : t.text = .ofList text

/-- A declaration is the first of its kind and name in a program. -/
def Declaration.IsFirst (d : Declaration) (p : Program) : Prop :=
  ∃ before token after, p.tokens.toList = before ++ token :: after
    ∧ token.Spells (.interface d.kind) d.text
    ∧ ∀ t ∈ before, t.kind = .interface d.kind → Header.name? t.text.toList ≠ some d.name

theorem Program.kind_of_signatureOf? {t : Token} {kind : SignatureKind} {name signature : String}
    (h : signatureOf? t = some ((kind, name), signature)) :
    t.kind = .interface kind ∧ Header.name? t.text.toList = some name.toList := by
  unfold signatureOf? at h
  split at h
  · next kind' hkind =>
    simp only [Option.bind_eq_bind, Option.bind_eq_some_iff, Option.some.injEq,
      Prod.mk.injEq] at h
    obtain ⟨name', hname, -, -, ⟨rfl, rfl⟩, -⟩ := h
    exact ⟨hkind, by rw [hname, String.toList_ofList]⟩
  · cases h

/-- The first definition of a kind and name is what is found by them. -/
theorem Declaration.IsFirst.findSignature? {d : Declaration} {p : Program} (h : d.IsFirst p)
    {signature : List Char} (hsignature : Signature.ofDefinition? d.text = some signature) :
    p.findSignature? d.kind (.ofList d.name) = some (.ofList signature) := by
  obtain ⟨before, token, after, hsplit, hspells, hbefore⟩ := h
  have htoken : Program.signatureOf? token
      = some ((d.kind, .ofList d.name), .ofList signature) := by
    simp only [Program.signatureOf?, hspells.kind, Token.classify, hspells.text,
      String.toList_ofList, d.name?_text, hsignature, Option.bind_eq_bind, Option.bind_some]
  rw [Program.findSignature?, p.signatures_eq, Program.signatureTable, hsplit,
    List.filterMap_append, List.filterMap_cons_some htoken, List.lookup_eq_some_iff]
  refine ⟨_, _, rfl, ?_⟩
  -- A signature in the table before this one has another kind or another name.
  rintro ⟨key, other⟩ hmem
  obtain ⟨t, ht, hother⟩ := List.mem_filterMap.1 hmem
  rw [bne_iff_ne]
  rintro rfl
  obtain ⟨hkind, hname⟩ := Program.kind_of_signatureOf? hother
  rw [String.toList_ofList] at hname
  exact hbefore t ht hkind hname

end HuffTrace
