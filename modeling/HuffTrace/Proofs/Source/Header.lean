/-
  HuffTrace.Proofs.Source.Header

  Heads of macro definitions as they are written, with blanks wherever they can
  stand, and what is read of them.  The name is searched for from the start of
  the text, where it may be found too early, and the words before the numbers
  may occur among the parameters.  Neither matters: no parenthesis stands before
  the parameters, so the first group after the name is theirs wherever the name
  is found, and what comes before a number after that lacks the first letter of
  its word (`parse?_text`).
-/

import HuffTrace.Proofs.Source.Lookahead
import HuffTrace.Proofs.Source.Signature
import HuffTrace.Proofs.Text.Decimal
import HuffTrace.Proofs.Text.Search

namespace HuffTrace

/-! ## Words before a name -/

theorem Span.isBlank_of_isWordChar {c : Char} (h : isWordChar c = true) :
    Text.isBlank c = false := by
  by_contra hblank
  have hforeign := foreign_isWordChar c (.inl (by simpa using hblank))
  rw [h] at hforeign
  cases hforeign

namespace Header

variable {blanks word name rest : List Char} {c : Char}

/-- The word after `#define` is the keyword of a definition. -/
theorem keyword?_append (hblanks : ∀ x ∈ blanks, Text.isBlank x = true) (hne : word ≠ [])
    (hword : ∀ x ∈ word, Text.isBlank x = false) (hc : Text.isBlank c = true) :
    keyword? ("#define".toList ++ (blanks ++ (word ++ c :: rest))) = some (word, c :: rest) := by
  have hdark : ∀ x ∈ word, (!Text.isBlank x) = true := fun x hx => by simp [hword x hx]
  have hstart : Text.trimStart (blanks ++ (word ++ c :: rest)) = word ++ c :: rest := by
    obtain ⟨x, xs, rfl⟩ := List.exists_cons_of_ne_nil hne
    rw [Text.trimStart, List.dropWhile_append_of_pos hblanks, List.cons_append,
      List.dropWhile_cons_of_neg (by simp [hword x])]
  have hafter : afterDefine? ("#define".toList ++ (blanks ++ (word ++ c :: rest)))
      = some (word ++ c :: rest) := by
    have hhash : ∀ cs, Text.trimStart ("#define".toList ++ cs) = "#define".toList ++ cs :=
      fun cs => List.dropWhile_cons_of_neg (by decide)
    rw [afterDefine?, hhash, Text.dropStart?_eq_some_iff.2 rfl, Option.map_some, hstart]
  simp only [keyword?, hafter, Option.bind_eq_bind, Option.bind_some]
  rw [if_pos (by simp [hc]), List.takeWhile_append_of_pos hdark, List.dropWhile_append_of_pos hdark,
    List.takeWhile_cons_of_neg (by simp [hc]), List.dropWhile_cons_of_neg (by simp [hc]),
    List.append_nil]

/-- The name of a definition goes up to the first character that no name has. -/
theorem name?_of_keyword? {cs : List Char} {d : Char}
    (hkeyword : keyword? cs = some (word, blanks ++ (name ++ d :: rest)))
    (hblanks : ∀ x ∈ blanks, Text.isBlank x = true) (hne : name ≠ [])
    (hname : ∀ x ∈ name, Span.isWordChar x = true) (hd : Span.isWordChar d = false) :
    name? cs = some name := by
  have hstart : Text.trimStart (blanks ++ (name ++ d :: rest)) = name ++ d :: rest := by
    obtain ⟨x, xs, rfl⟩ := List.exists_cons_of_ne_nil hne
    have hx : Text.isBlank x = false := Span.isBlank_of_isWordChar (hname x (by simp))
    rw [Text.trimStart, List.dropWhile_append_of_pos hblanks, List.cons_append,
      List.dropWhile_cons_of_neg (by simp [hx])]
  simp only [name?, hkeyword, Option.bind_eq_bind, Option.bind_some, hstart]
  rw [List.takeWhile_append_of_pos hname, List.takeWhile_cons_of_neg (by simp [hd]),
    List.append_nil, if_neg (by simp [hne])]

end Header

/-! ## Written heads -/

/-- The keywords of macro definitions. -/
def macroKeywords : List String :=
  ["macro", "fn", "test"]

/-- A number of stack items in parentheses, after its word. -/
structure Arity where
  before : Signature.Blanks
  inside : Signature.Blanks
  count : Nat
  after : Signature.Blanks
  fits : count < UInt64.size

/-- A number with its parentheses and a text after them. -/
def Arity.followedBy (a : Arity) (rest : List Char) : List Char :=
  a.before.text ++ '(' :: (a.inside.text ++ ((Text.decimal a.count).toList ++ (a.after.text
    ++ ')' :: rest)))

/-- The head of a macro definition with the blanks between its parts.  Only the keyword and the
    name have to be divided by them. -/
structure Heading where
  keyword : String
  name : List Char
  /-- What stands in the parentheses after the name. -/
  parameters : List Char
  takes : Arity
  returns : Arity
  afterDefine : Signature.Blanks
  afterKeyword : Signature.Blanks
  afterName : Signature.Blanks
  beforeEquals : Signature.Blanks
  afterEquals : Signature.Blanks
  beforeReturns : Signature.Blanks
  beforeBody : Signature.Blanks
  known : keyword ∈ macroKeywords
  nonempty : name ≠ []
  word : ∀ c ∈ name, Span.isWordChar c = true
  balanced : Parens.Balanced parameters
  apart : afterKeyword.text ≠ []

namespace Heading

/-- What follows the parameters. -/
def afterParameters (h : Heading) : List Char :=
  h.beforeEquals.text ++ '=' :: (h.afterEquals.text ++ ("takes".toList
    ++ h.takes.followedBy (h.beforeReturns.text ++ ("returns".toList
      ++ h.returns.followedBy (h.beforeBody.text ++ ['\x7b'])))))

/-- A head as it is written. -/
def text (h : Heading) : List Char :=
  "#define".toList ++ (h.afterDefine.text ++ (h.keyword.toList ++ (h.afterKeyword.text
    ++ (h.name ++ (h.afterName.text ++ '(' :: (h.parameters ++ ')' :: h.afterParameters))))))

/-- What is to be read of a head. -/
def header (h : Heading) : Header where
  kind := h.keyword
  name := .ofList h.name
  takes := some h.takes.count
  returns := some h.returns.count

end Heading

/-! ## Numbers -/

theorem Signature.Blanks.not_mem (b : Signature.Blanks) {c : Char} (hc : Text.isBlank c = false) :
    c ∉ b.text := by
  intro hmem
  rw [b.blank c hmem] at hc
  cases hc

namespace Arity

variable (a : Arity)

theorem isDigit_of_mem {c : Char} (hc : c ∈ (Text.decimal a.count).toList) : c.isDigit = true := by
  rw [Text.decimal, String.toList_ofList] at hc
  exact Nat.isDigit_of_mem_toDigits (by decide) (by decide) hc

theorem not_mem_decimal {c : Char} (hc : c.isDigit = false) :
    c ∉ (Text.decimal a.count).toList := by
  intro hmem
  rw [a.isDigit_of_mem hmem] at hc
  cases hc

theorem trim_inside :
    Text.trim (a.inside.text ++ ((Text.decimal a.count).toList ++ a.after.text))
      = (Text.decimal a.count).toList := by
  rw [Text.trim_append_left a.inside.blank, Text.trim_append_right a.after.blank]
  apply Text.trim_of_forall_dark
  intro c hc
  apply Span.isBlank_of_isWordChar
  simp [Span.isWordChar, Char.isAlphanum, a.isDigit_of_mem hc]

/-- A number is read after the first occurrence of its word. -/
theorem arity?_of_after? {word : String} {cs rest : List Char}
    (h : Text.after? word.toList cs = some (a.followedBy rest)) :
    Header.arity? word cs = some a.count := by
  have hopen : Text.trimStart (a.followedBy rest)
      = ['('] ++ (a.inside.text ++ ((Text.decimal a.count).toList ++ a.after.text)
        ++ ')' :: rest) := by
    rw [Text.trimStart, followedBy, List.dropWhile_append_of_pos a.before.blank,
      List.dropWhile_cons_of_neg (by decide)]
    simp
  have hclose : ')' ∉ a.inside.text ++ ((Text.decimal a.count).toList ++ a.after.text) := by
    simp [a.inside.not_mem (show Text.isBlank ')' = false by decide),
      a.after.not_mem (show Text.isBlank ')' = false by decide),
      a.not_mem_decimal (show ')'.isDigit = false by decide)]
  simp only [Header.arity?, h, hopen, Text.dropStart?_eq_some_iff.2 rfl, Option.bind_eq_bind,
    Option.bind_some]
  rw [if_pos (by simp), Parens.takeWhile_ne_append hclose, a.trim_inside, Text.decimal,
    String.toList_ofList]
  exact Text.natural?_eq_some_iff.2 ⟨a.fits, 0, .inl rfl⟩

end Arity

namespace Heading

variable (h : Heading)

/-! ## Kind and name -/

theorem isBlank_of_mem_keyword {c : Char} (hc : c ∈ h.keyword.toList) : Text.isBlank c = false := by
  have hdark : ∀ word ∈ macroKeywords, (word.toList.all fun c => !Text.isBlank c) = true := by
    decide
  simpa using List.all_eq_true.1 (hdark h.keyword h.known) c hc

theorem not_mem_name {c : Char} (hc : Span.isWordChar c = false) : c ∉ h.name := by
  intro hmem
  rw [h.word c hmem] at hc
  cases hc

theorem keyword?_text :
    Header.keyword? h.text
      = some (h.keyword.toList, h.afterKeyword.text ++ (h.name ++ (h.afterName.text
        ++ '(' :: (h.parameters ++ ')' :: h.afterParameters)))) := by
  have hne : ∀ word ∈ macroKeywords, word.toList ≠ [] := by decide
  obtain ⟨c, blanks, hblanks⟩ := List.exists_cons_of_ne_nil h.apart
  have hc : Text.isBlank c = true := h.afterKeyword.blank c (by simp [hblanks])
  show Header.keyword? ("#define".toList ++ (h.afterDefine.text ++ (h.keyword.toList
    ++ (h.afterKeyword.text ++ _)))) = _
  rw [hblanks, List.cons_append]
  exact Header.keyword?_append h.afterDefine.blank (hne h.keyword h.known)
    (fun _ => h.isBlank_of_mem_keyword) hc

theorem name?_text : Header.name? h.text = some h.name := by
  -- After the name comes a blank or the parenthesis.
  obtain ⟨d, rest, hd, hrest⟩ : ∃ d rest, Span.isWordChar d = false
      ∧ h.afterName.text ++ '(' :: (h.parameters ++ ')' :: h.afterParameters) = d :: rest := by
    cases hblanks : h.afterName.text with
    | nil => exact ⟨'(', _, by decide, rfl⟩
    | cons d rest =>
      exact ⟨d, _, Span.foreign_isWordChar d (.inl (h.afterName.blank d (by simp [hblanks]))), rfl⟩
  have hkeyword := h.keyword?_text
  rw [hrest] at hkeyword
  exact Header.name?_of_keyword? hkeyword h.afterKeyword.blank h.nonempty h.word hd

/-! ## Parameters -/

/-- Wherever the name is found, the first group of parentheses after it is that of the
    parameters. -/
theorem exists_after?_text :
    ∃ afterName, Text.after? h.name h.text = some afterName
      ∧ Parens.group? afterName = some (h.parameters, h.afterParameters) := by
  have hopen : Text.isBlank '(' = false := by decide
  have hkeyword : '(' ∉ h.keyword.toList := by
    have hall : ∀ word ∈ macroKeywords, '(' ∉ word.toList := by decide
    exact hall h.keyword h.known
  have hdefine : '(' ∉ "#define".toList := by decide
  obtain ⟨between, hbetween, hfound⟩ := Text.after?_append h.nonempty
    ("#define".toList ++ (h.afterDefine.text ++ (h.keyword.toList ++ h.afterKeyword.text)))
    (h.afterName.text ++ '(' :: (h.parameters ++ ')' :: h.afterParameters))
  refine ⟨between ++ (h.afterName.text ++ '(' :: (h.parameters ++ ')' :: h.afterParameters)),
    ?_, ?_⟩
  · simp only [List.append_assoc] at hfound
    exact hfound
  · rw [← List.append_assoc]
    refine Parens.group?_append ?_ h.balanced _
    rw [List.mem_append, not_or]
    refine ⟨fun hmem => ?_, h.afterName.not_mem hopen⟩
    -- Up to the end of the name there is no parenthesis.
    have hfront := hbetween hmem
    simp only [List.mem_append, hdefine, h.afterDefine.not_mem hopen, hkeyword,
      h.afterKeyword.not_mem hopen, h.not_mem_name (show Span.isWordChar '(' = false by decide),
      or_self] at hfront

/-! ## Numbers of inputs and outputs -/

theorem arity?_takes : Header.arity? "takes" h.afterParameters = some h.takes.count := by
  have hword : "takes".toList = 't' :: "akes".toList := by decide
  have hblank : Text.isBlank 't' = false := by decide
  have hfront : 't' ∉ h.beforeEquals.text ++ '=' :: h.afterEquals.text := by
    simp [h.beforeEquals.not_mem hblank, h.afterEquals.not_mem hblank]
  apply h.takes.arity?_of_after?
  have hfound := Text.after?_append_of_not_mem hfront "akes".toList
    (h.takes.followedBy (h.beforeReturns.text ++ ("returns".toList
      ++ h.returns.followedBy (h.beforeBody.text ++ ['\x7b']))))
  rw [← hword] at hfound
  simpa only [afterParameters, List.append_assoc, List.cons_append] using hfound

theorem arity?_returns : Header.arity? "returns" h.afterParameters = some h.returns.count := by
  have hword : "returns".toList = 'r' :: "eturns".toList := by decide
  have hblank : Text.isBlank 'r' = false := by decide
  have htakes : 'r' ∉ "takes".toList := by decide
  -- Before the word stand blanks, marks, the other word and digits, and no `r` among them.
  have hfront : 'r' ∉ h.beforeEquals.text ++ '=' :: (h.afterEquals.text ++ ("takes".toList
      ++ h.takes.followedBy h.beforeReturns.text)) := by
    simp [Arity.followedBy, h.beforeEquals.not_mem hblank, h.afterEquals.not_mem hblank,
      h.takes.before.not_mem hblank, h.takes.inside.not_mem hblank, h.takes.after.not_mem hblank,
      h.beforeReturns.not_mem hblank,
      h.takes.not_mem_decimal (show 'r'.isDigit = false by decide)]
  apply h.returns.arity?_of_after?
  have hfound := Text.after?_append_of_not_mem hfront "eturns".toList
    (h.returns.followedBy (h.beforeBody.text ++ ['\x7b']))
  rw [← hword] at hfound
  simpa only [afterParameters, Arity.followedBy, List.append_assoc, List.cons_append] using hfound

/-! ## The head as a whole -/

/-- A head of a macro definition is read as it was written: for every keyword, name, balanced
    parameters and numbers below `2 ^ 64`, and with any blanks between its parts. -/
theorem parse?_text : Header.parse? h.text = some h.header := by
  obtain ⟨afterName, hafter, hgroup⟩ := h.exists_after?_text
  simp only [Header.parse?, Header.kind?, h.keyword?_text, h.name?_text, hafter, hgroup,
    h.arity?_takes, h.arity?_returns, Option.map_some, Option.bind_eq_bind, Option.bind_some,
    Option.getD_some, String.ofList_toList, Option.pure_def, header]

/-- A head whose name is found inside `#define` and whose parameters name the words of the
    numbers, the second number being the largest that there is. -/
def misleading : Heading where
  keyword := "fn"
  name := ['e']
  parameters := "takes(7), returns".toList
  takes := { before := .space, inside := .space, count := 2, after := .space, fits := by decide }
  returns :=
    { before := .none, inside := .none, count := 18446744073709551615, after := .none
      fits := by decide }
  afterDefine := ⟨['\t'], List.all_eq_true.1 (by decide)⟩
  afterKeyword := .space
  afterName := .space
  beforeEquals := .none
  afterEquals := ⟨['\n', ' '], List.all_eq_true.1 (by decide)⟩
  beforeReturns := .none
  beforeBody := .none
  known := by decide
  nonempty := by decide
  word := List.all_eq_true.1 (by decide)
  balanced := by decide
  apart := by decide

theorem parse?_text_misleading :
    misleading.text
        = "#define\tfn e (takes(7), returns)=\n takes ( 2 )returns(18446744073709551615)\x7b".toList
      ∧ Header.parse? misleading.text = some ⟨"fn", "e", some 2, some 18446744073709551615⟩ :=
  ⟨by decide +kernel, parse?_text misleading⟩

end Heading

end HuffTrace
