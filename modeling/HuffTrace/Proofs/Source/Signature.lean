/-
  HuffTrace.Proofs.Source.Signature

  Signatures as they are written, and their canonical forms.  A parameter is a
  type with modifiers and a name after it, its labels; a type is a name, or
  parameters of its own in parentheses, with array suffixes.  Blanks stand
  wherever they can.  The canonical form keeps the types alone.

  A canonical form is read off the text without a parser: a parameter is cut at
  the first blank outside of parentheses, and blanks are then dropped from what
  is left of it.  That finds the type exactly if the blanks divide it from the
  labels, and nothing inside of its parentheses has a label
  (`canonical?_text_iff`).
-/

import HuffTrace.Proofs.Source.Parens
import HuffTrace.Proofs.Text.Trim
import HuffTrace.Source.Signature

namespace HuffTrace.Signature

open Parens

/-! ## The canonical form of a text -/

/-- The canonical form has the text before the first group of parentheses as its name. -/
theorem canonical?_eq {cs head inside rest : List Char}
    (hstrip : Text.trimQuotes (Text.trim cs) = head ++ '(' :: (inside ++ ')' :: rest))
    (hhead : '(' ∉ head) (hinside : Balanced inside) :
    canonical? cs
      = some (Text.trim head ++ '(' :: ([','].intercalate (parameterTypes inside) ++ [')'])) := by
  simp only [canonical?, hstrip, group?_append hhead hinside, takeWhile_ne_append hhead,
    Option.bind_eq_bind, Option.bind_some, Option.pure_def, List.append_assoc, List.cons_append]

/-! ## Written signatures -/

/-- A character of a name: no blank, no quote and no mark of a signature. -/
def isNameChar (c : Char) : Bool :=
  !(Text.isBlank c || Text.isQuote c || ['(', ')', ',', '[', ']'].contains c)

/-- A run of blanks, possibly of none. -/
structure Blanks where
  text : List Char
  blank : ∀ c ∈ text, Text.isBlank c = true

/-- A name: of a signature, an elementary type, a modifier or a parameter. -/
structure Name where
  text : List Char
  nonempty : text ≠ []
  plain : ∀ c ∈ text, isNameChar c = true

/-- An array suffix with the blanks before it. -/
structure Suffix where
  before : Blanks
  /-- What stands between the brackets. -/
  length : List Char
  plain : ∀ c ∈ length, isNameChar c = true ∨ Text.isBlank c = true

/-- A modifier or the name of a parameter, with the blanks before it. -/
structure Label where
  before : Blanks
  name : Name

/-- What follows the name or the components of a type.  Labels that follow each other are
    divided by blanks. -/
structure Ending where
  suffixes : List Suffix
  labels : List Label
  after : Blanks
  apart : ∀ label ∈ labels.tail, label.before.text ≠ []

/-- A parameter.  Between the name of a type and a label there are blanks; after a parenthesis
    or a bracket there need not be any. -/
inductive Parameter where
  | elementary (before : Blanks) (name : Name) (ending : Ending)
      (apart : ending.suffixes = [] → ∀ label ∈ ending.labels, label.before.text ≠ [])
  | tuple (before inside : Blanks) (components : List Parameter) (ending : Ending)

/-- A signature, which may stand in quotes. -/
structure Written where
  outside : Blanks
  opening : List Char
  before : Blanks
  name : Name
  afterName : Blanks
  inside : Blanks
  parameters : List Parameter
  after : Blanks
  closing : List Char
  outsideAfter : Blanks
  opening_quotes : ∀ c ∈ opening, Text.isQuote c = true
  closing_quotes : ∀ c ∈ closing, Text.isQuote c = true

/-! ## Texts and canonical forms -/

def Suffix.text (s : Suffix) : List Char :=
  s.before.text ++ '[' :: (s.length ++ [']'])

def Suffix.canonical (s : Suffix) : List Char :=
  '[' :: (s.length.filter (!Text.isBlank ·) ++ [']'])

def Label.text (l : Label) : List Char :=
  l.before.text ++ l.name.text

def Ending.text (e : Ending) : List Char :=
  e.suffixes.flatMap Suffix.text ++ (e.labels.flatMap Label.text ++ e.after.text)

def Ending.canonical (e : Ending) : List Char :=
  e.suffixes.flatMap Suffix.canonical

namespace Parameter

def before : Parameter → Blanks
  | elementary before _ _ _ | tuple before _ _ _ => before

def ending : Parameter → Ending
  | elementary _ _ ending _ | tuple _ _ _ ending => ending

mutual

/-- The name of a type, or its components in parentheses. -/
def head : Parameter → List Char
  | elementary _ name _ _ => name.text
  | tuple _ inside components _ =>
    '(' :: (inside.text ++ [','].intercalate (texts components) ++ [')'])

def texts : List Parameter → List (List Char)
  | [] => []
  | p :: ps => (p.before.text ++ (p.head ++ p.ending.text)) :: texts ps

end

/-- A parameter as it is written. -/
def text (p : Parameter) : List Char :=
  p.before.text ++ (p.head ++ p.ending.text)

mutual

/-- The type of a parameter without blanks and labels. -/
def canonical : Parameter → List Char
  | elementary _ name ending _ => name.text ++ ending.canonical
  | tuple _ _ components ending =>
    '(' :: ([','].intercalate (canonicals components) ++ ')' :: ending.canonical)

def canonicals : List Parameter → List (List Char)
  | [] => []
  | p :: ps => p.canonical :: canonicals ps

end

mutual

/-- The labels of a parameter and of the components of its type, at every depth. -/
def labels : Parameter → List Label
  | elementary _ _ ending _ => ending.labels
  | tuple _ _ components ending => labelsAll components ++ ending.labels

def labelsAll : List Parameter → List Label
  | [] => []
  | p :: ps => p.labels ++ labelsAll ps

end

theorem texts_eq (ps : List Parameter) : texts ps = ps.map text := by
  induction ps with
  | nil => rfl
  | cons p ps ih => rw [texts, ih, List.map_cons, text]

theorem canonicals_eq (ps : List Parameter) : canonicals ps = ps.map canonical := by
  induction ps with
  | nil => rfl
  | cons p ps ih => rw [canonicals, ih, List.map_cons]

theorem labelsAll_eq (ps : List Parameter) : labelsAll ps = ps.flatMap labels := by
  induction ps with
  | nil => rfl
  | cons p ps ih => rw [labelsAll, ih, List.flatMap_cons]

mutual

/-- Induction over the components of types. -/
@[elab_as_elim]
theorem induction_components {motive : Parameter → Prop}
    (elementary : ∀ before name ending apart, motive (.elementary before name ending apart))
    (tuple : ∀ before inside components ending, (∀ p ∈ components, motive p) →
      motive (.tuple before inside components ending)) : (p : Parameter) → motive p
  | .elementary before name ending apart => elementary before name ending apart
  | .tuple before inside components ending =>
    tuple before inside components ending (induction_list elementary tuple components)

theorem induction_list {motive : Parameter → Prop}
    (elementary : ∀ before name ending apart, motive (.elementary before name ending apart))
    (tuple : ∀ before inside components ending, (∀ p ∈ components, motive p) →
      motive (.tuple before inside components ending)) :
    (ps : List Parameter) → ∀ p ∈ ps, motive p
  | [], _, hp => nomatch hp
  | first :: rest, p, hp => by
    rcases List.mem_cons.1 hp with heq | hp
    · exact heq ▸ induction_components elementary tuple first
    · exact induction_list elementary tuple rest p hp

end

end Parameter

namespace Written

/-- A signature as it is written. -/
def text (s : Written) : List Char :=
  s.outside.text ++ (s.opening ++ (s.before.text ++ (s.name.text ++ (s.afterName.text
    ++ '(' :: (s.inside.text ++ [','].intercalate (s.parameters.map Parameter.text)
      ++ ')' :: (s.after.text ++ (s.closing ++ s.outsideAfter.text)))))))

/-- The name of a signature with the types of its parameters. -/
def canonical (s : Written) : List Char :=
  s.name.text ++ '(' :: ([','].intercalate (s.parameters.map Parameter.canonical) ++ [')'])

end Written

/-! ## Characters -/

theorem isBlank_of_isNameChar {c : Char} (h : isNameChar c = true) : Text.isBlank c = false := by
  simp only [isNameChar, Bool.not_eq_true', Bool.or_eq_false_iff] at h
  exact h.1.1

theorem isQuote_of_isNameChar {c : Char} (h : isNameChar c = true) : Text.isQuote c = false := by
  simp only [isNameChar, Bool.not_eq_true', Bool.or_eq_false_iff] at h
  exact h.1.2

/-- A character that neither opens, closes nor divides anything. -/
def Inert (c : Char) : Prop :=
  (c ≠ '(' ∧ c ≠ ')') ∧ (c == ',') = false

instance (c : Char) : Decidable (Inert c) :=
  inferInstanceAs (Decidable (_ ∧ _))

theorem inert_of_isNameChar {c : Char} (h : isNameChar c = true) : Inert c := by
  refine ⟨⟨?_, ?_⟩, beq_eq_false_iff_ne.2 ?_⟩
  all_goals
    rintro rfl
    exact absurd h (by decide)

theorem inert_of_isBlank {c : Char} (h : Text.isBlank c = true) : Inert c := by
  refine ⟨⟨?_, ?_⟩, beq_eq_false_iff_ne.2 ?_⟩
  all_goals
    rintro rfl
    exact absurd h (by decide)

theorem whole_of_inert {cs : List Char} (h : ∀ c ∈ cs, Inert c) : Whole (· == ',') cs :=
  whole_of_forall h

theorem Name.isBlank (n : Name) : ∀ c ∈ n.text, Text.isBlank c = false :=
  fun c hc => isBlank_of_isNameChar (n.plain c hc)

theorem Name.inert (n : Name) : ∀ c ∈ n.text, Inert c :=
  fun c hc => inert_of_isNameChar (n.plain c hc)

theorem Blanks.inert (b : Blanks) : ∀ c ∈ b.text, Inert c :=
  fun c hc => inert_of_isBlank (b.blank c hc)

theorem Suffix.inert (s : Suffix) : ∀ c ∈ s.text, Inert c := by
  intro c hc
  simp only [Suffix.text, List.mem_append, List.mem_cons, List.not_mem_nil, or_false] at hc
  rcases hc with hc | rfl | hc | rfl
  · exact s.before.inert c hc
  · decide
  · rcases s.plain c hc with hname | hblank
    · exact inert_of_isNameChar hname
    · exact inert_of_isBlank hblank
  · decide

theorem Ending.inert (e : Ending) : ∀ c ∈ e.text, Inert c := by
  intro c hc
  simp only [Ending.text, List.mem_append, List.mem_flatMap] at hc
  rcases hc with ⟨s, -, hc⟩ | ⟨l, -, hc⟩ | hc
  · exact s.inert c hc
  · rcases List.mem_append.1 hc with hc | hc
    · exact l.before.inert c hc
    · exact l.name.inert c hc
  · exact e.after.inert c hc

/-! ## Parts of a text -/

namespace Parameter

theorem text_eq (p : Parameter) : p.text = p.before.text ++ (p.head ++ p.ending.text) := rfl

theorem head_tuple (before inside : Blanks) (components : List Parameter) (ending : Ending) :
    (tuple before inside components ending).head
      = '(' :: (inside.text ++ [','].intercalate (components.map text) ++ [')']) := by
  rw [head, texts_eq]

theorem whole_text_of_head {p : Parameter} (h : Whole (· == ',') p.head) :
    Whole (· == ',') p.text :=
  (whole_of_inert p.before.inert).append (h.append (whole_of_inert p.ending.inert))

theorem balanced_intercalate_map {f : Parameter → List Char} {ps : List Parameter}
    (h : ∀ p ∈ ps, Whole (· == ',') (f p)) : Balanced ([','].intercalate (ps.map f)) := by
  apply balanced_intercalate (by decide)
  intro part hpart
  obtain ⟨p, hp, rfl⟩ := List.mem_map.1 hpart
  exact (h p hp).balanced

/-- Components are balanced, with the blanks around them. -/
theorem balanced_of_whole (inside : Blanks) {components : List Parameter}
    (h : ∀ p ∈ components, Whole (· == ',') p.text) :
    Balanced (inside.text ++ [','].intercalate (components.map text)) :=
  (whole_of_inert inside.inert).balanced.append (balanced_intercalate_map h)

theorem whole_head (p : Parameter) : Whole (· == ',') p.head := by
  induction p using induction_components with
  | elementary before name ending apart => exact whole_of_inert name.inert
  | tuple before inside components ending ih =>
    rw [head_tuple]
    exact whole_group (balanced_of_whole inside fun p hp => whole_text_of_head (ih p hp))

theorem whole_text (p : Parameter) : Whole (· == ',') p.text :=
  whole_text_of_head p.whole_head

theorem balanced_inside (inside : Blanks) (components : List Parameter) :
    Balanced (inside.text ++ [','].intercalate (components.map text)) :=
  balanced_of_whole inside fun p _ => p.whole_text

/-- No blank divides the head of a parameter. -/
theorem whole_head_isBlank (p : Parameter) : Whole Text.isBlank p.head := by
  cases p with
  | elementary before name ending apart =>
    exact whole_of_forall fun c hc => ⟨(name.inert c hc).1, name.isBlank c hc⟩
  | tuple before inside components ending =>
    rw [head_tuple]
    exact whole_group (balanced_inside inside components)

/-- A head starts and ends with a character that is not blank. -/
theorem trim_head_append (p : Parameter) (cs : List Char) :
    Text.trim (p.head ++ cs) = p.head ++ Text.trimEnd cs := by
  have hends : ∃ c rest front d, p.head = c :: rest ∧ p.head = front ++ [d]
      ∧ Text.isBlank c = false ∧ Text.isBlank d = false := by
    cases p with
    | elementary before name ending apart =>
      obtain ⟨c, rest, hfirst⟩ := List.exists_cons_of_ne_nil name.nonempty
      obtain hnil | ⟨front, d, hlast⟩ := List.eq_nil_or_concat' name.text
      · exact absurd hnil name.nonempty
      · exact ⟨c, rest, front, d, hfirst, hlast, name.isBlank c (by simp [hfirst]),
          name.isBlank d (by simp [hlast])⟩
    | tuple before inside components ending =>
      refine ⟨'(', _, '(' :: (inside.text ++ [','].intercalate (components.map text)), ')',
        head_tuple _ _ _ _, ?_, by decide, by decide⟩
      rw [head_tuple, List.cons_append]
  obtain ⟨c, rest, front, d, hfirst, hlast, hc, hd⟩ := hends
  have hstart : Text.trim (p.head ++ cs) = Text.trimEnd (p.head ++ cs) := by
    rw [hfirst, Text.trim, Text.trimStart, List.cons_append,
      List.dropWhile_cons_of_neg (by simp [hc])]
  rw [hstart, hlast, List.append_assoc, List.singleton_append, Text.trimEnd,
    Text.dropEndWhile_append_cons hd]
  simp [Text.trimEnd]

theorem head_ne_nil (p : Parameter) : p.head ≠ [] := by
  cases p with
  | elementary before name ending apart => exact name.nonempty
  | tuple before inside components ending => simp [head_tuple]

end Parameter

/-! ## Reading parameters -/

/-- What is taken for the type of a parameter: its head, and all that follows up to the first
    blank. -/
def Parameter.reading (p : Parameter) : List Char :=
  p.head.filter (!Text.isBlank ·) ++ p.ending.text.takeWhile (!Text.isBlank ·)

theorem filter_takeWhile (p : Char → Bool) (cs : List Char) :
    (cs.takeWhile p).filter p = cs.takeWhile p :=
  List.filter_eq_self.2 fun _ hc => List.mem_takeWhile_imp hc

theorem parameterType_append {head tail : List Char} (hne : head ≠ [])
    (hhead : Whole Text.isBlank head) (htail : ∀ c ∈ tail, c ≠ '(' ∧ c ≠ ')') :
    parameterType (head ++ tail)
      = head.filter (!Text.isBlank ·) ++ tail.takeWhile (!Text.isBlank ·) := by
  obtain ⟨parts, hparts⟩ := @splitOutside_of_forall Text.isBlank tail htail
  have hfirst : (head ++ tail.takeWhile (!Text.isBlank ·)).isEmpty = false := by
    simp [hne]
  simp only [parameterType, hhead.splitOutside_append, hparts, List.modifyHead_cons,
    List.find?_cons, hfirst, Bool.not_false, Option.getD_some, List.filter_append,
    filter_takeWhile]

/-- Up to the blanks around it, the text of a parameter is read as its reading. -/
theorem Parameter.parameterType_trim (p : Parameter) :
    parameterType (Text.trim p.text) = p.reading := by
  have htail : ∀ c ∈ Text.trimEnd p.ending.text, c ≠ '(' ∧ c ≠ ')' := fun c hc =>
    (p.ending.inert c ((List.rdropWhile_prefix Text.isBlank _).subset hc)).1
  rw [text_eq, Text.trim_append_left p.before.blank, p.trim_head_append,
    parameterType_append p.head_ne_nil p.whole_head_isBlank htail, Text.takeWhile_trimEnd,
    reading]

theorem Parameter.trim_text_ne_nil (p : Parameter) : Text.trim p.text ≠ [] := by
  rw [text_eq, Text.trim_append_left p.before.blank, p.trim_head_append]
  simp [p.head_ne_nil]

theorem map_trim_modifyHead (b : Blanks) (parts : List (List Char)) :
    (parts.modifyHead (b.text ++ ·)).map Text.trim = parts.map Text.trim := by
  cases parts with
  | nil => rfl
  | cons part parts =>
    rw [List.modifyHead_cons, List.map_cons, List.map_cons, Text.trim_append_left b.blank]

/-- The types of a written parameter list are the readings of its parameters. -/
theorem parameterTypes_eq (inside : Blanks) (ps : List Parameter) :
    parameterTypes (inside.text ++ [','].intercalate (ps.map Parameter.text))
      = ps.map Parameter.reading := by
  rw [parameterTypes, (whole_of_inert inside.inert).splitOutside_append]
  simp only [map_trim_modifyHead]
  by_cases hnone : ps = []
  · -- Splitting gives one part then, which is blank and left out.
    subst hnone
    rfl
  have hwhole : ∀ part ∈ ps.map Parameter.text, Whole (· == ',') part := by
    intro part hpart
    obtain ⟨p, -, rfl⟩ := List.mem_map.1 hpart
    exact p.whole_text
  have hkept : ∀ part ∈ (ps.map Parameter.text).map Text.trim, (!part.isEmpty) = true := by
    intro part hpart
    obtain ⟨_, htext, rfl⟩ := List.mem_map.1 hpart
    obtain ⟨p, -, rfl⟩ := List.mem_map.1 htext
    simp [p.trim_text_ne_nil]
  rw [splitOutside_intercalate (by decide) (by simpa using hnone) hwhole,
    List.filter_eq_self.2 hkept, List.map_map, List.map_map]
  exact List.map_congr_left fun p _ => p.parameterType_trim

/-! ## Readings that are types -/

/-- The end of a type can be told: there is no blank before its last suffix is closed, and one
    before a label that follows. -/
def Ending.Legible (e : Ending) : Prop :=
  (∀ c ∈ e.suffixes.flatMap Suffix.text, Text.isBlank c = false)
    ∧ ∀ label ∈ e.labels.head?, label.before.text ≠ []

/-- The type of a parameter can be told: so can its end, and nothing in its parentheses has a
    label. -/
def Parameter.Legible : Parameter → Prop
  | elementary _ _ ending _ => ending.Legible
  | tuple _ _ components ending => (∀ p ∈ components, p.labels = []) ∧ ending.Legible

theorem Blanks.filter_text (b : Blanks) : b.text.filter (!Text.isBlank ·) = [] := by
  rw [List.filter_eq_nil_iff]
  intro c hc
  simp [b.blank c hc]

theorem Name.filter_text (n : Name) : n.text.filter (!Text.isBlank ·) = n.text := by
  rw [List.filter_eq_self]
  intro c hc
  simp [n.isBlank c hc]

theorem Suffix.filter_text (s : Suffix) : s.text.filter (!Text.isBlank ·) = s.canonical := by
  rw [Suffix.text, List.filter_append, s.before.filter_text, List.nil_append,
    List.filter_cons_of_pos (by decide), List.filter_append, Suffix.canonical]
  rfl

theorem Ending.canonical_eq (e : Ending) :
    e.canonical = (e.suffixes.flatMap Suffix.text).filter (!Text.isBlank ·) := by
  rw [List.filter_flatMap, Ending.canonical]
  exact List.flatMap_congr fun s _ => s.filter_text.symm

theorem Label.filter_text (l : Label) : l.text.filter (!Text.isBlank ·) = l.name.text := by
  rw [Label.text, List.filter_append, l.before.filter_text, l.name.filter_text, List.nil_append]

theorem Ending.filter_text (e : Ending) :
    e.text.filter (!Text.isBlank ·) = e.canonical ++ e.labels.flatMap (·.name.text) := by
  rw [Ending.text, List.filter_append, List.filter_append, e.after.filter_text, List.append_nil,
    ← e.canonical_eq, List.filter_flatMap]
  simp only [Label.filter_text]

/-- Suffixes end with a bracket. -/
theorem getLast?_suffixes {suffixes : List Suffix} {c : Char}
    (h : (suffixes.flatMap Suffix.text).getLast? = some c) : c = ']' := by
  rcases List.eq_nil_or_concat' suffixes with rfl | ⟨front, last, rfl⟩
  · cases h
  · have hlast : (front ++ [last]).flatMap Suffix.text
        = (front.flatMap Suffix.text ++ (last.before.text ++ '[' :: last.length)) ++ [']'] := by
      simp [Suffix.text]
    rw [hlast, List.getLast?_concat] at h
    exact (Option.some.inj h).symm

/-- A text that does not end with a blank is all that is left of it without blanks before the
    first blank only if it has none. -/
theorem takeWhile_append_eq_filter_iff {cs : List Char} (rest : List Char)
    (hlast : ∀ c, cs.getLast? = some c → Text.isBlank c = false) :
    (cs ++ rest).takeWhile (!Text.isBlank ·) = cs.filter (!Text.isBlank ·)
      ↔ (∀ c ∈ cs, Text.isBlank c = false) ∧ rest.takeWhile (!Text.isBlank ·) = [] := by
  induction cs with
  | nil => simp
  | cons c cs ih =>
    by_cases hc : Text.isBlank c = true
    · -- What ends the text is left without blanks, and stands behind the blank.
      have hne : cs ≠ [] := by
        rintro rfl
        rw [hlast c rfl] at hc
        cases hc
      have hend := hlast (cs.getLast hne) (by
        rw [List.getLast?_cons, List.getLast?_eq_some_getLast hne]
        rfl)
      have hkept : cs.filter (!Text.isBlank ·) ≠ [] := by
        apply List.ne_nil_of_mem (a := cs.getLast hne)
        exact List.mem_filter.2 ⟨List.getLast_mem hne, by simp [hend]⟩
      rw [List.cons_append, List.takeWhile_cons_of_neg (by simp [hc]),
        List.filter_cons_of_neg (by simp [hc])]
      constructor
      · intro hnil
        exact absurd hnil.symm hkept
      · rintro ⟨hdark, -⟩
        rw [hdark c (by simp)] at hc
        cases hc
    · have hdark : Text.isBlank c = false := by simpa using hc
      have htail : ∀ d, cs.getLast? = some d → Text.isBlank d = false := by
        intro d hd
        apply hlast
        rw [List.getLast?_cons, hd]
        rfl
      rw [List.cons_append, List.takeWhile_cons_of_pos (by simp [hdark]),
        List.filter_cons_of_pos (by simp [hdark]), List.cons.injEq, ih htail,
        List.forall_mem_cons]
      simp [hdark]

theorem takeWhile_labels_eq_nil_iff (labels : List Label) (after : Blanks) :
    (labels.flatMap Label.text ++ after.text).takeWhile (!Text.isBlank ·) = []
      ↔ ∀ label ∈ labels.head?, label.before.text ≠ [] := by
  have hblanks : ∀ (b : Blanks) (rest : List Char), b.text ≠ [] →
      (b.text ++ rest).takeWhile (!Text.isBlank ·) = [] := by
    intro b rest hne
    obtain ⟨c, cs, hb⟩ := List.exists_cons_of_ne_nil hne
    rw [hb, List.cons_append, List.takeWhile_cons_of_neg]
    simp [b.blank c (by simp [hb])]
  cases labels with
  | nil =>
    by_cases hnone : after.text = []
    · simp [hnone]
    · simpa using hblanks after [] hnone
  | cons label labels =>
    rw [List.flatMap_cons, Label.text, List.append_assoc, List.append_assoc]
    simp only [List.head?_cons, Option.mem_def, Option.some.injEq, forall_eq']
    by_cases hnone : label.before.text = []
    · obtain ⟨c, cs, hname⟩ := List.exists_cons_of_ne_nil label.name.nonempty
      rw [hnone, hname, List.nil_append, List.cons_append, List.takeWhile_cons_of_pos]
      · simp
      · simp [label.name.isBlank c (by simp [hname])]
    · simp [hblanks label.before _ hnone, hnone]

theorem Ending.takeWhile_eq_canonical_iff (e : Ending) :
    e.text.takeWhile (!Text.isBlank ·) = e.canonical ↔ e.Legible := by
  have hlast : ∀ c, (e.suffixes.flatMap Suffix.text).getLast? = some c →
      Text.isBlank c = false := by
    intro c hc
    rw [getLast?_suffixes hc]
    decide
  rw [e.canonical_eq, Ending.text, takeWhile_append_eq_filter_iff _ hlast,
    takeWhile_labels_eq_nil_iff, Ending.Legible]

/-- Whole texts of parameters are the same joined by commas only if they are one by one. -/
theorem intercalate_map_eq_iff {f g : Parameter → List Char} {ps : List Parameter}
    (hf : ∀ p ∈ ps, Whole (· == ',') (f p)) (hg : ∀ p ∈ ps, Whole (· == ',') (g p)) :
    [','].intercalate (ps.map f) = [','].intercalate (ps.map g) ↔ ∀ p ∈ ps, f p = g p := by
  rw [← List.map_inj_left]
  constructor
  · apply @intercalate_inj (· == ',') ',' (by decide) _ _ (by simp)
    · intro part hpart
      obtain ⟨p, hp, rfl⟩ := List.mem_map.1 hpart
      exact hf p hp
    · intro part hpart
      obtain ⟨p, hp, rfl⟩ := List.mem_map.1 hpart
      exact hg p hp
  · intro h
    rw [h]

theorem filter_intercalate (parts : List (List Char)) :
    ([','].intercalate parts).filter (!Text.isBlank ·)
      = [','].intercalate (parts.map (List.filter (!Text.isBlank ·))) := by
  induction parts with
  | nil => rfl
  | cons part parts ih =>
    cases parts with
    | nil => simp
    | cons next rest =>
      simp only [List.map_cons] at ih ⊢
      rw [List.intercalate_cons_cons, List.filter_append, List.filter_append, ih,
        List.intercalate_cons_cons]
      rfl

theorem dark_of_comma (c : Char) (h : (c == ',') = true) : (!Text.isBlank c) = true := by
  rw [beq_iff_eq.1 h]
  decide

theorem Ending.whole_canonical (e : Ending) : Whole (· == ',') e.canonical := by
  apply whole_of_inert
  intro c hc
  rw [e.canonical_eq] at hc
  obtain ⟨s, -, hc⟩ := List.mem_flatMap.1 (List.mem_filter.1 hc).1
  exact s.inert c hc

namespace Parameter

theorem canonical_tuple (before inside : Blanks) (components : List Parameter) (ending : Ending) :
    (tuple before inside components ending).canonical
      = '(' :: ([','].intercalate (components.map canonical) ++ ')' :: ending.canonical) := by
  rw [canonical, canonicals_eq]

theorem whole_canonical (p : Parameter) : Whole (· == ',') p.canonical := by
  induction p using induction_components with
  | elementary before name ending apart =>
    exact (whole_of_inert name.inert).append ending.whole_canonical
  | tuple before inside components ending ih =>
    have hgroup := @whole_group (· == ',') _ (balanced_intercalate_map ih)
    rw [canonical_tuple]
    simpa using hgroup.append ending.whole_canonical

theorem whole_filter_text (p : Parameter) :
    Whole (· == ',') (p.text.filter (!Text.isBlank ·)) :=
  p.whole_text.filter (by decide) (by decide) dark_of_comma

/-- What stands in parentheses is left without its blanks. -/
theorem filter_head_tuple (before inside : Blanks) (components : List Parameter)
    (ending : Ending) :
    (tuple before inside components ending).head.filter (!Text.isBlank ·)
      = '(' :: ([','].intercalate (components.map (·.text.filter (!Text.isBlank ·))) ++ [')']) := by
  rw [head_tuple, List.filter_cons_of_pos (by decide), List.filter_append, List.filter_append,
    inside.filter_text, filter_intercalate, List.map_map]
  rfl

/-- Two groups of components are equal only if what stands in them is, and what follows. -/
theorem group_inj {components : List Parameter} {s t : List Char}
    (h : [','].intercalate (components.map (·.text.filter (!Text.isBlank ·))) ++ ')' :: s
      = [','].intercalate (components.map canonical) ++ ')' :: t) :
    [','].intercalate (components.map (·.text.filter (!Text.isBlank ·)))
      = [','].intercalate (components.map canonical) ∧ s = t :=
  (balanced_intercalate_map fun p _ => p.whole_filter_text).group_inj
    (balanced_intercalate_map fun p _ => p.whole_canonical) h

theorem names_eq_nil_iff (labels : List Label) :
    labels.flatMap (·.name.text) = [] ↔ labels = [] := by
  rw [List.flatMap_eq_nil_iff]
  constructor
  · intro h
    cases labels with
    | nil => rfl
    | cons label labels => exact absurd (h label (by simp)) label.name.nonempty
  · rintro rfl
    simp

/-- Without its blanks, a parameter is its canonical form exactly if there is no label in it. -/
theorem filter_text_eq_iff (p : Parameter) :
    p.text.filter (!Text.isBlank ·) = p.canonical ↔ p.labels = [] := by
  induction p using induction_components with
  | elementary before name ending apart =>
    have htext : (elementary before name ending apart).text.filter (!Text.isBlank ·)
        = name.text ++ (ending.canonical ++ ending.labels.flatMap (·.name.text)) := by
      rw [text_eq, List.filter_append, List.filter_append, Blanks.filter_text, Ending.filter_text,
        List.nil_append]
      show name.text.filter _ ++ _ = _
      rw [name.filter_text]
      rfl
    rw [htext, canonical, labels, ← names_eq_nil_iff]
    simp
  | tuple before inside components ending ih =>
    have htext : (tuple before inside components ending).text.filter (!Text.isBlank ·)
        = '(' :: ([','].intercalate (components.map (·.text.filter (!Text.isBlank ·)))
          ++ ')' :: (ending.canonical ++ ending.labels.flatMap (·.name.text))) := by
      rw [text_eq, List.filter_append, List.filter_append, Blanks.filter_text, Ending.filter_text,
        filter_head_tuple, List.nil_append]
      simp [Parameter.ending]
    have hcomponents := @intercalate_map_eq_iff _ _ components
      (fun p _ => p.whole_filter_text) (fun p _ => p.whole_canonical)
    rw [htext, canonical_tuple, labels, labelsAll_eq, List.append_eq_nil_iff,
      List.flatMap_eq_nil_iff, ← names_eq_nil_iff, List.cons.injEq]
    constructor
    · rintro ⟨-, heq⟩
      obtain ⟨hinside, hafter⟩ := group_inj heq
      exact ⟨fun p hp => (ih p hp).1 (hcomponents.1 hinside p hp), by simpa using hafter⟩
    · rintro ⟨hnone, hnames⟩
      rw [hcomponents.2 fun p hp => (ih p hp).2 (hnone p hp), hnames, List.append_nil]
      exact ⟨rfl, rfl⟩

theorem whole_reading (p : Parameter) : Whole (· == ',') p.reading := by
  apply (p.whole_head.filter (by decide) (by decide) dark_of_comma).append
  exact whole_of_inert fun c hc => p.ending.inert c ((List.takeWhile_prefix _).subset hc)

/-- A parameter is read as its type exactly if its type can be told. -/
theorem reading_eq_canonical_iff (p : Parameter) : p.reading = p.canonical ↔ p.Legible := by
  cases p with
  | elementary before name ending apart =>
    have hreading : (elementary before name ending apart).reading
        = name.text ++ ending.text.takeWhile (!Text.isBlank ·) := by
      show name.text.filter _ ++ _ = _
      rw [name.filter_text]
      rfl
    rw [hreading, canonical, List.append_cancel_left_eq, ending.takeWhile_eq_canonical_iff,
      Legible]
  | tuple before inside components ending =>
    have hreading : (tuple before inside components ending).reading
        = '(' :: ([','].intercalate (components.map (·.text.filter (!Text.isBlank ·)))
          ++ ')' :: ending.text.takeWhile (!Text.isBlank ·)) := by
      rw [reading, filter_head_tuple]
      simp [Parameter.ending]
    have hcomponents := @intercalate_map_eq_iff _ _ components
      (fun p _ => p.whole_filter_text) (fun p _ => p.whole_canonical)
    simp only [filter_text_eq_iff] at hcomponents
    rw [hreading, canonical_tuple, Legible, List.cons.injEq, ← hcomponents,
      ← ending.takeWhile_eq_canonical_iff]
    constructor
    · rintro ⟨-, heq⟩
      exact group_inj heq
    · rintro ⟨hinside, hafter⟩
      rw [hinside, hafter]
      exact ⟨rfl, rfl⟩

end Parameter

/-! ## Canonical forms of written signatures -/

/-- Blanks and quotes around a signature are left out, and so is all that follows it. -/
theorem canonical?_enclosed {outside quotes inside head parameters cs : List Char} {c : Char}
    (houtside : ∀ x ∈ outside, Text.isBlank x = true)
    (hquotes : ∀ x ∈ quotes, Text.isQuote x = true)
    (hinside : ∀ x ∈ inside, Text.isBlank x = true) (hhead : head = c :: cs)
    (hc : isNameChar c = true) (hopen : '(' ∉ head) (hparameters : Balanced parameters)
    (after : List Char) :
    canonical? (outside ++ (quotes ++ (inside ++ (head ++ '(' :: (parameters ++ ')' :: after)))))
      = some (Text.trim head
        ++ '(' :: ([','].intercalate (parameterTypes parameters) ++ [')'])) := by
  obtain ⟨left, right, hleft, hstrip⟩ := Text.trimQuotes_trim houtside hquotes hinside
    (isBlank_of_isNameChar hc) (isQuote_of_isNameChar hc)
    (show Text.isBlank ')' = false by decide) (show Text.isQuote ')' = false by decide)
    (cs ++ '(' :: parameters) after
  have htext : Text.trimQuotes (Text.trim
        (outside ++ (quotes ++ (inside ++ (head ++ '(' :: (parameters ++ ')' :: after))))))
      = (left ++ head) ++ '(' :: (parameters ++ ')' :: right) := by
    rw [hhead]
    simpa using hstrip
  have hleft' : '(' ∉ left ++ head := by
    intro hmem
    rcases List.mem_append.1 hmem with hmem | hmem
    · exact (inert_of_isBlank (hleft _ hmem)).1.1 rfl
    · exact hopen hmem
  rw [canonical?_eq htext hleft' hparameters, Text.trim_append_left hleft]

/-- The canonical form that is read off a written signature has the readings of its parameters
    for their types. -/
theorem canonical?_text (s : Written) :
    canonical? s.text
      = some (s.name.text
        ++ '(' :: ([','].intercalate (s.parameters.map Parameter.reading) ++ [')'])) := by
  obtain ⟨c, rest, hname⟩ := List.exists_cons_of_ne_nil s.name.nonempty
  have hhead : s.name.text ++ s.afterName.text = c :: (rest ++ s.afterName.text) := by
    rw [hname, List.cons_append]
  have hopen : '(' ∉ s.name.text ++ s.afterName.text := by
    intro hmem
    rcases List.mem_append.1 hmem with hmem | hmem
    · exact (s.name.inert _ hmem).1.1 rfl
    · exact (s.afterName.inert _ hmem).1.1 rfl
  have henclosed := canonical?_enclosed s.outside.blank s.opening_quotes s.before.blank hhead
    (s.name.plain c (by simp [hname])) hopen (Parameter.balanced_inside s.inside s.parameters)
    (s.after.text ++ (s.closing ++ s.outsideAfter.text))
  rw [parameterTypes_eq, Text.trim_append_right s.afterName.blank,
    Text.trim_of_forall_dark s.name.isBlank] at henclosed
  simpa [Written.text] using henclosed

/-- The canonical form of a written signature is read off its text exactly if the types of all
    its parameters can be told. -/
theorem canonical?_text_iff (s : Written) :
    canonical? s.text = some s.canonical ↔ ∀ p ∈ s.parameters, p.Legible := by
  have hparameters := @intercalate_map_eq_iff _ _ s.parameters
    (fun p _ => p.whole_reading) (fun p _ => p.whole_canonical)
  simp only [Parameter.reading_eq_canonical_iff] at hparameters
  rw [canonical?_text, Written.canonical, ← hparameters]
  simp

def Blanks.none : Blanks := ⟨[], by simp⟩

def Blanks.space : Blanks := ⟨[' '], List.all_eq_true.1 (by decide)⟩

/-- The name with a text. -/
def Name.of (text : List Char) (hne : text ≠ [] := by decide)
    (hplain : text.all isNameChar = true := by decide) : Name :=
  ⟨text, hne, List.all_eq_true.1 hplain⟩

/-- A component of a tuple with a name. -/
def namedComponent (before : Blanks) (type name : Name) : Parameter :=
  .elementary before type ⟨[], [⟨.space, name⟩], .none, by simp⟩ (by simp [Blanks.space])

/-- An array of tuples whose components have names. -/
def orders : Written where
  outside := .none
  opening := []
  before := .none
  name := .of "fill".toList
  afterName := .none
  inside := .none
  parameters :=
    [.tuple .none .none
      [namedComponent .none (.of "uint256".toList) (.of "amount".toList),
        namedComponent .space (.of "address".toList) (.of "to".toList)]
      ⟨[⟨.none, [], by simp⟩], [⟨.space, .of "orders".toList⟩], .none, by simp⟩,
    .elementary .space (.of "bytes".toList) ⟨[], [], .none, by simp⟩ (by simp)]
  after := .none
  closing := []
  outsideAfter := .none
  opening_quotes := by simp
  closing_quotes := by simp

/-- The names of components are not dropped, and their types run into them. -/
theorem canonical?_keeps_component_names :
    orders.text = "fill((uint256 amount, address to)[] orders, bytes)".toList
    ∧ orders.canonical = "fill((uint256,address)[],bytes)".toList
    ∧ canonical? orders.text = some "fill((uint256amount,addressto)[],bytes)".toList
    ∧ canonical? orders.text ≠ some orders.canonical := by
  decide

end HuffTrace.Signature
