/-
  HuffTrace.Proofs.Source.Canonical

  Canonical forms of arbitrary texts.  Whatever is written before and between
  the parentheses, each part that the parameter list is split into is balanced,
  so what is read of it as a type is balanced too, has no blank, and has no
  comma outside of its parentheses (`isType_of_mem_parameterTypes`).  Such types
  are found again in the canonical form, which is therefore its own canonical
  form (`canonical?_idempotent`).
-/

import HuffTrace.Proofs.Source.Signature

namespace HuffTrace.Signature

open Parens

/-! ## Types -/

/-- A type as it stands in a canonical form. -/
structure IsType (t : List Char) : Prop where
  nonempty : t ≠ []
  dark : ∀ c ∈ t, Text.isBlank c = false
  whole : Whole (· == ',') t

/-- A text without blanks is its own first part. -/
theorem IsType.parameterType {t : List Char} (h : IsType t) : parameterType t = t := by
  have hsolid : splitOutside Text.isBlank 0 t = [t] :=
    splitOutside_of_bare fun c hc => h.dark c (bare_subset 0 t hc)
  have hfound : t.isEmpty = false := by simp [h.nonempty]
  rw [Signature.parameterType]
  simp only [hsolid, List.find?_cons, hfound, Bool.not_false, Option.getD_some]
  exact List.filter_eq_self.2 fun c hc => by simp [h.dark c hc]

/-- Blanks around a text are outside of its parentheses. -/
theorem balanced_trim {cs : List Char} (h : Balanced cs) :
    Balanced (Text.trim cs) ∧ bare 0 (Text.trim cs) ⊆ bare 0 cs := by
  obtain ⟨lead, trail, hlead, htrail, hcs⟩ := Text.exists_trim cs
  have hleads := depthAfter?_of_forall fun c hc => (inert_of_isBlank (hlead c hc)).1
  have htrails := depthAfter?_of_forall fun c hc => (inert_of_isBlank (htrail c hc)).1
  have hbalanced : Balanced (Text.trim cs) := by
    rw [Parens.Balanced, hcs, depthAfter?_append, hleads, Option.bind_some, depthAfter?_append] at h
    simp only [htrails, Option.bind_fun_some] at h
    exact h
  refine ⟨hbalanced, ?_⟩
  conv_rhs => rw [hcs, bare_append (hleads 0), bare_append hbalanced]
  exact List.subset_append_of_subset_right _ (List.subset_append_left _ _)

/-- What is read as the type of a parameter is a type, if the parameter is not blank and has no
    comma outside of its parentheses. -/
theorem isType_parameterType {parameter : List Char} (hbalanced : Balanced parameter)
    (hbare : ∀ c ∈ bare 0 parameter, (c == ',') = false) (hne : Text.trim parameter ≠ []) :
    IsType (parameterType (Text.trim parameter)) := by
  obtain ⟨hbalanced', hsubset⟩ := balanced_trim hbalanced
  obtain ⟨c, rest, htrim⟩ := List.exists_cons_of_ne_nil hne
  have hdark : Text.isBlank c = false := Text.isBlank_of_mem_head?_trim (by rw [htrim]; rfl)
  rw [htrim] at hbalanced' hsubset ⊢
  -- The parameter starts with a character that is not blank, so its first part is not empty.
  obtain ⟨first, parts, hsplit, hfirst, -⟩ := @exists_parts Text.isBlank 0 (c :: rest) hbalanced'
  obtain ⟨tail, rfl⟩ : ∃ tail, first = c :: tail := by
    obtain ⟨head, others, hrest⟩ := List.exists_cons_of_ne_nil
      (@splitOutside_ne_nil Text.isBlank (inner 0 c) rest)
    rw [splitOutside_cons (by simp [hdark]), hrest, List.modifyHead_cons] at hsplit
    exact ⟨head, (List.cons.inj hsplit).1.symm⟩
  have htype : parameterType (c :: rest) = (c :: tail).filter (!Text.isBlank ·) := by
    simp only [parameterType, hsplit, List.find?_cons, List.isEmpty_cons, Bool.not_false,
      Option.getD_some]
  rw [htype]
  refine ⟨?_, ?_, whole_of_bare ?_ ?_⟩
  · rw [List.filter_cons_of_pos (by simp [hdark])]
    exact List.cons_ne_nil _ _
  · intro x hx
    simpa using (List.mem_filter.1 hx).2
  · rw [Parens.Balanced, depthAfter?_filter (by decide) (by decide)]
    exact hfirst.closes
  · intro x hx
    rw [bare_filter (by decide) (by decide)] at hx
    exact hbare x (hsubset (hfirst.outside x (List.mem_filter.1 hx).1).1)

theorem isType_of_mem_parameterTypes {parameters t : List Char} (h : Balanced parameters)
    (ht : t ∈ parameterTypes parameters) : IsType t := by
  obtain ⟨trimmed, htrimmed, rfl⟩ := List.mem_map.1 ht
  obtain ⟨hmem, hne⟩ := List.mem_filter.1 htrimmed
  obtain ⟨parameter, hparameter, rfl⟩ := List.mem_map.1 hmem
  have hpart := part_of_mem_splitOutside h hparameter
  exact isType_parameterType hpart.closes (fun c hc => (hpart.outside c hc).2) (by simpa using hne)

/-- Types that are joined by commas are found again. -/
theorem parameterTypes_intercalate {types : List (List Char)} (h : ∀ t ∈ types, IsType t) :
    parameterTypes ([','].intercalate types) = types := by
  cases types with
  | nil => rfl
  | cons t types =>
    have hsplit := @splitOutside_intercalate (· == ',') ',' (by decide) _
      (List.cons_ne_nil t types) fun t ht => (h t ht).whole
    have htrim : (t :: types).map Text.trim = t :: types :=
      (List.map_congr_left fun t ht => Text.trim_of_forall_dark (h t ht).dark).trans
        (List.map_id _)
    have hall : (t :: types).filter (!·.isEmpty) = t :: types :=
      List.filter_eq_self.2 fun t ht => by simp [(h t ht).nonempty]
    rw [parameterTypes]
    simp only [hsplit, htrim, hall]
    exact (List.map_congr_left fun t ht => (h t ht).parameterType).trans (List.map_id _)

/-- Neither types nor the commas between them are blank. -/
theorem isBlank_of_mem_intercalate {types : List (List Char)} (h : ∀ t ∈ types, IsType t)
    {c : Char} (hc : c ∈ [','].intercalate types) : Text.isBlank c = false := by
  have hall : types.map (List.filter (!Text.isBlank ·)) = types :=
    (List.map_congr_left fun t ht =>
      List.filter_eq_self.2 fun c hc => by simp [(h t ht).dark c hc]).trans (List.map_id _)
  have hdark : ([','].intercalate types).filter (!Text.isBlank ·) = [','].intercalate types := by
    rw [filter_intercalate, hall]
  simpa using List.filter_eq_self.1 hdark c hc

/-! ## Canonical forms -/

/-- The parts of a canonical form. -/
theorem exists_of_canonical? {cs form : List Char} (h : canonical? cs = some form) :
    ∃ name types, form = Text.trim name ++ '(' :: ([','].intercalate types ++ [')'])
      ∧ '(' ∉ Text.trim name ∧ ∀ t ∈ types, IsType t := by
  obtain ⟨⟨parameters, rest⟩, hgroup, hform⟩ := Option.bind_eq_some_iff.1 h
  obtain ⟨head, hhead, hbalanced, hstrip⟩ := group?_eq_some hgroup
  rw [canonical?_eq hstrip hhead hbalanced] at h
  refine ⟨head, parameterTypes parameters, (Option.some.inj h).symm, ?_,
    fun t ht => isType_of_mem_parameterTypes hbalanced ht⟩
  intro hmem
  obtain ⟨lead, trail, -, -, heq⟩ := Text.exists_trim head
  exact hhead (by rw [heq]; simp [hmem])

/-- A canonical form is neither trimmed nor, unless it starts with a quote, stripped of quotes. -/
theorem trimQuotes_trim_of_canonical {name parameters : List Char}
    (hquote : ∀ c ∈ (Text.trim name ++ '(' :: (parameters ++ [')'])).head?,
      Text.isQuote c = false) :
    Text.trimQuotes (Text.trim (Text.trim name ++ '(' :: (parameters ++ [')'])))
      = Text.trim name ++ '(' :: (parameters ++ [')']) := by
  have hlast : (Text.trim name ++ '(' :: (parameters ++ [')'])).getLast? = some ')' := by
    rw [← List.cons_append, ← List.append_assoc, List.getLast?_concat]
  have htrim : Text.trim (Text.trim name ++ '(' :: (parameters ++ [')']))
      = Text.trim name ++ '(' :: (parameters ++ [')']) := by
    apply Text.dropEndWhile_dropWhile
    · intro c hc
      cases hname : Text.trim name with
      | nil =>
        rw [hname] at hc
        cases hc
        decide
      | cons d rest =>
        rw [hname] at hc
        cases hc
        exact Text.isBlank_of_mem_head?_trim (by rw [hname]; rfl)
    · intro c hc
      rw [hlast] at hc
      cases hc
      decide
  -- The parenthesis at the end is no quote either.
  rw [htrim]
  apply Text.dropEndWhile_dropWhile hquote
  intro c hc
  rw [hlast] at hc
  cases hc
  decide

/-- The canonical form of a text, unless it starts with a quote, is its own canonical form.  Its
    parameter list is balanced and has no blanks and no empty parameter. -/
theorem canonical?_idempotent {cs form : List Char} (h : canonical? cs = some form)
    (hquote : ∀ c ∈ form.head?, Text.isQuote c = false) :
    canonical? form = some form
      ∧ ∃ parameters, group? form = some (parameters, [])
        ∧ Balanced parameters
        ∧ (∀ c ∈ parameters, Text.isBlank c = false)
        ∧ (parameters ≠ [] → [] ∉ splitOutside (· == ',') 0 parameters) := by
  obtain ⟨name, types, rfl, hname, htypes⟩ := exists_of_canonical? h
  have hbalanced : Balanced ([','].intercalate types) :=
    balanced_intercalate (by decide) fun t ht => (htypes t ht).whole.balanced
  constructor
  · rw [canonical?_eq (trimQuotes_trim_of_canonical hquote) hname hbalanced, Text.trim_trim,
      parameterTypes_intercalate htypes]
  · refine ⟨_, group?_append hname hbalanced [], hbalanced, ?_, ?_⟩
    · exact fun c hc => isBlank_of_mem_intercalate htypes hc
    · intro hne hmem
      have hne' : types ≠ [] := by
        rintro rfl
        exact hne rfl
      rw [splitOutside_intercalate (by decide) hne' fun t ht => (htypes t ht).whole] at hmem
      exact (htypes [] hmem).nonempty rfl

/-- A signature in quotes, with blanks, an empty parameter and the names of parameters. -/
def swap : List Char :=
  " \"swap ( uint256 amount ,, (address to, bytes)[] orders )\" ".toList

theorem canonical?_idempotent_swap :
    canonical? swap = some "swap(uint256,(addressto,bytes)[])".toList
    ∧ canonical? "swap(uint256,(addressto,bytes)[])".toList
        = some "swap(uint256,(addressto,bytes)[])".toList := by
  have hform : canonical? swap = some "swap(uint256,(addressto,bytes)[])".toList := by decide
  refine ⟨hform, (canonical?_idempotent hform ?_).1⟩
  rintro c ⟨rfl⟩
  decide

/-- A quote that was behind a blank starts the canonical form, and is taken off the next time. -/
example :
    canonical? "\" 'swap(bytes)".toList = some "'swap(bytes)".toList
    ∧ canonical? "'swap(bytes)".toList = some "swap(bytes)".toList := by
  decide

end HuffTrace.Signature
