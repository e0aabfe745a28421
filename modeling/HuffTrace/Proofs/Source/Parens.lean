/-
  HuffTrace.Proofs.Source.Parens

  Balanced texts.  What counts the parentheses of a text passes over a balanced
  part of it as if it were not there: the end of a group is found behind the
  part, and a part with no separator outside of its parentheses is never split.
  So texts that are joined by a separator are found again by splitting
  (`splitOutside_intercalate`).

  The other way round, the group that is found in a text is balanced, and so is
  every part that a balanced text is split into (`part_of_mem_splitOutside`).
-/

import HuffTrace.Source.Header
import Mathlib.Data.List.TakeWhile

namespace HuffTrace.Parens

/-! ## Balanced texts -/

/-- The number of parentheses open after a character with `depth` of them open before it. -/
def inner (depth : Nat) (c : Char) : Nat :=
  if c = '(' then depth + 1 else if c = ')' then depth - 1 else depth

theorem inner_succ {depth : Nat} {c : Char} (h : ¬ (c = ')' ∧ depth = 0)) :
    inner (depth + 1) c = inner depth c + 1 := by
  unfold inner
  split
  · rfl
  · split
    · -- The character closes a parenthesis, so one is open.
      next hc =>
      have hopen : depth ≠ 0 := fun hzero => h ⟨hc, hzero⟩
      omega
    · rfl

theorem inner_of_ne {c : Char} (h : c ≠ '(' ∧ c ≠ ')') (depth : Nat) : inner depth c = depth := by
  rw [inner, if_neg h.1, if_neg h.2]

/-- The number of parentheses open after a text with `depth` of them open before it, if none is
    closed that is not open. -/
def depthAfter? (depth : Nat) : List Char → Option Nat
  | [] => some depth
  | c :: cs =>
    if c = ')' ∧ depth = 0 then none
    else depthAfter? (inner depth c) cs

/-- A text closes the parentheses that it opens, and no others. -/
def Balanced (cs : List Char) : Prop :=
  depthAfter? 0 cs = some 0

instance (cs : List Char) : Decidable (Balanced cs) :=
  inferInstanceAs (Decidable (_ = _))

theorem depthAfter?_append (depth : Nat) (a b : List Char) :
    depthAfter? depth (a ++ b) = (depthAfter? depth a).bind fun d => depthAfter? d b := by
  induction a generalizing depth with
  | nil => rfl
  | cons c a ih =>
    rw [List.cons_append, depthAfter?, depthAfter?]
    split
    · rfl
    · exact ih _

/-- With one more parenthesis open before a text, one more is open after it. -/
theorem depthAfter?_succ {depth d : Nat} {cs : List Char} (h : depthAfter? depth cs = some d) :
    depthAfter? (depth + 1) cs = some (d + 1) := by
  induction cs generalizing depth with
  | nil => rw [depthAfter?, Option.some.inj h]
  | cons c cs ih =>
    rw [depthAfter?] at h
    split at h
    · cases h
    · next hclose =>
      rw [depthAfter?, if_neg (by omega), inner_succ hclose]
      exact ih h

theorem depthAfter?_of_forall {cs : List Char} (h : ∀ c ∈ cs, c ≠ '(' ∧ c ≠ ')') (depth : Nat) :
    depthAfter? depth cs = some depth := by
  induction cs with
  | nil => rfl
  | cons c cs ih =>
    obtain ⟨hc, hrest⟩ := List.forall_mem_cons.1 h
    rw [depthAfter?, if_neg (fun hclose => hc.2 hclose.1), inner_of_ne hc, ih hrest]

theorem balanced_of_forall {cs : List Char} (h : ∀ c ∈ cs, c ≠ '(' ∧ c ≠ ')') : Balanced cs :=
  depthAfter?_of_forall h 0

theorem Balanced.append {a b : List Char} (ha : Balanced a) (hb : Balanced b) :
    Balanced (a ++ b) := by
  rw [Balanced, depthAfter?_append, ha]
  exact hb

theorem Balanced.group {cs : List Char} (h : Balanced cs) : Balanced ('(' :: (cs ++ [')'])) := by
  rw [Balanced, depthAfter?, if_neg (by simp), depthAfter?_append]
  show (depthAfter? 1 cs).bind _ = _
  rw [depthAfter?_succ h]
  rfl

theorem ne_of_not {p : Char → Bool} (hopen : p '(' = true) (hclose : p ')' = true) {c : Char}
    (h : ¬ p c = true) : c ≠ '(' ∧ c ≠ ')' := by
  constructor
  · rintro rfl
    exact h hopen
  · rintro rfl
    exact h hclose

/-- Characters that are no parentheses do not matter. -/
theorem depthAfter?_filter {p : Char → Bool} (hopen : p '(' = true) (hclose : p ')' = true)
    (cs : List Char) (depth : Nat) : depthAfter? depth (cs.filter p) = depthAfter? depth cs := by
  induction cs generalizing depth with
  | nil => rfl
  | cons c cs ih =>
    by_cases hc : p c = true
    · rw [List.filter_cons_of_pos hc, depthAfter?, depthAfter?]
      simp only [ih]
    · have hnot := ne_of_not hopen hclose hc
      rw [List.filter_cons_of_neg hc, ih, depthAfter?, if_neg (fun h => hnot.2 h.1),
        inner_of_ne hnot]

/-! ## Groups -/

theorem close?_append {depth d : Nat} {cs : List Char} (h : depthAfter? depth cs = some d)
    (rest : List Char) :
    close? depth (cs ++ rest)
      = (close? d rest).map fun (inside, after) => (cs ++ inside, after) := by
  induction cs generalizing depth with
  | nil =>
    obtain rfl : depth = d := Option.some.inj h
    simp
  | cons c cs ih =>
    rw [depthAfter?] at h
    split at h
    · cases h
    · next hclose =>
      rw [List.cons_append, close?, if_neg hclose]
      show (close? (inner depth c) (cs ++ rest)).map _ = _
      rw [ih h, Option.map_map]
      rfl

/-- A balanced text is what the parenthesis after it closes. -/
theorem Balanced.close? {cs : List Char} (h : Balanced cs) (rest : List Char) :
    close? 0 (cs ++ ')' :: rest) = some (cs, rest) := by
  rw [close?_append h, Parens.close?, if_pos ⟨rfl, rfl⟩, Option.map_some]
  simp only [List.append_nil]

/-- Two groups with what follows them are equal only if the groups are. -/
theorem Balanced.group_inj {a b s t : List Char} (ha : Balanced a) (hb : Balanced b)
    (h : a ++ ')' :: s = b ++ ')' :: t) : a = b ∧ s = t := by
  have hclose := ha.close? s
  rw [h, hb.close? t] at hclose
  obtain ⟨rfl, rfl⟩ := Prod.mk.inj (Option.some.inj hclose)
  exact ⟨rfl, rfl⟩

theorem dropWhile_ne_append {c : Char} {head : List Char} (h : c ∉ head) (rest : List Char) :
    (head ++ c :: rest).dropWhile (· != c) = c :: rest := by
  rw [List.dropWhile_append_of_pos, List.dropWhile_cons_of_neg (by simp)]
  intro x hx
  simp only [bne_iff_ne]
  rintro rfl
  exact h hx

theorem takeWhile_ne_append {c : Char} {head : List Char} (h : c ∉ head) (rest : List Char) :
    (head ++ c :: rest).takeWhile (· != c) = head := by
  rw [List.takeWhile_append_of_pos, List.takeWhile_cons_of_neg (by simp), List.append_nil]
  intro x hx
  simp only [bne_iff_ne]
  rintro rfl
  exact h hx

theorem group?_append {head inside : List Char} (hhead : '(' ∉ head) (hinside : Balanced inside)
    (rest : List Char) :
    group? (head ++ '(' :: (inside ++ ')' :: rest)) = some (inside, rest) := by
  rw [group?, dropWhile_ne_append hhead]
  exact hinside.close? rest

/-- What is closed is balanced, apart from the parentheses that were open before it. -/
theorem close?_eq_some {depth : Nat} {cs inside rest : List Char}
    (h : close? depth cs = some (inside, rest)) :
    cs = inside ++ ')' :: rest ∧ depthAfter? depth inside = some 0 := by
  induction cs generalizing depth inside with
  | nil => cases h
  | cons c cs ih =>
    rw [close?] at h
    split at h
    · next hclose =>
      obtain ⟨rfl, rfl⟩ := hclose
      cases h
      exact ⟨rfl, rfl⟩
    · next hopen =>
      obtain ⟨⟨inside', rest'⟩, hrest, heq⟩ := Option.map_eq_some_iff.1 h
      cases heq
      obtain ⟨rfl, hdepth⟩ := ih hrest
      refine ⟨rfl, ?_⟩
      rw [depthAfter?, if_neg hopen]
      exact hdepth

/-- A group that is found is the first one and balanced. -/
theorem group?_eq_some {cs inside rest : List Char} (h : group? cs = some (inside, rest)) :
    ∃ head, '(' ∉ head ∧ Balanced inside ∧ cs = head ++ '(' :: (inside ++ ')' :: rest) := by
  rw [group?] at h
  split at h
  · cases h
  · next c tail hdrop =>
    obtain ⟨rfl, hbalanced⟩ := close?_eq_some h
    obtain rfl : c = '(' := by
      have hhead := List.head?_dropWhile_not (· != '(') cs
      rw [hdrop] at hhead
      simpa using hhead
    refine ⟨cs.takeWhile (· != '('), ?_, hbalanced, ?_⟩
    · intro hmem
      simpa using List.mem_takeWhile_imp hmem
    · rw [← hdrop, List.takeWhile_append_dropWhile]

/-! ## Splitting -/

variable {isSeparator : Char → Bool}

theorem splitOutside_ne_nil (depth : Nat) (cs : List Char) :
    splitOutside isSeparator depth cs ≠ [] := by
  cases cs with
  | nil => simp [splitOutside]
  | cons c cs =>
    rw [splitOutside]
    split
    · simp
    · simp only
      split
      all_goals simp

theorem splitOutside_cons {depth : Nat} {c : Char}
    (h : ¬ (depth = 0 ∧ c ≠ '(' ∧ c ≠ ')' ∧ isSeparator c = true)) (cs : List Char) :
    splitOutside isSeparator depth (c :: cs)
      = (splitOutside isSeparator (inner depth c) cs).modifyHead (c :: ·) := by
  obtain ⟨part, parts, hparts⟩ := List.exists_cons_of_ne_nil
    (@splitOutside_ne_nil isSeparator (inner depth c) cs)
  rw [splitOutside, if_neg h, hparts, List.modifyHead_cons]
  unfold inner at hparts
  simp only [hparts]

/-- A text with no separator outside of its parentheses is passed over. -/
theorem splitOutside_append {depth d : Nat} {a : List Char}
    (hsolid : splitOutside isSeparator depth a = [a]) (hdepth : depthAfter? depth a = some d)
    (rest : List Char) :
    splitOutside isSeparator depth (a ++ rest)
      = (splitOutside isSeparator d rest).modifyHead (a ++ ·) := by
  induction a generalizing depth with
  | nil =>
    obtain rfl : depth = d := Option.some.inj hdepth
    exact (congrFun List.modifyHead_id _).symm
  | cons c a ih =>
    rw [depthAfter?] at hdepth
    split at hdepth
    · cases hdepth
    · by_cases hsplit : depth = 0 ∧ c ≠ '(' ∧ c ≠ ')' ∧ isSeparator c = true
      · -- At a separator the text would be split.
        rw [splitOutside, if_pos hsplit] at hsolid
        simp at hsolid
      · have hrest : splitOutside isSeparator (inner depth c) a = [a] := by
          obtain ⟨part, parts, hparts⟩ := List.exists_cons_of_ne_nil
            (@splitOutside_ne_nil isSeparator (inner depth c) a)
          rw [splitOutside_cons hsplit, hparts, List.modifyHead_cons] at hsolid
          rw [hparts]
          simpa using hsolid
        rw [List.cons_append, splitOutside_cons hsplit, ih hrest hdepth,
          List.modifyHead_modifyHead]
        rfl

/-- Inside of parentheses nothing is split. -/
theorem splitOutside_succ {depth d : Nat} {cs : List Char} (h : depthAfter? depth cs = some d) :
    splitOutside isSeparator (depth + 1) cs = [cs] := by
  induction cs generalizing depth with
  | nil => rfl
  | cons c cs ih =>
    rw [depthAfter?] at h
    split at h
    · cases h
    · next hclose =>
      rw [splitOutside_cons (by omega), inner_succ hclose, ih h, List.modifyHead_cons]

/-- A text stays whole when it is split: it is balanced and has no separator outside of its
    parentheses. -/
structure Whole (isSeparator : Char → Bool) (cs : List Char) : Prop where
  solid : splitOutside isSeparator 0 cs = [cs]
  balanced : Balanced cs

theorem Whole.splitOutside_append {a : List Char} (h : Whole isSeparator a) (rest : List Char) :
    splitOutside isSeparator 0 (a ++ rest)
      = (splitOutside isSeparator 0 rest).modifyHead (a ++ ·) :=
  Parens.splitOutside_append h.solid h.balanced rest

theorem Whole.append {a b : List Char} (ha : Whole isSeparator a) (hb : Whole isSeparator b) :
    Whole isSeparator (a ++ b) where
  solid := by rw [ha.splitOutside_append, hb.solid, List.modifyHead_cons]
  balanced := ha.balanced.append hb.balanced

theorem whole_group {cs : List Char} (h : Balanced cs) :
    Whole isSeparator ('(' :: (cs ++ [')'])) where
  solid := by
    rw [splitOutside_cons (by simp)]
    show (splitOutside isSeparator 1 (cs ++ [')'])).modifyHead _ = _
    rw [Parens.splitOutside_append (splitOutside_succ h) (depthAfter?_succ h),
      splitOutside_cons (by simp)]
    rfl
  balanced := h.group

/-- The first part of a text without parentheses goes up to its first separator. -/
theorem splitOutside_of_forall {cs : List Char} (h : ∀ c ∈ cs, c ≠ '(' ∧ c ≠ ')') :
    ∃ parts, splitOutside isSeparator 0 cs = cs.takeWhile (!isSeparator ·) :: parts := by
  induction cs with
  | nil => exact ⟨[], rfl⟩
  | cons c cs ih =>
    obtain ⟨hc, hrest⟩ := List.forall_mem_cons.1 h
    by_cases hseparator : isSeparator c = true
    · refine ⟨splitOutside isSeparator 0 cs, ?_⟩
      rw [splitOutside, if_pos ⟨rfl, hc.1, hc.2, hseparator⟩,
        List.takeWhile_cons_of_neg (by simp [hseparator])]
    · obtain ⟨parts, hparts⟩ := ih hrest
      refine ⟨parts, ?_⟩
      rw [splitOutside_cons (fun hsplit => hseparator hsplit.2.2.2), inner_of_ne hc, hparts,
        List.modifyHead_cons, List.takeWhile_cons_of_pos (by simp [hseparator])]

theorem whole_of_forall {cs : List Char}
    (h : ∀ c ∈ cs, (c ≠ '(' ∧ c ≠ ')') ∧ isSeparator c = false) : Whole isSeparator cs where
  solid := by
    induction cs with
    | nil => rfl
    | cons c cs ih =>
      obtain ⟨⟨hc, hseparator⟩, hrest⟩ := List.forall_mem_cons.1 h
      rw [splitOutside_cons (by simp [hseparator]), inner_of_ne hc, ih hrest,
        List.modifyHead_cons]
  balanced := balanced_of_forall fun c hc => (h c hc).1

/-- Characters that are neither parentheses nor separators do not matter for the parts. -/
theorem splitOutside_filter {p : Char → Bool} (hopen : p '(' = true) (hclose : p ')' = true)
    (hseparator : ∀ c, isSeparator c = true → p c = true) (cs : List Char) (depth : Nat) :
    splitOutside isSeparator depth (cs.filter p)
      = (splitOutside isSeparator depth cs).map (List.filter p) := by
  induction cs generalizing depth with
  | nil => rfl
  | cons c cs ih =>
    obtain ⟨part, parts, hparts⟩ := List.exists_cons_of_ne_nil
      (@splitOutside_ne_nil isSeparator (inner depth c) cs)
    by_cases hsplit : depth = 0 ∧ c ≠ '(' ∧ c ≠ ')' ∧ isSeparator c = true
    · rw [List.filter_cons_of_pos (hseparator c hsplit.2.2.2), splitOutside, splitOutside,
        if_pos hsplit, if_pos hsplit, ih]
      rfl
    · rw [splitOutside_cons hsplit, hparts, List.modifyHead_cons, List.map_cons]
      by_cases hc : p c = true
      · rw [List.filter_cons_of_pos hc, splitOutside_cons hsplit, ih, hparts, List.map_cons,
          List.modifyHead_cons, List.filter_cons_of_pos hc]
      · rw [inner_of_ne (ne_of_not hopen hclose hc)] at hparts
        rw [List.filter_cons_of_neg hc, ih, hparts, List.map_cons, List.filter_cons_of_neg hc]

theorem Whole.filter {p : Char → Bool} (hopen : p '(' = true) (hclose : p ')' = true)
    (hseparator : ∀ c, isSeparator c = true → p c = true) {cs : List Char}
    (h : Whole isSeparator cs) : Whole isSeparator (cs.filter p) where
  solid := by rw [splitOutside_filter hopen hclose hseparator, h.solid]; rfl
  balanced := by rw [Balanced, depthAfter?_filter hopen hclose]; exact h.balanced

theorem balanced_intercalate {separator : Char} (hseparator : separator ≠ '(' ∧ separator ≠ ')')
    {parts : List (List Char)} (h : ∀ part ∈ parts, Balanced part) :
    Balanced ([separator].intercalate parts) := by
  induction parts with
  | nil => rfl
  | cons part parts ih =>
    obtain ⟨hpart, hparts⟩ := List.forall_mem_cons.1 h
    cases parts with
    | nil => rwa [List.intercalate_singleton]
    | cons next rest =>
      have hmark : Balanced [separator] := balanced_of_forall (by simpa using hseparator)
      rw [List.intercalate_cons_cons]
      exact (hpart.append hmark).append (ih hparts)

/-- Whole texts that are joined by a separator are found again. -/
theorem splitOutside_intercalate {separator : Char}
    (hseparator : separator ≠ '(' ∧ separator ≠ ')' ∧ isSeparator separator = true)
    {parts : List (List Char)} (hne : parts ≠ []) (h : ∀ part ∈ parts, Whole isSeparator part) :
    splitOutside isSeparator 0 ([separator].intercalate parts) = parts := by
  induction parts with
  | nil => exact absurd rfl hne
  | cons part parts ih =>
    obtain ⟨hpart, hparts⟩ := List.forall_mem_cons.1 h
    cases parts with
    | nil => rw [List.intercalate_singleton, hpart.solid]
    | cons next rest =>
      rw [List.intercalate_cons_cons, List.append_assoc, hpart.splitOutside_append,
        List.singleton_append, splitOutside, if_pos ⟨rfl, hseparator⟩, ih (by simp) hparts,
        List.modifyHead_cons, List.append_nil]

/-- Joined by a separator, whole texts tell which they are. -/
theorem intercalate_inj {separator : Char}
    (hseparator : separator ≠ '(' ∧ separator ≠ ')' ∧ isSeparator separator = true)
    {parts parts' : List (List Char)} (hlength : parts.length = parts'.length)
    (h : ∀ part ∈ parts, Whole isSeparator part) (h' : ∀ part ∈ parts', Whole isSeparator part)
    (heq : [separator].intercalate parts = [separator].intercalate parts') : parts = parts' := by
  by_cases hne : parts = []
  · rw [hne] at hlength ⊢
    exact (List.length_eq_zero_iff.1 hlength.symm).symm
  · have hne' : parts' ≠ [] := by
      rintro rfl
      exact hne (List.length_eq_zero_iff.1 hlength)
    rw [← splitOutside_intercalate hseparator hne h, heq,
      splitOutside_intercalate hseparator hne' h']

/-! ## Characters outside of parentheses -/

/-- The characters of a text that stand outside of parentheses, with `depth` of them open before
    it. -/
def bare (depth : Nat) : List Char → List Char
  | [] => []
  | c :: cs =>
    if depth = 0 ∧ c ≠ '(' ∧ c ≠ ')' then c :: bare (inner depth c) cs else bare (inner depth c) cs

theorem bare_append {depth d : Nat} {a : List Char} (h : depthAfter? depth a = some d)
    (b : List Char) : bare depth (a ++ b) = bare depth a ++ bare d b := by
  induction a generalizing depth with
  | nil => rw [Option.some.inj h]; rfl
  | cons c a ih =>
    rw [depthAfter?] at h
    split at h
    · cases h
    · rw [List.cons_append, bare, bare, ih h]
      split <;> rfl

theorem bare_subset (depth : Nat) (cs : List Char) : bare depth cs ⊆ cs := by
  induction cs generalizing depth with
  | nil => exact List.Subset.refl _
  | cons c cs ih =>
    rw [bare]
    split
    · exact List.cons_subset_cons c (ih _)
    · exact List.subset_cons_of_subset c (ih _)

theorem bare_filter {p : Char → Bool} (hopen : p '(' = true) (hclose : p ')' = true)
    (cs : List Char) (depth : Nat) : bare depth (cs.filter p) = (bare depth cs).filter p := by
  induction cs generalizing depth with
  | nil => rfl
  | cons c cs ih =>
    by_cases hc : p c = true
    · rw [List.filter_cons_of_pos hc, bare, bare, ih]
      split
      · rw [List.filter_cons_of_pos hc]
      · rfl
    · have hnot := ne_of_not hopen hclose hc
      rw [List.filter_cons_of_neg hc, ih, bare, inner_of_ne hnot]
      split
      · rw [List.filter_cons_of_neg hc]
      · rfl

/-- A text is not split if no separator stands outside of its parentheses. -/
theorem splitOutside_of_bare {depth : Nat} {cs : List Char}
    (h : ∀ c ∈ bare depth cs, isSeparator c = false) :
    splitOutside isSeparator depth cs = [cs] := by
  induction cs generalizing depth with
  | nil => rfl
  | cons c cs ih =>
    rw [bare] at h
    by_cases hbare : depth = 0 ∧ c ≠ '(' ∧ c ≠ ')'
    · rw [if_pos hbare] at h
      obtain ⟨hc, hrest⟩ := List.forall_mem_cons.1 h
      rw [splitOutside_cons (by simp [hc]), ih hrest, List.modifyHead_cons]
    · rw [if_neg hbare] at h
      rw [splitOutside_cons (fun hsplit => hbare ⟨hsplit.1, hsplit.2.1, hsplit.2.2.1⟩), ih h,
        List.modifyHead_cons]

theorem whole_of_bare {cs : List Char} (hbalanced : Balanced cs)
    (h : ∀ c ∈ bare 0 cs, isSeparator c = false) : Whole isSeparator cs :=
  ⟨splitOutside_of_bare h, hbalanced⟩

/-- A part of a text: it closes the parentheses that are open before it, and outside of
    parentheses it has no separator and nothing that the text does not have there. -/
structure Part (isSeparator : Char → Bool) (around : List Char) (depth : Nat)
    (part : List Char) : Prop where
  closes : depthAfter? depth part = some 0
  outside : ∀ c ∈ bare depth part, c ∈ around ∧ isSeparator c = false

theorem Part.mono {around around' : List Char} {depth : Nat} {part : List Char}
    (h : Part isSeparator around depth part) (hsubset : around ⊆ around') :
    Part isSeparator around' depth part :=
  ⟨h.closes, fun c hc => ⟨hsubset (h.outside c hc).1, (h.outside c hc).2⟩⟩

/-- The first part of a text starts where the text does, and the others outside of all
    parentheses. -/
theorem exists_parts {depth : Nat} {cs : List Char} (h : depthAfter? depth cs = some 0) :
    ∃ first parts, splitOutside isSeparator depth cs = first :: parts
      ∧ Part isSeparator (bare depth cs) depth first
      ∧ ∀ part ∈ parts, Part isSeparator (bare depth cs) 0 part := by
  induction cs generalizing depth with
  | nil => exact ⟨[], [], rfl, ⟨h, nofun⟩, nofun⟩
  | cons c cs ih =>
    have hsubset : bare (inner depth c) cs ⊆ bare depth (c :: cs) := by
      rw [bare]
      split
      · exact List.subset_cons_self c _
      · exact List.Subset.refl _
    rw [depthAfter?] at h
    split at h
    · cases h
    · next hclose =>
      obtain ⟨first, parts, hsplit, hfirst, hparts⟩ := ih h
      by_cases hseparator : depth = 0 ∧ c ≠ '(' ∧ c ≠ ')' ∧ isSeparator c = true
      · -- At a separator a part ends, and all that follow start outside of parentheses.
        obtain ⟨rfl, hopen, hclose', hmatch⟩ := hseparator
        rw [inner_of_ne ⟨hopen, hclose'⟩] at hsplit hfirst hparts hsubset
        refine ⟨[], first :: parts, ?_, ⟨rfl, nofun⟩, ?_⟩
        · rw [splitOutside, if_pos ⟨rfl, hopen, hclose', hmatch⟩, hsplit]
        · exact List.forall_mem_cons.2
            ⟨hfirst.mono hsubset, fun part hpart => (hparts part hpart).mono hsubset⟩
      · -- Any other character comes before the first part of what follows it.
        refine ⟨c :: first, parts, ?_, ⟨?_, ?_⟩, fun part hpart => (hparts part hpart).mono hsubset⟩
        · rw [splitOutside_cons hseparator, hsplit, List.modifyHead_cons]
        · rw [depthAfter?, if_neg hclose]
          exact hfirst.closes
        · intro x hx
          rw [bare] at hx
          split at hx
          · next hbare =>
            rcases List.mem_cons.1 hx with rfl | hx
            · refine ⟨by rw [bare, if_pos hbare]; exact List.mem_cons_self, ?_⟩
              by_contra hx
              exact hseparator ⟨hbare.1, hbare.2.1, hbare.2.2, by simpa using hx⟩
            · exact (hfirst.mono hsubset).outside x hx
          · exact (hfirst.mono hsubset).outside x hx

theorem part_of_mem_splitOutside {cs part : List Char} (h : Balanced cs)
    (hpart : part ∈ splitOutside isSeparator 0 cs) : Part isSeparator (bare 0 cs) 0 part := by
  obtain ⟨first, parts, hsplit, hfirst, hparts⟩ := @exists_parts isSeparator 0 cs h
  rw [hsplit] at hpart
  rcases List.mem_cons.1 hpart with rfl | hpart
  · exact hfirst
  · exact hparts part hpart

end HuffTrace.Parens
