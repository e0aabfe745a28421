/-
  HuffTrace.Proofs.Json.Written

  Values that are written and read again.  A value that is built from texts,
  numbers, lists and named fields is read back from either layout, whatever
  stands after it, as long as that does not go on with a number (`Built.readsBack`).
  The depth of the calls that this takes is at most twice the length of what is
  written, so the reader never gives up.
-/

import Mathlib.Data.List.DropRight
import Mathlib.Data.List.Nodup
import HuffTrace.Proofs.Json.Escape

namespace HuffTrace.Json

/-! ## Layout -/

theorem skipSpace_newline (layout : Layout) (level : Nat) (cs : List Char) :
    skipSpace (layout.newline level ++ cs) = skipSpace cs := by
  rw [Layout.newline]
  split
  · rw [skipSpace, List.cons_append, List.dropWhile_cons_of_pos (by decide),
      List.dropWhile_append_of_pos]
    · rfl
    · exact List.forall_mem_replicate.2 (.inr (by decide))
  · rfl

theorem skipSpace_of_dark {c : Char} {cs : List Char} (h : isSpace c = false) :
    skipSpace (c :: cs) = c :: cs :=
  List.dropWhile_cons_of_neg (by simp [h])

/-- Layout before a value does not count. -/
theorem readValue?_of_skipSpace {cs ds : List Char} (h : skipSpace cs = skipSpace ds) (fuel : Nat) :
    readValue? fuel cs = readValue? fuel ds := by
  cases fuel with
  | zero => rfl
  | succ fuel => rw [readValue?, readValue?, h]

theorem readMembers?_of_skipSpace {cs ds : List Char} (h : skipSpace cs = skipSpace ds)
    (fuel : Nat) : readMembers? fuel cs = readMembers? fuel ds := by
  cases fuel with
  | zero => rfl
  | succ fuel => rw [readMembers?, readMembers?, h]

theorem readItems?_of_skipSpace {cs ds : List Char} (h : skipSpace cs = skipSpace ds)
    (fuel : Nat) : readItems? fuel cs = readItems? fuel ds := by
  cases fuel with
  | zero => rfl
  | succ fuel => rw [readItems?, readItems?, readValue?_of_skipSpace h]

/-! ## Numbers -/

/-- What can stand after a value: nothing, a separator, a closing bracket or layout. -/
def Ends (rest : List Char) : Prop :=
  ∀ c ∈ rest.head?, c ∈ [',', ']', '\x7d', '\n']

theorem ends_cons {c : Char} {rest : List Char} (h : c ∈ [',', ']', '\x7d', '\n']) :
    Ends (c :: rest) := by
  rintro d ⟨⟩
  exact h

theorem Ends.head?_ne {rest : List Char} (h : Ends rest) {c : Char}
    (hc : c ∉ [',', ']', '\x7d', '\n']) : rest.head? ≠ some c :=
  fun hhead => hc (h c hhead)

theorem Ends.isDigit_eq_false {rest : List Char} (h : Ends rest) {c : Char}
    (hc : c ∈ rest.head?) : Text.isDigit c = false := by
  have hstop := h c hc
  simp only [List.mem_cons, List.not_mem_nil, or_false] at hstop
  rcases hstop with rfl | rfl | rfl | rfl <;> decide

theorem isDigit_of_mem_toDigits {n : Nat} {c : Char} (h : c ∈ Nat.toDigits 10 n) :
    Text.isDigit c = true := by
  have hdigit : c.isDigit = true := Nat.isDigit_of_mem_toDigits (by decide) (by decide) h
  obtain ⟨hlow, hhigh⟩ := Char.isDigit_iff_toNat.1 hdigit
  have hhigh : c.toNat ≤ 57 := hhigh
  have hrange : '0' ≤ c ∧ c ≤ '9' := ⟨hlow, hhigh⟩
  have hvalue : c.toNat - 48 < 10 := by omega
  simp [Text.isDigit, Text.digit?, hrange, hvalue]

/-- A number starts with a digit. -/
theorem exists_toDigits_eq_cons (n : Nat) :
    ∃ c cs, Nat.toDigits 10 n = c :: cs ∧ Text.isDigit c = true := by
  obtain ⟨c, cs, hcs⟩ := List.exists_cons_of_ne_nil (Nat.toDigits_ne_nil (b := 10) (n := n))
  exact ⟨c, cs, hcs, isDigit_of_mem_toDigits (n := n) (by simp [hcs])⟩

theorem ne_of_isDigit {c d : Char} (h : Text.isDigit c = true) (hd : Text.isDigit d = false) :
    c ≠ d := by
  rintro rfl
  simp [h] at hd

theorem isSpace_of_isDigit {c : Char} (h : Text.isDigit c = true) : isSpace c = false := by
  have hspace : c ≠ ' ' := ne_of_isDigit h (by decide)
  have hnewline : c ≠ '\n' := ne_of_isDigit h (by decide)
  have htab : c ≠ '\t' := ne_of_isDigit h (by decide)
  have hreturn : c ≠ '\r' := ne_of_isDigit h (by decide)
  simp [isSpace, hspace, hnewline, htab, hreturn]

theorem readDigits?_append {digits rest : List Char} (hne : digits ≠ [])
    (hdigits : ∀ c ∈ digits, Text.isDigit c = true) (hrest : Ends rest) :
    readDigits? (digits ++ rest) = some (digits, rest) := by
  have htake : rest.takeWhile Text.isDigit = [] := by
    cases rest with
    | nil => rfl
    | cons c rest => exact List.takeWhile_cons_of_neg (by simp [hrest.isDigit_eq_false rfl])
  have hdrop : rest.dropWhile Text.isDigit = rest := by
    cases rest with
    | nil => rfl
    | cons c rest => exact List.dropWhile_cons_of_neg (by simp [hrest.isDigit_eq_false rfl])
  rw [readDigits?, List.takeWhile_append_of_pos hdigits, htake, List.append_nil,
    List.dropWhile_append_of_pos hdigits, hdrop]
  simp [hne]

theorem readFraction?_of_ends {rest : List Char} (h : Ends rest) :
    readFraction? rest = some ([], rest) := by
  rw [readFraction?]
  intro more hmore
  exact h.head?_ne (c := '.') (by decide) (by rw [hmore]; rfl)

theorem readExponent?_of_ends {rest : List Char} (h : Ends rest) :
    readExponent? rest = some ([], rest) := by
  cases rest with
  | nil => rfl
  | cons c rest =>
    have hc : ¬ (c = 'e' ∨ c = 'E') := by
      rintro (rfl | rfl) <;> exact h.head?_ne (by decide) rfl
    simp only [readExponent?, if_neg hc]

/-- The part of a number before its fraction is read to its end: only zero starts with a
    zero. -/
theorem readWhole?_toDigits (n : Nat) {rest : List Char} (h : Ends rest) :
    readWhole? (Nat.toDigits 10 n ++ rest) = some (Nat.toDigits 10 n, rest) := by
  by_cases hzero : n = 0
  · subst hzero
    rfl
  · -- A zero in front would end the number there.
    have hdigits : readDigits? (Nat.toDigits 10 n ++ rest) = some (Nat.toDigits 10 n, rest) :=
      readDigits?_append Nat.toDigits_ne_nil (fun _ => isDigit_of_mem_toDigits) h
    rw [readWhole?, hdigits]
    intro more hmore
    have hhead : (Nat.toDigits 10 n).head? = some '0' := by
      rw [← List.head?_append_of_ne_nil _ Nat.toDigits_ne_nil, hmore]
      rfl
    exact hzero (Text.eq_zero_of_head?_toDigits (by decide) hhead)

theorem readNumber?_toDigits (n : Nat) {rest : List Char} (h : Ends rest) :
    readNumber? (Nat.toDigits 10 n ++ rest) = some (Nat.toDigits 10 n, rest) := by
  rw [readNumber?]
  · simp only [readWhole?_toDigits n h, readFraction?_of_ends h, readExponent?_of_ends h,
      Option.bind_eq_bind, Option.bind_some, Option.pure_def, List.nil_append, List.append_nil]
  · intro more hmore
    obtain ⟨c, cs, hcs, hc⟩ := exists_toDigits_eq_cons n
    rw [hcs, List.cons_append, List.cons.injEq] at hmore
    exact ne_of_isDigit hc (by decide) hmore.1

/-! ## Values -/

/-- Values that are built from texts, numbers, lists and named fields. -/
inductive Built : Json → Prop where
  | null : Built .null
  | bool (b : Bool) : Built (.bool b)
  | number (n : Nat) : Built (.ofNat n)
  | string (text : String) : Built (.ofString text)
  | array {items : List Json} (h : ∀ item ∈ items, Built item) : Built (.array items)
  | object {fields : List (String × Json)} (h : ∀ field ∈ fields, Built field.2) :
    Built (.ofFields fields)

theorem writeItems_eq (layout : Layout) (level : Nat) (items : List Json) :
    writeItems layout level items = items.map (write layout level) := by
  induction items with
  | nil => rfl
  | cons item items ih => rw [writeItems, ih, List.map_cons]

/-- A member as it is written. -/
def writeField (layout : Layout) (level : Nat) (field : String × Json) : List Char :=
  '"' :: escape field.1 ++ '"' :: layout.colon ++ write layout level field.2

theorem writeMembers_eq (layout : Layout) (level : Nat) (fields : List (String × Json)) :
    writeMembers layout level (fields.map fun (name, value) => (escape name, value))
      = fields.map (writeField layout level) := by
  induction fields with
  | nil => rfl
  | cons field fields ih =>
    rw [List.map_cons, writeMembers, ih, List.map_cons]
    rfl

/-- A value is read back wherever it is written, at a depth of calls that its text bounds. -/
def ReadsBack (layout : Layout) (value : Json) : Prop :=
  ∀ level fuel rest, 2 * (write layout level value).length ≤ fuel → Ends rest →
    readValue? fuel (write layout level value ++ rest) = some (value, rest)

/-- A written value starts with a character that is neither layout nor a closing bracket. -/
theorem Built.exists_cons {value : Json} (h : Built value) (layout : Layout) (level : Nat) :
    ∃ c cs, write layout level value = c :: cs ∧ isSpace c = false ∧ c ≠ ']' := by
  cases h with
  | null => exact ⟨'n', _, rfl, by decide, by decide⟩
  | bool b => cases b <;> exact ⟨_, _, rfl, by decide, by decide⟩
  | number n =>
    obtain ⟨c, cs, hcs, hc⟩ := exists_toDigits_eq_cons n
    exact ⟨c, cs, hcs, isSpace_of_isDigit hc, ne_of_isDigit hc (by decide)⟩
  | string text => exact ⟨'"', _, rfl, by decide, by decide⟩
  | array h =>
    rw [write, Layout.bracket]
    split <;> exact ⟨'[', _, rfl, by decide, by decide⟩
  | object h =>
    rw [ofFields, write, Layout.bracket]
    split <;> exact ⟨'\x7b', _, rfl, by decide, by decide⟩

theorem ends_closing (layout : Layout) (level : Nat) {c : Char} (rest : List Char)
    (h : c ∈ [',', ']', '\x7d', '\n']) : Ends (layout.newline level ++ c :: rest) := by
  rw [Layout.newline]
  split
  · exact ends_cons (by decide)
  · exact ends_cons h

/-! ## Lists -/

/-- Parts at a level of nesting, with the separators between them. -/
def joined (layout : Layout) (level : Nat) (parts : List (List Char)) : List Char :=
  [','].intercalate (parts.map (layout.newline level ++ ·))

theorem joined_singleton (layout : Layout) (level : Nat) (part : List Char) :
    joined layout level [part] = layout.newline level ++ part :=
  List.intercalate_singleton

theorem joined_cons_cons (layout : Layout) (level : Nat) (part next : List Char)
    (parts : List (List Char)) :
    joined layout level (part :: next :: parts)
      = layout.newline level ++ (part ++ ',' :: joined layout level (next :: parts)) := by
  simp [joined, List.intercalate_cons_cons]

/-- The items of an array are read back through its closing bracket. -/
theorem readItems?_joined {layout : Layout} {level : Nat} {item : Json} {items : List Json}
    (h : ∀ x ∈ item :: items, ReadsBack layout x) (outer : Nat) (rest : List Char) {fuel : Nat}
    (hfuel : 2 * (joined layout level ((item :: items).map (write layout level))).length < fuel) :
    readItems? fuel (joined layout level ((item :: items).map (write layout level))
        ++ (layout.newline outer ++ ']' :: rest))
      = some (item :: items, rest) := by
  induction items generalizing item fuel with
  | nil =>
    obtain ⟨fuel, rfl⟩ : ∃ k, fuel = k + 1 := ⟨fuel - 1, by omega⟩
    simp only [List.map_cons, List.map_nil, joined_singleton, List.length_append] at hfuel ⊢
    have hread := h item List.mem_cons_self level fuel (layout.newline outer ++ ']' :: rest)
      (by omega) (ends_closing layout outer rest (by decide))
    rw [List.append_assoc, readItems?_of_skipSpace (skipSpace_newline layout level _), readItems?,
      hread]
    simp only [Option.bind_eq_bind, Option.bind_some]
    rw [skipSpace_newline, skipSpace_of_dark (by decide)]
    rfl
  | cons next items ih =>
    obtain ⟨fuel, rfl⟩ : ∃ k, fuel = k + 1 := ⟨fuel - 1, by omega⟩
    simp only [List.map_cons, joined_cons_cons, List.length_append, List.length_cons] at hfuel ⊢
    -- The comma after the item pays for the call that reads what follows it.
    have hread := h item List.mem_cons_self level fuel
      (',' :: (joined layout level ((next :: items).map (write layout level))
        ++ (layout.newline outer ++ ']' :: rest))) (by omega) (ends_cons (by decide))
    have hshorter : 2 * (joined layout level ((next :: items).map (write layout level))).length
        < fuel := by
      rw [List.map_cons]
      omega
    have hmore := ih (fun x hx => h x (List.mem_cons_of_mem item hx)) hshorter
    rw [List.append_assoc, readItems?_of_skipSpace (skipSpace_newline layout level _), readItems?,
      List.append_assoc, List.cons_append, ← List.map_cons, hread]
    simp only [Option.bind_eq_bind, Option.bind_some]
    rw [skipSpace_of_dark (by decide)]
    simp only [hmore, Option.map_some]

/-! ## Named fields -/

theorem skipSpace_colon (layout : Layout) (cs : List Char) :
    ∃ ds, skipSpace (layout.colon ++ cs) = ':' :: ds ∧ skipSpace ds = skipSpace cs := by
  rw [Layout.colon]
  split
  · exact ⟨' ' :: cs, rfl, rfl⟩
  · exact ⟨cs, rfl, rfl⟩

/-- A member is its name, a colon and its value, which is read up to what follows it. -/
theorem exists_writeField_append {layout : Layout} {field : String × Json}
    (h : ReadsBack layout field.2) (level fuel : Nat) (tail : List Char)
    (hfuel : 2 * (writeField layout level field).length ≤ fuel) (htail : Ends tail) :
    ∃ cs ds, writeField layout level field ++ tail = '"' :: (escape field.1 ++ '"' :: cs)
      ∧ skipSpace cs = ':' :: ds ∧ readValue? fuel ds = some (field.2, tail) := by
  obtain ⟨ds, hcolon, hds⟩ := skipSpace_colon layout (write layout level field.2 ++ tail)
  simp only [writeField, List.length_append, List.length_cons] at hfuel
  refine ⟨_, ds, by simp [writeField], hcolon, ?_⟩
  rw [readValue?_of_skipSpace hds]
  exact h level fuel tail (by omega) htail

/-- The members of an object are read back through its closing brace. -/
theorem readMembers?_joined {layout : Layout} {level : Nat} {field : String × Json}
    {fields : List (String × Json)} (h : ∀ x ∈ field :: fields, ReadsBack layout x.2)
    (outer : Nat) (rest : List Char) {fuel : Nat}
    (hfuel : 2 * (joined layout level ((field :: fields).map (writeField layout level))).length
      < fuel) :
    readMembers? fuel (joined layout level ((field :: fields).map (writeField layout level))
        ++ (layout.newline outer ++ '\x7d' :: rest))
      = some ((field :: fields).map fun (name, value) => (escape name, value), rest) := by
  induction fields generalizing field fuel with
  | nil =>
    obtain ⟨fuel, rfl⟩ : ∃ k, fuel = k + 1 := ⟨fuel - 1, by omega⟩
    simp only [List.map_cons, List.map_nil, joined_singleton, List.length_append] at hfuel ⊢
    obtain ⟨cs, ds, htext, hcolon, hread⟩ := exists_writeField_append
      (h field List.mem_cons_self) level fuel (layout.newline outer ++ '\x7d' :: rest)
      (by omega) (ends_closing layout outer rest (by decide))
    rw [List.append_assoc, readMembers?_of_skipSpace (skipSpace_newline layout level _), htext,
      readMembers?, skipSpace_of_dark (by decide)]
    simp only [readBody?_escape, Option.bind_eq_bind, Option.bind_some, hcolon, hread]
    rw [skipSpace_newline, skipSpace_of_dark (by decide)]
    rfl
  | cons next fields ih =>
    obtain ⟨fuel, rfl⟩ : ∃ k, fuel = k + 1 := ⟨fuel - 1, by omega⟩
    simp only [List.map_cons, joined_cons_cons, List.length_append, List.length_cons] at hfuel ⊢
    have hshorter :
        2 * (joined layout level ((next :: fields).map (writeField layout level))).length
          < fuel := by
      rw [List.map_cons]
      omega
    have hmore := ih (fun x hx => h x (List.mem_cons_of_mem field hx)) hshorter
    obtain ⟨cs, ds, htext, hcolon, hread⟩ := exists_writeField_append
      (h field List.mem_cons_self) level fuel
      (',' :: (joined layout level ((next :: fields).map (writeField layout level))
        ++ (layout.newline outer ++ '\x7d' :: rest))) (by omega) (ends_cons (by decide))
    rw [List.append_assoc, readMembers?_of_skipSpace (skipSpace_newline layout level _),
      List.append_assoc, List.cons_append, ← List.map_cons, htext, readMembers?,
      skipSpace_of_dark (by decide)]
    simp only [readBody?_escape, Option.bind_eq_bind, Option.bind_some, hcolon, hread]
    rw [skipSpace_of_dark (by decide)]
    simp only [hmore, Option.map_some]
    rfl

/-! ## All values -/

theorem write_array {layout : Layout} {level : Nat} {item : Json} {items : List Json} :
    write layout level (.array (item :: items))
      = '[' :: (joined layout (level + 1) ((item :: items).map (write layout (level + 1)))
        ++ (layout.newline level ++ [']'])) := by
  rw [write, Layout.bracket, writeItems_eq, joined]
  simp

theorem write_object {layout : Layout} {level : Nat} {field : String × Json}
    {fields : List (String × Json)} :
    write layout level (.ofFields (field :: fields))
      = '\x7b' :: (joined layout (level + 1) ((field :: fields).map (writeField layout (level + 1)))
        ++ (layout.newline level ++ ['\x7d'])) := by
  rw [ofFields, write, Layout.bracket, writeMembers_eq, joined]
  simp

theorem skipSpace_skipSpace (cs : List Char) : skipSpace (skipSpace cs) = skipSpace cs :=
  List.dropWhile_idempotent _ _

/-- A digit starts a number, and nothing else. -/
theorem readValue?_number {n : Nat} {rest : List Char} (hrest : Ends rest) (fuel : Nat) :
    readValue? (fuel + 1) (Nat.toDigits 10 n ++ rest) = some (.ofNat n, rest) := by
  obtain ⟨c, cs, hcs, hc⟩ := exists_toDigits_eq_cons n
  -- The words that are tried before a number begin with letters.
  have hword : ∀ (word : String) (value : Json) (more : List Char),
      word.toList.head?.all (Text.isDigit · == false) → word.toList ≠ [] →
        readWord? word value (c :: more) = none := by
    intro word value more hhead hnil
    obtain ⟨d, ds, hds⟩ := List.exists_cons_of_ne_nil hnil
    have hd : Text.isDigit d = false := by simpa [hds] using hhead
    simp [readWord?, hds, (ne_of_isDigit hc hd).symm]
  have hnumber := readNumber?_toDigits n hrest
  rw [hcs, List.cons_append] at hnumber ⊢
  rw [readValue?, skipSpace_of_dark (isSpace_of_isDigit hc)]
  split
  · next heq => cases heq; exact absurd hc (by decide)
  · next heq => cases heq; exact absurd hc (by decide)
  · next heq => cases heq; exact absurd hc (by decide)
  · rw [hword _ _ _ (by decide) (by decide), hword _ _ _ (by decide) (by decide),
      hword _ _ _ (by decide) (by decide), hnumber, ofNat, hcs]
    rfl

theorem readValue?_string (text : String) (rest : List Char) (fuel : Nat) :
    readValue? (fuel + 1) ('"' :: (escape text ++ '"' :: rest)) = some (.ofString text, rest) := by
  rw [readValue?, skipSpace_of_dark (by decide)]
  simp only [readBody?_escape, Option.map_some]
  rfl

/-- After an opening bracket that no closing one follows there are items. -/
theorem readValue?_items {c : Char} {more cs : List Char} (hmore : skipSpace more = c :: cs)
    (hc : c ≠ ']') (fuel : Nat) :
    readValue? (fuel + 1) ('[' :: more)
      = (readItems? fuel more).map fun (items, rest) => (.array items, rest) := by
  rw [← readItems?_of_skipSpace (skipSpace_skipSpace more), readValue?,
    skipSpace_of_dark (by decide)]
  simp only
  split
  · next heq =>
    rw [hmore] at heq
    cases heq
    exact absurd rfl hc
  · rfl

/-- After an opening brace that no closing one follows there are members. -/
theorem readValue?_members {c : Char} {more cs : List Char} (hmore : skipSpace more = c :: cs)
    (hc : c ≠ '\x7d') (fuel : Nat) :
    readValue? (fuel + 1) ('\x7b' :: more)
      = (readMembers? fuel more).map fun (members, rest) => (.object members, rest) := by
  rw [← readMembers?_of_skipSpace (skipSpace_skipSpace more), readValue?,
    skipSpace_of_dark (by decide)]
  simp only
  split
  · next heq =>
    rw [hmore] at heq
    cases heq
    exact absurd rfl hc
  · rfl

/-- What is written first decides what is read first. -/
theorem skipSpace_joined (layout : Layout) (level : Nat) {c : Char} (hc : isSpace c = false)
    (cs : List Char) (parts : List (List Char)) (rest : List Char) :
    ∃ ds, skipSpace (joined layout level ((c :: cs) :: parts) ++ rest) = c :: ds := by
  cases parts with
  | nil =>
    refine ⟨cs ++ rest, ?_⟩
    rw [joined_singleton, List.append_assoc, skipSpace_newline]
    exact skipSpace_of_dark hc
  | cons next parts =>
    refine ⟨cs ++ ',' :: joined layout level (next :: parts) ++ rest, ?_⟩
    rw [joined_cons_cons, List.append_assoc, skipSpace_newline]
    exact skipSpace_of_dark hc

/-- No value is written as the empty text, so there is a call left to read one. -/
theorem Built.readsBack_of_succ {value : Json} (h : Built value) {layout : Layout}
    (hsucc : ∀ level fuel rest, 2 * (write layout level value).length ≤ fuel + 1 → Ends rest →
      readValue? (fuel + 1) (write layout level value ++ rest) = some (value, rest)) :
    ReadsBack layout value := by
  intro level fuel rest hfuel hrest
  obtain ⟨c, cs, hcs, -⟩ := h.exists_cons layout level
  have hpos : 0 < (write layout level value).length := by
    rw [hcs]
    exact Nat.succ_pos _
  obtain ⟨fuel, rfl⟩ : ∃ k, fuel = k + 1 := ⟨fuel - 1, by omega⟩
  exact hsucc level fuel rest hfuel hrest

/-- Built values are read back. -/
theorem Built.readsBack {value : Json} (h : Built value) (layout : Layout) :
    ReadsBack layout value := by
  induction h with
  | null =>
    refine Built.null.readsBack_of_succ fun level fuel rest _ _ => ?_
    rw [readValue?]
    rfl
  | bool b =>
    refine (Built.bool b).readsBack_of_succ fun level fuel rest _ _ => ?_
    cases b <;> rw [readValue?] <;> rfl
  | number n =>
    refine (Built.number n).readsBack_of_succ fun level fuel rest _ hrest => ?_
    rw [ofNat, write]
    exact readValue?_number hrest fuel
  | string text =>
    refine (Built.string text).readsBack_of_succ fun level fuel rest _ _ => ?_
    have hwrite : write layout level (.ofString text) ++ rest
        = '"' :: (escape text ++ '"' :: rest) := by
      simp [ofString, write]
    rw [hwrite]
    exact readValue?_string text rest fuel
  | @array items h ih =>
    refine (Built.array h).readsBack_of_succ fun level fuel rest hfuel _ => ?_
    -- Brackets with nothing between them are written in one piece, whatever the layout.
    cases items with
    | nil =>
      rw [write, readValue?]
      rfl
    | cons item items =>
      rw [write_array] at hfuel ⊢
      obtain ⟨c, cs, hcs, hspace, hc⟩ := (h item List.mem_cons_self).exists_cons layout (level + 1)
      obtain ⟨ds, hds⟩ := skipSpace_joined layout (level + 1) hspace cs
        (items.map (write layout (level + 1))) (layout.newline level ++ ']' :: rest)
      rw [← hcs, ← List.map_cons] at hds
      simp only [List.length_cons, List.length_append] at hfuel
      simp only [List.cons_append, List.append_assoc, List.nil_append]
      rw [readValue?_items hds hc, readItems?_joined ih level rest (by omega)]
      rfl
  | @object fields h ih =>
    refine (Built.object h).readsBack_of_succ fun level fuel rest hfuel _ => ?_
    cases fields with
    | nil =>
      rw [ofFields, List.map_nil, write, readValue?]
      rfl
    | cons field fields =>
      rw [write_object] at hfuel ⊢
      obtain ⟨ds, hds⟩ := skipSpace_joined layout (level + 1) (show isSpace '"' = false by decide)
        (escape field.1 ++ '"' :: layout.colon ++ write layout (level + 1) field.2)
        (fields.map (writeField layout (level + 1))) (layout.newline level ++ '\x7d' :: rest)
      have hmore : skipSpace (joined layout (level + 1)
          ((field :: fields).map (writeField layout (level + 1)))
            ++ (layout.newline level ++ '\x7d' :: rest)) = '"' :: ds := by
        simpa [writeField] using hds
      simp only [List.length_cons, List.length_append] at hfuel
      simp only [List.cons_append, List.append_assoc, List.nil_append]
      rw [readValue?_members hmore (by decide), readMembers?_joined ih level rest (by omega)]
      rfl

/-- The text of a built value, in either layout, is the value's. -/
theorem parse?_render {value : Json} (h : Built value) (layout : Layout) :
    parse? (value.render layout) = some value := by
  have hread := h.readsBack layout 0 (2 * (write layout 0 value).length + 2) [] (by omega) nofun
  rw [List.append_nil] at hread
  simp only [parse?, render, String.toList_ofList, hread, Option.bind_eq_bind, Option.bind_some]
  rfl

/-! ## Parts of built values -/

theorem toNat?_ofNat {bound n : Nat} (h : n < bound) : (ofNat n).toNat? bound = some n := by
  have hdigits : (Nat.toDigits 10 n).all Text.isDigit = true :=
    List.all_eq_true.2 fun _ => isDigit_of_mem_toDigits
  rw [ofNat, toNat?, if_pos hdigits]
  exact Text.natural?_eq_some_iff.2 ⟨h, 0, .inl rfl⟩

theorem lt_of_toNat? {bound n : Nat} {value : Json} (h : value.toNat? bound = some n) :
    n < bound := by
  cases value with
  | number digits =>
    rw [toNat?, Option.ite_none_right_eq_some] at h
    exact (Text.natural?_eq_some_iff.1 h.2).1
  | _ => cases h

/-- What is read from each of the items that are made of some values. -/
theorem mapM_map_eq_some {α β γ : Type} {make : α → β} {read : β → Option γ} {part : α → γ}
    {values : List α} (h : ∀ value ∈ values, read (make value) = some (part value)) :
    (values.map make).mapM read = some (values.map part) := by
  induction values with
  | nil => rfl
  | cons value values ih =>
    rw [List.map_cons, List.mapM_cons, h value List.mem_cons_self,
      ih fun x hx => h x (List.mem_cons_of_mem value hx)]
    rfl

theorem exists_of_mem_mapM {α β : Type} {read : α → Option β} {items : List α} {values : List β}
    (h : items.mapM read = some values) {value : β} (hvalue : value ∈ values) :
    ∃ item ∈ items, read item = some value := by
  induction items generalizing values with
  | nil =>
    cases h
    cases hvalue
  | cons item items ih =>
    simp only [List.mapM_cons, Option.bind_eq_bind, Option.bind_eq_some_iff, Option.pure_def,
      Option.some.injEq] at h
    obtain ⟨first, hfirst, more, hmore, rfl⟩ := h
    rcases List.mem_cons.1 hvalue with rfl | hvalue
    · exact ⟨item, List.mem_cons_self, hfirst⟩
    · obtain ⟨x, hx, hread⟩ := ih hmore hvalue
      exact ⟨x, List.mem_cons_of_mem item hx, hread⟩

/-- A name that no two fields have names one of them. -/
theorem filter_name_eq {fields : List (String × Json)} (h : (fields.map Prod.fst).Nodup)
    {field : String × Json} (hfield : field ∈ fields) :
    fields.filter (·.1 == field.1) = [field] := by
  obtain ⟨before, after, rfl⟩ := List.append_of_mem hfield
  rw [List.map_append, List.map_cons] at h
  obtain ⟨hbefore, hafter⟩ : field.1 ∉ before.map Prod.fst ∧ field.1 ∉ after.map Prod.fst := by
    rw [List.nodup_middle, List.nodup_cons, List.mem_append, not_or] at h
    exact h.1
  have hnone : ∀ {others : List (String × Json)}, field.1 ∉ others.map Prod.fst →
      others.filter (·.1 == field.1) = [] := by
    intro others hothers
    refine List.filter_eq_nil_iff.2 fun x hx heq => ?_
    rw [beq_iff_eq] at heq
    exact hothers (heq ▸ List.mem_map_of_mem hx)
  rw [List.filter_append, List.filter_cons_of_pos (by simp), hnone hbefore, hnone hafter,
    List.nil_append]

/-- The fields that an object was built with are found by their names. -/
theorem fields?_ofFields (fields : List (String × Json)) (h : (fields.map Prod.fst).Nodup) :
    (ofFields fields).fields? (fields.map Prod.fst) = some (fields.map Prod.snd) := by
  rw [ofFields, fields?]
  refine Option.bind_eq_some_iff.2 ⟨fields, ?_, mapM_map_eq_some fun field hfield => ?_⟩
  · refine (mapM_map_eq_some fun field _ => ?_).trans (congrArg some (List.map_id fields))
    simp [unescape?_escape]
  · rw [filter_name_eq h hfield]

end HuffTrace.Json
