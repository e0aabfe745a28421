/-
  HuffTrace.Proofs.Opcode.Mnemonic

  The texts that are read as opcodes.  An opcode is read from the name that it
  is shown under and from its alias, if it has one.  The number of a numbered
  opcode goes through the reader of natural numbers, which allows a plus sign,
  and zeros after that: these texts are read too, and no others
  (`ofMnemonic?_exact`).
-/

import HuffTrace.Opcode.Mnemonic
import HuffTrace.Proofs.Text.Decimal
import HuffTrace.Proofs.Text.Search

namespace HuffTrace.Opcode

/-! ## Numbered families -/

/-- A family of opcodes that are numbered from `first` on. -/
structure Family where
  stem : String
  first : Nat
  count : Nat
  member : Fin count → Opcode

/-- The numbered families: `push1` to `push32`, `dup1` to `dup16`, `swap1` to `swap16` and
    `log0` to `log4`. -/
def families : List Family :=
  [⟨"push", 1, 32, push⟩, ⟨"dup", 1, 16, dup⟩, ⟨"swap", 1, 16, swap⟩, ⟨"log", 0, 5, log⟩]

/-- The member of a family that a text writes. -/
def Family.read? (f : Family) (text : String) : Option Opcode :=
  (numbered? f.stem f.first f.count text).map f.member

/-- A text is looked up among the names without a number first, then in one family after the
    other. -/
theorem ofMnemonic?_eq (text : String) :
    ofMnemonic? text = (named.lookup text <|> families.findSome? (·.read? text)) := by
  simp only [ofMnemonic?, families, List.findSome?_cons, List.findSome?_nil, Family.read?]
  cases named.lookup text <;> cases numbered? "push" 1 32 text <;> cases numbered? "dup" 1 16 text
    <;> cases numbered? "swap" 1 16 text <;> cases numbered? "log" 0 5 text <;> rfl

/-! ## Names -/

/-- A text is a name of an opcode: the one it is shown under, or an alias. -/
def Names (o : Opcode) (text : String) : Prop :=
  text = o.mnemonic ∨ text = "keccak256" ∧ o = sha3 ∨ text = "difficulty" ∧ o = prevrandao

instance (o : Opcode) (text : String) : Decidable (o.Names text) :=
  inferInstanceAs (Decidable (_ ∨ _))

/-- A text is the stem of a numbered opcode and its number with a plus sign, after which zeros
    may stand. -/
def SignedName (o : Opcode) (text : String) : Prop :=
  ∃ f ∈ families, ∃ i zeros, o = f.member i
    ∧ text = f.stem ++ "+" ++ .ofList (List.replicate zeros '0') ++ Text.decimal (f.first + i)

theorem mnemonic_member {f : Family} (hf : f ∈ families) (i : Fin f.count) :
    (f.member i).mnemonic = f.stem ++ Text.decimal (f.first + i) := by
  simp only [families, List.mem_cons, List.not_mem_nil, or_false] at hf
  rcases hf with rfl | rfl | rfl | rfl
  · exact congrArg ("push" ++ Text.decimal ·) (Nat.add_comm _ 1)
  · exact congrArg ("dup" ++ Text.decimal ·) (Nat.add_comm _ 1)
  · exact congrArg ("swap" ++ Text.decimal ·) (Nat.add_comm _ 1)
  · exact congrArg ("log" ++ Text.decimal ·) (Nat.zero_add _).symm

/-! ## Names without a number -/

theorem lookup_of_mem : ∀ entry ∈ named, named.lookup entry.1 = some entry.2 := by
  decide +kernel

theorem names_of_mem : ∀ entry ∈ named, entry.2.Names entry.1 := by
  decide +kernel

theorem plus_not_mem_of_mem : ∀ entry ∈ named, '+' ∉ entry.1.toList := by
  decide +kernel

/-- No name without a number belongs to a family, although `push0` starts as one. -/
theorem read?_of_mem : ∀ f ∈ families, ∀ entry ∈ named, f.read? entry.1 = none := by
  decide +kernel

theorem mem_of_lookup {text : String} {o : Opcode} (h : named.lookup text = some o) :
    (text, o) ∈ named := by
  obtain ⟨before, after, hsplit, -⟩ := List.lookup_eq_some_iff.1 h
  rw [hsplit]
  simp

/-- An opcode belongs to a family, or is shown under its first name in the table. -/
theorem member_or_first (o : Opcode) :
    (∃ f ∈ families, ∃ i, o = f.member i)
      ∨ o ∈ named.map (·.2)
        ∧ o.mnemonic = ((named.find? (·.2 == o)).map (·.1)).getD "unknown" := by
  cases o with
  | push i => exact .inl ⟨⟨"push", 1, 32, push⟩, by simp [families], i, rfl⟩
  | dup i => exact .inl ⟨⟨"dup", 1, 16, dup⟩, by simp [families], i, rfl⟩
  | swap i => exact .inl ⟨⟨"swap", 1, 16, swap⟩, by simp [families], i, rfl⟩
  | log i => exact .inl ⟨⟨"log", 0, 5, log⟩, by simp [families], i, rfl⟩
  | _ => exact .inr ⟨by decide, rfl⟩

theorem member_or_named (o : Opcode) :
    (∃ f ∈ families, ∃ i, o = f.member i) ∨ (o.mnemonic, o) ∈ named := by
  refine (member_or_first o).imp id fun ⟨hmem, hshown⟩ => ?_
  obtain ⟨entry, hentry, rfl⟩ := List.mem_map.1 hmem
  -- The search does not come back empty, so its answer is an entry for the opcode.
  cases hfind : named.find? (·.2 == entry.2) with
  | none => exact absurd (List.find?_eq_none.1 hfind entry hentry) (by simp)
  | some found =>
    obtain ⟨text, o⟩ := found
    obtain rfl : o = entry.2 := by simpa using List.find?_some hfind
    rw [hshown, hfind]
    exact List.mem_of_find?_eq_some hfind

/-! ## Numbers -/

/-- The check for leading zeros leaves the decimal form alone, and nothing with a zero before it. -/
theorem leadingZero_iff (zeros n : Nat) :
    ((List.replicate zeros '0' ++ Nat.toDigits 10 n).head? = some '0'
        ∧ (List.replicate zeros '0' ++ Nat.toDigits 10 n).length ≠ 1)
      ↔ zeros ≠ 0 := by
  have hdigits : 0 < (Nat.toDigits 10 n).length := Nat.length_toDigits_pos
  cases zeros with
  | zero =>
    refine iff_of_false ?_ (by simp)
    rintro ⟨hhead, hlength⟩
    rw [List.replicate_zero, List.nil_append] at hhead hlength
    -- Only zero starts with a zero, and it has no digit after that.
    rw [Text.eq_zero_of_head?_toDigits (by decide) hhead, Nat.toDigits_zero] at hlength
    exact hlength rfl
  | succ zeros =>
    refine iff_of_true ⟨rfl, ?_⟩ (by simp)
    rw [List.length_append, List.length_replicate]
    omega

/-- A number is read after a stem exactly if it is written in decimal, or in decimal after a
    plus sign and zeros. -/
theorem numbered?_eq_some_iff {stem : String} {first count : Nat} (hcount : first + count ≤ 256)
    {text : String} {i : Fin count} :
    numbered? stem first count text = some i
      ↔ text = stem ++ Text.decimal (first + i)
        ∨ ∃ zeros, text
          = stem ++ "+" ++ .ofList (List.replicate zeros '0') ++ Text.decimal (first + i) := by
  have hplus : "+".toList = ['+'] := by decide
  have hi := i.isLt
  simp only [numbered?, Option.bind_eq_bind, Option.bind_eq_some_iff, Text.dropStart?_eq_some_iff,
    ← String.toList_inj, String.toList_append, Text.decimal, String.toList_ofList, hplus]
  constructor
  · rintro ⟨digits, htext, hread⟩
    split at hread
    · simp at hread
    · next hplain =>
      obtain ⟨n, hn, hmember⟩ := Option.bind_eq_some_iff.1 hread
      obtain ⟨-, zeros, hdigits⟩ := Text.natural?_eq_some_iff.1 hn
      obtain rfl : first + i = n := by
        simp only [Option.dite_none_right_eq_some, Option.some.injEq] at hmember
        obtain ⟨hrange, rfl⟩ := hmember
        exact Nat.add_sub_cancel' hrange.1
      rcases hdigits with rfl | rfl
      · -- Zeros in front are refused, unless a plus sign stands before them.
        rw [leadingZero_iff, not_not] at hplain
        subst hplain
        exact .inl htext
      · exact .inr ⟨zeros, by simpa using htext⟩
  · intro htext
    have hmember : (if h : first ≤ first + i ∧ first + i - first < count
        then some (⟨first + i - first, h.2⟩ : Fin count) else none) = some i := by
      rw [dif_pos (by omega)]
      exact congrArg some (Fin.ext (Nat.add_sub_cancel_left _ _))
    rcases htext with htext | ⟨zeros, htext⟩
    · refine ⟨_, htext, ?_⟩
      have hplain := (leadingZero_iff 0 (first + i)).not.2 (by simp)
      rw [List.replicate_zero, List.nil_append] at hplain
      have hn : Text.natural? 256 (Nat.toDigits 10 (first + i)) = some (first + i) :=
        Text.natural?_eq_some_iff.2 ⟨by omega, 0, .inl rfl⟩
      rw [if_neg hplain, hn, Option.bind_some, hmember]
    · refine ⟨'+' :: (List.replicate zeros '0' ++ Nat.toDigits 10 (first + i)),
        by simpa using htext,
        ?_⟩
      have hn : Text.natural? 256 ('+' :: (List.replicate zeros '0' ++ Nat.toDigits 10 (first + i)))
          = some (first + i) := Text.natural?_eq_some_iff.2 ⟨by omega, zeros, .inr rfl⟩
      rw [if_neg (by simp), hn, Option.bind_some, hmember]

/-! ## Families -/

theorem read?_eq_some_iff {f : Family} (hf : f ∈ families) {text : String} {o : Opcode} :
    f.read? text = some o
      ↔ ∃ i, o = f.member i ∧ (text = o.mnemonic
        ∨ ∃ zeros, text = f.stem ++ "+" ++ .ofList (List.replicate zeros '0')
          ++ Text.decimal (f.first + i)) := by
  have hcount : ∀ f ∈ families, f.first + f.count ≤ 256 := by decide
  simp only [Family.read?, Option.map_eq_some_iff, numbered?_eq_some_iff (hcount f hf)]
  constructor
  · rintro ⟨i, htext, rfl⟩
    exact ⟨i, rfl, by rwa [mnemonic_member hf]⟩
  · rintro ⟨i, rfl, htext⟩
    exact ⟨i, by rwa [mnemonic_member hf] at htext, rfl⟩

/-- What a family reads starts as its stem. -/
theorem head?_of_read? {f : Family} (hf : f ∈ families) {text : String} {o : Opcode}
    (h : f.read? text = some o) : text.toList.head? = f.stem.toList.head? := by
  have hstem : ∀ f ∈ families, f.stem.toList ≠ [] := by decide
  obtain ⟨i, hread, -⟩ := Option.map_eq_some_iff.1 h
  obtain ⟨digits, hdigits, -⟩ := Option.bind_eq_some_iff.1 hread
  rw [Text.dropStart?_eq_some_iff.1 hdigits, List.head?_append_of_ne_nil _ (hstem f hf)]

/-- The stems differ in their first letters, so at most one family reads a text. -/
theorem read?_eq_none_of_read? {f g : Family} (hf : f ∈ families) (hg : g ∈ families)
    {text : String} {o : Opcode} (h : f.read? text = some o)
    (hne : f.stem.toList.head? ≠ g.stem.toList.head?) : g.read? text = none := by
  cases hread : g.read? text with
  | none => rfl
  | some other => exact absurd ((head?_of_read? hf h).symm.trans (head?_of_read? hg hread)) hne

theorem findSome?_families_eq_some_iff {text : String} {o : Opcode} :
    families.findSome? (·.read? text) = some o ↔ ∃ f ∈ families, f.read? text = some o := by
  constructor
  · exact List.exists_of_findSome?_eq_some
  · rintro ⟨f, hf, hread⟩
    obtain ⟨before, after, hsplit⟩ := List.append_of_mem hf
    have hapart : families.Pairwise fun f g => f.stem.toList.head? ≠ g.stem.toList.head? := by
      decide
    refine List.findSome?_eq_some_iff.2 ⟨before, f, after, hsplit, hread, fun g hg => ?_⟩
    rw [hsplit, List.pairwise_append] at hapart
    have hne := hapart.2.2 g hg f (by simp)
    exact read?_eq_none_of_read? hf (by rw [hsplit]; simp [hg]) hread hne.symm

/-! ## Texts of opcodes -/

/-- The table and the families share no texts, so the order in which they are searched does not
    matter. -/
theorem ofMnemonic?_eq_some_iff {text : String} {o : Opcode} :
    ofMnemonic? text = some o ↔ (text, o) ∈ named ∨ ∃ f ∈ families, f.read? text = some o := by
  rw [ofMnemonic?_eq, Option.orElse_eq_orElse, Option.orElse_eq_or, Option.or_eq_some_iff,
    findSome?_families_eq_some_iff]
  constructor
  · exact Or.imp mem_of_lookup And.right
  · rintro (hmem | ⟨f, hf, hread⟩)
    · exact .inl (lookup_of_mem _ hmem)
    · refine .inr ⟨?_, f, hf, hread⟩
      cases hlookup : named.lookup text with
      | none => rfl
      | some other =>
        rw [read?_of_mem f hf _ (mem_of_lookup hlookup)] at hread
        cases hread

/-- Every opcode is read from its names. -/
theorem ofMnemonic?_of_names {o : Opcode} {text : String} (h : o.Names text) :
    ofMnemonic? text = some o := by
  rw [ofMnemonic?_eq_some_iff]
  rcases h with rfl | ⟨rfl, rfl⟩ | ⟨rfl, rfl⟩
  · rcases member_or_named o with ⟨f, hf, i, rfl⟩ | hmem
    · exact .inr ⟨f, hf, (read?_eq_some_iff hf).2 ⟨i, rfl, .inl rfl⟩⟩
    · exact .inl hmem
  · exact .inl (by simp [named])
  · exact .inl (by simp [named])

theorem plus_not_mem_of_names {o : Opcode} {text : String} (h : o.Names text) :
    '+' ∉ text.toList := by
  have hstem : ∀ f ∈ families, '+' ∉ f.stem.toList := by decide
  rcases h with rfl | ⟨rfl, rfl⟩ | ⟨rfl, rfl⟩
  · rcases member_or_named o with ⟨f, hf, i, rfl⟩ | hmem
    · rw [mnemonic_member hf, String.toList_append, Text.decimal, String.toList_ofList,
        List.mem_append, not_or]
      refine ⟨hstem f hf, fun hdigit => ?_⟩
      exact absurd (Nat.isDigit_of_mem_toDigits (by decide) (by decide) hdigit) (by decide)
    · exact plus_not_mem_of_mem _ hmem
  · decide
  · decide

theorem plus_mem_of_signedName {o : Opcode} {text : String} (h : o.SignedName text) :
    '+' ∈ text.toList := by
  obtain ⟨f, -, i, zeros, -, rfl⟩ := h
  simp

/-- A text is read as an opcode exactly if it is one of its names, or its name with a plus sign
    and perhaps zeros before the number.  So only the names are read but for the texts with a
    sign. -/
theorem ofMnemonic?_exact (text : String) (o : Opcode) :
    (ofMnemonic? text = some o ↔ o.Names text ∨ o.SignedName text)
    ∧ ((ofMnemonic? text = some o ↔ o.Names text) ↔ ¬ o.SignedName text) := by
  have hiff : ofMnemonic? text = some o ↔ o.Names text ∨ o.SignedName text := by
    constructor
    · intro h
      rcases ofMnemonic?_eq_some_iff.1 h with hmem | ⟨f, hf, hread⟩
      · exact .inl (names_of_mem _ hmem)
      · obtain ⟨i, rfl, hshown | ⟨zeros, hsigned⟩⟩ := (read?_eq_some_iff hf).1 hread
        · exact .inl (.inl hshown)
        · exact .inr ⟨f, hf, i, zeros, rfl, hsigned⟩
    · rintro (hnames | ⟨f, hf, i, zeros, rfl, hsigned⟩)
      · exact ofMnemonic?_of_names hnames
      · exact ofMnemonic?_eq_some_iff.2
          (.inr ⟨f, hf, (read?_eq_some_iff hf).2 ⟨i, rfl, .inr ⟨zeros, hsigned⟩⟩⟩)
  refine ⟨hiff, ?_⟩
  rw [hiff, or_iff_left_iff_imp]
  constructor
  · intro himp hsigned
    exact plus_not_mem_of_names (himp hsigned) (plus_mem_of_signedName hsigned)
  · intro hnot hsigned
    exact absurd hsigned hnot

/-- A number with a sign is no name, and yet it is read. -/
theorem ofMnemonic?_reads_sign :
    ¬ (ofMnemonic? "push+1" = some (push 0) ↔ Names (push 0) "push+1") := by
  decide +kernel

end HuffTrace.Opcode
