/-
  HuffTrace.Proofs.Word.Reading

  Literals that are refused, and words that are written and read back.

  A literal goes wrong at a position of its digits if the character there is no
  digit of the base, or if the number that the digits write through it is no
  word.  The first such position decides the error (`parse_eq_error_iff`).  To
  tell whether a number is a word, no number beyond the words is needed: a
  reader that keeps a word, and looks at its leading zeros or at the overflow
  of a product and a sum, reads the same (`parseWithin_eq`).
-/

import HuffTrace.Proofs.Word.Exact
import HuffTrace.Proofs.Word.Literal
import Mathlib.Data.List.Basic

namespace HuffTrace.Word

/-! ## Parts of a literal -/

/-- The base in which the digits of a text are read. -/
def baseOf (text : String) : Nat :=
  if (hexDigits? text.toList).isSome then 16 else 10

/-- The number of characters before the digits of a text. -/
def markLength (text : String) : Nat :=
  if (hexDigits? text.toList).isSome then 2 else 0

/-- The digits of a text, which follow its mark if there is one. -/
def digitsOf (text : String) : List Char :=
  text.toList.drop (markLength text)

/-- The number of bytes of a text. -/
def byteLength (cs : List Char) : Nat :=
  (String.ofList cs).utf8ByteSize

theorem byteLength_append (cs ds : List Char) :
    byteLength (cs ++ ds) = byteLength cs + byteLength ds := by
  rw [byteLength, String.ofList_append, String.utf8ByteSize_append, byteLength, byteLength]

theorem byteLength_singleton (c : Char) : byteLength [c] = c.utf8Size :=
  String.utf8ByteSize_singleton

theorem eq_append_of_hexDigits? {cs digits : List Char} (h : hexDigits? cs = some digits) :
    cs = ['0', 'x'] ++ digits ∨ cs = ['0', 'X'] ++ digits := by
  simp only [hexDigits?, Text.dropStart?, Option.orElse_eq_orElse] at h
  split at h
  · next hlower =>
    obtain ⟨rest, rfl⟩ := List.isPrefixOf_iff_prefix.1 hlower
    obtain rfl : rest = digits := by simpa using h
    exact .inl rfl
  · split at h
    · next hupper =>
      obtain ⟨rest, rfl⟩ := List.isPrefixOf_iff_prefix.1 hupper
      obtain rfl : rest = digits := by simpa using h
      exact .inr rfl
    · simp at h

/-- The mark consists of characters of one byte. -/
theorem byteLength_take_mark (text : String) (i : Nat) :
    byteLength (text.toList.take (markLength text + i))
      = markLength text + byteLength ((digitsOf text).take i) := by
  have hmark : byteLength (text.toList.take (markLength text)) = markLength text := by
    unfold markLength
    cases hdigits : hexDigits? text.toList with
    | none => rfl
    | some digits =>
      rcases eq_append_of_hexDigits? hdigits with h | h
      all_goals
        rw [h]
        rfl
  rw [List.take_add, byteLength_append, hmark, digitsOf]

/-- The two kinds of literals are read alike, each in its base and behind its mark. -/
theorem parse_eq (text : String) :
    parse text
      = if digitsOf text = [] then .error .empty
        else readDigits (baseOf text) text 0 (markLength text) (digitsOf text) := by
  unfold parse digitsOf baseOf markLength
  cases hdigits : hexDigits? text.toList with
  | none =>
    simp only [Option.isSome_none, Bool.false_eq_true, if_false, List.drop_zero, ofDecimal,
      List.isEmpty_iff]
  | some digits =>
    have hdrop : text.toList.drop 2 = digits := by
      rcases eq_append_of_hexDigits? hdigits with h | h
      all_goals
        rw [h]
        rfl
    simp only [Option.isSome_some, if_true, hdrop, ofHex, hdigits]
    cases digits with
    | nil => rfl
    | cons d ds => rfl

theorem baseOf_pos (text : String) : 0 < baseOf text := by
  unfold baseOf
  split <;> decide

/-! ## Where a literal goes wrong -/

/-- Digits go wrong at a position: the character there is no digit of the base, or the number
    that they write through it is no word. -/
def GoesWrong (base : Nat) (digits : List Char) (i : Nat) : Prop :=
  ∃ c, digits[i]? = some c
    ∧ (Text.digit? base c = none
      ∨ ∃ n, reading? base (digits.take (i + 1)) = some n ∧ bound ≤ n)

/-- Digits go wrong at a position and nowhere before it. -/
def FirstWrong (base : Nat) (digits : List Char) (i : Nat) : Prop :=
  GoesWrong base digits i ∧ ∀ j < i, ¬ GoesWrong base digits j

/-- The errors with which a text is no literal. -/
inductive Refused (text : String) : LiteralError → Prop where
  | empty (nothing : digitsOf text = []) : Refused text .empty
  | invalidDigit {i : Nat} {c : Char} (first : FirstWrong (baseOf text) (digitsOf text) i)
      (here : (digitsOf text)[i]? = some c) (foreign : Text.digit? (baseOf text) c = none) :
      Refused text (.invalidDigit c (byteLength (text.toList.take (markLength text + i))))
  | overflow {i : Nat} {c : Char} (first : FirstWrong (baseOf text) (digitsOf text) i)
      (here : (digitsOf text)[i]? = some c) (digit : Text.digit? (baseOf text) c ≠ none) :
      Refused text (.overflow text)

/-- The number of digits with one more at the end. -/
theorem reading?_concat (base : Nat) (cs : List Char) (c : Char) :
    reading? base (cs ++ [c])
      = (reading? base cs).bind fun n => (Text.digit? base c).map (base * n + ·) := by
  cases hcs : reading? base cs with
  | none =>
    have hmap : cs.mapM (Text.digit? base) = none := Option.map_eq_none_iff.1 hcs
    simp [reading?, List.mapM_append, hmap]
  | some n =>
    cases hc : Text.digit? base c with
    | none => simp [reading?, List.mapM_append, hc]
    | some d => exact reading?_snoc hcs hc

theorem take_succ_eq {digits : List Char} {i : Nat} {c : Char} (h : digits[i]? = some c) :
    digits.take (i + 1) = digits.take i ++ [c] := by
  rw [List.take_add_one, h, Option.toList_some]

/-- Nothing goes wrong before a position exactly if the digits before it write a word. -/
theorem forall_not_goesWrong_iff {base : Nat} (hbase : 0 < base) {digits : List Char} {i : Nat}
    (hi : i ≤ digits.length) :
    (∀ j < i, ¬ GoesWrong base digits j)
      ↔ ∃ n, reading? base (digits.take i) = some n ∧ n < bound := by
  induction i with
  | zero => exact ⟨fun _ => ⟨0, rfl, by decide⟩, fun _ j hj => absurd hj (Nat.not_lt_zero j)⟩
  | succ i ih =>
    have hc : digits[i]? = some digits[i] := List.getElem?_eq_getElem hi
    have htake := take_succ_eq hc
    -- With the positions before settled, all is about one more digit.
    rw [Nat.forall_lt_succ_right, ih (Nat.le_of_lt hi), htake, reading?_concat]
    constructor
    · rintro ⟨⟨n, hn, -⟩, hright⟩
      cases hd : Text.digit? base digits[i] with
      | none => exact absurd ⟨_, hc, .inl hd⟩ hright
      | some d =>
        refine ⟨base * n + d, by rw [hn]; rfl, ?_⟩
        by_contra hlarge
        refine hright ⟨_, hc, .inr ⟨base * n + d, ?_, Nat.le_of_not_lt hlarge⟩⟩
        rw [htake, reading?_concat, hn, hd]
        rfl
    · rintro ⟨n, hn, hbound⟩
      obtain ⟨m, hm, hrest⟩ := Option.bind_eq_some_iff.1 hn
      obtain ⟨d, hd, rfl⟩ := Option.map_eq_some_iff.1 hrest
      have hle : 1 * m ≤ base * m := Nat.mul_le_mul_right m hbase
      refine ⟨⟨m, hm, by omega⟩, ?_⟩
      rintro ⟨c, hc', hwrong⟩
      obtain rfl : digits[i] = c := Option.some.inj (hc.symm.trans hc')
      rcases hwrong with hnone | ⟨k, hk, hlarge⟩
      · rw [hd] at hnone
        cases hnone
      · rw [htake, reading?_concat, hn] at hk
        cases hk
        omega

/-- Digits that write a word are read, and what follows them is left to read. -/
theorem readDigits_eq_drop {base : Nat} (hbase : 0 < base) (text : String) (index : Nat)
    {digits : List Char} {i n : Nat} (hi : i ≤ digits.length)
    (hn : reading? base (digits.take i) = some n) (hbound : n < bound) :
    readDigits base text 0 index digits
      = readDigits base text n (index + byteLength (digits.take i)) (digits.drop i) := by
  induction i generalizing n with
  | zero =>
    obtain rfl : 0 = n := Option.some.inj hn
    rfl
  | succ i ih =>
    have hc : digits[i]? = some digits[i] := List.getElem?_eq_getElem hi
    rw [take_succ_eq hc, reading?_concat] at hn
    obtain ⟨m, hm, hrest⟩ := Option.bind_eq_some_iff.1 hn
    obtain ⟨d, hd, rfl⟩ := Option.map_eq_some_iff.1 hrest
    have hle : 1 * m ≤ base * m := Nat.mul_le_mul_right m hbase
    rw [ih (Nat.le_of_lt hi) hm (by omega), List.drop_eq_getElem_cons hi, readDigits, hd,
      take_succ_eq hc, byteLength_append, byteLength_singleton, Nat.add_assoc]
    simp only [if_pos hbound]

theorem lt_length_of_getElem? {digits : List Char} {i : Nat} {c : Char}
    (h : digits[i]? = some c) : i < digits.length :=
  (List.getElem?_eq_some_iff.1 h).1

/-- What is read at the first position that goes wrong is its error. -/
theorem readDigits_of_firstWrong {base : Nat} (hbase : 0 < base) (text : String) (index : Nat)
    {digits : List Char} {i : Nat} {c : Char} (first : FirstWrong base digits i)
    (here : digits[i]? = some c) :
    readDigits base text 0 index digits
      = .error (if Text.digit? base c = none then
          .invalidDigit c (index + byteLength (digits.take i))
        else .overflow text) := by
  have hi := lt_length_of_getElem? here
  obtain ⟨n, hn, hbound⟩ := (forall_not_goesWrong_iff hbase (Nat.le_of_lt hi)).1 first.2
  obtain rfl : digits[i] = c := Option.some.inj ((List.getElem?_eq_getElem hi).symm.trans here)
  rw [readDigits_eq_drop hbase text index (Nat.le_of_lt hi) hn hbound,
    List.drop_eq_getElem_cons hi, readDigits]
  cases hd : Text.digit? base digits[i] with
  | none => rfl
  | some d =>
    -- The character is a digit, so it is the number through it that is no word.
    obtain ⟨c, hc, hwrong⟩ := first.1
    obtain rfl : digits[i] = c := Option.some.inj (here.symm.trans hc)
    rcases hwrong with hnone | ⟨k, hk, hlarge⟩
    · rw [hd] at hnone
      cases hnone
    · rw [take_succ_eq here, reading?_concat, hn, hd] at hk
      obtain rfl : base * n + d = k := Option.some.inj hk
      simp [Nat.not_lt.2 hlarge]

/-- Digits that go wrong nowhere write a word. -/
theorem readDigits_eq_ok {base : Nat} (hbase : 0 < base) (text : String) (index : Nat)
    {digits : List Char} (h : ∀ i, ¬ GoesWrong base digits i) :
    ∃ w, readDigits base text 0 index digits = .ok w := by
  obtain ⟨n, hn, hbound⟩ :=
    (forall_not_goesWrong_iff hbase (Nat.le_refl digits.length)).1 fun i _ => h i
  rw [readDigits_eq_drop hbase text index (Nat.le_refl _) hn hbound, List.drop_length]
  exact ⟨_, rfl⟩

open Classical in
/-- Digits that go wrong somewhere do so first at some position. -/
theorem exists_firstWrong {base : Nat} {digits : List Char} (h : ∃ i, GoesWrong base digits i) :
    ∃ i c, FirstWrong base digits i ∧ digits[i]? = some c := by
  obtain ⟨c, hc, -⟩ := Nat.find_spec h
  exact ⟨Nat.find h, c, ⟨Nat.find_spec h, fun j hj => Nat.find_min h hj⟩, hc⟩

/-- The error of a refused text is that of the first position that goes wrong. -/
theorem parse_eq_error_iff {text : String} {e : LiteralError} :
    parse text = .error e ↔ Refused text e := by
  rw [parse_eq]
  constructor
  · intro h
    by_cases hempty : digitsOf text = []
    · rw [if_pos hempty] at h
      cases h
      exact .empty hempty
    rw [if_neg hempty] at h
    by_cases hwrong : ∃ i, GoesWrong (baseOf text) (digitsOf text) i
    · obtain ⟨i, c, first, here⟩ := exists_firstWrong hwrong
      rw [readDigits_of_firstWrong (baseOf_pos text) text _ first here,
        ← byteLength_take_mark] at h
      cases h
      split
      · next hnone => exact .invalidDigit first here hnone
      · next hsome => exact .overflow first here hsome
    · obtain ⟨w, hw⟩ := readDigits_eq_ok (baseOf_pos text) text (markLength text)
        (not_exists.1 hwrong)
      rw [hw] at h
      cases h
  · intro h
    cases h with
    | empty nothing => rw [if_pos nothing]
    | @invalidDigit i c first here foreign =>
      rw [if_neg (List.ne_nil_of_length_pos (Nat.zero_lt_of_lt (lt_length_of_getElem? here))),
        readDigits_of_firstWrong (baseOf_pos text) text _ first here, if_pos foreign,
        byteLength_take_mark]
    | @overflow i c first here digit =>
      rw [if_neg (List.ne_nil_of_length_pos (Nat.zero_lt_of_lt (lt_length_of_getElem? here))),
        readDigits_of_firstWrong (baseOf_pos text) text _ first here, if_neg digit]

/-! ## Reading within words -/

/-- The product, unless it wraps. -/
def mul? (a b : Word) : Option Word :=
  if a.umulOverflow b then none else some (a * b)

/-- A word with a hexadecimal digit written after it, unless one of its four leading bits would
    be moved out. -/
def appendHex? (value : Word) (d : Nat) : Option Word :=
  if value.clz.toNat < 4 then none else some (value <<< 4 ||| BitVec.ofNat 256 d)

/-- A word with a decimal digit written after it, unless the product or the sum wraps. -/
def appendDecimal? (value : Word) (d : Nat) : Option Word :=
  (mul? value 10).bind fun tenfold => add? tenfold (BitVec.ofNat 256 d)

/-- Reads digits onto a word, one by one. -/
def readWithin (base : Nat) (append? : Word → Nat → Option Word) (text : String) (value : Word)
    (index : Nat) : List Char → Except LiteralError Word
  | [] => .ok value
  | c :: cs =>
    match Text.digit? base c with
    | none => .error (.invalidDigit c index)
    | some d =>
      match append? value d with
      | none => .error (.overflow text)
      | some next => readWithin base append? text next (index + c.utf8Size) cs

/-- The word that a literal writes, with no number on the way that is not a word. -/
def parseWithin (text : String) : Except LiteralError Word :=
  if digitsOf text = [] then .error .empty
  else
    let append? := if (hexDigits? text.toList).isSome then appendHex? else appendDecimal?
    readWithin (baseOf text) append? text 0 (markLength text) (digitsOf text)

/-- Writing a digit after a word is exact: it gives the number with this digit, and fails only
    where that is no word. -/
def Appends (base : Nat) (append? : Word → Nat → Option Word) : Prop :=
  ∀ (value : Word) (d : Nat), d < base →
    append? value d
      = if base * value.toNat + d < bound then some (BitVec.ofNat 256 (base * value.toNat + d))
        else none

theorem toNat_clz_lt_four_iff (value : Word) : value.clz.toNat < 4 ↔ 2 ^ 252 ≤ value.toNat := by
  constructor
  · intro h
    have hlt : value.clz < ((256 : Nat) : Word) := by
      rw [BitVec.lt_def]
      exact Nat.lt_trans h (by decide)
    have hne : value ≠ 0 := BitVec.clz_lt_iff_ne_zero.1 hlt
    calc 2 ^ 252
        ≤ 2 ^ (256 - 1 - value.clz.toNat) := Nat.pow_le_pow_right (by decide) (by omega)
      _ ≤ value.toNat := BitVec.two_pow_sub_clz_le_toNat_of_ne_zero (by decide) hne
  · intro h
    by_contra hmany
    have hsmall : value.toNat < 2 ^ 252 :=
      calc value.toNat
          < 2 ^ (256 - value.clz.toNat) := BitVec.toNat_lt_two_pow_sub_clz
        _ ≤ 2 ^ 252 := Nat.pow_le_pow_right (by decide) (by omega)
    omega

theorem appends_appendHex? : Appends 16 appendHex? := by
  intro value d hd
  have hbound : bound = 16 * 2 ^ 252 := by decide
  simp only [appendHex?, toNat_clz_lt_four_iff]
  by_cases hfits : 2 ^ 252 ≤ value.toNat
  · rw [if_pos hfits, if_neg (by omega)]
  · rw [if_neg hfits, if_pos (by omega), Option.some.injEq]
    apply BitVec.eq_of_toNat_eq
    -- Nothing is moved out, and the digit meets only the zeros moved in.
    have hshift : value.toNat <<< 4 < 2 ^ 256 := by
      rw [Nat.shiftLeft_eq]
      omega
    rw [BitVec.toNat_or, BitVec.toNat_shiftLeft, BitVec.toNat_ofNat, BitVec.toNat_ofNat,
      Nat.mod_eq_of_lt hshift, Nat.mod_eq_of_lt (by omega), Nat.mod_eq_of_lt (by omega),
      ← Nat.shiftLeft_add_eq_or_of_lt (by omega), Nat.shiftLeft_eq]
    omega

theorem appends_appendDecimal? : Appends 10 appendDecimal? := by
  intro value d hd
  have hbound : bound = 2 ^ 256 := by decide
  have hten : (10 : Word).toNat = 10 := rfl
  have hdigit : (BitVec.ofNat 256 d).toNat = d := by
    rw [BitVec.toNat_ofNat, Nat.mod_eq_of_lt (by omega)]
  rw [appendDecimal?, mul?, BitVec.umulOverflow, hten]
  by_cases hproduct : value.toNat * 10 < 2 ^ 256
  · have htenfold : (value * 10).toNat = 10 * value.toNat := by
      rw [BitVec.toNat_mul, hten, Nat.mod_eq_of_lt hproduct, Nat.mul_comm]
    rw [if_neg (by simpa using hproduct), Option.bind_some]
    by_cases hsum : 10 * value.toNat + d < bound
    · have hfits : (value * 10).toNat + (BitVec.ofNat 256 d).toNat < 2 ^ 256 := by omega
      rw [if_pos hsum, add?_of_lt hfits, Option.some.injEq]
      apply BitVec.eq_of_toNat_eq
      rw [BitVec.toNat_add, htenfold, hdigit, BitVec.toNat_ofNat]
    · rw [if_neg hsum, add?, if_pos]
      simp only [BitVec.uaddOverflow, htenfold, hdigit, decide_eq_true_eq]
      omega
  · rw [if_pos (by simpa using hproduct), if_neg (by omega)]
    rfl

/-- Where digits are appended exactly, a word is all that has to be kept while reading. -/
theorem readWithin_eq {base : Nat} {append? : Word → Nat → Option Word}
    (h : Appends base append?) (text : String) (value : Word) (index : Nat) (cs : List Char) :
    readWithin base append? text value index cs
      = readDigits base text value.toNat index cs := by
  induction cs generalizing value index with
  | nil => rw [readWithin, readDigits, BitVec.ofNat_toNat, BitVec.setWidth_eq]
  | cons c cs ih =>
    rw [readWithin, readDigits]
    cases hd : Text.digit? base c with
    | none => rfl
    | some d =>
      simp only [h value d (Text.lt_of_digit? hd)]
      by_cases hfits : base * value.toNat + d < bound
      · have hnext :
            (BitVec.ofNat 256 (base * value.toNat + d)).toNat = base * value.toNat + d := by
          rw [BitVec.toNat_ofNat]
          exact Nat.mod_eq_of_lt hfits
        simp only [if_pos hfits, ih, hnext]
      · simp only [if_neg hfits]

theorem parseWithin_eq (text : String) : parseWithin text = parse text := by
  have happends : Appends (baseOf text)
      (if (hexDigits? text.toList).isSome then appendHex? else appendDecimal?) := by
    unfold baseOf
    split
    · exact appends_appendHex?
    · exact appends_appendDecimal?
  rw [parse_eq, parseWithin]
  simp only [readWithin_eq happends]
  rfl

/-! ## Writing and reading back -/

theorem hexDigits?_toHex (w : Word) :
    hexDigits? w.toHex.toList = some (Nat.toDigits 16 w.toNat) := by
  rw [toHex, String.toList_ofList]
  rfl

theorem ofHex_toHex (w : Word) : ofHex w.toHex = .ok w := by
  have hmarked : (hexDigits? w.toHex.toList).isSome = true := by rw [hexDigits?_toHex]; rfl
  rw [← parse_toHex w, parse, if_pos hmarked]

theorem ofDecimal_toDecimal (w : Word) : ofDecimal w.toDecimal = .ok w := by
  have hvalue : digitsValue? 10 (Nat.toDigits 10 w.toNat) = some w.toNat := by
    rw [digitsValue?_eq_reading? Nat.toDigits_ne_nil, reading?_toDigits (by decide) (by decide)]
  have hread := (readDigits_of_digitsValue? (by decide) w.toDecimal 0 hvalue w.isLt).2
  have hlist : w.toDecimal.toList = Nat.toDigits 10 w.toNat := by
    rw [toDecimal, Text.decimal, String.toList_ofList]
  rw [ofDecimal, hlist, if_neg (by simp), hread, BitVec.ofNat_toNat,
    BitVec.setWidth_eq]

/-- The first bytes of a word write its high end. -/
theorem foldl_take_toBytes (w : Word) {k : Nat} (hk : k ≤ byteCount) :
    ((List.range k).map fun i =>
      UInt8.ofNat (w.toNat >>> (8 * (byteCount - 1 - i)))).foldl
        (fun value b => 256 * value + b.toNat) 0
      = w.toNat >>> (8 * (byteCount - k)) := by
  induction k with
  | zero =>
    have hnone : w.toNat >>> (8 * (byteCount - 0)) = 0 := by
      rw [Nat.shiftRight_eq_div_pow]
      exact Nat.div_eq_of_lt w.isLt
    rw [hnone]
    rfl
  | succ k ih =>
    -- One byte more is written, and eight bits less are shifted out.
    have hshift : 8 * (byteCount - k) = 8 * (byteCount - 1 - k) + 8 := by omega
    have hlast : byteCount - (k + 1) = byteCount - 1 - k := by omega
    rw [List.range_succ, List.map_append, List.foldl_append, ih (by omega), hshift, hlast,
      Nat.shiftRight_add]
    simp only [List.map_cons, List.map_nil, List.foldl_cons, List.foldl_nil,
      UInt8.toNat_ofNat', Nat.shiftRight_eq_div_pow _ 8]
    omega

theorem ofBytes?_toBytes (w : Word) : ofBytes? w.toBytes = .ok w := by
  have hlength : w.toBytes.length = byteCount := by
    rw [toBytes, List.length_map, List.length_range]
  rw [ofBytes?, if_pos hlength, ofBytes, toBytes, foldl_take_toBytes w (Nat.le_refl _),
    Nat.sub_self, Nat.mul_zero, Nat.shiftRight_zero, BitVec.ofNat_toNat, BitVec.setWidth_eq]

/-- Literals and words determine each other.  A text is read as the word of the number that it
    writes, or else refused for the first position at which it goes wrong, and to find out which
    it is no number is needed that is not a word.  Each word is read back from its hexadecimal
    form, its decimal form and its bytes, and of the hexadecimal forms only that of zero starts
    with a zero. -/
theorem literal_exact :
    (∀ text w, parse text = .ok w ↔ numeral? text = some w.toNat)
    ∧ (∀ text e, parse text = .error e ↔ Refused text e)
    ∧ (∀ text, parseWithin text = parse text)
    ∧ ∀ w : Word, ofHex w.toHex = .ok w ∧ ofDecimal w.toDecimal = .ok w
      ∧ ofBytes? w.toBytes = .ok w
      ∧ toHex 0 = "0x0"
      ∧ ∃ digits, w.toHex = .ofList ('0' :: 'x' :: digits) ∧ digits ≠ []
        ∧ (digits.head? = some '0' ↔ w = 0) := by
  refine ⟨fun _ _ => parse_eq_ok_iff, fun _ _ => parse_eq_error_iff, parseWithin_eq, ?_⟩
  intro w
  refine ⟨ofHex_toHex w, ofDecimal_toDecimal w, ofBytes?_toBytes w, by decide,
    Nat.toDigits 16 w.toNat, rfl, Nat.toDigits_ne_nil, ?_⟩
  constructor
  · intro hhead
    exact BitVec.eq_of_toNat_eq (Text.eq_zero_of_head?_toDigits (by decide) hhead)
  · rintro rfl
    decide

end HuffTrace.Word
