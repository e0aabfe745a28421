/-
  HuffTrace.Proofs.Evm.Folding

  An opcode that folds known operands computes the function of the concrete
  machine: `run_of_unary?`, `run_of_binary?` and `run_of_ternary?` read each of
  the folding opcodes as one of three shapes with the concrete function in it,
  and the two lemmas on bytes do the same for words in memory.
-/

import HuffTrace.Proofs.Evm.Machine
import HuffTrace.Proofs.Word.Arithmetic

namespace HuffTrace.Evm

/-! ## Bytes of a word -/

theorem bytesOf_eq (w : Word) : bytesOf w = w.toBytes := by
  rw [bytesOf, Word.toBytes]
  apply List.map_congr_left
  intro i _
  have hpow : 256 ^ (31 - i) = 2 ^ (8 * (Word.byteCount - 1 - i)) := by
    rw [pow_mul]
    rfl
  rw [hpow, Nat.shiftRight_eq_div_pow]

theorem foldl_eq_ofDigits (bytes : List UInt8) (value : Nat) :
    bytes.foldl (fun value b => 256 * value + b.toNat) value
      = 256 ^ bytes.length * value + Nat.ofDigits 256 (bytes.reverse.map UInt8.toNat) := by
  induction bytes generalizing value with
  | nil => simp
  | cons b bytes ih =>
    rw [List.foldl_cons, ih, List.reverse_cons, List.map_append, Nat.ofDigits_append,
      List.length_map, List.length_reverse, List.length_cons]
    simp only [List.map_cons, List.map_nil, Nat.ofDigits_singleton]
    ring

theorem wordOf_eq (bytes : List UInt8) : wordOf bytes = Word.ofBytes bytes := by
  rw [wordOf, Word.ofBytes, foldl_eq_ofDigits]
  simp

/-! ## Comparisons -/

theorem ofBool_eq_flag {b : Bool} {p : Prop} [Decidable p] (h : b = true ↔ p) :
    Word.ofBool b = flag p := by
  rw [Word.ofBool, flag]
  by_cases hp : p
  · rw [if_pos hp, if_pos (h.2 hp)]
  · rw [if_neg hp, if_neg (fun hb => hp (h.1 hb))]

theorem lt_eq_flag (a b : Word) : Word.lt a b = flag (a.toNat < b.toNat) :=
  ofBool_eq_flag (by rw [BitVec.ult, decide_eq_true_eq])

theorem gt_eq_flag (a b : Word) : Word.gt a b = flag (b.toNat < a.toNat) :=
  ofBool_eq_flag (by rw [BitVec.ult, decide_eq_true_eq])

theorem slt_eq_flag (a b : Word) : Word.slt a b = flag (a.toInt < b.toInt) :=
  ofBool_eq_flag (by rw [BitVec.slt, decide_eq_true_eq])

theorem sgt_eq_flag (a b : Word) : Word.sgt a b = flag (b.toInt < a.toInt) :=
  ofBool_eq_flag (by rw [BitVec.slt, decide_eq_true_eq])

theorem eq_eq_flag (a b : Word) : Word.eq a b = flag (a.toNat = b.toNat) :=
  ofBool_eq_flag (by rw [beq_iff_eq, BitVec.toNat_inj])

theorem iszero_eq_flag (a : Word) : Word.iszero a = flag (a.toNat = 0) :=
  ofBool_eq_flag (by rw [beq_iff_eq, ← BitVec.toNat_inj]; rfl)

/-! ## Arithmetic -/

theorem not_eq_ofNat (a : Word) : ~~~a = BitVec.ofNat 256 (2 ^ 256 - 1 - a.toNat) := by
  apply BitVec.eq_of_toNat_eq
  rw [BitVec.toNat_not, BitVec.toNat_ofNat, Nat.mod_eq_of_lt (by omega)]

theorem add_eq_ofNat (a b : Word) : a + b = BitVec.ofNat 256 (a.toNat + b.toNat) := by
  apply BitVec.eq_of_toNat_eq
  rw [BitVec.toNat_add, BitVec.toNat_ofNat]

theorem mul_eq_ofNat (a b : Word) : a * b = BitVec.ofNat 256 (a.toNat * b.toNat) := by
  apply BitVec.eq_of_toNat_eq
  rw [BitVec.toNat_mul, BitVec.toNat_ofNat]

theorem sub_eq_ofInt (a b : Word) : a - b = BitVec.ofInt 256 ((a.toNat : Int) - b.toNat) := by
  apply BitVec.eq_of_toInt_eq
  rw [BitVec.toInt_sub, BitVec.toInt_ofInt, BitVec.toInt_eq_toNat_bmod,
    BitVec.toInt_eq_toNat_bmod]
  simp

theorem exp_eq_ofNat (a e : Word) : Word.exp a e = BitVec.ofNat 256 (a.toNat ^ e.toNat) := by
  apply BitVec.eq_of_toNat_eq
  rw [Word.toNat_exp, BitVec.toNat_ofNat]

theorem and_eq_ofNat (a b : Word) : a &&& b = BitVec.ofNat 256 (a.toNat &&& b.toNat) := by
  rw [← BitVec.toNat_and, BitVec.ofNat_toNat, BitVec.setWidth_eq]

theorem or_eq_ofNat (a b : Word) : a ||| b = BitVec.ofNat 256 (a.toNat ||| b.toNat) := by
  rw [← BitVec.toNat_or, BitVec.ofNat_toNat, BitVec.setWidth_eq]

theorem xor_eq_ofNat (a b : Word) : a ^^^ b = BitVec.ofNat 256 (a.toNat ^^^ b.toNat) := by
  rw [← BitVec.toNat_xor, BitVec.ofNat_toNat, BitVec.setWidth_eq]

theorem addmod_eq_ofNat (a b n : Word) :
    Word.addmod a b n
      = if n = 0 then 0 else BitVec.ofNat 256 ((a.toNat + b.toNat) % n.toNat) := by
  split
  · next h => rw [Word.addmod, if_pos h]
  · next h => rw [← Word.toNat_addmod a b h, BitVec.ofNat_toNat, BitVec.setWidth_eq]

theorem mulmod_eq_ofNat (a b n : Word) :
    Word.mulmod a b n
      = if n = 0 then 0 else BitVec.ofNat 256 (a.toNat * b.toNat % n.toNat) := by
  split
  · next h => rw [Word.mulmod, if_pos h]
  · next h => rw [← Word.toNat_mulmod a b h, BitVec.ofNat_toNat, BitVec.setWidth_eq]

/-! ## Folding opcodes -/

theorem unary_congr {f g : Word → Word} (h : ∀ a, f a = g a) (render : String → String) :
    Workspace.unary f render = Workspace.unary g render := by
  rw [funext h]

theorem binary_congr {f g : Word → Word → Word} (h : ∀ a b, f a b = g a b)
    (render : String → String → String) :
    Workspace.binary f render = Workspace.binary g render := by
  rw [funext₂ h]

theorem ternary_congr {f g : Word → Word → Word → Word} (h : ∀ a b c, f a b c = g a b c)
    (render : String → String → String → String) :
    Workspace.ternary f render = Workspace.ternary g render := by
  rw [funext₃ h]

theorem run_of_unary? {op : Opcode} {f : Word → Word} (h : unary? op = some f) (limit : Nat) :
    ∃ render, op.run limit = Workspace.unary f render := by
  unfold unary? at h
  split at h <;> cases h <;> rw [Opcode.run]
  · exact ⟨_, unary_congr iszero_eq_flag _⟩
  · exact ⟨_, unary_congr not_eq_ofNat _⟩

theorem run_of_binary? {op : Opcode} {f : Word → Word → Word} (h : binary? op = some f)
    (limit : Nat) : ∃ render, op.run limit = Workspace.binary f render := by
  unfold binary? at h
  split at h <;> cases h <;> rw [Opcode.run]
  · exact ⟨_, binary_congr add_eq_ofNat _⟩
  · exact ⟨_, binary_congr mul_eq_ofNat _⟩
  · exact ⟨_, binary_congr sub_eq_ofInt _⟩
  · exact ⟨_, binary_congr Word.div_eq_ofNat _⟩
  · exact ⟨_, binary_congr Word.sdiv_eq_ofInt _⟩
  · exact ⟨_, binary_congr Word.mod_eq_ofNat _⟩
  · exact ⟨_, binary_congr Word.smod_eq_ofInt _⟩
  · exact ⟨_, binary_congr exp_eq_ofNat _⟩
  · exact ⟨_, binary_congr (fun k x => Word.signextend_eq_ofInt x k) _⟩
  · exact ⟨_, binary_congr lt_eq_flag _⟩
  · exact ⟨_, binary_congr gt_eq_flag _⟩
  · exact ⟨_, binary_congr slt_eq_flag _⟩
  · exact ⟨_, binary_congr sgt_eq_flag _⟩
  · exact ⟨_, binary_congr eq_eq_flag _⟩
  · exact ⟨_, binary_congr and_eq_ofNat _⟩
  · exact ⟨_, binary_congr or_eq_ofNat _⟩
  · exact ⟨_, binary_congr xor_eq_ofNat _⟩
  · exact ⟨_, binary_congr (fun i x => Word.byte_eq_ofNat x i) _⟩
  · exact ⟨_, binary_congr (fun s x => Word.shl_eq_ofNat x s) _⟩
  · exact ⟨_, binary_congr (fun s x => Word.shr_eq_ofNat x s) _⟩
  · exact ⟨_, binary_congr (fun s x => Word.sar_eq_ofInt x s) _⟩

theorem run_of_ternary? {op : Opcode} {f : Word → Word → Word → Word} (h : ternary? op = some f)
    (limit : Nat) : ∃ render, op.run limit = Workspace.ternary f render := by
  unfold ternary? at h
  split at h <;> cases h <;> rw [Opcode.run]
  · exact ⟨_, ternary_congr addmod_eq_ofNat _⟩
  · exact ⟨_, ternary_congr mulmod_eq_ofNat _⟩

end HuffTrace.Evm
