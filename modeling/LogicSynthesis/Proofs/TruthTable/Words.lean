import Mathlib
import LogicSynthesis.TruthTable.Basic

/-!
# Bits of words

A word is known by its 64 bits. The word operations that tables are made of are stated here by
their effect on a single bit, so that no later proof looks into a word again.

## Main statements

- `word_ext` — equal bits make equal words
- `wordBit_pattern` — the words in which one variable toggles
- `wordBit_packWord` — the word packed from a function
-/

namespace LogicSynthesis.TruthTable

theorem toNat_toUInt64_mod {k : Nat} (h : k < 64) : k.toUInt64.toNat % 64 = k := by
  show k % 2 ^ 64 % 64 = k
  omega

theorem wordBit_eq {w : UInt64} {i : Nat} (h : i < 64) : wordBit w i = w.toNat.testBit i := by
  have hone : (w >>> i.toUInt64 &&& 1).toNat = (w.toNat >>> i) % 2 := by
    rw [UInt64.toNat_and, UInt64.toNat_shiftRight, toNat_toUInt64_mod h]
    exact Nat.and_one_is_mod _
  rw [wordBit, Nat.testBit_eq_decide_div_mod_eq, ← Nat.shiftRight_eq_div_pow, ← hone,
    Bool.eq_iff_iff, beq_iff_eq, decide_eq_true_iff, ← UInt64.toNat_inj]
  rfl

theorem wordBit_eq_getLsbD {w : UInt64} {i : Nat} (h : i < 64) :
    wordBit w i = w.toBitVec.getLsbD i :=
  wordBit_eq h

/-- Words with the same bits are equal. -/
theorem word_ext {a b : UInt64} (h : ∀ i < 64, wordBit a i = wordBit b i) : a = b := by
  apply UInt64.toNat_inj.mp
  apply Nat.eq_of_testBit_eq
  intro i
  by_cases hi : i < 64
  · rw [← wordBit_eq hi, ← wordBit_eq hi, h i hi]
  · have hpow : 2 ^ 64 ≤ 2 ^ i := Nat.pow_le_pow_right (by decide) (by omega)
    rw [Nat.testBit_lt_two_pow (lt_of_lt_of_le a.toNat_lt hpow),
      Nat.testBit_lt_two_pow (lt_of_lt_of_le b.toNat_lt hpow)]

@[simp]
theorem wordBit_zero (i : Nat) : wordBit 0 i = false := by
  simp [wordBit]

variable {i : Nat}

theorem wordBit_and (a b : UInt64) (h : i < 64) :
    wordBit (a &&& b) i = (wordBit a i && wordBit b i) := by
  rw [wordBit_eq h, wordBit_eq h, wordBit_eq h, UInt64.toNat_and, Nat.testBit_and]

theorem wordBit_or (a b : UInt64) (h : i < 64) :
    wordBit (a ||| b) i = (wordBit a i || wordBit b i) := by
  rw [wordBit_eq h, wordBit_eq h, wordBit_eq h, UInt64.toNat_or, Nat.testBit_or]

theorem wordBit_xor (a b : UInt64) (h : i < 64) :
    wordBit (a ^^^ b) i = (wordBit a i ^^ wordBit b i) := by
  rw [wordBit_eq h, wordBit_eq h, wordBit_eq h, UInt64.toNat_xor, Nat.testBit_xor]

theorem wordBit_not (a : UInt64) (h : i < 64) : wordBit (~~~a) i = !wordBit a i := by
  rw [wordBit_eq_getLsbD h, wordBit_eq_getLsbD h, UInt64.toBitVec_not, BitVec.getLsbD_not]
  simp [h]

theorem wordBit_ones (h : i < 64) : wordBit 0xFFFFFFFFFFFFFFFF i = true := by
  rw [wordBit_eq h]
  interval_cases i <;> rfl

theorem wordBit_shiftLeft (a : UInt64) {k : Nat} (h : i < 64) (hk : k < 64) :
    wordBit (a <<< k.toUInt64) i = (decide (k ≤ i) && wordBit a (i - k)) := by
  rw [wordBit_eq h, wordBit_eq (by omega), UInt64.toNat_shiftLeft, toNat_toUInt64_mod hk,
    Nat.testBit_mod_two_pow, Nat.testBit_shiftLeft]
  simp [h]

theorem wordBit_shiftRight (a : UInt64) {k : Nat} (h : i + k < 64) :
    wordBit (a >>> k.toUInt64) i = wordBit a (i + k) := by
  rw [wordBit_eq (by omega), wordBit_eq h, UInt64.toNat_shiftRight,
    toNat_toUInt64_mod (by omega), Nat.testBit_shiftRight, Nat.add_comm]

theorem wordBit_unitWord {k : Nat} (h : i < 64) (hk : k < 64) :
    wordBit (unitWord k) i = decide (i = k) := by
  have hone : wordBit 1 (i - k) = decide (i - k = 0) := by
    rw [wordBit_eq (by omega)]
    show Nat.testBit 1 (i - k) = _
    rw [Bool.eq_iff_iff, Nat.testBit_one_eq_true_iff_self_eq_zero, decide_eq_true_iff]
  rw [unitWord, wordBit_shiftLeft _ h hk, hone, ← Bool.decide_and, decide_eq_decide]
  omega

/-- Setting or clearing one bit of a word leaves the others alone. -/
theorem wordBit_update (w : UInt64) (value : Bool) {k : Nat} (h : i < 64) (hk : k < 64) :
    wordBit (if value then w ||| unitWord k else w &&& ~~~(unitWord k)) i =
      if i = k then value else wordBit w i := by
  cases value
  · rw [if_neg Bool.false_ne_true, wordBit_and _ _ h, wordBit_not _ h, wordBit_unitWord h hk]
    by_cases hik : i = k <;> simp [hik]
  · rw [if_pos rfl, wordBit_or _ _ h, wordBit_unitWord h hk]
    by_cases hik : i = k <;> simp [hik]

/-- Bit `i` of the pattern of a variable is the value of the variable on the assignment `i`. -/
theorem wordBit_pattern {v : Nat} (h : i < 64) (hv : v < 6) :
    wordBit (pattern v) i = i.testBit v := by
  rw [wordBit_eq h]
  interval_cases v <;> interval_cases i <;> rfl

theorem wordBit_packWord (f : Nat → Bool) {count : Nat} (hc : count ≤ 64) (h : i < 64) :
    wordBit (packWord f count) i = (decide (i < count) && f i) := by
  induction count with
  | zero => simp [packWord]
  | succ count ih =>
    have hcount := ih (by omega)
    rw [packWord]
    by_cases hf : f count = true
    · rw [if_pos hf, wordBit_or _ _ h, hcount, wordBit_unitWord h (by omega)]
      by_cases hi : i = count
      · subst hi
        simp [hf]
      · have hlt : i < count + 1 ↔ i < count := by omega
        simp [hi, hlt]
    · rw [if_neg hf, hcount]
      by_cases hi : i = count
      · subst hi
        simp [hf]
      · have hlt : i < count + 1 ↔ i < count := by omega
        simp [hlt]

end LogicSynthesis.TruthTable
