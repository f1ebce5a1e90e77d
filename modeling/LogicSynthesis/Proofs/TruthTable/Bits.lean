import LogicSynthesis.Proofs.TruthTable.Words

/-!
# Bits of tables

The operations on truth tables, stated by the value of their result on each assignment. A table
is `Canonical` when it has the words its arity asks for and no bit set beyond them; canonical
tables of one arity are equal as soon as they agree on every assignment.

## Main statements

- `Canonical.ext` — equality of canonical tables
- `bit_not`, `bit_and`, `bit_or`, `bit_xor`, `bit_ite`, `bit_maj`, `bit_proj`, `bit_ofFn`,
  `bit_setBit` — the operations bit by bit, with `Canonical` beside each
- `isConst0_iff`, `isConst1_iff`, `countOnes_eq_countP` — what is read off all words at once
-/

namespace LogicSynthesis.TruthTable

variable {a b c t : TruthTable} {i n : Nat}

theorem numBits_eq (t : TruthTable) : t.numBits = 2 ^ t.numVars := Nat.one_shiftLeft _

/-- The subtraction is cut off at zero: up to six variables there is one word. -/
theorem wordCount_eq (n : Nat) : wordCount n = 2 ^ (n - 6) := by
  rw [wordCount, Nat.one_shiftLeft]
  split
  · rw [Nat.sub_eq_zero_of_le ‹n ≤ 6›, Nat.pow_zero]
  · rfl

theorem wordCount_of_le (h : n ≤ 6) : wordCount n = 1 := if_pos h

theorem mul_wordCount (h : 6 ≤ n) : 64 * wordCount n = 2 ^ n := by
  rw [wordCount_eq, show 64 = 2 ^ 6 from rfl, ← Nat.pow_add, Nat.add_sub_cancel' h]

/-- Every assignment has a word, at whatever arity. -/
theorem div_lt_wordCount (h : i < 2 ^ n) : i / 64 < wordCount n := by
  by_cases hn : 6 ≤ n
  · have := mul_wordCount hn
    omega
  · have hpow : 2 ^ n ≤ 2 ^ 6 := Nat.pow_le_pow_right (by decide) (by omega)
    rw [wordCount_of_le (by omega)]
    omega

theorem bit_of_lt (h : i / 64 < t.words.size) : t.bit i = wordBit t.words[i / 64] (i % 64) := by
  rw [bit, Array.getElem?_eq_getElem h]

theorem bit_of_le (h : t.words.size ≤ i / 64) : t.bit i = false := by
  rw [bit, Array.getElem?_eq_none h]

/-! ### Canonical tables -/

namespace Canonical

theorem numVars_le (h : t.Canonical) : t.numVars ≤ maxVars := h.1

theorem size_eq (h : t.Canonical) : t.words.size = wordCount t.numVars := h.2.1

theorem lt_of_bit (h : t.Canonical) (hi : t.bit i = true) : i < 2 ^ t.numVars :=
  numBits_eq t ▸ h.2.2 i hi

theorem bit_eq_false (h : t.Canonical) (hi : 2 ^ t.numVars ≤ i) : t.bit i = false := by
  cases hb : t.bit i with
  | false => rfl
  | true => exact absurd (h.lt_of_bit hb) (Nat.not_lt.mpr hi)

/-- The range check that most operations make is void on canonical tables. -/
theorem decide_and_bit (h : t.Canonical) (i : Nat) :
    (decide (i < 2 ^ t.numVars) && t.bit i) = t.bit i := by
  by_cases hi : i < 2 ^ t.numVars
  · rw [decide_eq_true hi, Bool.true_and]
  · rw [h.bit_eq_false (Nat.not_lt.mp hi), Bool.and_false]

/-- Canonical tables are determined by their values. -/
theorem ext (ha : a.Canonical) (hb : b.Canonical) (hn : a.numVars = b.numVars)
    (h : ∀ i < 2 ^ a.numVars, a.bit i = b.bit i) : a = b := by
  have hbit : ∀ i, a.bit i = b.bit i := by
    intro i
    by_cases hi : i < 2 ^ a.numVars
    · exact h i hi
    · rw [ha.bit_eq_false (Nat.not_lt.mp hi), hb.bit_eq_false (hn ▸ Nat.not_lt.mp hi)]
  have hsize : a.words.size = b.words.size := by rw [ha.size_eq, hb.size_eq, hn]
  have hwords : a.words = b.words := by
    apply Array.ext hsize
    intro k hka hkb
    apply word_ext
    intro j hj
    have hdiv : (64 * k + j) / 64 = k := by omega
    have hmod : (64 * k + j) % 64 = j := by omega
    have hk := hbit (64 * k + j)
    rw [bit_of_lt (by omega), bit_of_lt (by omega)] at hk
    simpa only [hdiv, hmod] using hk
  cases a
  cases b
  simp only at hn hwords
  rw [hn, hwords]

end Canonical

/-! ### Trimming -/

@[simp] theorem numVars_trim (t : TruthTable) : (trim t).numVars = t.numVars := by
  unfold trim
  split <;> rfl

theorem size_trim (t : TruthTable) : (trim t).words.size = t.words.size := by
  unfold trim
  split
  · exact Array.size_modify
  · rfl

theorem wordBit_usedBits (hi : i < 64) : wordBit (usedBits n) i = decide (i < 2 ^ n) := by
  by_cases hn : n < 6
  · rw [wordBit_eq hi, usedBits, if_pos hn]
    interval_cases n <;> interval_cases i <;> rfl
  · have hpow : 2 ^ 6 ≤ 2 ^ n := Nat.pow_le_pow_right (by decide) (by omega)
    rw [usedBits, if_neg hn, wordBit_ones hi, decide_eq_true (by omega)]

/-- On a table with as many words as its arity asks for, trimming clears the unused bits. -/
theorem bit_trim (h : t.words.size = wordCount t.numVars) (i : Nat) :
    (trim t).bit i = (decide (i < 2 ^ t.numVars) && t.bit i) := by
  by_cases hlt : i / 64 < t.words.size
  · rw [bit_of_lt (by rwa [size_trim]), bit_of_lt hlt]
    by_cases hn : t.numVars < 6
    · have hzero : i / 64 = 0 := by
        rw [h, wordCount_of_le (by omega)] at hlt
        omega
      have hmod : i % 64 = i := by omega
      simp only [trim, hn, ↓reduceIte, hzero, Array.getElem_modify]
      rw [wordBit_and _ _ (by omega), wordBit_usedBits (by omega), hmod, Bool.and_comm]
    · have hi : i < 2 ^ t.numVars := by
        rw [← mul_wordCount (by omega), ← h]
        omega
      simp only [trim, hn, ↓reduceIte, hi, decide_true, Bool.true_and]
  · rw [bit_of_le (by rw [size_trim]; omega), bit_of_le (by omega), Bool.and_false]

theorem canonical_trim (hn : t.numVars ≤ maxVars) (h : t.words.size = wordCount t.numVars) :
    (trim t).Canonical := by
  refine ⟨by rwa [numVars_trim], by rw [size_trim, numVars_trim, h], ?_⟩
  intro i hi
  rw [bit_trim h, Bool.and_eq_true, decide_eq_true_iff] at hi
  rw [numBits_eq, numVars_trim]
  exact hi.1

/-! ### Constants and projections -/

@[simp] theorem numVars_zero (n : Nat) : (zero n).numVars = n := rfl

@[simp] theorem bit_zero (n i : Nat) : (zero n).bit i = false := by
  by_cases h : i / 64 < (zero n).words.size
  · rw [bit_of_lt h]
    simp [zero]
  · exact bit_of_le (by omega)

theorem canonical_zero (hn : n ≤ maxVars) : (zero n).Canonical := by
  refine ⟨hn, by simp [zero], ?_⟩
  intro i hi
  simp at hi

@[simp] theorem numVars_not (t : TruthTable) : t.not.numVars = t.numVars := numVars_trim _

theorem bit_not_of_size (h : t.words.size = wordCount t.numVars) (i : Nat) :
    t.not.bit i = (decide (i < 2 ^ t.numVars) && !t.bit i) := by
  have hsize : (t.words.map (~~~ ·)).size = wordCount t.numVars := by rw [Array.size_map, h]
  rw [TruthTable.not, bit_trim hsize]
  by_cases hi : i < 2 ^ t.numVars
  · have hlt : i / 64 < t.words.size := h ▸ div_lt_wordCount hi
    rw [bit_of_lt (by simpa using hlt), bit_of_lt hlt]
    simp only [Array.getElem_map, wordBit_not _ (Nat.mod_lt i (by decide : 64 > 0))]
  · rw [decide_eq_false hi, Bool.false_and, Bool.false_and]

theorem bit_not (h : t.Canonical) (i : Nat) :
    t.not.bit i = (decide (i < 2 ^ t.numVars) && !t.bit i) :=
  bit_not_of_size h.size_eq i

theorem Canonical.not (h : t.Canonical) : t.not.Canonical :=
  canonical_trim h.numVars_le (by simpa using h.size_eq)

@[simp] theorem numVars_one (n : Nat) : (one n).numVars = n := numVars_not _

@[simp] theorem bit_one (n i : Nat) : (one n).bit i = decide (i < 2 ^ n) := by
  rw [one, bit_not_of_size (by simp [zero]), bit_zero, Bool.not_false, Bool.and_true]
  rfl

theorem canonical_one (hn : n ≤ maxVars) : (one n).Canonical := (canonical_zero hn).not

theorem not_not (h : t.Canonical) : t.not.not = t := by
  apply h.not.not.ext h (by simp)
  intro i hi
  simp only [numVars_not] at hi
  rw [bit_not h.not, bit_not h, numVars_not]
  simp [hi]

@[simp] theorem numVars_proj (n i : Nat) : (proj n i).numVars = n := numVars_trim _

theorem size_proj_words (n v : Nat) :
    (if v < 6 then Array.replicate (wordCount n) (pattern v)
      else Array.ofFn (n := wordCount n)
        fun i => if i.val.testBit (v - 6) then (0xFFFFFFFFFFFFFFFF : UInt64) else 0).size =
      wordCount n := by
  split <;> simp

/-- The projection onto a variable reads the bit of the variable off the assignment. -/
theorem bit_proj (n v i : Nat) : (proj n v).bit i = (decide (i < 2 ^ n) && i.testBit v) := by
  rw [proj, bit_trim (size_proj_words n v)]
  by_cases hi : i < 2 ^ n
  · have hlt := div_lt_wordCount hi
    rw [bit_of_lt (by rw [size_proj_words]; exact hlt)]
    by_cases hv : v < 6
    · simp only [hv, ↓reduceIte, Array.getElem_replicate]
      rw [wordBit_pattern (by omega) hv, show 64 = 2 ^ 6 from rfl, Nat.testBit_mod_two_pow]
      simp [hv]
    · simp only [hv, ↓reduceIte, Array.getElem_ofFn]
      have hbit : (i / 64).testBit (v - 6) = i.testBit v := by
        rw [show 64 = 2 ^ 6 from rfl, ← Nat.shiftRight_eq_div_pow, Nat.testBit_shiftRight]
        congr 1
        omega
      rw [hbit]
      cases i.testBit v
      · simp
      · simp only [↓reduceIte, wordBit_ones (Nat.mod_lt i (by decide : 64 > 0))]
  · rw [decide_eq_false hi, Bool.false_and, Bool.false_and]

theorem canonical_proj (hn : n ≤ maxVars) (v : Nat) : (proj n v).Canonical :=
  canonical_trim hn (size_proj_words n v)

/-! ### Operations of one arity -/

@[simp] theorem numVars_zipWords (op : UInt64 → UInt64 → UInt64) (a b : TruthTable) :
    (zipWords op a b).numVars = a.numVars := numVars_trim _

theorem Canonical.zipWords (op : UInt64 → UInt64 → UInt64) (ha : a.Canonical) (hb : b.Canonical)
    (hn : a.numVars = b.numVars) : (zipWords op a b).Canonical := by
  refine canonical_trim (t := ⟨a.numVars, Array.zipWith op a.words b.words⟩) ha.numVars_le ?_
  simp [ha.size_eq, hb.size_eq, hn]

/-- A word operation that acts on each bit by `f` acts on each value by `f`. -/
theorem bit_zipWords {op : UInt64 → UInt64 → UInt64} {f : Bool → Bool → Bool}
    (hop : ∀ v w, ∀ j < 64, wordBit (op v w) j = f (wordBit v j) (wordBit w j))
    (ha : a.Canonical) (hb : b.Canonical) (hn : a.numVars = b.numVars) (i : Nat) :
    (TruthTable.zipWords op a b).bit i = (decide (i < 2 ^ a.numVars) && f (a.bit i) (b.bit i)) := by
  have hsize : (Array.zipWith op a.words b.words).size = wordCount a.numVars := by
    simp [ha.size_eq, hb.size_eq, hn]
  rw [TruthTable.zipWords, bit_trim hsize]
  by_cases hi : i < 2 ^ a.numVars
  · have hlt : i / 64 < wordCount a.numVars := div_lt_wordCount hi
    rw [bit_of_lt (by rw [hsize]; exact hlt), bit_of_lt (by rw [ha.size_eq]; exact hlt),
      bit_of_lt (by rw [hb.size_eq, ← hn]; exact hlt)]
    simp only [Array.getElem_zipWith]
    rw [hop _ _ _ (Nat.mod_lt i (by decide : 64 > 0))]
  · rw [decide_eq_false hi, Bool.false_and, Bool.false_and]

@[simp] theorem numVars_and (a b : TruthTable) : (a.and b).numVars = a.numVars := numVars_trim _

@[simp] theorem numVars_or (a b : TruthTable) : (a.or b).numVars = a.numVars := numVars_trim _

@[simp] theorem numVars_xor (a b : TruthTable) : (a.xor b).numVars = a.numVars := numVars_trim _

theorem Canonical.and (ha : a.Canonical) (hb : b.Canonical) (hn : a.numVars = b.numVars) :
    (a.and b).Canonical := ha.zipWords _ hb hn

theorem Canonical.or (ha : a.Canonical) (hb : b.Canonical) (hn : a.numVars = b.numVars) :
    (a.or b).Canonical := ha.zipWords _ hb hn

theorem Canonical.xor (ha : a.Canonical) (hb : b.Canonical) (hn : a.numVars = b.numVars) :
    (a.xor b).Canonical := ha.zipWords _ hb hn

theorem bit_and (ha : a.Canonical) (hb : b.Canonical) (hn : a.numVars = b.numVars) (i : Nat) :
    (a.and b).bit i = (a.bit i && b.bit i) := by
  rw [TruthTable.and, bit_zipWords (fun v w _ hj => wordBit_and v w hj) ha hb hn, ← Bool.and_assoc,
    ha.decide_and_bit]

theorem bit_or (ha : a.Canonical) (hb : b.Canonical) (hn : a.numVars = b.numVars) (i : Nat) :
    (a.or b).bit i = (a.bit i || b.bit i) := by
  rw [TruthTable.or, bit_zipWords (fun v w _ hj => wordBit_or v w hj) ha hb hn,
    Bool.and_or_distrib_left, ha.decide_and_bit, hn, hb.decide_and_bit]

theorem bit_xor (ha : a.Canonical) (hb : b.Canonical) (hn : a.numVars = b.numVars) (i : Nat) :
    (a.xor b).bit i = (a.bit i ^^ b.bit i) := by
  rw [TruthTable.xor, bit_zipWords (fun v w _ hj => wordBit_xor v w hj) ha hb hn,
    Bool.and_xor_distrib_left, ha.decide_and_bit, hn, hb.decide_and_bit]

@[simp] theorem numVars_ite (a b c : TruthTable) : (TruthTable.ite a b c).numVars = a.numVars := by
  rw [TruthTable.ite, numVars_or, numVars_and]

theorem Canonical.ite (ha : a.Canonical) (hb : b.Canonical) (hc : c.Canonical)
    (hab : a.numVars = b.numVars) (hac : a.numVars = c.numVars) :
    (TruthTable.ite a b c).Canonical :=
  (ha.and hb hab).or (ha.not.and hc (by simpa using hac)) (by simp)

theorem bit_ite (ha : a.Canonical) (hb : b.Canonical) (hc : c.Canonical)
    (hab : a.numVars = b.numVars) (hac : a.numVars = c.numVars) (i : Nat) :
    (TruthTable.ite a b c).bit i = if a.bit i then b.bit i else c.bit i := by
  have hac' : a.not.numVars = c.numVars := by simpa using hac
  rw [TruthTable.ite, bit_or (ha.and hb hab) (ha.not.and hc hac') (by simp), bit_and ha hb hab,
    bit_and ha.not hc hac', bit_not ha, Bool.and_comm (decide _), Bool.and_assoc, hac,
    hc.decide_and_bit]
  cases a.bit i <;> simp

@[simp] theorem numVars_maj (a b c : TruthTable) : (maj a b c).numVars = a.numVars := by
  rw [maj, numVars_or, numVars_or, numVars_and]

theorem Canonical.maj (ha : a.Canonical) (hb : b.Canonical) (hc : c.Canonical)
    (hab : a.numVars = b.numVars) (hac : a.numVars = c.numVars) :
    (TruthTable.maj a b c).Canonical :=
  ((ha.and hb hab).or (ha.and hc hac) (by simp)).or (hb.and hc (hab ▸ hac)) (by simpa using hab)

theorem bit_maj (ha : a.Canonical) (hb : b.Canonical) (hc : c.Canonical)
    (hab : a.numVars = b.numVars) (hac : a.numVars = c.numVars) (i : Nat) :
    (TruthTable.maj a b c).bit i =
      ((a.bit i && b.bit i || a.bit i && c.bit i) || b.bit i && c.bit i) := by
  have hbc : b.numVars = c.numVars := hab ▸ hac
  rw [TruthTable.maj, bit_or ((ha.and hb hab).or (ha.and hc hac) (by simp)) (hb.and hc hbc)
    (by simpa using hab), bit_or (ha.and hb hab) (ha.and hc hac) (by simp), bit_and ha hb hab,
    bit_and ha hc hac, bit_and hb hc hbc]

@[simp] theorem numVars_withPolarity (t : TruthTable) (negate : Bool) :
    (t.withPolarity negate).numVars = t.numVars := by
  cases negate
  · rfl
  · exact numVars_not t

theorem Canonical.withPolarity (h : t.Canonical) (negate : Bool) :
    (t.withPolarity negate).Canonical := by
  cases negate
  · exact h
  · exact h.not

theorem bit_withPolarity (h : t.Canonical) (negate : Bool) (hi : i < 2 ^ t.numVars) :
    (t.withPolarity negate).bit i = (t.bit i ^^ negate) := by
  cases negate
  · exact (Bool.xor_false _).symm
  · rw [TruthTable.withPolarity, if_pos rfl, bit_not h, decide_eq_true hi, Bool.true_and,
      Bool.xor_true]

/-! ### Tables from words, functions and single bits -/

theorem canonical_ofWord (hn : n ≤ 6) (w : UInt64) : (ofWord n w).Canonical :=
  canonical_trim (le_trans hn (by decide)) (wordCount_of_le hn).symm

@[simp] theorem numVars_ofWord (n : Nat) (w : UInt64) : (ofWord n w).numVars = n := numVars_trim _

theorem bit_ofWord (hn : n ≤ 6) (w : UInt64) (i : Nat) :
    (ofWord n w).bit i = (decide (i < 2 ^ n) && wordBit w i) := by
  rw [ofWord, bit_trim (show #[w].size = wordCount n from (wordCount_of_le hn).symm)]
  by_cases hi : i < 2 ^ n
  · have hlt : i < 64 := lt_of_lt_of_le hi (Nat.pow_le_pow_right (by decide) hn)
    have hdiv : i / 64 = 0 := by omega
    rw [bit_of_lt (by rw [hdiv]; exact Nat.one_pos), Nat.mod_eq_of_lt hlt]
    simp only [hdiv, List.getElem_toArray, List.getElem_cons_zero]
  · rw [decide_eq_false hi, Bool.false_and, Bool.false_and]

@[simp] theorem numVars_ofFn (n : Nat) (f : Nat → Bool) : (ofFn n f).numVars = n := rfl

theorem bit_ofFn (n : Nat) (f : Nat → Bool) (i : Nat) :
    (ofFn n f).bit i = (decide (i < 2 ^ n) && f i) := by
  have hsize : (ofFn n f).words.size = wordCount n := by simp [ofFn]
  by_cases hlt : i / 64 < wordCount n
  · have hmod : i % 64 < 64 := Nat.mod_lt i (by decide)
    rw [bit_of_lt (hsize ▸ hlt)]
    simp only [ofFn, Array.getElem_ofFn]
    rw [wordBit_packWord _ (Nat.min_le_left _ _) hmod, Nat.div_add_mod, Nat.one_shiftLeft]
    congr 1
    rw [decide_eq_decide, Nat.lt_min]
    by_cases hn : 6 ≤ n
    · have := mul_wordCount hn
      have hpow : 2 ^ 6 ≤ 2 ^ n := Nat.pow_le_pow_right (by decide) hn
      omega
    · rw [wordCount_of_le (by omega)] at hlt
      omega
  · have hi : ¬ i < 2 ^ n := fun hi => hlt (div_lt_wordCount hi)
    rw [bit_of_le (by omega), decide_eq_false hi, Bool.false_and]

theorem canonical_ofFn (hn : n ≤ maxVars) (f : Nat → Bool) : (ofFn n f).Canonical := by
  refine ⟨hn, by simp [ofFn], ?_⟩
  intro i hi
  rw [bit_ofFn, Bool.and_eq_true, decide_eq_true_iff] at hi
  rw [numBits_eq]
  exact hi.1

@[simp] theorem numVars_setBit (t : TruthTable) (i : Nat) (value : Bool) :
    (t.setBit i value).numVars = t.numVars := rfl

theorem bit_setBit (h : t.Canonical) {k : Nat} (hk : k < 2 ^ t.numVars) (value : Bool) (i : Nat) :
    (t.setBit k value).bit i = if i = k then value else t.bit i := by
  have hsize : (t.setBit k value).words.size = t.words.size := by simp [setBit]
  by_cases hlt : i / 64 < t.words.size
  · have hmod : i % 64 < 64 := Nat.mod_lt i (by decide)
    rw [bit_of_lt (hsize ▸ hlt), bit_of_lt hlt]
    simp only [setBit, Array.getElem_modify]
    by_cases hdiv : k / 64 = i / 64
    · have hik : i % 64 = k % 64 ↔ i = k := by omega
      rw [if_pos hdiv, wordBit_update _ _ hmod (Nat.mod_lt k (by decide))]
      simp only [hik]
    · rw [if_neg hdiv, if_neg (by rintro rfl; exact hdiv rfl)]
  · have hik : i ≠ k := by
      rintro rfl
      exact hlt (h.size_eq ▸ div_lt_wordCount hk)
    rw [bit_of_le (by omega), bit_of_le (by omega), if_neg hik]

theorem Canonical.setBit (h : t.Canonical) {k : Nat} (hk : k < 2 ^ t.numVars) (value : Bool) :
    (t.setBit k value).Canonical := by
  refine ⟨h.numVars_le, by simpa [TruthTable.setBit] using h.size_eq, ?_⟩
  intro i hi
  rw [bit_setBit h hk] at hi
  rw [numBits_eq]
  by_cases hik : i = k
  · exact hik ▸ hk
  · exact h.lt_of_bit (by rwa [if_neg hik] at hi)

/-! ### Recognising constants -/

/-- The test for the constant false reads every bit that is stored. -/
theorem isConst0_iff : t.isConst0 = true ↔ ∀ i, t.bit i = false := by
  rw [isConst0, Array.all_eq_true]
  constructor
  · intro h i
    by_cases hlt : i / 64 < t.words.size
    · rw [bit_of_lt hlt, beq_iff_eq.mp (h _ hlt), wordBit_zero]
    · exact bit_of_le (Nat.not_lt.mp hlt)
  · intro h k hk
    rw [beq_iff_eq]
    apply word_ext
    intro j hj
    have hdiv : (64 * k + j) / 64 = k := by omega
    have hmod : (64 * k + j) % 64 = j := by omega
    have hkj := h (64 * k + j)
    rw [bit_of_lt (by omega)] at hkj
    simpa only [hdiv, hmod, wordBit_zero] using hkj

theorem isConst0_iff_of_canonical (h : t.Canonical) :
    t.isConst0 = true ↔ ∀ i < 2 ^ t.numVars, t.bit i = false := by
  rw [isConst0_iff]
  refine ⟨fun hbit i _ => hbit i, fun hbit i => ?_⟩
  by_cases hi : i < 2 ^ t.numVars
  · exact hbit i hi
  · exact h.bit_eq_false (Nat.not_lt.mp hi)

/-- The test for the constant true reads every assignment and none of the unused bits. -/
theorem isConst1_iff (h : t.Canonical) :
    t.isConst1 = true ↔ ∀ i < 2 ^ t.numVars, t.bit i = true := by
  rw [isConst1, isConst0_iff]
  refine forall_congr' fun i => ?_
  rw [bit_not h, Bool.and_eq_false_imp, decide_eq_true_iff, Bool.not_eq_false']

/-! ### Counting -/

/-- The words are counted one after the other. -/
theorem countOnes_eq_countP_words (t : TruthTable) :
    t.countOnes = (List.range (64 * t.words.size)).countP t.bit := by
  rw [countOnes]
  refine Array.foldl_induction
    (fun k total => total = (List.range (64 * k)).countP t.bit) rfl ?_
  intro k total htotal
  have hword : (List.range 64).countP (t.bit ∘ (64 * k.val + ·)) = popcount t.words[k] := by
    refine List.countP_congr fun j hj => ?_
    have hj : j < 64 := List.mem_range.mp hj
    have hdiv : (64 * k.val + j) / 64 = k.val := by omega
    have hmod : (64 * k.val + j) % 64 = j := by omega
    rw [Function.comp_apply, bit_of_lt (by rw [hdiv]; exact k.isLt), hmod]
    simp only [hdiv, Fin.getElem_fin]
  rw [Nat.mul_succ, List.range_add, List.countP_append, List.countP_map, hword, htotal]

/-- The words of a canonical table count the assignments on which the function is true. -/
theorem countOnes_eq_countP (h : t.Canonical) :
    t.countOnes = (List.range (2 ^ t.numVars)).countP t.bit := by
  have hlast := div_lt_wordCount (Nat.sub_lt (Nat.two_pow_pos t.numVars) Nat.one_pos)
  obtain ⟨unused, hunused⟩ := Nat.exists_eq_add_of_le
    (show 2 ^ t.numVars ≤ 64 * t.words.size by rw [h.size_eq]; omega)
  have hclear : (List.range unused).countP (t.bit ∘ (2 ^ t.numVars + ·)) = 0 := by
    refine List.countP_eq_zero.mpr fun j _ => ?_
    rw [Function.comp_apply, h.bit_eq_false (Nat.le_add_right _ _)]
    exact Bool.false_ne_true
  rw [countOnes_eq_countP_words, hunused, List.range_add, List.countP_append, List.countP_map,
    hclear, Nat.add_zero]

end LogicSynthesis.TruthTable
