import LogicSynthesis.Proofs.TruthTable.Composition
import LogicSynthesis.Proofs.TruthTable.Dependence

/-!
# Tables as functions on assignments

Words are a matter of storage. Within the limits every operation on tables has a result, the
result is canonical, and its value on an assignment is the Boolean operation on the values of its
operands there, whether a table fills a part of one word, one word or many. A cofactor takes the
value with its variable changed. Canonical tables are therefore equal as soon as they are equal as
functions, and what is read off a table is read off its function.

A cofactor on a variable that toggles from word to word can be computed in the one array of words:
each word that is read still holds its first value when it is read.

## Main definitions

- `Tabulates` — an operation has a result, and it is the table of a function
- `copyBlocks` — the cofactors as a loop over one array, with its invariant `Copied`
- `MakesTables`, `ActsPointwise`, `ReadsBits` — the operations as functions on assignments

## Main statements

- `words_cofactor0`, `words_cofactor1` — the loop over one array computes the cofactors
- `operations_pointwise` — the operations act on the values
-/

namespace LogicSynthesis.TruthTable

variable {a b c t : TruthTable} {n v : Nat}

/-! ### Cofactors in place -/

/-- The copy at the index `i`: where bit `k` of the index is set, its word goes to the index with
the bit clear, or the word there comes here. -/
def copyBlock (k : Nat) (value : Bool) (words : Array UInt64) (i : Nat) : Array UInt64 :=
  if i.testBit k then
    let low := i - 1 <<< k
    if value then words.setIfInBounds low ((words[i]?).getD 0)
    else words.setIfInBounds i ((words[low]?).getD 0)
  else words

/-- All copies, in the order of the indices. -/
def copyBlocks (k : Nat) (value : Bool) (words : Array UInt64) : Array UInt64 :=
  (List.range words.size).foldl (copyBlock k value) words

section

variable {k i j : Nat} {value : Bool} {words : Array UInt64}

theorem copyBlock_of_testBit (h : j.testBit k = true) :
    copyBlock k value words j =
      words.setIfInBounds (setVar j k !value) ((words[setVar j k value]?).getD 0) := by
  have hlow : setVar j k false = j - 1 <<< k := by
    rw [setVar_eq_sub h, Nat.one_shiftLeft]
  rw [copyBlock, if_pos h]
  cases value
  · rw [Bool.not_false, setVar_of_eq h, hlow]
    rfl
  · rw [Bool.not_true, setVar_of_eq h, hlow]
    rfl

theorem setVar_le_of_testBit (h : j.testBit k = true) (value : Bool) : setVar j k value ≤ j := by
  cases value
  · rw [setVar_eq_sub h]
    exact Nat.sub_le _ _
  · exact (setVar_of_eq h).le

theorem size_copyBlock (k : Nat) (value : Bool) (words : Array UInt64) (i : Nat) :
    (copyBlock k value words i).size = words.size := by
  unfold copyBlock
  split
  · simp only
    split <;> exact Array.size_setIfInBounds
  · rfl

/-- The array `out` before the copy at the index `j`. An index has its new word once the loop has
passed the index of its pair that has bit `k` set, and its first word until then. -/
structure Copied (k : Nat) (value : Bool) (words : Array UInt64) (j : Nat) (out : Array UInt64) :
    Prop where
  size : out.size = words.size
  reads : ∀ i, out[i]? =
    if setVar i k true < j then words[setVar i k value]? else words[i]?

theorem Copied.step {out : Array UInt64} (h : Copied k value words j out) (hj : j < words.size) :
    Copied k value words (j + 1) (copyBlock k value out j) := by
  refine ⟨(size_copyBlock k value out j).trans h.size, fun i => ?_⟩
  cases hb : j.testBit k with
  | false =>
    have hne : setVar i k true ≠ j := by
      rintro rfl
      rw [testBit_setVar, if_pos rfl] at hb
      exact Bool.false_ne_true hb.symm
    have hlt : setVar i k true < j + 1 ↔ setVar i k true < j := by omega
    rw [copyBlock, hb, if_neg Bool.false_ne_true, h.reads]
    simp only [hlt]
  | true =>
    have hle := setVar_le_of_testBit hb
    have hself : ∀ x, setVar (setVar j k x) k true = j := fun x => by
      rw [setVar_setVar, setVar_of_eq hb]
    -- the word that is read is still the first one
    have hread : out[setVar j k value]? = words[setVar j k value]? := by
      rw [h.reads, hself, if_neg (Nat.lt_irrefl j)]
    obtain ⟨w, hw⟩ : ∃ w, words[setVar j k value]? = some w :=
      ⟨_, Array.getElem?_eq_getElem (lt_of_le_of_lt (hle value) hj)⟩
    rw [copyBlock_of_testBit hb, hread, hw, Option.getD_some, Array.getElem?_setIfInBounds]
    by_cases hi : setVar j k (!value) = i
    · have hlt : setVar j k (!value) < out.size := h.size ▸ lt_of_le_of_lt (hle _) hj
      subst hi
      rw [if_pos rfl, if_pos hlt, hself, if_pos (Nat.lt_succ_self j), setVar_setVar, hw]
    · rw [if_neg hi, h.reads]
      rcases Nat.lt_trichotomy (setVar i k true) j with hlt | heq | hgt
      · rw [if_pos hlt, if_pos (Nat.lt_succ_of_lt hlt)]
      · -- the other index of the pair keeps its word
        have hback : setVar j k (i.testBit k) = i := by
          rw [← heq, setVar_setVar, setVar_of_eq rfl]
        have hvalue : i.testBit k = value := by
          by_contra hne
          exact hi (Bool.eq_not.mpr hne ▸ hback)
        rw [if_neg heq.not_lt, if_pos (heq ▸ Nat.lt_succ_self _), setVar_of_eq hvalue]
      · rw [if_neg (Nat.not_lt.mpr hgt.le), if_neg (Nat.not_lt.mpr hgt)]

theorem copied_copyBlocks (k : Nat) (value : Bool) (words : Array UInt64) :
    Copied k value words words.size (copyBlocks k value words) := by
  have hprefix : ∀ j ≤ words.size,
      Copied k value words j ((List.range j).foldl (copyBlock k value) words) := by
    intro j
    induction j with
    | zero => exact fun _ => ⟨rfl, fun i => (if_neg (Nat.not_lt_zero _)).symm⟩
    | succ j ih =>
      intro hj
      rw [List.range_succ, List.foldl_concat]
      exact (ih (Nat.le_of_succ_le hj)).step hj
  exact hprefix words.size le_rfl

end

/-- The copies give every index the word at the index with bit `v - 6` changed. -/
theorem mapIdx_eq_copyBlocks (h : t.Canonical) (hv : v < t.numVars) (h6 : 6 ≤ v) (value : Bool)
    {f : Nat → UInt64 → UInt64}
    (hf : ∀ i w w', t.words[i]? = some w → t.words[setVar i (v - 6) value]? = some w' →
      f i w = w') :
    t.words.mapIdx f = copyBlocks (v - 6) value t.words := by
  have hcount : t.words.size = 2 ^ (t.numVars - 6) := h.size_eq.trans (wordCount_eq _)
  have hvar : v - 6 < t.numVars - 6 := by omega
  apply Array.ext_getElem?
  intro i
  rw [Array.getElem?_mapIdx, (copied_copyBlocks _ _ _).reads, hcount]
  by_cases hi : i < 2 ^ (t.numVars - 6)
  · obtain ⟨w, hw⟩ : ∃ w, t.words[i]? = some w :=
      ⟨_, Array.getElem?_eq_getElem (hcount ▸ hi)⟩
    obtain ⟨w', hw'⟩ : ∃ w', t.words[setVar i (v - 6) value]? = some w' :=
      ⟨_, Array.getElem?_eq_getElem (hcount ▸ setVar_lt hvar hi value)⟩
    rw [if_pos (setVar_lt hvar hi true), hw, hw', Option.map_some, hf i w w' hw hw']
  · have hout : ¬ setVar i (v - 6) true < 2 ^ (t.numVars - 6) := fun hlt =>
      hi (lt_of_setVar_lt hvar hlt)
    rw [if_neg hout, Array.getElem?_eq_none (hcount ▸ Nat.not_lt.mp hi), Option.map_none]

/-- Copied within one array, the words are those of the cofactor. -/
theorem words_cofactor0 (h : t.Canonical) (hv : v < t.numVars) (h6 : 6 ≤ v) :
    (t.cofactor0 v).words = copyBlocks (v - 6) false t.words := by
  have hn : ¬ t.numVars < 6 := Nat.not_lt.mpr (h6.trans hv.le)
  rw [cofactor0, if_neg (Nat.not_lt.mpr h6), trim, if_neg hn]
  exact mapIdx_eq_copyBlocks h hv h6 false fun _ _ _ => lowWord_eq

theorem words_cofactor1 (h : t.Canonical) (hv : v < t.numVars) (h6 : 6 ≤ v) :
    (t.cofactor1 v).words = copyBlocks (v - 6) true t.words := by
  have hn : ¬ t.numVars < 6 := Nat.not_lt.mpr (h6.trans hv.le)
  rw [cofactor1, if_neg (Nat.not_lt.mpr h6), trim, if_neg hn]
  exact mapIdx_eq_copyBlocks h hv h6 true fun _ _ _ => highWord_eq

/-! ### Operations on functions -/

/-- The operation has a result, which is canonical, has `n` variables and the values of `f`. -/
def Tabulates (result : Except Fault TruthTable) (n : Nat) (f : Nat → Bool) : Prop :=
  ∃ t, result = .ok t ∧ t.Canonical ∧ t.numVars = n ∧ ∀ i < 2 ^ n, t.bit i = f i

/-- The tables of `n` variables that are made from nothing. -/
structure MakesTables (n : Nat) : Prop where
  const0 : Tabulates (Checked.const0 n) n fun _ => false
  const1 : Tabulates (Checked.const1 n) n fun _ => true
  var : ∀ v < n, Tabulates (Checked.var n v) n fun i => i.testBit v
  ofWord : n ≤ 6 → ∀ w : UInt64, Tabulates (Checked.ofWord n w) n fun i => w.toNat.testBit i

/-- The operations on tables of `n` variables, assignment by assignment. -/
structure ActsPointwise (n : Nat) (a b c : TruthTable) : Prop where
  setBit : ∀ k < 2 ^ n, ∀ value,
    Tabulates (Checked.setBit a k value) n fun i => if i = k then value else a.bit i
  not : Tabulates (Checked.not a) n fun i => !a.bit i
  and : Tabulates (Checked.and a b) n fun i => a.bit i && b.bit i
  or : Tabulates (Checked.or a b) n fun i => a.bit i || b.bit i
  xor : Tabulates (Checked.xor a b) n fun i => a.bit i ^^ b.bit i
  maj : Tabulates (Checked.maj a b c) n fun i =>
    a.bit i && b.bit i || a.bit i && c.bit i || b.bit i && c.bit i
  ite : Tabulates (Checked.ite a b c) n fun i => if a.bit i then b.bit i else c.bit i
  cofactor0 : ∀ v < n, Tabulates (Checked.cofactor0 a v) n fun i => a.bit (setVar i v false)
  cofactor1 : ∀ v < n, Tabulates (Checked.cofactor1 a v) n fun i => a.bit (setVar i v true)
  inPlace : ∀ v < n, 6 ≤ v → (a.cofactor0 v).words = copyBlocks (v - 6) false a.words ∧
    (a.cofactor1 v).words = copyBlocks (v - 6) true a.words

/-- What is read off a table of `n` variables is a property of its values. -/
structure ReadsBits (n : Nat) (a : TruthTable) : Prop where
  bit : ∀ i < 2 ^ n, Checked.bit a i = .ok (a.bit i)
  isConst0 : a.isConst0 = true ↔ ∀ i < 2 ^ n, a.bit i = false
  isConst1 : ∃ answer, Checked.isConst1 a = .ok answer ∧
    (answer = true ↔ ∀ i < 2 ^ n, a.bit i = true)
  countOnes : a.countOnes = (List.range (2 ^ n)).countP a.bit
  hasVar : ∀ v < n, ∃ answer, Checked.hasVar a v = .ok answer ∧ (answer = true ↔ a.DependsOn v)
  support : ∃ vars, Checked.support a = .ok vars ∧ vars.Pairwise (· < ·) ∧
    ∀ v, v ∈ vars ↔ a.DependsOn v

theorem makesTables (hn : n ≤ maxVars) : MakesTables n where
  const0 := ⟨_, Checked.const0_eq hn, canonical_zero hn, numVars_zero n, fun i _ => bit_zero n i⟩
  const1 := ⟨_, Checked.const1_eq hn, canonical_one hn, numVars_one n,
    fun i hi => by rw [bit_one, decide_eq_true hi]⟩
  var v hv := ⟨_, Checked.var_eq hv hn, canonical_proj hn v, numVars_proj n v,
    fun i hi => by rw [bit_proj, decide_eq_true hi, Bool.true_and]⟩
  ofWord h6 w := by
    refine ⟨_, Checked.ofWord_eq h6 w, canonical_ofWord h6 w, numVars_ofWord n w, fun i hi => ?_⟩
    have hlt : i < 64 := lt_of_lt_of_le hi (Nat.pow_le_pow_right (by decide) h6)
    rw [bit_ofWord h6, decide_eq_true hi, Bool.true_and, wordBit_eq hlt]

theorem actsPointwise (ha : a.Canonical) (hb : b.Canonical) (hc : c.Canonical)
    (hab : a.numVars = b.numVars) (hac : a.numVars = c.numVars) :
    ActsPointwise a.numVars a b c where
  setBit k hk value := ⟨_, Checked.setBit_eq ha hk value, ha.setBit hk value,
    numVars_setBit a k value, fun i _ => bit_setBit ha hk value i⟩
  not := ⟨_, Checked.not_eq ha, ha.not, numVars_not a,
    fun i hi => by rw [bit_not ha, decide_eq_true hi, Bool.true_and]⟩
  and := ⟨_, Checked.and_eq ha hb hab, ha.and hb hab, numVars_and a b,
    fun i _ => bit_and ha hb hab i⟩
  or := ⟨_, Checked.or_eq ha hb hab, ha.or hb hab, numVars_or a b, fun i _ => bit_or ha hb hab i⟩
  xor := ⟨_, Checked.xor_eq ha hb hab, ha.xor hb hab, numVars_xor a b,
    fun i _ => bit_xor ha hb hab i⟩
  maj := ⟨_, Checked.maj_eq ha hb hc hab hac, ha.maj hb hc hab hac, numVars_maj a b c,
    fun i _ => bit_maj ha hb hc hab hac i⟩
  ite := ⟨_, Checked.ite_eq ha hb hc hab hac, ha.ite hb hc hab hac, numVars_ite a b c,
    fun i _ => bit_ite ha hb hc hab hac i⟩
  cofactor0 v hv := ⟨_, Checked.cofactor0_eq ha hv, ha.cofactor0 v, numVars_cofactor0 a v,
    fun i _ => bit_cofactor0 ha hv i⟩
  cofactor1 v hv := ⟨_, Checked.cofactor1_eq ha hv, ha.cofactor1 v, numVars_cofactor1 a v,
    fun i _ => bit_cofactor1 ha hv i⟩
  inPlace v hv h6 := ⟨words_cofactor0 ha hv h6, words_cofactor1 ha hv h6⟩

theorem readsBits (ha : a.Canonical) : ReadsBits a.numVars a where
  bit i hi := Checked.bit_eq ha hi
  isConst0 := isConst0_iff_of_canonical ha
  isConst1 := ⟨_, Checked.isConst1_eq ha, isConst1_iff ha⟩
  countOnes := countOnes_eq_countP ha
  hasVar v hv := by
    refine ⟨_, Checked.hasVar_eq ha hv, ?_⟩
    rw [hasVar_iff ha hv, DependsOn, and_iff_right hv]
  support := ⟨_, Checked.support_eq ha, pairwise_support a, fun v => mem_support_iff ha⟩

/-- Canonical tables are equal exactly when they are equal as functions. -/
theorem eq_iff_bits (ha : a.Canonical) (hb : b.Canonical) :
    a = b ↔ a.numVars = b.numVars ∧ ∀ i < 2 ^ a.numVars, a.bit i = b.bit i := by
  constructor
  · rintro rfl
    exact ⟨rfl, fun _ _ => rfl⟩
  · rintro ⟨hn, hbits⟩
    exact ha.ext hb hn hbits

/-- On canonical tables of one arity every operation has a canonical result, whose values are the
Boolean operation on the values of the operands; canonical tables are equal when their arities and
values are; and what is read off a table is read off its values. -/
theorem operations_pointwise (h : OfArity n [a, b, c]) :
    MakesTables n ∧ ActsPointwise n a b c ∧ ReadsBits n a ∧
      ∀ s t : TruthTable, s.Canonical → t.Canonical →
        (s = t ↔ s.numVars = t.numVars ∧ ∀ i < 2 ^ s.numVars, s.bit i = t.bit i) := by
  obtain ⟨ha, rfl⟩ := h a (by simp)
  obtain ⟨hb, hab⟩ := h b (by simp)
  obtain ⟨hc, hac⟩ := h c (by simp)
  exact ⟨makesTables ha.numVars_le, actsPointwise ha hb hc hab.symm hac.symm, readsBits ha,
    fun s t hs ht => eq_iff_bits hs ht⟩

/-- At seven variables, which fill two words, with a variable that toggles from word to word. -/
theorem operations_pointwise_twoWords :
    OfArity 7 [proj 7 6, proj 7 0, one 7] ∧ MakesTables 7 ∧
      ActsPointwise 7 (proj 7 6) (proj 7 0) (one 7) ∧ ReadsBits 7 (proj 7 6) := by
  have harity : OfArity 7 [proj 7 6, proj 7 0, one 7] := by
    have hn : 7 ≤ maxVars := by decide
    simp [OfArity, canonical_proj hn, canonical_one hn]
  obtain ⟨hmakes, hacts, hreads, -⟩ := operations_pointwise harity
  exact ⟨harity, hmakes, hacts, hreads⟩

end LogicSynthesis.TruthTable
