import LogicSynthesis.Proofs.TruthTable.Checked

/-!
# Composition of tables

Composition replaces the variables of a table by tables over common variables. On each assignment
exactly one minterm of the composed table is active, the one whose code the inputs form there.

## Main statements

- `bit_compose` — composition is substitution
- `wordBit_composeWord` — and so it is in every lane of words
- `Checked.compose_eq`, `Checked.composeWord_eq` — the checked compositions have a result on
  canonical tables
-/

namespace LogicSynthesis.TruthTable

variable {t : TruthTable} {inputs : List TruthTable} {n m : Nat}

/-- Canonical tables of one arity. -/
def OfArity (n : Nat) (tables : List TruthTable) : Prop :=
  ∀ input ∈ tables, input.Canonical ∧ input.numVars = n

theorem OfArity.tail {input : TruthTable} (h : OfArity n (input :: inputs)) : OfArity n inputs :=
  fun other hmem => h other (List.mem_cons_of_mem _ hmem)

/-- Whether the inputs form the assignment `code` at the assignment `m`. -/
def forms (inputs : List TruthTable) (m code : Nat) : Bool :=
  inputs.zipIdx.all fun entry => entry.1.bit m == code.testBit entry.2

/-- A conjunction in the course of a minterm. -/
theorem foldl_minterm (h : OfArity n inputs) (hm : m < 2 ^ n) (code start : Nat)
    {term : TruthTable} (hterm : term.Canonical) (hn : term.numVars = n) :
    let result := (inputs.zipIdx start).foldl
      (fun term (input, k) => term.and (input.withPolarity (!code.testBit k))) term
    result.Canonical ∧ result.numVars = n ∧ result.bit m =
      (term.bit m &&
        (inputs.zipIdx start).all fun entry => entry.1.bit m == code.testBit entry.2) := by
  induction inputs generalizing start term with
  | nil => simp [hterm, hn]
  | cons input inputs ih =>
    obtain ⟨hcan, hvars⟩ := h input List.mem_cons_self
    have hpol := hcan.withPolarity (!code.testBit start)
    have harity : term.numVars = (input.withPolarity (!code.testBit start)).numVars := by
      rw [numVars_withPolarity, hn, hvars]
    have hnext := ih h.tail (start + 1) (hterm.and hpol harity) (by rw [numVars_and, hn])
    simp only [List.zipIdx_cons, List.foldl_cons, List.all_cons]
    refine ⟨hnext.1, hnext.2.1, ?_⟩
    rw [hnext.2.2, bit_and hterm hpol harity, bit_withPolarity hcan _ (by rwa [hvars]),
      Bool.and_assoc]
    congr 2
    cases input.bit m <;> cases code.testBit start <;> rfl

theorem canonical_minterm (h : OfArity n inputs) (hn : n ≤ maxVars) (code : Nat) :
    (minterm n inputs code).Canonical ∧ (minterm n inputs code).numVars = n := by
  have hfold := foldl_minterm h (Nat.two_pow_pos n) code 0 (canonical_one hn) (numVars_one n)
  exact ⟨hfold.1, hfold.2.1⟩

theorem bit_minterm (h : OfArity n inputs) (hn : n ≤ maxVars) (hm : m < 2 ^ n) (code : Nat) :
    (minterm n inputs code).bit m = forms inputs m code := by
  have hfold := (foldl_minterm h hm code 0 (canonical_one hn) (numVars_one n)).2.2
  rw [bit_one, decide_eq_true hm, Bool.true_and] at hfold
  exact hfold

/-- Whether the values are those of the assignment `code`. -/
def selects (values : List Bool) (code : Nat) : Bool :=
  values.zipIdx.all fun entry => entry.1 == code.testBit entry.2

/-- Values are those of one assignment, the one that they code. -/
theorem selects_iff (values : List Bool) {code : Nat} (h : code < 2 ^ values.length) :
    selects values code = true ↔ code = codeOf values := by
  have hall : selects values code = true ↔
      ∀ (k : Nat) value, values[k]? = some value → value = code.testBit k := by
    simp only [selects, List.all_eq_true, beq_iff_eq]
    constructor
    · intro hselects k value hk
      exact hselects (value, k) (List.mk_mem_zipIdx_iff_getElem?.mpr hk)
    · rintro hbits ⟨value, k⟩ hmem
      exact hbits k value (List.mk_mem_zipIdx_iff_getElem?.mp hmem)
  rw [hall]
  constructor
  · intro hbits
    apply Nat.eq_of_testBit_eq
    intro k
    rw [testBit_codeOf]
    cases hk : values[k]? with
    | some value => exact (hbits k value hk).symm
    | none => exact testBit_eq_false_of_lt h (List.getElem?_eq_none_iff.mp hk)
  · intro hcode k value hk
    rw [hcode, testBit_codeOf, hk]
    rfl

/-- Exactly one assignment is formed at each point. -/
theorem forms_iff (inputs : List TruthTable) {code : Nat} (h : code < 2 ^ inputs.length) :
    forms inputs m code = true ↔ code = codeOf (inputs.map (·.bit m)) := by
  rw [← selects_iff _ (by rwa [List.length_map]), selects, List.zipIdx_map, List.all_map]
  rfl

/-- A sum of minterms over the codes below a bound. -/
theorem foldl_compose (h : OfArity n inputs) (hn : n ≤ maxVars) (hm : m < 2 ^ n) (k : Nat) :
    let result := (List.range k).foldl
      (fun sum code => if t.bit code then sum.or (minterm n inputs code) else sum) (zero n)
    result.Canonical ∧ result.numVars = n ∧
      (result.bit m = true ↔ ∃ code < k, t.bit code = true ∧ forms inputs m code = true) := by
  induction k with
  | zero => simp [canonical_zero hn]
  | succ k ih =>
    obtain ⟨hcan, hvars, hbit⟩ := ih
    rw [List.range_succ, List.foldl_concat]
    -- The last code adds at most its own minterm.
    have hsplit : (∃ code < k + 1, t.bit code = true ∧ forms inputs m code = true) ↔
        (∃ code < k, t.bit code = true ∧ forms inputs m code = true) ∨
          (t.bit k = true ∧ forms inputs m k = true) := by
      constructor
      · rintro ⟨code, hlt, hcode⟩
        rcases Nat.lt_succ_iff_lt_or_eq.mp hlt with hlt | rfl
        · exact Or.inl ⟨code, hlt, hcode⟩
        · exact Or.inr hcode
      · rintro (⟨code, hlt, hcode⟩ | hk)
        · exact ⟨code, by omega, hcode⟩
        · exact ⟨k, by omega, hk⟩
    rw [hsplit]
    by_cases hk : t.bit k = true
    · obtain ⟨hmcan, hmvars⟩ := canonical_minterm h hn k
      have harity := hvars.trans hmvars.symm
      rw [if_pos hk]
      refine ⟨hcan.or hmcan harity, by rw [numVars_or, hvars], ?_⟩
      rw [bit_or hcan hmcan harity, bit_minterm h hn hm, Bool.or_eq_true, hbit]
      simp [hk]
    · rw [if_neg hk]
      refine ⟨hcan, hvars, ?_⟩
      rw [hbit]
      simp [hk]

theorem commonVars_eq (h : OfArity n inputs) (hne : inputs ≠ []) : commonVars inputs = n := by
  cases inputs with
  | nil => exact absurd rfl hne
  | cons input inputs => exact (h input List.mem_cons_self).2

/-- The inputs of a composition have the arity that the composition takes. -/
theorem OfArity.common (h : OfArity n inputs) : OfArity (commonVars inputs) inputs := by
  intro input hmem
  rw [commonVars_eq h (List.ne_nil_of_mem hmem)]
  exact h input hmem

theorem numVars_compose (h : OfArity n inputs) (hn : commonVars inputs ≤ maxVars) :
    (t.compose inputs).numVars = commonVars inputs :=
  (foldl_compose h.common hn (Nat.two_pow_pos _) t.numBits).2.1

theorem canonical_compose (h : OfArity n inputs) (hn : commonVars inputs ≤ maxVars) :
    (t.compose inputs).Canonical :=
  (foldl_compose h.common hn (Nat.two_pow_pos _) t.numBits).1

/-- Composition substitutes the inputs for the variables. -/
theorem bit_compose (h : OfArity n inputs) (hn : commonVars inputs ≤ maxVars)
    (hlen : inputs.length = t.numVars) (hm : m < 2 ^ commonVars inputs) :
    (t.compose inputs).bit m = t.bit (codeOf (inputs.map (·.bit m))) := by
  have hcode := codeOf_lt (inputs.map (·.bit m))
  rw [List.length_map, hlen] at hcode
  have hsum := (foldl_compose (t := t) h.common hn hm t.numBits).2.2
  rw [Bool.eq_iff_iff, compose, hsum, numBits_eq]
  constructor
  · rintro ⟨code, hlt, hbit, hforms⟩
    rw [forms_iff inputs (hlen ▸ hlt)] at hforms
    rwa [← hforms]
  · intro hbit
    exact ⟨_, hcode, hbit, (forms_iff inputs (hlen ▸ hcode)).mpr rfl⟩

/-! ### Composition of words -/

theorem foldl_mintermWord (words : List UInt64) (code start : Nat) {b : Nat} (hb : b < 64)
    (term : UInt64) :
    wordBit ((words.zipIdx start).foldl
      (fun term (w, k) => term &&& (if code.testBit k then w else ~~~w)) term) b =
        (wordBit term b &&
          (words.zipIdx start).all fun entry => wordBit entry.1 b == code.testBit entry.2) := by
  induction words generalizing start term with
  | nil => simp
  | cons w words ih =>
    rw [List.zipIdx_cons, List.foldl_cons, ih, List.all_cons, wordBit_and _ _ hb, Bool.and_assoc]
    congr 2
    cases code.testBit start
    · simp only [Bool.false_eq_true, if_false, wordBit_not w hb]
      cases wordBit w b <;> rfl
    · simp only [if_true]
      cases wordBit w b <;> rfl

/-- A minterm is active in the lanes that hold its assignment. -/
theorem wordBit_mintermWord (words : List UInt64) {code b : Nat} (hb : b < 64)
    (hcode : code < 2 ^ words.length) : wordBit (mintermWord words code) b = true ↔
      code = codeOf (words.map (wordBit · b)) := by
  rw [mintermWord, foldl_mintermWord words code 0 hb, wordBit_ones hb, Bool.true_and,
    ← selects_iff _ (by rwa [List.length_map]), selects, List.zipIdx_map, List.all_map]
  rfl

/-- Composition substitutes the lanes of the words for the variables. -/
theorem wordBit_composeWord {words : List UInt64} (hlen : words.length = t.numVars) {b : Nat}
    (hb : b < 64) : wordBit (t.composeWord words) b = t.bit (codeOf (words.map (wordBit · b))) := by
  have hlane := codeOf_lt (words.map (wordBit · b))
  rw [List.length_map] at hlane
  -- A lane is set once the sum has passed the code that it holds.
  have hsum : ∀ k ≤ 2 ^ words.length, wordBit ((List.range k).foldl
      (fun sum code => if t.bit code then sum ||| mintermWord words code else sum) 0) b =
        (decide (codeOf (words.map (wordBit · b)) < k) &&
          t.bit (codeOf (words.map (wordBit · b)))) := by
    intro k
    induction k with
    | zero => simp
    | succ k ih =>
      intro hk
      have hformer := ih (by omega)
      have hterm := wordBit_mintermWord words hb (Nat.lt_of_succ_le hk)
      rw [List.range_succ, List.foldl_concat]
      generalize (List.range k).foldl _ 0 = sum at hformer
      generalize codeOf (words.map (wordBit · b)) = lane at *
      rcases Nat.lt_trichotomy lane k with hlt | rfl | hgt
      · have hterm' : wordBit (mintermWord words k) b = false :=
          Bool.eq_false_iff.mpr fun h => hlt.ne' (hterm.mp h)
        rw [decide_eq_true hlt] at hformer
        rw [decide_eq_true (Nat.lt_succ_of_lt hlt), ← hformer]
        split
        · rw [wordBit_or _ _ hb, hterm', Bool.or_false]
        · rfl
      · rw [decide_eq_false (Nat.lt_irrefl lane), Bool.false_and] at hformer
        rw [decide_eq_true (Nat.lt_succ_self lane), Bool.true_and]
        split
        · next hbit => rw [wordBit_or _ _ hb, hterm.mpr rfl, Bool.or_true, hbit]
        · next hbit => rw [hformer, Bool.eq_false_iff.mpr hbit]
      · have hterm' : wordBit (mintermWord words k) b = false :=
          Bool.eq_false_iff.mpr fun h => hgt.ne (hterm.mp h)
        rw [decide_eq_false (by omega), Bool.false_and] at hformer
        rw [decide_eq_false (by omega), Bool.false_and]
        split
        · rw [wordBit_or _ _ hb, hterm', hformer, Bool.or_false]
        · exact hformer
  rw [composeWord, numBits_eq, ← hlen, hsum _ (Nat.le_refl _), decide_eq_true hlane, Bool.true_and]

/-! ### Compositions with their conditions -/

namespace Checked

theorem checkMinterm_eq (h : OfArity n inputs) (code : Nat) :
    checkMinterm n inputs code = .ok () := by
  have hgen : ∀ start, (inputs.zipIdx start).forM (fun entry => do
      let literal ← withPolarity entry.1 (!code.testBit entry.2)
      require (n == literal.numVars) .arityMismatch
      require literal.trimmable .missingEntry) = Except.ok () := by
    induction inputs with
    | nil => intro start; rfl
    | cons input inputs ih =>
      intro start
      obtain ⟨hcan, hvars⟩ := h input List.mem_cons_self
      rw [List.zipIdx_cons, List.forM_eq_forM, List.forM_cons, withPolarity_eq hcan, ok_bind,
        require_of (beq_iff_eq.mpr (by rw [numVars_withPolarity, hvars])), ok_bind,
        require_of (hcan.withPolarity _).trimmable, ok_bind]
      exact ih h.tail (start + 1)
  exact hgen 0

theorem compose_eq (ht : t.Canonical) (h : OfArity n inputs) (hn : commonVars inputs ≤ maxVars)
    (hlen : inputs.length = t.numVars) : compose t inputs = .ok (t.compose inputs) := by
  have hcheck : ∀ code, checkMinterm (commonVars inputs) inputs code = .ok () :=
    checkMinterm_eq h.common
  simp only [compose, require_of (beq_iff_eq.mpr hlen), require_of (decide_eq_true hn),
    require_of (decide_eq_true ht.numVars_lt), require_of ht.complete, hcheck, ok_bind]
  split <;> rfl

theorem composeWord_eq (ht : t.Canonical) {words : List UInt64} (hlen : words.length = t.numVars) :
    composeWord t words = .ok (t.composeWord words) := by
  rw [composeWord, require_of (beq_iff_eq.mpr hlen), ok_bind,
    require_of (decide_eq_true ht.numVars_lt), ok_bind, require_of ht.complete]
  rfl

end Checked

end LogicSynthesis.TruthTable
