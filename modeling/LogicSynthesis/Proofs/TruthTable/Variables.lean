import LogicSynthesis.TruthTable.Support
import LogicSynthesis.Proofs.TruthTable.Bits

/-!
# Cofactors, support and change of variables

An assignment code carries the value of variable `v` as its bit `v`, and `setVar` changes that
one value. Cofactors are tables read at changed codes, and a table depends on a variable exactly
when some change of it changes the value. A table is therefore known from the variables of its
support, which is what `minBase` and `expand` rely on.

## Main statements

- `bit_cofactor0`, `bit_cofactor1` — the cofactors
- `bit_eq_of_support` — the support determines the value
- `bit_minBase` — the table over its support gives the same values
- `hasVar_minBase` — and depends on all its variables
-/

namespace LogicSynthesis

/-- The assignment code in which variable `v` has the given value and all others are as in
`code`. -/
def setVar (code v : Nat) (value : Bool) : Nat :=
  if code.testBit v = value then code
  else if value then code + 2 ^ v else code - 2 ^ v

/-! ### Codes -/

theorem testBit_split (code v j : Nat) :
    (2 ^ v * (code / 2 ^ v) + code % 2 ^ v).testBit j =
      if j < v then (code % 2 ^ v).testBit j else (code / 2 ^ v).testBit (j - v) :=
  Nat.testBit_two_pow_mul_add _ (Nat.mod_lt _ (Nat.two_pow_pos v)) j

/-- Two codes agree away from `v` when they have the same part below it and the same half above. -/
theorem testBit_of_split {a b v j : Nat} (hmod : a % 2 ^ v = b % 2 ^ v)
    (hdiv : a / 2 ^ v / 2 = b / 2 ^ v / 2) (hj : j ≠ v) : a.testBit j = b.testBit j := by
  rw [← Nat.div_add_mod a (2 ^ v), ← Nat.div_add_mod b (2 ^ v), testBit_split, testBit_split, hmod]
  by_cases hlt : j < v
  · rw [if_pos hlt, if_pos hlt]
  · rw [if_neg hlt, if_neg hlt]
    obtain ⟨k, hk⟩ : ∃ k, j - v = k + 1 := ⟨j - v - 1, by omega⟩
    rw [hk, Nat.testBit_succ, Nat.testBit_succ, hdiv]

theorem testBit_add_two_pow {code v : Nat} (h : code.testBit v = false) (j : Nat) :
    (code + 2 ^ v).testBit j = if j = v then true else code.testBit j := by
  have hpos := Nat.two_pow_pos v
  have hquot : (code + 2 ^ v) / 2 ^ v = code / 2 ^ v + 1 := Nat.add_div_right _ hpos
  have hmod : (code + 2 ^ v) % 2 ^ v = code % 2 ^ v := Nat.add_mod_right _ _
  have heven : code / 2 ^ v % 2 = 0 := by
    rw [Nat.testBit_eq_decide_div_mod_eq, decide_eq_false_iff_not] at h
    omega
  by_cases hj : j = v
  · subst hj
    rw [if_pos rfl, Nat.testBit_eq_decide_div_mod_eq, hquot, decide_eq_true_iff]
    omega
  · rw [if_neg hj]
    exact testBit_of_split hmod (by rw [hquot]; omega) hj

theorem testBit_sub_two_pow {code v : Nat} (h : code.testBit v = true) (j : Nat) :
    (code - 2 ^ v).testBit j = if j = v then false else code.testBit j := by
  have hge : 2 ^ v ≤ code := Nat.ge_two_pow_of_testBit h
  have hpos := Nat.two_pow_pos v
  have hquot : (code - 2 ^ v) / 2 ^ v = code / 2 ^ v - 1 := by
    rw [← Nat.sub_mul_div code (2 ^ v) 1, Nat.mul_one]
  have hmod : (code - 2 ^ v) % 2 ^ v = code % 2 ^ v := (Nat.mod_eq_sub_mod hge).symm
  have hodd : code / 2 ^ v % 2 = 1 := by
    rwa [Nat.testBit_eq_decide_div_mod_eq, decide_eq_true_iff] at h
  by_cases hj : j = v
  · subst hj
    rw [if_pos rfl, Nat.testBit_eq_decide_div_mod_eq, hquot, decide_eq_false_iff_not]
    omega
  · rw [if_neg hj]
    have hhalf : (code / 2 ^ v - 1) / 2 = code / 2 ^ v / 2 := by
      generalize code / 2 ^ v = q at hodd
      omega
    exact testBit_of_split hmod (by rw [hquot, hhalf]) hj

@[simp]
theorem testBit_setVar (code v j : Nat) (value : Bool) :
    (setVar code v value).testBit j = if j = v then value else code.testBit j := by
  unfold setVar
  by_cases h : code.testBit v = value
  · rw [if_pos h]
    split
    · next hj => rw [hj, h]
    · rfl
  · rw [if_neg h]
    cases value with
    | true => exact testBit_add_two_pow (by simpa using h) j
    | false => exact testBit_sub_two_pow (by simpa using h) j

theorem setVar_of_eq {code v : Nat} {value : Bool} (h : code.testBit v = value) :
    setVar code v value = code := if_pos h

theorem setVar_eq_sub {code v : Nat} (h : code.testBit v = true) :
    setVar code v false = code - 2 ^ v := by
  rw [setVar, h, if_neg (by decide), if_neg (by decide)]

theorem setVar_eq_add {code v : Nat} (h : code.testBit v = false) :
    setVar code v true = code + 2 ^ v := by
  rw [setVar, h, if_neg (by decide), if_pos rfl]

theorem setVar_setVar (code v : Nat) (x y : Bool) :
    setVar (setVar code v x) v y = setVar code v y := by
  apply Nat.eq_of_testBit_eq
  intro j
  simp only [testBit_setVar]
  split <;> rfl

theorem setVar_comm {v w : Nat} (h : v ≠ w) (code : Nat) (x y : Bool) :
    setVar (setVar code v x) w y = setVar (setVar code w y) v x := by
  apply Nat.eq_of_testBit_eq
  intro j
  simp only [testBit_setVar]
  by_cases hv : j = v
  · simp [hv, h]
  · simp [hv]

theorem testBit_eq_false_of_lt {code j n : Nat} (h : code < 2 ^ n) (hj : n ≤ j) :
    code.testBit j = false :=
  Nat.testBit_lt_two_pow (lt_of_lt_of_le h (Nat.pow_le_pow_right (by decide) hj))

theorem setVar_lt {code v n : Nat} (hv : v < n) (h : code < 2 ^ n) (value : Bool) :
    setVar code v value < 2 ^ n := by
  apply Nat.lt_pow_two_of_testBit
  intro j hj
  rw [testBit_setVar, if_neg (by omega)]
  exact testBit_eq_false_of_lt h hj

theorem lt_of_setVar_lt {code v n : Nat} {value : Bool} (hv : v < n)
    (h : setVar code v value < 2 ^ n) : code < 2 ^ n := by
  apply Nat.lt_pow_two_of_testBit
  intro j hj
  have hbit := testBit_eq_false_of_lt h hj
  rwa [testBit_setVar, if_neg (by omega)] at hbit

/-- The value of variable `k` in the code of a list is its `k`-th entry. -/
@[simp]
theorem testBit_codeOf (bs : List Bool) (k : Nat) :
    (codeOf bs).testBit k = (bs[k]?).getD false := by
  induction bs generalizing k with
  | nil => simp [codeOf]
  | cons b bs ih =>
    have hmod : (b.toNat + 2 * codeOf bs) % 2 = b.toNat := by cases b <;> simp
    have hdiv : (b.toNat + 2 * codeOf bs) / 2 = codeOf bs := by
      have := b.toNat_lt
      omega
    cases k with
    | zero =>
      rw [codeOf, Nat.testBit_zero, hmod]
      cases b <;> rfl
    | succ k => rw [codeOf, Nat.testBit_succ, hdiv, ih, List.getElem?_cons_succ]

theorem codeOf_lt (bs : List Bool) : codeOf bs < 2 ^ bs.length := by
  apply Nat.lt_pow_two_of_testBit
  intro j hj
  rw [testBit_codeOf, List.getElem?_eq_none hj, Option.getD_none]

theorem codeOf_map_testBit {m n : Nat} (h : m < 2 ^ n) :
    codeOf ((List.range n).map m.testBit) = m := by
  apply Nat.eq_of_testBit_eq
  intro j
  rw [testBit_codeOf, List.getElem?_map]
  by_cases hj : j < n
  · rw [List.getElem?_range hj]
    rfl
  · rw [List.getElem?_eq_none (by simpa using hj), testBit_eq_false_of_lt h (by omega)]
    rfl

/-- A scattered code carries variable `k` at the `k`-th position. -/
theorem testBit_scatter {ps : List Nat} (hps : ps.Nodup) {k p : Nat} (hk : ps[k]? = some p)
    (code : Nat) : (scatter ps code).testBit p = code.testBit k := by
  induction ps generalizing k code with
  | nil => simp at hk
  | cons q ps ih =>
    obtain ⟨hq, hnodup⟩ := List.nodup_cons.mp hps
    have hrest : ∀ code, q ∉ ps → (scatter ps code).testBit q = false := by
      intro code
      clear ih hps hq hnodup hk
      induction ps generalizing code with
      | nil => simp [scatter]
      | cons r ps ih =>
        intro hnot
        rw [List.mem_cons, not_or] at hnot
        rw [scatter, Nat.testBit_or, ih _ hnot.2]
        split <;> simp [Nat.one_shiftLeft, Ne.symm hnot.1]
    rw [scatter, Nat.testBit_or]
    cases k with
    | zero =>
      obtain rfl : q = p := by simpa using hk
      rw [hrest _ hq, Bool.or_false]
      cases hb : code.testBit 0 <;> simp [Nat.one_shiftLeft]
    | succ k =>
      have hk' : ps[k]? = some p := by simpa using hk
      have hne : q ≠ p := by
        rintro rfl
        exact hq (List.mem_of_getElem? hk')
      rw [ih hnodup hk', ← Nat.testBit_succ]
      split <;> simp [Nat.one_shiftLeft, hne]

/-- Setting the variable at the `k`-th position sets variable `k` of the code that is read off. -/
theorem codeOf_map_setVar {ps : List Nat} (hps : ps.Nodup) {k p : Nat} (hk : ps[k]? = some p)
    (code : Nat) (value : Bool) : codeOf (ps.map (setVar code p value).testBit) =
      setVar (codeOf (ps.map code.testBit)) k value := by
  apply Nat.eq_of_testBit_eq
  intro j
  rw [testBit_codeOf, testBit_setVar, testBit_codeOf, List.getElem?_map, List.getElem?_map]
  by_cases hj : j = k
  · subst hj
    rw [hk, if_pos rfl, Option.map_some, testBit_setVar, if_pos rfl]
    rfl
  · rw [if_neg hj]
    cases hw : ps[j]? with
    | none => rfl
    | some w =>
      have hne : w ≠ p := by
        rintro rfl
        exact hj ((List.getElem?_inj (List.getElem?_eq_some_iff.mp hw).1 hps).mp
          (hw.trans hk.symm))
      rw [Option.map_some, Option.map_some, testBit_setVar, if_neg hne]

theorem codeOf_map_setVar_of_notMem {ps : List Nat} {p : Nat} (hp : p ∉ ps) (code : Nat)
    (value : Bool) :
    codeOf (ps.map (setVar code p value).testBit) = codeOf (ps.map code.testBit) := by
  congr 1
  refine List.map_congr_left fun q hq => ?_
  rw [testBit_setVar, if_neg (ne_of_mem_of_not_mem hq hp)]

/-- Reading off the positions undoes scattering. -/
theorem codeOf_map_scatter {ps : List Nat} (hps : ps.Nodup) {code : Nat}
    (h : code < 2 ^ ps.length) : codeOf (ps.map (scatter ps code).testBit) = code := by
  apply Nat.eq_of_testBit_eq
  intro k
  rw [testBit_codeOf, List.getElem?_map]
  cases hk : ps[k]? with
  | none => exact (testBit_eq_false_of_lt h (List.getElem?_eq_none_iff.mp hk)).symm
  | some p => rw [Option.map_some, Option.getD_some, testBit_scatter hps hk]

theorem scatter_lt {ps : List Nat} {n : Nat} (h : ∀ p ∈ ps, p < n) (code : Nat) :
    scatter ps code < 2 ^ n := by
  induction ps generalizing code with
  | nil => exact Nat.two_pow_pos n
  | cons p ps ih =>
    rw [scatter]
    apply Nat.or_lt_two_pow
    · split
      · rw [Nat.one_shiftLeft]
        exact Nat.pow_lt_pow_right (by decide) (h p List.mem_cons_self)
      · exact Nat.two_pow_pos n
    · exact ih (fun q hq => h q (List.mem_cons_of_mem p hq)) _

namespace TruthTable

variable {t : TruthTable} {v : Nat}

/-! ### Cofactors -/

/-- The positions of a word that a cofactor on a variable within the word reads. -/
theorem setVar_word : ∀ v < 6, ∀ j < 64,
    (j.testBit v = true → 2 ^ v ≤ j ∧ (j - 2 ^ v).testBit v = false) ∧
    (j.testBit v = false → (2 ^ v ≤ j → (j - 2 ^ v).testBit v = true) ∧ j + 2 ^ v < 64 ∧
      (j + 2 ^ v).testBit v = true) := by
  decide

theorem shiftLeft_lt_64 (hv : v < 6) : 1 <<< v < 64 := by
  rw [Nat.one_shiftLeft]
  show 2 ^ v < 2 ^ 6
  exact Nat.pow_lt_pow_right (by decide) hv

theorem wordBit_low (w : UInt64) (hv : v < 6) {j : Nat} (hj : j < 64) :
    wordBit ((w &&& ~~~(pattern v)) ||| ((w &&& ~~~(pattern v)) <<< (1 <<< v : Nat).toUInt64)) j =
      wordBit w (setVar j v false) := by
  obtain ⟨hset, hclear⟩ := setVar_word v hv j hj
  have hsub : j - 2 ^ v < 64 := lt_of_le_of_lt (Nat.sub_le _ _) hj
  rw [wordBit_or _ _ hj, wordBit_shiftLeft _ hj (shiftLeft_lt_64 hv), Nat.one_shiftLeft,
    wordBit_and _ _ hj, wordBit_and _ _ hsub, wordBit_not _ hj, wordBit_not _ hsub,
    wordBit_pattern hj hv, wordBit_pattern hsub hv]
  cases hb : j.testBit v with
  | true =>
    obtain ⟨hle, hsub⟩ := hset hb
    simp [setVar, hb, hle, hsub]
  | false =>
    have hsub := (hclear hb).1
    by_cases hle : 2 ^ v ≤ j
    · simp [setVar, hb, hle, hsub hle]
    · simp [setVar, hb, hle]

theorem wordBit_high (w : UInt64) (hv : v < 6) {j : Nat} (hj : j < 64) :
    wordBit ((w &&& pattern v) ||| ((w &&& pattern v) >>> (1 <<< v : Nat).toUInt64)) j =
      wordBit w (setVar j v true) := by
  obtain ⟨hset, hclear⟩ := setVar_word v hv j hj
  rw [wordBit_or _ _ hj, wordBit_and _ _ hj, wordBit_pattern hj hv]
  cases hb : j.testBit v with
  | true =>
    have hhigh : wordBit ((w &&& pattern v) >>> (1 <<< v : Nat).toUInt64) j = true →
        wordBit w j = true := by
      intro h
      by_cases hlt : j + 1 <<< v < 64
      · -- the bit that comes down stands at a place where the pattern is clear
        rw [wordBit_shiftRight _ hlt, wordBit_and _ _ hlt, wordBit_pattern hlt hv] at h
        have hbit : (j + 1 <<< v).testBit v = false := by
          rw [Nat.one_shiftLeft, Nat.add_comm, Nat.testBit_two_pow_add_eq, hb]
          rfl
        simp [hbit] at h
      · have hzero : (w &&& pattern v).toNat >>> (1 <<< v) < 2 ^ j := by
          rw [Nat.shiftRight_eq_div_pow]
          have hw := (w &&& pattern v).toNat_lt
          apply Nat.div_lt_of_lt_mul
          rw [← Nat.pow_add]
          exact lt_of_lt_of_le hw (Nat.pow_le_pow_right (by decide) (by omega))
        rw [wordBit_eq hj, UInt64.toNat_shiftRight, toNat_toUInt64_mod (shiftLeft_lt_64 hv),
          Nat.testBit_lt_two_pow hzero] at h
        cases h
    rw [setVar_of_eq hb, Bool.and_true]
    cases hw : wordBit w j with
    | true => rfl
    | false =>
      rw [Bool.false_or]
      cases hs : wordBit ((w &&& pattern v) >>> (1 <<< v : Nat).toUInt64) j with
      | false => rfl
      | true => rw [hhigh hs] at hw; cases hw
  | false =>
    obtain ⟨-, hlt, hbit⟩ := hclear hb
    rw [← Nat.one_shiftLeft] at hlt hbit
    rw [wordBit_shiftRight _ hlt, wordBit_and _ _ hlt, wordBit_pattern hlt hv, hbit]
    simp [setVar, hb, Nat.one_shiftLeft]

theorem setVar_of_lt_six (hv : v < 6) (i : Nat) (value : Bool) :
    setVar i v value / 64 = i / 64 ∧ setVar i v value % 64 = setVar (i % 64) v value := by
  have h64 : 64 = 2 ^ 6 := rfl
  constructor
  · apply Nat.eq_of_testBit_eq
    intro j
    rw [h64, Nat.testBit_div_two_pow, Nat.testBit_div_two_pow, testBit_setVar, if_neg (by omega)]
  · apply Nat.eq_of_testBit_eq
    intro j
    rw [h64, Nat.testBit_mod_two_pow, testBit_setVar, testBit_setVar, Nat.testBit_mod_two_pow]
    by_cases hj : j = v
    · simp [hj, hv]
    · simp [hj]

theorem setVar_of_six_le (hv : 6 ≤ v) (i : Nat) (value : Bool) :
    setVar i v value / 64 = setVar (i / 64) (v - 6) value ∧ setVar i v value % 64 = i % 64 := by
  have h64 : 64 = 2 ^ 6 := rfl
  constructor
  · apply Nat.eq_of_testBit_eq
    intro j
    rw [h64, Nat.testBit_div_two_pow, testBit_setVar, testBit_setVar, Nat.testBit_div_two_pow]
    by_cases hj : j + 6 = v
    · rw [if_pos hj, if_pos (by omega)]
    · rw [if_neg hj, if_neg (by omega)]
  · apply Nat.eq_of_testBit_eq
    intro j
    rw [h64, Nat.testBit_mod_two_pow, Nat.testBit_mod_two_pow, testBit_setVar]
    by_cases hj : j < 6
    · rw [if_neg (by omega)]
    · simp [hj]

/-- A table whose words are those of `t`, each with its values taken at `setVar _ v value`, has
the values of `t` there. -/
theorem bit_of_words {words : Array UInt64} (h : t.Canonical) (hv : v < t.numVars) (value : Bool)
    (hsize : words.size = wordCount t.numVars)
    (hwords : ∀ i < 2 ^ t.numVars, ∀ hi : i / 64 < words.size,
      wordBit words[i / 64] (i % 64) = t.bit (setVar i v value)) (i : Nat) :
    (trim { t with words }).bit i = t.bit (setVar i v value) := by
  rw [bit_trim hsize]
  by_cases hi : i < 2 ^ t.numVars
  · have hlt : i / 64 < words.size := hsize ▸ div_lt_wordCount hi
    rw [bit_of_lt hlt, decide_eq_true hi, Bool.true_and, hwords i hi hlt]
  · have hge : ¬ setVar i v value < 2 ^ t.numVars := fun hlt => hi (lt_of_setVar_lt hv hlt)
    rw [decide_eq_false hi, Bool.false_and, h.bit_eq_false (Nat.not_lt.mp hge)]

theorem exists_word (h : t.Canonical) {i : Nat} (hi : i < 2 ^ t.numVars) :
    ∃ w, t.words[i / 64]? = some w :=
  ⟨_, Array.getElem?_eq_getElem (h.size_eq ▸ div_lt_wordCount hi)⟩

theorem bit_of_word {i : Nat} {w : UInt64} (h : t.words[i / 64]? = some w) :
    t.bit i = wordBit w (i % 64) := by
  rw [bit, h]

/-- Where the variable toggles from word to word, a cofactor takes the word at its index with the
variable changed. -/
theorem lowWord_eq {words : Array UInt64} {k i : Nat} {w w' : UInt64} (hw : words[i]? = some w)
    (hw' : words[setVar i k false]? = some w') :
    (if i.testBit k then (words[i - 1 <<< k]?).getD w else w) = w' := by
  cases hb : i.testBit k with
  | false =>
    rw [setVar_of_eq hb, hw] at hw'
    rw [if_neg Bool.false_ne_true, Option.some.inj hw']
  | true =>
    rw [setVar_eq_sub hb, ← Nat.one_shiftLeft] at hw'
    rw [if_pos rfl, hw', Option.getD_some]

theorem highWord_eq {words : Array UInt64} {k i : Nat} {w w' : UInt64} (hw : words[i]? = some w)
    (hw' : words[setVar i k true]? = some w') :
    (if i.testBit k then w else (words[i + 1 <<< k]?).getD w) = w' := by
  cases hb : i.testBit k with
  | true =>
    rw [setVar_of_eq hb, hw] at hw'
    rw [if_pos rfl, Option.some.inj hw']
  | false =>
    rw [setVar_eq_add hb, ← Nat.one_shiftLeft] at hw'
    rw [if_neg Bool.false_ne_true, hw', Option.getD_some]

theorem bit_cofactor0 (h : t.Canonical) (hv : v < t.numVars) (i : Nat) :
    (t.cofactor0 v).bit i = t.bit (setVar i v false) := by
  by_cases hv6 : v < 6
  · rw [cofactor0, if_pos hv6]
    apply bit_of_words h hv false (by simpa using h.size_eq)
    intro i hi hlt
    obtain ⟨hdiv, hmod⟩ := setVar_of_lt_six hv6 i false
    obtain ⟨w, hw⟩ := exists_word h (setVar_lt hv hi false)
    rw [bit_of_word hw, Array.getElem_map, wordBit_low _ hv6 (Nat.mod_lt i (by decide)), ← hmod]
    rw [hdiv] at hw
    rw [(Array.getElem?_eq_some_iff.mp hw).2]
  · rw [cofactor0, if_neg hv6]
    apply bit_of_words h hv false (by simpa using h.size_eq)
    intro i hi hlt
    obtain ⟨hdiv, hmod⟩ := setVar_of_six_le (v := v) (by omega) i false
    obtain ⟨w, hw⟩ := exists_word h (setVar_lt hv hi false)
    rw [bit_of_word hw, hmod, Array.getElem_mapIdx]
    rw [hdiv] at hw
    rw [lowWord_eq (Array.getElem?_eq_getElem _) hw]

theorem bit_cofactor1 (h : t.Canonical) (hv : v < t.numVars) (i : Nat) :
    (t.cofactor1 v).bit i = t.bit (setVar i v true) := by
  by_cases hv6 : v < 6
  · rw [cofactor1, if_pos hv6]
    apply bit_of_words h hv true (by simpa using h.size_eq)
    intro i hi hlt
    obtain ⟨hdiv, hmod⟩ := setVar_of_lt_six hv6 i true
    obtain ⟨w, hw⟩ := exists_word h (setVar_lt hv hi true)
    rw [bit_of_word hw, Array.getElem_map, wordBit_high _ hv6 (Nat.mod_lt i (by decide)), ← hmod]
    rw [hdiv] at hw
    rw [(Array.getElem?_eq_some_iff.mp hw).2]
  · rw [cofactor1, if_neg hv6]
    apply bit_of_words h hv true (by simpa using h.size_eq)
    intro i hi hlt
    obtain ⟨hdiv, hmod⟩ := setVar_of_six_le (v := v) (by omega) i true
    obtain ⟨w, hw⟩ := exists_word h (setVar_lt hv hi true)
    rw [bit_of_word hw, hmod, Array.getElem_mapIdx]
    rw [hdiv] at hw
    rw [highWord_eq (Array.getElem?_eq_getElem _) hw]

@[simp] theorem numVars_cofactor0 (t : TruthTable) (v : Nat) :
    (t.cofactor0 v).numVars = t.numVars := numVars_trim _

@[simp] theorem numVars_cofactor1 (t : TruthTable) (v : Nat) :
    (t.cofactor1 v).numVars = t.numVars := numVars_trim _

theorem Canonical.cofactor0 (h : t.Canonical) (v : Nat) : (t.cofactor0 v).Canonical := by
  rw [TruthTable.cofactor0]
  refine canonical_trim ?_ ?_
  · exact h.numVars_le
  by_cases hv : v < 6
  · simpa [hv] using h.size_eq
  · simpa [hv] using h.size_eq

theorem Canonical.cofactor1 (h : t.Canonical) (v : Nat) : (t.cofactor1 v).Canonical := by
  rw [TruthTable.cofactor1]
  refine canonical_trim ?_ ?_
  · exact h.numVars_le
  by_cases hv : v < 6
  · simpa [hv] using h.size_eq
  · simpa [hv] using h.size_eq

/-! ### Dependence on a variable -/

theorem hasVar_eq_false_iff (h : t.Canonical) (hv : v < t.numVars) :
    t.hasVar v = false ↔ ∀ i, t.bit (setVar i v false) = t.bit (setVar i v true) := by
  rw [hasVar, bne_eq_false_iff_eq]
  constructor
  · intro heq i
    rw [← bit_cofactor0 h hv, ← bit_cofactor1 h hv, heq]
  · intro heq
    apply (h.cofactor0 v).ext (h.cofactor1 v) (by simp)
    intro i _
    rw [bit_cofactor0 h hv, bit_cofactor1 h hv, heq]

/-- A variable on which the table does not depend may have any value. -/
theorem bit_setVar_of_not_hasVar (h : t.Canonical) (hv : v < t.numVars) (hnot : t.hasVar v = false)
    (i : Nat) (value : Bool) : t.bit (setVar i v value) = t.bit i := by
  have heq := (hasVar_eq_false_iff h hv).mp hnot i
  have hself : setVar i v (i.testBit v) = i := setVar_of_eq rfl
  cases value <;> cases hb : i.testBit v <;> rw [hb] at hself
  · rw [hself]
  · rw [heq, hself]
  · rw [← heq, hself]
  · rw [hself]

theorem mem_support {t : TruthTable} {v : Nat} :
    v ∈ t.support ↔ v < t.numVars ∧ t.hasVar v = true := by
  rw [support, List.mem_filter, List.mem_range]

theorem pairwise_support (t : TruthTable) : t.support.Pairwise (· < ·) :=
  List.Pairwise.filter _ List.pairwise_lt_range

theorem nodup_support (t : TruthTable) : t.support.Nodup :=
  List.nodup_range.filter _

theorem length_support_le (t : TruthTable) : t.support.length ≤ t.numVars := by
  have h := List.length_filter_le t.hasVar (List.range t.numVars)
  rwa [List.length_range] at h

/-- The assignment with the first `k` variables of `j` and the others of `i`. -/
def mixCode (i j k : Nat) : Nat := 2 ^ k * (i / 2 ^ k) + j % 2 ^ k

theorem testBit_mixCode (i j k v : Nat) :
    (mixCode i j k).testBit v = if v < k then j.testBit v else i.testBit v := by
  rw [mixCode, Nat.testBit_two_pow_mul_add _ (Nat.mod_lt _ (Nat.two_pow_pos k))]
  by_cases hv : v < k
  · simp [hv, Nat.testBit_mod_two_pow]
  · rw [if_neg hv, if_neg hv, Nat.testBit_div_two_pow, Nat.sub_add_cancel (by omega)]

theorem mixCode_succ (i j k : Nat) :
    mixCode i j (k + 1) = setVar (mixCode i j k) k (j.testBit k) := by
  apply Nat.eq_of_testBit_eq
  intro v
  rw [testBit_setVar, testBit_mixCode, testBit_mixCode]
  by_cases hv : v = k
  · simp [hv]
  · have hlt : v < k + 1 ↔ v < k := by omega
    simp [hv, hlt]

/-- Assignments that agree on the support give the same value. The variables are exchanged one
after the other. -/
theorem bit_eq_of_support (h : t.Canonical) {i j : Nat} (hi : i < 2 ^ t.numVars)
    (hj : j < 2 ^ t.numVars) (hagree : ∀ v ∈ t.support, i.testBit v = j.testBit v) :
    t.bit i = t.bit j := by
  have hmix : ∀ k ≤ t.numVars, t.bit (mixCode i j k) = t.bit i := by
    intro k
    induction k with
    | zero => simp [mixCode, Nat.mod_one]
    | succ k ih =>
      intro hk
      rw [mixCode_succ, ← ih (by omega)]
      cases hvar : t.hasVar k with
      | false => exact bit_setVar_of_not_hasVar h (by omega) hvar _ _
      | true =>
        have hbit := hagree k (mem_support.mpr ⟨by omega, hvar⟩)
        rw [setVar_of_eq]
        rw [testBit_mixCode, if_neg (by omega), hbit]
  have hlast : mixCode i j t.numVars = j := by
    rw [mixCode, Nat.div_eq_of_lt hi, Nat.mul_zero, Nat.zero_add, Nat.mod_eq_of_lt hj]
  rw [← hmix t.numVars le_rfl, hlast]

/-! ### Shrinking and expansion -/

theorem support_eq_range (h : t.support.length = t.numVars) :
    t.support = List.range t.numVars := by
  apply List.filter_eq_self.mpr
  have hlen : (List.filter t.hasVar (List.range t.numVars)).length =
      (List.range t.numVars).length := by
    rw [List.length_range]
    exact h
  exact List.length_filter_eq_length_iff.mp hlen

theorem minBase_snd (t : TruthTable) : t.minBase.2 = t.support := by
  unfold minBase
  simp only
  split <;> rfl

theorem numVars_minBase (t : TruthTable) : t.minBase.1.numVars = t.support.length := by
  unfold minBase
  simp only
  split
  · next h => exact h.symm
  · rfl

theorem canonical_minBase (h : t.Canonical) : t.minBase.1.Canonical := by
  unfold minBase
  simp only
  split
  · exact h
  · exact canonical_ofFn (le_trans (length_support_le t) h.numVars_le) _

/-- The shrunk table has the value of the table when its variables take the values of the
support. -/
theorem bit_minBase (h : t.Canonical) {i : Nat} (hi : i < 2 ^ t.numVars) :
    t.minBase.1.bit (codeOf (t.support.map i.testBit)) = t.bit i := by
  unfold minBase
  simp only
  split
  · next hlen => rw [support_eq_range hlen, codeOf_map_testBit hi]
  · have hlt := codeOf_lt (t.support.map i.testBit)
    rw [List.length_map] at hlt
    rw [bit_ofFn, decide_eq_true hlt, Bool.true_and]
    apply bit_eq_of_support h (scatter_lt (fun p hp => (mem_support.mp hp).1) _) hi
    intro v hv
    obtain ⟨k, hk⟩ := List.mem_iff_getElem?.mp hv
    rw [testBit_scatter (nodup_support t) hk, testBit_codeOf, List.getElem?_map, hk]
    rfl

/-- The shrunk table depends on all its variables. -/
theorem hasVar_minBase (h : t.Canonical) {k : Nat} (hk : k < t.minBase.1.numVars) :
    t.minBase.1.hasVar k = true := by
  rw [← Bool.not_eq_false]
  intro hnone
  have hsame := (hasVar_eq_false_iff (canonical_minBase h) hk).mp hnone
  rw [numVars_minBase] at hk
  obtain ⟨hlt, hvar⟩ := mem_support.mp (List.getElem_mem hk)
  refine Bool.false_ne_true (((hasVar_eq_false_iff h hlt).mpr fun code => ?_).symm.trans hvar)
  by_cases hcode : code < 2 ^ t.numVars
  · rw [← bit_minBase h (setVar_lt hlt hcode false), ← bit_minBase h (setVar_lt hlt hcode true),
      codeOf_map_setVar (nodup_support t) (List.getElem?_eq_getElem hk),
      codeOf_map_setVar (nodup_support t) (List.getElem?_eq_getElem hk), hsame]
  · have hout : ∀ value, t.bit (setVar code t.support[k] value) = false := fun value =>
      h.bit_eq_false (Nat.not_lt.mp fun hin => hcode (lt_of_setVar_lt hlt hin))
    rw [hout, hout]

theorem bit_expand (t : TruthTable) (ps : List Nat) {n i : Nat} (hi : i < 2 ^ n) :
    (t.expand ps n).bit i = t.bit (codeOf (ps.map i.testBit)) := by
  rw [expand, bit_ofFn, decide_eq_true hi, Bool.true_and]

@[simp] theorem numVars_expand (t : TruthTable) (ps : List Nat) (n : Nat) :
    (t.expand ps n).numVars = n := rfl

theorem canonical_expand (t : TruthTable) (ps : List Nat) {n : Nat} (hn : n ≤ maxVars) :
    (t.expand ps n).Canonical := canonical_ofFn hn _

end TruthTable

end LogicSynthesis
