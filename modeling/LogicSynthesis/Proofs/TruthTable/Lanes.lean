import LogicSynthesis.Proofs.TruthTable.Pointwise

/-!
# Compositions of tables and of words

A table can be composed with tables, or with words, one for each of its variables. Both compositions
are sums over the assignments of the variables. At an index of the tables, or in a lane of the
words, the inputs form a single assignment, so one term of the sum decides, and the result has the
value of the table on this assignment. The words of a composition are therefore the compositions of
the words, except that a table of fewer than six variables keeps the lanes beyond its last
assignment clear.

## Main definitions

- `TruthTable.word` — the values of a table at 64 assignments in a row

## Main statements

- `compose_nil` — a table without variables is its own composition
- `tabulates_compose` — the table of a substitution
- `word_compose` — the words of a composition
- `compositions_substitute` — both compositions substitute the inputs for the variables
-/

namespace LogicSynthesis.TruthTable

variable {t : TruthTable} {inputs : List TruthTable} {n : Nat}

/-- The `q`-th word of a table; clear where no word is stored. -/
def word (t : TruthTable) (q : Nat) : UInt64 := (t.words[q]?).getD 0

/-- Lane `b` of the `q`-th word belongs to the assignment `64 * q + b`. -/
theorem wordBit_word (t : TruthTable) (q : Nat) {b : Nat} (hb : b < 64) :
    wordBit (t.word q) b = t.bit (64 * q + b) := by
  have hdiv : (64 * q + b) / 64 = q := by omega
  have hmod : (64 * q + b) % 64 = b := by omega
  rw [bit, hdiv, hmod, word]
  cases t.words[q]? with
  | some w => rfl
  | none => exact wordBit_zero b

/-- Only the assignments of a table have a lane among the used bits of its words. -/
theorem wordBit_usedBits_iff {q b : Nat} (hq : q < wordCount n) (hb : b < 64) :
    wordBit (usedBits n) b = true ↔ 64 * q + b < 2 ^ n := by
  rw [wordBit_usedBits hb, decide_eq_true_iff]
  by_cases hn : 6 ≤ n
  · have hwords := mul_wordCount hn
    have hpow : 2 ^ 6 ≤ 2 ^ n := Nat.pow_le_pow_right (by decide) hn
    omega
  · rw [wordCount_of_le (by omega)] at hq
    omega

/-- A table without variables has one value, and nothing is substituted. -/
theorem compose_nil (ht : t.Canonical) (hn : t.numVars = 0) : t.compose [] = t := by
  have harity : OfArity 0 [] := List.forall_mem_nil _
  have hcommon : commonVars [] ≤ maxVars := Nat.zero_le _
  have hvars : (t.compose []).numVars = t.numVars := (numVars_compose harity hcommon).trans hn.symm
  refine (canonical_compose harity hcommon).ext ht hvars fun m hm => ?_
  rw [hvars, hn, Nat.pow_zero, Nat.lt_one_iff] at hm
  rw [bit_compose harity hcommon hn.symm (hm ▸ Nat.two_pow_pos _), hm]
  rfl

section

variable (h : OfArity n inputs) (hlen : inputs.length = t.numVars)
  (hcommon : commonVars inputs ≤ maxVars)
include h hlen hcommon

/-- The words of a composition are the compositions of the words, on the used bits. -/
theorem word_compose {q : Nat} (hq : q < wordCount (commonVars inputs)) :
    (t.compose inputs).word q =
      t.composeWord (inputs.map (·.word q)) &&& usedBits (commonVars inputs) := by
  apply word_ext
  intro b hb
  have hlane : (inputs.map (·.word q)).map (wordBit · b) = inputs.map (·.bit (64 * q + b)) := by
    rw [List.map_map]
    exact List.map_congr_left fun input _ => wordBit_word input q hb
  rw [wordBit_word _ _ hb, wordBit_and _ _ hb,
    wordBit_composeWord (by rwa [List.length_map]) hb, hlane]
  by_cases hin : 64 * q + b < 2 ^ commonVars inputs
  · rw [(wordBit_usedBits_iff hq hb).mpr hin, Bool.and_true, bit_compose h hcommon hlen hin]
  · have hclear : wordBit (usedBits (commonVars inputs)) b = false :=
      Bool.eq_false_iff.mpr fun hbit => hin ((wordBit_usedBits_iff hq hb).mp hbit)
    rw [hclear, Bool.and_false]
    refine (canonical_compose h hcommon).bit_eq_false ?_
    rw [numVars_compose h hcommon]
    exact Nat.not_lt.mp hin

end

/-- Canonical tables have an arity for which tables are made. -/
theorem commonVars_le (h : OfArity n inputs) : commonVars inputs ≤ maxVars := by
  by_cases hne : inputs = []
  · rw [hne]
    exact Nat.zero_le _
  · obtain ⟨input, hinput⟩ := List.exists_mem_of_ne_nil inputs hne
    obtain ⟨hcanonical, hvars⟩ := h input hinput
    rw [commonVars_eq h hne, ← hvars]
    exact hcanonical.numVars_le

/-- The table of a substitution. -/
theorem tabulates_compose (ht : t.Canonical) (h : OfArity n inputs)
    (hlen : inputs.length = t.numVars) (hpos : 1 ≤ t.numVars) :
    Tabulates (Checked.compose t inputs) n fun m => t.bit (codeOf (inputs.map (·.bit m))) := by
  have hcommon := commonVars_le h
  have hn : commonVars inputs = n := commonVars_eq h (List.ne_nil_of_length_pos (hlen.symm ▸ hpos))
  refine ⟨_, Checked.compose_eq ht h hcommon hlen, canonical_compose h hcommon,
    (numVars_compose h hcommon).trans hn, fun m hm => ?_⟩
  exact bit_compose h hcommon hlen (hn.symm ▸ hm)

/-- Canonical tables stand for the variables of a canonical table. The composition exists and is
canonical, and its value at an assignment is that of the table on the values of the inputs there; a
table without variables is returned as it is. With words for the variables, each lane of the result
has the value of the table on the lanes of the words. So each word of a composition of tables is the
composition of the words of the inputs, on the bits that the arity uses. -/
theorem compositions_substitute (ht : t.Canonical) (h : OfArity n inputs)
    (hlen : inputs.length = t.numVars) :
    (1 ≤ t.numVars → Tabulates (Checked.compose t inputs) n fun m =>
      t.bit (codeOf (inputs.map (·.bit m)))) ∧
    (t.numVars = 0 → Checked.compose t inputs = .ok t) ∧
    (∀ words : List UInt64, words.length = t.numVars → ∃ w, Checked.composeWord t words = .ok w ∧
      ∀ b < 64, wordBit w b = t.bit (codeOf (words.map (wordBit · b)))) ∧
    ∀ out, Checked.compose t inputs = .ok out → ∀ q < wordCount out.numVars, ∃ w,
      Checked.composeWord t (inputs.map (·.word q)) = .ok w ∧
        out.word q = w &&& usedBits out.numVars := by
  have hcommon := commonVars_le h
  refine ⟨tabulates_compose ht h hlen, fun hzero => ?_, fun words hwords => ?_,
    fun out hout q hq => ?_⟩
  · obtain rfl : inputs = [] := List.eq_nil_of_length_eq_zero (hlen.trans hzero)
    rw [Checked.compose_eq ht h hcommon hlen, compose_nil ht hzero]
  · exact ⟨_, Checked.composeWord_eq ht hwords, fun b hb => wordBit_composeWord hwords hb⟩
  · obtain rfl := Except.ok.inj ((Checked.compose_eq ht h hcommon hlen).symm.trans hout)
    rw [numVars_compose h hcommon] at hq ⊢
    exact ⟨_, Checked.composeWord_eq ht (by rwa [List.length_map]), word_compose h hlen hcommon hq⟩

/-- The conjunction of two functions of seven variables, and of two words. The last variable is
false throughout the first word and true throughout the second. -/
theorem compositions_substitute_twoWords :
    (∃ out, Checked.compose (ofWord 2 8) [proj 7 6, (proj 7 0).not] = .ok out ∧ out.Canonical ∧
      out.bit 66 = true ∧ out.bit 67 = false ∧ ∃ w, Checked.composeWord (ofWord 2 8)
        [0xFFFFFFFFFFFFFFFF, 0x5555555555555555] = .ok w ∧ out.word 1 = w) ∧
    ∃ w, Checked.composeWord (ofWord 2 8) [0xC, 0xA] = .ok w ∧
      wordBit w 3 = true ∧ wordBit w 2 = false := by
  have hn : 7 ≤ maxVars := by decide
  have harity : OfArity 7 [proj 7 6, (proj 7 0).not] := by
    simp [OfArity, canonical_proj hn, (canonical_proj hn 0).not]
  have htable : (ofWord 2 8).Canonical := canonical_ofWord (by decide) 8
  have hinputs : [proj 7 6, (proj 7 0).not].map (·.word 1) =
      [0xFFFFFFFFFFFFFFFF, 0x5555555555555555] := by cbv
  obtain ⟨htables, -, hwords, hagree⟩ := compositions_substitute htable harity rfl
  obtain ⟨out, hout, hcanonical, hvars, hbit⟩ := htables (by decide)
  obtain ⟨v, hv, hword⟩ := hagree out hout 1 (by rw [hvars]; decide)
  obtain ⟨w, hw, hlanes⟩ := hwords [0xC, 0xA] rfl
  refine ⟨⟨out, hout, hcanonical, ?_, ?_, v, hinputs ▸ hv, ?_⟩, w, hw, ?_, ?_⟩
  · rw [hbit 66 (by decide)]
    cbv
  · rw [hbit 67 (by decide)]
    cbv
  · rw [hword, hvars]
    exact UInt64.and_neg_one
  · rw [hlanes 3 (by decide)]
    cbv
  · rw [hlanes 2 (by decide)]
    cbv

end LogicSynthesis.TruthTable
