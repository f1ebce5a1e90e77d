import LogicSynthesis.TruthTable.Checked
import LogicSynthesis.Proofs.Outcome
import LogicSynthesis.Proofs.TruthTable.Variables

/-!
# Operations with their conditions

A canonical table stores every word that an operation may ask for. The checked operations
therefore have a result on canonical tables whose arities fit, and it is the one that their total
counterparts give.

## Main statements

- `Canonical.trimmable`, `Canonical.complete` — the words are there
- `Checked.zipWords_eq`, `Checked.maj_eq`, `Checked.ite_eq` — operations on tables of one arity
- `Checked.cofactor0_eq`, `Checked.hasVar_eq`, `Checked.support_eq` — what fixes a variable
- `Checked.minBase_eq`, `Checked.expand_eq` — changes of variables
-/

namespace LogicSynthesis.TruthTable

variable {a b c t : TruthTable} {n v i : Nat}

theorem Canonical.trimmable (h : t.Canonical) : t.trimmable = true := by
  have hpos := div_lt_wordCount (Nat.two_pow_pos t.numVars)
  rw [← h.size_eq] at hpos
  rw [TruthTable.trimmable, Bool.or_eq_true, Bool.not_eq_true', Array.isEmpty_eq_false_iff]
  right
  rintro hempty
  rw [hempty] at hpos
  exact absurd hpos (Nat.not_lt_zero _)

theorem Canonical.complete (h : t.Canonical) : t.complete = true := by
  rw [TruthTable.complete, decide_eq_true_iff, numBits_eq, h.size_eq]
  have hlast := div_lt_wordCount (Nat.sub_lt (Nat.two_pow_pos t.numVars) Nat.one_pos)
  omega

theorem Canonical.numVars_lt (h : t.Canonical) : t.numVars < 64 :=
  lt_of_le_of_lt h.numVars_le (by decide)

namespace Checked

/-! ### Constants, projections and words -/

theorem const0_eq (hn : n ≤ maxVars) : const0 n = .ok (zero n) := by
  rw [const0, require_of (decide_eq_true hn)]
  rfl

theorem const1_eq (hn : n ≤ maxVars) : const1 n = .ok (one n) := by
  rw [const1, require_of (decide_eq_true hn)]
  rfl

theorem var_eq (hv : v < n) (hn : n ≤ maxVars) : var n v = .ok (proj n v) := by
  rw [var, require_of (decide_eq_true hv), ok_bind, require_of (decide_eq_true hn)]
  rfl

theorem ofWord_eq (hn : n ≤ 6) (w : UInt64) : ofWord n w = .ok (TruthTable.ofWord n w) := by
  rw [ofWord, require_of (decide_eq_true hn)]
  rfl

/-! ### Single bits -/

theorem checkBit_eq (h : t.Canonical) (hi : i < 2 ^ t.numVars) : checkBit t i = .ok () := by
  have hbits : numBits t = .ok t.numBits := by
    rw [numBits, require_of (decide_eq_true h.numVars_lt)]
    rfl
  have hlt : i / 64 < t.words.size := h.size_eq ▸ div_lt_wordCount hi
  rw [checkBit, hbits, ok_bind, numBits_eq, require_of (decide_eq_true hi), ok_bind,
    require_of (decide_eq_true hlt)]

theorem bit_eq (h : t.Canonical) (hi : i < 2 ^ t.numVars) : bit t i = .ok (t.bit i) := by
  rw [bit, checkBit_eq h hi]
  rfl

theorem setBit_eq (h : t.Canonical) (hi : i < 2 ^ t.numVars) (value : Bool) :
    setBit t i value = .ok (t.setBit i value) := by
  rw [setBit, checkBit_eq h hi]
  rfl

/-! ### Operations of one arity -/

theorem not_eq (h : t.Canonical) : Checked.not t = .ok t.not := by
  rw [Checked.not, require_of h.trimmable]
  rfl

theorem withPolarity_eq (h : t.Canonical) (negate : Bool) :
    withPolarity t negate = .ok (t.withPolarity negate) := by
  cases negate
  · rfl
  · exact not_eq h

theorem isConst1_eq (h : t.Canonical) : isConst1 t = .ok t.isConst1 := by
  rw [isConst1, not_eq h]
  rfl

theorem zipWords_eq (op : UInt64 → UInt64 → UInt64) (ha : a.Canonical) (hb : b.Canonical)
    (hn : a.numVars = b.numVars) : zipWords op a b = .ok (TruthTable.zipWords op a b) := by
  rw [zipWords, require_of (beq_iff_eq.mpr hn), ok_bind, ha.trimmable, hb.trimmable,
    Bool.true_and, require_of rfl]
  rfl

theorem and_eq (ha : a.Canonical) (hb : b.Canonical) (hn : a.numVars = b.numVars) :
    Checked.and a b = .ok (a.and b) := zipWords_eq _ ha hb hn

theorem or_eq (ha : a.Canonical) (hb : b.Canonical) (hn : a.numVars = b.numVars) :
    Checked.or a b = .ok (a.or b) := zipWords_eq _ ha hb hn

theorem xor_eq (ha : a.Canonical) (hb : b.Canonical) (hn : a.numVars = b.numVars) :
    Checked.xor a b = .ok (a.xor b) := zipWords_eq _ ha hb hn

theorem maj_eq (ha : a.Canonical) (hb : b.Canonical) (hc : c.Canonical)
    (hab : a.numVars = b.numVars) (hac : a.numVars = c.numVars) :
    maj a b c = .ok (TruthTable.maj a b c) := by
  have hbc : b.numVars = c.numVars := hab ▸ hac
  rw [maj, and_eq ha hb hab, ok_bind, and_eq ha hc hac, ok_bind,
    or_eq (ha.and hb hab) (ha.and hc hac) (by simp), ok_bind, and_eq hb hc hbc, ok_bind,
    or_eq ((ha.and hb hab).or (ha.and hc hac) (by simp)) (hb.and hc hbc) (by simpa using hab)]
  rfl

theorem ite_eq (ha : a.Canonical) (hb : b.Canonical) (hc : c.Canonical)
    (hab : a.numVars = b.numVars) (hac : a.numVars = c.numVars) :
    Checked.ite a b c = .ok (TruthTable.ite a b c) := by
  have hac' : a.not.numVars = c.numVars := by simpa using hac
  rw [Checked.ite, and_eq ha hb hab, ok_bind, not_eq ha, ok_bind, and_eq ha.not hc hac', ok_bind,
    or_eq (ha.and hb hab) (ha.not.and hc hac') (by simp)]
  rfl

/-! ### Operations that fix a variable -/

theorem checkCofactor_eq (h : t.Canonical) (hv : v < t.numVars) :
    checkCofactor t v = .ok () := by
  have hword : v < 70 := lt_trans (lt_of_lt_of_le hv h.numVars_le) (by decide)
  rw [checkCofactor, require_of (decide_eq_true hv), ok_bind, require_of (decide_eq_true hword),
    ok_bind, require_of h.trimmable]

theorem cofactor0_eq (h : t.Canonical) (hv : v < t.numVars) :
    cofactor0 t v = .ok (t.cofactor0 v) := by
  rw [cofactor0, checkCofactor_eq h hv]
  rfl

theorem cofactor1_eq (h : t.Canonical) (hv : v < t.numVars) :
    cofactor1 t v = .ok (t.cofactor1 v) := by
  rw [cofactor1, checkCofactor_eq h hv]
  rfl

theorem hasVar_eq (h : t.Canonical) (hv : v < t.numVars) : hasVar t v = .ok (t.hasVar v) := by
  rw [hasVar, checkCofactor_eq h hv]
  rfl

theorem support_eq (h : t.Canonical) : support t = .ok t.support := by
  have hwords : t.numVars ≤ 70 := h.numVars_le.trans (by decide)
  rw [support, require_of (decide_eq_true hwords), ok_bind, h.trimmable, Bool.or_true,
    require_of rfl]
  rfl

/-! ### Changes of variables -/

theorem minBase_eq (h : t.Canonical) : minBase t = .ok t.minBase := by
  have hvars : t.support.length ≤ maxVars := (length_support_le t).trans h.numVars_le
  rw [minBase, support_eq h, ok_bind, TruthTable.minBase]
  split
  · rfl
  · rw [require_of (decide_eq_true hvars), ok_bind, require_of (decide_eq_true h.numVars_lt),
      ok_bind, h.complete, Bool.true_or, require_of rfl]
    rfl

theorem expand_eq (h : t.Canonical) {ps : List Nat} (hlen : ps.length = t.numVars)
    (hps : ∀ p ∈ ps, p < n) (hn : n ≤ maxVars) : expand t ps n = .ok (t.expand ps n) := by
  have hall : (ps.all fun p => decide (p < n)) = true := by simpa using hps
  rw [expand, require_of (beq_iff_eq.mpr hlen), ok_bind, require_of hall, ok_bind,
    require_of (decide_eq_true hn), ok_bind, require_of (decide_eq_true h.numVars_lt), ok_bind,
    h.complete, Bool.true_or, require_of rfl]
  rfl

end Checked

end LogicSynthesis.TruthTable
