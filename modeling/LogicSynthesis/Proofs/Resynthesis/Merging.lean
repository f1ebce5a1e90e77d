import LogicSynthesis.Proofs.Resynthesis.FreeVariables
import LogicSynthesis.Proofs.TruthTable.Dependence

/-!
# What is left after merging

A function with a care set stands for all functions that agree with it where it matters. Dropping
the variables that do not matter picks out fewer of these: the care set grows, and the function is
kept where it mattered before. The variables are visited once, in ascending order, and one visit is
enough. A variable that was dropped does not come back, and a difference that makes a variable
matter is not merged away. So each variable that is left makes a difference between two assignments
that matter, and to drop variables once more changes nothing.

## Main definitions

- `Shannon.Distinguishes` — a variable makes a difference between two assignments that matter
- `Shannon.Merged` — what dropping variables promises

## Main statements

- `depends_iff_distinguishes` — the test for such a variable
- `merged_dropFreeVars`, `dropFreeVars_of_settled` — the promises, and when nothing is dropped
- `merging_keeps_what_matters` — merging is sound, complete and done in one pass
-/

namespace LogicSynthesis.Shannon

open TruthTable

variable {n v : Nat} {on care on' care' : TruthTable}

/-- Two assignments matter that differ in the variable `v` alone, and the function differs between
them. -/
def Distinguishes (on care : TruthTable) (v : Nat) : Prop :=
  ∃ i < 2 ^ care.numVars, care.bit (setVar i v false) = true ∧
    care.bit (setVar i v true) = true ∧ on.bit (setVar i v false) ≠ on.bit (setVar i v true)

theorem depends_iff_distinguishes (h : Within n on care) (hv : v < n) :
    depends on care v = true ↔ Distinguishes on care v := by
  rw [depends_iff h hv]
  refine exists_congr fun i => ⟨fun hi => ⟨?_, hi⟩, And.right⟩
  exact lt_of_setVar_lt (hv.trans_eq h.care_vars.symm) (h.care_canonical.lt_of_bit hi.1)

/-- The variables of two tables together are those on which one of their functions depends. -/
theorem uses_iff_dependsOn (h : OverVars n on care) :
    v < n ∧ Uses on care v ↔ on.DependsOn v ∨ care.DependsOn v := by
  rw [Uses, and_or_left]
  refine or_congr ?_ ?_
  · conv_lhs => rw [← h.on_vars]
    exact and_congr_right fun hv => hasVar_iff h.on_canonical hv
  · conv_lhs => rw [← h.care_vars]
    exact and_congr_right fun hv => hasVar_iff h.care_canonical hv

/-- The function `on` with its care set becomes `on'`. It stays false outside the care set, which
only grows, and it is the same where it mattered. No variable is new, each one that is left makes a
difference that matters, and the variables that made one before are all left. -/
structure Merged (n : Nat) (on care on' care' : TruthTable) : Prop where
  tables : OverVars n on' care'
  within : ∀ i, on'.bit i = true → care'.bit i = true
  grows : ∀ i, care.bit i = true → care'.bit i = true
  agrees : ∀ i, care.bit i = true → on'.bit i = on.bit i
  noneNew : ∀ v, on'.DependsOn v ∨ care'.DependsOn v → on.DependsOn v ∨ care.DependsOn v
  allMatter : ∀ v, on'.DependsOn v ∨ care'.DependsOn v → Distinguishes on' care' v
  stays : ∀ v < n, Distinguishes on care v → Distinguishes on' care' v

theorem merged_dropFreeVars (h : Within n on care) :
    Merged n on care (dropFreeVars on care).1 (dropFreeVars on care).2 := by
  have hdropped := dropFreeVars_spec h
  generalize dropFreeVars on care = state at hdropped
  obtain ⟨on', care'⟩ := state
  have hwithin : Within n on' care' := hdropped.within
  refine ⟨hwithin.toOverVars, hwithin.within, fun i hi => (hdropped.refines i hi).1,
    fun i hi => (hdropped.refines i hi).2, fun v hv => ?_, fun v hv => ?_, fun v hv hd => ?_⟩
  · obtain ⟨hlt, huses⟩ := (uses_iff_dependsOn hwithin.toOverVars).mpr hv
    rw [← uses_iff_dependsOn h.toOverVars]
    exact ⟨hlt, by_contra fun hnot => hdropped.unused v hlt hnot huses⟩
  · obtain ⟨hlt, huses⟩ := (uses_iff_dependsOn hwithin.toOverVars).mpr hv
    exact (depends_iff_distinguishes hwithin hlt).mp (hdropped.settled v hlt hlt huses)
  · rw [← depends_iff_distinguishes hwithin hv]
    exact depends_of_refines h hwithin hdropped.refines hv ((depends_iff_distinguishes h hv).mpr hd)

/-- Nothing is dropped when every variable makes a difference that matters. -/
theorem dropFreeVars_of_settled (hn : on.numVars = n)
    (h : ∀ v < n, Uses on care v → depends on care v = true) :
    dropFreeVars on care = (on, care) := by
  have hstep : ∀ v < n, dropFreeVar (on, care) v = (on, care) := by
    intro v hv
    refine if_neg fun hdrop => ?_
    rw [Bool.and_eq_true, Bool.or_eq_true, Bool.not_eq_true'] at hdrop
    rw [h v hv hdrop.1] at hdrop
    exact Bool.false_ne_true hdrop.2.symm
  rw [dropFreeVars, hn]
  refine List.foldlRecOn (motive := (· = (on, care))) (List.range n) dropFreeVar rfl ?_
  rintro state rfl v hv
  exact hstep v (List.mem_range.mp hv)

/-- A function that is false outside its care set is merged in a single pass: the result keeps what
matters, each variable that is left makes a difference between two assignments that matter, and
another pass leaves it as it is. -/
theorem merging_keeps_what_matters (h : Within n on care) :
    ∃ on' care', dropFreeVars on care = (on', care') ∧ Merged n on care on' care' ∧
      dropFreeVars on' care' = (on', care') := by
  refine ⟨_, _, rfl, merged_dropFreeVars h, ?_⟩
  have hdropped := dropFreeVars_spec h
  exact dropFreeVars_of_settled hdropped.within.on_vars
    fun v hv huses => hdropped.settled v hv hv huses

/-- Two variables are to be both false or both true, and the function tells which. No two of these
assignments differ in one variable alone, so the first variable is dropped. Then the second one
makes a difference and stays. -/
theorem merging_keeps_what_matters_equalPair :
    Within 2 (ofWord 2 8) (ofWord 2 9) ∧
      dropFreeVars (ofWord 2 8) (ofWord 2 9) = (ofWord 2 0xC, ofWord 2 0xF) ∧
      Merged 2 (ofWord 2 8) (ofWord 2 9) (ofWord 2 0xC) (ofWord 2 0xF) := by
  have hcanonical : ∀ w : UInt64, (ofWord 2 w).Canonical := canonical_ofWord (by decide)
  have hwithin : Within 2 (ofWord 2 8) (ofWord 2 9) := by
    refine ⟨⟨hcanonical 8, hcanonical 9, rfl, rfl⟩, fun i hi => ?_⟩
    have hlt : i < 4 := (hcanonical 8).lt_of_bit hi
    interval_cases i <;> revert hi <;> decide
  obtain ⟨on', care', hrun, hmerged, -⟩ := merging_keeps_what_matters hwithin
  have hresult : dropFreeVars (ofWord 2 8) (ofWord 2 9) = (ofWord 2 0xC, ofWord 2 0xF) := by cbv
  obtain ⟨rfl, rfl⟩ := Prod.mk.inj (hrun.symm.trans hresult)
  exact ⟨hwithin, hresult, hmerged⟩

end LogicSynthesis.Shannon
