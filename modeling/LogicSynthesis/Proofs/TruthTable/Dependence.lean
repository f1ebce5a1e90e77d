import LogicSynthesis.Proofs.TruthTable.Variables

/-!
# Dependence on variables

A function depends on a variable when a change of its value alone changes the value of the function
somewhere. The support holds these variables, and it is the least set of variables whose values
determine the function.

## Main definitions

- `TruthTable.DependsOn` — a variable that matters
- `TruthTable.DependsOnlyOn` — variables that determine the function

## Main statements

- `mem_support_iff` — the support holds what the function depends on
- `support_perm` — the support is known from variables that matter and determine the function
- `exists_constant`, `exists_literal` — functions of at most one variable
-/

namespace LogicSynthesis.TruthTable

variable {t : TruthTable} {v : Nat} {vars : List Nat}

/-- Changing the value of variable `v` changes the value of the function somewhere. -/
def DependsOn (t : TruthTable) (v : Nat) : Prop :=
  v < t.numVars ∧ ∃ i < 2 ^ t.numVars, t.bit (setVar i v false) ≠ t.bit (setVar i v true)

/-- The values of some variables determine the value of the function. -/
def DependsOnlyOn (t : TruthTable) (vars : List Nat) : Prop :=
  ∀ i < 2 ^ t.numVars, ∀ j < 2 ^ t.numVars, (∀ v ∈ vars, i.testBit v = j.testBit v) →
    t.bit i = t.bit j

theorem hasVar_iff (h : t.Canonical) (hv : v < t.numVars) :
    t.hasVar v = true ↔
      ∃ i < 2 ^ t.numVars, t.bit (setVar i v false) ≠ t.bit (setVar i v true) := by
  constructor
  · intro hvar
    by_contra! hnone
    refine Bool.false_ne_true (((hasVar_eq_false_iff h hv).mpr fun i => ?_).symm.trans hvar)
    by_cases hi : i < 2 ^ t.numVars
    · exact hnone i hi
    · have hout : ∀ value, t.bit (setVar i v value) = false := fun value =>
        h.bit_eq_false (Nat.not_lt.mp fun hin => hi (lt_of_setVar_lt hv hin))
      rw [hout, hout]
  · rintro ⟨i, -, hne⟩
    by_contra hnot
    exact hne ((hasVar_eq_false_iff h hv).mp (Bool.not_eq_true _ ▸ hnot) i)

theorem mem_support_iff (h : t.Canonical) : v ∈ t.support ↔ t.DependsOn v :=
  mem_support.trans (and_congr_right fun hv => hasVar_iff h hv)

theorem dependsOnlyOn_support (h : t.Canonical) : t.DependsOnlyOn t.support :=
  fun _ hi _ hj hagree => bit_eq_of_support h hi hj hagree

/-- What determines the function holds every variable that matters. -/
theorem DependsOnlyOn.mem (h : t.DependsOnlyOn vars) (hv : t.DependsOn v) : v ∈ vars := by
  obtain ⟨hlt, i, hi, hne⟩ := hv
  by_contra hnot
  refine hne (h _ (setVar_lt hlt hi false) _ (setVar_lt hlt hi true) fun w hw => ?_)
  have hwv : w ≠ v := by
    rintro rfl
    exact hnot hw
  rw [testBit_setVar, testBit_setVar, if_neg hwv, if_neg hwv]

theorem support_perm (h : t.Canonical) (hnodup : vars.Nodup) (honly : t.DependsOnlyOn vars)
    (hall : ∀ v ∈ vars, t.DependsOn v) : t.support.Perm vars := by
  refine (List.perm_ext_iff_of_nodup (nodup_support t) hnodup).mpr fun v => ?_
  rw [mem_support_iff h]
  exact ⟨honly.mem, hall v⟩

/-! ### Functions of at most one variable -/

/-- A constant does not depend on anything. -/
theorem support_eq_nil (h : t.Canonical) {b : Bool} (hbit : ∀ i < 2 ^ t.numVars, t.bit i = b) :
    t.support = [] := by
  have honly : t.DependsOnlyOn [] := fun i hi j hj _ => (hbit i hi).trans (hbit j hj).symm
  exact (support_perm h List.nodup_nil honly (List.forall_mem_nil _)).eq_nil

/-- A literal depends on its variable alone. -/
theorem support_eq_singleton (h : t.Canonical) (hv : v < t.numVars) {negated : Bool}
    (hbit : ∀ i < 2 ^ t.numVars, t.bit i = (i.testBit v ^^ negated)) : t.support = [v] := by
  have honly : t.DependsOnlyOn [v] := by
    intro i hi j hj hagree
    rw [hbit i hi, hbit j hj, hagree v (List.mem_singleton_self v)]
  have hdepends : t.DependsOn v := by
    have hpos := Nat.two_pow_pos t.numVars
    refine ⟨hv, 0, hpos, ?_⟩
    rw [hbit _ (setVar_lt hv hpos _), hbit _ (setVar_lt hv hpos _), testBit_setVar,
      testBit_setVar, if_pos rfl, if_pos rfl]
    cases negated <;> decide
  exact List.perm_singleton.mp (support_perm h (List.nodup_singleton v) honly
    (List.forall_mem_singleton.mpr hdepends))

theorem exists_constant (h : t.Canonical) (hnone : t.support = []) :
    ∃ b, ∀ i < 2 ^ t.numVars, t.bit i = b := by
  refine ⟨t.bit 0, fun i hi => dependsOnlyOn_support h i hi 0 (Nat.two_pow_pos _) ?_⟩
  rw [hnone]
  exact List.forall_mem_nil _

theorem exists_literal (h : t.Canonical) (hone : t.support = [v]) :
    ∃ negated, ∀ i < 2 ^ t.numVars, t.bit i = (i.testBit v ^^ negated) := by
  obtain ⟨hv, j, hj, hne⟩ := (mem_support_iff h).mp (hone ▸ List.mem_singleton_self v)
  -- The value at an assignment is the value at `j`, with the variable set accordingly.
  have hbit : ∀ i < 2 ^ t.numVars, t.bit i = t.bit (setVar j v (i.testBit v)) := by
    intro i hi
    refine dependsOnlyOn_support h i hi _ (setVar_lt hv hj _) ?_
    rw [hone, List.forall_mem_singleton, testBit_setVar, if_pos rfl]
  refine ⟨t.bit (setVar j v false), fun i hi => ?_⟩
  rw [hbit i hi]
  revert hne
  cases i.testBit v <;> cases t.bit (setVar j v false) <;> cases t.bit (setVar j v true) <;> simp

end LogicSynthesis.TruthTable
