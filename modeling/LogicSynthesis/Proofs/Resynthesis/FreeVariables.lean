import LogicSynthesis.Proofs.TruthTable.Variables
import LogicSynthesis.Resynthesis.Shannon

/-!
# Dropping variables that do not matter

A function matters on its care set only. Merging the assignments that differ in a variable without
influence changes the function and the care set together: the care set may grow, but where an
assignment mattered before, the function is the same. Afterwards a variable on which either table
depends is one that makes a difference between two assignments that matter.

## Main definitions

- `Shannon.OverVars`, `Shannon.Within` — a function and its care set, outside which it is false
- `Shannon.Refines` — a function that agrees with another where that one matters
- `Shannon.IsCofactor` — a table with a value for a variable
- `Shannon.Uses`, `Shannon.weight` — the variables of both tables together

## Main statements

- `depends_iff` — when a variable makes a difference that matters
- `dropFreeVars_spec` — what dropping the variables does
- `IsCofactor.weight_lt` — splitting on a variable makes the tables lighter
-/

namespace LogicSynthesis.Shannon

open TruthTable

variable {n v w : Nat} {on care on' care' : TruthTable}

/-- A function and a care set over `n` variables. -/
structure OverVars (n : Nat) (on care : TruthTable) : Prop where
  on_canonical : on.Canonical
  care_canonical : care.Canonical
  on_vars : on.numVars = n
  care_vars : care.numVars = n

/-- The function is false wherever it does not matter. -/
structure Within (n : Nat) (on care : TruthTable) : Prop extends OverVars n on care where
  within : ∀ i, on.bit i = true → care.bit i = true

/-- Where the function `on` matters, `on'` matters too and is the same. -/
def Refines (on care on' care' : TruthTable) : Prop :=
  ∀ i, care.bit i = true → care'.bit i = true ∧ on'.bit i = on.bit i

theorem Refines.refl (on care : TruthTable) : Refines on care on care := fun _ h => ⟨h, rfl⟩

theorem Refines.trans {on'' care'' : TruthTable} (h : Refines on care on' care')
    (h' : Refines on' care' on'' care'') : Refines on care on'' care'' := by
  intro i hi
  obtain ⟨hcare, hon⟩ := h i hi
  obtain ⟨hcare', hon'⟩ := h' i hcare
  exact ⟨hcare', hon'.trans hon⟩

theorem OverVars.bit_and (h : OverVars n on care) (i : Nat) :
    (on.and care).bit i = (on.bit i && care.bit i) :=
  TruthTable.bit_and h.on_canonical h.care_canonical (h.on_vars.trans h.care_vars.symm) i

theorem within_and (h : OverVars n on care) : Within n (on.and care) care := by
  have hvars : on.numVars = care.numVars := h.on_vars.trans h.care_vars.symm
  have hcanonical := h.on_canonical.and h.care_canonical hvars
  refine ⟨⟨hcanonical, h.care_canonical, by simpa using h.on_vars, h.care_vars⟩, ?_⟩
  intro i hi
  rw [h.bit_and, Bool.and_eq_true] at hi
  exact hi.2

theorem Within.and_eq (h : Within n on care) : on.and care = on := by
  have hvars : on.numVars = care.numVars := h.on_vars.trans h.care_vars.symm
  apply (h.on_canonical.and h.care_canonical hvars).ext h.on_canonical (by simp)
  intro i _
  rw [h.bit_and]
  cases hi : on.bit i with
  | false => rfl
  | true => exact h.within i hi

/-- One of the tables depends on the variable. -/
def Uses (on care : TruthTable) (v : Nat) : Prop := on.hasVar v = true ∨ care.hasVar v = true

instance (on care : TruthTable) : DecidablePred (Uses on care) :=
  fun _ => inferInstanceAs (Decidable (_ ∨ _))

theorem not_uses_iff : ¬ Uses on care v ↔ on.hasVar v = false ∧ care.hasVar v = false := by
  rw [Uses, not_or, Bool.not_eq_true, Bool.not_eq_true]

/-- An assignment is one of the two that differ from it at most in a variable. -/
theorem setVar_self (i v : Nat) : setVar i v false = i ∨ setVar i v true = i := by
  cases hb : i.testBit v with
  | false => exact .inl (setVar_of_eq hb)
  | true => exact .inr (setVar_of_eq hb)

/-! ### Cofactors -/

/-- `t` is the table `on` with a value for the variable. -/
structure IsCofactor (on : TruthTable) (v : Nat) (value : Bool) (t : TruthTable) : Prop where
  canonical : t.Canonical
  vars : t.numVars = on.numVars
  bit : ∀ i, t.bit i = on.bit (setVar i v value)

theorem isCofactor_cofactor0 (h : on.Canonical) (hv : v < on.numVars) :
    IsCofactor on v false (on.cofactor0 v) :=
  ⟨h.cofactor0 v, numVars_cofactor0 on v, bit_cofactor0 h hv⟩

theorem isCofactor_cofactor1 (h : on.Canonical) (hv : v < on.numVars) :
    IsCofactor on v true (on.cofactor1 v) :=
  ⟨h.cofactor1 v, numVars_cofactor1 on v, bit_cofactor1 h hv⟩

namespace IsCofactor

variable {t : TruthTable} {value : Bool}

theorem hasVar (h : IsCofactor on v value t) (hv : v < on.numVars) : t.hasVar v = false := by
  refine (hasVar_eq_false_iff h.canonical (hv.trans_eq h.vars.symm)).mpr fun i => ?_
  rw [h.bit, h.bit, setVar_setVar, setVar_setVar]

/-- A cofactor uses no more than the table. -/
theorem hasVar_of_not (h : IsCofactor on v value t) (hon : on.Canonical) (hv : v < on.numVars)
    (hw : w < on.numVars) (hnot : on.hasVar w = false) : t.hasVar w = false := by
  by_cases heq : w = v
  · rw [heq]
    exact h.hasVar hv
  · refine (hasVar_eq_false_iff h.canonical (hw.trans_eq h.vars.symm)).mpr fun i => ?_
    rw [h.bit, h.bit, setVar_comm heq, setVar_comm heq, bit_setVar_of_not_hasVar hon hw hnot,
      bit_setVar_of_not_hasVar hon hw hnot]

theorem within (hon : IsCofactor on v value on') (hcare : IsCofactor care v value care')
    (h : Within n on care) : Within n on' care' := by
  refine ⟨⟨hon.canonical, hcare.canonical, hon.vars.trans h.on_vars,
    hcare.vars.trans h.care_vars⟩, ?_⟩
  intro i
  rw [hon.bit, hcare.bit]
  exact h.within _

end IsCofactor

/-! ### Variables that make a difference -/

/-- The function depends on a variable when two assignments that matter and differ in the variable
alone have different values. -/
theorem depends_iff (h : Within n on care) (hv : v < n) :
    depends on care v = true ↔ ∃ i, care.bit (setVar i v false) = true ∧
      care.bit (setVar i v true) = true ∧
        on.bit (setVar i v false) ≠ on.bit (setVar i v true) := by
  have hon : v < on.numVars := hv.trans_eq h.on_vars.symm
  have hcare : v < care.numVars := hv.trans_eq h.care_vars.symm
  have hvars : on.numVars = care.numVars := h.on_vars.trans h.care_vars.symm
  have hbit : ∀ i, (((on.cofactor0 v).xor (on.cofactor1 v)).and
      ((care.cofactor0 v).and (care.cofactor1 v))).bit i =
        ((on.bit (setVar i v false) ^^ on.bit (setVar i v true)) &&
          (care.bit (setVar i v false) && care.bit (setVar i v true))) := by
    intro i
    have ho0 := h.on_canonical.cofactor0 v
    have ho1 := h.on_canonical.cofactor1 v
    have hc0 := h.care_canonical.cofactor0 v
    have hc1 := h.care_canonical.cofactor1 v
    have ho : (on.cofactor0 v).numVars = (on.cofactor1 v).numVars := by simp
    have hc : (care.cofactor0 v).numVars = (care.cofactor1 v).numVars := by simp
    rw [bit_and (ho0.xor ho1 ho) (hc0.and hc1 hc) (by simpa using hvars), bit_xor ho0 ho1 ho,
      bit_and hc0 hc1 hc, bit_cofactor0 h.on_canonical hon, bit_cofactor1 h.on_canonical hon,
      bit_cofactor0 h.care_canonical hcare, bit_cofactor1 h.care_canonical hcare]
  rw [depends, Bool.not_eq_true', ← Bool.not_eq_true, isConst0_iff]
  simp only [hbit, not_forall, Bool.not_eq_false, Bool.and_eq_true, bne_iff_ne, ne_eq]
  apply exists_congr
  exact fun i => ⟨fun ⟨hne, h0, h1⟩ => ⟨h0, h1, hne⟩, fun ⟨h0, h1, hne⟩ => ⟨hne, h0, h1⟩⟩

/-- A difference that matters remains one. -/
theorem depends_of_refines (h : Within n on care) (h' : Within n on' care')
    (hrefines : Refines on care on' care') (hv : v < n) (hd : depends on care v = true) :
    depends on' care' v = true := by
  obtain ⟨i, hi0, hi1, hne⟩ := (depends_iff h hv).mp hd
  obtain ⟨hcare0, hon0⟩ := hrefines _ hi0
  obtain ⟨hcare1, hon1⟩ := hrefines _ hi1
  exact (depends_iff h' hv).mpr ⟨i, hcare0, hcare1, by rwa [hon0, hon1]⟩

/-! ### Dropping variables -/

/-- A step keeps what matters, uses no more variables, and settles the variable that it is about. -/
structure Dropped (n : Nat) (on care : TruthTable) (settled : Nat → Prop)
    (state : TruthTable × TruthTable) : Prop where
  within : Within n state.1 state.2
  refines : Refines on care state.1 state.2
  unused : ∀ w < n, ¬ Uses on care w → ¬ Uses state.1 state.2 w
  settled : ∀ w < n, settled w → Uses state.1 state.2 w → depends state.1 state.2 w = true

theorem dropped_refl (h : Within n on care) : Dropped n on care (fun _ => False) (on, care) :=
  ⟨h, .refl on care, fun _ _ h => h, fun _ _ h => h.elim⟩

/-- Dropped variables stay away, and the others go on making a difference. -/
theorem Dropped.trans {settled settled' : Nat → Prop} {state state' : TruthTable × TruthTable}
    (h : Dropped n on care settled state) (h' : Dropped n state.1 state.2 settled' state') :
    Dropped n on care (fun w => settled w ∨ settled' w) state' := by
  refine ⟨h'.within, h.refines.trans h'.refines, ?_, ?_⟩
  · exact fun w hw hnot => h'.unused w hw (h.unused w hw hnot)
  · rintro w hw (hs | hs) huses
    · by_cases hformer : Uses state.1 state.2 w
      · exact depends_of_refines h.within h'.within h'.refines hw (h.settled w hw hs hformer)
      · exact absurd huses (h'.unused w hw hformer)
    · exact h'.settled w hw hs huses

/-- Where one of the assignments that differ in `v` matters, both matter. -/
def mergedCare (care : TruthTable) (v : Nat) : TruthTable :=
  (care.cofactor0 v).or (care.cofactor1 v)

/-- Both assignments take the value of the one that matters. -/
def mergedOn (on care : TruthTable) (v : Nat) : TruthTable :=
  (TruthTable.ite (care.cofactor1 v) (on.cofactor1 v) (on.cofactor0 v)).and (mergedCare care v)

section Merge

variable (h : Within n on care)

include h

theorem overVars_merged (v : Nat) :
    OverVars n (TruthTable.ite (care.cofactor1 v) (on.cofactor1 v) (on.cofactor0 v))
      (mergedCare care v) := by
  have hvars : care.numVars = on.numVars := h.care_vars.trans h.on_vars.symm
  refine ⟨?_, ?_, ?_, ?_⟩
  · exact (h.care_canonical.cofactor1 v).ite (h.on_canonical.cofactor1 v)
      (h.on_canonical.cofactor0 v) (by simpa using hvars) (by simpa using hvars)
  · exact (h.care_canonical.cofactor0 v).or (h.care_canonical.cofactor1 v) (by simp)
  · simpa using h.care_vars
  · simpa [mergedCare] using h.care_vars

theorem within_merged (v : Nat) : Within n (mergedOn on care v) (mergedCare care v) :=
  within_and (overVars_merged h v)

variable (hv : v < n)

include hv

theorem bit_mergedCare (i : Nat) :
    (mergedCare care v).bit i = (care.bit (setVar i v false) || care.bit (setVar i v true)) := by
  have hlt : v < care.numVars := hv.trans_eq h.care_vars.symm
  rw [mergedCare, bit_or (h.care_canonical.cofactor0 v) (h.care_canonical.cofactor1 v) (by simp),
    bit_cofactor0 h.care_canonical hlt, bit_cofactor1 h.care_canonical hlt]

theorem bit_mergedOn (i : Nat) :
    (mergedOn on care v).bit i =
      ((if care.bit (setVar i v true) then on.bit (setVar i v true)
        else on.bit (setVar i v false)) && (mergedCare care v).bit i) := by
  have hon : v < on.numVars := hv.trans_eq h.on_vars.symm
  have hcare : v < care.numVars := hv.trans_eq h.care_vars.symm
  have hvars : care.numVars = on.numVars := h.care_vars.trans h.on_vars.symm
  rw [mergedOn, (overVars_merged h v).bit_and, bit_ite (h.care_canonical.cofactor1 v)
    (h.on_canonical.cofactor1 v) (h.on_canonical.cofactor0 v) (by simpa using hvars)
    (by simpa using hvars), bit_cofactor1 h.care_canonical hcare, bit_cofactor1 h.on_canonical hon,
    bit_cofactor0 h.on_canonical hon]

theorem not_uses_merged : ¬ Uses (mergedOn on care v) (mergedCare care v) v := by
  have hwithin := within_merged h v
  have hcare : ∀ i value,
      (mergedCare care v).bit (setVar i v value) = (mergedCare care v).bit i := by
    intro i value
    simp only [bit_mergedCare h hv, setVar_setVar]
  refine not_uses_iff.mpr ⟨?_, ?_⟩
  · refine (hasVar_eq_false_iff hwithin.on_canonical (hv.trans_eq hwithin.on_vars.symm)).mpr ?_
    intro i
    simp only [bit_mergedOn h hv, setVar_setVar, hcare]
  · refine (hasVar_eq_false_iff hwithin.care_canonical (hv.trans_eq hwithin.care_vars.symm)).mpr ?_
    intro i
    rw [hcare, hcare]

/-- Merging brings in no variable. -/
theorem not_uses_merged_of_not (hw : w < n) (hnot : ¬ Uses on care w) :
    ¬ Uses (mergedOn on care v) (mergedCare care v) w := by
  by_cases heq : w = v
  · rw [heq]
    exact not_uses_merged h hv
  have hwithin := within_merged h v
  obtain ⟨hnot, hnot'⟩ := not_uses_iff.mp hnot
  have hon : ∀ i x y, on.bit (setVar (setVar i w x) v y) = on.bit (setVar i v y) := by
    intro i x y
    rw [setVar_comm heq,
      bit_setVar_of_not_hasVar h.on_canonical (hw.trans_eq h.on_vars.symm) hnot]
  have hcare : ∀ i x y, care.bit (setVar (setVar i w x) v y) = care.bit (setVar i v y) := by
    intro i x y
    rw [setVar_comm heq,
      bit_setVar_of_not_hasVar h.care_canonical (hw.trans_eq h.care_vars.symm) hnot']
  refine not_uses_iff.mpr ⟨?_, ?_⟩
  · refine (hasVar_eq_false_iff hwithin.on_canonical (hw.trans_eq hwithin.on_vars.symm)).mpr ?_
    intro i
    simp only [bit_mergedOn h hv, bit_mergedCare h hv, hon, hcare]
  · refine (hasVar_eq_false_iff hwithin.care_canonical (hw.trans_eq hwithin.care_vars.symm)).mpr ?_
    intro i
    simp only [bit_mergedCare h hv, hcare]

/-- Merging keeps the function where it mattered, if the variable makes no difference there. -/
theorem refines_merged (hd : depends on care v = false) :
    Refines on care (mergedOn on care v) (mergedCare care v) := by
  have hsame : ∀ i, care.bit (setVar i v false) = true → care.bit (setVar i v true) = true →
      on.bit (setVar i v false) = on.bit (setVar i v true) := by
    intro i h0 h1
    by_contra hne
    rw [(depends_iff h hv).mpr ⟨i, h0, h1, hne⟩] at hd
    cases hd
  intro i hi
  have hcares : (mergedCare care v).bit i = true := by
    rw [bit_mergedCare h hv, Bool.or_eq_true]
    rcases setVar_self i v with heq | heq
    · exact .inl (by rwa [heq])
    · exact .inr (by rwa [heq])
  refine ⟨hcares, ?_⟩
  rw [bit_mergedOn h hv, hcares, Bool.and_true]
  -- The assignment is one of the two that were merged.
  rcases setVar_self i v with heq | heq
  · split
    · next h1 => rw [← hsame i (by rwa [heq]) h1, heq]
    · rw [heq]
  · rw [heq, if_pos hi]

theorem dropped_merge (hd : depends on care v = false) :
    Dropped n on care (· = v) (mergedOn on care v, mergedCare care v) := by
  refine ⟨within_merged h v, refines_merged h hv hd,
    fun w hw => not_uses_merged_of_not h hv hw, ?_⟩
  rintro w - rfl huses
  exact absurd huses (not_uses_merged h hv)

end Merge

theorem dropFreeVar_spec (h : Within n on care) (hv : v < n) :
    Dropped n on care (· = v) (dropFreeVar (on, care) v) := by
  dsimp only [dropFreeVar]
  split
  · next hdrop =>
    rw [Bool.and_eq_true, Bool.not_eq_true'] at hdrop
    exact dropped_merge h hv hdrop.2
  · next hkeep =>
    refine ⟨h, .refl on care, fun _ _ h => h, ?_⟩
    rintro w - rfl huses
    have hor : (on.hasVar w || care.hasVar w) = true := Bool.or_eq_true_iff.mpr huses
    rw [hor, Bool.true_and, Bool.not_eq_true', Bool.not_eq_false] at hkeep
    exact hkeep

/-- Afterwards every variable that is used makes a difference that matters. -/
theorem dropFreeVars_spec (h : Within n on care) :
    Dropped n on care (· < n) (dropFreeVars on care) := by
  -- What the first variables were settled to holds on while the others are dropped.
  have hfold : ∀ k ≤ n,
      Dropped n on care (· < k) ((List.range k).foldl dropFreeVar (on, care)) := by
    intro k
    induction k with
    | zero =>
      intro _
      have hstart := dropped_refl h
      exact ⟨hstart.within, hstart.refines, hstart.unused,
        fun w _ hw => absurd hw (Nat.not_lt_zero w)⟩
    | succ k ih =>
      intro hk
      have hformer := ih (Nat.le_of_succ_le hk)
      have hstep := hformer.trans (dropFreeVar_spec hformer.within (Nat.lt_of_succ_le hk))
      rw [List.range_succ, List.foldl_append]
      refine ⟨hstep.within, hstep.refines, hstep.unused, fun w hw hlt => ?_⟩
      exact hstep.settled w hw (Nat.lt_succ_iff_lt_or_eq.mp hlt)
  rw [dropFreeVars, h.on_vars]
  exact hfold n (Nat.le_refl n)

/-! ### The measure of the recursion -/

/-- The number of variables that the tables use together. -/
def weight (n : Nat) (on care : TruthTable) : Nat := ((Finset.range n).filter (Uses on care)).card

theorem weight_le (n : Nat) (on care : TruthTable) : weight n on care ≤ n := by
  have hle := Finset.card_filter_le (Finset.range n) (Uses on care)
  rwa [Finset.card_range] at hle

theorem weight_mono (h : ∀ w < n, Uses on' care' w → Uses on care w) :
    weight n on' care' ≤ weight n on care := by
  apply Finset.card_le_card
  intro w hw
  rw [Finset.mem_filter, Finset.mem_range] at hw ⊢
  exact ⟨hw.1, h w hw.1 hw.2⟩

theorem Dropped.weight_le {settled : Nat → Prop} {state : TruthTable × TruthTable}
    (h : Dropped n on care settled state) : weight n state.1 state.2 ≤ weight n on care :=
  weight_mono fun w hw huses => by_contra fun hnot => h.unused w hw hnot huses

/-- A variable that is used before and not afterwards makes the tables lighter. -/
theorem weight_lt (h : ∀ w < n, Uses on' care' w → Uses on care w) (hv : v < n)
    (huses : Uses on care v) (hnot : ¬ Uses on' care' v) :
    weight n on' care' < weight n on care := by
  apply Finset.card_lt_card
  refine ⟨?_, ?_⟩
  · intro w hw
    rw [Finset.mem_filter, Finset.mem_range] at hw ⊢
    exact ⟨hw.1, h w hw.1 hw.2⟩
  · intro hsub
    have hmem : v ∈ (Finset.range n).filter (Uses on care) :=
      Finset.mem_filter.mpr ⟨Finset.mem_range.mpr hv, huses⟩
    exact hnot (Finset.mem_filter.mp (hsub hmem)).2

theorem IsCofactor.weight_lt {value : Bool} (hon : IsCofactor on v value on')
    (hcare : IsCofactor care v value care') (h : Within n on care) (hv : v < n)
    (huses : Uses on care v) : weight n on' care' < weight n on care := by
  have hv' : v < on.numVars := hv.trans_eq h.on_vars.symm
  have hv'' : v < care.numVars := hv.trans_eq h.care_vars.symm
  apply Shannon.weight_lt _ hv huses
  · exact not_uses_iff.mpr ⟨hon.hasVar hv', hcare.hasVar hv''⟩
  · intro w hw huses'
    by_contra hnot
    obtain ⟨hnot, hnot'⟩ := not_uses_iff.mp hnot
    refine not_uses_iff.mpr ⟨?_, ?_⟩ huses'
    · exact hon.hasVar_of_not h.on_canonical hv' (hw.trans_eq h.on_vars.symm) hnot
    · exact hcare.hasVar_of_not h.care_canonical hv'' (hw.trans_eq h.care_vars.symm) hnot'

end LogicSynthesis.Shannon
