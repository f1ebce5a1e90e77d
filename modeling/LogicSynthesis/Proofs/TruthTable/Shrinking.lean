import LogicSynthesis.Proofs.TruthTable.Checked
import LogicSynthesis.Proofs.TruthTable.Dependence

/-!
# Shrinking and expansion

Shrinking a table drops the variables on which it does not depend, and expansion puts the
variables of a table at given positions among others. A dropped variable may have any value, so
the expansion of a shrunk table at its support is the table, whatever its arity and its support.
An expansion depends on the positions of the variables on which the table depends; when the
positions keep the order of the variables, it shrinks to what the table itself shrinks to.

## Main definitions

- `Shrinks` — the result of shrinking a table, with what it promises

## Main statements

- `expand_minBase` — expansion undoes shrinking
- `dependsOn_expand_iff` — what an expansion depends on
- `minBase_expand` — an expansion in order shrinks to the shrunk table
- `shrinking_expansion_inverse` — shrinking and expansion are inverse
-/

namespace LogicSynthesis.TruthTable

variable {t small : TruthTable} {vars ps : List Nat} {m : Nat}

/-- Shrinking `t` gives the table `small` over the variables `vars`: these are the variables on
which `t` depends, in ascending order, and `small` depends on all its variables, one for each. -/
structure Shrinks (t small : TruthTable) (vars : List Nat) : Prop where
  result : Checked.minBase t = .ok (small, vars)
  ascending : vars.Pairwise (· < ·)
  mem_iff : ∀ v, v ∈ vars ↔ t.DependsOn v
  canonical : small.Canonical
  arity : small.numVars = vars.length
  full : ∀ k < small.numVars, small.DependsOn k

theorem dependsOn_minBase (h : t.Canonical) {k : Nat} (hk : k < t.minBase.1.numVars) :
    t.minBase.1.DependsOn k :=
  ⟨hk, (hasVar_iff (canonical_minBase h) hk).mp (hasVar_minBase h hk)⟩

theorem shrinks_minBase (h : t.Canonical) : Shrinks t t.minBase.1 t.support where
  result := by rw [Checked.minBase_eq h, ← minBase_snd]
  ascending := pairwise_support t
  mem_iff _ := mem_support_iff h
  canonical := canonical_minBase h
  arity := numVars_minBase t
  full _ hk := dependsOn_minBase h hk

/-- The values of the variables outside the support do not matter, so they need not be restored. -/
theorem expand_minBase (h : t.Canonical) : t.minBase.1.expand t.support t.numVars = t := by
  refine (canonical_expand _ _ h.numVars_le).ext h rfl fun i hi => ?_
  rw [numVars_expand] at hi
  rw [bit_expand _ _ hi, bit_minBase h hi]

/-- A table that depends on all its variables is not changed. -/
theorem minBase_of_full (h : t.Canonical) (hfull : ∀ k < t.numVars, t.DependsOn k) :
    t.minBase.1 = t ∧ t.support = List.range t.numVars := by
  have hsupport : t.support = List.range t.numVars := by
    refine List.filter_eq_self.mpr fun k hk => ?_
    have hdepends := hfull k (List.mem_range.mp hk)
    exact (hasVar_iff h hdepends.1).mpr hdepends.2
  refine ⟨?_, hsupport⟩
  rw [minBase]
  exact congrArg Prod.fst (if_pos (by rw [hsupport, List.length_range]))

/-! ### Expansions -/

section

variable (hnodup : ps.Nodup) (hlen : ps.length = t.numVars) (hps : ∀ p ∈ ps, p < m)
include hnodup hlen hps

/-- An expansion depends on the positions of the variables on which the table depends. -/
theorem dependsOn_expand_iff {p : Nat} :
    (t.expand ps m).DependsOn p ↔ ∃ v, t.DependsOn v ∧ ps[v]? = some p := by
  constructor
  · rintro ⟨hp, i, hi, hne⟩
    rw [numVars_expand] at hp hi
    rw [bit_expand _ _ (setVar_lt hp hi _), bit_expand _ _ (setVar_lt hp hi _)] at hne
    by_cases hmem : p ∈ ps
    · obtain ⟨v, hv⟩ := List.mem_iff_getElem?.mp hmem
      rw [codeOf_map_setVar hnodup hv, codeOf_map_setVar hnodup hv] at hne
      have hvlt : v < t.numVars := hlen ▸ (List.getElem?_eq_some_iff.mp hv).1
      have hcode := codeOf_lt (ps.map i.testBit)
      rw [List.length_map, hlen] at hcode
      exact ⟨v, ⟨hvlt, _, hcode, hne⟩, hv⟩
    · rw [codeOf_map_setVar_of_notMem hmem, codeOf_map_setVar_of_notMem hmem] at hne
      exact absurd rfl hne
  · rintro ⟨v, ⟨-, code, hcode, hne⟩, hv⟩
    have hp : p < m := hps p (List.mem_of_getElem? hv)
    have hlt := scatter_lt hps code
    refine ⟨hp, scatter ps code, hlt, ?_⟩
    rw [bit_expand _ _ (setVar_lt hp hlt _), bit_expand _ _ (setVar_lt hp hlt _),
      codeOf_map_setVar hnodup hv, codeOf_map_setVar hnodup hv,
      codeOf_map_scatter hnodup (hlen ▸ hcode)]
    exact hne

theorem mem_support_expand (h : t.Canonical) (hm : m ≤ maxVars) {p : Nat} :
    p ∈ (t.expand ps m).support ↔ ∃ v ∈ t.support, ps[v]? = some p := by
  rw [mem_support_iff (canonical_expand t ps hm), dependsOn_expand_iff hnodup hlen hps]
  simp only [mem_support_iff h]

end

section

variable (h : t.Canonical) (hasc : ps.Pairwise (· < ·)) (hlen : ps.length = t.numVars)
  (hps : ∀ p ∈ ps, p < m) (hm : m ≤ maxVars)
include h hasc hlen hps hm

/-- Positions in ascending order keep the order of the support. -/
theorem support_expand :
    (t.expand ps m).support = t.support.map fun v => (ps[v]?).getD 0 := by
  have hplace : ∀ v ∈ t.support, ∃ p, ps[v]? = some p := fun v hv =>
    ⟨_, List.getElem?_eq_getElem (hlen ▸ (mem_support.mp hv).1)⟩
  refine (pairwise_support _).eq_of_mem_iff ?_ fun p => ?_
  · refine List.pairwise_map.mpr ((pairwise_support t).imp_of_mem fun hv hw hlt => ?_)
    obtain ⟨p, hp⟩ := hplace _ hv
    obtain ⟨q, hq⟩ := hplace _ hw
    rw [hp, hq]
    obtain ⟨hvlt, rfl⟩ := List.getElem?_eq_some_iff.mp hp
    obtain ⟨hwlt, rfl⟩ := List.getElem?_eq_some_iff.mp hq
    exact List.pairwise_iff_getElem.mp hasc _ _ hvlt hwlt hlt
  · rw [mem_support_expand (hasc.imp Nat.ne_of_lt) hlen hps h hm, List.mem_map]
    refine exists_congr fun v => and_congr_right fun hv => ?_
    obtain ⟨q, hq⟩ := hplace v hv
    rw [hq, Option.getD_some, Option.some_inj]

/-- An expansion in order shrinks to what the table shrinks to: both have the value of the table
where its variables take the values at their positions. -/
theorem minBase_expand : (t.expand ps m).minBase.1 = t.minBase.1 := by
  have hwide := canonical_expand t ps hm
  have hsupport := support_expand h hasc hlen hps hm
  refine (canonical_minBase hwide).ext (canonical_minBase h) ?_ fun j hj => ?_
  · rw [numVars_minBase, numVars_minBase, hsupport, List.length_map]
  · rw [numVars_minBase] at hj
    -- the assignment that carries `j` at the support of the expansion and is clear elsewhere
    have hi : scatter (t.expand ps m).support j < 2 ^ m :=
      scatter_lt (fun p hp => (mem_support.mp hp).1) j
    have hj' := codeOf_map_scatter (nodup_support _) hj
    generalize scatter (t.expand ps m).support j = i at hi hj'
    have hcode := codeOf_lt (ps.map i.testBit)
    rw [List.length_map, hlen] at hcode
    have hread : t.support.map (codeOf (ps.map i.testBit)).testBit =
        (t.expand ps m).support.map i.testBit := by
      rw [hsupport, List.map_map]
      refine List.map_congr_left fun v hv => ?_
      have hv : v < ps.length := hlen ▸ (mem_support.mp hv).1
      rw [testBit_codeOf, Function.comp_apply, List.getElem?_map, List.getElem?_eq_getElem hv]
      rfl
    calc (t.expand ps m).minBase.1.bit j
        = (t.expand ps m).bit i := by rw [← hj', bit_minBase hwide hi]
      _ = t.bit (codeOf (ps.map i.testBit)) := bit_expand t ps hi
      _ = t.minBase.1.bit (codeOf (t.support.map (codeOf (ps.map i.testBit)).testBit)) :=
          (bit_minBase h hcode).symm
      _ = t.minBase.1.bit j := by rw [hread, hj']

end

/-! ### Both directions -/

/-- Shrinking and expansion are inverse. A table shrinks to one that depends on all its variables,
which the expansion at the support takes back and which shrinks to itself. An expansion at any
distinct positions shrinks to a table over the positions of the support, and to the same table
when the positions are in ascending order. -/
theorem shrinking_expansion_inverse (h : t.Canonical) :
    ∃ small vars, Shrinks t small vars ∧ Checked.expand small vars t.numVars = .ok t ∧
      Shrinks small small (List.range small.numVars) ∧
      ∀ m ≤ maxVars, ∀ ps : List Nat, ps.Nodup → ps.length = t.numVars → (∀ p ∈ ps, p < m) →
        ∃ wide shrunk places, Checked.expand t ps m = .ok wide ∧ wide.Canonical ∧
          Shrinks wide shrunk places ∧
          (∀ p, p ∈ places ↔ ∃ v ∈ vars, ps[v]? = some p) ∧
          (ps.Pairwise (· < ·) → shrunk = small) := by
  have hsmall := shrinks_minBase h
  refine ⟨_, _, hsmall, ?_, ?_, fun m hm ps hnodup hlen hps => ?_⟩
  · rw [Checked.expand_eq hsmall.canonical hsmall.arity.symm
      (fun v hv => ((hsmall.mem_iff v).mp hv).1) h.numVars_le, expand_minBase h]
  · have hagain := shrinks_minBase hsmall.canonical
    obtain ⟨hsame, hall⟩ := minBase_of_full hsmall.canonical hsmall.full
    rwa [hsame, hall] at hagain
  · exact ⟨_, _, _, Checked.expand_eq h hlen hps hm, canonical_expand t ps hm,
      shrinks_minBase (canonical_expand t ps hm),
      fun p => mem_support_expand hnodup hlen hps h hm,
      fun hasc => minBase_expand h hasc hlen hps hm⟩

/-- The exclusive or of the odd ones of four variables. -/
def oddVarsParity : TruthTable := (proj 4 1).xor (proj 4 3)

theorem canonical_oddVarsParity : oddVarsParity.Canonical :=
  (canonical_proj (by decide) 1).xor (canonical_proj (by decide) 3) rfl

theorem minBase_oddVarsParity : Checked.minBase oddVarsParity = .ok (ofWord 2 6, [1, 3]) := by
  rw [Checked.minBase_eq canonical_oddVarsParity]
  cbv

/-- From one word to sixteen and back, with the support moved to other positions. -/
theorem shrinking_expansion_inverse_oddVarsParity :
    oddVarsParity.Canonical ∧ Checked.expand (ofWord 2 6) [1, 3] 4 = .ok oddVarsParity ∧
      ∃ wide, Checked.expand oddVarsParity [2, 5, 7, 9] 10 = .ok wide ∧
        Checked.minBase wide = .ok (ofWord 2 6, [5, 9]) := by
  obtain ⟨small, vars, hsmall, hback, -, hwiden⟩ :=
    shrinking_expansion_inverse canonical_oddVarsParity
  obtain ⟨rfl, rfl⟩ : small = ofWord 2 6 ∧ vars = [1, 3] := by
    simpa using hsmall.result.symm.trans minBase_oddVarsParity
  obtain ⟨wide, shrunk, places, hwide, -, hshrunk, hplaces, hsame⟩ :=
    hwiden 10 (by decide) [2, 5, 7, 9] (by decide) rfl (by decide)
  obtain rfl : shrunk = ofWord 2 6 := hsame (by decide)
  obtain rfl : places = [5, 9] := by
    refine hshrunk.ascending.eq_of_mem_iff (by decide) fun p => ?_
    rw [hplaces p]
    simp [eq_comm]
  exact ⟨canonical_oddVarsParity, hback, wide, hwide, hshrunk.result⟩

end LogicSynthesis.TruthTable
