import LogicSynthesis.Proofs.Resynthesis.ShannonOracle
import LogicSynthesis.Proofs.TruthTable.Dependence
import LogicSynthesis.Resynthesis.Collapse

/-!
# The proposal of collapsing

Collapsing makes one lookup table of a function. It reads the leaves that the function needs, in
their order, and the table over them has the values of the function because the support determines
them. Constants and projections need no table. Otherwise at most one gate is appended, and its table
depends on everything that it reads.

## Main definitions

- `Query.needed` — the leaves that the function of a query depends on
- `TruthTable.ConstantOrProjection` — the functions that need no table
- `Collapse.Appends` — the gate that is appended
- `Collapse.Outcome` — all that collapsing does

## Main statements

- `Query.Valid.bit_needed` — the table over the needed leaves has the values of the function
- `Collapse.collapseInto_run` — what collapsing makes
- `Oracle.collapse_serves` — the oracle keeps to the terms of any number of queries
- `Oracle.collapse_answers` — the proposal of the oracle
-/

namespace LogicSynthesis

open Network TruthTable

variable {net net' : Network} {q : Query} {width : Nat} {s : Signal}

namespace Query

/-- The leaves that the function depends on, in their order. -/
def needed (q : Query) : List Signal := q.function.support.filterMap fun v => q.leaves[v]?

namespace Valid

theorem map_some_needed (h : q.Valid width net) :
    q.needed.map some = q.function.support.map fun v => q.leaves[v]? := by
  have hall : ∀ vars : List Nat, (∀ v ∈ vars, v < q.leaves.length) →
      (vars.filterMap fun v => q.leaves[v]?).map some = vars.map fun v => q.leaves[v]? := by
    intro vars
    induction vars with
    | nil => exact fun _ => rfl
    | cons v vars ih =>
      intro hlt
      obtain ⟨hv, hvars⟩ := List.forall_mem_cons.mp hlt
      have hleaf := List.getElem?_eq_getElem hv
      rw [List.filterMap_cons_some hleaf, List.map_cons, List.map_cons, ih hvars, hleaf]
  exact hall _ fun v hv => h.arity ▸ (mem_support.mp hv).1

theorem length_needed (h : q.Valid width net) :
    q.needed.length = q.function.minBase.1.numVars := by
  have hlen := congrArg List.length h.map_some_needed
  rwa [List.length_map, List.length_map, ← numVars_minBase] at hlen

theorem needed_lt (h : q.Valid width net) : ∀ s ∈ q.needed, s.node < net.size := by
  intro s hs
  obtain ⟨v, -, hleaf⟩ := List.mem_filterMap.mp hs
  exact h.exist s (List.mem_of_getElem? hleaf)

/-- The needed leaves carry the values of the support. -/
theorem map_needed (h : q.Valid width net) (inputs : Assignment) :
    q.needed.map (net.signalValue inputs) =
      q.function.support.map (q.pattern net inputs).testBit := by
  have hmap := congrArg (List.map fun leaf => (leaf.map (net.signalValue inputs)).getD false)
    h.map_some_needed
  rw [List.map_map, List.map_map] at hmap
  refine hmap.trans (List.map_congr_left fun v _ => ?_)
  rw [Query.pattern, testBit_codeOf, List.getElem?_map]
  rfl

/-- The table over the needed leaves has the values of the function. -/
theorem bit_needed (h : q.Valid width net) (inputs : Assignment) :
    q.function.minBase.1.bit (codeOf (q.needed.map (net.signalValue inputs))) =
      q.function.bit (q.pattern net inputs) := by
  have hlt := q.pattern_lt net inputs
  rw [← h.arity] at hlt
  rw [h.map_needed, bit_minBase h.canonical hlt]

end Valid

end Query

namespace Build

/-- A lookup table with fanins is the gate of its function. -/
theorem lut_of_createNode {fanins : List Signal} {t : TruthTable} (hne : fanins ≠ [])
    (hlen : fanins.length = t.numVars) {n : NodeId}
    (hcreate : (net.insertFunction t).2.createNode fanins (net.insertFunction t).1 =
      .ok (n, net')) : lut fanins t net = .ok (.ofNode n, net') := by
  have hrun : function t net = .ok (net.insertFunction t) := rfl
  rw [lut_of_length hlen, if_neg (by rwa [List.isEmpty_iff]), bind_run hrun]
  exact map_run hcreate

end Build

namespace TruthTable

/-- The functions that no table is needed for. -/
def ConstantOrProjection (t : TruthTable) : Prop :=
  (∃ b, ∀ i < 2 ^ t.numVars, t.bit i = b) ∨
    ∃ v < t.numVars, ∀ i < 2 ^ t.numVars, t.bit i = i.testBit v

/-- Over its support a projection is the projection of one variable. -/
theorem minBase_of_projection {t : TruthTable} (h : t.Canonical) {v : Nat} (hv : v < t.numVars)
    (hbit : ∀ i < 2 ^ t.numVars, t.bit i = i.testBit v) :
    t.support = [v] ∧ t.minBase.1 = proj 1 0 := by
  have hliteral : ∀ i < 2 ^ t.numVars, t.bit i = (i.testBit v ^^ false) := fun i hi => by
    rw [hbit i hi, Bool.xor_false]
  have hsupport : t.support = [v] := support_eq_singleton h hv hliteral
  have hvars : t.minBase.1.numVars = 1 := by rw [numVars_minBase, hsupport, List.length_singleton]
  refine ⟨hsupport, (canonical_minBase h).ext (canonical_proj (by decide) 0) hvars fun i hi => ?_⟩
  have hlt : setVar 0 v (i.testBit 0) < 2 ^ t.numVars := setVar_lt hv (Nat.two_pow_pos _) _
  have hsmall := bit_minBase h hlt
  rw [hbit _ hlt, hsupport, List.map_singleton, testBit_setVar, if_pos rfl] at hsmall
  rw [hvars] at hi
  have hcode : codeOf [i.testBit 0] = i := by
    interval_cases i <;> rfl
  rw [hcode] at hsmall
  rw [hsmall, bit_proj, decide_eq_true hi, Bool.true_and]

end TruthTable

namespace Collapse

/-- The gate `s` was appended to a network, and it is the table of a function over the leaves that
the function depends on. -/
structure Appends (q : Query) (net net' : Network) (s : Signal) : Prop where
  size : net'.size = net.size + 1
  proposed : s = .ofNode net.size
  gate : net'.isGate net.size = true
  reads : ∃ vars : List Nat, vars.Pairwise (· < ·) ∧ (∀ v, v ∈ vars ↔ q.function.DependsOn v) ∧
    (net'.fanins net.size).map some = vars.map fun v => q.leaves[v]?
  table : ∃ t, net'.nodeFunction net.size = .ok t ∧ t.numVars = (net'.fanins net.size).length ∧
    ∀ v < t.numVars, t.DependsOn v

/-- The gate of a table, when it is not there yet. -/
theorem appends_appendGate (hq : q.Valid width net) {literal : Nat}
    (hliteral : net.functions.get? literal = some q.function.minBase.1) :
    Appends q net (net.appendGate q.needed literal).2 (.ofNode net.size) := by
  have hnode : (net.appendGate q.needed literal).2.nodes[net.size]? =
      some { kind := .gate, fanins := q.needed, function := literal, fanout := 0 } := by
    rw [getElem?_appendGate, if_pos rfl]
  have hfanins := fanins_eq hnode
  have hsmall := canonical_minBase hq.canonical
  refine ⟨size_appendGate _ _ _, rfl, isGate_iff.mpr ⟨_, hnode, rfl⟩, ?_, ?_⟩
  · refine ⟨q.function.support, pairwise_support _, fun v => mem_support_iff hq.canonical, ?_⟩
    rw [hfanins, hq.map_some_needed]
  · refine ⟨q.function.minBase.1, nodeFunction_eq hnode hliteral, ?_, fun v hv => ⟨hv, ?_⟩⟩
    · rw [hfanins, hq.length_needed]
    · exact (hasVar_iff hsmall hv).mp (hasVar_minBase hq.canonical hv)

/-- A function of one needed leaf that has its values is the leaf, and all else is a table. -/
theorem collapseInto_cases (q : Query) :
    (∃ leaf, q.needed = [leaf] ∧ q.function.minBase.1 = proj 1 0 ∧
      collapseInto q.function q.leaves = pure leaf) ∨
    (∀ leaf, q.needed = [leaf] → q.function.minBase.1 ≠ proj 1 0) ∧
      collapseInto q.function q.leaves = Build.lut q.needed q.function.minBase.1 := by
  have hneeded : (q.function.minBase.2.filterMap fun v => q.leaves[v]?) = q.needed := by
    rw [minBase_snd]
    rfl
  unfold collapseInto
  simp only [hneeded]
  match q.needed with
  | [] => exact .inr ⟨nofun, rfl⟩
  | [leaf] =>
    by_cases hsmall : q.function.minBase.1 = proj 1 0
    · exact .inl ⟨leaf, rfl, hsmall, if_pos hsmall⟩
    · exact .inr ⟨fun _ _ => hsmall, if_neg hsmall⟩
  | _ :: _ :: _ => exact .inr ⟨nofun, rfl⟩

/-- What collapsing makes of a query. -/
structure Outcome (q : Query) (net net' : Network) (s : Signal) : Prop where
  grows : net.GrowsTo net'
  drives : net'.Drives s fun inputs => q.function.bit (q.pattern net inputs)
  plain : (∀ l ∈ q.leaves, l.negated = false) → s.negated = false
  gates : net'.size = net.size ∨ Appends q net net' s
  untouched : ConstantOrProjection q.function → net' = net

theorem not_constantOrProjection (hq : q.Valid width net) (hne : q.needed ≠ [])
    (hproj : ∀ leaf, q.needed = [leaf] → q.function.minBase.1 ≠ proj 1 0) :
    ¬ ConstantOrProjection q.function := by
  have hneeded := hq.map_some_needed
  rintro (⟨b, hbit⟩ | ⟨v, hv, hbit⟩)
  · rw [support_eq_nil hq.canonical hbit, List.map_nil, List.map_eq_nil_iff] at hneeded
    exact hne hneeded
  · obtain ⟨hsupport, hsmall⟩ := minBase_of_projection hq.canonical hv hbit
    obtain ⟨leaf, hleaf⟩ := List.length_eq_one_iff.mp
      (hq.length_needed.trans (congrArg numVars hsmall))
    exact hproj leaf hleaf hsmall

/-- A table without fanins is a constant, and any other is found or appended. -/
theorem outcome_lut (hnet : net.Proper) (hbasis : net.basis = .lookupTable)
    (hq : q.Valid width net)
    (hproj : ∀ leaf, q.needed = [leaf] → q.function.minBase.1 ≠ proj 1 0) :
    ∃ s net', Build.lut q.needed q.function.minBase.1 net = .ok (s, net') ∧
      Outcome q net net' s := by
  have hsmall := canonical_minBase hq.canonical
  obtain ⟨s, net', hrun, hgrow, hs⟩ :=
    Build.computes_lut hnet hbasis hsmall hq.length_needed hq.needed_lt
  have hdrives := hs.of_eq hq.bit_needed
  refine ⟨s, net', hrun, ?_⟩
  by_cases hnil : q.needed = []
  · have hconstant : Build.lut q.needed q.function.minBase.1 net =
        .ok (net.basis.constant (q.function.minBase.1.bit 0), net) := by
      rw [Build.lut_of_length hq.length_needed, if_pos (List.isEmpty_iff.mpr hnil)]
      rfl
    obtain ⟨rfl, rfl⟩ := Prod.mk.inj (Except.ok.inj (hrun.symm.trans hconstant))
    refine ⟨hgrow, hdrives, fun _ => ?_, .inl rfl, fun _ => rfl⟩
    rw [hbasis]
    rfl
  · have hlt : ∀ s ∈ q.needed, s.node < (net.insertFunction q.function.minBase.1).2.size :=
      hq.needed_lt
    obtain ⟨n, last, hcreate⟩ := exists_createNode hlt (net.insertFunction q.function.minBase.1).1
    have hgate := Build.lut_of_createNode hnil hq.length_needed hcreate
    obtain ⟨rfl, rfl⟩ := Prod.mk.inj (Except.ok.inj (hrun.symm.trans hgate))
    refine ⟨hgrow, hdrives, fun _ => rfl, ?_,
      fun hsimple => absurd hsimple (not_constantOrProjection hq hnil hproj)⟩
    rcases createNode_eq_ok hcreate with ⟨-, rfl⟩ | ⟨rfl, rfl, -⟩
    · exact .inl rfl
    · have hq' : q.Valid width (net.insertFunction q.function.minBase.1).2 := hq.of_size_eq rfl
      have hget := FunctionCache.get?_insert hnet.wellFormed.functions hsmall
      obtain ⟨hsize, hproposed, hkind, hreads, htable⟩ := appends_appendGate hq' hget
      exact .inr ⟨hsize, hproposed, hkind, hreads, htable⟩

theorem collapseInto_run (hnet : net.Proper) (hbasis : net.basis = .lookupTable)
    (hq : q.Valid width net) :
    ∃ s net', collapseInto q.function q.leaves net = .ok (s, net') ∧ Outcome q net net' s := by
  rcases collapseInto_cases q with ⟨leaf, hleaf, hsmall, heq⟩ | ⟨hproj, heq⟩
  · have hmem : leaf ∈ q.needed := hleaf ▸ List.mem_singleton_self leaf
    obtain ⟨v, -, hv⟩ := List.mem_filterMap.mp hmem
    rw [heq]
    refine ⟨leaf, net, rfl, .refl, ⟨hq.needed_lt leaf hmem, fun inputs => ?_⟩,
      fun hplain => hplain leaf (List.mem_of_getElem? hv), .inl rfl, fun _ => rfl⟩
    rw [← hq.bit_needed, hleaf, hsmall, List.map_singleton]
    cases net.signalValue inputs leaf <;> decide
  · rw [heq]
    exact outcome_lut hnet hbasis hq hproj

end Collapse

namespace Oracle

/-- Over lookup tables, collapsing keeps to all terms under which answers to the query are accepted,
whatever the network grows to. -/
theorem collapse_serves {terms : Terms} (hadmits : ∀ net, terms.admits net)
    (haccepts : ∀ q net s, Query.Answered q net s → terms.accepts q net s) (hnet : net.Proper)
    (hbasis : net.basis = .lookupTable) (k : Nat) : collapse.Serves terms k () net := by
  refine serves_of_invariant (fun _ net => net.Proper ∧ net.basis = .lookupTable)
    (fun _ _ _ h hvalues hmarks => ⟨h.1.withScratch hvalues hmarks, h.2⟩) ?_ k ⟨hnet, hbasis⟩
  rintro memory net q ⟨hnet, hbasis⟩ hq
  obtain ⟨s, net', hrun, hout⟩ := Collapse.collapseInto_run hnet hbasis hq
  have hanswer : collapse.answer memory q net =
      .single (collapseInto q.function q.leaves) () net := if_neg (not_not_intro hq.arity)
  have hanswered : Query.Answered q net' s := by
    refine ⟨hout.drives.lt, fun inputs _ => ?_⟩
    rw [hout.drives.value, hq.pattern_eq hnet hout.grows]
  have hextends := hout.grows.extends hnet.wellFormed
  rw [hanswer, Dialogue.single, hrun]
  exact .propose hout.grows (hadmits net') (haccepts q net' s hanswered) fun _ =>
    .finish .refl (hadmits net') ⟨hout.grows.proper hnet, hextends.basis.trans hbasis⟩

/-- Collapsing proposes one signal, and it has the value of the function whatever the leaves are.
At most one gate is appended for it, and none for a constant or a projection. A gate that is
appended reads just the leaves that the function depends on, in their order, and its table depends
on all of them. -/
theorem collapse_answers (hbuilt : net.Built) (hac : net.Acyclic)
    (hbasis : net.basis = .lookupTable) (hq : q.Valid maxVars net)
    (more : List Signal → Signal → Network → Bool) :
    ∃ s net', (collapse.answer () q net).listen (Dialogue.recording more) [] =
        .ok ((), [s], net') ∧
      net.GrowsTo net' ∧ s.node < net'.size ∧
      (∀ inputs, net'.signalValue inputs s = q.function.bit (q.pattern net' inputs)) ∧
      ((∀ l ∈ q.leaves, l.negated = false) → s.negated = false) ∧
      (net'.size = net.size ∨ Collapse.Appends q net net' s) ∧
      (ConstantOrProjection q.function → net' = net) := by
  have hnet : net.Proper := ⟨hbuilt.wellFormed, hac⟩
  obtain ⟨s, net', hrun, hout⟩ := Collapse.collapseInto_run hnet hbasis hq
  have hanswer : collapse.answer () q net =
      .single (collapseInto q.function q.leaves) () net := if_neg (not_not_intro hq.arity)
  refine ⟨s, net', ?_, hout.grows, hout.drives.lt, fun inputs => ?_, hout.plain, hout.gates,
    hout.untouched⟩
  · rw [hanswer]
    exact Dialogue.listen_single hrun more
  · rw [hout.drives.value, hq.pattern_eq hnet hout.grows]

/-- Three inputs of lookup tables. -/
def tableInputs : Network := (new .lookupTable).addPi.2.addPi.2.addPi.2

/-- The conjunction of the first and the last of three leaves. -/
def conjunctionQuery : Query :=
  { function := .ofWord 3 0xA0
    leaves := [⟨2, false⟩, ⟨3, false⟩, ⟨4, false⟩] }

theorem collapse_answers_conjunctionQuery :
    ∃ s net', (collapse.answer () conjunctionQuery tableInputs).listen
        (Dialogue.recording fun _ _ _ => true) [] = .ok ((), [s], net') ∧
      tableInputs.GrowsTo net' ∧ s.node < net'.size ∧
      (∀ inputs, net'.signalValue inputs s =
        conjunctionQuery.function.bit (conjunctionQuery.pattern net' inputs)) ∧
      s.negated = false ∧
      (net'.size = tableInputs.size ∨ Collapse.Appends conjunctionQuery tableInputs net' s) := by
  have hbuilt : tableInputs.Built := ((Built.new .lookupTable).addPi.addPi).addPi
  have hvalid : conjunctionQuery.Valid maxVars tableInputs :=
    ⟨canonical_ofWord (by decide) _, numVars_ofWord _ _, by decide, by decide, nofun⟩
  obtain ⟨s, net', hlisten, hgrow, hlt, hvalue, hplain, hgates, -⟩ :=
    collapse_answers hbuilt (acyclic_of_ordered (by decide)) rfl hvalid fun _ _ _ => true
  exact ⟨s, net', hlisten, hgrow, hlt, hvalue, hplain (by decide), hgates⟩

end Oracle

end LogicSynthesis
