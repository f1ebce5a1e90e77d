import LogicSynthesis.Proofs.Rewriting.Plan

/-!
# A batch edits each gate at most once

Candidates are joined when their cones share a gate, and no two chosen vertices are joined. So the
cones of the chosen candidates are disjoint. Each of them contains its gate, whatever leaves were
dropped from the cut, so no gate is chosen twice.

## Main statements

- `chosen_touch_disjoint_gates` — the graph of all candidates, and what is chosen from it
-/

namespace LogicSynthesis.Network

variable {permitted : Fault → Prop} {net : Network} {cost : NodeCost} {allowZeroGain : Bool}
  {gains : Gains} {settings : CutSettings} {sets : CutSets}

/-- Unless costs or counts overflow where this is permitted, the graph is found. Its vertices are
the cuts of more than two leaves and of sufficient gain of the gates whose cone does not cost one,
each of them once, and two of these are joined just when their cones share a gate. So both ways of
choosing pick candidates of disjoint cones, and no gate twice. -/
theorem chosen_touch_disjoint_gates (hnet : net.Built) (hac : net.Acyclic)
    (hcounts : net.scratch.valueAt = net.readers)
    (hcost : (net.totalCost cost < costBound ∧ net.edges.length < 2147483648) ∨
      permitted .overflow)
    (hsets : net.enumerateCuts settings = .ok sets) (gains : Gains) (allowZeroGain : Bool) :
    Ends permitted (net.cutGraph cost allowZeroGain gains sets) fun r =>
      r.2 = net ∧ r.1.origin.size = r.1.graph.capacity ∧ r.1.origin.toList.Nodup ∧
      (∀ p i, (p, i) ∈ r.1.origin ↔ net.IsCandidate cost allowZeroGain gains sets p i) ∧
      (∀ v w x y, r.1.origin[v]? = some x → r.1.origin[w]? = some y → v ≠ w →
        (r.1.graph.hasEdge v w = true ↔ ∃ m ∈ net.touched sets x, m ∈ net.touched sets y)) ∧
      ∀ selection, ∃ chosen, select selection r.1.graph = .ok chosen ∧ chosen.Nodup ∧
        (∀ v ∈ chosen, v < r.1.graph.capacity) ∧
        ∀ v ∈ chosen, ∀ w ∈ chosen, v ≠ w →
          ∀ x y, r.1.origin[v]? = some x → r.1.origin[w]? = some y →
            (net.touched sets x).Disjoint (net.touched sets y) ∧ x.1 ≠ y.1 := by
  have hwf := hnet.wellFormed
  have haffordable : Affordable permitted net cost := by
    refine hcost.imp_left fun h ns hnodup hgates => ?_
    exact (costOf_le_totalCost hnodup hgates).trans_lt h.1
  have hroom : Roomy permitted net net.scratch.valueAt := by
    rw [hcounts]
    refine hcost.imp_left fun h ns hnodup m => ?_
    have hloads : net.loads ns m ≤ net.readers m := loads_le_readers hnodup m
    have hreaders := net.readers_le_length_edges m
    have hedges := h.2
    rw [Scratch.valueBound]
    omega
  have hsize := (below_of_enumerateCuts hsets).1
  refine (cutGraph_exact hsize.le fun n hn hgate => ?_).mono ?_
  · rw [hsize] at hn
    refine coneCost_ends hwf hac hn (fun _ => ⟨net.nodeIds.filter net.isGate, ?_, ?_⟩) hroom
      haffordable
    · exact List.mem_filter.mpr ⟨List.mem_range.mpr hn, hgate⟩
    · rw [hcounts]
      exact releasable_gates hwf
  rintro ⟨g, net'⟩ ⟨hsame, hgraph⟩
  obtain rfl : net = net' := hsame.symm
  refine ⟨rfl, hgraph.size, hgraph.nodup, hgraph.mem_origin, ?_, fun selection => ?_⟩
  · intro v w x y hx hy hne
    exact (hgraph.adjacency v w x y hx hy).trans (and_iff_right hne)
  obtain ⟨chosen, hselect, hchosen⟩ := ends_never_iff.mp (select_ends hgraph.graph selection)
  refine ⟨chosen, hselect, hchosen.nodup, ?_, ?_⟩
  · exact fun v hv => hgraph.graph.lt_of_isLive (hchosen.live v hv)
  · intro v hv w hw hne x y hx hy
    have hdisjoint : (net.touched sets x).Disjoint (net.touched sets y) := by
      intro m hmx hmy
      exact hchosen.apart v hv w hw ((hgraph.adjacency v w x y hx hy).mpr ⟨hne, m, hmx, hmy⟩)
    exact ⟨hdisjoint, pivots_ne hwf hac (below_of_enumerateCuts hsets).2 hgraph hne
      (hchosen.apart v hv w hw) hx hy⟩

/-- Candidates of gain one, on two conjunctions of which nothing reads the outer one. -/
theorem chosen_touch_disjoint_gates_conjunctionOfThree : ∃ net sets r,
    conjunctionOfThree.initReferenceCounts = .ok net ∧ net.enumerateCuts {} = .ok sets ∧
    net.cutGraph unitCost false (fun _ _ => 1) sets = .ok r ∧
    (∀ p i, (p, i) ∈ r.1.origin ↔ net.IsCandidate unitCost false (fun _ _ => 1) sets p i) ∧
    ∀ selection, ∃ chosen, select selection r.1.graph = .ok chosen ∧
      ∀ v ∈ chosen, ∀ w ∈ chosen, v ≠ w →
        ∀ x y, r.1.origin[v]? = some x → r.1.origin[w]? = some y →
          (net.touched sets x).Disjoint (net.touched sets y) ∧ x.1 ≠ y.1 := by
  have hbuilt := built_conjunctionOfThree
  have hbounded : Bounded Never unitCost conjunctionOfThree := .inl (by decide)
  obtain ⟨_, hcounted, scratch, hscratch, rfl⟩ :=
    ends_never_iff.mp (initReferenceCounts_ends hbuilt.wellFormed hbounded)
  have hnet : (conjunctionOfThree.withScratch scratch).Built := by
    refine .annotate hbuilt (hscratch.size.trans hbuilt.wellFormed.values) ?_
    rw [hscratch.marks]
    exact hbuilt.wellFormed.marks
  have hac : (conjunctionOfThree.withScratch scratch).Acyclic := acyclic_conjunctionOfThree
  have hcost : conjunctionOfThree.totalCost unitCost < costBound ∧
      conjunctionOfThree.edges.length < 2147483648 := by decide
  obtain ⟨sets, hsets, -⟩ := ends_never_iff.mp
    (@enumerateCuts_ends _ hnet.wellFormed hac Never {} (by decide) (by decide) (by decide))
  obtain ⟨r, hr, -, -, -, hvertices, -, hchosen⟩ := ends_never_iff.mp
    (@chosen_touch_disjoint_gates Never _ unitCost _ sets hnet hac hscratch.valueAt
      (.inl hcost) hsets (fun _ _ => 1) false)
  refine ⟨_, sets, r, hcounted, hsets, hr, hvertices, fun selection => ?_⟩
  obtain ⟨chosen, hselect, -, -, hdisjoint⟩ := hchosen selection
  exact ⟨chosen, hselect, hdisjoint⟩

end LogicSynthesis.Network
