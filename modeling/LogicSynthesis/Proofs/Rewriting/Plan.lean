import LogicSynthesis.Proofs.ConflictGraph.Candidates
import LogicSynthesis.Proofs.ConflictGraph.Guarantees
import LogicSynthesis.Proofs.Cut.Placement
import LogicSynthesis.Proofs.Rewriting.Collection

/-!
# Planning a pass

All candidates are collected, their conflicts are put into a graph, and some of them are chosen.
None of this can go wrong: the vertices in the graph are live, so they can be joined and taken. Each
gate belongs to the cones of its own candidates, so at most one of these is chosen.

## Main definitions

- `Network.Planned` — the choices of a plan can replace their gates, and save what they promise
- `Network.narrowed` — settings that ask for no wider cuts than there are tables

## Main statements

- `cutGraph_ends` — the graph of all candidates
- `mem_touched_self` — the gate of a candidate belongs to its cone
- `pivots_ne` — candidates that are not joined have different gates
- `Collected.planned` — independent vertices make a plan
- `planRewrite_ends` — a plan, with candidates that can replace their gates
-/

namespace LogicSynthesis.Network

variable {μ : Type} {permitted : Fault → Prop} {cost : NodeCost} {base net : Network}

/-- The costs of all cones are found once more, so the graph is that of all candidates. -/
theorem cutGraph_ends (hbase : base.Proper) (hbounded : Bounded permitted cost base)
    (hnet : Counting base permitted cost base.readers net) {sets : CutSets}
    (hsize : sets.size = base.size) (allowZeroGain : Bool) (gains : Gains) :
    Ends permitted (net.cutGraph cost allowZeroGain gains sets) fun r =>
      r.2 = net ∧ net.IsCutGraph cost allowZeroGain gains sets r.1 := by
  refine cutGraph_exact (hsize.le.trans hnet.grown.size_le) fun n hn hgate => ?_
  rw [hsize] at hn
  exact hnet.coneCost_ends hbase hbounded
    ((hnet.grown.kindIs_eq NodeKind.isGate hn).symm.trans hgate)

/-- Both ways of choosing find an independent set. -/
theorem select_ends {g : ConflictGraph} (h : g.WellFormed) (selection : Selection) :
    Ends permitted (select selection g) g.Independent := by
  cases selection with
  | minimizeWeight => exact (ConflictGraph.gwmin_ends h).map fun _ hr => hr.1.toIndependent
  | greedy => exact (ConflictGraph.maximal_ends h).map fun _ hr => hr.1.toIndependent

theorem mem_touched_self (hwf : net.WellFormed) (hac : net.Acyclic) {allowZeroGain : Bool}
    {gains : Gains} {sets : CutSets} (hbelow : ∀ n, ∀ c ∈ sets.of n, c.Below net n) {p : NodeId}
    {i : Nat} (h : net.IsCandidate cost allowZeroGain gains sets p i) :
    p ∈ net.touched sets (p, i) := by
  obtain ⟨c, hc, hsize⟩ := h.cut
  rw [touched, hc]
  exact mem_cutGates_self hwf hac h.gate (hbelow p c (List.mem_of_getElem? hc)) (by omega)

/-- Candidates that are not joined have different gates. -/
theorem pivots_ne (hwf : net.WellFormed) (hac : net.Acyclic) {allowZeroGain : Bool} {gains : Gains}
    {sets : CutSets} (hbelow : ∀ n, ∀ c ∈ sets.of n, c.Below net n) {g : CutGraph}
    (h : net.IsCutGraph cost allowZeroGain gains sets g) {v w : Nat} (hne : v ≠ w)
    (hapart : w ∉ g.graph.adjacency v) {x y : NodeId × Nat} (hx : g.origin[v]? = some x)
    (hy : g.origin[w]? = some y) : x.1 ≠ y.1 := by
  have hself : ∀ {u : Nat} {z : NodeId × Nat}, g.origin[u]? = some z → z.1 ∈ net.touched sets z :=
    fun hz => mem_touched_self hwf hac hbelow
      ((h.mem_origin _ _).mp (Array.mem_of_getElem? hz))
  intro heq
  exact hapart ((h.adjacency v w x y hx hy).mpr ⟨hne, x.1, hself hx, heq ▸ hself hy⟩)

/-- The network of a plan has grown out of `base`. The choices can replace their gates, which are
different ones among `pivots`, and each saves its gain. -/
structure Planned (base : Network) (permitted : Fault → Prop) (exact : Prop) (cost : NodeCost)
    (leastGain : Int) (pivots : List NodeId) (plan : Plan μ) : Prop where
  proper : plan.net.Proper
  grown : base.Extends plan.net
  bounded : Bounded permitted cost plan.net
  past : base.scratch.Past → plan.net.scratch.Past
  pivots : ∀ choice ∈ plan.chosen, choice.1 ∈ pivots ∧ base.isGate choice.1 = true
  chosen : ∀ choice ∈ plan.chosen, Offered exact base cost leastGain choice.1 plan.net choice.2
  distinct : plan.chosen.Pairwise fun choice other => choice.1 ≠ other.1

/-- A choice comes from a vertex of the graph and a candidate for its gate. -/
theorem choiceOf?_eq_some {candidates : Candidates} {origin : Array (NodeId × Nat)} {v : Nat}
    {choice : NodeId × Candidate} (h : choiceOf? candidates origin v = some choice) :
    ∃ i, origin[v]? = some (choice.1, i) ∧ candidates[(choice.1, i)]? = some choice.2 := by
  obtain ⟨⟨n, i⟩, horigin, h⟩ := Option.bind_eq_some_iff.mp h
  obtain ⟨c, hc, h⟩ := Option.bind_eq_some_iff.mp h
  obtain rfl := Option.some.inj h
  exact ⟨i, horigin, hc⟩

/-- Independent vertices stand for candidates of different gates. -/
theorem Collected.planned {terms : Oracle.Terms} {oracle : Oracle μ} {wanted : Bool}
    {exact : Prop} {leastGain : Int} {pivots : List NodeId} {k : Nat} {state : Collection μ}
    (h : Collected base permitted cost terms oracle wanted exact leastGain pivots k state)
    {sets : CutSets} (hbelow : ∀ n, ∀ c ∈ sets.of n, c.Below base n) {allowZeroGain : Bool}
    {gains : Gains} {g : CutGraph}
    (hgraph : state.net.IsCutGraph cost allowZeroGain gains sets g) {selected : List Nat}
    (hselected : g.graph.Independent selected) (count totalGain vertices edges : Nat) :
    Planned base permitted exact cost leastGain pivots
      ⟨state.memory, state.net, count, totalGain, vertices, edges,
        selected.filterMap (choiceOf? state.candidates g.origin)⟩ := by
  have hnet := h.counting
  have hchoice : ∀ choice ∈ selected.filterMap (choiceOf? state.candidates g.origin),
      choice.1 ∈ pivots ∧ base.isGate choice.1 = true ∧
        Offered exact base cost leastGain choice.1 state.net choice.2 := by
    intro choice hchoice
    obtain ⟨v, -, hv⟩ := List.mem_filterMap.mp hchoice
    obtain ⟨i, -, hc⟩ := choiceOf?_eq_some hv
    exact h.candidates choice.1 i choice.2 hc
  refine ⟨hnet.proper, hnet.grown, hnet.bounded, hnet.past, ?_, ?_, ?_⟩
  · exact fun choice h => ⟨(hchoice choice h).1, (hchoice choice h).2.1⟩
  · exact fun choice h => (hchoice choice h).2.2
  · refine List.pairwise_filterMap.mpr (hselected.nodup.imp_of_mem ?_)
    intro v w hv hw hne choice hchoice other hother
    obtain ⟨i, hx, -⟩ := choiceOf?_eq_some hchoice
    obtain ⟨j, hy, -⟩ := choiceOf?_eq_some hother
    have hapart := hselected.apart v hv w hw
    exact pivots_ne hnet.proper.wellFormed hnet.proper.acyclic
      (fun n c hc => (hbelow n c hc).extends hnet.grown) hgraph hne hapart hx hy

/-- The settings with cuts that have no more leaves than a table has variables. -/
def narrowed (settings : RewriteSettings) : RewriteSettings :=
  { settings with
    cuts := { settings.cuts with cutSize := min settings.cuts.cutSize TruthTable.maxVars } }

/-- Once the cuts are enumerated, their bound on leaves does not matter. -/
theorem collectNode_narrowed (oracle : Oracle μ) (settings : RewriteSettings) (cost : NodeCost) :
    collectNode oracle (narrowed settings) cost = collectNode oracle settings cost := rfl

/-- A plan under any settings, up to faults that are permitted. -/
theorem planRewrite_ends {oracle : Oracle μ} {settings : RewriteSettings}
    {accepts : Query → Network → Signal → Prop} {exact : Prop} (hdemands : Demands exact accepts)
    (hbase : base.Proper) (hbounded : Bounded permitted cost base)
    (hallowed : settings.cuts.Allowed permitted) {pivots : List NodeId} {memory : μ}
    (hwalks : wantsDontCares settings oracle = true →
      base.scratch.CanWalk permitted (pivots.length * settings.cuts.cutLimit))
    (hserves : oracle.Serves
      (passTerms permitted cost (min settings.cuts.cutSize TruthTable.maxVars) accepts)
      (pivots.length * settings.cuts.cutLimit) memory base) :
    Ends permitted (base.planRewrite pivots oracle memory settings cost)
      (Planned base permitted exact cost (minGain settings.allowZeroGain) pivots) := by
  refine (enumerateCuts_ends_of_allowed hbase.wellFormed hbase.acyclic hallowed).bind_eq ?_
  rintro sets hrun ⟨hpos, hsets, -⟩
  refine (initReferenceCounts_ends hbase.wellFormed hbounded).bind ?_
  rintro _ ⟨scratch, hscratch, rfl⟩
  have hwidth : (narrowed settings).cuts.cutSize ≤ TruthTable.maxVars := Nat.min_le_right _ _
  have hloop := collectNodes_ends hdemands hbase hbounded hwidth hsets.narrowed hpos
    (collected_start hbase hbounded hscratch hwalks hserves) (List.append_nil pivots).symm
  rw [collectNode_narrowed] at hloop
  refine hloop.bind ?_
  rintro ⟨memory', net, candidates, count, totalGain⟩ hcollected
  refine (cutGraph_ends hbase hbounded hcollected.counting hsets.size settings.allowZeroGain
    candidates.gains).bind ?_
  rintro ⟨g, net'⟩ ⟨hsame, hgraph⟩
  obtain rfl : net = net' := hsame.symm
  refine (select_ends hgraph.graph settings.selection).bind ?_
  intro selected hselected
  exact hcollected.planned (below_of_enumerateCuts hrun).2 hgraph hselected _ _ _ _

end LogicSynthesis.Network
