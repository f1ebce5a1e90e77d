import LogicSynthesis.ConflictGraph.Basic
import LogicSynthesis.Cut.Enumeration
import LogicSynthesis.Network.FanoutFreeCone

/-!
# The conflict graph of rewriting candidates

A candidate is a cut of a gate with the gain that replacing the gate promises. Two candidates
exclude each other when their cones share a gate, since both would edit the same logic.

## Main definitions

- `CutGraph` — the graph, with the gate and the cut of each vertex
- `Network.cutGraph` — the graph of all candidates of sufficient gain
-/

namespace LogicSynthesis

/-- The gain of each cut, given by its gate and its position among the cuts of the gate. -/
abbrev Gains := NodeId → Nat → Int

/-- A conflict graph with, for each vertex, the gate and the position of the cut, and for each
gate of the network the vertices whose cones it belongs to. -/
structure CutGraph where
  graph : ConflictGraph
  origin : Array (NodeId × Nat)
  coneOf : Array (List Nat)

namespace CutGraph

/-- A graph without vertices over a network of `size` nodes. -/
def start (size : Nat) : CutGraph :=
  { graph := .empty, origin := #[], coneOf := Array.replicate size [] }

/-- Adds the candidate of a gate and one of its cuts, whose cone consists of `gates`. -/
def addCandidate (g : CutGraph) (pivot : NodeId) (position : Nat) (gain : Int)
    (gates : List NodeId) : CutGraph :=
  let (v, graph) := g.graph.addVertex gain.toNat
  { graph
    origin := g.origin.push (pivot, position)
    coneOf := gates.foldl (fun cones n => cones.modify n (· ++ [v])) g.coneOf }

/-- Joins every two of the vertices, each to those before it. -/
def joinAll (vertices : List Nat) (graph : ConflictGraph) : Except Fault ConflictGraph :=
  vertices.zipIdx.foldlM
    (fun graph (w, j) => (vertices.take j).foldlM (fun graph v => graph.addEdge v w) graph) graph

end CutGraph

namespace Network

/-- The least gain of a candidate. -/
def minGain (allowZeroGain : Bool) : Int := if allowZeroGain then 0 else 1

/-- Adds the candidates among the cuts of `pivot`: those of more than two leaves and of
sufficient gain. -/
def addCandidates (net : Network) (allowZeroGain : Bool) (gains : Gains) (cuts : List Cut)
    (pivot : NodeId) (g : CutGraph) : CutGraph :=
  cuts.zipIdx.foldl
    (fun g (c, i) =>
      let gain := gains pivot i
      if c.size ≤ 2 ∨ gain < minGain allowZeroGain then g
      else g.addCandidate pivot i gain (net.cutGates c.leaves pivot)) g

/-- Adds the candidates of one node, unless it is no gate, has no cuts, or is a gate that would
be replaced by one that costs as much. -/
def addPivotCandidates (cost : NodeCost) (allowZeroGain : Bool) (gains : Gains) (sets : CutSets)
    (state : CutGraph × Network) (n : NodeId) : Except Fault (CutGraph × Network) := do
  let (g, net) := state
  if sets.size ≤ n ∨ net.isTerminal n then return (g, net)
  let (coneCost, net) ← net.coneCost cost n
  if coneCost = 1 then return (g, net)
  return (net.addCandidates allowZeroGain gains (sets.of n) n g, net)

/-- The conflict graph of all candidates. The values must hold the reference counts. -/
def cutGraph (net : Network) (cost : NodeCost) (allowZeroGain : Bool) (gains : Gains)
    (sets : CutSets) : Except Fault (CutGraph × Network) := do
  let (g, net) ← net.nodeIds.foldlM (addPivotCandidates cost allowZeroGain gains sets)
    (.start net.size, net)
  let graph ← g.coneOf.toList.foldlM (fun graph vertices => CutGraph.joinAll vertices graph) g.graph
  return ({ g with graph }, net)

end Network

end LogicSynthesis
