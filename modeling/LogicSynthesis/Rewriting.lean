import LogicSynthesis.ConflictGraph.Candidates
import LogicSynthesis.ConflictGraph.Selection
import LogicSynthesis.DontCares
import LogicSynthesis.Network.Substitution
import LogicSynthesis.Resynthesis.Oracle

/-!
# Cut rewriting

The cuts of every gate are offered to an oracle. A proposal is scored by what it saves: the cost
of the cone that dies with the gate, less the cost of the gates that come into use with the
proposal. Candidates whose cones overlap exclude each other, and an independent set of them is
substituted in one batch. Replaced gates are left dangling.

## Main definitions

- `Candidate` — a replacement and its gain
- `Network.rewriteCut` — the best candidate for one cut
- `Network.planRewrite`, `Network.applyChoices` — choosing the candidates, and the batch
- `Network.rewrite`, `Network.rewriteNodes` — a pass over all gates, or over chosen ones
- `RewriteReport` — what a pass did

## Design notes

The values of the network hold reference counts during a pass. While an oracle answers, the gate
under consideration is released, so that gates of its cone count as new when a proposal uses
them again.
-/

namespace LogicSynthesis

/-- A signal that may replace a gate, and what the replacement saves. -/
structure Candidate where
  gain : Int
  replacement : Signal
  deriving DecidableEq, Repr

/-- The candidates found, by gate and position of the cut. -/
abbrev Candidates := Std.HashMap (NodeId × Nat) Candidate

/-- The gain of a cut; a cut without candidate has none. -/
def Candidates.gains (candidates : Candidates) : Gains := fun n i =>
  match candidates[(n, i)]? with
  | some c => c.gain
  | none => -1

/-- What a pass did. The gains are those of all candidates, chosen or not. -/
structure RewriteReport where
  candidates : Nat
  vertices : Nat
  edges : Nat
  selected : Nat
  substitutions : Nat
  totalGain : Nat
  deriving DecidableEq, Repr

/-- A cost as a signed number of 32 bits. -/
def signedCost (cost : Nat) : Int := Int.bmod cost costBound

/-- What is saved when the cost `released` gives way to the cost `added`. -/
def savedCost (released added : Nat) : Except Fault Int := do
  let saved := signedCost released - signedCost added
  require (Int.bmod saved costBound == saved) .overflow
  return saved

namespace Network

/-- Keeps a candidate of sufficient gain that is better than the best one so far. -/
def keepBest (leastGain : Int) (best : Option Candidate) (c : Candidate) : Option Candidate :=
  if c.gain < leastGain then best
  else
    match best with
    | none => some c
    | some b => if b.gain < c.gain then some c else some b

/-- Scores a proposal against the cost that was released with `pivot`. A proposal that contains
the pivot saves nothing. The oracle is always asked to go on. -/
def scoreProposal (cost : NodeCost) (pivot : NodeId) (released : Nat) (leastGain : Int)
    (best : Option Candidate) (s : Signal) (net : Network) :
    Except Fault (Bool × Option Candidate × Network) := do
  let ((added, contains), net) ← net.acquireContaining cost s.node pivot
  let (_, net) ← net.release cost s.node
  let gain ← if contains then pure (-1) else savedCost released added
  return (true, keepBest leastGain best ⟨gain, s⟩, net)

/-- The don't-cares of the leaves, if they are asked for and the oracle uses them. -/
def maskFor (net : Network) (wanted : Bool) (leaves : List NodeId) :
    Except Fault (Option TruthTable × Network) :=
  if wanted then do
    let (mask, net) ← net.dontCares leaves defaultWindowInputs
    return (some mask, net)
  else return (none, net)

/-- The best candidate for one cut of `pivot`. Afterwards every gate has the reference counts
that it had before. -/
def rewriteCut {μ : Type} (net : Network) (oracle : Oracle μ) (memory : μ)
    (settings : RewriteSettings) (cost : NodeCost) (pivot : NodeId) (cut : Cut) :
    Except Fault (μ × Option Candidate × Network) := do
  if cut.size ≤ 2 then return (memory, none, net)
  require (cut.function.numVars == cut.leaves.length) .requirement
  let (released, net) ← net.release cost pivot
  let (dontCares, net) ← net.maskFor (settings.useDontCares && oracle.usesDontCares) cut.leaves
  let query : Query := { function := cut.function, leaves := cut.leaves.map .ofNode, dontCares }
  let (memory, best, net) ← (oracle.answer memory query net).listen
    (scoreProposal cost pivot released (minGain settings.allowZeroGain)) none
  let (_, net) ← net.acquire cost pivot
  return (memory, best, net)

/-- A pass in the course of collecting candidates. -/
structure Collection (μ : Type) where
  memory : μ
  net : Network
  candidates : Candidates
  count : Nat
  totalGain : Nat

/-- Collects the candidate for one cut. -/
def collectCut {μ : Type} (oracle : Oracle μ) (settings : RewriteSettings) (cost : NodeCost)
    (pivot : NodeId) (state : Collection μ) (entry : Cut × Nat) :
    Except Fault (Collection μ) := do
  let ⟨memory, net, candidates, count, totalGain⟩ := state
  let (cut, i) := entry
  let (memory, best, net) ← net.rewriteCut oracle memory settings cost pivot cut
  match best with
  | none => return ⟨memory, net, candidates, count, totalGain⟩
  | some c =>
    return ⟨memory, net, candidates.insert (pivot, i) c, count + 1, totalGain + c.gain.toNat⟩

/-- Collects the candidates of one node, unless it is no gate, has no cuts, or is a gate that
would be replaced by one that costs as much. -/
def collectNode {μ : Type} (oracle : Oracle μ) (settings : RewriteSettings) (cost : NodeCost)
    (sets : CutSets) (state : Collection μ) (pivot : NodeId) : Except Fault (Collection μ) := do
  let ⟨memory, net, candidates, count, totalGain⟩ := state
  if sets.size ≤ pivot ∨ net.isTerminal pivot then
    return ⟨memory, net, candidates, count, totalGain⟩
  let (coneCost, net) ← net.coneCost cost pivot
  let state : Collection μ := ⟨memory, net, candidates, count, totalGain⟩
  if coneCost = 1 then return state
  (sets.of pivot).zipIdx.foldlM (collectCut oracle settings cost pivot) state

/-- Chooses vertices of a conflict graph. -/
def select (selection : Selection) (g : ConflictGraph) : Except Fault (List Nat) :=
  match selection with
  | .minimizeWeight => g.gwmin.map Prod.fst
  | .greedy => g.maximal.map Prod.fst

/-- Replaces a gate, unless the replacement is the gate itself, a constant, or meanwhile depends
on the gate. -/
def applyCandidate (net : Network) (pivot : NodeId) (replacement : Signal) :
    Except Fault (Option Network) := do
  let target := replacement.node
  if target = pivot then return none
  if (← net.node target).kind.isConstant then return none
  if ← net.inTransitiveFanin target pivot then return none
  return some (← net.substitute pivot replacement)

/-- What a pass is about to do: a network that holds all proposals, and the gates to replace in
their order, each with its candidate. -/
structure Plan (μ : Type) where
  memory : μ
  net : Network
  candidates : Nat
  totalGain : Nat
  vertices : Nat
  edges : Nat
  chosen : List (NodeId × Candidate)

/-- The gate and the candidate behind a vertex of the conflict graph. -/
def choiceOf? (candidates : Candidates) (origin : Array (NodeId × Nat)) (v : Nat) :
    Option (NodeId × Candidate) := do
  let (pivot, i) ← origin[v]?
  return (pivot, ← candidates[(pivot, i)]?)

/-- Collects the candidates of the given pivots and chooses among them. -/
def planRewrite {μ : Type} (net : Network) (pivots : List NodeId) (oracle : Oracle μ)
    (memory : μ) (settings : RewriteSettings) (cost : NodeCost) : Except Fault (Plan μ) := do
  let sets ← net.enumerateCuts settings.cuts
  let net ← net.initReferenceCounts
  let ⟨memory, net, candidates, count, totalGain⟩ ←
    pivots.foldlM (collectNode oracle settings cost sets) ⟨memory, net, ∅, 0, 0⟩
  let (g, net) ← net.cutGraph cost settings.allowZeroGain candidates.gains sets
  let selected ← select settings.selection g.graph
  return {
    memory
    net
    candidates := count
    totalGain
    vertices := g.graph.numVertices
    edges := g.graph.numEdges
    chosen := selected.filterMap (choiceOf? candidates g.origin) }

/-- Applies one candidate, and counts it if the gate is replaced. -/
def applyChoice (state : Nat × Network) (choice : NodeId × Candidate) :
    Except Fault (Nat × Network) := do
  let (count, net) := state
  match ← net.applyCandidate choice.1 choice.2.replacement with
  | some net => return (count + 1, net)
  | none => return (count, net)

/-- Applies candidates in their order, and counts the gates that are replaced. -/
def applyChoices (net : Network) (chosen : List (NodeId × Candidate)) :
    Except Fault (Nat × Network) :=
  chosen.foldlM applyChoice (0, net)

/-- A pass over the given pivots. -/
def rewritePivots {μ : Type} (net : Network) (pivots : List NodeId) (oracle : Oracle μ)
    (memory : μ) (settings : RewriteSettings) (cost : NodeCost) :
    Except Fault (RewriteReport × μ × Network) := do
  let ⟨memory, net, candidates, totalGain, vertices, edges, chosen⟩ ←
    net.planRewrite pivots oracle memory settings cost
  let (substitutions, net) ← net.applyChoices chosen
  require net.cycleNodes.isEmpty .cycleIntroduced
  let report : RewriteReport :=
    { candidates, vertices, edges, selected := chosen.length, substitutions, totalGain }
  return (report, memory, net)

/-- A pass over all gates. -/
def rewrite {μ : Type} (net : Network) (oracle : Oracle μ) (memory : μ)
    (settings : RewriteSettings) (cost : NodeCost) :
    Except Fault (RewriteReport × μ × Network) :=
  net.rewritePivots net.nodeIds oracle memory settings cost

/-- A pass over those of the given nodes that are gates of the network. Cuts are still
enumerated for all nodes. -/
def rewriteNodes {μ : Type} (net : Network) (nodes : List NodeId) (oracle : Oracle μ)
    (memory : μ) (settings : RewriteSettings) (cost : NodeCost) :
    Except Fault (RewriteReport × μ × Network) :=
  net.rewritePivots (net.nodeIds.filter nodes.contains) oracle memory settings cost

end Network

end LogicSynthesis
