import LogicSynthesis.Cut.Basic
import LogicSynthesis.Network.Walk
import LogicSynthesis.Settings
import LogicSynthesis.TruthTable.Checked

/-!
# Cut enumeration

Every node of a network receives a bounded set of cuts. A constant has one cut without leaves and
an input its trivial cut. The cuts of a gate come from all ways to choose one cut for each fanin:
their leaves are merged, and the function of the gate is composed with their functions. The
trivial cut is always kept, as the last one.

## Main definitions

- `Cut.combine` — the cut that arises from one cut for each fanin
- `foldChoices` — goes through the choices
- `Network.enumerateCuts` — the cut sets of all nodes

## Design notes

The first fanin varies fastest. No more choices are tried once a set holds four times as many
cuts as are kept in the end.
-/

namespace LogicSynthesis

/-- The cut sets of the nodes, by node. -/
abbrev CutSets := Array (List Cut)

namespace CutSets

/-- The cuts of a node; none for a node that has no set. -/
def of (sets : CutSets) (n : NodeId) : List Cut := (sets[n]?).getD []

/-- The number of cuts of all nodes. -/
def total (sets : CutSets) : Nat := sets.foldl (fun count cuts => count + cuts.length) 0

end CutSets

/-- The table of a fanin over the merged leaves, from the cut that was chosen for it. -/
def Cut.faninTable (merged : List NodeId) (s : Signal) (c : Cut) : Except Fault TruthTable :=
  (TruthTable.Checked.expand c.function (c.leaves.map merged.idxOf) merged.length).map
    (·.withPolarity s.negated)

/-- The cut of a gate with the given function that arises from one cut for each fanin, if the
leaves are few enough. -/
def Cut.combine (settings : CutSettings) (function : TruthTable) (fanins : List Signal)
    (chosen : List Cut) : Except Fault (Option Cut) :=
  match mergeLeaves (chosen.map Cut.leaves) settings.cutSize with
  | none => .ok none
  | some merged => do
    let tables ← (fanins.zip chosen).mapM fun (s, c) => c.faninTable merged s
    let composed ← TruthTable.Checked.compose function tables
    if settings.minimize then
      let (small, vars) := composed.minBase
      return some (.make (vars.filterMap fun i => merged[i]?) small)
    else
      return some (.make merged composed)

/-- Goes through the ways to choose one cut from each set, until `finished`. The last set varies
fastest, and its cut stands first in the choice. -/
def foldChoices {σ : Type} (finished : σ → Except Fault Bool)
    (step : σ → List Cut → Except Fault σ) :
    List (List Cut) → List Cut → σ → Except Fault σ
  | [], chosen, state => step state chosen
  | set :: sets, chosen, state =>
    set.foldlM (fun state c => do
      if ← finished state then return state
      else foldChoices finished step sets (c :: chosen) state) state

/-- The number of cuts of a gate at which no further choices are tried. -/
def saturation (settings : CutSettings) : Except Fault Nat := do
  let bound := 4 * settings.cutLimit
  require (bound < 1 <<< 64) .overflow
  return bound

/-- The cuts of a gate found so far, and whether any choice was tried. -/
structure CutSearch where
  started : Bool
  found : List Cut

namespace CutSearch

/-- Whether so many cuts were found that no further choices are tried. The first choice is always
tried. -/
def isSaturated (settings : CutSettings) (search : CutSearch) : Except Fault Bool := do
  if search.started then return decide ((← saturation settings) ≤ search.found.length)
  else return false

/-- Tries one choice. -/
def step (settings : CutSettings) (function : TruthTable) (fanins : List Signal)
    (search : CutSearch) (chosen : List Cut) : Except Fault CutSearch := do
  match ← Cut.combine settings function fanins chosen with
  | none => return { search with started := true }
  | some c => return { started := true, found := Cut.insertInto search.found c }

end CutSearch

namespace Network

/-- The cuts of a node, from those of its fanins. -/
def cutsOf (net : Network) (settings : CutSettings) (sets : CutSets) (n : NodeId) :
    Except Fault (List Cut) := do
  let node ← net.node n
  match node.kind with
  | .constant value => return [.constant value]
  | .primaryInput | .registerOutput => return [.trivial n]
  | .gate =>
    let function ← net.functions.get node.function
    let choices := (node.fanins.map fun s => sets.of s.node).reverse
    let search ← foldChoices (CutSearch.isSaturated settings)
      (CutSearch.step settings function node.fanins) choices [] ⟨false, []⟩
    return search.found.take (settings.cutLimit - 1) ++ [.trivial n]

/-- The cuts of every node. -/
def enumerateCuts (net : Network) (settings : CutSettings) : Except Fault CutSets := do
  require (1 ≤ settings.cutLimit) .noTrivialCut
  (net.coneOrder [] net.nodeIds).foldlM
    (fun sets n => return sets.setIfInBounds n (← net.cutsOf settings sets n))
    (Array.replicate net.size [])

end Network

end LogicSynthesis
