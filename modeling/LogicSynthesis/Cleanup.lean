import LogicSynthesis.Network.Gates
import LogicSynthesis.Network.Walk

/-!
# Cleanup

Rebuilds the part of a network that its outputs read. The copy goes through the constructors of
the destination, so that folding and sharing apply again to the copied gates.

## Main definitions

- `Network.copyInto` — copies the live logic of a network over given input signals
- `Network.cleanup` — the network without dangling nodes
-/

namespace LogicSynthesis.Network

/-- The signals that stand for nodes of another network. -/
abbrev Images := Std.HashMap NodeId Signal

/-- The signal that stands for an edge. -/
def edgeImage (images : Images) (s : Signal) : Build Signal :=
  match images[s.node]? with
  | some image => Build.withPolarity image s.negated
  | none => throw (.notYetCopied s.node)

/-- Copies one node of `src`, whose fanins are copied already. -/
def copyNode (src : Network) (images : Images) (n : NodeId) : Build Images := do
  let node ← Build.ask fun _ => src.node n
  match node.kind with
  | .constant value => return images.insert n (← Build.constant value)
  | .primaryInput | .registerOutput => return images
  | .gate =>
    let fanins ← node.fanins.mapM (edgeImage images)
    return images.insert n (← Build.cloneNode src n fanins)

/-- Copies the live logic of `src`, with a given signal for each of its combinational inputs.
Returns the signals of its combinational outputs. -/
def copyInto (src : Network) (cis : List Signal) : Build (List Signal) := do
  Build.ask fun _ => require (cis.length == src.numCis) (.inputSignalCount cis.length src.numCis)
  let start := (src.cis.zip cis).foldl (fun images (n, s) => images.insert n s) (∅ : Images)
  let images ← src.topoOrder.foldlM (copyNode src) start
  src.cos.mapM (edgeImage images)

/-- Makes one input for each input of `src`: primary inputs, then register outputs. -/
def copyInputs (src : Network) : Build (List Signal) := do
  let pis ← src.pis.toList.mapM fun _ => Build.pi
  let ros ← src.ros.toList.mapM fun _ => Build.ro
  return pis ++ ros

/-- Makes the given signals the outputs: primary outputs, as many as `src` has, then register
inputs. -/
def addOutputs (src : Network) (signals : List Signal) : Build Unit := do
  (signals.take src.pos.size).forM fun s => discard (Build.po s)
  (signals.drop src.pos.size).forM fun s => discard (Build.ri s)

/-- The network without dangling nodes. Inputs and outputs keep their order; values, marks and
watchers are not carried over. -/
def cleanup (net : Network) : Except Fault Network := do
  let build : Build Unit := do
    let cis ← copyInputs net
    addOutputs net (← copyInto net cis)
  return (← build (.new net.basis)).2

end LogicSynthesis.Network
