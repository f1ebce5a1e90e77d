import LogicSynthesis.Network.Construction

/-!
# Substitution

A gate is replaced by a signal: every edge that read the gate reads the signal instead, with
polarities composed. The replacing node itself keeps its fanins, so that it never comes to read
itself. The replaced gate stays as it is, without an entry in the index.

## Main definitions

- `Network.substitute` — the replacement
-/

namespace LogicSynthesis.Network

/-- Removes the index entry of a gate, if the entry is its own. -/
def forgetEntry (index : Std.HashMap (List Signal × Nat) NodeId) (n : NodeId) (node : Node) :
    Std.HashMap (List Signal × Nat) NodeId :=
  let key := (node.fanins, node.function)
  if index[key]? = some n then index.erase key else index

/-- The edge `s`, moved to `new` if it reads `old`. -/
def redirect (old : NodeId) (new s : Signal) : Signal :=
  if s.node = old then s.retarget new else s

/-- A network in the course of a substitution, with the number of edges moved so far and the
gates edited so far, latest first, each with its former fanins. -/
structure Rerouting where
  net : Network
  moved : Nat
  edited : List (NodeId × List Signal)

/-- Moves the edges of gate `n` from `old` to `new`. -/
def rerouteGate (old : NodeId) (new : Signal) (state : Rerouting) (n : NodeId) : Rerouting :=
  let ⟨net, moved, edited⟩ := state
  match net.nodes[n]? with
  | none => ⟨net, moved, edited⟩
  | some node =>
    if n ≠ new.node ∧ node.kind.isGate ∧ node.fanins.any (·.node == old) then
      let redirected := node.fanins.map (redirect old new)
      let fanins := if net.basis.isSymmetric then Signal.sort redirected else redirected
      let index := (forgetEntry net.index n node).insertIfNew (fanins, node.function) n
      ⟨{ net with nodes := net.nodes.setIfInBounds n { node with fanins }, index },
        moved + node.fanins.countP (·.node == old), (n, node.fanins) :: edited⟩
    else ⟨net, moved, edited⟩

/-- Replaces every reading of the gate `old` by `new`. -/
def substitute (net : Network) (old : NodeId) (new : Signal) : Except Fault Network := do
  let node ← net.node old
  require node.kind.isGate (.notAGate old)
  if new.node = old then return net
  net.checkNodes [new.node]
  let start := { net with index := forgetEntry net.index old node }
  let ⟨net, moved, edited⟩ := net.nodeIds.foldl (rerouteGate old new) ⟨start, 0, []⟩
  let moved := moved + net.cos.countP (·.node == old)
  let nodes := net.nodes.modify new.node fun node => { node with fanout := node.fanout + moved }
  return { net with
    nodes := nodes.modify old fun node => { node with fanout := node.fanout - moved }
    pos := net.pos.map (redirect old new)
    ris := net.ris.map (redirect old new)
    events := edited.reverse.foldl (fun events (n, former) => events.notifyModified n former)
      net.events }

end LogicSynthesis.Network
