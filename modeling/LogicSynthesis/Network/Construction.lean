import LogicSynthesis.Network.Basic

/-!
# Building networks

Nodes are only ever appended. A gate is created through the structural index: when a gate with
the same fanins and function exists, that gate is returned and nothing changes.

## Main definitions

- `Network.addInput` — appends a primary input or a register output
- `Network.addPo`, `Network.addRi` — adds an output
- `Network.createNode` — the gate of given fanins and function
- `Build` — a computation that extends a network
-/

namespace LogicSynthesis

/-- A computation that works on a network and may stop. -/
abbrev Build := StateT Network (Except Fault)

namespace Network

/-- Appends a node and notifies the watchers. -/
def append (net : Network) (node : Node) : NodeId × Network :=
  (net.nodes.size,
    { net with
      nodes := net.nodes.push node
      scratch := net.scratch.grow
      events := net.events.notifyAdded net.nodes.size })

def inputNode (kind : NodeKind) : Node :=
  { kind, fanins := [], function := FunctionCache.identityLiteral, fanout := 0 }

/-- Appends a primary input. -/
def addPi (net : Network) : Signal × Network :=
  let (n, net) := net.append (inputNode .primaryInput)
  (.ofNode n, { net with pis := net.pis.push n })

/-- Appends a register output. -/
def addRo (net : Network) : Signal × Network :=
  let (n, net) := net.append (inputNode .registerOutput)
  (.ofNode n, { net with ros := net.ros.push n })

/-- Counts one more edge that reads `n`. The counts are meant to have 32 bits. As they never exceed
the number of edges, they are in range while a network has fewer than `2 ^ 32` edges. -/
def countReader (nodes : Array Node) (n : NodeId) : Array Node :=
  nodes.modify n fun node => { node with fanout := node.fanout + 1 }

/-- Adds a primary output and returns its position. -/
def addPo (net : Network) (s : Signal) : Except Fault (Nat × Network) := do
  net.checkNodes [s.node]
  return (net.pos.size, { net with nodes := countReader net.nodes s.node, pos := net.pos.push s })

/-- Adds a register input and returns its position. -/
def addRi (net : Network) (s : Signal) : Except Fault (Nat × Network) := do
  net.checkNodes [s.node]
  return (net.ris.size, { net with nodes := countReader net.nodes s.node, ris := net.ris.push s })

/-- Appends a gate, counts its readings and enters it into the index. -/
def appendGate (net : Network) (fanins : List Signal) (function : Nat) : NodeId × Network :=
  let nodes := fanins.foldl (fun nodes s => countReader nodes s.node) net.nodes
  let (n, net) := { net with nodes }.append { kind := .gate, fanins, function, fanout := 0 }
  (n, { net with index := net.index.insert (fanins, function) n })

/-- The gate with the given fanins and function, appended if there is none. -/
def createNode (net : Network) (fanins : List Signal) (function : Nat) :
    Except Fault (NodeId × Network) :=
  match net.index[(fanins, function)]? with
  | some n => .ok (n, net)
  | none => do
    net.checkNodes (fanins.map Signal.node)
    return net.appendGate fanins function

end Network

namespace Build

/-- Appends an input. -/
def pi : Build Signal := fun net => .ok net.addPi

def ro : Build Signal := fun net => .ok net.addRo

def po (s : Signal) : Build Nat := fun net => net.addPo s

def ri (s : Signal) : Build Nat := fun net => net.addRi s

/-- The gate with the given fanins and function. -/
def node (fanins : List Signal) (function : Nat) : Build NodeId :=
  fun net => net.createNode fanins function

/-- The literal of a function. -/
def function (t : TruthTable) : Build Nat := fun net => .ok (net.insertFunction t)

/-- The signal of a constant. -/
def constant (value : Bool) : Build Signal := fun net => .ok (net.basis.constant value, net)

/-- A question to the network that leaves it as it is. -/
def ask {α : Type} (question : Network → Except Fault α) : Build α :=
  fun net => (question net).map (·, net)

end Build

end LogicSynthesis
